import ProtectedMedia.DecryptionModule.KeyStore
import ProtectedMedia.Text.Blank

/-!
# Keys in writing

Keys and key identifiers are written as hexadecimal text in which hyphens count for nothing. A
store is built from a list of additions; the first bad one decides the error, and a store without
any key is refused.
-/

namespace ProtectedMedia

/-- The block that a text spells in hexadecimal, hyphens aside. -/
def Block.ofText (text : List Char) : Except Error Block :=
  match Hex.decode (Text.utf8 (String.ofList (text.filter (· ≠ '-')))) with
  | .error fault => .error (.hex fault)
  | .ok b =>
    match Block.ofBytes? b with
    | some x => .ok x
    | none => .error (.keySize b.length)

namespace KeyStore

inductive Addition where
  | texts (keyId key : String)
  /-- Both in one text, divided by the first colon. -/
  | pair (text : String)
  | blocks (keyId key : Block)

/-- Adds a key given in writing. The identifier is read before the key. -/
def addTexts (keys : KeyStore) (keyId key : List Char) : Except Error KeyStore := do
  let keyId ← Block.ofText keyId
  let key ← Block.ofText key
  return keys.insert keyId key

/-- Makes one addition. Blanks around the halves of a pair count for nothing. -/
def add (keys : KeyStore) : Addition → Except Error KeyStore
  | .texts keyId key => keys.addTexts keyId.toList key.toList
  | .pair text =>
    match Text.splitOnce? ':' text.toList with
    | some (keyId, key) => keys.addTexts (Text.trim keyId) (Text.trim key)
    | none => .error (.keyPair text)
  | .blocks keyId key => .ok (keys.insert keyId key)

/-- The store with all additions made in order; there has to be at least one. -/
def build (additions : List Addition) : Except Error KeyStore := do
  let keys ← additions.foldlM add empty
  if keys.entries.isEmpty then throw .noKeys else return keys

end KeyStore

end ProtectedMedia
