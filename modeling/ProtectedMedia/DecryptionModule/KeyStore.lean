import ProtectedMedia.Cipher.Aes
import ProtectedMedia.Cipher.Chaining
import ProtectedMedia.Cipher.CounterMode
import ProtectedMedia.Cipher.Pattern
import ProtectedMedia.DecryptionModule
import ProtectedMedia.Error

/-!
# Clear keys

A key store holds keys in the clear, one for each key identifier, and decrypts with them. A
request is refused before anything is written, and the checks come in a fixed order: first the
key, then the shape of the request, then the use of a block offset.

The block cipher is a parameter, because nothing here depends on which one it is.
-/

namespace ProtectedMedia

/-- Keys by key identifier, the latest first; no identifier occurs twice. -/
structure KeyStore where
  entries : List (Block × Block)
  distinct : entries.Pairwise fun a b => a.1 ≠ b.1

inductive Refusal where
  | noKey (keyId : Bytes)
  /-- The vector is not a block or the destination is too small. -/
  | malformed (ivSize dataSize destSize : Nat)
  /-- A run that starts inside a block has a pattern. -/
  | offsetWithPattern
  /-- A run that starts inside a block is chained. -/
  | offsetWithChaining
  deriving DecidableEq

namespace Refusal

def status : Refusal → Status
  | .noKey _ => .keyNotFound
  | .malformed .. => .unknown
  | .offsetWithPattern | .offsetWithChaining => .notSupported

def notice : Refusal → Notice
  | .noKey keyId => ⟨.warning, "No key for KID " ++ Hex.encode keyId⟩
  | .malformed ivSize dataSize destSize =>
    ⟨.error, "Invalid decrypt request (iv " ++ toString ivSize ++ " bytes, " ++
      toString dataSize ++ " bytes into " ++ toString destSize ++ " bytes)"⟩
  | .offsetWithPattern => ⟨.error, "Cannot use a block offset with pattern encryption."⟩
  | .offsetWithChaining => ⟨.error, "Cannot have block offset when using CBC"⟩

end Refusal

namespace KeyStore

def empty : KeyStore := ⟨[], List.Pairwise.nil⟩

/-- Adds a key; an earlier key of the same identifier is forgotten. -/
def insert (keys : KeyStore) (keyId key : Block) : KeyStore :=
  ⟨(keyId, key) :: keys.entries.filter fun e => e.1 ≠ keyId, by
    refine List.Pairwise.cons ?_ (keys.distinct.filter _)
    intro e he
    have := (List.mem_filter.mp he).2
    simp only [ne_eq, decide_not, Bool.not_eq_true', decide_eq_false_iff_not] at this
    exact fun h => this h.symm⟩

def size (keys : KeyStore) : Nat := keys.entries.length

/-- The key for an identifier, which only a string of sixteen bytes can have. -/
def find? (keys : KeyStore) (keyId : Bytes) : Option Block :=
  (keys.entries.find? fun e => e.1.toBytes = keyId).map (·.2)

def contains (keys : KeyStore) (keyId : Bytes) : Bool := (keys.find? keyId).isSome

/-- The plaintext of a request in counter mode. What goes from one piece of a pattern to the next is
the position in the keystream. -/
def decryptCounter (cipher : BlockCipher) (iv : Block) (r : Request) : Bytes :=
  (r.pattern.process
    (fun position piece =>
      (CounterMode.apply cipher iv position piece, position + piece.length))
    r.blockOffset r.data).1

/-- The plaintext of a chained request. What goes from one piece of a pattern to the next is the
ciphertext block that it follows. -/
def decryptChain (cipher : BlockCipher) (iv : Block) (r : Request) : Bytes :=
  (r.pattern.process (Chaining.decrypt cipher) iv r.data).1

/-- The plaintext of a request whose destination has `destSize` bytes. -/
def plaintext (family : Block → BlockCipher) (keys : KeyStore) (r : Request) (destSize : Nat) :
    Except Refusal Bytes :=
  match keys.find? r.keyId with
  | none => .error (.noKey r.keyId)
  | some key =>
    match Block.ofBytes? r.iv with
    | none => .error (.malformed r.iv.length r.data.length destSize)
    | some iv =>
      if destSize < r.data.length then
        .error (.malformed r.iv.length r.data.length destSize)
      else
        match r.mode with
        | .counter =>
          if r.blockOffset ≠ 0 ∧ !r.pattern.isNone then .error .offsetWithPattern
          else .ok (decryptCounter (family key) iv r)
        | .chaining =>
          if r.blockOffset ≠ 0 then .error .offsetWithChaining
          else .ok (decryptChain (family key) iv r)

/-- Writes a plaintext over the front of a destination, which keeps its size. -/
def overwrite (plain dest : Bytes) : Bytes :=
  (plain ++ dest.drop plain.length).take dest.length

theorem length_overwrite (plain dest : Bytes) : (overwrite plain dest).length = dest.length := by
  simp [overwrite]
  omega

/-- A key store as a decryption module. Its state is the list of refusals so far, latest last. -/
def toModule (keys : KeyStore) (family : Block → BlockCipher) :
    DecryptionModule (List Refusal) where
  decrypt log r dest :=
    match keys.plaintext family r dest.length with
    | .ok plain => ⟨.success, overwrite plain dest, log⟩
    | .error refusal => ⟨refusal.status, dest, log ++ [refusal]⟩
  length_dest log r dest := by
    cases keys.plaintext family r dest.length <;> simp [length_overwrite]

end KeyStore

end ProtectedMedia
