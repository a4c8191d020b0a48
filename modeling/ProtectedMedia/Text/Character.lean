/-!
# Quoted characters

A single character shown between apostrophes, with the characters that have no visible form of
their own written as escapes. Only characters up to U+00FF are shown this way, so the table of
invisible characters ends there.
-/

namespace ProtectedMedia.Text

/-- The characters up to U+00FF without a visible form: the controls, the no-break space and the
soft hyphen. -/
def isInvisible (c : Char) : Bool :=
  c.toNat < 0x20 || (0x7f ≤ c.toNat && c.toNat ≤ 0xa0) || c.toNat = 0xad

/-- The escape of a character by its number, in lower-case hexadecimal without padding. -/
def numberEscape (c : Char) : String :=
  "\\u\x7b" ++ String.ofList (Nat.toDigits 16 c.toNat) ++ "\x7d"

/-- A character between apostrophes. -/
def quotedCharacter (c : Char) : String :=
  let body :=
    if c.toNat = 0 then "\\0"
    else if c.toNat = 9 then "\\t"
    else if c.toNat = 10 then "\\n"
    else if c.toNat = 13 then "\\r"
    else if c.toNat = 0x27 then "\\'"
    else if c.toNat = 0x5c then "\\\\"
    else if isInvisible c then numberEscape c
    else String.singleton c
  "'" ++ body ++ "'"

end ProtectedMedia.Text
