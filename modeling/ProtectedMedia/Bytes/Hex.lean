import ProtectedMedia.Bytes
import ProtectedMedia.Text.Character

/-!
# Hexadecimal text

Byte strings are shown with two lower-case digits a byte. Reading takes digits of either case and
reports the first thing that is wrong: an odd number of digits before any digit, and then the
first byte of the text that is no digit.
-/

namespace ProtectedMedia.Hex

def digit (n : Nat) : Char := Nat.digitChar n

def ofByte (x : UInt8) : List Char := [digit (x.toNat / 16), digit (x.toNat % 16)]

/-- The text of a byte string, two lower-case digits a byte. -/
def encode (b : Bytes) : String := String.ofList (b.flatMap ofByte)

/-- A number in hexadecimal, padded with zeros on the left to at least `width` digits. -/
def ofNat (width n : Nat) : String :=
  let digits := Nat.toDigits 16 n
  String.ofList (List.replicate (width - digits.length) '0' ++ digits)

inductive Fault where
  | oddLength
  | badDigit (byte : UInt8) (index : Nat)
  deriving DecidableEq

/-- The wording of a fault; a byte is shown as the character of the same number. -/
def Fault.message : Fault → String
  | .oddLength => "Odd number of digits"
  | .badDigit byte index =>
    "Invalid character " ++ Text.quotedCharacter (Char.ofNat byte.toNat) ++ " at position " ++
      toString index

/-- The value of a digit of either case. -/
def digitValue? (x : UInt8) : Option UInt8 :=
  if 0x30 ≤ x ∧ x ≤ 0x39 then some (x - 0x30)
  else if 0x41 ≤ x ∧ x ≤ 0x46 then some (x - 0x41 + 10)
  else if 0x61 ≤ x ∧ x ≤ 0x66 then some (x - 0x61 + 10)
  else none

/-- Reads digits in pairs; `index` is the place of the first of them in the whole text. -/
def readPairs : Bytes → Nat → Except Fault Bytes
  | high :: low :: rest, index =>
    match digitValue? high, digitValue? low with
    | some h, some l => (readPairs rest (index + 2)).map ((h * 16 + l) :: ·)
    | none, _ => .error (.badDigit high index)
    | some _, none => .error (.badDigit low (index + 1))
  | _, _ => .ok []

/-- Reads the UTF-8 bytes of a text as hexadecimal digits. -/
def decode (text : Bytes) : Except Fault Bytes :=
  if text.length % 2 = 1 then .error .oddLength else readPairs text 0

end ProtectedMedia.Hex
