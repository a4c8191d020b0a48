import ProtectedMedia.Bytes

/-!
# Reading damaged UTF-8

Any byte string can be shown as text: well-formed sequences become their characters, and each
longest piece that starts a sequence but cannot complete it becomes one replacement character.
-/

namespace ProtectedMedia.Text

/-- The mark for a piece of bytes that is no character. -/
def replacement : Char := Char.ofNat 0xfffd

/-- What a first byte promises: how many bytes follow it, the range of the first of those, and
the bits it contributes itself. Bytes that start no sequence promise nothing. -/
def lead? (x : UInt8) : Option (Nat × Nat × Nat × Nat) :=
  let n := x.toNat
  if n < 0x80 then some (0, 0x80, 0xbf, n)
  else if n < 0xc2 then none
  else if n < 0xe0 then some (1, 0x80, 0xbf, n - 0xc0)
  else if n = 0xe0 then some (2, 0xa0, 0xbf, 0)
  else if n = 0xed then some (2, 0x80, 0x9f, 0xd)
  else if n < 0xf0 then some (2, 0x80, 0xbf, n - 0xe0)
  else if n = 0xf0 then some (3, 0x90, 0xbf, 0)
  else if n < 0xf4 then some (3, 0x80, 0xbf, n - 0xf0)
  else if n = 0xf4 then some (3, 0x80, 0x8f, 4)
  else none

/-- Reads the bytes that follow a first byte: the character they complete, or the replacement at
the first byte that does not fit, and the bytes after it. -/
def follow : Nat → Nat → Nat → Nat → Bytes → Char × Bytes
  | 0, _, _, bits, rest => (Char.ofNat bits, rest)
  | _ + 1, _, _, _, [] => (replacement, [])
  | k + 1, low, high, bits, x :: rest =>
    if low ≤ x.toNat ∧ x.toNat ≤ high then follow k 0x80 0xbf (bits * 64 + (x.toNat - 0x80)) rest
    else (replacement, x :: rest)

theorem length_follow_le (k low high bits : Nat) (rest : Bytes) :
    (follow k low high bits rest).2.length ≤ rest.length := by
  induction k generalizing low high bits rest with
  | zero => simp [follow]
  | succ k ih =>
    cases rest with
    | nil => simp [follow]
    | cons x rest =>
      simp only [follow]
      split
      · exact Nat.le_succ_of_le (ih _ _ _ _)
      · simp

/-- The characters of a byte string, with a replacement for every piece that is no character. -/
def lossyCharacters (b : Bytes) : List Char :=
  match b with
  | [] => []
  | x :: rest =>
    match lead? x with
    | none => replacement :: lossyCharacters rest
    | some (k, low, high, bits) =>
      have := length_follow_le k low high bits rest
      (follow k low high bits rest).1 :: lossyCharacters (follow k low high bits rest).2
termination_by b.length
decreasing_by all_goals simp; try omega

def lossy (b : Bytes) : String := String.ofList (lossyCharacters b)

def utf8 (s : String) : Bytes := s.toUTF8.toList

end ProtectedMedia.Text
