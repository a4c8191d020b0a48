/-!
# Byte strings

A byte string is a list of bytes. This module reads and writes unsigned numbers with the most
significant byte first, and fixes the sixteen-byte block that keys, counters and key identifiers
share.
-/

namespace ProtectedMedia

/-- A byte string. -/
abbrev Bytes := List UInt8

namespace Bytes

/-- The number a byte string spells, most significant byte first. -/
def toNat (b : Bytes) : Nat :=
  b.foldl (fun n x => n * 256 + x.toNat) 0

/-- The low `k` bytes of a number, most significant byte first. -/
def ofNat : Nat → Nat → Bytes
  | 0, _ => []
  | k + 1, n => UInt8.ofNat (n >>> (8 * k)) :: ofNat k n

@[simp] theorem length_ofNat (k n : Nat) : (ofNat k n).length = k := by
  induction k with
  | zero => rfl
  | succ k ih => simp [ofNat, ih]

def ofUInt32 (w : UInt32) : Bytes := ofNat 4 w.toNat

/-- Whether a byte string has at least `n` bytes, looking at no more than `n` of them. -/
def atLeast : Bytes → Nat → Bool
  | _, 0 => true
  | [], _ + 1 => false
  | _ :: b, n + 1 => atLeast b n

@[simp] theorem atLeast_eq (b : Bytes) (n : Nat) : atLeast b n = decide (n ≤ b.length) := by
  induction b generalizing n with
  | nil => cases n <;> simp [atLeast]
  | cons x b ih => cases n <;> simp [atLeast, ih]

/-- Bytewise exclusive or; the longer string is cut to the length of the shorter. -/
def xor (a b : Bytes) : Bytes := List.zipWith (· ^^^ ·) a b

/-- The bytes from `start` up to, but not including, `stop`. -/
def slice (b : Bytes) (start stop : Nat) : Bytes := (b.drop start).take (stop - start)

/-- `b` with the bytes from `start` on replaced by those of `piece`. -/
def splice (b : Bytes) (start : Nat) (piece : Bytes) : Bytes :=
  b.take start ++ piece ++ b.drop (start + piece.length)

end Bytes

/-- Sixteen bytes: a cipher block, a counter, a key or a key identifier. -/
abbrev Block := Vector UInt8 16

namespace Block

def size : Nat := 16

def zero : Block := Vector.replicate 16 0

def toBytes (x : Block) : Bytes := x.toList

@[simp] theorem length_toBytes (x : Block) : x.toBytes.length = 16 := by
  simp [toBytes]

theorem size_toArray {b : Bytes} (h : b.length = 16) : b.toArray.size = 16 := by
  rw [List.size_toArray, h]

/-- A byte string as a block, if it has exactly sixteen bytes. -/
def ofBytes? (b : Bytes) : Option Block :=
  if h : b.length = 16 then some ⟨b.toArray, size_toArray h⟩ else none

theorem length_eq_of_ofBytes? {b : Bytes} {x : Block} (h : ofBytes? b = some x) :
    b.length = 16 := by
  unfold ofBytes? at h
  split at h
  · assumption
  · cases h

theorem toBytes_of_ofBytes? {b : Bytes} {x : Block} (h : ofBytes? b = some x) :
    x.toBytes = b := by
  unfold ofBytes? at h
  split at h
  · cases h; simp [toBytes, Vector.toList]
  · cases h

def toNat (x : Block) : Nat := x.toBytes.toNat

/-- The block that spells `n` modulo `2 ^ 128`. -/
def ofNat (n : Nat) : Block := ⟨(Bytes.ofNat 16 n).toArray, by simp⟩

def xor (a b : Block) : Block := Vector.zipWith (· ^^^ ·) a b

/-- The whole blocks at the front of a byte string, in order. -/
def split (b : Bytes) : List Block :=
  go b #[]
where
  /-- Collects blocks until fewer than sixteen bytes are left. -/
  go (b : Bytes) (found : Array Block) : List Block :=
    match h : ofBytes? (b.take 16) with
    | some x =>
      have : 16 ≤ b.length := by
        have := length_eq_of_ofBytes? h
        simp at this
        omega
      go (b.drop 16) (found.push x)
    | none => found.toList
  termination_by b.length
  decreasing_by simp; omega

end Block

end ProtectedMedia
