import Mathlib.Data.List.Forall2
import ProtectedMedia.Bytes

/-!
# Replacing marked bytes

A list of marks selects positions of a byte string. `Replaces` says that one string is another with
the marked bytes replaced, in order, by those of a third and with every other byte as it was; there
is never more than one such string. Ciphers that leave a part of the data in the clear are
specified by it.
-/
namespace ProtectedMedia.Bytes

/-- The bytes at the marked positions, in order. -/
def pick : List Bool → Bytes → Bytes
  | mark :: marks, x :: b => if mark then x :: pick marks b else pick marks b
  | _, _ => []

/-- `out` is `data` with `piece` in the place of the marked bytes. -/
structure Replaces (marks : List Bool) (piece data out : Bytes) : Prop where
  length_eq : out.length = data.length
  unmarked : ∀ i : ℕ, marks[i]? = some false → out[i]? = data[i]?
  marked : pick marks out = piece

@[simp] theorem pick_nil (b : Bytes) : pick [] b = [] := by
  cases b <;> rfl

@[simp] theorem pick_nil_right (marks : List Bool) : pick marks [] = [] := by
  cases marks <;> rfl

@[simp] theorem pick_cons_true (marks : List Bool) (x : UInt8) (b : Bytes) :
    pick (true :: marks) (x :: b) = x :: pick marks b := rfl

@[simp] theorem pick_cons_false (marks : List Bool) (x : UInt8) (b : Bytes) :
    pick (false :: marks) (x :: b) = pick marks b := rfl

theorem pick_append {m : List Bool} {a : Bytes} (h : m.length = a.length)
    (marks : List Bool) (b : Bytes) :
    pick (m ++ marks) (a ++ b) = pick m a ++ pick marks b := by
  induction m generalizing a with
  | nil =>
      obtain rfl : a = [] := List.eq_nil_of_length_eq_zero (by simpa using h.symm)
      simp
  | cons mark m ih =>
      cases a with
      | nil => simp at h
      | cons x a =>
          have ih := ih (a := a) (by simpa using h)
          cases mark <;> simp [ih]

@[simp] theorem pick_replicate_true (b : Bytes) : pick (List.replicate b.length true) b = b := by
  induction b with
  | nil => rfl
  | cons x b ih => simp [List.replicate_succ, ih]

@[simp] theorem pick_replicate_false (n : ℕ) (b : Bytes) :
    pick (List.replicate n false) b = [] := by
  induction b generalizing n with
  | nil => cases n <;> rfl
  | cons x b ih => cases n <;> simp [List.replicate_succ, ih]

namespace Replaces

variable {marks : List Bool} {piece data out : Bytes}

theorem all (h : out.length = data.length) :
    Replaces (List.replicate data.length true) out data out where
  length_eq := h
  unmarked i hi := by simp [List.getElem?_replicate] at hi
  marked := by rw [← h, pick_replicate_true]

theorem refl (data : Bytes) : Replaces (List.replicate data.length false) [] data data where
  length_eq := rfl
  unmarked _ _ := rfl
  marked := pick_replicate_false _ data

/-- Replacements in adjacent pieces are one replacement. -/
theorem append {m : List Bool} {p a o : Bytes} (first : Replaces m p a o)
    (hm : m.length = a.length) (second : Replaces marks piece data out) :
    Replaces (m ++ marks) (p ++ piece) (a ++ data) (o ++ out) where
  length_eq := by
    rw [List.length_append, List.length_append, first.length_eq, second.length_eq]
  unmarked i hi := by
    rw [List.getElem?_append] at hi ⊢
    rw [List.getElem?_append, first.length_eq, ← hm]
    split_ifs at hi ⊢
    · exact first.unmarked i hi
    · exact second.unmarked _ hi
  marked := by
    rw [pick_append (hm.trans first.length_eq.symm), first.marked, second.marked]

/-- What is not marked and what is marked make up the whole string. -/
theorem unique {other : Bytes} (hm : marks.length = data.length)
    (h : Replaces marks piece data out) (h' : Replaces marks piece data other) : out = other := by
  have hl : out.length = other.length := h.length_eq.trans h'.length_eq.symm
  have hu : ∀ i : ℕ, marks[i]? = some false → out[i]? = other[i]? := fun i hi =>
    (h.unmarked i hi).trans (h'.unmarked i hi).symm
  have hp : pick marks out = pick marks other := h.marked.trans h'.marked.symm
  have hm' : marks.length = out.length := hm.trans h.length_eq.symm
  clear h h' hm
  induction marks generalizing out other with
  | nil =>
      obtain rfl : out = [] := List.eq_nil_of_length_eq_zero (by simpa using hm'.symm)
      exact (List.eq_nil_of_length_eq_zero (by simpa using hl.symm)).symm
  | cons mark marks ih =>
      cases out with
      | nil => simp at hm'
      | cons x out =>
          cases other with
          | nil => simp at hl
          | cons y other =>
              have htail : pick marks out = pick marks other → out = other := fun hp =>
                ih (by simpa using hl) (fun i hi => by simpa using hu (i + 1) (by simpa using hi))
                  hp (by simpa using hm')
              cases mark with
              | true =>
                  obtain ⟨hxy, htl⟩ : x = y ∧ pick marks out = pick marks other := by
                    simpa using hp
                  rw [hxy, htail htl]
              | false =>
                  have hxy : x = y := by simpa using hu 0 (by simp)
                  rw [hxy, htail (by simpa using hp)]

end Replaces

end ProtectedMedia.Bytes
