import ProtectedMedia.Proofs.Bytes.Marks
import ProtectedMedia.Proofs.Bytes.Value

/-!
# Masks

To add a mask changes every byte on its own, and to add it once more takes it back. A function that
adds a mask chosen by the length alone still does so when it is applied to marked bytes only.
-/
namespace ProtectedMedia.Bytes

theorem xor_comm (a b : Bytes) : xor a b = xor b a :=
  List.zipWith_comm_of_comm UInt8.xor_comm

theorem xor_append {a b : Bytes} (h : a.length = b.length) (more rest : Bytes) :
    xor (a ++ more) (b ++ rest) = xor a b ++ xor more rest :=
  List.zipWith_append h

theorem xor_assoc (a b c : Bytes) : xor (xor a b) c = xor a (xor b c) := by
  induction a generalizing b c with
  | nil => rfl
  | cons x a ih =>
      cases b with
      | nil => rfl
      | cons y b =>
          cases c with
          | nil => rfl
          | cons z c => exact congrArg₂ List.cons (UInt8.xor_assoc x y z) (ih b c)

@[simp] theorem xor_zeros (a : Bytes) : xor a (List.replicate a.length 0) = a := by
  induction a with
  | nil => rfl
  | cons x a ih => exact congrArg₂ List.cons UInt8.xor_zero ih

@[simp] theorem xor_self (a : Bytes) : xor a a = List.replicate a.length 0 := by
  induction a with
  | nil => rfl
  | cons x a ih => exact congrArg₂ List.cons UInt8.xor_self ih

/-- A mask is taken back by itself. -/
theorem xor_xor_cancel {a mask : Bytes} (h : mask.length = a.length) :
    xor (xor a mask) mask = a := by
  rw [xor_assoc, xor_self, h, xor_zeros]

/-- What was added to a string is the difference from it. -/
theorem xor_cancel_left {a mask : Bytes} (h : mask.length = a.length) :
    xor a (xor a mask) = mask := by
  rw [xor_comm a mask, xor_comm a, xor_xor_cancel h.symm]

theorem getElem?_xor_of_zero {a mask : Bytes} {i : ℕ} (h : mask[i]? = some 0) :
    (xor a mask)[i]? = a[i]? := by
  rw [xor, List.getElem?_zipWith, h]
  cases a[i]? with
  | none => rfl
  | some x => exact congrArg some UInt8.xor_zero

section
variable (marks : List Bool) {a b : Bytes} (h : a.length = b.length)
include h

theorem length_pick_congr : (pick marks a).length = (pick marks b).length := by
  induction marks generalizing a b with
  | nil => rw [pick_nil, pick_nil]
  | cons mark marks ih =>
      cases a with
      | nil => rw [List.eq_nil_of_length_eq_zero h.symm]
      | cons x a =>
          cases b with
          | nil => cases h
          | cons y b =>
              have hrest := ih (Nat.succ_inj.mp h)
              cases mark with
              | true => exact congrArg (· + 1) hrest
              | false => exact hrest

theorem pick_xor : pick marks (xor a b) = xor (pick marks a) (pick marks b) := by
  induction marks generalizing a b with
  | nil => rw [pick_nil, pick_nil]; rfl
  | cons mark marks ih =>
      cases a with
      | nil => rfl
      | cons x a =>
          cases b with
          | nil => cases h
          | cons y b =>
              have hrest := ih (Nat.succ_inj.mp h)
              cases mark with
              | true => exact congrArg (List.cons (x ^^^ y)) hrest
              | false => exact hrest

end

/-- `f` adds a mask that depends on the length of the data and on nothing else of it. -/
def Masks (f : Bytes → Bytes) : Prop :=
  ∃ mask : ℕ → Bytes, (∀ n, (mask n).length = n) ∧ ∀ data, f data = xor data (mask data.length)

/-- On marked bytes `g` is `f`, and the mask of `g` is what it makes of zeros. -/
theorem Masks.of_replaces {f g : Bytes → Bytes} {marks : ℕ → List Bool} (hf : Masks f)
    (hmarks : ∀ n, (marks n).length = n)
    (h : ∀ data, Replaces (marks data.length) (f (pick (marks data.length) data)) data (g data)) :
    Masks g := by
  obtain ⟨mask, -, hmask⟩ := hf
  have hzeros (n : ℕ) := h (List.replicate n 0)
  simp only [List.length_replicate, hmask] at hzeros
  refine ⟨fun n => g (List.replicate n 0), fun n => ?_, fun data => ?_⟩
  · exact (hzeros n).length_eq.trans List.length_replicate
  · have hz := hzeros data.length
    have hlen : (g (List.replicate data.length 0)).length = data.length :=
      hz.length_eq.trans List.length_replicate
    -- there is one string with these marked bytes, so adding the mask has to yield such a string
    refine (h data).unique (hmarks _) ⟨?_, ?_, ?_⟩
    · rw [length_xor, hlen, Nat.min_self]
    · intro i hi
      have hlt : i < data.length := by
        rw [← hmarks data.length]
        exact (List.getElem?_eq_some_iff.mp hi).1
      apply getElem?_xor_of_zero
      rw [hz.unmarked i hi, List.getElem?_replicate, if_pos hlt]
    · have hsize : data.length = (List.replicate data.length (0 : UInt8)).length :=
        List.length_replicate.symm
      have hpicked := pick_xor (marks data.length) hsize
      rw [xor_zeros] at hpicked
      rw [pick_xor _ hlen.symm, hz.marked, hmask, ← xor_assoc, ← hpicked,
        length_pick_congr _ hsize.symm]

/-- One mask leads from `a` to `out` and from `b` to `out'`. -/
def SameMask (a out b out' : Bytes) : Prop :=
  ∃ mask : Bytes, mask.length = a.length ∧ mask.length = b.length ∧
    out = xor a mask ∧ out' = xor b mask

theorem Masks.sameMask {f : Bytes → Bytes} (h : Masks f) {a b : Bytes}
    (hlen : a.length = b.length) : SameMask a (f a) b (f b) := by
  obtain ⟨mask, hmask, hf⟩ := h
  exact ⟨mask a.length, hmask _, (hmask _).trans hlen, hf a, by rw [hf, hlen]⟩

namespace SameMask

variable {a b out out' more rest last last' : Bytes}

theorem refl (h : a.length = b.length) : SameMask a a b b := by
  refine ⟨List.replicate a.length 0, List.length_replicate, List.length_replicate.trans h,
    (xor_zeros a).symm, ?_⟩
  rw [h, xor_zeros]

theorem append (h : SameMask a out b out') (h' : SameMask more last rest last') :
    SameMask (a ++ more) (out ++ last) (b ++ rest) (out' ++ last') := by
  obtain ⟨mask, ha, hb, rfl, rfl⟩ := h
  obtain ⟨mask', hmore, hrest, rfl, rfl⟩ := h'
  refine ⟨mask ++ mask', ?_, ?_, (xor_append ha.symm _ _).symm, (xor_append hb.symm _ _).symm⟩
  · rw [List.length_append, List.length_append, ha, hmore]
  · rw [List.length_append, List.length_append, hb, hrest]

/-- The same mask once more leads back. -/
theorem eq_of_twice (h : SameMask a out out out') : out' = a := by
  obtain ⟨mask, ha, -, rfl, rfl⟩ := h
  exact xor_xor_cancel ha

end SameMask

end ProtectedMedia.Bytes
