import Mathlib.Algebra.Group.Nat.Defs
import Mathlib.Data.Int.Notation
import Mathlib.Data.Nat.Notation
import ProtectedMedia.Bytes.Reader

/-!
# What readers yield

A reader made of others yields a value just when its parts do, and the operations of a cursor just
when enough bytes are left. So a successful reader is taken apart step by step.
-/
namespace ProtectedMedia

namespace Cursor

theorem eq_of_position {c d : Cursor} (hdata : c.data = d.data) (hposition : c.position = d.position) :
    c = d := by
  obtain ⟨data, position, rest, hrest⟩ := c
  obtain ⟨data', position', rest', hrest'⟩ := d
  cases hdata
  cases hposition
  cases hrest
  cases hrest'
  rfl

@[simp] theorem forward_forward (c : Cursor) (m n : ℕ) :
    (c.forward m).forward n = c.forward (m + n) :=
  eq_of_position rfl (Nat.add_assoc _ _ _)

@[simp] theorem data_forward (c : Cursor) (n : ℕ) : (c.forward n).data = c.data := rfl

@[simp] theorem position_forward (c : Cursor) (n : ℕ) :
    (c.forward n).position = c.position + n := rfl

@[simp] theorem rest_forward (c : Cursor) (n : ℕ) : (c.forward n).rest = c.rest.drop n := rfl

theorem length_rest (c : Cursor) : c.rest.length = c.data.length - c.position := by
  rw [c.rest_eq, List.length_drop]

theorem position_lt_of_rest (c : Cursor) (h : 0 < c.rest.length) : c.position < c.data.length := by
  rw [length_rest] at h
  omega

end Cursor

namespace Reader

variable {ε α β : Type} {c c' : Cursor}

/-- A sequence of two readers yields a value just when both do. -/
theorem bind_eq_ok {r : Reader ε α} {f : α → Reader ε β} {b : β} :
    (r >>= f) c = .ok (b, c') ↔ ∃ a c₁, r c = .ok (a, c₁) ∧ f a c₁ = .ok (b, c') := by
  change (r c >>= fun p => f p.1 p.2) = .ok (b, c') ↔ _
  constructor
  · intro h
    cases hr : r c with
    | error e => rw [hr] at h; cases h
    | ok p => rw [hr] at h; exact ⟨p.1, p.2, rfl, h⟩
  · rintro ⟨a, c₁, hr, hf⟩
    rw [hr]
    exact hf

theorem bind_of_ok {r : Reader ε α} {f : α → Reader ε β} {a : α} (h : r c = .ok (a, c')) :
    (r >>= f) c = f a c' := by
  change (r c >>= fun p => f p.1 p.2) = _
  rw [h]
  rfl

theorem bind_of_error {r : Reader ε α} {f : α → Reader ε β} {e : ε} (h : r c = .error e) :
    (r >>= f) c = .error e := by
  change (r c >>= fun p => f p.1 p.2) = _
  rw [h]
  rfl

theorem map_eq_ok {r : Reader ε α} {f : α → β} {b : β} :
    (f <$> r) c = .ok (b, c') ↔ ∃ a, r c = .ok (a, c') ∧ f a = b := by
  change (r c >>= fun p => Except.ok (f p.1, p.2)) = .ok (b, c') ↔ _
  constructor
  · intro h
    cases hr : r c with
    | error e => rw [hr] at h; cases h
    | ok p =>
        rw [hr] at h
        cases h
        exact ⟨p.1, rfl, rfl⟩
  · rintro ⟨a, hr, rfl⟩
    rw [hr]
    rfl

section Primitives
variable [HasReadFault ε]

/-- A number is read just when enough bytes are left. -/
theorem unsigned_eq_ok {width n : ℕ} :
    (unsigned width : Reader ε ℕ) c = .ok (n, c') ↔
      width ≤ c.rest.length ∧ n = Bytes.toNat (c.rest.take width) ∧ c' = c.forward width := by
  rw [unsigned, lift, Cursor.readUnsigned, Bytes.atLeast_eq]
  by_cases h : width ≤ c.rest.length
  · simp [h, eq_comm]
  · simp [h]

theorem signedWord_eq_ok {i : ℤ} :
    (signedWord : Reader ε ℤ) c = .ok (i, c') ↔ 4 ≤ c.rest.length ∧
      i = Cursor.signed32 (Bytes.toNat (c.rest.take 4)) ∧ c' = c.forward 4 := by
  rw [signedWord, lift, Cursor.readSigned32, Cursor.readUnsigned, Bytes.atLeast_eq]
  by_cases h : 4 ≤ c.rest.length
  · simp [h, Except.map, eq_comm]
  · simp [h, Except.map]

theorem bytes_eq_ok {n : ℕ} {b : Bytes} :
    (bytes n : Reader ε Bytes) c = .ok (b, c') ↔
      n ≤ c.rest.length ∧ b = c.rest.take n ∧ c' = c.forward n := by
  rw [bytes, lift, Cursor.readBytes, Bytes.atLeast_eq]
  by_cases h : n ≤ c.rest.length
  · simp [h, eq_comm]
  · simp [h]

theorem skip_eq_ok {n : ℕ} {u : Unit} (hrange : c.position + n < 2 ^ 64) :
    (skip n : Reader ε Unit) c = .ok (u, c') ↔ n ≤ c.rest.length ∧ c' = c.forward n := by
  have hsize : c.position + n < UInt64.size := hrange
  rw [skip, lift, Cursor.skip, if_pos hsize, Bytes.atLeast_eq]
  by_cases h : n ≤ c.rest.length
  · simp [h, eq_comm]
  · simp [h]

end Primitives

/-! ### Tables -/

theorem times_succ (n : ℕ) (r : Reader ε α) : times (n + 1) r = do
    let a ← r
    let as ← times n r
    return a :: as := by
  rw [times, List.replicate_succ, List.mapM_cons]
  rfl

/-- What is read as a table, entry by entry and with the cursors in between. -/
theorem times_induction {r : Reader ε α} {motive : ℕ → List α → Cursor → Cursor → Prop} {n : ℕ}
    {as : List α} (zero : ∀ c, motive 0 [] c c)
    (succ : ∀ {n a as c c₁ c'}, r c = .ok (a, c₁) → motive n as c₁ c' →
      motive (n + 1) (a :: as) c c')
    (h : times n r c = .ok (as, c')) : motive n as c c' := by
  induction n generalizing c as with
  | zero =>
      cases h
      exact zero _
  | succ n ih =>
      rw [times_succ] at h
      obtain ⟨a, c₁, ha, h⟩ := bind_eq_ok.mp h
      obtain ⟨as', c₂, has, h⟩ := bind_eq_ok.mp h
      cases h
      exact succ ha (ih has)

theorem length_of_times {r : Reader ε α} {n : ℕ} {as : List α} (h : times n r c = .ok (as, c')) :
    as.length = n :=
  times_induction (motive := fun n as _ _ => as.length = n) (fun _ => rfl)
    (fun _ ih => congrArg (· + 1) ih) h

end Reader

end ProtectedMedia
