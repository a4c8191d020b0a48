import ProtectedMedia.Proofs.Bytes.Taken

/-!
# Reading data that ends early

Of data that is cut, a reader sees what lies in front of the cut. A reader that goes no further does
not notice the cut, and one that has to go further fails.
-/
namespace ProtectedMedia

namespace Cursor

variable {c : Cursor} {k n : ℕ}

/-- The same cursor in the first `k` bytes of its data, or at their end if it is behind them. -/
def cut (k : ℕ) (c : Cursor) : Cursor := seek (c.data.take k) (min c.position k)

theorem rest_cut : (c.cut k).rest = c.rest.take (k - c.position) := by
  change (c.data.take k).drop (min c.position k) = _
  rw [List.drop_take, c.rest_eq]
  rcases Nat.le_total c.position k with h | h
  · rw [Nat.min_eq_left h]
  · rw [Nat.min_eq_right h, Nat.sub_self, Nat.sub_eq_zero_of_le h, List.take_zero, List.take_zero]

theorem position_cut : (c.cut k).position = min c.position k := rfl

theorem length_rest_cut : (c.cut k).rest.length = min (k - c.position) c.rest.length := by
  rw [rest_cut, List.length_take]

theorem cut_ofBytes (x : Bytes) (k : ℕ) : (ofBytes x).cut k = ofBytes (x.take k) :=
  eq_of_position rfl (Nat.zero_min k)

theorem forward_cut (h : c.position + n ≤ k) : (c.cut k).forward n = (c.forward n).cut k := by
  refine eq_of_position rfl ?_
  rw [position_forward, position_cut, position_cut, position_forward]
  omega

/-- Of what was taken, what lies in front of the cut can still be taken. -/
theorem Took.cut {c c' : Cursor} {w : Bytes} (h : c.Took w c') (hk : c.position ≤ k) :
    (c.cut k).Took (w.take (k - c.position)) (c'.cut k) := by
  constructor
  · rw [rest_cut, rest_cut, h.rest, List.take_append, h.position, Nat.sub_sub]
  · rw [h.eq]
    refine eq_of_position rfl ?_
    rw [position_forward, position_cut, position_cut, position_forward, List.length_take]
    omega

end Cursor

namespace Reader

variable {ε α β : Type} {r : Reader ε α} {c c' : Cursor} {a : α}

/-- From `c` to `c'` the reader needs what lies between the two and nothing else. -/
structure Confined (r : Reader ε α) (c : Cursor) (a : α) (c' : Cursor) : Prop where
  le : c.position ≤ c'.position
  kept : ∀ k, c'.position ≤ k → r (c.cut k) = .ok (a, c'.cut k)
  lost : ∀ k, c.position ≤ k → k < c'.position → ∃ e, r (c.cut k) = .error e

theorem confined_pure (a : α) (c : Cursor) : Confined (pure a : Reader ε α) c a c :=
  ⟨Nat.le_refl _, fun _ _ => rfl, fun _ hle hlt => absurd hle (Nat.not_le_of_lt hlt)⟩

theorem Confined.bind {f : α → Reader ε β} {c₁ : Cursor} {b : β} (hr : Confined r c a c₁)
    (hf : Confined (f a) c₁ b c') : Confined (r >>= f) c b c' := by
  refine ⟨Nat.le_trans hr.le hf.le, fun k hk => ?_, fun k hle hlt => ?_⟩
  · rw [bind_of_ok (hr.kept k (Nat.le_trans hf.le hk)), hf.kept k hk]
  · rcases Nat.lt_or_ge k c₁.position with hfirst | hsecond
    · obtain ⟨e, he⟩ := hr.lost k hle hfirst
      exact ⟨e, bind_of_error he⟩
    · obtain ⟨e, he⟩ := hf.lost k hsecond hlt
      exact ⟨e, (bind_of_ok (hr.kept k hsecond)).trans he⟩

theorem Confined.map (hr : Confined r c a c') (f : α → β) : Confined (f <$> r) c (f a) c' := by
  rw [map_eq_pure_bind]
  exact hr.bind (confined_pure (f a) c')

/-- A reader of a fixed number of bytes. -/
theorem confined_fixed {n : ℕ} {f : Bytes → α}
    (hr : ∀ c₁ : Cursor, c₁.position ≤ c.position → ∀ a c', r c₁ = .ok (a, c') ↔
      n ≤ c₁.rest.length ∧ a = f (c₁.rest.take n) ∧ c' = c₁.forward n)
    (h : r c = .ok (a, c')) : Confined r c a c' := by
  obtain ⟨hroom, rfl, rfl⟩ := (hr c (Nat.le_refl _) a c').mp h
  have hcut (k : ℕ) := hr (c.cut k) (Nat.min_le_left _ _)
  refine ⟨Nat.le_add_right _ _, fun k hk => ?_, fun k hle hlt => ?_⟩
  · have hk' : c.position + n ≤ k := hk
    have htaken : (c.cut k).rest.take n = c.rest.take n := by
      rw [Cursor.rest_cut, List.take_take, Nat.min_eq_left (by omega)]
    rw [hcut, htaken, Cursor.length_rest_cut]
    exact ⟨by omega, rfl, (Cursor.forward_cut hk').symm⟩
  · rw [Cursor.position_forward] at hlt
    cases hread : r (c.cut k) with
    | error e => exact ⟨e, rfl⟩
    | ok p =>
        obtain ⟨hroom', -, -⟩ := (hcut k p.1 p.2).mp hread
        rw [Cursor.length_rest_cut] at hroom'
        omega

section Primitives
variable [HasReadFault ε]

theorem confined_unsigned {width n : ℕ} (h : (unsigned width : Reader ε ℕ) c = .ok (n, c')) :
    Confined (unsigned width : Reader ε ℕ) c n c' :=
  confined_fixed (fun _ _ _ _ => unsigned_eq_ok) h

theorem confined_word {w : UInt32} (h : (word : Reader ε UInt32) c = .ok (w, c')) :
    Confined (word : Reader ε UInt32) c w c' := by
  obtain ⟨n, hn, rfl⟩ := map_eq_ok.mp h
  exact (confined_unsigned hn).map UInt32.ofNat

theorem confined_byte {x : UInt8} (h : (byte : Reader ε UInt8) c = .ok (x, c')) :
    Confined (byte : Reader ε UInt8) c x c' := by
  obtain ⟨n, hn, rfl⟩ := map_eq_ok.mp h
  exact (confined_unsigned hn).map UInt8.ofNat

theorem confined_bytes {n : ℕ} {x : Bytes} (h : (bytes n : Reader ε Bytes) c = .ok (x, c')) :
    Confined (bytes n : Reader ε Bytes) c x c' :=
  confined_fixed (f := id) (fun _ _ _ _ => bytes_eq_ok) h

/-- A skip needs what it skips, as long as it does not lead past the last 64-bit position. -/
theorem confined_skip {n : ℕ} {u : Unit} (hrange : c.position + n < 2 ^ 64)
    (h : (skip n : Reader ε Unit) c = .ok (u, c')) :
    Confined (skip n : Reader ε Unit) c u c' := by
  refine confined_fixed (n := n) (f := fun _ => ()) (fun c₁ hle u c' => ?_) h
  rw [skip_eq_ok (Nat.lt_of_le_of_lt (Nat.add_le_add_right hle n) hrange)]
  simp

end Primitives

/-- How far a reader goes into the data that it is given. -/
def reach (r : Reader ε α) (x : Bytes) : ℕ :=
  match r (.ofBytes x) with
  | .ok (_, c) => c.position
  | .error _ => 0

theorem reach_eq {x : Bytes} (h : r (.ofBytes x) = .ok (a, c)) : reach r x = c.position := by
  rw [reach, h]

end Reader

end ProtectedMedia
