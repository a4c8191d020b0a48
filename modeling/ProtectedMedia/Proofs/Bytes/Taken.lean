import ProtectedMedia.Proofs.Bytes.Reader
import ProtectedMedia.Proofs.Bytes.Value

/-!
# What a reader took

A reader that yields a number or bytes took exactly what spells them. What readers in sequence took
lies in sequence, in front of what is left.
-/
namespace ProtectedMedia

/-- From `c` to `c'` the bytes `taken` were read, and nothing else. -/
structure Cursor.Took (c : Cursor) (taken : Bytes) (c' : Cursor) : Prop where
  rest : c.rest = taken ++ c'.rest
  eq : c' = c.forward taken.length

theorem Cursor.took_of_rest {c : Cursor} {w tail : Bytes} (h : c.rest = w ++ tail) :
    c.Took w (c.forward w.length) := by
  refine ⟨?_, rfl⟩
  rw [Cursor.rest_forward, h, List.drop_left]

theorem Cursor.Took.refl (c : Cursor) : c.Took [] c := ⟨rfl, rfl⟩

theorem Cursor.Took.trans {c c₁ c₂ : Cursor} {v w : Bytes} (first : c.Took v c₁)
    (second : c₁.Took w c₂) : c.Took (v ++ w) c₂ := by
  constructor
  · rw [first.rest, second.rest, List.append_assoc]
  · rw [second.eq, first.eq, Cursor.forward_forward, List.length_append]

theorem Cursor.Took.position {c c' : Cursor} {w : Bytes} (h : c.Took w c') :
    c'.position = c.position + w.length := by
  rw [h.eq, Cursor.position_forward]

theorem Cursor.Took.length_rest {c c' : Cursor} {w : Bytes} (h : c.Took w c') :
    c'.rest.length = c.rest.length - w.length := by
  rw [h.rest, List.length_append, Nat.add_sub_cancel_left]

/-- The bytes ahead begin with those that were taken. -/
theorem Cursor.Took.exists_append {c c' : Cursor} {w x tail : Bytes} (h : c.Took w c')
    (hrest : c.rest = x ++ tail) (hw : w.length ≤ x.length) : ∃ x', x = w ++ x' := by
  have htaken : w <+: c.rest := h.rest ▸ List.prefix_append w c'.rest
  have hahead : x <+: c.rest := hrest ▸ List.prefix_append x tail
  obtain ⟨x', hx⟩ := List.prefix_of_prefix_length_le htaken hahead hw
  exact ⟨x', hx.symm⟩

/-- What was taken in one go can be taken in two. -/
theorem Cursor.Took.split {c c' : Cursor} {v w : Bytes} (h : c.Took (v ++ w) c') :
    ∃ c₁, c.Took v c₁ ∧ c₁.Took w c' := by
  have hrest : (c.forward v.length).rest = w ++ c'.rest := by
    rw [Cursor.rest_forward, h.rest, List.append_assoc, List.drop_left]
  refine ⟨c.forward v.length, ⟨?_, rfl⟩, hrest, ?_⟩
  · rw [hrest, h.rest, List.append_assoc]
  · rw [h.eq, Cursor.forward_forward, List.length_append]

namespace Reader

variable {ε α : Type} {c c' : Cursor}

section Primitives
variable [HasReadFault ε]

theorem lt_of_unsigned {width n : ℕ} (h : (unsigned width : Reader ε ℕ) c = .ok (n, c')) :
    n < 256 ^ width := by
  obtain ⟨hroom, rfl, -⟩ := unsigned_eq_ok.mp h
  have hlt := Bytes.toNat_lt (c.rest.take width)
  rwa [List.length_take_of_le hroom] at hlt

theorem lt_of_signedWord {i : ℤ} (h : (signedWord : Reader ε ℤ) c = .ok (i, c')) : i < 2 ^ 31 := by
  obtain ⟨hroom, rfl, -⟩ := signedWord_eq_ok.mp h
  have hlt := Bytes.toNat_lt (c.rest.take 4)
  have hsize : UInt32.size = 2 ^ 32 := rfl
  rw [List.length_take_of_le hroom] at hlt
  rw [Cursor.signed32, hsize]
  split <;> omega

theorem took_unsigned {width n : ℕ} (h : (unsigned width : Reader ε ℕ) c = .ok (n, c')) :
    c.Took (Bytes.ofNat width n) c' := by
  obtain ⟨hroom, rfl, rfl⟩ := unsigned_eq_ok.mp h
  have hlength : (c.rest.take width).length = width := List.length_take_of_le hroom
  have hspelled := Bytes.ofNat_toNat (c.rest.take width)
  rw [hlength] at hspelled
  constructor
  · rw [hspelled, Cursor.rest_forward, List.take_append_drop]
  · rw [Bytes.length_ofNat]

theorem took_word {w : UInt32} (h : (word : Reader ε UInt32) c = .ok (w, c')) :
    c.Took (Bytes.ofUInt32 w) c' := by
  obtain ⟨n, hn, rfl⟩ := map_eq_ok.mp h
  have hvalue : (UInt32.ofNat n).toNat = n := UInt32.toNat_ofNat_of_lt' (lt_of_unsigned hn)
  rw [Bytes.ofUInt32, hvalue]
  exact took_unsigned hn

theorem took_bytes {n : ℕ} {b : Bytes} (h : (bytes n : Reader ε Bytes) c = .ok (b, c')) :
    b.length = n ∧ c.Took b c' := by
  obtain ⟨hroom, rfl, rfl⟩ := bytes_eq_ok.mp h
  have hlength : (c.rest.take n).length = n := List.length_take_of_le hroom
  refine ⟨hlength, ?_, ?_⟩
  · rw [Cursor.rest_forward, List.take_append_drop]
  · rw [hlength]

/-- A reader of bytes takes as many as it is asked for. -/
theorem bytes_eq_took {n : ℕ} {b : Bytes} :
    (bytes n : Reader ε Bytes) c = .ok (b, c') ↔ b.length = n ∧ c.Took b c' := by
  constructor
  · exact took_bytes
  · rintro ⟨rfl, htook⟩
    rw [bytes_eq_ok, htook.rest, List.take_left, List.length_append]
    exact ⟨by omega, rfl, htook.eq⟩

end Primitives

/-- A table took its entries one by one. -/
theorem took_times {r : Reader ε α} {write : α → Bytes} {n : ℕ} {as : List α}
    (hr : ∀ c a c', r c = .ok (a, c') → c.Took (write a) c')
    (h : times n r c = .ok (as, c')) : c.Took (as.flatMap write) c' :=
  times_induction (motive := fun _ as c c' => c.Took (as.flatMap write) c') .refl
    (fun ha ih => (hr _ _ _ ha).trans ih) h

/-- What holds of every entry that is read holds of all entries of a table. -/
theorem forall_of_times {r : Reader ε α} {P : α → Prop} {n : ℕ} {as : List α}
    (hr : ∀ c a c', r c = .ok (a, c') → P a) (h : times n r c = .ok (as, c')) : ∀ a ∈ as, P a :=
  times_induction (motive := fun _ as _ _ => ∀ a ∈ as, P a) (fun _ => nofun)
    (fun ha ih => List.forall_mem_cons.mpr ⟨hr _ _ _ ha, ih⟩) h

end Reader

end ProtectedMedia
