import Mathlib.Data.Nat.Notation
import Mathlib.Tactic.SplitIfs
import ProtectedMedia.Text.Utf8

/-!
# Characters and their bytes

A text is encoded character by character. The characters below 128 are one byte each, of the same
number, and all bytes of other characters are 128 or more. So a text whose bytes are all below 128 can
be read byte by byte as well as character by character.
-/
namespace ProtectedMedia.Text

variable {s : List Char} {c : Char}

theorem toList_loop (bs : ByteArray) (i : ℕ) (r : List UInt8) :
    ByteArray.toList.loop bs i r = r.reverse ++ bs.data.toList.drop i := by
  induction i, r using ByteArray.toList.loop.induct bs with
  | case1 i r hlt ih =>
      have hbound : i < bs.data.toList.length := hlt
      have hget : bs.get! i = bs.data.toList[i] := getElem!_pos bs.data i hlt
      rw [ByteArray.toList.loop, if_pos hlt, ih, List.reverse_cons, hget, List.append_assoc,
        List.singleton_append, ← List.drop_eq_getElem_cons]
  | case2 i r hend =>
      have hdrop : bs.data.toList.drop i = [] := List.drop_of_length_le (Nat.le_of_not_lt hend)
      rw [ByteArray.toList.loop, if_neg hend, hdrop, List.append_nil]

theorem utf8_ofList (s : List Char) :
    utf8 (String.ofList s) = s.flatMap String.utf8EncodeChar := by
  change ByteArray.toList.loop (String.ofList s).toByteArray 0 [] = _
  rw [toList_loop, String.toByteArray_ofList, List.utf8Encode, List.toList_data_toByteArray]
  rfl

theorem utf8EncodeChar_of_lt (h : c.toNat < 128) :
    String.utf8EncodeChar c = [UInt8.ofNat c.toNat] :=
  if_pos (Nat.le_of_lt_succ h)

theorem toNat_ofNat_of_lt {n : ℕ} (h : n < 256) : (UInt8.ofNat n).toNat = n :=
  UInt8.toNat_ofNat_of_lt' h

theorem le_of_mem_utf8EncodeChar (h : 128 ≤ c.toNat) :
    ∀ x ∈ String.utf8EncodeChar c, 128 ≤ x.toNat := by
  have hlarge : ¬c.val.toNat ≤ 0x7f := Nat.not_le_of_lt h
  have hmark (n k : ℕ) (hn : 128 ≤ n + k) (hlt : n + k < 256) : 128 ≤ (UInt8.ofNat (n + k)).toNat := by
    rwa [toNat_ofNat_of_lt hlt]
  rw [String.utf8EncodeChar, if_neg hlarge]
  split_ifs
  all_goals simp only [List.forall_mem_cons]
  · exact ⟨hmark _ _ (by omega) (by omega), hmark _ _ (by omega) (by omega), nofun⟩
  · exact ⟨hmark _ _ (by omega) (by omega), hmark _ _ (by omega) (by omega),
      hmark _ _ (by omega) (by omega), nofun⟩
  · exact ⟨hmark _ _ (by omega) (by omega), hmark _ _ (by omega) (by omega),
      hmark _ _ (by omega) (by omega), hmark _ _ (by omega) (by omega), nofun⟩

/-- What is said of the bytes below 128 can be said of the characters. -/
theorem forall_mem_utf8_iff {p : ℕ → Prop} (hp : ∀ n, p n → n < 128) (s : List Char) :
    (∀ x ∈ utf8 (String.ofList s), p x.toNat) ↔ ∀ c ∈ s, p c.toNat := by
  rw [utf8_ofList]
  simp only [List.mem_flatMap]
  constructor
  · intro h c hc
    by_cases hlt : c.toNat < 128
    · have hbyte := h (UInt8.ofNat c.toNat) ⟨c, hc, by simp [utf8EncodeChar_of_lt hlt]⟩
      rwa [toNat_ofNat_of_lt (Nat.lt_trans hlt (by decide))] at hbyte
    · obtain ⟨x, hx⟩ := List.exists_mem_of_ne_nil _ (String.utf8EncodeChar_ne_nil (c := c))
      have hlarge := le_of_mem_utf8EncodeChar (Nat.le_of_not_lt hlt) x hx
      exact absurd (hp _ (h x ⟨c, hc, hx⟩)) (Nat.not_lt_of_le hlarge)
  · rintro h x ⟨c, hc, hx⟩
    have hlt := hp _ (h c hc)
    rw [utf8EncodeChar_of_lt hlt, List.mem_singleton] at hx
    rw [hx, toNat_ofNat_of_lt (Nat.lt_trans hlt (by decide))]
    exact h c hc

theorem utf8_of_lt (h : ∀ c ∈ s, c.toNat < 128) :
    utf8 (String.ofList s) = s.map fun c => UInt8.ofNat c.toNat := by
  rw [utf8_ofList]
  induction s with
  | nil => rfl
  | cons c s ih =>
      rw [List.forall_mem_cons] at h
      rw [List.flatMap_cons, utf8EncodeChar_of_lt h.1, ih h.2, List.map_cons, List.singleton_append]

end ProtectedMedia.Text
