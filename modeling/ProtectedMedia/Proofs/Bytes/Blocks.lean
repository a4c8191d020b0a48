import ProtectedMedia.Proofs.Bytes.Value

/-!
# Whole blocks at the front of a byte string

`Block.split` cuts off blocks while sixteen bytes are left. Its result together with the bytes that
remain is the string again, and a prefix of whole blocks can be split on its own.
-/
namespace ProtectedMedia.Block

theorem ofBytes?_eq_none {b : Bytes} (h : b.length ≠ 16) : ofBytes? b = none := by
  unfold ofBytes?
  rw [dif_neg h]

/-- The accumulator of the splitting loop stays in front of what is still to be found. -/
theorem split_go (b : Bytes) (found : Array Block) :
    split.go b found = found.toList ++ split b := by
  unfold split
  induction hn : b.length using Nat.strong_induction_on generalizing b found with
  | h n ih =>
    rw [split.go, split.go]
    split
    · rename_i x hx
      have hlen := length_eq_of_ofBytes? hx
      simp only [List.length_take] at hlen
      have hd : (b.drop 16).length < n := by simp only [List.length_drop]; omega
      rw [ih _ hd _ _ rfl, ih _ hd _ (#[].push x) rfl]
      simp
    · simp

/-- The first block comes first, and the others are those of what is behind it. -/
theorem split_eq (b : Bytes) :
    split b =
      match ofBytes? (b.take 16) with
      | some x => x :: split (b.drop 16)
      | none => [] := by
  rw [split, split.go]
  split
  · rename_i x hx
    rw [split_go]
    simp [hx]
  · rename_i hx
    rw [hx]

theorem split_toBytes_append (x : Block) (b : Bytes) : split (x.toBytes ++ b) = x :: split b := by
  have ht : (x.toBytes ++ b).take 16 = x.toBytes := List.take_left' x.length_toBytes
  have hd : (x.toBytes ++ b).drop 16 = b := List.drop_left' x.length_toBytes
  rw [split_eq, ht, ofBytes?_toBytes, hd]

theorem split_of_length_lt {b : Bytes} (h : b.length < 16) : split b = [] := by
  have hlen := List.length_take_le' 16 b
  rw [split_eq, ofBytes?_eq_none (by omega)]

@[simp] theorem split_nil : split [] = [] := split_of_length_lt (by simp)

theorem exists_eq_toBytes_append {b : Bytes} (h : 16 ≤ b.length) :
    ∃ (x : Block) (rest : Bytes), b = x.toBytes ++ rest := by
  have hl : (b.take 16).length = 16 := by simp only [List.length_take]; omega
  refine ⟨⟨(b.take 16).toArray, by simpa using hl⟩, b.drop 16, ?_⟩
  rw [toBytes_mk, List.take_append_drop]

/-- Induction over the whole blocks of a byte string. -/
theorem split_induction {P : Bytes → Prop} (short : ∀ b, b.length < 16 → P b)
    (block : ∀ (x : Block) (b : Bytes), P b → P (x.toBytes ++ b)) (b : Bytes) : P b := by
  induction hn : b.length using Nat.strong_induction_on generalizing b with
  | h n ih =>
    by_cases h : b.length < 16
    · exact short b h
    · obtain ⟨x, rest, rfl⟩ := exists_eq_toBytes_append (b := b) (by omega)
      refine block x rest (ih rest.length ?_ rest rfl)
      rw [← hn, List.length_append, length_toBytes]
      omega

theorem length_split (b : Bytes) : (split b).length = b.length / 16 := by
  induction b using split_induction with
  | short b h => rw [split_of_length_lt h, Nat.div_eq_of_lt h]; rfl
  | block x b ih =>
      rw [split_toBytes_append, List.length_cons, ih, List.length_append, length_toBytes]
      omega

theorem split_append {a : Bytes} (b : Bytes) (h : a.length % 16 = 0) :
    split (a ++ b) = split a ++ split b := by
  induction a using split_induction with
  | short a ha =>
      have : a = [] := List.eq_nil_of_length_eq_zero (by omega)
      simp [this]
  | block x a ih =>
      rw [List.length_append, length_toBytes] at h
      rw [List.append_assoc, split_toBytes_append, split_toBytes_append, ih (by omega)]
      rfl

theorem length_flatMap_toBytes (xs : List Block) :
    (xs.flatMap toBytes).length = 16 * xs.length := by
  induction xs with
  | nil => rfl
  | cons x xs ih =>
      rw [List.flatMap_cons, List.length_append, length_toBytes, ih, List.length_cons]
      omega

/-- Byte `k` of a row of blocks is byte `k % 16` of block `k / 16`. -/
theorem getElem?_flatMap_toBytes (xs : List Block) (k : ℕ) :
    (xs.flatMap toBytes)[k]? = xs[k / 16]?.bind fun x => x.toBytes[k % 16]? := by
  induction xs generalizing k with
  | nil => simp
  | cons x xs ih =>
      rw [List.flatMap_cons, List.getElem?_append, length_toBytes]
      split_ifs with hk
      · have hdiv : k / 16 = 0 := Nat.div_eq_of_lt hk
        have hmod : k % 16 = k := Nat.mod_eq_of_lt hk
        rw [hdiv, hmod, List.getElem?_cons_zero, Option.bind_some]
      · have hdiv : k / 16 = (k - 16) / 16 + 1 := by omega
        have hmod : k % 16 = (k - 16) % 16 := by omega
        rw [ih, hdiv, hmod, List.getElem?_cons_succ]

/-- The last block of a nonempty row of whole blocks is its last sixteen bytes. -/
theorem ofBytes?_drop_eq_getLast? {b : Bytes} (h : b.length % 16 = 0) :
    ofBytes? (b.drop (b.length - 16)) = (split b).getLast? := by
  induction b using split_induction with
  | short b hb =>
      have : b = [] := List.eq_nil_of_length_eq_zero (by omega)
      subst this
      rw [split_nil, ofBytes?_eq_none (by simp)]
      rfl
  | block x b ih =>
      rw [List.length_append, length_toBytes] at h
      rw [split_toBytes_append, List.getLast?_cons]
      by_cases hb : b = []
      · subst hb
        simp [ofBytes?_toBytes]
      · have hpos := List.length_pos_iff.mpr hb
        have hd : (x.toBytes ++ b).length - 16 = x.toBytes.length + (b.length - 16) := by
          rw [List.length_append, length_toBytes]
          omega
        have hlast : (split b).getLast? ≠ none := by
          rw [ne_eq, List.getLast?_eq_none_iff, ← List.length_eq_zero_iff, length_split]
          omega
        obtain ⟨y, hy⟩ := Option.ne_none_iff_exists'.mp hlast
        rw [hd, List.drop_length_add_append, ih (by omega), hy]
        rfl

end ProtectedMedia.Block
