import ProtectedMedia.Proofs.Bytes.Value

/-!
# Writing into a byte string

A splice that fits into a byte string keeps its length, puts the piece where it says and leaves all
other bytes as they are. A slice is determined by the bytes at its positions.
-/
namespace ProtectedMedia.Bytes

variable {b other piece : Bytes} {start stop k : ℕ}

theorem length_splice (h : start + piece.length ≤ b.length) :
    (b.splice start piece).length = b.length := by
  simp only [splice, List.length_append, List.length_take, List.length_drop]
  omega

theorem getElem?_slice (b : Bytes) (start stop k : ℕ) :
    (b.slice start stop)[k]? = if k < stop - start then b[start + k]? else none := by
  rw [slice, List.getElem?_take, List.getElem?_drop]

theorem getElem?_eq_slice (hstart : start ≤ k) (hstop : k < stop) :
    b[k]? = (b.slice start stop)[k - start]? := by
  rw [getElem?_slice, if_pos (by omega)]
  congr 1
  omega

/-- Slices are equal if the byte strings agree at the positions of the slice. -/
theorem slice_congr (h : ∀ k, start ≤ k → k < stop → b[k]? = other[k]?) :
    b.slice start stop = other.slice start stop := by
  apply List.ext_getElem?
  intro k
  rw [getElem?_slice, getElem?_slice]
  split
  · exact h _ (by omega) (by omega)
  · rfl

theorem getElem?_splice_of_lt (h : start + piece.length ≤ b.length) (hk : k < start) :
    (b.splice start piece)[k]? = b[k]? := by
  rw [splice, List.append_assoc, List.getElem?_append_left, List.getElem?_take, if_pos hk]
  rw [List.length_take]
  omega

theorem getElem?_splice_of_le (h : start + piece.length ≤ b.length)
    (hk : start + piece.length ≤ k) : (b.splice start piece)[k]? = b[k]? := by
  have hfront : (b.take start ++ piece).length = start + piece.length := by
    rw [List.length_append, List.length_take]
    omega
  rw [splice, List.getElem?_append_right (by omega), hfront, List.getElem?_drop]
  congr 1
  omega

theorem take_splice (h : start ≤ b.length) :
    (b.splice start piece).take (start + piece.length) = b.take start ++ piece := by
  rw [splice, List.take_left']
  rw [List.length_append, List.length_take, Nat.min_eq_left h]

theorem drop_splice (h : start ≤ b.length) (hk : start + piece.length ≤ k) :
    (b.splice start piece).drop k = b.drop k := by
  have hfront : (b.take start ++ piece).length = start + piece.length := by
    rw [List.length_append, List.length_take, Nat.min_eq_left h]
  rw [splice, List.drop_append, List.drop_eq_nil_of_le (by omega), List.nil_append, hfront,
    List.drop_drop, Nat.add_sub_cancel' hk]

/-! ### Between other bytes -/

variable (front tail : Bytes)

theorem slice_between (hstart : start ≤ stop) (hstop : stop ≤ b.length) :
    (front ++ (b ++ tail)).slice (front.length + start) (front.length + stop) =
      b.slice start stop := by
  rw [slice, slice, Nat.add_sub_add_left, List.drop_append, List.drop_eq_nil_of_le (by omega),
    Nat.add_sub_cancel_left, List.nil_append, List.drop_append_of_le_length (by omega),
    List.take_append_of_le_length (by rw [List.length_drop]; omega)]

theorem splice_between (h : start + piece.length ≤ b.length) :
    (front ++ (b ++ tail)).splice (front.length + start) piece =
      front ++ (b.splice start piece ++ tail) := by
  have htake : (front ++ (b ++ tail)).take (front.length + start) = front ++ b.take start := by
    rw [List.take_append, List.take_of_length_le (by omega), Nat.add_sub_cancel_left,
      List.take_append_of_le_length (by omega)]
  have hdrop : (front ++ (b ++ tail)).drop (front.length + start + piece.length) =
      b.drop (start + piece.length) ++ tail := by
    rw [List.drop_append, List.drop_eq_nil_of_le (by omega), List.nil_append, Nat.add_assoc,
      Nat.add_sub_cancel_left, List.drop_append_of_le_length h]
  rw [splice, splice, htake, hdrop]
  simp only [List.append_assoc]

/-! ### Pieces in place -/

/-- A piece stands in a byte string at a position. -/
def HasAt (b : Bytes) (k : ℕ) (piece : Bytes) : Prop :=
  ∃ before after, b = before ++ (piece ++ after) ∧ before.length = k

theorem hasAt_self (b : Bytes) : b.HasAt 0 b := ⟨[], [], (List.append_nil b).symm, rfl⟩

theorem hasAt_slice (h : k ≤ b.length) : b.HasAt k (b.slice k stop) := by
  refine ⟨b.take k, (b.drop k).drop (stop - k), ?_, List.length_take_of_le h⟩
  rw [Bytes.slice, List.take_append_drop, List.take_append_drop]

/-- A splice as long as a piece comes in its place. -/
theorem splice_at {front tail : Bytes} (hfront : front.length = k)
    (hlength : other.length = piece.length) :
    (front ++ (piece ++ tail)).splice k other = front ++ (other ++ tail) := by
  have hback : (front ++ (piece ++ tail)).drop (k + other.length) = tail := by
    rw [← List.append_assoc, List.drop_left' (by rw [List.length_append, hfront, hlength])]
  rw [Bytes.splice, List.take_left' hfront, hback, List.append_assoc]

theorem HasAt.slice (h : b.HasAt k piece) : b.slice k (k + piece.length) = piece := by
  obtain ⟨before, after, rfl, rfl⟩ := h
  rw [Bytes.slice, List.drop_left, Nat.add_sub_cancel_left, List.take_left]

theorem HasAt.eq_slice (h : b.HasAt k piece) (hstop : stop - k = piece.length) :
    b.slice k stop = piece := by
  rw [← h.slice, Bytes.slice, Bytes.slice, hstop, Nat.add_sub_cancel_left]

theorem HasAt.left (h : b.HasAt k (piece ++ other)) : b.HasAt k piece := by
  obtain ⟨before, after, rfl, rfl⟩ := h
  exact ⟨before, other ++ after, by rw [List.append_assoc], rfl⟩

theorem HasAt.right (h : b.HasAt k (piece ++ other)) : b.HasAt (k + piece.length) other := by
  obtain ⟨before, after, rfl, rfl⟩ := h
  refine ⟨before ++ piece, after, ?_, List.length_append⟩
  simp only [List.append_assoc]

/-- What stands in a piece stands in everything that has the piece. -/
theorem HasAt.trans {n : ℕ} (h : b.HasAt k piece) (h' : piece.HasAt n other) :
    b.HasAt (k + n) other := by
  obtain ⟨before, after, rfl, rfl⟩ := h
  obtain ⟨before', after', rfl, rfl⟩ := h'
  refine ⟨before ++ before', after' ++ after, ?_, List.length_append⟩
  simp only [List.append_assoc]

end ProtectedMedia.Bytes
