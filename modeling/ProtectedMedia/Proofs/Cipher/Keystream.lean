import ProtectedMedia.Cipher.CounterMode
import ProtectedMedia.Proofs.Bytes.Blocks

/-!
# One keystream, read in pieces

Byte `i` of the keystream is byte `i % 16` of block `i / 16`, so a stretch of it is the same
whether it is read at once or in pieces, and a counter that was moved on by `k` reads it from byte
`16 * k` on. Nothing is assumed about the block cipher.
-/
namespace ProtectedMedia.CounterMode

variable (cipher : BlockCipher) (start : Block)

theorem keystream_stream (first count : ℕ) :
    ((List.range count).flatMap fun i => (block cipher start (first + i)).toBytes) =
      ((List.range count).map fun i => block cipher start (first + i)).flatMap Block.toBytes := by
  rw [List.flatMap_map]

@[simp] theorem length_keystream (position length : ℕ) :
    (keystream cipher start position length).length = length := by
  rw [keystream, keystream_stream, List.length_take, List.length_drop,
    Block.length_flatMap_toBytes, List.length_map, List.length_range]
  omega

theorem getElem?_keystream (position : ℕ) {length i : ℕ} (h : i < length) :
    (keystream cipher start position length)[i]? =
      (block cipher start ((position + i) / 16)).toBytes[(position + i) % 16]? := by
  have hcount : (position % 16 + i) / 16 < (position % 16 + length + 15) / 16 := by omega
  have hblock : position / 16 + (position % 16 + i) / 16 = (position + i) / 16 := by omega
  have hbyte : (position % 16 + i) % 16 = (position + i) % 16 := by omega
  rw [keystream, keystream_stream, List.getElem?_take_of_lt h, List.getElem?_drop,
    Block.getElem?_flatMap_toBytes, List.getElem?_map, List.getElem?_range hcount, hbyte]
  simp only [Option.map_some, Option.bind_some, hblock]

/-- The keystream goes on where it was left. -/
theorem keystream_add (position m n : ℕ) :
    keystream cipher start position (m + n) =
      keystream cipher start position m ++ keystream cipher start (position + m) n := by
  apply List.ext_getElem?
  intro i
  rw [List.getElem?_append, length_keystream]
  split_ifs with hm
  · rw [getElem?_keystream cipher start position hm,
      getElem?_keystream cipher start position (show i < m + n by omega)]
  · by_cases hn : i < m + n
    · have hi : position + m + (i - m) = position + i := by omega
      rw [getElem?_keystream cipher start position hn,
        getElem?_keystream cipher start (position + m) (show i - m < n by omega), hi]
    · rw [List.getElem?_eq_none (by rw [length_keystream]; omega),
        List.getElem?_eq_none (by rw [length_keystream]; omega)]

variable {start} in
/-- A counter that is `k` blocks further on reads the stream from byte `16 * k` on. -/
theorem keystream_of_toNat_eq {later : Block} {k : ℕ} (h : later.toNat = start.toNat + k)
    (position length : ℕ) :
    keystream cipher later position length = keystream cipher start (16 * k + position) length := by
  have hblock (n : ℕ) : block cipher later n = block cipher start (k + n) := by
    rw [block, block, h, Nat.add_assoc]
  have hdiv : (16 * k + position) / 16 = k + position / 16 := by omega
  have hmod : (16 * k + position) % 16 = position % 16 := by omega
  simp only [keystream, hblock, hdiv, hmod, Nat.add_assoc]

@[simp] theorem length_apply (position : ℕ) (data : Bytes) :
    (apply cipher start position data).length = data.length := by
  simp [apply]

@[simp] theorem apply_nil (position : ℕ) : apply cipher start position [] = [] := rfl

theorem apply_append (position : ℕ) (a b : Bytes) :
    apply cipher start position (a ++ b) =
      apply cipher start position a ++ apply cipher start (position + a.length) b := by
  rw [apply, List.length_append, keystream_add]
  exact List.zipWith_append (by simp)

variable {start} in
theorem apply_of_toNat_eq {later : Block} {k : ℕ} (h : later.toNat = start.toNat + k)
    (position : ℕ) (data : Bytes) :
    apply cipher later position data = apply cipher start (16 * k + position) data := by
  rw [apply, keystream_of_toNat_eq cipher h, apply]

end ProtectedMedia.CounterMode
