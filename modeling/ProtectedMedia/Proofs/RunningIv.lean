import ProtectedMedia.Proofs.Bytes.Blocks
import ProtectedMedia.Proofs.Cipher.PatternMarks
import ProtectedMedia.RunningIv

/-!
# The counter of the running vector

The running vector counts in a pair of 32-bit words. Together they are one counter in the low half
of the block that wraps at 64 bits and never touches the high half; as long as it does not wrap it
counts like the number that the whole block spells. Of many counts only the sum matters, whatever
their order and wherever the words wrap between them. The blocks that are added for a run under a
pattern are those that the pattern encrypts, unless the run ends inside an encrypted part.
-/
namespace ProtectedMedia

namespace Block

/-- Adds to the counter in the low eight bytes, modulo `2 ^ 64`; the high eight bytes stay. -/
def addLow (b : Block) (n : ℕ) : Block :=
  ofNat (b.toNat / 2 ^ 64 * 2 ^ 64 + (b.toNat + n) % 2 ^ 64)

variable (b : Block)

theorem toNat_addLow (n : ℕ) :
    (b.addLow n).toNat = b.toNat / 2 ^ 64 * 2 ^ 64 + (b.toNat + n) % 2 ^ 64 := by
  have hb := b.toNat_lt
  rw [addLow, toNat_ofNat]
  omega

@[simp] theorem addLow_zero : b.addLow 0 = b := by
  apply toNat_inj
  rw [toNat_addLow]
  omega

theorem addLow_addLow (m n : ℕ) : (b.addLow m).addLow n = b.addLow (m + n) := by
  apply toNat_inj
  rw [toNat_addLow, toNat_addLow, toNat_addLow]
  omega

variable {b} in
theorem toNat_addLow_of_lt {n : ℕ} (h : b.toNat % 2 ^ 64 + n < 2 ^ 64) :
    (b.addLow n).toNat = b.toNat + n := by
  rw [toNat_addLow]
  omega

/-- A block spells its high half and its low half, one behind the other. -/
theorem toNat_eq_halves :
    b.toNat = Bytes.toNat (b.toBytes.take 8) * 2 ^ 64 + Bytes.toNat (b.toBytes.drop 8) := by
  have hlow : (b.toBytes.drop 8).length = 8 := by rw [List.length_drop, length_toBytes]
  conv_lhs => rw [toNat, ← List.take_append_drop 8 b.toBytes, Bytes.toNat_append, hlow]
  norm_num

theorem toNat_low_lt : Bytes.toNat (b.toBytes.drop 8) < 2 ^ 64 := by
  have hlow := Bytes.toNat_lt (b.toBytes.drop 8)
  rw [List.length_drop, length_toBytes] at hlow
  exact hlow.trans_eq (by norm_num)

/-- What is added wraps inside the low half. -/
theorem halves_addLow (n : ℕ) :
    Bytes.toNat ((b.addLow n).toBytes.take 8) * 2 ^ 64 + Bytes.toNat ((b.addLow n).toBytes.drop 8) =
      Bytes.toNat (b.toBytes.take 8) * 2 ^ 64 + (Bytes.toNat (b.toBytes.drop 8) + n) % 2 ^ 64 := by
  have hlow := b.toNat_low_lt
  rw [← toNat_eq_halves, toNat_addLow, b.toNat_eq_halves]
  omega

theorem take_addLow (n : ℕ) : (b.addLow n).toBytes.take 8 = b.toBytes.take 8 := by
  apply Bytes.toNat_inj (by simp)
  have hsum := b.halves_addLow n
  have hlow := (b.addLow n).toNat_low_lt
  omega

theorem drop_addLow (n : ℕ) :
    Bytes.toNat ((b.addLow n).toBytes.drop 8) = (Bytes.toNat (b.toBytes.drop 8) + n) % 2 ^ 64 := by
  have hsum := b.halves_addLow n
  have hlow := (b.addLow n).toNat_low_lt
  omega

/-- All that a block tells about what was added to it is its remainder. -/
theorem addLow_eq_iff {m n : ℕ} : b.addLow m = b.addLow n ↔ m % 2 ^ 64 = n % 2 ^ 64 := by
  constructor
  · intro h
    have hnat := congrArg toNat h
    rw [toNat_addLow, toNat_addLow] at hnat
    omega
  · intro h
    apply toNat_inj
    rw [toNat_addLow, toNat_addLow]
    omega

end Block

namespace RunningIv

/-- The vector of a packet as a block: a short one is filled up with zeros. -/
def widened (iv : Bytes) : Block := Vector.ofFn fun i => iv.getD i 0

theorem toBytes_widened {iv : Bytes} (h : iv.length ≤ 16) :
    (widened iv).toBytes = iv ++ List.replicate (16 - iv.length) 0 := by
  apply List.ext_getElem (by simp; omega)
  intro i hi _
  rw [Block.length_toBytes] at hi
  simp only [widened, Block.toBytes, Vector.getElem_toList, Vector.getElem_ofFn]
  rw [List.getElem_append, List.getD_eq_getElem?_getD]
  split_ifs with hiv
  · rw [List.getElem?_eq_getElem hiv, Option.getD_some]
  · rw [List.getElem?_eq_none (by omega), List.getElem_replicate]
    rfl

theorem ofBytes_eq {iv : Bytes} (h : iv.length = 8 ∨ iv.length = 16) :
    ofBytes iv = .ok ⟨widened iv, 0⟩ := by
  have hw := toBytes_widened (show iv.length ≤ 16 by omega)
  unfold ofBytes
  rcases h with h | h
  · rw [dif_neg (by omega), dif_pos h]
    refine congrArg (fun b => Except.ok (RunningIv.mk b 0)) (Block.toBytes_inj ?_)
    rw [hw, Block.toBytes_mk, h]
  · rw [dif_pos h]
    refine congrArg (fun b => Except.ok (RunningIv.mk b 0)) (Block.toBytes_inj ?_)
    rw [hw, Block.toBytes_mk, h, Nat.sub_self, List.replicate_zero, List.append_nil]

theorem size_of_ofBytes {iv : Bytes} {v : RunningIv} (h : ofBytes iv = .ok v) :
    iv.length = 8 ∨ iv.length = 16 := by
  unfold ofBytes at h
  split at h
  · exact .inr ‹_›
  · split at h
    · exact .inl ‹_›
    · cases h

/-- The counter of a short vector starts at zero. -/
theorem toNat_widened_mod {iv : Bytes} (h : iv.length = 8) :
    (widened iv).toNat % 2 ^ 64 = 0 := by
  have hz : Bytes.toNat (List.replicate 8 0) = 0 := by decide
  rw [Block.toNat, toBytes_widened (by omega), Bytes.toNat_append, h, hz, List.length_replicate]
  omega

theorem length_word (b : Block) {i : ℕ} (h : i + 4 ≤ 16) :
    (Bytes.slice b.toBytes i (i + 4)).length = 4 := by
  rw [Bytes.length_slice, Block.length_toBytes]
  omega

theorem toNat_word (b : Block) {i : ℕ} (h : i + 4 ≤ 16) :
    (word b i).toNat = Bytes.toNat (Bytes.slice b.toBytes i (i + 4)) := by
  have hlt := Bytes.toNat_lt (Bytes.slice b.toBytes i (i + 4))
  rw [length_word b h] at hlt
  rw [word, UInt32.toNat_ofNat', Nat.mod_eq_of_lt (by omega)]

/-- The low half of a block is the pair of words that the counter consists of. -/
theorem toNat_eq_words (b : Block) :
    b.toNat = Bytes.toNat (b.toBytes.take 8) * 2 ^ 64 + (word b 8).toNat * 2 ^ 32 +
      (word b 12).toNat := by
  have hsplit : b.toBytes = b.toBytes.take 8 ++
      (Bytes.slice b.toBytes 8 (8 + 4) ++ Bytes.slice b.toBytes 12 (12 + 4)) := by
    have htail : (b.toBytes.drop 12).take 4 = b.toBytes.drop 12 :=
      List.take_of_length_le (by simp)
    have hdrop : b.toBytes.drop 12 = (b.toBytes.drop 8).drop 4 := by rw [List.drop_drop]
    simp only [Bytes.slice, Nat.add_sub_cancel_left]
    rw [htail, hdrop, List.take_append_drop, List.take_append_drop]
  rw [toNat_word b (by omega), toNat_word b (by omega), Block.toNat]
  conv_lhs => rw [hsplit]
  rw [Bytes.toNat_append, Bytes.toNat_append, List.length_append, length_word b (by omega),
    length_word b (by omega)]
  omega

/-- The pair of words is one counter of 64 bits. -/
theorem addToCounter_eq (b : Block) (count : UInt32) :
    addToCounter b count = b.addLow count.toNat := by
  apply Block.toNat_inj
  have hb := toNat_eq_words b
  have h8 := (word b 8).toNat_lt
  have h12 := (word b 12).toNat_lt
  have hc := count.toNat_lt
  rw [Block.toNat_addLow, addToCounter, Block.toNat, Block.toBytes_mk, Bytes.toNat_append,
    Bytes.toNat_append, Bytes.length_ofUInt32, Bytes.length_ofUInt32, Bytes.toNat_ofUInt32,
    Bytes.toNat_ofUInt32, UInt32.toNat_add]
  split_ifs with hcarry
  · rw [UInt32.lt_iff_toNat_lt, UInt32.toNat_add] at hcarry
    rw [UInt32.toNat_add, show (1 : UInt32).toNat = 1 from rfl]
    omega
  · rw [UInt32.lt_iff_toNat_lt, UInt32.toNat_add] at hcarry
    omega

/-- Counts that are added one behind the other add their sum, wherever the words wrap in between. -/
theorem foldl_addToCounter (b : Block) (counts : List UInt32) :
    counts.foldl addToCounter b = b.addLow (counts.map UInt32.toNat).sum := by
  induction counts generalizing b with
  | nil => exact b.addLow_zero.symm
  | cons count counts ih =>
      rw [List.foldl_cons, ih, addToCounter_eq, Block.addLow_addLow, List.map_cons, List.sum_cons]

/-- A count is added to the low half of the block, read as one number of 64 bits that wraps, and the
high half stays. So any counts add their sum modulo `2 ^ 64`: two lists of counts lead to the same
block just when their sums agree, as they do when one list is the other in another order. -/
theorem counts_add_up (b : Block) :
    (∀ count : UInt32,
      (addToCounter b count).toBytes.take 8 = b.toBytes.take 8 ∧
      Bytes.toNat ((addToCounter b count).toBytes.drop 8) =
        (Bytes.toNat (b.toBytes.drop 8) + count.toNat) % 2 ^ 64) ∧
    ∀ counts : List UInt32,
      (counts.foldl addToCounter b).toBytes.take 8 = b.toBytes.take 8 ∧
      Bytes.toNat ((counts.foldl addToCounter b).toBytes.drop 8) =
        (Bytes.toNat (b.toBytes.drop 8) + (counts.map UInt32.toNat).sum) % 2 ^ 64 ∧
      ∀ others : List UInt32,
        (others.foldl addToCounter b = counts.foldl addToCounter b ↔
          (others.map UInt32.toNat).sum % 2 ^ 64 = (counts.map UInt32.toNat).sum % 2 ^ 64) ∧
        (others.Perm counts → others.foldl addToCounter b = counts.foldl addToCounter b) := by
  constructor
  · intro count
    rw [addToCounter_eq]
    exact ⟨b.take_addLow _, b.drop_addLow _⟩
  · intro counts
    rw [foldl_addToCounter]
    refine ⟨b.take_addLow _, b.drop_addLow _, fun others => ?_⟩
    rw [foldl_addToCounter]
    refine ⟨b.addLow_eq_iff, fun hperm => ?_⟩
    rw [(hperm.map UInt32.toNat).sum_nat]

/-- A block whose words are two and three below their wraps. -/
def beforeWraps : Block :=
  ⟨#[17, 17, 17, 17, 17, 17, 17, 17, 255, 255, 255, 254, 255, 255, 255, 253], rfl⟩

/-- From `beforeWraps` on the first count wraps no word, the second one the low word and the third one
both words. -/
def wrappingCounts : List UInt32 := [1, 4294967295, 4294967295]

/-- In reverse the low word wraps at the first count and the high word at the second one. -/
theorem counts_add_up_past_wraps :
    wrappingCounts.reverse.Perm wrappingCounts ∧
    wrappingCounts.reverse.foldl addToCounter beforeWraps =
      wrappingCounts.foldl addToCounter beforeWraps ∧
    (wrappingCounts.foldl addToCounter beforeWraps).toBytes.take 8 = List.replicate 8 17 ∧
    Bytes.toNat ((wrappingCounts.foldl addToCounter beforeWraps).toBytes.drop 8) = 4294967292 := by
  have hperm : wrappingCounts.reverse.Perm wrappingCounts := List.reverse_perm _
  obtain ⟨hhigh, hlow, hothers⟩ := (counts_add_up beforeWraps).2 wrappingCounts
  exact ⟨hperm, (hothers _).2 hperm, hhigh, hlow.trans (by decide)⟩

theorem advanceCounter_eq (v : RunningIv) {blocks : ℕ} (h : blocks < 2 ^ 32) (size : ℕ) :
    v.advanceCounter blocks size = ⟨v.block.addLow blocks, (v.offset + size) % 16⟩ := by
  have hcount : (UInt32.ofNat blocks).toNat = blocks := UInt32.toNat_ofNat_of_lt' h
  rw [advanceCounter, addToCounter_eq, hcount]

/-- The running vector after `n` bytes of one keystream. -/
def atByte (iv : Block) (n : ℕ) : RunningIv := ⟨iv.addLow (n / 16), n % 16⟩

@[simp] theorem atByte_zero (iv : Block) : atByte iv 0 = ⟨iv, 0⟩ := by simp [atByte]

/-- Without a pattern the vector follows the keystream byte by byte. -/
theorem advance_cenc (iv : Block) (n : ℕ) (p : Pattern) {run : Bytes}
    (h : run.length < 2 ^ 32) :
    (atByte iv n).advance .cenc p run = .ok (atByte iv (n + run.length)) := by
  have hblocks : n / 16 + (n % 16 + run.length) / 16 = (n + run.length) / 16 := by omega
  have hlt : (n % 16 + run.length) / 16 < 2 ^ 32 := by omega
  change Except.ok ((atByte iv n).advanceCounter ((n % 16 + run.length) / 16) run.length) = _
  rw [advanceCounter_eq _ hlt, atByte, atByte, Block.addLow_addLow, hblocks, Nat.mod_add_mod]

theorem patternBlocks_le (p : Pattern) (blocks : ℕ) : patternBlocks p blocks ≤ blocks := by
  have hc : p.crypt.toNat ≤ p.size := Nat.le_add_right _ _
  have hq : blocks / p.size * p.crypt.toNat ≤ p.size * (blocks / p.size) := by
    rw [Nat.mul_comm]
    exact Nat.mul_le_mul_right _ hc
  have hb := Nat.div_add_mod blocks p.size
  unfold patternBlocks
  dsimp only
  split_ifs <;> omega

/-- Under a pattern the counter grows by the counted blocks; the offset moves over all bytes. -/
theorem advance_cens (v : RunningIv) {p : Pattern} (hp : p.size ≠ 0) {run : Bytes}
    (h : run.length < 2 ^ 32) :
    v.advance .cens p run =
      .ok ⟨v.block.addLow (patternBlocks p (run.length / 16)), (v.offset + run.length) % 16⟩ := by
  have hle := patternBlocks_le p (run.length / 16)
  have hlt : patternBlocks p (run.length / 16) < 2 ^ 32 := by omega
  rw [← advanceCounter_eq v hlt]
  unfold advance
  rw [p.isNone_eq_false_of_size hp]
  rfl

theorem advance_cbc1 (v : RunningIv) (p : Pattern) {run : Bytes} (hrun : run ≠ [])
    (hwhole : run.length % 16 = 0) :
    v.advance .cbc1 p run = .ok ⟨(Block.split run).getLastD v.block, v.offset⟩ := by
  have hpos := List.length_pos_iff.mpr hrun
  have hsome : Block.split run ≠ [] := by
    rw [← List.length_pos_iff, Block.length_split]
    omega
  obtain ⟨last, hlast⟩ := Option.ne_none_iff_exists'.mp (mt List.getLast?_eq_none_iff.mp hsome)
  have hbytes := Block.ofBytes?_drop_eq_getLast? hwhole
  rw [hlast] at hbytes
  rw [List.getLastD_eq_getLast?, hlast, Option.getD_some]
  unfold advance
  dsimp only
  rw [hbytes]
  exact if_pos hwhole

theorem advance_partialBlock (v : RunningIv) (p : Pattern) {run : Bytes}
    (h : run.length % 16 ≠ 0) : v.advance .cbc1 p run = .error (.layout .partialBlock) := by
  unfold advance
  dsimp only
  cases Block.ofBytes? (run.drop (run.length - 16)) with
  | none => rfl
  | some last => exact if_neg h

theorem exists_advance (v : RunningIv) {scheme : Scheme} (p : Pattern) {run : Bytes}
    (hrun : run ≠ []) (h : scheme = .cbc1 → run.length % 16 = 0) :
    ∃ v', v.advance scheme p run = .ok v' := by
  cases scheme with
  | cenc => exact ⟨_, rfl⟩
  | cens =>
      unfold advance
      dsimp only
      split
      · exact ⟨_, rfl⟩
      · exact ⟨_, rfl⟩
  | cbc1 => exact ⟨_, advance_cbc1 v p hrun (h rfl)⟩
  | cbcs => exact ⟨_, rfl⟩

/-- Only a chain without pattern can be stuck behind a run, and only if that ends inside a block. -/
theorem advance_eq_error {v : RunningIv} {scheme : Scheme} {p : Pattern} {run : Bytes}
    {e : Error} (hrun : run ≠ []) (h : v.advance scheme p run = .error e) :
    scheme = .cbc1 ∧ run.length % 16 ≠ 0 ∧ e = .layout .partialBlock := by
  by_cases hstuck : scheme = .cbc1 ∧ run.length % 16 ≠ 0
  · obtain ⟨rfl, hpartial⟩ := hstuck
    rw [advance_partialBlock v p hpartial] at h
    cases h
    exact ⟨rfl, hpartial, rfl⟩
  · obtain ⟨v', hv'⟩ := v.exists_advance p hrun fun hcbc1 => by
      by_contra hpartial
      exact hstuck ⟨hcbc1, hpartial⟩
    rw [hv'] at h
    cases h

end RunningIv

namespace Pattern
open Bytes

/-- A run of `n` bytes does not end inside an encrypted part: of the last repetition it has either
nothing or at least the whole encrypted part. -/
def EndsOutside (p : Pattern) (n : ℕ) : Prop :=
  n / 16 % p.size = 0 ∨ p.crypt.toNat ≤ n / 16 % p.size

instance (p : Pattern) (n : ℕ) : Decidable (p.EndsOutside n) :=
  inferInstanceAs (Decidable (_ ∨ _))

end Pattern

end ProtectedMedia
