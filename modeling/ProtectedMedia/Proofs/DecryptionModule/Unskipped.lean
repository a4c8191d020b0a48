import ProtectedMedia.Proofs.DecryptionModule.Answers

/-!
# Patterns that skip nothing

A pattern without clear blocks encrypts every whole block of a run, as if there was no pattern, only
that the cipher is called for one repetition after the other. A chain goes on from one call to the next
and leaves an incomplete block alone anyway, so that the pattern makes no difference to it. A keystream
goes on, too, but without a pattern it covers the incomplete block as well.
-/
namespace ProtectedMedia

namespace Pattern
variable {p : Pattern}

theorem encrypts_of_skip_zero (h : p.skip = 0) (b : ℕ) : p.encrypts b = true := by
  by_cases hc : p.crypt = 0
  · simp [encrypts, isNone, hc, h]
  · have hpos : 0 < p.crypt.toNat :=
      Nat.pos_of_ne_zero fun hzero => hc (UInt32.toNat_inj.mp hzero)
    have hsize : p.size = p.crypt.toNat := by rw [size, h, UInt32.toNat_zero, Nat.add_zero]
    rw [encrypts, hsize, decide_eq_true (Nat.mod_lt b hpos), Bool.or_true]

theorem marks_of_skip_zero (h : p.skip = 0) (n : ℕ) : p.marks n = none.marks n := by
  have hnone (b : ℕ) : none.encrypts b = true := rfl
  simp only [marks, encrypts_of_skip_zero h, hnone]

end Pattern

namespace Request
variable (r : Request)

/-- The same request with a pattern of `crypt` encrypted blocks and no clear ones. -/
def unskipped (crypt : UInt32) : Request := { r with pattern := ⟨crypt, 0⟩ }

/-- The same request without a pattern. -/
def unpatterned : Request := { r with pattern := .none }

/-- The same request without a pattern, and for the whole blocks at the front of the data only. -/
def wholeBlocks : Request :=
  { r with pattern := .none, data := r.data.take r.data.wholeSize }

end Request

namespace KeyStore

/-! ### The plaintext -/

section
variable (cipher : BlockCipher) (iv : Block) (r : Request) {c : UInt32}

theorem decryptChain_unskipped (c : UInt32) :
    decryptChain cipher iv (r.unskipped c) = decryptChain cipher iv r.unpatterned := by
  have hpattern := decryptChain_replaces cipher iv (r := r.unskipped c)
  rw [Pattern.marks_of_skip_zero rfl] at hpattern
  exact hpattern.unique (by simp) (decryptChain_replaces cipher iv (r := r.unpatterned))

theorem length_decryptCounter_wholeBlocks :
    (decryptCounter cipher iv r.wholeBlocks).length = r.data.wholeSize :=
  (length_decryptCounter cipher iv).trans r.data.length_take_wholeSize

/-- The keystream of the whole blocks does not depend on what is behind them. -/
theorem decryptCounter_wholeBlocks :
    decryptCounter cipher iv r.wholeBlocks =
      (decryptCounter cipher iv r.unpatterned).take r.data.wholeSize := by
  have hlen := length_decryptCounter_wholeBlocks cipher iv r
  rw [decryptCounter_of_none cipher iv rfl] at hlen
  rw [decryptCounter_of_none cipher iv rfl, decryptCounter_of_none cipher iv rfl]
  change _ = (CounterMode.apply cipher iv r.blockOffset r.data).take r.data.wholeSize
  conv_rhs => rw [← List.take_append_drop r.data.wholeSize r.data]
  rw [CounterMode.apply_append, List.take_append_drop]
  exact (List.take_left' hlen).symm

theorem decryptCounter_unskipped (hc : c ≠ 0) :
    decryptCounter cipher iv (r.unskipped c) =
      decryptCounter cipher iv r.wholeBlocks ++ r.data.drop r.data.wholeSize := by
  have hpattern := decryptCounter_replaces cipher iv (r := r.unskipped c)
    (Pattern.size_ne_zero_of_crypt _ hc)
  have hpick : Bytes.pick (Pattern.none.marks (r.unskipped c).data.length) (r.unskipped c).data =
      r.wholeBlocks.data := Pattern.pick_whole r.data
  rw [Pattern.marks_of_skip_zero rfl, hpick] at hpattern
  have hwhole := Pattern.replaces_whole (length_decryptCounter_wholeBlocks cipher iv r)
  rw [decryptCounter_of_none cipher iv (r := r.wholeBlocks) rfl] at hwhole ⊢
  exact hpattern.unique (by simp) hwhole

end

/-! ### The reply -/

section
variable (keys : KeyStore) (family : Block → BlockCipher) (log : List Refusal) (r : Request)
  (dest : Bytes) {c : UInt32}

theorem decrypt_unskipped_chaining (hmode : r.mode = .chaining) (c : UInt32) :
    (keys.toModule family).decrypt log (r.unskipped c) dest =
      (keys.toModule family).decrypt log r.unpatterned dest := by
  have hplain (n : ℕ) :
      keys.plaintext family (r.unskipped c) n = keys.plaintext family r.unpatterned n := by
    simp only [plaintext, decryptChain_unskipped]
    simp only [Request.unskipped, Request.unpatterned, hmode]
  simp only [toModule, hplain]

/-- A request without a key, or with sizes that do not fit, is refused before its pattern matters. -/
theorem decrypt_unskipped_refused
    (h : ¬(keys.Holds r.keyId ∧ r.iv.length = 16 ∧ r.data.length ≤ dest.length)) (c : UInt32) :
    (keys.toModule family).decrypt log (r.unskipped c) dest =
      (keys.toModule family).decrypt log r.unpatterned dest := by
  by_cases hheld : keys.Holds r.keyId
  · have hsizes : r.iv.length ≠ 16 ∨ dest.length < r.data.length := by
      by_contra hnot
      rw [not_or, not_not, not_lt] at hnot
      exact h ⟨hheld, hnot⟩
    have hpattern := plaintext_malformed family (r := r.unskipped c) hheld hsizes
    have hnone := plaintext_malformed family (r := r.unpatterned) hheld hsizes
    rw [decrypt_refused family log hpattern, decrypt_refused family log hnone]
    rfl
  · have hpattern : keys.plaintext family (r.unskipped c) dest.length = .error (.noKey r.keyId) :=
      plaintext_noKey family hheld
    have hnone : keys.plaintext family r.unpatterned dest.length = .error (.noKey r.keyId) :=
      plaintext_noKey family hheld
    rw [decrypt_refused family log hpattern, decrypt_refused family log hnone]

/-- A pattern of `c` encrypted blocks and no clear ones, for any `c` but zero. To a chained request it
makes no difference at all. A request in counter mode that starts at the beginning of a block is served
with it if and only if it is served without a pattern; then the whole blocks become what they become
without a pattern, whether the rest of the data is there or not, and the incomplete block behind them
is copied. -/
theorem unskipped_pattern_is_none (hc : c ≠ 0) :
    (r.mode = .chaining →
      (keys.toModule family).decrypt log (r.unskipped c) dest =
        (keys.toModule family).decrypt log r.unpatterned dest) ∧
    (r.mode = .counter → r.blockOffset = 0 →
      (keys.Holds r.keyId ∧ r.iv.length = 16 ∧ r.data.length ≤ dest.length →
        (keys.toModule family).decrypt log (r.unskipped c) dest =
          ⟨.success,
            ((keys.toModule family).decrypt log r.wholeBlocks dest).dest.take r.data.wholeSize ++
              r.data.drop r.data.wholeSize ++ dest.drop r.data.length, log⟩ ∧
        ((keys.toModule family).decrypt log r.wholeBlocks dest).status = .success ∧
        ((keys.toModule family).decrypt log r.unpatterned dest).status = .success ∧
        ((keys.toModule family).decrypt log r.wholeBlocks dest).dest.take r.data.wholeSize =
          ((keys.toModule family).decrypt log r.unpatterned dest).dest.take r.data.wholeSize) ∧
      (¬(keys.Holds r.keyId ∧ r.iv.length = 16 ∧ r.data.length ≤ dest.length) →
        (keys.toModule family).decrypt log (r.unskipped c) dest =
          (keys.toModule family).decrypt log r.unpatterned dest)) := by
  refine ⟨fun hmode => decrypt_unskipped_chaining keys family log r dest hmode c,
    fun hmode hoffset => ⟨?_, fun h => decrypt_unskipped_refused keys family log r dest h c⟩⟩
  rintro ⟨hheld, hiv, hdest⟩
  obtain ⟨key, hkey⟩ := hheld.exists_find?
  obtain ⟨iv, hblock⟩ := Block.exists_eq_toBytes hiv
  have hshorter : r.wholeBlocks.data.length ≤ dest.length :=
    (List.length_take_le' _ _).trans hdest
  have hpattern := plaintext_counter family (r := r.unskipped c) hkey hblock hdest hmode
    (.inl hoffset)
  have hnone := plaintext_counter family (r := r.unpatterned) hkey hblock hdest hmode (.inr rfl)
  have hwhole := plaintext_counter family (r := r.wholeBlocks) hkey hblock hshorter hmode (.inr rfl)
  have hlen := length_decryptCounter_wholeBlocks (family key) iv r
  have hpart : (decryptCounter (family key) iv r.unpatterned ++
      dest.drop r.unpatterned.data.length).take r.data.wholeSize =
        decryptCounter (family key) iv r.wholeBlocks := by
    rw [List.take_append_of_le_length, decryptCounter_wholeBlocks]
    rw [length_decryptCounter]
    exact Nat.mul_div_le _ _
  rw [decrypt_served family log (r := r.unskipped c) hdest hpattern,
    decrypt_served family log (r := r.wholeBlocks) hshorter hwhole,
    decrypt_served family log (r := r.unpatterned) hdest hnone, decryptCounter_unskipped _ _ _ hc]
  refine ⟨?_, rfl, rfl, ?_⟩
  · rw [List.take_left' hlen]
    rfl
  · rw [hpart, List.take_left' hlen]

end

/-- Forty bytes to decrypt from the counter zero on. -/
def fortyBytes : Request :=
  ⟨.counter, .none, 0, Block.zero.toBytes, Block.zero.toBytes, List.replicate 40 7⟩

/-- The cipher that takes complements, under every key. -/
def complements (_ : Block) : BlockCipher := ⟨Vector.map (~~~ ·), Vector.map (~~~ ·)⟩

/-- A repetition for each of two blocks and one for the rest. -/
theorem unskipped_pattern_is_none_incomplete :
    (1 : UInt32) ≠ 0 ∧ (empty.insert Block.zero Block.zero).Holds fortyBytes.keyId ∧
    ((empty.insert Block.zero Block.zero).toModule complements).decrypt [] (fortyBytes.unskipped 1)
        (List.replicate 41 238) =
      ⟨.success, List.replicate 31 248 ++ [249] ++ List.replicate 8 7 ++ [238], []⟩ := by
  have hheld : (empty.insert Block.zero Block.zero).Holds fortyBytes.keyId := by decide
  have h := unskipped_pattern_is_none (empty.insert Block.zero Block.zero) complements []
    fortyBytes (List.replicate 41 238) (c := 1) (by decide)
  obtain ⟨hserved, -⟩ := (h.2 rfl rfl).1 ⟨hheld, by decide, by decide⟩
  refine ⟨by decide, hheld, hserved.trans ?_⟩
  exact congrArg (Reply.mk .success · []) (by decide +kernel)

end KeyStore

end ProtectedMedia
