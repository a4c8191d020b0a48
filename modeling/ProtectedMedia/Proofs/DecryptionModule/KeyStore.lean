import ProtectedMedia.DecryptionModule.KeyStore
import ProtectedMedia.Proofs.Cipher.Chain
import ProtectedMedia.Proofs.Cipher.Keystream
import ProtectedMedia.Proofs.Cipher.PatternMarks

/-!
# What a key store answers

A request for a key that is held, with a vector of a block and a destination that is large enough,
is served unless it combines a block offset with a pattern or with chaining. Its plaintext replaces
the encrypted blocks of the run and nothing else, in counter mode by a keystream that goes on over
skipped blocks and in a chain by one message that leaves them out.
-/
namespace ProtectedMedia.KeyStore
open Bytes

theorem streams_counter (cipher : BlockCipher) (iv : Block) :
    Pattern.Streams fun (position : ℕ) piece =>
      (CounterMode.apply cipher iv position piece, position + piece.length) where
  nil _ := rfl
  append position a b _ := by
    simp only [CounterMode.apply_append, List.length_append, Nat.add_assoc]
  length_eq position a := CounterMode.length_apply cipher iv position a

theorem streams_chain (cipher : BlockCipher) : Pattern.Streams (Chaining.decrypt cipher) where
  nil previous := Chaining.decrypt_nil cipher previous
  append previous _ b h := Chaining.decrypt_append cipher previous b h
  length_eq previous a := Chaining.length_decrypt cipher previous a

section
variable (cipher : BlockCipher) (iv : Block)

/-- Without a pattern the whole blocks at the front of the data are one message. -/
theorem chain_replaces (data : Bytes) :
    Replaces (Pattern.none.marks data.length)
      (Chaining.plaintext cipher iv (pick (Pattern.none.marks data.length) data)) data
      (Chaining.decrypt cipher iv data).1 := by
  have hmod : (data.take data.wholeSize).length % 16 = 0 := by
    rw [data.length_take_wholeSize]
    exact Nat.mul_mod_right _ _
  have hnil : Chaining.plaintext cipher ((Block.split (data.take data.wholeSize)).getLastD iv)
      (data.drop data.wholeSize) = [] := by
    apply List.eq_nil_of_length_eq_zero
    rw [Chaining.length_plaintext, data.length_drop_wholeSize]
    omega
  have hplain : Chaining.plaintext cipher iv (data.take data.wholeSize) =
      Chaining.plaintext cipher iv data := by
    conv_rhs => rw [← List.take_append_drop data.wholeSize data]
    rw [Chaining.plaintext_append cipher iv _ hmod, hnil, List.append_nil]
  rw [Pattern.pick_whole, hplain, Chaining.decrypt_fst]
  exact Pattern.replaces_whole (Chaining.length_plaintext cipher iv data)

variable {r : Request}

theorem decryptCounter_of_none (h : r.pattern = .none) :
    decryptCounter cipher iv r = CounterMode.apply cipher iv r.blockOffset r.data := by
  rw [decryptCounter, h]
  rfl

theorem decryptCounter_replaces (h : r.pattern.size ≠ 0) :
    Replaces (r.pattern.marks r.data.length)
      (CounterMode.apply cipher iv r.blockOffset (pick (r.pattern.marks r.data.length) r.data))
      r.data (decryptCounter cipher iv r) :=
  Pattern.process_replaces (streams_counter cipher iv) h r.blockOffset r.data

theorem length_decryptCounter : (decryptCounter cipher iv r).length = r.data.length := by
  by_cases h : r.pattern.size = 0
  · rw [decryptCounter, Pattern.process, dif_pos h]
    exact CounterMode.length_apply cipher iv _ _
  · exact (decryptCounter_replaces cipher iv h).length_eq

/-- The chained plaintext, with a pattern or without. -/
theorem decryptChain_replaces :
    Replaces (r.pattern.marks r.data.length)
      (Chaining.plaintext cipher iv (pick (r.pattern.marks r.data.length) r.data))
      r.data (decryptChain cipher iv r) := by
  by_cases h : r.pattern.size = 0
  · have hnone := Pattern.eq_none_of_size h
    rw [decryptChain, Pattern.process, dif_pos h, hnone]
    exact chain_replaces cipher iv r.data
  · have hmod : (pick (r.pattern.marks r.data.length) r.data).length % 16 = 0 := by
      rw [Pattern.length_pick_marks r.data h]
      exact Nat.mul_mod_right _ _
    rw [← Chaining.decrypt_of_whole cipher iv hmod]
    exact Pattern.process_replaces (streams_chain cipher) h iv r.data

end

theorem overwrite_eq {plain dest : Bytes} (h : plain.length ≤ dest.length) :
    overwrite plain dest = plain ++ dest.drop plain.length := by
  rw [overwrite, List.take_of_length_le]
  rw [List.length_append, List.length_drop]
  omega

theorem overwrite_of_length_eq {plain dest : Bytes} (h : plain.length = dest.length) :
    overwrite plain dest = plain := by
  rw [overwrite_eq h.le, h, List.drop_length, List.append_nil]

section
variable {keys : KeyStore} (family : Block → BlockCipher) {r : Request} {key iv : Block}
  {destSize : ℕ} (hkey : keys.find? r.keyId = some key) (hiv : r.iv = iv.toBytes)
  (hdest : r.data.length ≤ destSize)
include hkey hiv hdest

theorem plaintext_counter (hmode : r.mode = .counter)
    (hoffset : r.blockOffset = 0 ∨ r.pattern = .none) :
    keys.plaintext family r destSize = .ok (decryptCounter (family key) iv r) := by
  have hallowed : ¬(r.blockOffset ≠ 0 ∧ (!r.pattern.isNone) = true) := by
    rintro ⟨hne, hpat⟩
    rcases hoffset with h | h
    · exact hne h
    · rw [h] at hpat
      cases hpat
  simp only [plaintext, hkey, hiv, Block.ofBytes?_toBytes, hmode, if_neg (not_lt.mpr hdest),
    if_neg hallowed]

theorem plaintext_chain (hmode : r.mode = .chaining) (hoffset : r.blockOffset = 0) :
    keys.plaintext family r destSize = .ok (decryptChain (family key) iv r) := by
  simp only [plaintext, hkey, hiv, Block.ofBytes?_toBytes, hmode, if_neg (not_lt.mpr hdest),
    if_neg (not_not.mpr hoffset)]

/-- A run that starts inside a block is refused if it has a pattern. -/
theorem plaintext_offsetWithPattern (hmode : r.mode = .counter) (hoffset : r.blockOffset ≠ 0)
    (hpattern : r.pattern.size ≠ 0) :
    keys.plaintext family r destSize = .error .offsetWithPattern := by
  have hrefused : r.blockOffset ≠ 0 ∧ (!r.pattern.isNone) = true :=
    ⟨hoffset, by rw [r.pattern.isNone_eq_false_of_size hpattern]; rfl⟩
  simp only [plaintext, hkey, hiv, Block.ofBytes?_toBytes, hmode, if_neg (not_lt.mpr hdest),
    if_pos hrefused]

end

theorem length_plaintext {keys : KeyStore} {family : Block → BlockCipher} {r : Request}
    {destSize : ℕ} {plain : Bytes} (h : keys.plaintext family r destSize = .ok plain) :
    plain.length = r.data.length := by
  unfold plaintext at h
  split at h
  · cases h
  · split at h
    · cases h
    · split at h
      · cases h
      · split at h
        · split at h
          · cases h
          · cases h
            exact length_decryptCounter _ _
        · split at h
          · cases h
          · cases h
            exact (decryptChain_replaces _ _).length_eq

end ProtectedMedia.KeyStore
