import ProtectedMedia.Cipher.Aes
import ProtectedMedia.Proofs.Packet.Ready
import ProtectedMedia.Proofs.Packet.RunStream
import ProtectedMedia.Proofs.Packet.SideData

/-!
# Packets in counter mode

Without a pattern the protected runs of a packet are one stretch of a keystream, however they are
cut and whatever lies between them: the running vector and the offset together always say at which
byte of the stream the next run starts.

With a pattern the vector counts blocks, so a run has to start at one. It counts those that the
pattern lays out in whole encrypted parts, and these are the decrypted ones unless the run ends
inside such a part. Nothing is said about the keystream behind a run that does.
-/
namespace ProtectedMedia.Packet
open EncryptionInfo Subsample RunningIv Bytes

variable {keys : KeyStore} (family : Block → BlockCipher) {p : Packet} {info : EncryptionInfo}
  {key : Block} (log : List Refusal)

namespace Ready

/-- Run by run the store reads the keystream from where the run before ended. -/
theorem exists_servesAll_cenc (h : p.Ready keys .cenc info key) {runs : List Bytes} {n : ℕ}
    {iv : Block} (hlt : ∀ run ∈ runs, run.length < 2 ^ 32)
    (hwrap : iv.toNat % 2 ^ 64 + (n + runs.flatten.length + 15) / 16 ≤ 2 ^ 64) :
    ∃ plains v', ServesAll (keys.toModule family) info .cenc log (atByte iv n) runs plains log v' ∧
      plains.flatten = CounterMode.apply (family key) iv n runs.flatten := by
  have hnone : info.pattern = .none := h.pattern_allowed.resolve_left nofun
  induction runs generalizing n with
  | nil => exact ⟨[], _, .done _ _, rfl⟩
  | cons run runs ih =>
      obtain ⟨hrunLt, hrestLt⟩ := List.forall_mem_cons.mp hlt
      rw [List.flatten_cons, List.length_append] at hwrap
      obtain ⟨plains, v', hserves, hflat⟩ := ih (n := n + run.length) hrestLt (by omega)
      by_cases hrun : run = []
      · subst hrun
        exact ⟨[] :: plains, v', .empty hserves, hflat⟩
      · have hpos := List.length_pos_iff.mpr hrun
        have hstart : (iv.addLow (n / 16)).toNat = iv.toNat + n / 16 :=
          Block.toNat_addLow_of_lt (by omega)
        have hfirst := KeyStore.serves_counter family log h.key_held rfl (.inr hnone)
          (advance_cenc iv n info.pattern hrunLt)
        refine ⟨_, v', .run hrun hfirst hserves, ?_⟩
        have hplain : KeyStore.decryptCounter (family key) (atByte iv n).block
            (info.request .cenc (atByte iv n) run) = CounterMode.apply (family key) iv n run := by
          rw [KeyStore.decryptCounter_of_none _ _ hnone]
          change CounterMode.apply (family key) (iv.addLow (n / 16)) (n % 16) run = _
          rw [CounterMode.apply_of_toNat_eq (family key) hstart, Nat.div_add_mod]
        rw [List.flatten_cons, hplain, hflat, List.flatten_cons, CounterMode.apply_append]

end Ready

/-- One keystream from the widened vector on goes through all protected runs of the packet. With a
short vector its counter cannot wrap. -/
theorem cenc_one_keystream (h : p.Ready keys .cenc info key)
    (hwrap : info.iv.length = 16 → (widened info.iv).toNat % 2 ^ 64 +
      ((protectedRuns info.subsamples p.data).flatten.length + 15) / 16 ≤ 2 ^ 64) :
    ∃ out, p.DecryptsTo (keys.toModule family) log out ∧
      clearRuns info.subsamples out = clearRuns info.subsamples p.data ∧
      (protectedRuns info.subsamples out).flatten =
        CounterMode.apply (family key) (widened info.iv) 0
          (protectedRuns info.subsamples p.data).flatten := by
  have hbound : (widened info.iv).toNat % 2 ^ 64 +
      (0 + (protectedRuns info.subsamples p.data).flatten.length + 15) / 16 ≤ 2 ^ 64 := by
    rcases h.iv_size with hiv | hiv
    · have hzero := toNat_widened_mod hiv
      have hsubs := length_subsamples_lt h.info_eq
      have hflat := length_flatten_protectedRuns info.subsamples p.data
      omega
    · rw [Nat.zero_add]
      exact hwrap hiv
  obtain ⟨plains, v', hserves, hflat⟩ := h.exists_servesAll_cenc family log
    (fun run hrun => length_lt_of_mem_protectedRuns hrun) hbound
  rw [atByte_zero] at hserves
  obtain ⟨out, hout, hclear, hprotected⟩ := h.exists_decryptsTo hserves
  exact ⟨out, hout, hclear, by rw [hprotected, hflat]⟩

/-- Runs of five and eleven bytes share the last block before the counter would wrap. -/
theorem cenc_one_keystream_unaligned :
    ∃ out, (ofZeros .cenc .none (List.replicate 16 255) [⟨1, 5⟩, ⟨0, 0⟩, ⟨2, 11⟩]).DecryptsTo
        (keyOfZeros.toModule Aes.cipher) [] out ∧
      clearRuns [⟨1, 5⟩, ⟨0, 0⟩, ⟨2, 11⟩] out = [[0], [], [0, 0]] ∧
      (protectedRuns [⟨1, 5⟩, ⟨0, 0⟩, ⟨2, 11⟩] out).flatten =
        CounterMode.apply (Aes.cipher Block.zero) (widened (List.replicate 16 255)) 0
          (List.replicate 16 0) := by
  have hready := ready_ofZeros .cenc .none (List.replicate 16 255)
    [⟨1, 5⟩, ⟨0, 0⟩, ⟨2, 11⟩] rfl (.inr rfl) (.inr rfl)
  exact cenc_one_keystream Aes.cipher [] hready fun _ => by decide

/-- From the running vector `v` on the store serves the runs and changes encrypted blocks only. They
go on in the keystream from block `n` on, as long as no run cuts an encrypted part short and the
counter does not wrap. -/
structure GoesOn (keys : KeyStore) (info : EncryptionInfo) (key iv : Block) (v : RunningIv) (n : ℕ)
    (runs plains : List Bytes) : Prop where
  serves : ∃ v', ServesAll (keys.toModule family) info .cens log v runs plains log v'
  keepsClear : info.pattern.KeepsClear runs plains
  stream : Inner (fun run => info.pattern.EndsOutside run.length) runs →
    iv.toNat % 2 ^ 64 + n + (info.pattern.cryptBytes runs).length / 16 ≤ 2 ^ 64 →
      info.pattern.cryptBytes plains =
        CounterMode.apply (family key) iv (16 * n) (info.pattern.cryptBytes runs)

namespace GoesOn

variable {family log} {iv : Block} {v v' : RunningIv} {n count : ℕ} {run plain : Bytes}
  {runs plains : List Bytes}

theorem empty (h : GoesOn family log keys info key iv v n runs plains) :
    GoesOn family log keys info key iv v n ([] :: runs) ([] :: plains) where
  serves := by
    obtain ⟨v', hserves⟩ := h.serves
    exact ⟨v', .empty hserves⟩
  keepsClear := .cons ⟨rfl, fun _ _ => rfl⟩ h.keepsClear
  stream hends hwrap := h.stream hends.2 hwrap

/-- A run that starts at block `n` is followed by runs that start behind its blocks. -/
theorem cons (hsize : info.pattern.size ≠ 0) (hrun : run ≠ [])
    (hfirst : Serves (keys.toModule family) info .cens log ⟨iv.addLow n, 0⟩ run plain log v')
    (hreplaces : Replaces (info.pattern.marks run.length)
      (CounterMode.apply (family key) (iv.addLow n) 0 (pick (info.pattern.marks run.length) run))
      run plain)
    (hcount : runs.flatten ≠ [] → info.pattern.EndsOutside run.length →
      16 * count = (pick (info.pattern.marks run.length) run).length)
    (h : GoesOn family log keys info key iv v' (n + count) runs plains) :
    GoesOn family log keys info key iv ⟨iv.addLow n, 0⟩ n (run :: runs) (plain :: plains) where
  serves := by
    obtain ⟨v', hserves⟩ := h.serves
    exact ⟨v', .run hrun hfirst hserves⟩
  keepsClear := .cons ⟨hreplaces.length_eq, hreplaces.unmarked⟩ h.keepsClear
  stream hends hwrap := by
    have hmod := Pattern.length_pick_mod hsize run
    rw [Pattern.cryptBytes_cons, List.length_append] at hwrap
    rw [Pattern.cryptBytes_cons, Pattern.cryptBytes_cons, CounterMode.apply_append,
      hreplaces.length_eq, hreplaces.marked, CounterMode.apply_addLow _ hmod (by omega)]
    by_cases hlast : runs.flatten = []
    · have hlen := Pattern.length_cryptBytes_eq hsize h.keepsClear.sameLengths
      have hnil := info.pattern.cryptBytes_of_flatten_nil hlast
      rw [hnil, List.length_nil] at hlen
      rw [hnil, List.eq_nil_of_length_eq_zero hlen, CounterMode.apply_nil]
    · have hblocks := hcount hlast (hends.1 hlast)
      rw [h.stream hends.2 (by omega), Nat.mul_add, hblocks]

end GoesOn

namespace Ready

end Ready

end ProtectedMedia.Packet
