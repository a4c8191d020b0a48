import ProtectedMedia.Cipher.Aes
import ProtectedMedia.Proofs.Packet.Ready

/-!
# Chained packets

Without a pattern the protected runs of a packet are one chained message: the running vector is
always the last ciphertext block before the next run. With the scheme that allows patterns each run
is a message of its own, which consists of its encrypted blocks and starts at the vector of the
packet.
-/
namespace ProtectedMedia.Packet
open EncryptionInfo Subsample RunningIv Bytes

variable {keys : KeyStore} (family : Block → BlockCipher) {p : Packet} {info : EncryptionInfo}
  {key : Block} (log : List Refusal)

namespace Ready

/-- The store deciphers a run of whole blocks and the chain goes on from its last block. -/
theorem serves_cbc1 (h : p.Ready keys .cbc1 info key) (iv : Block) {run : Bytes} (hrun : run ≠ [])
    (hwhole : run.length % 16 = 0) :
    Serves (keys.toModule family) info .cbc1 log ⟨iv, 0⟩ run
      (Chaining.plaintext (family key) iv run) log ⟨(Block.split run).getLastD iv, 0⟩ := by
  have hnone : info.pattern = .none := h.pattern_allowed.resolve_left nofun
  have hserves := h.serves_chain family log rfl rfl (advance_cbc1 ⟨iv, 0⟩ info.pattern hrun hwhole)
  have hplain : KeyStore.decryptChain (family key) iv (info.request .cbc1 ⟨iv, 0⟩ run) =
      Chaining.plaintext (family key) iv run := by
    rw [← Chaining.decrypt_of_whole (family key) iv hwhole, KeyStore.decryptChain]
    change (info.pattern.process _ _ _).1 = _
    rw [hnone]
    rfl
  rw [hplain] at hserves
  exact hserves

/-- Run by run the store deciphers the message from where the run before ended. -/
theorem exists_servesAll_cbc1 (h : p.Ready keys .cbc1 info key) {runs : List Bytes}
    (hwhole : ∀ run ∈ runs, run.length % 16 = 0) (iv : Block) :
    ∃ plains v', ServesAll (keys.toModule family) info .cbc1 log ⟨iv, 0⟩ runs plains log v' ∧
      plains.flatten = Chaining.plaintext (family key) iv runs.flatten := by
  induction runs generalizing iv with
  | nil => exact ⟨[], _, .done _ _, (Chaining.plaintext_nil (family key) iv).symm⟩
  | cons run runs ih =>
      obtain ⟨hhead, hrest⟩ := List.forall_mem_cons.mp hwhole
      by_cases hrun : run = []
      · subst hrun
        obtain ⟨plains, v', hserves, hflat⟩ := ih hrest iv
        exact ⟨[] :: plains, v', .empty hserves, hflat⟩
      · obtain ⟨plains, v', hserves, hflat⟩ := ih hrest ((Block.split run).getLastD iv)
        refine ⟨_, v', .run hrun (h.serves_cbc1 family log iv hrun hhead) hserves, ?_⟩
        rw [List.flatten_cons, List.flatten_cons, hflat,
          Chaining.plaintext_append (family key) iv runs.flatten hhead]

/-- The store deciphers the encrypted blocks of a run as a message of their own; the vector stays. -/
theorem serves_cbcs (h : p.Ready keys .cbcs info key) (iv : Block) (run : Bytes) :
    ∃ plain, Serves (keys.toModule family) info .cbcs log ⟨iv, 0⟩ run plain log ⟨iv, 0⟩ ∧
      Replaces (info.pattern.marks run.length)
        (Chaining.plaintext (family key) iv (pick (info.pattern.marks run.length) run))
        run plain :=
  ⟨_, h.serves_chain family log rfl rfl rfl,
    KeyStore.decryptChain_replaces (family key) iv (r := info.request .cbcs ⟨iv, 0⟩ run)⟩

theorem exists_servesAll_cbcs (h : p.Ready keys .cbcs info key) (iv : Block) (runs : List Bytes) :
    ∃ plains, ServesAll (keys.toModule family) info .cbcs log ⟨iv, 0⟩ runs plains log ⟨iv, 0⟩ ∧
      List.Forall₂ (fun run plain => Replaces (info.pattern.marks run.length)
        (Chaining.plaintext (family key) iv (pick (info.pattern.marks run.length) run))
        run plain) runs plains := by
  induction runs with
  | nil => exact ⟨[], .done _ _, .nil⟩
  | cons run runs ih =>
      obtain ⟨plains, hserves, hplains⟩ := ih
      obtain ⟨plain, hfirst, hreplaces⟩ := h.serves_cbcs family log iv run
      by_cases hrun : run = []
      · subst hrun
        obtain rfl : plain = [] := List.eq_nil_of_length_eq_zero hreplaces.length_eq
        exact ⟨[] :: plains, .empty hserves, .cons hreplaces hplains⟩
      · exact ⟨plain :: plains, .run hrun hfirst hserves, .cons hreplaces hplains⟩

end Ready

/-- All protected runs of the packet together are one chained message that starts at the widened
vector. -/
theorem cbc1_one_message (h : p.Ready keys .cbc1 info key)
    (hwhole : ∀ run ∈ protectedRuns info.subsamples p.data, run.length % 16 = 0) :
    ∃ out, p.DecryptsTo (keys.toModule family) log out ∧
      clearRuns info.subsamples out = clearRuns info.subsamples p.data ∧
      (protectedRuns info.subsamples out).flatten =
        Chaining.plaintext (family key) (widened info.iv)
          (protectedRuns info.subsamples p.data).flatten := by
  obtain ⟨plains, v', hserves, hflat⟩ := h.exists_servesAll_cbc1 family log hwhole (widened info.iv)
  obtain ⟨out, hout, hclear, hprotected⟩ := h.exists_decryptsTo hserves
  exact ⟨out, hout, hclear, by rw [hprotected, hflat]⟩

/-- Two runs with clear bytes and an empty run between them. -/
theorem cbc1_one_message_two_runs :
    ∃ out, (ofZeros .cbc1 .none (List.replicate 8 7) [⟨1, 32⟩, ⟨2, 0⟩, ⟨0, 16⟩]).DecryptsTo
        (keyOfZeros.toModule Aes.cipher) [] out ∧
      clearRuns [⟨1, 32⟩, ⟨2, 0⟩, ⟨0, 16⟩] out = [[0], [0, 0], []] ∧
      (protectedRuns [⟨1, 32⟩, ⟨2, 0⟩, ⟨0, 16⟩] out).flatten =
        Chaining.plaintext (Aes.cipher Block.zero) (widened (List.replicate 8 7))
          (List.replicate 48 0) := by
  have hready := ready_ofZeros .cbc1 .none (List.replicate 8 7) [⟨1, 32⟩, ⟨2, 0⟩, ⟨0, 16⟩] rfl
    (.inr rfl) (.inl rfl)
  exact cbc1_one_message Aes.cipher [] hready (by decide)

/-- The encrypted blocks of each protected run are a chained message that starts at the widened
vector, whatever the pattern and wherever the run ends; every other byte stays. -/
theorem cbcs_message_per_run (h : p.Ready keys .cbcs info key) :
    ∃ out, p.DecryptsTo (keys.toModule family) log out ∧
      clearRuns info.subsamples out = clearRuns info.subsamples p.data ∧
      List.Forall₂ (fun run plain => Replaces (info.pattern.marks run.length)
        (Chaining.plaintext (family key) (widened info.iv)
          (pick (info.pattern.marks run.length) run)) run plain)
        (protectedRuns info.subsamples p.data) (protectedRuns info.subsamples out) := by
  obtain ⟨plains, hserves, hplains⟩ := h.exists_servesAll_cbcs family log (widened info.iv)
    (protectedRuns info.subsamples p.data)
  obtain ⟨out, hout, hclear, hprotected⟩ := h.exists_decryptsTo hserves
  refine ⟨out, hout, hclear, ?_⟩
  rw [hprotected]
  exact hplains

/-- Two runs that both end inside a block. -/
theorem cbcs_message_per_run_unaligned :
    ∃ out, (ofZeros .cbcs ⟨1, 1⟩ (List.replicate 16 7) [⟨1, 20⟩, ⟨0, 40⟩]).DecryptsTo
        (keyOfZeros.toModule Aes.cipher) [] out ∧
      clearRuns [⟨1, 20⟩, ⟨0, 40⟩] out = [[0], []] ∧
      List.Forall₂ (fun run plain => Replaces (Pattern.marks ⟨1, 1⟩ run.length)
        (Chaining.plaintext (Aes.cipher Block.zero) (widened (List.replicate 16 7))
          (pick (Pattern.marks ⟨1, 1⟩ run.length) run)) run plain)
        [List.replicate 20 0, List.replicate 40 0] (protectedRuns [⟨1, 20⟩, ⟨0, 40⟩] out) := by
  have hready := ready_ofZeros .cbcs ⟨1, 1⟩ (List.replicate 16 7) [⟨1, 20⟩, ⟨0, 40⟩] rfl
    (.inl rfl) (.inr rfl)
  exact cbcs_message_per_run Aes.cipher [] hready

end ProtectedMedia.Packet
