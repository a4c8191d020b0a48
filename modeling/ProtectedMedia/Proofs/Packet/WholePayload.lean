import ProtectedMedia.Proofs.Packet.Account

/-!
# A payload as a whole and as a single run

Without subsamples the payload is decrypted by one call, and so it is with a single subsample that
protects all of it. The request is the same. Only the second way looks where a run ends: after a
success it asks for the running vector behind the run, which the scheme that chains over runs cannot
give inside a block.
-/
namespace ProtectedMedia

variable {σ : Type} {m : DecryptionModule σ} {s t : σ} {info : EncryptionInfo} {scheme : Scheme}
  {n : UInt32}

namespace EncryptionInfo
open Subsample

variable {iv : RunningIv} {payload dest run : Bytes}

/-- Behind the last run the running vector is of no use, but it has to exist. -/
theorem map_verdict (hrun : run ≠ []) (status : Status) :
    (info.verdict scheme iv run status).map (fun _ => ()) =
      if scheme = .cbc1 ∧ run.length % 16 ≠ 0 ∧ status = .success then
        .error (.layout .partialBlock)
      else status.toResult info.keyId := by
  unfold verdict
  split_ifs with hstuck
  · obtain ⟨rfl, hpartial, rfl⟩ := hstuck
    rw [RunningIv.advance_partialBlock iv info.pattern hpartial]
    rfl
  · cases status with
    | success =>
        obtain ⟨iv', hadvance⟩ := iv.exists_advance info.pattern hrun fun hcbc1 => by
          by_contra hpartial
          exact hstuck ⟨hcbc1, hpartial, rfl⟩
        rw [hadvance]
        rfl
    | notSupported => rfl
    | keyNotFound => rfl
    | unknown => rfl

theorem decryptRuns_single (hn : n.toNat = payload.length) (hne : payload ≠ [])
    (hd : dest.length = payload.length) :
    decryptRuns m info scheme [⟨0, n⟩] iv s payload dest =
      let reply := m.decrypt s (info.request scheme iv payload) dest
      ⟨(info.verdict scheme iv payload reply.status).map fun _ => (), reply.dest,
        reply.state⟩ := by
  have hs : size ⟨0, n⟩ = payload.length := by rw [size, hn, UInt32.toNat_zero, Nat.zero_add]
  have hpart : protectedPart ⟨0, n⟩ payload = payload := List.take_of_length_le hn.ge
  have hdest : protectedPart ⟨0, n⟩ dest = dest := List.take_of_length_le (hd.trans hn.symm).le
  have h0 : n ≠ 0 := mt (protectedPart_eq_nil_iff hs.le).mpr (hpart.symm ▸ hne)
  have hrest : payload.drop (size ⟨0, n⟩) = [] := List.drop_of_length_le hs.ge
  have hbehind : dest.drop (size ⟨0, n⟩) = [] := List.drop_of_length_le (hd.trans hs.symm).le
  cases hv : info.verdict scheme iv (protectedPart ⟨0, n⟩ payload)
      (m.decrypt s (info.request scheme iv (protectedPart ⟨0, n⟩ payload))
        (protectedPart ⟨0, n⟩ dest)).status with
  | error e =>
      rw [decryptRuns_cons_stopped hs.le h0 rfl hv]
      rw [hpart, hdest] at hv ⊢
      rw [hbehind, List.append_nil]
      simp only [hv]
      rfl
  | ok iv' =>
      rw [decryptRuns_cons_passed hs.le h0 rfl hv]
      rw [hpart, hdest] at hv ⊢
      rw [hrest, hbehind]
      simp only [hv]
      exact congrArg (Decryption.mk _ · _) (List.append_nil _)

end EncryptionInfo

namespace Packet
open EncryptionInfo RunningIv

/-- Without subsamples there is one call. -/
theorem InOrder.exchanges_whole {p : Packet}
    (h : p.InOrder { info with subsamples := [] } scheme) (m : DecryptionModule σ) (s : σ)
    (dest : Bytes) :
    p.exchanges m s dest =
      [⟨info.request scheme ⟨widened info.iv, 0⟩ p.data, dest.length,
        (m.decrypt s (info.request scheme ⟨widened info.iv, 0⟩ p.data) dest).status⟩] := by
  rw [exchanges, h.decryptInto_whole rfl]
  rfl

/-- With a single run there is the same call, and after it a look at the end of the run. -/
theorem InOrder.decryptInto_single {p : Packet}
    (h : p.InOrder { info with subsamples := [⟨0, n⟩] } scheme) (hn : n.toNat = p.data.length)
    (hne : p.data ≠ []) (m : DecryptionModule σ) (s : σ) {dest : Bytes}
    (hd : dest.length = p.data.length) :
    p.decryptInto m s dest =
      let reply := m.decrypt s (info.request scheme ⟨widened info.iv, 0⟩ p.data) dest
      ⟨if scheme = .cbc1 ∧ p.data.length % 16 ≠ 0 ∧ reply.status = .success then
          .error (.layout .partialBlock)
        else reply.status.toResult info.keyId, reply.dest, reply.state⟩ := by
  rw [h.decryptInto_eq (List.cons_ne_nil _ _), decryptRuns_single hn hne hd]
  dsimp only
  rw [map_verdict hne]
  rfl

section
variable {whole single : Packet} (hdata : single.data = whole.data)
  (hn : n.toNat = whole.data.length) (hne : whole.data ≠ [])
  (hwhole : whole.encryptionInfo = .ok (some { info with subsamples := [] }))
  (hsingle : single.encryptionInfo = .ok (some { info with subsamples := [⟨0, n⟩] }))
include hdata hn hne hwhole hsingle

/-- From one state the two ways differ in the result of a chain that ends inside a block, and in
nothing else. -/
theorem decryptInto_single_eq (m : DecryptionModule σ) (s : σ) {dest : Bytes}
    (hd : dest.length = whole.data.length) :
    single.decryptInto m s dest =
      { whole.decryptInto m s dest with
        result :=
          if info.scheme = Scheme.cbc1.code ∧ whole.data.length % 16 ≠ 0 ∧
              ∃ x ∈ whole.exchanges m s dest, x.status = .success then
            .error (.layout .partialBlock)
          else (whole.decryptInto m s dest).result } := by
  rcases info.resolved_or_refused with ⟨scheme, hscheme, hiv⟩ | ⟨e, he⟩
  · have horder : whole.InOrder { info with subsamples := [] } scheme := ⟨hwhole, hscheme, hiv⟩
    have horder' : single.InOrder { info with subsamples := [⟨0, n⟩] } scheme :=
      ⟨hsingle, hscheme, hiv⟩
    rw [← hdata] at hn hne hd
    rw [horder.exchanges_whole m s dest, horder.decryptInto_whole rfl,
      horder'.decryptInto_single hn hne m s hd, hdata]
    simp only [List.mem_singleton, exists_eq_left, Scheme.eq_iff_of_resolve hscheme]
    rfl
  · have hcalls : whole.exchanges m s dest = [] := by
      rw [exchanges, decryptInto_of_info hwhole, he]
    rw [decryptInto_of_info hsingle, decryptInto_of_info hwhole, he, he, hcalls]
    simp only [List.not_mem_nil, false_and, exists_false, and_false, if_false]

/-- A payload decrypted as a whole and as a single run, from one state or with a module that has
none: the calls are the same, at most one, and so is the result, unless a chain that goes on from
run to run ends inside a block and the module does not mind. -/
theorem whole_payload_as_single_run (hstate : s = t ∨ m.Stateless) :
    let fresh : Bytes := List.replicate whole.data.length 0
    single.exchanges m t fresh = whole.exchanges m s fresh ∧
    (∀ scheme, whole.InOrder { info with subsamples := [] } scheme → ∃ answer,
      whole.exchanges m s fresh =
        [⟨info.request scheme ⟨widened info.iv, 0⟩ whole.data, whole.data.length, answer⟩]) ∧
    ((∀ scheme, ¬whole.InOrder { info with subsamples := [] } scheme) →
      whole.exchanges m s fresh = []) ∧
    (single.decryptToBytes m t).1 =
      if info.scheme = Scheme.cbc1.code ∧ whole.data.length % 16 ≠ 0 ∧
          ∃ x ∈ whole.exchanges m s fresh, x.status = .success then
        .error (.layout .partialBlock)
      else (whole.decryptToBytes m s).1 := by
  intro fresh
  have hfresh : fresh.length = whole.data.length := List.length_replicate
  have heq {τ : Type} (m : DecryptionModule τ) (t : τ) :=
    decryptInto_single_eq hdata hn hne hwhole hsingle m t hfresh
  obtain ⟨hresult, hdest, hcalls⟩ := whole.decryptInto_of_stateless hstate fresh
  refine ⟨?_, fun scheme h => ?_, fun hrefused => ?_, ?_⟩
  · rw [hcalls, exchanges, heq m.recorded]
    rfl
  · rw [h.exchanges_whole, hfresh]
    exact ⟨_, rfl⟩
  · rcases info.resolved_or_refused with ⟨scheme, hscheme, hiv⟩ | ⟨e, he⟩
    · exact absurd ⟨hwhole, hscheme, hiv⟩ (hrefused scheme)
    · rw [exchanges, decryptInto_of_info hwhole, he]
  · rw [decryptToBytes, decryptToBytes, hdata, hcalls]
    change ((single.decryptInto m t fresh).result.map fun _ => (single.decryptInto m t fresh).dest) =
      ite _ _ ((whole.decryptInto m s fresh).result.map fun _ => (whole.decryptInto m s fresh).dest)
    rw [heq m t, hresult, hdest]
    split_ifs
    · rfl
    · rfl

end

/-- A chain of a block and a byte, once with a module that was called before. -/
theorem whole_payload_ends_inside_block :
    ((encrypted (List.replicate 17 0)
        (infoOfZeros .cbc1 .none (List.replicate 16 9) [])).decryptToBytes
      (.scripted [.success]) []).1 = .ok (List.replicate 17 255) ∧
    ((ofZeros .cbc1 .none (List.replicate 16 9) [⟨0, 17⟩]).decryptToBytes
      (.scripted [.success]) [⟨⟨.counter, .none, 0, [], [], []⟩, 0⟩]).1 =
      .error (.layout .partialBlock) := by
  have hwhole : (encrypted (List.replicate 17 0)
      (infoOfZeros .cbc1 .none (List.replicate 16 9) [])).encryptionInfo =
    .ok (some { infoOfZeros .cbc1 .none (List.replicate 16 9) [] with subsamples := [] }) := rfl
  have hsingle : (ofZeros .cbc1 .none (List.replicate 16 9) [⟨0, 17⟩]).encryptionInfo =
    .ok (some { infoOfZeros .cbc1 .none (List.replicate 16 9) [] with
      subsamples := [⟨0, 17⟩] }) := rfl
  have hdata : (ofZeros .cbc1 .none (List.replicate 16 9) [⟨0, 17⟩]).data =
      (encrypted (List.replicate 17 0) (infoOfZeros .cbc1 .none (List.replicate 16 9) [])).data := rfl
  have hsize : (17 : UInt32).toNat =
      (encrypted (List.replicate 17 0)
        (infoOfZeros .cbc1 .none (List.replicate 16 9) [])).data.length := rfl
  have hstateless := DecryptionModule.stateless_scripted .success
  obtain ⟨-, -, -, hrun⟩ := whole_payload_as_single_run (s := [])
    (t := [⟨⟨.counter, .none, 0, [], [], []⟩, 0⟩]) hdata hsize (by decide) hwhole hsingle
    (.inr hstateless)
  exact ⟨rfl, hrun.trans (if_pos (by decide))⟩

end Packet

end ProtectedMedia
