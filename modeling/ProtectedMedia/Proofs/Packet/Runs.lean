import Mathlib.Algebra.GroupWithZero.Nat
import Mathlib.Data.List.Forall2
import ProtectedMedia.Packet.Decrypt

/-!
# The runs of a packet

A list of subsamples that covers a payload cuts it into clear and protected runs, and these
determine it. Decryption is a walk over the protected runs: a module that answers one run after
the other with a plaintext makes the walk succeed, and the result is the payload with each
protected run replaced by its plaintext. How a module comes to its answers is no matter here.
-/
namespace ProtectedMedia

namespace Subsample

/-- The clear runs of a payload, one for each subsample. -/
def clearRuns : List Subsample → Bytes → List Bytes
  | [], _ => []
  | sub :: subs, payload =>
    payload.take sub.clearBytes.toNat :: clearRuns subs (payload.drop sub.size)

/-- The protected runs of a payload, one for each subsample. -/
def protectedRuns : List Subsample → Bytes → List Bytes
  | [], _ => []
  | sub :: subs, payload =>
    (payload.drop sub.clearBytes.toNat).take sub.protectedBytes.toNat ::
      protectedRuns subs (payload.drop sub.size)

/-- The payload with other bytes in the place of its protected runs. -/
def rebuild : List Subsample → List Bytes → Bytes → Bytes
  | sub :: subs, plain :: plains, payload =>
    payload.take sub.clearBytes.toNat ++ plain ++ rebuild subs plains (payload.drop sub.size)
  | _, _, _ => []

/-- The runs account for every byte of the payload and for no more. -/
def Covers (subs : List Subsample) (payload : Bytes) : Prop :=
  (subs.map size).sum = payload.length

/-- The bytes that a subsample at the front of a byte string protects. -/
abbrev protectedPart (sub : Subsample) (b : Bytes) : Bytes :=
  (b.drop sub.clearBytes.toNat).take sub.protectedBytes.toNat

variable {sub : Subsample} {subs : List Subsample} {payload plain : Bytes}

theorem clearRuns_cons (sub : Subsample) (subs : List Subsample) (payload : Bytes) :
    clearRuns (sub :: subs) payload =
      payload.take sub.clearBytes.toNat :: clearRuns subs (payload.drop sub.size) := rfl

@[simp] theorem protectedRuns_nil (payload : Bytes) : protectedRuns [] payload = [] := rfl

theorem protectedRuns_cons (sub : Subsample) (subs : List Subsample) (payload : Bytes) :
    protectedRuns (sub :: subs) payload =
      (payload.drop sub.clearBytes.toNat).take sub.protectedBytes.toNat ::
        protectedRuns subs (payload.drop sub.size) := rfl

theorem rebuild_cons (sub : Subsample) (subs : List Subsample) (plain : Bytes)
    (plains : List Bytes) (payload : Bytes) :
    rebuild (sub :: subs) (plain :: plains) payload =
      payload.take sub.clearBytes.toNat ++ plain ++ rebuild subs plains (payload.drop sub.size) := rfl

theorem size_of_empty (h0 : sub.protectedBytes = 0) : sub.size = sub.clearBytes.toNat := by
  rw [size, h0]
  rfl

theorem append_parts (sub : Subsample) (payload : Bytes) :
    payload.take sub.clearBytes.toNat ++ sub.protectedPart payload ++ payload.drop sub.size =
      payload := by
  rw [size, ← List.drop_drop, List.append_assoc, List.take_append_drop, List.take_append_drop]

section
variable (hs : sub.size ≤ payload.length)
include hs

theorem length_clearPart : (payload.take sub.clearBytes.toNat).length = sub.clearBytes.toNat := by
  rw [size] at hs
  rw [List.length_take]
  omega

theorem length_protectedPart :
    (sub.protectedPart payload).length = sub.protectedBytes.toNat := by
  rw [size] at hs
  rw [List.length_take, List.length_drop]
  omega

/-- A run is empty just when its subsample has no protected bytes. -/
theorem protectedPart_eq_nil_iff : sub.protectedPart payload = [] ↔ sub.protectedBytes = 0 := by
  rw [← List.length_eq_zero_iff, length_protectedPart hs, ← UInt32.toNat_inj]
  rfl

/-- A run with a plaintext in its place takes up as much as the subsample. -/
theorem length_front (hplain : plain.length = sub.protectedBytes.toNat) :
    (payload.take sub.clearBytes.toNat ++ plain).length = sub.size := by
  rw [List.length_append, length_clearPart hs, hplain, size]

end

theorem Covers.size_le (h : Covers (sub :: subs) payload) : sub.size ≤ payload.length := by
  rw [Covers, List.map_cons, List.sum_cons] at h
  omega

theorem Covers.tail (h : Covers (sub :: subs) payload) :
    Covers subs (payload.drop sub.size) := by
  rw [Covers, List.map_cons, List.sum_cons] at h
  rw [Covers, List.length_drop]
  omega

theorem Covers.eq_nil (h : Covers [] payload) : payload = [] :=
  List.eq_nil_of_length_eq_zero h.symm

theorem length_lt_of_mem_protectedRuns {run : Bytes} (h : run ∈ protectedRuns subs payload) :
    run.length < 2 ^ 32 := by
  induction subs generalizing payload with
  | nil => simp at h
  | cons sub subs ih =>
      rcases List.mem_cons.mp h with rfl | h
      · have hlt := sub.protectedBytes.toNat_lt
        have hle := List.length_take_le sub.protectedBytes.toNat
          (payload.drop sub.clearBytes.toNat)
        omega
      · exact ih h

theorem length_flatten_protectedRuns (subs : List Subsample) (payload : Bytes) :
    (protectedRuns subs payload).flatten.length ≤ subs.length * 2 ^ 32 := by
  induction subs generalizing payload with
  | nil => exact Nat.zero_le _
  | cons sub subs ih =>
      have hrest := ih (payload.drop sub.size)
      have hlt := sub.protectedBytes.toNat_lt
      have hle := List.length_take_le sub.protectedBytes.toNat (payload.drop sub.clearBytes.toNat)
      rw [protectedRuns_cons, List.flatten_cons, List.length_append, List.length_cons, Nat.succ_mul]
      omega

/-- Every run that a nonempty one comes after has the property `P`. -/
def Inner (P : Bytes → Prop) : List Bytes → Prop
  | [] => True
  | run :: runs => (runs.flatten ≠ [] → P run) ∧ Inner P runs

instance (P : Bytes → Prop) [DecidablePred P] : (runs : List Bytes) → Decidable (Inner P runs)
  | [] => .isTrue trivial
  | run :: runs =>
    have := instDecidableInnerOfDecidablePredBytes P runs
    inferInstanceAs (Decidable ((runs.flatten ≠ [] → P run) ∧ Inner P runs))

/-- The plaintexts are as long as the runs they stand for. -/
abbrev SameLengths (runs plains : List Bytes) : Prop :=
  List.Forall₂ (fun run plain => plain.length = run.length) runs plains

variable {plains : List Bytes}

theorem length_rebuild (hc : Covers subs payload)
    (h : SameLengths (protectedRuns subs payload) plains) :
    (rebuild subs plains payload).length = payload.length := by
  induction subs generalizing payload plains with
  | nil => rw [hc.eq_nil]; rfl
  | cons sub subs ih =>
      cases h with
      | cons hp hps =>
          have hs := hc.size_le
          rw [rebuild_cons, List.length_append,
            length_front hs (hp.trans (length_protectedPart hs)), ih hc.tail hps, List.length_drop]
          omega

theorem clearRuns_rebuild (hc : Covers subs payload)
    (h : SameLengths (protectedRuns subs payload) plains) :
    clearRuns subs (rebuild subs plains payload) = clearRuns subs payload := by
  induction subs generalizing payload plains with
  | nil => rfl
  | cons sub subs ih =>
      cases h with
      | @cons _ plain _ plains hp hps =>
          have hs := hc.size_le
          have hl := length_front hs (hp.trans (length_protectedPart hs))
          rw [rebuild_cons, clearRuns_cons, List.drop_left' hl, ih hc.tail hps, List.append_assoc,
            List.take_left' (length_clearPart hs), clearRuns_cons]

theorem protectedRuns_rebuild (hc : Covers subs payload)
    (h : SameLengths (protectedRuns subs payload) plains) :
    protectedRuns subs (rebuild subs plains payload) = plains := by
  induction subs generalizing payload plains with
  | nil => cases h; rfl
  | cons sub subs ih =>
      cases h with
      | @cons _ plain _ plains hp hps =>
          have hs := hc.size_le
          have hp' : plain.length = sub.protectedBytes.toNat := hp.trans (length_protectedPart hs)
          rw [rebuild_cons, protectedRuns_cons, List.drop_left' (length_front hs hp'),
            ih hc.tail hps, List.append_assoc, List.drop_left' (length_clearPart hs),
            List.take_left' hp']

theorem rebuild_protectedRuns (hc : Covers subs payload) :
    rebuild subs (protectedRuns subs payload) payload = payload := by
  induction subs generalizing payload with
  | nil => rw [hc.eq_nil]; rfl
  | cons sub subs ih =>
      rw [protectedRuns_cons, rebuild_cons, ih hc.tail]
      exact sub.append_parts payload

end Subsample

namespace EncryptionInfo
open Subsample

variable {σ : Type}

/-- The module answers the request for a run with a plaintext, whatever the destination holds, and
the running vector gets over the run. -/
structure Serves (m : DecryptionModule σ) (info : EncryptionInfo) (scheme : Scheme) (s : σ)
    (iv : RunningIv) (run plain : Bytes) (s' : σ) (iv' : RunningIv) : Prop where
  reply : ∀ dest : Bytes, dest.length = run.length →
    m.decrypt s (info.request scheme iv run) dest = ⟨.success, plain, s'⟩
  advance : iv.advance scheme info.pattern run = .ok iv'

/-- The module serves one run after the other. It is not asked about an empty one. -/
inductive ServesAll (m : DecryptionModule σ) (info : EncryptionInfo) (scheme : Scheme) :
    σ → RunningIv → List Bytes → List Bytes → σ → RunningIv → Prop
  | done (s : σ) (iv : RunningIv) : ServesAll m info scheme s iv [] [] s iv
  | empty {s s' : σ} {iv iv' : RunningIv} {runs plains : List Bytes}
      (rest : ServesAll m info scheme s iv runs plains s' iv') :
      ServesAll m info scheme s iv ([] :: runs) ([] :: plains) s' iv'
  | run {s s₁ s' : σ} {iv iv₁ iv' : RunningIv} {run plain : Bytes} {runs plains : List Bytes}
      (nonempty : run ≠ []) (first : Serves m info scheme s iv run plain s₁ iv₁)
      (rest : ServesAll m info scheme s₁ iv₁ runs plains s' iv') :
      ServesAll m info scheme s iv (run :: runs) (plain :: plains) s' iv'

variable {m : DecryptionModule σ} {info : EncryptionInfo} {scheme : Scheme}
  {s s₁ s' : σ} {iv iv₁ iv' : RunningIv} {sub : Subsample} {subs : List Subsample}
  {payload dest run plain : Bytes} {runs plains : List Bytes}

theorem Serves.length_eq (h : Serves m info scheme s iv run plain s' iv') :
    plain.length = run.length := by
  have hl := m.length_dest s (info.request scheme iv run) (List.replicate run.length 0)
  rw [h.reply _ List.length_replicate, List.length_replicate] at hl
  exact hl

theorem ServesAll.sameLengths (h : ServesAll m info scheme s iv runs plains s' iv') :
    SameLengths runs plains := by
  induction h with
  | done => exact .nil
  | empty _ ih => exact .cons rfl ih
  | run _ first _ ih => exact .cons first.length_eq ih

/-- The walk is given the subsamples and does not look them up in the parameters. -/
theorem decryptRuns_setSubsamples (m : DecryptionModule σ) {scheme : Scheme}
    (listed subs : List Subsample) (v : RunningIv) (s : σ) (payload dest : Bytes) :
    decryptRuns m { info with subsamples := listed } scheme subs v s payload dest =
      decryptRuns m info scheme subs v s payload dest := by
  induction subs generalizing v s payload dest with
  | nil => rfl
  | cons sub subs ih => simp only [decryptRuns, request, ih]

/-! ### One step of the walk -/

theorem decryptRuns_cons_tooLong (hs : payload.length < sub.size) :
    decryptRuns m info scheme (sub :: subs) iv s payload dest =
      ⟨.error (.layout .subsampleTooLong), dest, s⟩ := by
  have hlong : (!payload.atLeast sub.size) = true := by
    rw [Bytes.atLeast_eq, decide_eq_false (by omega), Bool.not_false]
  exact if_pos hlong

/-- The running vector behind a run that was answered with `status`, if the walk goes on. -/
def verdict (info : EncryptionInfo) (scheme : Scheme) (iv : RunningIv) (run : Bytes)
    (status : Status) : Except Error RunningIv :=
  (status.toResult info.keyId).bind fun _ => iv.advance scheme info.pattern run

theorem verdict_eq_ok_iff {status : Status} :
    info.verdict scheme iv run status = .ok iv' ↔
      status = .success ∧ iv.advance scheme info.pattern run = .ok iv' := by
  cases status <;> simp [verdict, Status.toResult, Except.bind]

section
variable (hs : sub.size ≤ payload.length)
include hs

theorem decryptRuns_cons_empty (h : sub.protectedBytes = 0) :
    decryptRuns m info scheme (sub :: subs) iv s payload dest =
      let after := decryptRuns m info scheme subs iv s (payload.drop sub.size) (dest.drop sub.size)
      { after with dest := payload.take sub.clearBytes.toNat ++ after.dest } := by
  have hfits : ¬(!payload.atLeast sub.size) = true := by simp [Bytes.atLeast_eq, hs]
  rw [size_of_empty h]
  exact (if_neg hfits).trans (if_pos h)

section
variable {reply : Reply σ} (h0 : sub.protectedBytes ≠ 0)
  (hreply : m.decrypt s (info.request scheme iv (sub.protectedPart payload))
    (sub.protectedPart dest) = reply)
include h0 hreply

/-- The verdict on a run decides whether the walk goes on behind it. -/
theorem decryptRuns_cons_asked :
    decryptRuns m info scheme (sub :: subs) iv s payload dest =
      match info.verdict scheme iv (sub.protectedPart payload) reply.status with
      | .error e =>
        ⟨.error e, payload.take sub.clearBytes.toNat ++ reply.dest ++ dest.drop sub.size,
          reply.state⟩
      | .ok iv' =>
        let after := decryptRuns m info scheme subs iv' reply.state (payload.drop sub.size)
          (dest.drop sub.size)
        { after with
          dest := payload.take sub.clearBytes.toNat ++ reply.dest ++ after.dest } := by
  rw [decryptRuns, Bytes.atLeast_eq, decide_eq_true hs, if_neg (by simp), if_neg h0, verdict]
  simp only [hreply, List.drop_drop, Subsample.size]
  cases reply.status.toResult info.keyId with
  | error cause => rfl
  | ok _ => rfl

/-- The walk ends at a run that is refused or that no other run can follow. -/
theorem decryptRuns_cons_stopped {e : Error}
    (h : info.verdict scheme iv (sub.protectedPart payload) reply.status = .error e) :
    decryptRuns m info scheme (sub :: subs) iv s payload dest =
      ⟨.error e, payload.take sub.clearBytes.toNat ++ reply.dest ++ dest.drop sub.size,
        reply.state⟩ := by
  rw [decryptRuns_cons_asked hs h0 hreply, h]

/-- The walk gets over a run that is answered with a success and goes on behind it. -/
theorem decryptRuns_cons_passed
    (h : info.verdict scheme iv (sub.protectedPart payload) reply.status = .ok iv') :
    decryptRuns m info scheme (sub :: subs) iv s payload dest =
      let after := decryptRuns m info scheme subs iv' reply.state (payload.drop sub.size)
        (dest.drop sub.size)
      { after with
        dest := payload.take sub.clearBytes.toNat ++ reply.dest ++ after.dest } := by
  rw [decryptRuns_cons_asked hs h0 hreply, h]

end

/-- The part of the destination for the next run is as long as the run. -/
theorem length_take_dest (hd : payload.length ≤ dest.length) :
    (sub.protectedPart dest).length = (sub.protectedPart payload).length := by
  rw [length_protectedPart hs, length_protectedPart (Nat.le_trans hs hd)]

theorem decryptRuns_cons_served (hd : payload.length ≤ dest.length) (h : sub.protectedBytes ≠ 0)
    (hr : Serves m info scheme s iv
      ((payload.drop sub.clearBytes.toNat).take sub.protectedBytes.toNat) plain s₁ iv₁) :
    decryptRuns m info scheme (sub :: subs) iv s payload dest =
      let after := decryptRuns m info scheme subs iv₁ s₁ (payload.drop sub.size)
        (dest.drop sub.size)
      { after with dest := payload.take sub.clearBytes.toNat ++ plain ++ after.dest } :=
  decryptRuns_cons_passed hs h (hr.reply _ (length_take_dest hs hd))
    (verdict_eq_ok_iff.mpr ⟨rfl, hr.advance⟩)

end

/-- What is left of a destination is large enough for what is left of the payload. -/
theorem length_drop_le (hd : payload.length ≤ dest.length) (n : ℕ) :
    (payload.drop n).length ≤ (dest.drop n).length := by
  rw [List.length_drop, List.length_drop]
  omega

/-! ### Runs that are answered one by one -/

/-- The walk over runs that are all served succeeds and replaces each of them; what the destination
holds behind the payload stays. -/
theorem decryptRuns_of_servesAll (hc : Covers subs payload) (hd : payload.length ≤ dest.length)
    (h : ServesAll m info scheme s iv (protectedRuns subs payload) plains s' iv') :
    decryptRuns m info scheme subs iv s payload dest =
      ⟨.ok (), rebuild subs plains payload ++ dest.drop payload.length, s'⟩ := by
  induction subs generalizing payload dest iv s plains with
  | nil =>
      rw [hc.eq_nil] at h ⊢
      cases h
      rfl
  | cons sub subs ih =>
      have hs := hc.size_le
      have hd' := length_drop_le hd sub.size
      have hrest : (dest.drop sub.size).drop (payload.drop sub.size).length =
          dest.drop payload.length := by
        rw [List.drop_drop, List.length_drop, Nat.add_sub_cancel' hs]
      rw [protectedRuns_cons] at h
      generalize hrun : (payload.drop sub.clearBytes.toNat).take sub.protectedBytes.toNat = run
        at h
      cases h with
      | empty rest =>
          have h0 := (protectedPart_eq_nil_iff hc.size_le).mp hrun
          rw [decryptRuns_cons_empty hs h0, ih hc.tail hd' rest, rebuild_cons, hrest]
          simp only [List.append_nil, List.append_assoc]
      | run nonempty first rest =>
          have h0 : sub.protectedBytes ≠ 0 := fun h0 =>
            nonempty (hrun.symm.trans ((protectedPart_eq_nil_iff hc.size_le).mpr h0))
          rw [← hrun] at first
          rw [decryptRuns_cons_served hs hd h0 first, ih hc.tail hd' rest, rebuild_cons, hrest]
          simp only [List.append_assoc]

end EncryptionInfo

end ProtectedMedia
