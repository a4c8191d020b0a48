import ProtectedMedia.Proofs.DecryptionModule.Recorded
import ProtectedMedia.Proofs.Packet.Runs

/-!
# Decryption with corresponding modules

Decryption sees of a module only its answers and what it writes. Two modules that agree on these from
related states decrypt a packet to the same end and are left in related states. So decryption does
not notice a recorder in front of its module, and the record does not depend on a state that has no
influence on the answers.
-/
namespace ProtectedMedia

variable {σ τ : Type}

/-- The same outcome with the state of the module seen through `f`. -/
def Decryption.map (f : σ → τ) (d : Decryption σ) : Decryption τ := ⟨d.result, d.dest, f d.state⟩

/-- Two decryptions end alike and leave related states. -/
structure Decryption.Corresponds (related : σ → τ → Prop) (d : Decryption σ) (e : Decryption τ) :
    Prop where
  result : d.result = e.result
  dest : d.dest = e.dest
  state : related d.state e.state

namespace Decryption.Corresponds

variable {related : σ → τ → Prop} {d : Decryption σ} {e : Decryption τ}

theorem map_eq {f : σ → τ} (h : d.Corresponds (fun s t => f s = t) e) : d.map f = e := by
  obtain ⟨hresult, hdest, hstate⟩ := h
  rw [map, hresult, hdest, hstate]

theorem prepend (h : d.Corresponds related e) (front : Bytes) :
    Corresponds related { d with dest := front ++ d.dest } { e with dest := front ++ e.dest } where
  result := h.result
  dest := congrArg (front ++ ·) h.dest
  state := h.state

end Decryption.Corresponds

variable {m : DecryptionModule σ} {m' : DecryptionModule τ} {related : σ → τ → Prop}
  (h : m.Corresponds m' related) {s : σ} {t : τ} (hst : related s t)
include h hst

namespace EncryptionInfo

variable {info : EncryptionInfo}

theorem decryptRuns_corresponds {scheme : Scheme} {subs : List Subsample} {iv : RunningIv}
    {payload dest : Bytes} :
    (decryptRuns m info scheme subs iv s payload dest).Corresponds related
      (decryptRuns m' info scheme subs iv t payload dest) := by
  induction subs generalizing iv s t payload dest with
  | nil => exact ⟨rfl, rfl, hst⟩
  | cons sub subs ih =>
      by_cases hs : sub.size ≤ payload.length
      · by_cases h0 : sub.protectedBytes = 0
        · rw [decryptRuns_cons_empty hs h0, decryptRuns_cons_empty hs h0]
          exact (ih hst).prepend _
        · have hstatus := h.status hst (info.request scheme iv (sub.protectedPart payload))
            (sub.protectedPart dest)
          have hdest := h.dest hst (info.request scheme iv (sub.protectedPart payload))
            (sub.protectedPart dest)
          have hstate := h.state hst (info.request scheme iv (sub.protectedPart payload))
            (sub.protectedPart dest)
          cases hv : info.verdict scheme iv (sub.protectedPart payload) (m.decrypt s
              (info.request scheme iv (sub.protectedPart payload)) (sub.protectedPart dest)).status with
          | error e =>
              rw [decryptRuns_cons_stopped hs h0 rfl hv,
                decryptRuns_cons_stopped hs h0 rfl (hstatus ▸ hv), hdest]
              exact ⟨rfl, rfl, hstate⟩
          | ok iv' =>
              rw [decryptRuns_cons_passed hs h0 rfl hv,
                decryptRuns_cons_passed hs h0 rfl (hstatus ▸ hv), hdest]
              exact (ih hstate).prepend _
      · rw [decryptRuns_cons_tooLong (by omega), decryptRuns_cons_tooLong (by omega)]
        exact ⟨rfl, rfl, hst⟩

theorem decrypt_corresponds (payload dest : Bytes) :
    (info.decrypt m s payload dest).Corresponds related (info.decrypt m' t payload dest) := by
  unfold decrypt
  split
  · exact ⟨rfl, rfl, hst⟩
  · split
    · exact ⟨rfl, rfl, hst⟩
    · split
      · exact ⟨congrArg (Status.toResult info.keyId) (h.status hst _ _), h.dest hst _ _,
          h.state hst _ _⟩
      · exact decryptRuns_corresponds h hst

end EncryptionInfo

theorem Packet.decryptInto_corresponds (p : Packet) (dest : Bytes) :
    (p.decryptInto m s dest).Corresponds related (p.decryptInto m' t dest) := by
  unfold decryptInto
  split
  · exact ⟨rfl, rfl, hst⟩
  · exact ⟨rfl, rfl, hst⟩
  · exact EncryptionInfo.decrypt_corresponds h hst _ _

end ProtectedMedia
