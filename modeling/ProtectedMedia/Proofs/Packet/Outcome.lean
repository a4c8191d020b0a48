import ProtectedMedia.Proofs.DecryptionModule.KeyStore
import ProtectedMedia.Proofs.Packet.Runs

/-!
# What a destination is good for

Decryption never changes the size of its destination. If the answers of a module depend neither on
its state nor on what the destination held before, then neither does decryption: it ends in the same
way, and when it succeeds the destination holds the same bytes.
-/
namespace ProtectedMedia

/-- Two decryptions end in the same way, and with the same destination if they succeed. -/
structure Decryption.EndsLike {σ : Type} (d e : Decryption σ) : Prop where
  result : d.result = e.result
  dest : d.result = .ok () → d.dest = e.dest

namespace Decryption.EndsLike

variable {σ : Type} {d e : Decryption σ}

theorem refl (d : Decryption σ) : d.EndsLike d := ⟨rfl, fun _ => rfl⟩

theorem of_error {cause : Error} (hd : d.result = .error cause) (he : e.result = .error cause) :
    d.EndsLike e := by
  constructor
  · rw [hd, he]
  · intro h
    rw [hd] at h
    cases h

/-- What was written in front of the rest does not matter as long as it is the same. -/
theorem prepend (h : d.EndsLike e) (front : Bytes) :
    EndsLike { d with dest := front ++ d.dest } { e with dest := front ++ e.dest } := by
  constructor
  · exact h.result
  · intro hok
    exact congrArg (front ++ ·) (h.dest hok)

end Decryption.EndsLike

namespace DecryptionModule

/-- A request for a run with a destination of its size is answered alike in every state and
whatever the destination holds; what a successful answer writes is determined by the request. -/
def Oblivious {σ : Type} (m : DecryptionModule σ) : Prop :=
  ∀ (s t : σ) (r : Request) (dest dest' : Bytes),
    dest.length = r.data.length → dest'.length = r.data.length →
      (m.decrypt s r dest).status = (m.decrypt t r dest').status ∧
        ((m.decrypt s r dest).status = .success →
          (m.decrypt s r dest).dest = (m.decrypt t r dest').dest)

end DecryptionModule

namespace KeyStore

theorem oblivious_toModule (keys : KeyStore) (family : Block → BlockCipher) :
    (keys.toModule family).Oblivious := by
  intro s t r dest dest' hd hd'
  simp only [toModule]
  rw [hd, hd']
  cases hplain : keys.plaintext family r r.data.length with
  | error refusal =>
      constructor
      · rfl
      · intro h
        cases refusal <;> cases h
  | ok plain =>
      have hlen := length_plaintext hplain
      constructor
      · rfl
      · intro _
        simp only [overwrite_of_length_eq (hlen.trans hd.symm),
          overwrite_of_length_eq (hlen.trans hd'.symm)]

end KeyStore

namespace EncryptionInfo
open Subsample

variable {σ : Type} {m : DecryptionModule σ} {info : EncryptionInfo} {scheme : Scheme}
  {iv : RunningIv} {s t : σ} {sub : Subsample} {subs : List Subsample} {payload dest dest' : Bytes}

/-- What is left of a destination is as large as what is left of the payload. -/
theorem length_drop_eq (h : dest.length = payload.length) (n : ℕ) :
    (dest.drop n).length = (payload.drop n).length := by
  rw [List.length_drop, List.length_drop, h]

theorem length_dest_decryptRuns (hd : payload.length ≤ dest.length) :
    (decryptRuns m info scheme subs iv s payload dest).dest.length = dest.length := by
  induction subs generalizing iv s payload dest with
  | nil => rfl
  | cons sub subs ih =>
      by_cases hs : sub.size ≤ payload.length
      · by_cases h0 : sub.protectedBytes = 0
        · rw [decryptRuns_cons_empty hs h0, List.length_append, length_clearPart hs,
            ih (length_drop_le hd _), List.length_drop, ← size_of_empty h0]
          omega
        · have hplain : (m.decrypt s (info.request scheme iv (sub.protectedPart payload))
              (sub.protectedPart dest)).dest.length = sub.protectedBytes.toNat := by
            rw [m.length_dest, length_protectedPart (hs.trans hd)]
          cases hv : info.verdict scheme iv (sub.protectedPart payload) (m.decrypt s
              (info.request scheme iv (sub.protectedPart payload)) (sub.protectedPart dest)).status with
          | error e =>
              rw [decryptRuns_cons_stopped hs h0 rfl hv, List.length_append, length_front hs hplain,
                List.length_drop]
              omega
          | ok iv' =>
              rw [decryptRuns_cons_passed hs h0 rfl hv, List.length_append, length_front hs hplain,
                ih (length_drop_le hd _), List.length_drop]
              omega
      · rw [decryptRuns_cons_tooLong (by omega)]

theorem length_dest_decrypt (hd : payload.length ≤ dest.length) :
    (info.decrypt m s payload dest).dest.length = dest.length := by
  unfold decrypt
  split
  · rfl
  · split
    · rfl
    · split
      · exact m.length_dest _ _ _
      · exact length_dest_decryptRuns hd

/-- With an oblivious module the walk over the runs is oblivious, too. -/
theorem decryptRuns_endsLike (hm : m.Oblivious) (hd : dest.length = payload.length)
    (hd' : dest'.length = payload.length) :
    (decryptRuns m info scheme subs iv s payload dest).EndsLike
      (decryptRuns m info scheme subs iv t payload dest') := by
  induction subs generalizing iv s t payload dest dest' with
  | nil =>
      constructor
      · rfl
      · intro hok
        have hnil : payload = [] := by
          cases payload with
          | nil => rfl
          | cons x payload => cases hok
        subst hnil
        exact (List.eq_nil_of_length_eq_zero hd).trans (List.eq_nil_of_length_eq_zero hd').symm
  | cons sub subs ih =>
      by_cases hs : sub.size ≤ payload.length
      · by_cases h0 : sub.protectedBytes = 0
        · rw [decryptRuns_cons_empty hs h0, decryptRuns_cons_empty hs h0]
          exact (ih (length_drop_eq hd _) (length_drop_eq hd' _)).prepend _
        · obtain ⟨hstatus, hwritten⟩ := hm s t (info.request scheme iv (sub.protectedPart payload))
            (sub.protectedPart dest) (sub.protectedPart dest') (length_take_dest hs hd.ge)
            (length_take_dest hs hd'.ge)
          cases hv : info.verdict scheme iv (sub.protectedPart payload) (m.decrypt s
              (info.request scheme iv (sub.protectedPart payload)) (sub.protectedPart dest)).status with
          | error e =>
              rw [decryptRuns_cons_stopped hs h0 rfl hv,
                decryptRuns_cons_stopped hs h0 rfl (hstatus ▸ hv)]
              exact .of_error rfl rfl
          | ok iv' =>
              rw [decryptRuns_cons_passed hs h0 rfl hv,
                decryptRuns_cons_passed hs h0 rfl (hstatus ▸ hv),
                ← hwritten (verdict_eq_ok_iff.mp hv).1]
              exact (ih (length_drop_eq hd _) (length_drop_eq hd' _)).prepend _
      · rw [decryptRuns_cons_tooLong (by omega), decryptRuns_cons_tooLong (by omega)]
        exact .of_error rfl rfl

theorem decrypt_endsLike (hm : m.Oblivious) (hd : dest.length = payload.length)
    (hd' : dest'.length = payload.length) :
    (info.decrypt m s payload dest).EndsLike (info.decrypt m t payload dest') := by
  unfold decrypt
  split
  · exact .of_error rfl rfl
  · rename_i scheme _
    split
    · exact .of_error rfl rfl
    · rename_i iv _
      split
      · obtain ⟨hstatus, hwritten⟩ := hm s t (info.request scheme iv payload) dest dest' hd hd'
        constructor
        · exact congrArg (Status.toResult info.keyId) hstatus
        · intro hok
          apply hwritten
          cases hreply : (m.decrypt s (info.request scheme iv payload) dest).status with
          | success => rfl
          | notSupported => simp [hreply, Status.toResult] at hok
          | keyNotFound => simp [hreply, Status.toResult] at hok
          | unknown => simp [hreply, Status.toResult] at hok
      · exact decryptRuns_endsLike hm hd hd'

end EncryptionInfo

namespace Packet

variable {σ : Type} {m : DecryptionModule σ} {p : Packet} {s t : σ} {dest dest' : Bytes}

theorem length_dest_decryptInto (hd : p.data.length ≤ dest.length) :
    (p.decryptInto m s dest).dest.length = dest.length := by
  unfold decryptInto
  split
  · rfl
  · rfl
  · exact EncryptionInfo.length_dest_decrypt hd

theorem decryptInto_endsLike (hm : m.Oblivious) (hd : dest.length = p.data.length)
    (hd' : dest'.length = p.data.length) :
    (p.decryptInto m s dest).EndsLike (p.decryptInto m t dest') := by
  unfold decryptInto
  split
  · exact .of_error rfl rfl
  · exact .of_error rfl rfl
  · exact EncryptionInfo.decrypt_endsLike hm hd hd'

end Packet

end ProtectedMedia
