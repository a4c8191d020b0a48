import Mathlib.Logic.Relation
import ProtectedMedia.Cipher.Aes
import ProtectedMedia.Proofs.DecryptionModule.Answers
import ProtectedMedia.Proofs.Packet.Account

/-!
# Only the places of the runs matter

A list of subsamples says where the protected runs of a payload lie and where it ends. There are many
lists that say the same: a clear run may be cut into several, and a subsample without any bytes may
stand anywhere. Decryption is the same for all of them, except that a packet without any subsamples
at all is one that is protected as a whole.
-/
namespace ProtectedMedia

variable {σ : Type}

/-- Two decryptions end in the same way and leave the same state, and if they succeed also the same
destination. -/
structure Decryption.EndsAlike (d e : Decryption σ) : Prop extends d.EndsLike e where
  state : d.state = e.state

namespace Decryption.EndsAlike

variable {d e f : Decryption σ}

theorem refl (d : Decryption σ) : d.EndsAlike d := ⟨.refl d, rfl⟩

theorem symm (h : d.EndsAlike e) : e.EndsAlike d where
  result := h.result.symm
  dest hok := (h.dest (h.result.trans hok)).symm
  state := h.state.symm

theorem trans (h : d.EndsAlike e) (h' : e.EndsAlike f) : d.EndsAlike f where
  result := h.result.trans h'.result
  dest hok := (h.dest hok).trans (h'.dest (h.result.symm.trans hok))
  state := h.state.trans h'.state

theorem of_error {cause : Error} {out out' : Bytes} {s : σ} :
    EndsAlike ⟨.error cause, out, s⟩ ⟨.error cause, out', s⟩ :=
  ⟨.of_error rfl rfl, rfl⟩

theorem prepend (h : d.EndsAlike e) (front : Bytes) :
    EndsAlike { d with dest := front ++ d.dest } { e with dest := front ++ e.dest } :=
  ⟨h.toEndsLike.prepend front, h.state⟩

end Decryption.EndsAlike

namespace Subsample

/-- One step from a list of subsamples to another one for the same runs. -/
inductive Regroups : List Subsample → List Subsample → Prop
  | cutClear (before after : List Subsample) {clear first second run : UInt32}
      (sum : clear.toNat = first.toNat + second.toNat) :
      Regroups (before ++ ⟨clear, run⟩ :: after)
        (before ++ ⟨first, 0⟩ :: ⟨second, run⟩ :: after)
  | addEmpty (before after : List Subsample) :
      Regroups (before ++ after) (before ++ ⟨0, 0⟩ :: after)

/-- The same runs, by any number of steps forth and back. -/
abbrev Regrouped : List Subsample → List Subsample → Prop := Relation.EqvGen Regroups

/-- What a list of subsamples shows: clear bytes one by one, and protected runs with their sizes. -/
def picture (subs : List Subsample) : List (Option UInt32) :=
  subs.flatMap fun sub => List.replicate sub.clearBytes.toNat none ++
    if sub.protectedBytes = 0 then [] else [some sub.protectedBytes]

@[simp] theorem picture_cons (sub : Subsample) (subs : List Subsample) :
    picture (sub :: subs) = List.replicate sub.clearBytes.toNat none ++
      (if sub.protectedBytes = 0 then [] else [some sub.protectedBytes]) ++ picture subs :=
  List.flatMap_cons

@[simp] theorem picture_append (subs more : List Subsample) :
    picture (subs ++ more) = picture subs ++ picture more :=
  List.flatMap_append

/-- The subsample for a clear byte or a run of a picture. -/
def ofShown : Option UInt32 → Subsample
  | none => ⟨1, 0⟩
  | some run => ⟨0, run⟩

variable {subs subs' : List Subsample}

theorem Regrouped.behind (before : List Subsample) (h : Regrouped subs subs') :
    Regrouped (before ++ subs) (before ++ subs') := by
  induction h with
  | rel subs subs' h =>
      cases h with
      | cutClear front after sum =>
          rw [← List.append_assoc, ← List.append_assoc]
          exact .rel _ _ (.cutClear (before ++ front) after sum)
      | addEmpty front after =>
          rw [← List.append_assoc, ← List.append_assoc]
          exact .rel _ _ (.addEmpty (before ++ front) after)
  | refl subs => exact .refl _
  | symm subs subs' _ ih => exact ih.symm
  | trans subs subs' subs'' _ _ ih ih' => exact ih.trans _ _ _ ih'

/-- A clear run can be cut down to its bytes. -/
theorem regrouped_bytes (clear run : UInt32) (after : List Subsample) :
    Regrouped (⟨clear, run⟩ :: after)
      (List.replicate clear.toNat ⟨1, 0⟩ ++ ⟨0, run⟩ :: after) := by
  generalize hk : clear.toNat = k
  induction k generalizing clear with
  | zero =>
      obtain rfl : clear = 0 := UInt32.toNat_inj.mp hk
      exact .refl _
  | succ k ih =>
      have hlt : k < 2 ^ 32 := by
        have hclear := clear.toNat_lt
        omega
      have hrest : (UInt32.ofNat k).toNat = k := UInt32.toNat_ofNat_of_lt' hlt
      have hsum : clear.toNat = (1 : UInt32).toNat + (UInt32.ofNat k).toNat := by
        rw [hrest, hk, UInt32.toNat_one, Nat.add_comm]
      exact .trans _ _ _ (.rel _ _ (.cutClear [] after hsum)) ((ih _ hrest).behind [⟨1, 0⟩])

theorem regrouped_picture (subs : List Subsample) :
    Regrouped subs ((picture subs).map ofShown) := by
  induction subs with
  | nil => exact .refl _
  | cons sub subs ih =>
      obtain ⟨clear, run⟩ := sub
      refine .trans _ _ _ (ih.behind [⟨clear, run⟩]) (.trans _ _ _ (regrouped_bytes clear run _) ?_)
      rw [picture_cons, List.map_append, List.map_append, List.map_replicate, List.append_assoc]
      refine Regrouped.behind _ ?_
      by_cases h0 : run = 0
      · rw [if_pos h0, h0]
        exact .symm _ _ (.rel _ _ (.addEmpty [] _))
      · rw [if_neg h0]
        exact .refl _

/-- Two lists are for the same runs just when they show the same picture. -/
theorem regrouped_iff : Regrouped subs subs' ↔ picture subs = picture subs' := by
  constructor
  · intro h
    induction h with
    | rel subs subs' h =>
        cases h with
        | cutClear before after sum =>
            simp only [picture_append, picture_cons, sum, List.replicate_add, List.append_assoc,
              if_true, List.nil_append]
        | addEmpty before after =>
            simp only [picture_append, picture_cons, UInt32.toNat_zero, List.replicate_zero, if_true,
              List.nil_append]
    | refl subs => rfl
    | symm subs subs' _ ih => exact ih.symm
    | trans subs subs' subs'' _ _ ih ih' => exact ih.trans ih'
  · intro h
    have hshown := regrouped_picture subs
    rw [h] at hshown
    exact .trans _ _ _ hshown (.symm _ _ (regrouped_picture subs'))

end Subsample

namespace EncryptionInfo
open Subsample

variable {m : DecryptionModule σ} {info : EncryptionInfo} {scheme : Scheme} {iv : RunningIv} {s : σ}
  {clear first second run : UInt32} {before after after' : List Subsample} {payload dest : Bytes}

/-- The first part of a clear run that is cut goes its own way, as far as it fits. -/
theorem decryptRuns_cutClear (hsum : clear.toNat = first.toNat + second.toNat) :
    (decryptRuns m info scheme (⟨clear, run⟩ :: after) iv s payload dest).EndsAlike
      (decryptRuns m info scheme (⟨first, 0⟩ :: ⟨second, run⟩ :: after) iv s payload dest) := by
  have hsize : size ⟨clear, run⟩ = first.toNat + size ⟨second, run⟩ := by
    rw [size, size, hsum, Nat.add_assoc]
  have hfirst : size ⟨first, 0⟩ = first.toNat := size_of_empty rfl
  by_cases hs : size ⟨clear, run⟩ ≤ payload.length
  · have hs' : size ⟨second, run⟩ ≤ (payload.drop first.toNat).length := by
      rw [List.length_drop]
      omega
    rw [decryptRuns_cons_empty (show size ⟨first, 0⟩ ≤ payload.length by omega) rfl, hfirst]
    have htake : payload.take clear.toNat =
        payload.take first.toNat ++ (payload.drop first.toNat).take second.toNat := by
      rw [hsum, List.take_add]
    have hrest (b : Bytes) : (b.drop first.toNat).drop (size ⟨second, run⟩) =
        b.drop (size ⟨clear, run⟩) := by
      rw [List.drop_drop, hsize]
    by_cases h0 : run = 0
    · rw [decryptRuns_cons_empty hs h0, decryptRuns_cons_empty hs' h0, hrest, hrest, htake]
      simp only [List.append_assoc]
      exact .refl _
    · have hpart (b : Bytes) :
          protectedPart ⟨second, run⟩ (b.drop first.toNat) = protectedPart ⟨clear, run⟩ b := by
        rw [protectedPart, List.drop_drop, ← hsum]
      cases hv : info.verdict scheme iv (protectedPart ⟨clear, run⟩ payload) (m.decrypt s
          (info.request scheme iv (protectedPart ⟨clear, run⟩ payload))
          (protectedPart ⟨clear, run⟩ dest)).status with
      | error e =>
          rw [decryptRuns_cons_stopped hs h0 rfl hv,
            decryptRuns_cons_stopped hs' h0 (by rw [hpart, hpart]) (by rw [hpart]; exact hv)]
          exact .of_error
      | ok iv' =>
          rw [decryptRuns_cons_passed hs h0 rfl hv,
            decryptRuns_cons_passed hs' h0 (by rw [hpart, hpart]) (by rw [hpart]; exact hv),
            hrest, hrest, htake]
          simp only [List.append_assoc]
          exact .refl _
  · rw [decryptRuns_cons_tooLong (show payload.length < size ⟨clear, run⟩ by omega)]
    by_cases hs' : first.toNat ≤ payload.length
    · rw [decryptRuns_cons_empty (by omega) rfl, hfirst,
        decryptRuns_cons_tooLong (by rw [List.length_drop]; omega)]
      exact .of_error
    · rw [decryptRuns_cons_tooLong (by omega)]
      exact .of_error

theorem decryptRuns_addEmpty :
    decryptRuns m info scheme (⟨0, 0⟩ :: after) iv s payload dest =
      decryptRuns m info scheme after iv s payload dest :=
  decryptRuns_cons_empty (Nat.zero_le _) rfl

/-- What is alike at the head of the walk is alike behind any subsamples. -/
theorem decryptRuns_behind
    (h : ∀ iv s payload dest, (decryptRuns m info scheme after iv s payload dest).EndsAlike
      (decryptRuns m info scheme after' iv s payload dest)) :
    (decryptRuns m info scheme (before ++ after) iv s payload dest).EndsAlike
      (decryptRuns m info scheme (before ++ after') iv s payload dest) := by
  induction before generalizing iv s payload dest with
  | nil => exact h iv s payload dest
  | cons sub before ih =>
      rw [List.cons_append, List.cons_append]
      by_cases hs : sub.size ≤ payload.length
      · by_cases h0 : sub.protectedBytes = 0
        · rw [decryptRuns_cons_empty hs h0, decryptRuns_cons_empty hs h0]
          exact ih.prepend _
        · cases hv : info.verdict scheme iv (sub.protectedPart payload) (m.decrypt s
              (info.request scheme iv (sub.protectedPart payload)) (sub.protectedPart dest)).status with
          | error e =>
              rw [decryptRuns_cons_stopped hs h0 rfl hv, decryptRuns_cons_stopped hs h0 rfl hv]
              exact .of_error
          | ok iv' =>
              rw [decryptRuns_cons_passed hs h0 rfl hv, decryptRuns_cons_passed hs h0 rfl hv]
              exact ih.prepend _
      · rw [decryptRuns_cons_tooLong (by omega), decryptRuns_cons_tooLong (by omega)]
        exact .of_error

theorem decryptRuns_regrouped {subs subs' : List Subsample} (h : Regrouped subs subs') :
    (decryptRuns m info scheme subs iv s payload dest).EndsAlike
      (decryptRuns m info scheme subs' iv s payload dest) := by
  induction h with
  | rel subs subs' h =>
      cases h with
      | cutClear before after sum => exact decryptRuns_behind fun _ _ _ _ => decryptRuns_cutClear sum
      | addEmpty before after =>
          refine decryptRuns_behind fun _ _ _ _ => ?_
          rw [decryptRuns_addEmpty]
          exact .refl _
  | refl subs => exact .refl _
  | symm subs subs' _ ih => exact ih.symm
  | trans subs subs' subs'' _ _ ih ih' => exact ih.trans ih'

theorem decrypt_regrouped {subs subs' : List Subsample} (hne : subs ≠ []) (hne' : subs' ≠ [])
    (h : Regrouped subs subs') :
    ({ info with subsamples := subs }.decrypt m s payload dest).EndsAlike
      ({ info with subsamples := subs' }.decrypt m s payload dest) := by
  unfold decrypt
  dsimp only
  split
  · exact .refl _
  · split
    · exact .refl _
    · rw [if_neg (by simpa using hne), if_neg (by simpa using hne'), decryptRuns_setSubsamples m subs,
        decryptRuns_setSubsamples m subs']
      exact decryptRuns_regrouped h

end EncryptionInfo

namespace Packet
open Subsample

variable {m : DecryptionModule σ} {info : EncryptionInfo} {s t : σ}

/-- Two packets with one payload whose subsamples are for the same runs are decrypted alike, from one
state or with a module that has none: the same calls with the same answers, the same result, and on
success the same destination. -/
theorem only_runs_matter {p q : Packet} {subs subs' : List Subsample}
    (hstate : s = t ∨ m.Stateless) (hdata : q.data = p.data)
    (hp : p.encryptionInfo = .ok (some { info with subsamples := subs }))
    (hq : q.encryptionInfo = .ok (some { info with subsamples := subs' }))
    (hne : subs ≠ []) (hne' : subs' ≠ []) (h : Regrouped subs subs') (dest : Bytes) :
    (p.decryptInto m s dest).result = (q.decryptInto m t dest).result ∧
      p.exchanges m s dest = q.exchanges m t dest ∧
      ((p.decryptInto m s dest).result = .ok () →
        (p.decryptInto m s dest).dest = (q.decryptInto m t dest).dest) := by
  have halike {τ : Type} (m : DecryptionModule τ) (t : τ) :
      (p.decryptInto m t dest).EndsAlike (q.decryptInto m t dest) := by
    rw [decryptInto_of_info hp, decryptInto_of_info hq, hdata]
    exact EncryptionInfo.decrypt_regrouped hne hne' h
  obtain ⟨hresult, hdest, hcalls⟩ := p.decryptInto_of_stateless hstate dest
  rw [hresult, hdest, hcalls]
  exact ⟨(halike m t).result, congrArg Prod.snd (halike m.recorded (t, [])).state,
    (halike m t).dest⟩

/-- Five clear bytes in two parts and three subsamples without bytes, with a store that has refused a
request before. -/
theorem only_runs_matter_in_parts :
    ((ofZeros .cenc .none (List.replicate 8 7) [⟨5, 16⟩, ⟨0, 3⟩]).decryptInto
        (keyOfZeros.toModule Aes.cipher) [] (List.replicate 27 9)).result =
      ((ofZeros .cenc .none (List.replicate 8 7)
          [⟨0, 0⟩, ⟨2, 0⟩, ⟨3, 16⟩, ⟨0, 0⟩, ⟨0, 3⟩, ⟨0, 0⟩]).decryptInto
        (keyOfZeros.toModule Aes.cipher) [.noKey []] (List.replicate 27 9)).result ∧
    (ofZeros .cenc .none (List.replicate 8 7) [⟨5, 16⟩, ⟨0, 3⟩]).exchanges
        (keyOfZeros.toModule Aes.cipher) [] (List.replicate 27 9) =
      (ofZeros .cenc .none (List.replicate 8 7)
          [⟨0, 0⟩, ⟨2, 0⟩, ⟨3, 16⟩, ⟨0, 0⟩, ⟨0, 3⟩, ⟨0, 0⟩]).exchanges
        (keyOfZeros.toModule Aes.cipher) [.noKey []] (List.replicate 27 9) := by
  have hp : (ofZeros .cenc .none (List.replicate 8 7) [⟨5, 16⟩, ⟨0, 3⟩]).encryptionInfo =
    .ok (some { infoOfZeros .cenc .none (List.replicate 8 7) [] with
      subsamples := [⟨5, 16⟩, ⟨0, 3⟩] }) := rfl
  have hq : (ofZeros .cenc .none (List.replicate 8 7)
      [⟨0, 0⟩, ⟨2, 0⟩, ⟨3, 16⟩, ⟨0, 0⟩, ⟨0, 3⟩, ⟨0, 0⟩]).encryptionInfo =
    .ok (some { infoOfZeros .cenc .none (List.replicate 8 7) [] with
      subsamples := [⟨0, 0⟩, ⟨2, 0⟩, ⟨3, 16⟩, ⟨0, 0⟩, ⟨0, 3⟩, ⟨0, 0⟩] }) := rfl
  have hdata : (ofZeros .cenc .none (List.replicate 8 7)
      [⟨0, 0⟩, ⟨2, 0⟩, ⟨3, 16⟩, ⟨0, 0⟩, ⟨0, 3⟩, ⟨0, 0⟩]).data =
    (ofZeros .cenc .none (List.replicate 8 7) [⟨5, 16⟩, ⟨0, 3⟩]).data := rfl
  have hruns : Regrouped [⟨5, 16⟩, ⟨0, 3⟩]
      [⟨0, 0⟩, ⟨2, 0⟩, ⟨3, 16⟩, ⟨0, 0⟩, ⟨0, 3⟩, ⟨0, 0⟩] := regrouped_iff.mpr (by decide)
  have halike := only_runs_matter (.inr (keyOfZeros.stateless_toModule Aes.cipher)) hdata hp hq
    (List.cons_ne_nil _ _) (List.cons_ne_nil _ _) hruns (List.replicate 27 9)
    (s := []) (t := [.noKey []])
  exact ⟨halike.1, halike.2.1⟩

end Packet

end ProtectedMedia
