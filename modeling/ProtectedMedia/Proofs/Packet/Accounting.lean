import ProtectedMedia.Proofs.Packet.Account

/-!
# When subsamples account for a payload

The walk subtracts sizes from what is left of the payload and may end at any subsample. With a module
that never refuses, all of this comes to one equation: decryption succeeds just if the sizes, added up
as natural numbers, are the length of the payload, and in a chain without pattern every run consists
of whole blocks. Whatever the sizes, each piece that is cut out has the size its subsample declares.
-/
namespace ProtectedMedia

namespace Subsample

variable {subs : List Subsample} {payload : Bytes}

theorem map_length_clearRuns (h : extent subs ≤ payload.length) :
    (clearRuns subs payload).map List.length = subs.map fun sub => sub.clearBytes.toNat := by
  induction subs generalizing payload with
  | nil => rfl
  | cons sub subs ih =>
      rw [extent_cons] at h
      rw [clearRuns_cons, List.map_cons, List.map_cons, length_clearPart (by omega),
        ih (by rw [List.length_drop]; omega)]

theorem map_length_protectedRuns (h : extent subs ≤ payload.length) :
    (protectedRuns subs payload).map List.length = subs.map fun sub => sub.protectedBytes.toNat := by
  induction subs generalizing payload with
  | nil => rfl
  | cons sub subs ih =>
      rw [extent_cons] at h
      rw [protectedRuns_cons, List.map_cons, List.map_cons, length_protectedPart (by omega),
        ih (by rw [List.length_drop]; omega)]

end Subsample

namespace EncryptionInfo
open Subsample

variable {σ : Type} {m : DecryptionModule σ} {info : EncryptionInfo} {scheme : Scheme}
  {iv : RunningIv} {payload dest out : Bytes} {passed rest tried : List Subsample}
  {answers : List Status} {calls : List Exchange} {result : Except Error Unit}

theorem map_data_requests (info : EncryptionInfo) (scheme : Scheme) (iv : RunningIv)
    (runs : List Bytes) :
    (requests info scheme iv runs).map (·.data) = runs.filter (· ≠ []) := by
  induction runs generalizing iv with
  | nil => rfl
  | cons run runs ih =>
      by_cases hrun : run = []
      · rw [requests, if_pos hrun, ih, List.filter_cons_of_neg (by simpa using hrun)]
      · rw [requests, if_neg hrun, List.map_cons, ih, List.filter_cons_of_pos (by simpa using hrun)]
        rfl

/-- Every run was handed over with a part of the destination of its own size. -/
theorem Handed.map_calls (h : Handed m info scheme iv payload dest tried calls out) :
    calls.map (fun x => (x.request.data, x.destSize)) =
      ((protectedRuns tried payload).filter (· ≠ [])).map fun run => (run, run.length) := by
  have hsizes : calls.map (fun x => (x.request.data, x.destSize)) =
      ((calls.map (·.request)).map (·.data)).map fun run => (run, run.length) := by
    rw [List.map_map, List.map_map]
    exact List.map_congr_left fun x hx => Prod.ext rfl (h.destSize x hx)
  rw [hsizes, h.asked, map_data_requests]

theorem Handed.status_eq (h : Handed m info scheme iv payload dest tried calls out)
    (hm : m.AlwaysSucceeds) {answer : Status} (hanswer : answer ∈ calls.map (·.status)) :
    answer = .success := by
  obtain ⟨x, hx, rfl⟩ := List.mem_map.mp hanswer
  obtain ⟨s, part, hstatus⟩ := h.answered x hx
  rw [hstatus, hm]

/-- What was handed over belongs to subsamples at the front of the list. -/
theorem Ending.exists_later (h : Ending info scheme payload passed rest tried answers result) :
    ∃ later, passed ++ rest = tried ++ later := by
  cases h with
  | done => exact ⟨[], rfl⟩
  | leftOver => exact ⟨[], rfl⟩
  | @tooLong _ sub later => exact ⟨sub :: later, rfl⟩
  | @refused _ sub later => exact ⟨later, by rw [List.append_assoc]; rfl⟩
  | @partialBlock _ sub later => exact ⟨later, by rw [List.append_assoc]; rfl⟩

/-- With a module that never refuses, the sizes alone decide how the walk ends. -/
theorem Account.result_iff (hm : m.AlwaysSucceeds)
    (h : Account m info scheme iv payload dest passed rest tried calls result out) :
    (result = .ok () ↔ Covers (passed ++ rest) payload ∧
      (scheme = .cbc1 → ∀ sub ∈ passed ++ rest, sub.protectedBytes.toNat % 16 = 0)) ∧
    ∀ e, result = .error e → ∃ fault, e = .layout fault := by
  have hcovers : Covers (passed ++ rest) payload ↔
      extent passed + extent rest = payload.length := by
    rw [← extent_append]
    rfl
  rw [hcovers]
  have hwhole := h.wholeBlocks
  have hstatus : ∀ answer ∈ calls.map (·.status), answer = .success := fun _ => h.status_eq hm
  have hending := h.ending
  generalize calls.map (·.status) = answers at hstatus hending
  cases hending with
  | done n covered => simpa [covered] using hwhole
  | leftOver n short =>
      refine ⟨⟨by simp, fun hsum => ?_⟩, fun e he => ⟨_, (Except.error.inj he).symm⟩⟩
      rw [extent_nil] at hsum
      omega
  | tooLong n exceeds =>
      refine ⟨⟨by simp, fun hsum => ?_⟩, fun e he => ⟨_, (Except.error.inj he).symm⟩⟩
      rw [extent_cons] at hsum
      omega
  | @refused n sub later answer e nonempty refusal =>
      rw [hstatus answer (by simp)] at refusal
      cases refusal
  | partialBlock n chained unaligned =>
      refine ⟨⟨by simp, fun hsum => ?_⟩, fun e he => ⟨_, (Except.error.inj he).symm⟩⟩
      exact absurd (hsum.2 chained _ (by simp)) unaligned

end EncryptionInfo

namespace Packet
open EncryptionInfo Subsample RunningIv

variable {σ : Type} {m : DecryptionModule σ} {p : Packet} {info : EncryptionInfo}
  {scheme : Scheme} {dest : Bytes}

/-- Decryption with a module that never refuses succeeds just if the subsamples account for the
payload, and fails for the layout alone. Every piece that is cut out of the payload or handed over of
the destination has the size that its subsample declares. -/
theorem succeeds_iff_accounted (hm : m.AlwaysSucceeds) (h : p.InOrder info scheme)
    (hne : info.subsamples ≠ []) (hd : p.data.length ≤ dest.length) (s : σ) :
    ((p.decryptInto m s dest).result = .ok () ↔
      (info.subsamples.map fun sub => sub.clearBytes.toNat + sub.protectedBytes.toNat).sum =
          p.data.length ∧
        (scheme = .cbc1 → ∀ sub ∈ info.subsamples, sub.protectedBytes.toNat % 16 = 0)) ∧
    (∀ e, (p.decryptInto m s dest).result = .error e → ∃ fault, e = .layout fault) ∧
    ∃ tried later, info.subsamples = tried ++ later ∧ extent tried ≤ p.data.length ∧
      (clearRuns tried p.data).map List.length = tried.map (fun sub => sub.clearBytes.toNat) ∧
      (protectedRuns tried p.data).map List.length =
        tried.map (fun sub => sub.protectedBytes.toNat) ∧
      (p.exchanges m s dest).map (fun x => (x.request.data, x.destSize)) =
        ((protectedRuns tried p.data).filter (· ≠ [])).map fun run => (run, run.length) := by
  obtain ⟨passed, rest, tried, hsubs, haccount⟩ := h.exists_account hne m s hd
  obtain ⟨hresult, herror⟩ := haccount.result_iff hm
  obtain ⟨later, hlater⟩ := haccount.ending.exists_later
  refine ⟨?_, herror, tried, later, hsubs.trans hlater, haccount.fits,
    map_length_clearRuns haccount.fits, map_length_protectedRuns haccount.fits,
    haccount.map_calls⟩
  rw [hresult, ← hsubs]
  rfl

/-- The sizes of the subsamples add up to the length of the payload only modulo `2 ^ 32`. -/
def ofWrappingSizes : Packet :=
  encrypted [1, 2, 3]
    (infoOfZeros .cenc .none (List.replicate 8 7) [⟨4294967295, 3⟩, ⟨1, 0⟩])

theorem wrapping_sizes_refused :
    ∃ fault, (ofWrappingSizes.decryptInto (.scripted [.success]) [] [0, 0, 0]).result =
      .error (.layout fault) := by
  have horder : ofWrappingSizes.InOrder
      (infoOfZeros .cenc .none (List.replicate 8 7) [⟨4294967295, 3⟩, ⟨1, 0⟩]) .cenc :=
    ⟨rfl, rfl, .inl rfl⟩
  have hd : ofWrappingSizes.data.length ≤ ([0, 0, 0] : Bytes).length := by decide
  obtain ⟨hresult, herror, -⟩ := succeeds_iff_accounted DecryptionModule.alwaysSucceeds_scripted
    horder (by decide) hd []
  cases hanswer : (ofWrappingSizes.decryptInto (.scripted [.success]) [] [0, 0, 0]).result with
  | error e =>
      obtain ⟨fault, rfl⟩ := herror e hanswer
      exact ⟨fault, rfl⟩
  | ok _ => exact absurd (hresult.mp hanswer).1 (by decide)

end Packet

end ProtectedMedia
