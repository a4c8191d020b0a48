import ProtectedMedia.Proofs.Packet.Accounting
import ProtectedMedia.Proofs.Packet.SplitRun

/-!
# Where a run stands in the keystream

In counter mode without a pattern the running vector counts protected bytes and nothing else. The
request for a run tells how many of them come before it in the packet: whole blocks are added to the
counter, which wraps at 64 bits, and what is left is the offset. Clear bytes and empty runs leave no
trace, and neither does the way in which the bytes before are cut into runs.
-/
namespace ProtectedMedia

/-- The running vector follows the bytes of the runs, whatever blocks they fill. -/
def Scheme.CountsBytes (scheme : Scheme) (pattern : Pattern) : Prop :=
  scheme = .cenc ∨ scheme = .cens ∧ pattern = .none

theorem Scheme.CountsBytes.advance {scheme : Scheme} {pattern : Pattern}
    (h : scheme.CountsBytes pattern) (iv : Block) (n : ℕ) {run : Bytes} (hrun : run.length < 2 ^ 32) :
    (RunningIv.atByte iv n).advance scheme pattern run =
      .ok (RunningIv.atByte iv (n + run.length)) := by
  rcases h with rfl | ⟨rfl, rfl⟩
  · exact RunningIv.advance_cenc iv n pattern hrun
  · exact RunningIv.advance_cenc iv n .none hrun

/-- The request is for a run with `before` bytes of the keystream of `iv` in front of it. -/
structure Request.StartsAt (r : Request) (iv : Bytes) (before : ℕ) : Prop where
  offset : r.blockOffset = before % 16
  ivSize : r.iv.length = 16
  high : r.iv.take 8 = iv.take 8
  low : Bytes.toNat (r.iv.drop 8) = (Bytes.toNat (iv.drop 8) + before / 16) % 2 ^ 64

namespace Subsample

/-- The subsamples that have something to decrypt. -/
def runCount (subs : List Subsample) : ℕ := subs.countP fun sub => sub.protectedBytes ≠ 0

variable {subs : List Subsample} {payload : Bytes}

theorem protectedRuns_append (before after : List Subsample) (payload : Bytes) :
    protectedRuns (before ++ after) payload =
      protectedRuns before payload ++ protectedRuns after (payload.drop (extent before)) := by
  induction before generalizing payload with
  | nil => rfl
  | cons sub before ih =>
      rw [List.cons_append, protectedRuns_cons, protectedRuns_cons, ih, extent_cons, List.drop_drop,
        List.cons_append]

theorem length_flatten_of_fits (h : extent subs ≤ payload.length) :
    (protectedRuns subs payload).flatten.length = protectedSize subs := by
  rw [List.length_flatten, map_length_protectedRuns h, protectedSize]

theorem countP_protectedRuns (h : extent subs ≤ payload.length) :
    (protectedRuns subs payload).countP (· ≠ []) = runCount subs := by
  -- a run is empty just when its size is zero, and the sizes are those of the subsamples
  have hsizes := congrArg (List.countP (· ≠ 0)) (map_length_protectedRuns h)
  rw [List.countP_map, List.countP_map] at hsizes
  rw [runCount]
  convert hsizes using 3 with run sub
  · simp
  · simp [← UInt32.toNat_inj]

end Subsample

namespace EncryptionInfo
open Subsample RunningIv

variable {σ : Type} {m : DecryptionModule σ} {info : EncryptionInfo} {scheme : Scheme}
  {iv : RunningIv} {start : Block} {n : ℕ} {payload dest out : Bytes}
  {passed rest tried : List Subsample} {calls : List Exchange}

theorem length_requests (info : EncryptionInfo) (scheme : Scheme) (iv : RunningIv)
    (runs : List Bytes) : (requests info scheme iv runs).length = runs.countP (· ≠ []) := by
  rw [← List.length_map (·.data), map_data_requests, List.countP_eq_length_filter]

/-- Requests for later runs depend on the number of bytes in the runs before them. -/
theorem requests_append (h : scheme.CountsBytes info.pattern) {before : List Bytes}
    (hbefore : ∀ run ∈ before, run.length < 2 ^ 32) (runs : List Bytes) :
    requests info scheme (atByte start n) (before ++ runs) =
      requests info scheme (atByte start n) before ++
        requests info scheme (atByte start (n + before.flatten.length)) runs := by
  induction before generalizing n with
  | nil => rfl
  | cons run before ih =>
      obtain ⟨hrun, hbefore⟩ := List.forall_mem_cons.mp hbefore
      rw [List.cons_append, requests, requests, List.flatten_cons, List.length_append,
        ← Nat.add_assoc]
      by_cases hempty : run = []
      · rw [if_pos hempty, if_pos hempty, ih hbefore, hempty, List.length_nil, Nat.add_zero]
      · rw [if_neg hempty, if_neg hempty, h.advance start n hrun]
        exact congrArg _ (ih hbefore)

/-- The request for one of the runs, by the bytes in front of it. -/
theorem getElem?_requests (h : scheme.CountsBytes info.pattern) (start : Block)
    {before after : List Subsample} {sub : Subsample}
    (hfits : extent (before ++ sub :: after) ≤ payload.length)
    (hsub : sub.protectedBytes ≠ 0) :
    (requests info scheme (atByte start 0)
        (protectedRuns (before ++ sub :: after) payload))[runCount before]? =
      some (info.request scheme (atByte start (protectedSize before))
        (sub.protectedPart (payload.drop (extent before)))) := by
  rw [extent_append, extent_cons] at hfits
  have hbefore : extent before ≤ payload.length := by omega
  have hrun : sub.protectedPart (payload.drop (extent before)) ≠ [] :=
    mt (protectedPart_eq_nil_iff (by rw [List.length_drop]; omega)).mp hsub
  rw [protectedRuns_append, requests_append h fun _ => length_lt_of_mem_protectedRuns,
    List.getElem?_append_right (by rw [length_requests, countP_protectedRuns hbefore]),
    length_requests, countP_protectedRuns hbefore, length_flatten_of_fits hbefore, Nat.sub_self,
    Nat.zero_add, protectedRuns_cons, requests, if_neg hrun, List.getElem?_cons_zero]

theorem startsAt_request (info : EncryptionInfo) (scheme : Scheme) (start : Block) (n : ℕ)
    (run : Bytes) : (info.request scheme (atByte start n) run).StartsAt start.toBytes n where
  offset := rfl
  ivSize := (start.addLow _).length_toBytes
  high := start.take_addLow _
  low := start.drop_addLow _

/-- A walk that succeeds has handed over all runs. -/
theorem Account.tried_eq
    (h : Account m info scheme iv payload dest passed rest tried calls (.ok ()) out) :
    tried = passed ++ rest := by
  have hending := h.ending
  generalize calls.map (·.status) = answers at hending
  cases hending
  exact (List.append_nil _).symm

end EncryptionInfo

namespace Packet
open EncryptionInfo Subsample RunningIv

variable {σ : Type} {m : DecryptionModule σ} {p : Packet} {info : EncryptionInfo}
  {scheme : Scheme} {dest : Bytes}

/-- A module that never refuses is called once for each run that is not empty, in order, and the
call for a run is settled by its bytes and the number of protected bytes before it. -/
theorem runs_requested (hm : m.AlwaysSucceeds) (h : p.InOrder info scheme)
    (hscheme : scheme.CountsBytes info.pattern) (hne : info.subsamples ≠ [])
    (hcovers : Covers info.subsamples p.data) (hd : p.data.length ≤ dest.length) (s : σ) :
    (p.exchanges m s dest).length = runCount info.subsamples ∧
    ∀ before sub after, info.subsamples = before ++ sub :: after → sub.protectedBytes ≠ 0 →
      ∃ x, (p.exchanges m s dest)[runCount before]? = some x ∧
        x.request.data = sub.protectedPart (p.data.drop (extent before)) ∧
        x.request.StartsAt (widened info.iv).toBytes (protectedSize before) := by
  obtain ⟨passed, rest, tried, hsubs, haccount⟩ := h.exists_account hne m s hd
  have hchain : scheme ≠ .cbc1 := by
    rcases hscheme with rfl | ⟨rfl, -⟩ <;> nofun
  have hresult : (p.decryptInto m s dest).result = .ok () := by
    rw [(haccount.result_iff hm).1, ← hsubs]
    exact ⟨hcovers, fun hcbc1 => absurd hcbc1 hchain⟩
  rw [hresult] at haccount
  have htried : tried = info.subsamples := haccount.tried_eq.trans hsubs.symm
  subst htried
  have hasked := haccount.asked
  rw [← atByte_zero] at hasked
  constructor
  · rw [← List.length_map (·.request), hasked, length_requests,
      countP_protectedRuns haccount.fits]
  · intro before sub after hsplit hsub
    have hfits := haccount.fits
    rw [hsplit] at hfits
    have hcall := getElem?_requests hscheme (widened info.iv) hfits hsub
    rw [← hsplit, ← hasked, List.getElem?_map, Option.map_eq_some_iff] at hcall
    obtain ⟨x, hx, hrequest⟩ := hcall
    refine ⟨x, hx, ?_, ?_⟩
    · rw [hrequest]
      rfl
    · rw [hrequest]
      exact startsAt_request info scheme _ _ _

/-- The counter starts at its last value, and two blocks of protected bytes come before the run. -/
theorem runs_requested_behind_wrap :
    ∃ x, ((ofZeros .cenc .none (List.replicate 8 7 ++ List.replicate 8 255)
          [⟨1, 5⟩, ⟨3, 0⟩, ⟨2, 27⟩, ⟨0, 16⟩]).exchanges (.scripted [.success]) []
          (List.replicate 54 0))[2]? = some x ∧
      x.request.data = List.replicate 16 0 ∧ x.request.blockOffset = 0 ∧
      x.request.iv.take 8 = List.replicate 8 7 ∧ Bytes.toNat (x.request.iv.drop 8) = 1 := by
  have horder : (ofZeros .cenc .none (List.replicate 8 7 ++ List.replicate 8 255)
      [⟨1, 5⟩, ⟨3, 0⟩, ⟨2, 27⟩, ⟨0, 16⟩]).InOrder
      (infoOfZeros .cenc .none (List.replicate 8 7 ++ List.replicate 8 255)
        [⟨1, 5⟩, ⟨3, 0⟩, ⟨2, 27⟩, ⟨0, 16⟩]) .cenc :=
    ⟨rfl, rfl, .inr rfl⟩
  have hd : (ofZeros .cenc .none (List.replicate 8 7 ++ List.replicate 8 255)
      [⟨1, 5⟩, ⟨3, 0⟩, ⟨2, 27⟩, ⟨0, 16⟩]).data.length ≤ (List.replicate 54 (0 : UInt8)).length := by
    decide
  obtain ⟨-, hcalls⟩ := runs_requested DecryptionModule.alwaysSucceeds_scripted horder (.inl rfl)
    (by decide) rfl hd []
  obtain ⟨x, hx, hdata, hstart⟩ :=
    hcalls [⟨1, 5⟩, ⟨3, 0⟩, ⟨2, 27⟩] ⟨0, 16⟩ [] rfl (by decide)
  exact ⟨x, hx, hdata, hstart.offset, hstart.high, hstart.low.trans (by decide)⟩

end Packet

end ProtectedMedia
