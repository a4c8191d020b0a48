import ProtectedMedia.Proofs.Packet.Correspondence
import ProtectedMedia.Proofs.Packet.Outcome
import ProtectedMedia.Proofs.Packet.Ready

/-!
# An account of the walk over the runs

The walk over the subsamples of a packet passes some of them and ends in one of five ways, whatever
the module answers and however the sizes are chosen. `Account` says all that can be seen of it: the
calls that were made, what became of the destination, and how it ended. It speaks about a recorded
module, and decryption does not notice the recorder.
-/
namespace ProtectedMedia

variable {σ : Type}

namespace Subsample

/-- The bytes of a payload that a list of subsamples takes up. -/
def extent (subs : List Subsample) : ℕ := (subs.map size).sum

@[simp] theorem extent_nil : extent [] = 0 := rfl

@[simp] theorem extent_cons (sub : Subsample) (subs : List Subsample) :
    extent (sub :: subs) = sub.size + extent subs := List.sum_cons

@[simp] theorem extent_append (subs more : List Subsample) :
    extent (subs ++ more) = extent subs + extent more := by
  simp [extent]

end Subsample

theorem Status.toResult_eq_ok_iff (keyId : Bytes) (status : Status) {u : Unit} :
    status.toResult keyId = .ok u ↔ status = .success := by
  cases status <;> simp [toResult]

namespace EncryptionInfo
open Subsample

/-! ### What the walk amounts to -/

/-- The requests for runs that the walk gets over one after the other. An empty run makes none. -/
def requests (info : EncryptionInfo) (scheme : Scheme) : RunningIv → List Bytes → List Request
  | _, [] => []
  | iv, run :: runs =>
    if run = [] then requests info scheme iv runs
    else info.request scheme iv run ::
      requests info scheme ((iv.advance scheme info.pattern run).toOption.getD iv) runs

/-- The runs of the subsamples `tried` were handed to the module in `calls`, and `out` is what the
destination has become. -/
structure Handed (m : DecryptionModule σ) (info : EncryptionInfo) (scheme : Scheme)
    (iv : RunningIv) (payload dest : Bytes) (tried : List Subsample) (calls : List Exchange)
    (out : Bytes) : Prop where
  fits : extent tried ≤ payload.length
  asked : calls.map (·.request) = requests info scheme iv (protectedRuns tried payload)
  destSize : ∀ x ∈ calls, x.destSize = x.request.data.length
  answered : ∀ x ∈ calls, ∃ s part, x.status = (m.decrypt s x.request part).status
  clear : clearRuns tried out = clearRuns tried payload
  untouched : out.drop (extent tried) = dest.drop (extent tried)

/-- How the walk ends behind the subsamples `passed` with `rest` left of the list: which runs were
handed to the module, what it answered, and the result. -/
inductive Ending (info : EncryptionInfo) (scheme : Scheme) (payload : Bytes)
    (passed : List Subsample) :
    (rest tried : List Subsample) → (answers : List Status) → Except Error Unit → Prop
  | done (n : ℕ) (covered : extent passed = payload.length) :
      Ending info scheme payload passed [] passed (List.replicate n .success) (.ok ())
  | leftOver (n : ℕ) (short : extent passed < payload.length) :
      Ending info scheme payload passed [] passed (List.replicate n .success)
        (.error (.layout .payloadLeftOver))
  | tooLong (n : ℕ) {sub : Subsample} {later : List Subsample}
      (exceeds : payload.length < extent passed + sub.size) :
      Ending info scheme payload passed (sub :: later) passed (List.replicate n .success)
        (.error (.layout .subsampleTooLong))
  | refused (n : ℕ) {sub : Subsample} {later : List Subsample} {answer : Status} {e : Error}
      (nonempty : sub.protectedBytes ≠ 0) (refusal : answer.toResult info.keyId = .error e) :
      Ending info scheme payload passed (sub :: later) (passed ++ [sub])
        (List.replicate n .success ++ [answer]) (.error e)
  | partialBlock (n : ℕ) {sub : Subsample} {later : List Subsample} (chained : scheme = .cbc1)
      (unaligned : sub.protectedBytes.toNat % 16 ≠ 0) :
      Ending info scheme payload passed (sub :: later) (passed ++ [sub])
        (List.replicate n .success) (.error (.layout .partialBlock))

/-- The walk got over the subsamples `passed` and ended in front of `rest`. -/
structure Account (m : DecryptionModule σ) (info : EncryptionInfo) (scheme : Scheme)
    (iv : RunningIv) (payload dest : Bytes) (passed rest tried : List Subsample)
    (calls : List Exchange) (result : Except Error Unit) (out : Bytes) : Prop
    extends Handed m info scheme iv payload dest tried calls out where
  wholeBlocks : scheme = .cbc1 → ∀ sub ∈ passed, sub.protectedBytes.toNat % 16 = 0
  ending : Ending info scheme payload passed rest tried (calls.map (·.status)) result

section
variable {m : DecryptionModule σ} {info : EncryptionInfo} {scheme : Scheme} {iv : RunningIv}
  {sub : Subsample} {passed rest tried : List Subsample} {answers : List Status} {calls : List Exchange}
  {result : Except Error Unit} {payload dest out plain : Bytes}

theorem Handed.nil (m : DecryptionModule σ) (info : EncryptionInfo) (scheme : Scheme)
    (iv : RunningIv) (payload dest : Bytes) :
    Handed m info scheme iv payload dest [] [] dest where
  fits := Nat.zero_le _
  asked := rfl
  destSize x hx := by cases hx
  answered x hx := by cases hx
  clear := rfl
  untouched := rfl

/-- What a subsample without protected bytes adds. -/
theorem Handed.cons_empty (hs : sub.size ≤ payload.length) (h0 : sub.protectedBytes = 0)
    (h : Handed m info scheme iv (payload.drop sub.size) (dest.drop sub.size) tried calls out) :
    Handed m info scheme iv payload dest (sub :: tried) calls
      (payload.take sub.clearBytes.toNat ++ out) where
  fits := by
    have hfits := h.fits
    rw [List.length_drop] at hfits
    rw [extent_cons]
    omega
  asked := by
    rw [protectedRuns_cons, requests, if_pos ((protectedPart_eq_nil_iff hs).mpr h0)]
    exact h.asked
  destSize := h.destSize
  answered := h.answered
  clear := by
    have hdrop : (payload.take sub.clearBytes.toNat ++ out).drop sub.size = out := by
      rw [size_of_empty h0, List.drop_left' (length_clearPart hs)]
    rw [clearRuns_cons, clearRuns_cons, List.take_left' (length_clearPart hs), hdrop, h.clear]
  untouched := by
    rw [extent_cons, ← List.drop_drop, ← List.drop_drop, ← h.untouched, size_of_empty h0,
      List.drop_left' (length_clearPart hs)]

/-- What a run with its call adds. -/
theorem Handed.cons_run {answer : Status} (hs : sub.size ≤ payload.length)
    (h0 : sub.protectedBytes ≠ 0) (hplain : plain.length = sub.protectedBytes.toNat)
    (hanswer : ∃ s part, answer =
      (m.decrypt s (info.request scheme iv (sub.protectedPart payload)) part).status)
    (h : Handed m info scheme
      ((iv.advance scheme info.pattern (sub.protectedPart payload)).toOption.getD iv)
      (payload.drop sub.size) (dest.drop sub.size) tried calls out) :
    Handed m info scheme iv payload dest (sub :: tried)
      (⟨info.request scheme iv (sub.protectedPart payload), sub.protectedBytes.toNat, answer⟩ ::
        calls)
      (payload.take sub.clearBytes.toNat ++ plain ++ out) where
  fits := by
    have hfits := h.fits
    rw [List.length_drop] at hfits
    rw [extent_cons]
    omega
  asked := by
    rw [protectedRuns_cons, requests, if_neg (mt (protectedPart_eq_nil_iff hs).mp h0),
      List.map_cons, h.asked]
  destSize := List.forall_mem_cons.mpr ⟨(length_protectedPart hs).symm, h.destSize⟩
  answered := List.forall_mem_cons.mpr ⟨hanswer, h.answered⟩
  clear := by
    rw [clearRuns_cons, clearRuns_cons, List.drop_left' (length_front hs hplain), h.clear,
      List.append_assoc, List.take_left' (length_clearPart hs)]
  untouched := by
    rw [extent_cons, ← List.drop_drop, ← List.drop_drop, ← h.untouched,
      List.drop_left' (length_front hs hplain)]

/-- A passed subsample in front, answered with `k` successes, does not change how the walk ends. -/
theorem Ending.cons (k : ℕ) (hs : sub.size ≤ payload.length)
    (h : Ending info scheme (payload.drop sub.size) passed rest tried answers result) :
    Ending info scheme payload (sub :: passed) rest (sub :: tried)
      (List.replicate k .success ++ answers) result := by
  cases h with
  | done n covered =>
      rw [List.length_drop] at covered
      rw [List.replicate_append_replicate]
      exact .done _ (by rw [extent_cons]; omega)
  | leftOver n short =>
      rw [List.length_drop] at short
      rw [List.replicate_append_replicate]
      exact .leftOver _ (by rw [extent_cons]; omega)
  | tooLong n exceeds =>
      rw [List.length_drop] at exceeds
      rw [List.replicate_append_replicate]
      exact .tooLong _ (by rw [extent_cons]; omega)
  | refused n nonempty refusal =>
      rw [← List.append_assoc, List.replicate_append_replicate]
      exact .refused _ nonempty refusal
  | partialBlock n chained unaligned =>
      rw [List.replicate_append_replicate]
      exact .partialBlock _ chained unaligned

/-- A walk that ends where it starts. -/
theorem Account.start (iv : RunningIv) (dest : Bytes)
    (h : Ending info scheme payload [] rest [] [] result) :
    Account m info scheme iv payload dest [] rest [] [] result dest where
  toHanded := .nil m info scheme iv payload dest
  wholeBlocks _ sub hsub := by cases hsub
  ending := h

theorem Account.cons_empty (hs : sub.size ≤ payload.length) (h0 : sub.protectedBytes = 0)
    (h : Account m info scheme iv (payload.drop sub.size) (dest.drop sub.size) passed rest tried calls
      result out) :
    Account m info scheme iv payload dest (sub :: passed) rest (sub :: tried) calls result
      (payload.take sub.clearBytes.toNat ++ out) where
  toHanded := .cons_empty hs h0 h.toHanded
  wholeBlocks hcbc1 := List.forall_mem_cons.mpr ⟨by rw [h0]; rfl, h.wholeBlocks hcbc1⟩
  ending := h.ending.cons 0 hs

theorem Account.cons_run {iv' : RunningIv} (hs : sub.size ≤ payload.length)
    (h0 : sub.protectedBytes ≠ 0) (hplain : plain.length = sub.protectedBytes.toNat)
    (hadvance : iv.advance scheme info.pattern (sub.protectedPart payload) = .ok iv')
    (hanswer : ∃ s part, .success =
      (m.decrypt s (info.request scheme iv (sub.protectedPart payload)) part).status)
    (h : Account m info scheme iv' (payload.drop sub.size) (dest.drop sub.size) passed rest tried
      calls result out) :
    Account m info scheme iv payload dest (sub :: passed) rest (sub :: tried)
      (⟨info.request scheme iv (sub.protectedPart payload), sub.protectedBytes.toNat, .success⟩ ::
        calls)
      result (payload.take sub.clearBytes.toNat ++ plain ++ out) where
  toHanded := by
    refine .cons_run hs h0 hplain hanswer ?_
    rw [hadvance]
    exact h.toHanded
  wholeBlocks hcbc1 := by
    refine List.forall_mem_cons.mpr ⟨?_, h.wholeBlocks hcbc1⟩
    by_contra hpartial
    rw [← length_protectedPart hs] at hpartial
    rw [hcbc1, RunningIv.advance_partialBlock iv info.pattern hpartial] at hadvance
    cases hadvance
  ending := h.ending.cons 1 hs

/-- A walk that ends at its first run, which was handed to the module. -/
theorem Account.stopped {answer : Status} {e : Error} {later : List Subsample}
    (hs : sub.size ≤ payload.length) (h0 : sub.protectedBytes ≠ 0)
    (hplain : plain.length = sub.protectedBytes.toNat)
    (hanswer : ∃ s part, answer =
      (m.decrypt s (info.request scheme iv (sub.protectedPart payload)) part).status)
    (hverdict : info.verdict scheme iv (sub.protectedPart payload) answer = .error e) :
    Account m info scheme iv payload dest [] (sub :: later) [sub]
      [⟨info.request scheme iv (sub.protectedPart payload), sub.protectedBytes.toNat, answer⟩]
      (.error e) (payload.take sub.clearBytes.toNat ++ plain ++ dest.drop sub.size) where
  toHanded := .cons_run hs h0 hplain hanswer (.nil m info scheme _ _ _)
  wholeBlocks _ sub hsub := by cases hsub
  ending := by
    cases hresult : answer.toResult info.keyId with
    | error cause =>
        rw [verdict, hresult] at hverdict
        cases hverdict
        exact .refused 0 h0 hresult
    | ok _ =>
        obtain rfl : answer = .success := (Status.toResult_eq_ok_iff _ _).mp hresult
        obtain ⟨hcbc1, hpartial, rfl⟩ := RunningIv.advance_eq_error
          (mt (protectedPart_eq_nil_iff hs).mp h0) hverdict
        rw [length_protectedPart hs] at hpartial
        exact .partialBlock 1 hcbc1 hpartial

end

/-- Every walk has an account. -/
theorem exists_account (m : DecryptionModule σ) (info : EncryptionInfo) (scheme : Scheme)
    (subs : List Subsample) (iv : RunningIv) (s : σ) (log : List Exchange) {payload dest : Bytes}
    (hd : payload.length ≤ dest.length) :
    ∃ passed rest tried calls, subs = passed ++ rest ∧
      (decryptRuns m.recorded info scheme subs iv (s, log) payload dest).state.2 = log ++ calls ∧
      Account m info scheme iv payload dest passed rest tried calls
        (decryptRuns m.recorded info scheme subs iv (s, log) payload dest).result
        (decryptRuns m.recorded info scheme subs iv (s, log) payload dest).dest := by
  -- the record of a later call stands behind those of all earlier ones, so `log` is any record
  induction subs generalizing iv s log payload dest with
  | nil =>
      refine ⟨[], [], [], [], rfl, (List.append_nil _).symm, .start iv dest ?_⟩
      cases payload with
      | nil => exact .done 0 rfl
      | cons x payload => exact .leftOver 0 (Nat.zero_lt_succ _)
  | cons sub subs ih =>
      by_cases hs : sub.size ≤ payload.length
      · have hd' := length_drop_le hd sub.size
        by_cases h0 : sub.protectedBytes = 0
        · obtain ⟨passed, rest, tried, calls, hsubs, hlog, haccount⟩ := ih iv s log hd'
          rw [decryptRuns_cons_empty hs h0]
          exact ⟨sub :: passed, rest, sub :: tried, calls, congrArg _ hsubs, hlog,
            haccount.cons_empty hs h0⟩
        · obtain ⟨reply, hreply⟩ : ∃ reply, m.decrypt s
              (info.request scheme iv (sub.protectedPart payload)) (sub.protectedPart dest) = reply :=
            ⟨_, rfl⟩
          have hrecorded := m.decrypt_recorded (s, log) _ _ hreply
          rw [length_protectedPart (hs.trans hd)] at hrecorded
          have hplain : reply.dest.length = sub.protectedBytes.toNat := by
            rw [← hreply, m.length_dest]
            exact length_protectedPart (hs.trans hd)
          have hanswer : ∃ t part, reply.status = (m.decrypt t
              (info.request scheme iv (sub.protectedPart payload)) part).status :=
            ⟨s, _, congrArg Reply.status hreply.symm⟩
          cases hv : info.verdict scheme iv (sub.protectedPart payload) reply.status with
          | error e =>
              rw [decryptRuns_cons_stopped hs h0 hrecorded hv]
              exact ⟨[], sub :: subs, [sub], [_], rfl, rfl, .stopped hs h0 hplain hanswer hv⟩
          | ok iv' =>
              rw [decryptRuns_cons_passed hs h0 hrecorded hv]
              obtain ⟨hsuccess, hadvance⟩ := verdict_eq_ok_iff.mp hv
              rw [hsuccess] at hanswer ⊢
              obtain ⟨passed, rest, tried, calls, hsubs, hlog, haccount⟩ := ih iv' reply.state
                (log ++ [⟨info.request scheme iv (sub.protectedPart payload),
                  sub.protectedBytes.toNat, .success⟩]) hd'
              refine ⟨sub :: passed, rest, sub :: tried, _ :: calls, congrArg _ hsubs, ?_,
                haccount.cons_run hs h0 hplain hadvance hanswer⟩
              exact hlog.trans (List.append_assoc _ _ _)
      · rw [decryptRuns_cons_tooLong (by omega)]
        exact ⟨[], sub :: subs, [], [], rfl, (List.append_nil _).symm,
          .start iv dest (.tooLong 0 (by rw [extent_nil]; omega))⟩

end EncryptionInfo

namespace Packet
open EncryptionInfo Subsample RunningIv

section
variable (m : DecryptionModule σ) (p : Packet)

/-- Decryption does not notice the recorder. -/
theorem decryptInto_recorded (s : σ × List Exchange) (dest : Bytes) :
    (p.decryptInto m.recorded s dest).map Prod.fst = p.decryptInto m s.1 dest :=
  (p.decryptInto_corresponds m.corresponds_recorded rfl dest).map_eq

/-- The calls that a module in state `s` gets when the packet is decrypted, in order. -/
def exchanges (s : σ) (dest : Bytes) : List Exchange :=
  (p.decryptInto m.recorded (s, []) dest).state.2

variable {m} {s t : σ}

/-- The state to start from may be another one if it has no influence on the answers. -/
theorem decryptInto_of_stateless (h : s = t ∨ m.Stateless) (dest : Bytes) :
    (p.decryptInto m s dest).result = (p.decryptInto m t dest).result ∧
      (p.decryptInto m s dest).dest = (p.decryptInto m t dest).dest ∧
      p.exchanges m s dest = p.exchanges m t dest := by
  rcases h with rfl | h
  · exact ⟨rfl, rfl, rfl⟩
  · have hcorresponds := p.decryptInto_corresponds h.corresponds (s := (s, [])) (t := (t, [])) rfl dest
    rw [← p.decryptInto_recorded m (s, []), ← p.decryptInto_recorded m (t, [])]
    exact ⟨hcorresponds.result, hcorresponds.dest, hcorresponds.state⟩

end

theorem InOrder.exists_account {p : Packet} {info : EncryptionInfo} {scheme : Scheme}
    (h : p.InOrder info scheme) (hne : info.subsamples ≠ []) (m : DecryptionModule σ) (s : σ)
    {dest : Bytes} (hd : p.data.length ≤ dest.length) :
    ∃ passed rest tried, info.subsamples = passed ++ rest ∧
      Account m info scheme ⟨widened info.iv, 0⟩ p.data dest passed rest tried
        (p.exchanges m s dest) (p.decryptInto m s dest).result (p.decryptInto m s dest).dest := by
  obtain ⟨passed, rest, tried, calls, hsubs, hlog, haccount⟩ :=
    EncryptionInfo.exists_account m info scheme info.subsamples ⟨widened info.iv, 0⟩ s [] hd
  have hcalls : p.exchanges m s dest = calls := by
    rw [exchanges, h.decryptInto_eq hne, hlog, List.nil_append]
  rw [← h.decryptInto_eq hne] at haccount
  rw [hcalls, ← p.decryptInto_recorded m (s, [])]
  exact ⟨passed, rest, tried, hsubs, haccount⟩

end Packet

end ProtectedMedia
