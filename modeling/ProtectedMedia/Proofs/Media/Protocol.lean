import ProtectedMedia.Proofs.Media.Observed
import ProtectedMedia.Proofs.Media.Rounds

/-!
# The order of the calls to a pipeline

Between two resets a pipeline is asked for sources and told durations, and then perhaps that the
stream has ended. Nothing is asked of it before its source is attached, and nothing after a
detachment before the next attachment. It need not behave for that: what it answers does not matter.
-/
namespace ProtectedMedia
open scoped Computability

namespace PipelineCall

def adding : Language PipelineCall := {calls | ∃ mime, calls = [.addSource mime]}

def timing : Language PipelineCall := {calls | ∃ value, calls = [.setDuration value]}

/-- The calls of a source from an attachment to the next detachment. -/
def opening : Language PipelineCall :=
  (adding + timing)∗ * (1 + {[.endOfStream]}) * {[.reset]}

end PipelineCall

namespace MediaSource

/-- What a command shows of a source and its pipeline: that it was attached or detached, or that the
pipeline was called. -/
inductive Occurrence where
  | attached
  | detached
  | called (call : PipelineCall)
  deriving DecidableEq

def Occurrence.call? : Occurrence → Option PipelineCall
  | .called call => some call
  | _ => none

/-- An attachment comes before the calls of its command, a detachment behind them. -/
def occurrences (c : Command) (r : Except Failure Answer) (calls : List PipelineCall) :
    List Occurrence :=
  match c, r with
  | .attach _, .ok _ => .attached :: calls.map .called
  | .detach, .ok _ => calls.map .called ++ [.detached]
  | _, _ => calls.map .called

/-- An attachment, the calls that follow and the detachment. -/
def stay : Language Occurrence :=
  {[.attached]} * Language.map .called PipelineCall.opening * {[.detached]}

variable {κ : Type} [PipelineController κ]

/-- All that a run shows, in order. -/
def history (s : MediaSource κ) : List Command → List Occurrence
  | [] => []
  | c :: commands =>
      occurrences c (s.perform c).1 (s.callsOn c) ++ (s.perform c).2.history commands

@[simp] theorem call?_comp_called : Occurrence.call? ∘ Occurrence.called = some := rfl

theorem calls_occurrences (c : Command) (r : Except Failure Answer) (calls : List PipelineCall) :
    (occurrences c r calls).filterMap Occurrence.call? = calls := by
  unfold occurrences
  split <;> simp [List.filterMap_cons, Occurrence.call?]

theorem calls_history (s : MediaSource κ) (commands : List Command) :
    (s.history commands).filterMap Occurrence.call? = s.callsIn commands := by
  induction commands generalizing s with
  | nil => rfl
  | cons c commands ih => rw [history, List.filterMap_append, calls_occurrences, ih, callsIn_cons]

/-- What the history of a source looks like in each of its states. -/
inductive Underway : ReadyState → List Occurrence → Prop
  | closed {stays : List Occurrence} (hstays : stays ∈ stay∗) : Underway .closed stays
  | opened {stays : List Occurrence} {calls : List PipelineCall} (hstays : stays ∈ stay∗)
      (hcalls : calls ∈ (PipelineCall.adding + PipelineCall.timing)∗) :
      Underway .opened (stays ++ .attached :: calls.map .called)
  | ended {stays : List Occurrence} {calls : List PipelineCall} (hstays : stays ∈ stay∗)
      (hcalls : calls ∈ (PipelineCall.adding + PipelineCall.timing)∗) :
      Underway .ended (stays ++ .attached :: (calls.map .called ++ [.called .endOfStream]))

theorem mem_stay {calls : List PipelineCall}
    (h : calls ++ [PipelineCall.reset] ∈ PipelineCall.opening) :
    .attached :: calls.map .called ++ [.called .reset, .detached] ∈ stay := by
  have hcalls : (calls ++ [PipelineCall.reset]).map Occurrence.called ∈
      Language.map Occurrence.called PipelineCall.opening := Set.mem_image_of_mem _ h
  have hstay : [.attached] ++ (calls ++ [PipelineCall.reset]).map Occurrence.called ++ [.detached]
      ∈ stay :=
    Language.append_mem_mul
      (Language.append_mem_mul (Set.mem_singleton [Occurrence.attached]) hcalls)
      (Set.mem_singleton [Occurrence.detached])
  simpa using hstay

theorem mem_stay_of_fed {calls : List PipelineCall}
    (h : calls ∈ (PipelineCall.adding + PipelineCall.timing)∗) :
    .attached :: calls.map .called ++ [.called .reset, .detached] ∈ stay :=
  mem_stay (append_mem_without h (Set.mem_singleton [PipelineCall.reset]))

theorem mem_stay_of_ended {calls : List PipelineCall}
    (h : calls ∈ (PipelineCall.adding + PipelineCall.timing)∗) :
    .attached :: (calls.map .called ++ [.called .endOfStream]) ++ [.called .reset, .detached] ∈
      stay := by
  have hstay := mem_stay (append_mem_with h (Set.mem_singleton [PipelineCall.endOfStream])
    (Set.mem_singleton [PipelineCall.reset]))
  simpa using hstay

variable {word : List Occurrence} {state : ReadyState}

theorem Underway.attached (h : Underway .closed word) :
    Underway .opened (word ++ [.attached]) := by
  cases h with
  | closed hstays => exact .opened hstays (Language.nil_mem_kstar _)

theorem Underway.fed (h : Underway .opened word) {call : PipelineCall}
    (hcall : [call] ∈ PipelineCall.adding + PipelineCall.timing) :
    Underway .opened (word ++ [.called call]) := by
  cases h with
  | opened hstays hcalls =>
      have h := Underway.opened hstays (append_mem_rounds hcalls hcall)
      simpa using h

theorem Underway.endedStream (h : Underway .opened word) :
    Underway .ended (word ++ [.called .endOfStream]) := by
  cases h with
  | opened hstays hcalls => simpa using Underway.ended hstays hcalls

theorem Underway.detached (h : Underway state word) (hclosed : state ≠ .closed) :
    Underway .closed (word ++ [.called .reset, .detached]) := by
  cases h with
  | closed => exact absurd rfl hclosed
  | opened hstays hcalls =>
      rw [List.append_assoc]
      exact .closed (append_mem_rounds hstays (mem_stay_of_fed hcalls))
  | ended hstays hcalls =>
      rw [List.append_assoc]
      exact .closed (append_mem_rounds hstays (mem_stay_of_ended hcalls))

/-- In each state the stay of the moment can be completed. -/
theorem Underway.begins (h : Underway state word) : Begins stay word := by
  cases h with
  | closed hstays => exact begins_of_mem hstays
  | opened hstays hcalls => exact begins_append hstays _ (mem_stay_of_fed hcalls)
  | ended hstays hcalls => exact begins_append hstays _ (mem_stay_of_ended hcalls)

omit [PipelineController κ] in
theorem Underway.asked {s : MediaSource κ} (h : Underway s.readyState word)
    (hopen : s.readyState = .opened) (mime : String) (r : Except Failure Answer) :
    Underway s.readyState
      (word ++ occurrences (.addSourceBuffer mime) r (s.due (.addSourceBuffer mime))) := by
  have hdue : s.due (.addSourceBuffer mime) = [.addSource mime] := if_pos hopen
  rw [hopen] at h ⊢
  rw [hdue]
  exact h.fed (.inl ⟨mime, rfl⟩)

omit [PipelineController κ] in
theorem Underway.unmoved (h : Underway state word) {s : MediaSource κ} {c : Command}
    {e : Failure} (hdue : s.due c = []) :
    Underway state (word ++ occurrences c (.error e) (s.due c)) := by
  have hnothing : occurrences c (.error e) (s.due c) = [] := by
    rw [hdue]
    cases c <;> rfl
  rwa [hnothing, List.append_nil]

/-- A command takes the history from one state to the next. -/
theorem Underway.performs {s s' : MediaSource κ} {c : Command} {r : Except Failure Answer}
    (h : Underway s.readyState word) (hstep : Performs s c r s') :
    Underway s'.readyState (word ++ occurrences c r (s.due c)) := by
  cases hstep with
  | attached element hclosed =>
      rw [hclosed] at h
      exact h.attached
  | alreadyAttached | notImplemented => exact h.unmoved rfl
  | detached hclosed =>
      have hdue : s.due .detach = [.reset] := if_neg hclosed
      rw [hdue]
      exact h.detached hclosed
  | notAttached hclosed => exact h.unmoved (if_pos hclosed)
  | added mime type controller hopen => exact h.asked hopen mime _
  | notAdmitted mime e admission controller hopen => exact h.asked hopen mime _
  | wronglyAdmitted mime v type controller hopen => exact h.asked hopen mime _
  | addedWhileNotOpen mime hopen => exact h.unmoved (if_neg hopen)
  | updatingSet | eventsTaken =>
      change Underway s.readyState (word ++ [])
      rwa [List.append_nil]
  | ended hopen hidle =>
      have hdue : s.due (.endOfStream none) = [.endOfStream] := if_pos ⟨hopen, hidle, rfl⟩
      rw [hopen] at h
      rw [hdue]
      exact h.endedStream
  | notEnded error e hrefused => exact h.unmoved (due_of_notEnded hrefused)
  | durationSet value hnumber hopen hidle =>
      have hdue : s.due (.setDuration value) = [.setDuration value] :=
        if_pos ⟨hopen, hidle, hnumber⟩
      change Underway s.readyState _
      rw [hopen] at h ⊢
      rw [hdue]
      exact h.fed (.inr ⟨value, rfl⟩)
  | durationKept value e hrefused => exact h.unmoved (due_of_durationKept hrefused)

theorem Underway.after {s : MediaSource κ} (h : Underway s.readyState word)
    (commands : List Command) :
    Underway (s.after commands).readyState (word ++ s.history commands) := by
  induction commands generalizing s word with
  | nil => rwa [history, List.append_nil]
  | cons c commands ih =>
      have hnext := ih (h.performs (performs_perform s c))
      rw [history, callsOn_eq, ← List.append_assoc]
      exact hnext

theorem history_begins (url : String) (controller : κ) (commands : List Command) :
    Begins stay ((create url controller).history commands) := by
  have hstart : Underway (create url controller).readyState [] :=
    .closed (Language.nil_mem_kstar stay)
  exact (hstart.after commands).begins

/-- Whoever sees only the calls sees the openings of the pipeline. -/
theorem calls_of_mem_stay {word : List Occurrence} (h : word ∈ stay) :
    word.filterMap Occurrence.call? ∈ PipelineCall.opening := by
  obtain ⟨front, hfront, behind, hbehind, rfl⟩ := Language.mem_mul.mp h
  obtain ⟨first, hfirst, called, hcalled, rfl⟩ := Language.mem_mul.mp hfront
  obtain ⟨calls, (hcalls : calls ∈ PipelineCall.opening), rfl⟩ := hcalled
  cases hfirst
  cases hbehind
  simpa [List.filterMap_cons, Occurrence.call?] using hcalls

/-! ### What has to hold for a call -/

/-- A command that makes a call needs every registered buffer at rest, unless it asks for a source or
resets the pipeline; a duration that the pipeline is told is a number. -/
theorem called_of_mem {s : MediaSource κ} {c : Command} {call : PipelineCall}
    (h : call ∈ s.callsOn c) :
    (∃ mime, call = .addSource mime) ∨ call = .reset ∨
      s.anyUpdating = false ∧
        (call = .endOfStream ∨ ∃ value, call = .setDuration value ∧ value.isNaN = false) := by
  rw [callsOn_eq] at h
  cases c with
  | detach =>
      rw [due, List.mem_ite_nil_left, List.mem_singleton] at h
      exact .inr (.inl h.2)
  | addSourceBuffer mime =>
      rw [due, List.mem_ite_nil_right, List.mem_singleton] at h
      exact .inl ⟨mime, h.2⟩
  | endOfStream error =>
      rw [due, List.mem_ite_nil_right, List.mem_singleton] at h
      exact .inr (.inr ⟨h.1.2.1, .inl h.2⟩)
  | setDuration value =>
      rw [due, List.mem_ite_nil_right, List.mem_singleton] at h
      exact .inr (.inr ⟨h.1.2.1, .inr ⟨value, h.2, h.1.2.2⟩⟩)
  | attach | setUpdating | takeEvents | member => cases h

/-- Whatever the pipeline answers, the calls that it receives in a run begin a sequence of openings,
each of them between an attachment and the following detachment. Durations that it is told are
numbers; and while a registered buffer is updating it is told neither a duration nor the end. -/
theorem calls_in_order (url : String) (controller : κ) (commands : List Command) :
    Begins PipelineCall.opening ((create url controller).callsIn commands) ∧
      Begins stay ((create url controller).history commands) ∧
      ((create url controller).history commands).filterMap Occurrence.call? =
        (create url controller).callsIn commands ∧
      ∀ c, ∀ call ∈ ((create url controller).after commands).callsOn c,
        (∀ value, call = .setDuration value → value.isNaN = false) ∧
        (call = .endOfStream ∨ (∃ value, call = .setDuration value) →
          ∀ entry ∈ ((create url controller).after commands).registered,
            ∃ b, ((create url controller).after commands).buffers[entry.2]? = some b ∧
              b.type = entry.1 ∧ b.updating = false) := by
  refine ⟨?_, history_begins url controller commands, calls_history _ commands, ?_⟩
  · rw [← calls_history]
    exact (history_begins url controller commands).filterMap _ fun _ => calls_of_mem_stay
  · intro c call hcall
    have hplaced := buffersPlaced_after url controller commands
    rcases called_of_mem hcall with ⟨mime, rfl⟩ | rfl | ⟨hidle, hend | ⟨value, hvalue, hnumber⟩⟩
    · simp
    · simp
    · exact ⟨by simp [hend], fun _ _ hentry => hplaced.at_rest hidle hentry⟩
    · refine ⟨?_, fun _ _ hentry => hplaced.at_rest hidle hentry⟩
      rintro other rfl
      cases hvalue
      exact hnumber

/-- A source whose pipeline admits a source of no known type and then, again and again, videos. -/
def unruly : MediaSource ScriptedPipeline :=
  create "blob:a" ⟨.admitted .unknown, [.admitted .video], .nan, []⟩

/-- The source has one buffer, and two admissions that were broken promises lie behind it. -/
def unrulyStart : List Command :=
  [.detach, .attach 0, .addSourceBuffer "video/mp4", .addSourceBuffer "video/mp4",
    .addSourceBuffer "video/mp4", .setUpdating 0 true, .endOfStream none, .setUpdating 0 false]

theorem unruly_calls_in_order :
    unruly.callsIn (unrulyStart ++ [.endOfStream none, .addSourceBuffer "audio/mp4", .detach]) =
        [.addSource "video/mp4", .addSource "video/mp4", .addSource "video/mp4", .endOfStream,
          .reset] ∧
      Begins PipelineCall.opening
        (unruly.callsIn
          (unrulyStart ++ [.endOfStream none, .addSourceBuffer "audio/mp4", .detach])) ∧
      .endOfStream ∈ (unruly.after unrulyStart).callsOn (.endOfStream none) ∧
      (.video, 0) ∈ (unruly.after unrulyStart).registered ∧
      ∃ b, (unruly.after unrulyStart).buffers[0]? = some b ∧ b.type = .video ∧
        b.updating = false := by
  have hcall : .endOfStream ∈ (unruly.after unrulyStart).callsOn (.endOfStream none) := by
    decide
  have hentry : (.video, 0) ∈ (unruly.after unrulyStart).registered := by decide
  have hrest := (calls_in_order "blob:a" _ unrulyStart).2.2.2 _ _ hcall
  exact ⟨by decide, (calls_in_order "blob:a" _ _).1, hcall, hentry,
    hrest.2 (.inl rfl) _ hentry⟩

end MediaSource

end ProtectedMedia
