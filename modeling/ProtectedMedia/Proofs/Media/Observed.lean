import ProtectedMedia.Proofs.Media.Steps

/-!
# What a media source asks of its pipeline

An observer stands between a source and its pipeline. It writes every call down and passes it on, so
that the source notices nothing. What it has written after a command are the calls of that command,
and they turn out to depend on the source alone: the answers of the pipeline have no part in them.
-/
namespace ProtectedMedia

/-- Pipelines of the two kinds answer alike, and go on doing so. -/
structure PipelineController.Carries {α β : Type} [PipelineController α] [PipelineController β]
    (f : α → β) : Prop where
  addSource : ∀ p mime, PipelineController.addSource (f p) mime =
    ((PipelineController.addSource p mime).1, f (PipelineController.addSource p mime).2)
  endOfStream : ∀ p, PipelineController.endOfStream (f p) = f (PipelineController.endOfStream p)
  duration : ∀ p, PipelineController.duration (f p) = PipelineController.duration p
  setDuration : ∀ p d,
    PipelineController.setDuration (f p) d = f (PipelineController.setDuration p d)
  reset : ∀ p, PipelineController.reset (f p) = f (PipelineController.reset p)

/-- A pipeline and what it was called for so far, latest last. -/
structure Observed (κ : Type) where
  pipeline : κ
  calls : List PipelineCall

namespace Observed
variable {κ : Type} [PipelineController κ]

instance : PipelineController (Observed κ) where
  addSource p mime :=
    ((PipelineController.addSource p.pipeline mime).1,
      ⟨(PipelineController.addSource p.pipeline mime).2, p.calls ++ [.addSource mime]⟩)
  endOfStream p := ⟨PipelineController.endOfStream p.pipeline, p.calls ++ [.endOfStream]⟩
  duration p := PipelineController.duration p.pipeline
  setDuration p d := ⟨PipelineController.setDuration p.pipeline d, p.calls ++ [.setDuration d]⟩
  reset p := ⟨PipelineController.reset p.pipeline, p.calls ++ [.reset]⟩

/-- The same pipeline with calls from before. -/
def behind (calls : List PipelineCall) (p : Observed κ) : Observed κ :=
  ⟨p.pipeline, calls ++ p.calls⟩

theorem carries_pipeline : PipelineController.Carries (pipeline : Observed κ → κ) :=
  ⟨fun _ _ => rfl, fun _ => rfl, fun _ => rfl, fun _ _ => rfl, fun _ => rfl⟩

theorem carries_behind (calls : List PipelineCall) :
    PipelineController.Carries (behind (κ := κ) calls) := by
  constructor <;> intros <;> simp [behind, PipelineController.addSource,
    PipelineController.endOfStream, PipelineController.duration, PipelineController.setDuration,
    PipelineController.reset]

end Observed

namespace MediaSource

/-- The source with another pipeline in place of its own. -/
def map {α β : Type} (f : α → β) (s : MediaSource α) : MediaSource β :=
  ⟨s.readyState, s.url, f s.controller, s.buffers, s.registered, s.element, s.events⟩

section
variable {α β : Type} {f : α → β}

theorem check_map (s : MediaSource α) (operation : Operation) :
    (s.map f).check operation = s.check operation := rfl

theorem registerBuffer_map (s : MediaSource α) (type : StreamType) :
    (s.map f).registerBuffer type =
      ((s.registerBuffer type).1, (s.registerBuffer type).2.map f) := by
  unfold registerBuffer
  split
  · rfl
  · change (if (s.sourceBuffer? type).isSome then _ else _) = _
    split <;> rfl

variable [PipelineController α] [PipelineController β]

theorem addSourceBuffer_map (h : PipelineController.Carries f) (s : MediaSource α)
    (mime : String) :
    (s.map f).addSourceBuffer mime =
      ((s.addSourceBuffer mime).1, (s.addSourceBuffer mime).2.map f) := by
  unfold addSourceBuffer
  rw [check_map]
  split
  · rfl
  · have hasked := h.addSource s.controller mime
    change PipelineController.addSource (s.map f).controller mime = _ at hasked
    rw [hasked]
    obtain ⟨admission, controller⟩ := PipelineController.addSource s.controller mime
    cases admission with
    | unsupported => rfl
    | full => rfl
    | admitted type => exact registerBuffer_map { s with controller := controller } type

/-- The source does not notice which of two pipelines it has that answer alike. -/
theorem perform_map (h : PipelineController.Carries f) (s : MediaSource α) (c : Command) :
    (s.map f).perform c = ((s.perform c).1, (s.perform c).2.map f) := by
  cases c with
  | attach element =>
      by_cases hclosed : s.readyState = .closed
      · simp [perform, attach, hclosed, map]
      · simp [perform, attach, hclosed, map]
  | detach =>
      by_cases hclosed : s.readyState = .closed
      · simp [perform, detach, hclosed, map]
      · simp [perform, detach, hclosed, map, h.reset]
  | addSourceBuffer mime => exact addSourceBuffer_map h s mime
  | setUpdating buffer updating => rfl
  | endOfStream error =>
      simp only [perform, endOfStream, check_map]
      cases s.check .endOfStream with
      | error e => rfl
      | ok =>
          cases error with
          | none => simp [map, h.endOfStream]
          | some error => rfl
  | setDuration value =>
      simp only [perform, setDuration, check_map]
      cases value.isNaN with
      | true => rfl
      | false =>
          cases s.check .setDuration with
          | error e => rfl
          | ok => simp [map, h.setDuration]
  | takeEvents => rfl
  | member name => rfl

theorem after_map (h : PipelineController.Carries f) (s : MediaSource α)
    (commands : List Command) : (s.map f).after commands = (s.after commands).map f := by
  induction commands generalizing s with
  | nil => rfl
  | cons c commands ih =>
      rw [after_cons, perform_map h, ih]
      rfl

end

section
variable {κ : Type} [PipelineController κ]

/-- The source with an observer that has not written anything yet. -/
def observed (s : MediaSource κ) : MediaSource (Observed κ) := s.map (⟨·, []⟩)

/-- The calls that the pipeline receives on a command. -/
def callsOn (s : MediaSource κ) (c : Command) : List PipelineCall :=
  (s.observed.perform c).2.controller.calls

/-- The calls that the pipeline receives in a run. -/
def callsIn (s : MediaSource κ) (commands : List Command) : List PipelineCall :=
  (s.observed.after commands).controller.calls

theorem observed_perform (s : MediaSource κ) (c : Command) :
    s.observed.perform c =
      ((s.perform c).1, (s.perform c).2.observed.map (Observed.behind (s.callsOn c))) := by
  have h := perform_map (Observed.carries_pipeline (κ := κ)) s.observed c
  have hs : s.observed.map Observed.pipeline = s := rfl
  rw [hs] at h
  rw [h]
  simp [observed, map, Observed.behind, callsOn]

theorem callsIn_cons (s : MediaSource κ) (c : Command) (commands : List Command) :
    s.callsIn (c :: commands) = s.callsOn c ++ (s.perform c).2.callsIn commands := by
  rw [callsIn, after_cons, observed_perform, after_map (Observed.carries_behind _)]
  rfl

/-- The calls that a command is due to make. -/
def due (s : MediaSource κ) : Command → List PipelineCall
  | .detach => if s.readyState = .closed then [] else [.reset]
  | .addSourceBuffer mime => if s.readyState = .opened then [.addSource mime] else []
  | .endOfStream error =>
      if s.readyState = .opened ∧ s.anyUpdating = false ∧ error = none then [.endOfStream] else []
  | .setDuration value =>
      if s.readyState = .opened ∧ s.anyUpdating = false ∧ value.isNaN = false then
        [.setDuration value]
      else []
  | _ => []

omit [PipelineController κ] in
theorem due_of_notEnded {s : MediaSource κ} {error : Option EndOfStreamError} {e : ScriptError}
    (hrefused : s.readyState ≠ .opened ∧ e = .notOpen .endOfStream ∨
      s.readyState = .opened ∧ s.anyUpdating = true ∧ e = .updating .endOfStream ∨
      s.readyState = .opened ∧ s.anyUpdating = false ∧ error.isSome ∧ e = .endWithError) :
    s.due (.endOfStream error) = [] := by
  refine if_neg fun ⟨hopen, hidle, hnone⟩ => ?_
  rcases hrefused with ⟨hclosed, -⟩ | ⟨-, hupdating, -⟩ | ⟨-, -, hsome, -⟩
  · exact hclosed hopen
  · simp [hidle] at hupdating
  · simp [hnone] at hsome

omit [PipelineController κ] in
theorem due_of_durationKept {s : MediaSource κ} {value : Binary64} {e : ScriptError}
    (hrefused : value.isNaN = true ∧ e = .durationNaN ∨
      value.isNaN = false ∧ s.readyState ≠ .opened ∧ e = .notOpen .setDuration ∨
      value.isNaN = false ∧ s.readyState = .opened ∧ s.anyUpdating = true ∧
        e = .updating .setDuration) :
    s.due (.setDuration value) = [] := by
  refine if_neg fun ⟨hopen, hidle, hnumber⟩ => ?_
  rcases hrefused with ⟨hnan, -⟩ | ⟨-, hclosed, -⟩ | ⟨-, -, hupdating, -⟩
  · simp [hnumber] at hnan
  · exact hclosed hopen
  · simp [hidle] at hupdating

/-- The observer writes the question down, whatever the answer is. -/
theorem noted_of_asked {s : MediaSource κ} {mime : String} {admission : Admission}
    {controller : Observed κ}
    (h : PipelineController.addSource s.observed.controller mime = (admission, controller)) :
    controller.calls = [.addSource mime] :=
  (congrArg (fun answer => answer.2.calls) h).symm

/-- What a command asks of the pipeline does not depend on what the pipeline answers. -/
theorem callsOn_eq (s : MediaSource κ) (c : Command) : s.callsOn c = s.due c := by
  have hstep := performs_perform s.observed c
  unfold callsOn
  generalize (s.observed.perform c).1 = r at hstep
  generalize (s.observed.perform c).2 = s' at hstep
  cases hstep with
  | attached | alreadyAttached | updatingSet | eventsTaken | notImplemented => rfl
  | detached hclosed => exact (if_neg hclosed).symm
  | notAttached hclosed => exact (if_pos hclosed).symm
  | added mime type controller hopen hasked =>
      exact (noted_of_asked hasked).trans (if_pos hopen).symm
  | notAdmitted mime e admission controller hopen hasked =>
      exact (noted_of_asked hasked).trans (if_pos hopen).symm
  | wronglyAdmitted mime v type controller hopen hasked =>
      exact (noted_of_asked hasked).trans (if_pos hopen).symm
  | addedWhileNotOpen mime hopen => exact (if_neg hopen).symm
  | ended hopen hidle => exact (if_pos ⟨hopen, hidle, rfl⟩).symm
  | notEnded error e hrefused => exact (due_of_notEnded (s := s) hrefused).symm
  | durationSet value hnumber hopen hidle => exact (if_pos ⟨hopen, hidle, hnumber⟩).symm
  | durationKept value e hrefused => exact (due_of_durationKept (s := s) hrefused).symm

end

end MediaSource

end ProtectedMedia
