import ProtectedMedia.Proofs.Media.ContentType
import ProtectedMedia.Proofs.Media.Steps

/-!
# A media source and its pipeline

A source and the pipeline that it drives both keep track of the stream types and of the end of the
stream. With a basic pipeline the two never disagree, whatever is asked of the source in whatever
order and whether it succeeds or not. So the pipeline never breaks a promise: what is left are the
mistakes of a caller who attaches twice or detaches what is not attached.
-/
namespace ProtectedMedia

namespace BasicPipeline

/-- A pipeline admits a type that it does not have yet, and has it then. -/
theorem addSource_admitted {p p' : BasicPipeline} {mime : String} {type : StreamType}
    (h : p.addSource mime = (.admitted type, p')) :
    type ≠ .unknown ∧ type ∉ p.sources ∧ p' = { p with sources := type :: p.sources } := by
  rw [addSource] at h
  split at h
  · cases h
  · rename_i t hparse
    split at h
    · cases h
    · rename_i hfirst
      cases h
      refine ⟨?_, ?_, rfl⟩
      · rcases ContentType.stream_of_parse hparse with hstream | hstream
        · rw [hstream]
          exact nofun
        · rw [hstream]
          exact nofun
      · simpa [hasSource] using hfirst

/-- A pipeline that does not admit a source stays as it is. -/
theorem addSource_refused {p p' : BasicPipeline} {mime : String} {admission : Admission}
    (h : p.addSource mime = (admission, p')) (hrefused : ∀ type, admission ≠ .admitted type) :
    p' = p := by
  rw [addSource] at h
  split at h
  · cases h
    rfl
  · split at h
    · cases h
      rfl
    · cases h
      exact absurd rfl (hrefused _)

end BasicPipeline

namespace MediaSource

/-- A basic pipeline that was asked in vain is as it was. -/
theorem controller_of_notAdmitted {s : MediaSource BasicPipeline} {mime : String} {e : ScriptError}
    {admission : Admission} {controller : BasicPipeline}
    (hasked : PipelineController.addSource s.controller mime = (admission, controller))
    (hrefused : admission = .unsupported ∧ e = .unsupportedType mime ∨
      admission = .full ∧ e = .noMoreBuffers) :
    controller = s.controller := by
  refine BasicPipeline.addSource_refused hasked fun type heq => ?_
  rcases hrefused with ⟨h, -⟩ | ⟨h, -⟩ <;> rw [h] at heq <;> cases heq

/-- What a source and its pipeline know about the same things agrees. -/
structure Agrees (s : MediaSource BasicPipeline) : Prop where
  types : ∀ type, type ∈ s.registered.map Prod.fst ↔ s.controller.hasSource type = true
  once : (s.registered.map Prod.fst).Nodup
  known : StreamType.unknown ∉ s.registered.map Prod.fst
  placed : ∀ entry ∈ s.registered, ∃ b, s.buffers[entry.2]? = some b ∧ b.type = entry.1
  ended : s.controller.ended = true ↔ s.readyState = .ended
  element : s.readyState = .closed ↔ s.element = none
  closed : s.readyState = .closed →
    s.registered = [] ∧ s.duration.isNaN = true ∧ s.controller.ended = false

theorem agrees_create (url : String) : (create url BasicPipeline.initial).Agrees where
  types type := by simp [create, BasicPipeline.hasSource, BasicPipeline.initial]
  once := List.nodup_nil
  known := List.not_mem_nil
  placed := nofun
  ended := by simp [create, BasicPipeline.initial]
  element := by simp [create]
  closed _ := ⟨rfl, show Binary64.nan.isNaN = true from rfl, rfl⟩

variable {s : MediaSource BasicPipeline}

theorem Agrees.attached (h : s.Agrees) (hclosed : s.readyState = .closed) (element : ℕ) :
    Agrees { s with
      readyState := .opened
      element := some element
      events := s.events ++ [.sourceOpen] } where
  types := h.types
  once := h.once
  known := h.known
  placed := h.placed
  ended := by simp [(h.closed hclosed).2.2]
  element := by simp
  closed := nofun

theorem Agrees.detached (buffers : List SourceBuffer) (events : List LifecycleEvent) :
    Agrees { s with
      readyState := .closed
      element := none
      controller := PipelineController.reset s.controller
      buffers := buffers
      registered := []
      events := events } :=
  { agrees_create s.url with placed := nofun }

/-- A new buffer has a type that neither the source nor the pipeline had before. -/
theorem Agrees.added (h : s.Agrees) {type : StreamType} {controller : BasicPipeline}
    (hopen : s.readyState = .opened) (hknown : type ≠ .unknown)
    (hfirst : type ∉ s.registered.map Prod.fst)
    (hcontroller : controller = { s.controller with sources := type :: s.controller.sources }) :
    Agrees { s with
      controller := controller
      buffers := s.buffers ++ [⟨type, false, true⟩]
      registered := s.registered ++ [(type, s.buffers.length)] } := by
  subst hcontroller
  constructor
  · intro other
    have hother := h.types other
    rw [BasicPipeline.hasSource, List.contains_iff_mem] at hother ⊢
    rw [List.map_append, List.mem_append, List.mem_cons, hother, or_comm]
    exact or_congr_left List.mem_singleton
  · exact nodup_types_concat h.once hfirst _
  · rw [List.map_append, List.mem_append, not_or]
    exact ⟨h.known, fun hnew => hknown (List.mem_singleton.mp hnew).symm⟩
  · exact BuffersPlaced.added h.placed type _
  · exact h.ended
  · exact h.element
  · intro hclosed
    rw [hopen] at hclosed
    cases hclosed

theorem Agrees.updatingSet (h : s.Agrees) (buffer : ℕ) (updating : Bool) :
    (s.setUpdating buffer updating).Agrees where
  types := h.types
  once := h.once
  known := h.known
  placed := BuffersPlaced.updatingSet h.placed buffer updating
  ended := h.ended
  element := h.element
  closed := h.closed

theorem Agrees.endedStream (h : s.Agrees) (hopen : s.readyState = .opened) :
    Agrees { s with
      readyState := .ended
      controller := PipelineController.endOfStream s.controller
      events := s.events ++ [.sourceEnded] } where
  types := h.types
  once := h.once
  known := h.known
  placed := h.placed
  ended := by simp [PipelineController.endOfStream]
  element := by
    have helement := h.element
    rw [hopen] at helement
    simpa using helement
  closed := nofun

theorem Agrees.durationSet (h : s.Agrees) (hopen : s.readyState = .opened) (value : Binary64) :
    Agrees { s with controller := PipelineController.setDuration s.controller value } where
  types := h.types
  once := h.once
  known := h.known
  placed := h.placed
  ended := h.ended
  element := h.element
  closed hclosed := by
    rw [hopen] at hclosed
    cases hclosed

/-- The pipeline admits only known types that no registered buffer has. -/
theorem Agrees.admitted (h : s.Agrees) {mime : String} {type : StreamType}
    {controller : BasicPipeline}
    (hasked : PipelineController.addSource s.controller mime = (.admitted type, controller)) :
    type ≠ .unknown ∧ type ∉ s.registered.map Prod.fst := by
  obtain ⟨hknown, hfirst, -⟩ := BasicPipeline.addSource_admitted hasked
  refine ⟨hknown, fun hmem => hfirst ?_⟩
  exact List.contains_iff_mem.mp ((h.types type).mp hmem)

/-- So only a caller can break a promise, and only by attaching what is attached or by detaching what
is not. -/
theorem Agrees.violation_iff (h : s.Agrees) {c : Command} {v : Violation} :
    (s.perform c).1 = .error (.violation v) ↔
      (∃ element, c = .attach element) ∧ s.readyState ≠ .closed ∧ v = .alreadyAttached ∨
        c = .detach ∧ s.readyState = .closed ∧ v = .notAttached := by
  constructor
  · intro hviolation
    have hstep := performs_perform s c
    rw [hviolation] at hstep
    generalize (s.perform c).2 = s' at hstep
    cases hstep with
    | alreadyAttached element hclosed => exact .inl ⟨⟨element, rfl⟩, hclosed, rfl⟩
    | notAttached hclosed => exact .inr ⟨rfl, hclosed, rfl⟩
    | wronglyAdmitted mime _ type controller hopen hasked hbroken =>
        obtain ⟨hknown, hfirst⟩ := h.admitted hasked
        rcases hbroken with ⟨hunknown, -⟩ | ⟨-, hsecond, -⟩
        · exact absurd hunknown hknown
        · exact absurd hsecond hfirst
  · rintro (⟨⟨element, rfl⟩, hclosed, rfl⟩ | ⟨rfl, hclosed, rfl⟩)
    · rw [perform, attach, if_pos hclosed]
    · rw [perform, detach, if_pos hclosed]

/-- Whatever a command does, source and pipeline agree afterwards. -/
theorem Agrees.performs (h : s.Agrees) {c : Command} {r : Except Failure Answer}
    {s' : MediaSource BasicPipeline} (hstep : Performs s c r s') : s'.Agrees := by
  cases hstep with
  | attached element hclosed => exact h.attached hclosed element
  | alreadyAttached => exact h
  | detached => exact Agrees.detached _ _
  | notAttached => exact h
  | added mime type controller hopen hasked hknown hfirst =>
      exact h.added hopen hknown hfirst (BasicPipeline.addSource_admitted hasked).2.2
  | notAdmitted mime e admission controller hopen hasked hrefused =>
      rw [controller_of_notAdmitted hasked hrefused]
      exact h
  | wronglyAdmitted mime v type controller hopen hasked hbroken =>
      obtain ⟨hknown, hfirst⟩ := h.admitted hasked
      rcases hbroken with ⟨hunknown, -⟩ | ⟨-, hsecond, -⟩
      · exact absurd hunknown hknown
      · exact absurd hsecond hfirst
  | addedWhileNotOpen => exact h
  | updatingSet buffer updating => exact h.updatingSet buffer updating
  | ended hopen => exact h.endedStream hopen
  | notEnded => exact h
  | durationSet value hnumber hopen => exact h.durationSet hopen value
  | durationKept => exact h
  | eventsTaken => exact ⟨h.types, h.once, h.known, h.placed, h.ended, h.element, h.closed⟩
  | notImplemented => exact h

/-- What a new source with a basic pipeline has become after commands. -/
def reached (url : String) (commands : List Command) : MediaSource BasicPipeline :=
  (create url BasicPipeline.initial).after commands

/-- After any commands, source and pipeline agree, and the only promises that the next command can
break are those of a caller. -/
theorem agrees_reached (url : String) (commands : List Command) :
    (reached url commands).Agrees ∧
      ∀ c v, ((reached url commands).perform c).1 = .error (.violation v) ↔
        (∃ element, c = .attach element) ∧ (reached url commands).readyState ≠ .closed ∧
            v = .alreadyAttached ∨
          c = .detach ∧ (reached url commands).readyState = .closed ∧ v = .notAttached := by
  have h : (reached url commands).Agrees :=
    after_induction (agrees_create url) (fun _ _ _ _ hstep h => h.performs hstep) commands
  exact ⟨h, fun c v => h.violation_iff⟩

example : reached "u" [.attach 0, .addSourceBuffer "audio/mp4", .addSourceBuffer "Audio/WebM",
    .attach 1, .setUpdating 0 true, .endOfStream none, .setUpdating 0 false, .endOfStream none] =
    ⟨.ended, "u", ⟨[.audio], .nan, true⟩, [⟨.audio, false, true⟩], [(.audio, 0)], some 0,
      [.sourceOpen, .sourceEnded]⟩ := by
  decide

end MediaSource

end ProtectedMedia
