import ProtectedMedia.Proofs.Media.Lifecycle
import ProtectedMedia.Proofs.Media.Observed
import ProtectedMedia.Proofs.Media.Sessions

/-!
# Failed commands

A command that fails, be it with an error for scripts or because a promise was broken, has not done
anything: its source is as it was, and so is everything else in the session. The pipeline is not even
called, unless the source was open and asked it for a source, which the pipeline refused or should
have refused. A basic pipeline that was asked is as it was, too.
-/
namespace ProtectedMedia

namespace MediaSource

section
variable {κ : Type} [PipelineController κ]

/-- What a failed command leaves of a source. -/
structure Refused (s : MediaSource κ) (c : Command) (s' : MediaSource κ) : Prop where
  /-- Nothing but the pipeline can have changed. -/
  same : s' = { s with controller := s'.controller }
  unasked : (∀ mime, c = .addSourceBuffer mime → s.check .addSourceBuffer ≠ .ok ()) →
    s.callsOn c = [] ∧ s'.controller = s.controller
  asked : ∀ mime, c = .addSourceBuffer mime → s.check .addSourceBuffer = .ok () →
    s.callsOn c = [.addSource mime] ∧
      s'.controller = (PipelineController.addSource s.controller mime).2

variable {s s' : MediaSource κ} {c : Command} {e : Failure}

theorem refused_of_due (hdue : s.due c = [])
    (hunasked : ∀ mime, c = .addSourceBuffer mime → s.check .addSourceBuffer ≠ .ok ()) :
    s.Refused c s where
  same := rfl
  unasked _ := ⟨(callsOn_eq s c).trans hdue, rfl⟩
  asked mime hc hcheck := absurd hcheck (hunasked mime hc)

theorem refused_of_asked {mime : String} {admission : Admission} {controller : κ}
    (hopen : s.readyState = .opened)
    (hasked : PipelineController.addSource s.controller mime = (admission, controller)) :
    s.Refused (.addSourceBuffer mime) { s with controller := controller } where
  same := rfl
  unasked hunasked := absurd (check_addSourceBuffer hopen) (hunasked mime rfl)
  asked mime' hc _ := by
    cases hc
    refine ⟨(callsOn_eq s _).trans (if_pos hopen), ?_⟩
    rw [hasked]

theorem Performs.refused (hstep : Performs s c (.error e) s') : s.Refused c s' := by
  cases hstep with
  | alreadyAttached | notImplemented => exact refused_of_due rfl nofun
  | notAttached hclosed => exact refused_of_due (if_pos hclosed) nofun
  | notAdmitted mime e admission controller hopen hasked => exact refused_of_asked hopen hasked
  | wronglyAdmitted mime v type controller hopen hasked => exact refused_of_asked hopen hasked
  | addedWhileNotOpen mime hopen =>
      refine refused_of_due (if_neg hopen) fun _ _ hcheck => ?_
      rw [check_of_not_open _ hopen] at hcheck
      cases hcheck
  | notEnded error e hrefused => exact refused_of_due (due_of_notEnded hrefused) nofun
  | durationKept value e hrefused => exact refused_of_due (due_of_durationKept hrefused) nofun

end

/-! ### Basic pipelines -/

/-- The pipeline has a source of every type that is registered. -/
def TypesAdmitted (s : MediaSource BasicPipeline) : Prop :=
  ∀ type ∈ s.registered.map Prod.fst, type ∈ s.controller.sources

variable {s s' : MediaSource BasicPipeline} {c : Command} {r : Except Failure Answer} {e : Failure}

theorem TypesAdmitted.performs (h : s.TypesAdmitted) (hstep : Performs s c r s') :
    s'.TypesAdmitted := by
  cases hstep with
  | detached hclosed => exact fun _ hmem => absurd hmem List.not_mem_nil
  | added mime type controller hopen hasked hknown hfirst =>
      obtain ⟨-, -, rfl⟩ := BasicPipeline.addSource_admitted hasked
      intro other hmem
      rw [List.map_append, List.mem_append] at hmem
      rcases hmem with hmem | hmem
      · exact List.mem_cons_of_mem _ (h other hmem)
      · rw [List.mem_singleton.mp hmem]
        exact List.mem_cons_self
  | notAdmitted mime e admission controller hopen hasked hrefused =>
      rw [controller_of_notAdmitted hasked hrefused]
      exact h
  | wronglyAdmitted mime v type controller hopen hasked =>
      obtain ⟨-, -, rfl⟩ := BasicPipeline.addSource_admitted hasked
      exact fun other hmem => List.mem_cons_of_mem _ (h other hmem)
  | _ => exact h

theorem typesAdmitted_after (url : String) (controller : BasicPipeline) (commands : List Command) :
    ((create url controller).after commands).TypesAdmitted :=
  after_induction (P := TypesAdmitted) (fun _ hmem => absurd hmem List.not_mem_nil)
    (fun _ _ _ _ hstep h => h.performs hstep) commands

/-- A basic pipeline keeps its promises, and what it refuses leaves no trace in it. -/
theorem TypesAdmitted.failed (h : s.TypesAdmitted) (hstep : Performs s c (.error e) s') :
    s' = s := by
  cases hstep with
  | notAdmitted mime e admission controller hopen hasked hrefused =>
      rw [controller_of_notAdmitted hasked hrefused]
  | wronglyAdmitted mime v type controller hopen hasked hbroken =>
      obtain ⟨hknown, hfirst, -⟩ := BasicPipeline.addSource_admitted hasked
      rcases hbroken with ⟨hunknown, -⟩ | ⟨-, hsecond, -⟩
      · exact absurd hunknown hknown
      · exact absurd (h type hsecond) hfirst
  | _ => rfl

end MediaSource

/-! ### Failed commands in a session -/

namespace Session
open MediaSource

section
variable {β : Type} [PipelineController β]

theorem carries_inl :
    PipelineController.Carries (Sum.inl : BasicPipeline → BasicPipeline ⊕ β) :=
  ⟨fun _ _ => rfl, fun _ => rfl, fun _ => rfl, fun _ _ => rfl, fun _ => rfl⟩

theorem carries_inr : PipelineController.Carries (Sum.inr : β → BasicPipeline ⊕ β) :=
  ⟨fun _ _ => rfl, fun _ => rfl, fun _ => rfl, fun _ _ => rfl, fun _ => rfl⟩

/-- Among others, too, a source with a basic pipeline has registered only what was admitted. -/
theorem exists_typesAdmitted {source : MediaSource (BasicPipeline ⊕ β)} (h : Grown source)
    {p : BasicPipeline} (hp : source.controller = .inl p) :
    ∃ t : MediaSource BasicPipeline, source = t.map .inl ∧ t.TypesAdmitted := by
  obtain ⟨url, controller, commands, rfl⟩ := h
  cases controller with
  | inl q =>
      refine ⟨(create url q).after commands, ?_, typesAdmitted_after url q commands⟩
      exact after_map carries_inl (create url q) commands
  | inr q =>
      have hother := after_map (carries_inr (β := β)) (create url q) commands
      change (create url (Sum.inr q : BasicPipeline ⊕ β)).after commands = _ at hother
      rw [hother] at hp
      cases hp

end

variable {κ : Type} [PipelineController κ] {s : Session κ} {n : ℕ} {c : Command}
  {e : MediaSource.Failure}

/-- A failure of a command is one of the source that the command is for. -/
theorem command_failed (h : (s.command n c).1 = .error (.source e)) :
    ∃ source, s.source? n = some source ∧ (source.perform c).1 = .error e ∧
      (s.command n c).2 = s.setSource n (source.perform c).2 := by
  cases hsource : s.source? n with
  | none =>
      rw [command_unavailable hsource] at h
      cases h
  | some source =>
      rw [command_eq hsource] at h ⊢
      have hfailed := passOn_eq_error h
      refine ⟨source, rfl, hfailed, ?_⟩
      simp [hfailed, handedOut, setSource]

/-- A command of a source that fails leaves the session as it is, except that the pipeline of the
source may have been asked for a source; a basic pipeline is left as it is even then. -/
theorem failure_changes_nothing :
    (∀ (κ : Type) [PipelineController κ] (s : Session κ) (n : ℕ) (c : Command)
        (e : MediaSource.Failure), (s.command n c).1 = .error (.source e) →
      ∃ source source', s.source? n = some source ∧ source.Refused c source' ∧
        (s.command n c).2 = s.setSource n source' ∧
        (s.command n c).2.source? n = some source') ∧
    ∀ (β : Type) [PipelineController β] (requests : List (Request (BasicPipeline ⊕ β))) (n : ℕ)
        (c : Command) (e : MediaSource.Failure) (source : MediaSource (BasicPipeline ⊕ β))
        (p : BasicPipeline), (empty.after requests).source? n = some source →
      source.controller = .inl p → ((empty.after requests).command n c).1 = .error (.source e) →
        ((empty.after requests).command n c).2 = empty.after requests := by
  constructor
  · intro κ _ s n c e h
    obtain ⟨source, hsource, hfailed, hcommand⟩ := command_failed h
    have hstep := performs_perform source c
    rw [hfailed] at hstep
    refine ⟨source, _, hsource, hstep.refused, hcommand, ?_⟩
    rw [hcommand, source?_eq_some, getElem?_setSource, source?_eq_some.mp hsource, if_pos rfl]
    rfl
  · intro β _ requests n c e source p hsource hp h
    obtain ⟨source', hsource', hfailed, hcommand⟩ := command_failed h
    cases hsource.symm.trans hsource'
    have hgrown := grown_after requests (s := empty) (by simp [empty]) n _
      (source?_eq_some.mp hsource)
    obtain ⟨t, rfl, ht⟩ := exists_typesAdmitted hgrown hp
    rw [perform_map carries_inl] at hfailed hcommand
    have hstep := performs_perform t c
    rw [hfailed] at hstep
    rw [hcommand, ht.failed hstep, setSource_self hsource]

/-- An open source whose pipeline is about to admit a source of no known type. -/
def misled : Session ScriptedPipeline :=
  empty.after [.createSource ⟨.admitted .unknown, [], .nan, []⟩ ["blob:a"], .createElement,
    .command 0 (.attach 0)]

/-- An open source with a basic pipeline that has a video source. -/
def occupied : Session (BasicPipeline ⊕ ScriptedPipeline) :=
  empty.after [.createSource (.inl .initial) ["blob:a"], .createElement, .command 0 (.attach 0),
    .command 0 (.addSourceBuffer "video/mp4")]

theorem two_failures_change_nothing :
    (misled.command 0 (.addSourceBuffer "video/mp4")).1 =
        .error (.source (.violation .unknownType)) ∧
      (∃ source source', misled.source? 0 = some source ∧
        source.Refused (.addSourceBuffer "video/mp4") source' ∧
        (misled.command 0 (.addSourceBuffer "video/mp4")).2 = misled.setSource 0 source' ∧
        (misled.command 0 (.addSourceBuffer "video/mp4")).2.source? 0 = some source') ∧
      (occupied.command 0 (.addSourceBuffer "video/webm")).1 =
        .error (.source (.script .noMoreBuffers)) ∧
      (occupied.command 0 (.addSourceBuffer "video/webm")).2 = occupied := by
  have hmisled : (misled.command 0 (.addSourceBuffer "video/mp4")).1 =
      .error (.source (.violation .unknownType)) := by rfl
  have hoccupied : (occupied.command 0 (.addSourceBuffer "video/webm")).1 =
      .error (.source (.script .noMoreBuffers)) := by rfl
  refine ⟨hmisled, failure_changes_nothing.1 _ misled 0 _ _ hmisled, hoccupied, ?_⟩
  exact failure_changes_nothing.2 ScriptedPipeline _ 0 _ _
    ⟨.opened, "blob:a", .inl ⟨[.video], .nan, false⟩, [⟨.video, false, true⟩], [(.video, 0)],
      some 0, [.sourceOpen]⟩
    ⟨[.video], .nan, false⟩ (by decide) rfl hoccupied

end Session

end ProtectedMedia
