import Mathlib.Data.List.Perm.Subperm
import ProtectedMedia.Proofs.Media.Handles
import ProtectedMedia.Proofs.Media.Lifecycle

/-!
# Media types added one after another

An open source with a basic pipeline refuses a media type that is not supported and one whose stream
type it has; it adds a buffer for any other. What it refuses leaves no trace, so that only supported
types stand in the way of later ones, and what it has added is never more than one buffer of each
kind.
-/
namespace ProtectedMedia

namespace ContentType

/-- The stream types of those media types that are supported. -/
def streams (mimes : List String) : List StreamType :=
  mimes.filterMap fun mime => (parse? mime).map ContentType.stream

theorem streams_concat_of_none {mime : String} (h : parse? mime = none) (earlier : List String) :
    streams (earlier ++ [mime]) = streams earlier := by
  simp [streams, h]

theorem streams_concat_of_some {mime : String} {t : ContentType} (h : parse? mime = some t)
    (earlier : List String) : streams (earlier ++ [mime]) = streams earlier ++ [t.stream] := by
  simp [streams, h]

end ContentType

namespace BasicPipeline

variable {p : BasicPipeline} {mime : String} {t : ContentType}

theorem addSource_unsupported (h : ContentType.parse? mime = none) :
    p.addSource mime = (.unsupported, p) := by
  simp only [addSource, h]

theorem addSource_full (h : ContentType.parse? mime = some t) (hsecond : p.hasSource t.stream = true) :
    p.addSource mime = (.full, p) := by
  simp only [addSource, h, hsecond, if_true]

theorem addSource_first (h : ContentType.parse? mime = some t)
    (hfirst : p.hasSource t.stream = false) :
    p.addSource mime = (.admitted t.stream, { p with sources := t.stream :: p.sources }) := by
  simp only [addSource, h, hfirst, Bool.false_eq_true, if_false]

end BasicPipeline

namespace MediaSource

section
variable {κ : Type} [PipelineController κ]

/-- Each result is that of its command in the state that the earlier commands have left. -/
theorem getElem?_transcript (s : MediaSource κ) (commands : List Command) (i : ℕ) :
    (s.transcript commands)[i]? =
      commands[i]?.map fun c => (c, ((s.after (commands.take i)).perform c).1) := by
  induction commands generalizing s i with
  | nil => rfl
  | cons c commands ih =>
      cases i with
      | zero => rfl
      | succ i => exact ih (s.perform c).2 i

end

variable {s s' : MediaSource BasicPipeline} {earlier : List String} {mime : String}
  {r : Except Failure Answer}

/-- A source is open, no buffer of it is updating, and it has the stream types of these media types
so far. -/
structure Adding (s : MediaSource BasicPipeline) (earlier : List String) : Prop where
  agrees : s.Agrees
  opened : s.readyState = .opened
  idle : ∀ entry ∈ s.registered, ∀ b, s.buffers[entry.2]? = some b → b.updating = false
  types : ∀ type, type ∈ s.registered.map Prod.fst ↔ type ∈ ContentType.streams earlier

/-- With a buffer of another type, which both source and pipeline take note of. -/
def withBuffer (s : MediaSource BasicPipeline) (type : StreamType) : MediaSource BasicPipeline :=
  { s with
    controller := { s.controller with sources := type :: s.controller.sources }
    buffers := s.buffers ++ [⟨type, false, true⟩]
    registered := s.registered ++ [(type, s.buffers.length)] }

/-- The three ways in which an open source takes a media type. -/
inductive Takes (s : MediaSource BasicPipeline) (mime : String) :
    Except Failure Answer → MediaSource BasicPipeline → Prop
  | unsupported (hparse : ContentType.parse? mime = none) :
      Takes s mime (.error (.script (.unsupportedType mime))) s
  | full {t : ContentType} (hparse : ContentType.parse? mime = some t)
      (hsecond : t.stream ∈ s.registered.map Prod.fst) :
      Takes s mime (.error (.script .noMoreBuffers)) s
  | added {t : ContentType} (hparse : ContentType.parse? mime = some t)
      (hfirst : t.stream ∉ s.registered.map Prod.fst) :
      Takes s mime (.ok (.buffer s.buffers.length)) (s.withBuffer t.stream)

/-- What becomes of a media type that is added behind others. -/
structure Decided (earlier : List String) (mime : String) (r : Except Failure Answer) : Prop where
  added : (∃ number, r = .ok (.buffer number)) ↔
    ∃ t ∈ ContentType.parse? mime, t.stream ∉ ContentType.streams earlier
  unsupported : r = .error (.script (.unsupportedType mime)) ↔
    ContentType.isSupported mime = false
  full : r = .error (.script .noMoreBuffers) ↔
    ∃ t ∈ ContentType.parse? mime, t.stream ∈ ContentType.streams earlier

/-! ### One media type -/

theorem registerBuffer_first {κ : Type} (s : MediaSource κ) {type : StreamType}
    (hknown : type ≠ .unknown) (hfirst : type ∉ s.registered.map Prod.fst) :
    s.registerBuffer type = (.ok (.buffer s.buffers.length),
      { s with
        buffers := s.buffers ++ [⟨type, false, true⟩]
        registered := s.registered ++ [(type, s.buffers.length)] }) := by
  rcases registerBuffer_cases s type with ⟨hunknown, -⟩ | ⟨-, hsecond, -⟩ | ⟨-, -, h⟩
  · exact absurd hunknown hknown
  · exact absurd hsecond hfirst
  · exact h

theorem Adding.takes (h : s.Adding earlier) (mime : String) :
    Takes s mime (s.perform (.addSourceBuffer mime)).1 (s.perform (.addSourceBuffer mime)).2 := by
  rw [perform, addSourceBuffer, check_addSourceBuffer h.opened]
  cases hparse : ContentType.parse? mime with
  | none =>
      have hasked : PipelineController.addSource s.controller mime = (.unsupported, s.controller) :=
        BasicPipeline.addSource_unsupported hparse
      rw [hasked]
      exact .unsupported hparse
  | some t =>
      by_cases hsecond : t.stream ∈ s.registered.map Prod.fst
      · have hasked : PipelineController.addSource s.controller mime = (.full, s.controller) :=
          BasicPipeline.addSource_full hparse ((h.agrees.types t.stream).mp hsecond)
        rw [hasked]
        exact .full hparse hsecond
      · have hnew : s.controller.hasSource t.stream = false := by
          simpa [h.agrees.types] using hsecond
        have hasked : PipelineController.addSource s.controller mime = (.admitted t.stream,
            { s.controller with sources := t.stream :: s.controller.sources }) :=
          BasicPipeline.addSource_first hparse hnew
        have hknown : t.stream ≠ .unknown := (h.agrees.admitted hasked).1
        rw [hasked]
        change Takes s mime (registerBuffer _ t.stream).1 (registerBuffer _ t.stream).2
        rw [registerBuffer_first _ hknown]
        · exact .added hparse hsecond
        · exact hsecond

/-- Refused media types are as good as never named. -/
theorem Takes.adding (htakes : Takes s mime r s') (h : s.Adding earlier) :
    s'.Adding (earlier ++ [mime]) := by
  cases htakes with
  | unsupported hparse =>
      refine { h with types := fun type => ?_ }
      rw [h.types type, ContentType.streams_concat_of_none hparse]
  | @full t hparse hsecond =>
      refine { h with types := fun type => ?_ }
      rw [ContentType.streams_concat_of_some hparse, List.mem_append, List.mem_singleton,
        h.types type, iff_self_or]
      rintro rfl
      exact (h.types t.stream).mp hsecond
  | @added t hparse hfirst =>
      have hknown : t.stream ≠ .unknown := by
        rcases ContentType.stream_of_parse hparse with hstream | hstream <;> simp [hstream]
      refine ⟨h.agrees.added h.opened hknown hfirst rfl, h.opened, ?_, fun type => ?_⟩
      · intro entry hentry b hb
        rcases List.mem_append.mp hentry with hold | hnew
        · obtain ⟨b', hb', -⟩ := h.agrees.placed entry hold
          rw [withBuffer, List.getElem?_append_left (List.getElem?_eq_some_iff.mp hb').1] at hb
          exact h.idle entry hold b hb
        · rw [List.mem_singleton.mp hnew, withBuffer, List.getElem?_concat_length] at hb
          cases hb
          rfl
      · rw [ContentType.streams_concat_of_some hparse, withBuffer, List.map_append,
          List.mem_append, List.mem_append, h.types type]
        rfl

theorem Takes.decided (htakes : Takes s mime r s') (h : s.Adding earlier) :
    Decided earlier mime r := by
  cases htakes with
  | unsupported hparse =>
      exact ⟨by simp [hparse], by simp [ContentType.isSupported, hparse], by simp [hparse]⟩
  | @full t hparse hsecond =>
      rw [h.types] at hsecond
      exact ⟨by simp [hparse, hsecond], by simp [ContentType.isSupported, hparse],
        by simp [hparse, hsecond]⟩
  | @added t hparse hfirst =>
      rw [h.types] at hfirst
      exact ⟨by simp [hparse, hfirst], by simp [ContentType.isSupported, hparse],
        by simp [hparse, hfirst]⟩

/-- A new buffer is registered under the stream type of its media type. -/
theorem Takes.registered (htakes : Takes s mime r s') {number : ℕ}
    (hr : r = .ok (.buffer number)) :
    ∃ t ∈ ContentType.parse? mime, (t.stream, number) ∈ s'.registered := by
  cases htakes with
  | unsupported => cases hr
  | full => cases hr
  | added hparse =>
      cases hr
      exact ⟨_, hparse, by simp [withBuffer]⟩

theorem Takes.registered_prefix (htakes : Takes s mime r s') : s.registered <+: s'.registered := by
  cases htakes with
  | unsupported | full => exact List.prefix_rfl
  | added => exact List.prefix_append _ _

theorem Takes.length_registered (htakes : Takes s mime r s') :
    s'.registered.length = s.registered.length + if r.isOk then 1 else 0 := by
  cases htakes with
  | unsupported | full => rfl
  | added => simp [withBuffer, Except.isOk, Except.toBool]

/-! ### All media types of a list -/

theorem Adding.after (h : s.Adding earlier) (mimes : List String) :
    (s.after (mimes.map .addSourceBuffer)).Adding (earlier ++ mimes) := by
  induction mimes generalizing s earlier with
  | nil => simpa using h
  | cons mime mimes ih =>
      have hnext := ih ((h.takes mime).adding h)
      rwa [List.append_assoc] at hnext

theorem Adding.registered_prefix (h : s.Adding earlier) (mimes : List String) :
    s.registered <+: (s.after (mimes.map .addSourceBuffer)).registered := by
  induction mimes generalizing s earlier with
  | nil => exact List.prefix_rfl
  | cons mime mimes ih =>
      have htakes := h.takes mime
      exact htakes.registered_prefix.trans (ih (htakes.adding h))

theorem Adding.length_registered (h : s.Adding earlier) (mimes : List String) :
    (s.after (mimes.map .addSourceBuffer)).registered.length =
      s.registered.length +
        (s.transcript (mimes.map .addSourceBuffer)).countP fun entry => entry.2.isOk := by
  induction mimes generalizing s earlier with
  | nil => rfl
  | cons mime mimes ih =>
      have htakes := h.takes mime
      rw [List.map_cons, after_cons, ih (htakes.adding h), htakes.length_registered, transcript,
        List.countP_cons, Nat.add_right_comm, Nat.add_assoc]

/-- No two registered buffers have one type, and there are two types to have. -/
theorem Agrees.length_registered_le (h : s.Agrees) : s.registered.length ≤ 2 := by
  have hkinds : s.registered.map Prod.fst ⊆ [.audio, .video] := by
    intro type htype
    cases type with
    | unknown => exact absurd htype h.known
    | audio | video => simp
  simpa using (h.once.subperm hkinds).length_le

/-- A buffer has the stream type of its media type for as long as others are added. -/
theorem Adding.buffer_of_registered (h : s.Adding earlier) {type : StreamType} {number : ℕ}
    (hentry : (type, number) ∈ s.registered) (mimes : List String) :
    ∃ b, (s.after (mimes.map .addSourceBuffer)).buffers[number]? = some b ∧ b.type = type :=
  (h.after mimes).agrees.placed _ ((h.registered_prefix mimes).subset hentry)

/-- What becomes of each of a list of media types depends on those before it and on nothing else. -/
theorem Adding.decided (h : s.Adding []) (mimes : List String) {i : ℕ} (hi : mimes[i]? = some mime) :
    ∃ r, (s.transcript (mimes.map .addSourceBuffer))[i]? = some (.addSourceBuffer mime, r) ∧
      Decided (mimes.take i) mime r ∧
      ∀ number, r = .ok (.buffer number) → ∃ t ∈ ContentType.parse? mime,
        ∃ b, (s.after (mimes.map .addSourceBuffer)).buffers[number]? = some b ∧
          b.type = t.stream := by
  have hbefore : (s.after ((mimes.take i).map .addSourceBuffer)).Adding (mimes.take i) :=
    h.after (mimes.take i)
  have htakes := hbefore.takes mime
  refine ⟨_, by rw [getElem?_transcript, List.getElem?_map, hi, ← List.map_take]; rfl,
    htakes.decided hbefore, fun number hnumber => ?_⟩
  obtain ⟨t, hparse, hentry⟩ := htakes.registered hnumber
  refine ⟨t, hparse, ?_⟩
  have hrest : mimes.drop i = mime :: mimes.drop (i + 1) := by
    obtain ⟨hlt, rfl⟩ := List.getElem?_eq_some_iff.mp hi
    exact List.drop_eq_getElem_cons hlt
  have hafter : s.after (mimes.map .addSourceBuffer) =
      ((s.after ((mimes.take i).map .addSourceBuffer)).perform (.addSourceBuffer mime)).2.after
        ((mimes.drop (i + 1)).map .addSourceBuffer) := by
    rw [← after_cons, ← List.map_cons, ← hrest, ← after_append, ← List.map_append,
      List.take_append_drop]
  rw [hafter]
  exact (htakes.adding hbefore).buffer_of_registered hentry _

/-- Whatever is asked for, there are never more than two buffers. -/
theorem Adding.countP_isOk_le (h : s.Adding earlier) (mimes : List String) :
    ((s.transcript (mimes.map .addSourceBuffer)).countP fun entry => entry.2.isOk) ≤ 2 := by
  have hlength := h.length_registered mimes
  have htwo := (h.after mimes).agrees.length_registered_le
  omega

/-! ### The beginning and the end -/

/-- A source that was just attached has no buffers, whatever was done to it before. -/
theorem Agrees.adding (h : s.Agrees) (hclosed : s.readyState = .closed) (element : ℕ) :
    (s.perform (.attach element)).2.Adding [] := by
  have hempty : s.registered = [] := (h.closed hclosed).1
  rw [perform, attach, if_neg (not_not_intro hclosed)]
  exact ⟨h.attached hclosed element, rfl, by simp [hempty], by simp [hempty, ContentType.streams]⟩

theorem Adding.anyUpdating_eq_false (h : s.Adding earlier) : s.anyUpdating = false := by
  rw [Bool.eq_false_iff, Ne, anyUpdating_iff]
  rintro ⟨number, hnumber, b, hb, hupdating⟩
  obtain ⟨entry, hentry, rfl⟩ := List.mem_map.mp hnumber
  rw [h.idle entry hentry b hb] at hupdating
  cases hupdating

/-- The duration can be set in between if it is a number. -/
theorem Adding.setDuration (h : s.Adding earlier) {value : Binary64} (hnumber : value.isNaN = false) :
    ∃ s', s.perform (.setDuration value) = (.ok .nothing, s') ∧ s'.Adding earlier := by
  have hcheck : s.check .setDuration = .ok () := by
    rw [check_of_open _ h.opened (by decide), h.anyUpdating_eq_false]
    rfl
  refine ⟨{ s with controller := PipelineController.setDuration s.controller value }, ?_,
    h.agrees.durationSet h.opened value, h.opened, h.idle, h.types⟩
  rw [perform, MediaSource.setDuration, hnumber, if_neg Bool.false_ne_true, hcheck]

/-- The stream can always be ended. -/
theorem Adding.endOfStream (h : s.Adding earlier) :
    ∃ s', s.perform (.endOfStream none) = (.ok .nothing, s') ∧ s'.readyState = .ended := by
  have hcheck : s.check .endOfStream = .ok () := by
    rw [check_of_open _ h.opened (by decide), h.anyUpdating_eq_false]
    rfl
  rw [perform, MediaSource.endOfStream, hcheck]
  exact ⟨_, rfl, rfl⟩

end MediaSource

end ProtectedMedia
