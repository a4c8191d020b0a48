import Mathlib.Data.Nat.Notation
import ProtectedMedia.Media.Source

/-!
# What a command does to a media source

Every way in which a command can end, with what has to be the case for it and with the source that
it leaves behind. A refusal leaves the source alone, except that the pipeline may have been asked.
Commands are performed one after another, whether they succeed or not.
-/
namespace ProtectedMedia.MediaSource

section
variable {κ : Type} {s : MediaSource κ}

/-! ### Preconditions and buffers -/

theorem check_of_not_open (operation : Operation) (h : s.readyState ≠ .opened) :
    s.check operation = .error (.notOpen operation) := by
  rw [check, Precondition.evaluate, if_pos h]
  rfl

theorem check_addSourceBuffer (h : s.readyState = .opened) :
    s.check .addSourceBuffer = .ok () := by
  rw [check, Precondition.evaluate, if_neg (not_not_intro h), if_neg (by simp)]
  rfl

theorem check_of_open (operation : Operation) (h : s.readyState = .opened)
    (hoperation : operation ≠ .addSourceBuffer) :
    s.check operation = if s.anyUpdating then .error (.updating operation) else .ok () := by
  rw [check, Precondition.evaluate, if_neg (not_not_intro h)]
  cases s.anyUpdating with
  | false => rw [if_neg (by simp)]; rfl
  | true => rw [if_pos ⟨hoperation, rfl⟩, Precondition.check, if_neg hoperation]; rfl

theorem isSome_sourceBuffer? (type : StreamType) :
    (s.sourceBuffer? type).isSome ↔ type ∈ s.registered.map Prod.fst := by
  rw [sourceBuffer?, List.lookup_isSome_iff, List.mem_map]
  constructor
  · rintro ⟨entry, hentry, heq⟩
    exact ⟨entry, hentry, (eq_of_beq heq).symm⟩
  · rintro ⟨entry, hentry, rfl⟩
    exact ⟨entry, hentry, beq_self_eq_true _⟩

/-- A buffer is registered if its type is known and no other buffer has it. -/
theorem registerBuffer_cases (s : MediaSource κ) (type : StreamType) :
    type = .unknown ∧ s.registerBuffer type = (.error (.violation .unknownType), s) ∨
      type ≠ .unknown ∧ type ∈ s.registered.map Prod.fst ∧
        s.registerBuffer type = (.error (.violation (.secondBuffer type)), s) ∨
      type ≠ .unknown ∧ type ∉ s.registered.map Prod.fst ∧
        s.registerBuffer type = (.ok (.buffer s.buffers.length),
          { s with
            buffers := s.buffers ++ [⟨type, false, true⟩]
            registered := s.registered ++ [(type, s.buffers.length)] }) := by
  rw [registerBuffer]
  by_cases hunknown : type = .unknown
  · exact .inl ⟨hunknown, if_pos hunknown⟩
  right
  by_cases hsecond : type ∈ s.registered.map Prod.fst
  · refine .inl ⟨hunknown, hsecond, ?_⟩
    rw [if_neg hunknown, if_pos ((isSome_sourceBuffer? type).mpr hsecond)]
  · refine .inr ⟨hunknown, hsecond, ?_⟩
    rw [if_neg hunknown, if_neg fun hsome => hsecond ((isSome_sourceBuffer? type).mp hsome)]

@[simp] theorem length_foldl_closeBuffer (registered : List (StreamType × ℕ))
    (buffers : List SourceBuffer) :
    (registered.foldl closeBuffer buffers).length = buffers.length := by
  induction registered generalizing buffers with
  | nil => rfl
  | cons entry registered ih => simp [ih, closeBuffer]

theorem nodup_types_concat {registered : List (StreamType × ℕ)} {type : StreamType}
    (h : (registered.map Prod.fst).Nodup) (hfirst : type ∉ registered.map Prod.fst) (number : ℕ) :
    ((registered ++ [(type, number)]).map Prod.fst).Nodup := by
  rw [List.map_append, List.nodup_append]
  refine ⟨h, List.pairwise_singleton _ _, ?_⟩
  rintro other hmem _ hnew rfl
  rw [List.mem_singleton.mp hnew] at hmem
  exact hfirst hmem

/-- Every registered buffer was handed out, and has the type that it is registered under. -/
def BuffersPlaced (s : MediaSource κ) : Prop :=
  ∀ entry ∈ s.registered, ∃ b, s.buffers[entry.2]? = some b ∧ b.type = entry.1

theorem BuffersPlaced.added (h : s.BuffersPlaced) (type : StreamType) (controller : κ) :
    BuffersPlaced { s with
      controller := controller
      buffers := s.buffers ++ [⟨type, false, true⟩]
      registered := s.registered ++ [(type, s.buffers.length)] } := by
  intro entry hentry
  rcases List.mem_append.mp hentry with hentry | hentry
  · obtain ⟨b, hb, htype⟩ := h entry hentry
    refine ⟨b, ?_, htype⟩
    rw [List.getElem?_append_left (List.getElem?_eq_some_iff.mp hb).1]
    exact hb
  · rw [List.mem_singleton.mp hentry]
    exact ⟨_, List.getElem?_concat_length, rfl⟩

theorem BuffersPlaced.updatingSet (h : s.BuffersPlaced) (buffer : ℕ) (updating : Bool) :
    (s.setUpdating buffer updating).BuffersPlaced := by
  intro entry hentry
  obtain ⟨b, hb, htype⟩ := h entry hentry
  rw [setUpdating, List.getElem?_modify, hb]
  split
  · exact ⟨_, rfl, htype⟩
  · exact ⟨_, rfl, htype⟩

/-- If no registered buffer is updating, each of them is at rest. -/
theorem BuffersPlaced.at_rest (h : s.BuffersPlaced) (hidle : s.anyUpdating = false)
    {entry : StreamType × ℕ} (hentry : entry ∈ s.registered) :
    ∃ b, s.buffers[entry.2]? = some b ∧ b.type = entry.1 ∧ b.updating = false := by
  obtain ⟨b, hb, htype⟩ := h entry hentry
  have hrest := List.any_eq_false.mp hidle entry hentry
  simp [hb] at hrest
  exact ⟨b, hb, htype, hrest⟩

end

variable {κ : Type} [PipelineController κ]

/-! ### Commands -/

/-- The source ends the command with this result and is the other source then. -/
inductive Performs (s : MediaSource κ) :
    Command → Except Failure Answer → MediaSource κ → Prop
  | attached (element : ℕ) (hclosed : s.readyState = .closed) :
      Performs s (.attach element) (.ok .nothing)
        { s with
          readyState := .opened
          element := some element
          events := s.events ++ [.sourceOpen] }
  | alreadyAttached (element : ℕ) (hclosed : s.readyState ≠ .closed) :
      Performs s (.attach element) (.error (.violation .alreadyAttached)) s
  | detached (hclosed : s.readyState ≠ .closed) :
      Performs s .detach (.ok .nothing)
        { s with
          readyState := .closed
          element := none
          controller := PipelineController.reset s.controller
          buffers := s.registered.foldl closeBuffer s.buffers
          registered := []
          events := s.events ++ [.sourceClose] }
  | notAttached (hclosed : s.readyState = .closed) :
      Performs s .detach (.error (.violation .notAttached)) s
  | added (mime : String) (type : StreamType) (controller : κ) (hopen : s.readyState = .opened)
      (hasked : PipelineController.addSource s.controller mime = (.admitted type, controller))
      (hknown : type ≠ .unknown) (hfirst : type ∉ s.registered.map Prod.fst) :
      Performs s (.addSourceBuffer mime) (.ok (.buffer s.buffers.length))
        { s with
          controller := controller
          buffers := s.buffers ++ [⟨type, false, true⟩]
          registered := s.registered ++ [(type, s.buffers.length)] }
  | notAdmitted (mime : String) (e : ScriptError) (admission : Admission) (controller : κ)
      (hopen : s.readyState = .opened)
      (hasked : PipelineController.addSource s.controller mime = (admission, controller))
      (hrefused : admission = .unsupported ∧ e = .unsupportedType mime ∨
        admission = .full ∧ e = .noMoreBuffers) :
      Performs s (.addSourceBuffer mime) (.error (.script e)) { s with controller := controller }
  | wronglyAdmitted (mime : String) (v : Violation) (type : StreamType) (controller : κ)
      (hopen : s.readyState = .opened)
      (hasked : PipelineController.addSource s.controller mime = (.admitted type, controller))
      (hbroken : type = .unknown ∧ v = .unknownType ∨
        type ≠ .unknown ∧ type ∈ s.registered.map Prod.fst ∧ v = .secondBuffer type) :
      Performs s (.addSourceBuffer mime) (.error (.violation v)) { s with controller := controller }
  | addedWhileNotOpen (mime : String) (hopen : s.readyState ≠ .opened) :
      Performs s (.addSourceBuffer mime) (.error (.script (.notOpen .addSourceBuffer))) s
  | updatingSet (buffer : ℕ) (updating : Bool) :
      Performs s (.setUpdating buffer updating) (.ok .nothing) (s.setUpdating buffer updating)
  | ended (hopen : s.readyState = .opened) (hidle : s.anyUpdating = false) :
      Performs s (.endOfStream none) (.ok .nothing)
        { s with
          readyState := .ended
          controller := PipelineController.endOfStream s.controller
          events := s.events ++ [.sourceEnded] }
  | notEnded (error : Option EndOfStreamError) (e : ScriptError)
      (hrefused : s.readyState ≠ .opened ∧ e = .notOpen .endOfStream ∨
        s.readyState = .opened ∧ s.anyUpdating = true ∧ e = .updating .endOfStream ∨
        s.readyState = .opened ∧ s.anyUpdating = false ∧ error.isSome ∧ e = .endWithError) :
      Performs s (.endOfStream error) (.error (.script e)) s
  | durationSet (value : Binary64) (hnumber : value.isNaN = false)
      (hopen : s.readyState = .opened) (hidle : s.anyUpdating = false) :
      Performs s (.setDuration value) (.ok .nothing)
        { s with controller := PipelineController.setDuration s.controller value }
  | durationKept (value : Binary64) (e : ScriptError)
      (hrefused : value.isNaN = true ∧ e = .durationNaN ∨
        value.isNaN = false ∧ s.readyState ≠ .opened ∧ e = .notOpen .setDuration ∨
        value.isNaN = false ∧ s.readyState = .opened ∧ s.anyUpdating = true ∧
          e = .updating .setDuration) :
      Performs s (.setDuration value) (.error (.script e)) s
  | eventsTaken : Performs s .takeEvents (.ok (.events s.events)) { s with events := [] }
  | notImplemented (name : String) :
      Performs s (.member name) (.error (.script (.notImplemented name))) s

variable {s : MediaSource κ}

theorem performs_attach (element : ℕ) :
    Performs s (.attach element) (s.attach element).1 (s.attach element).2 := by
  rw [attach]
  split
  · rename_i hclosed
    exact .alreadyAttached element hclosed
  · rename_i hclosed
    exact .attached element (Decidable.of_not_not hclosed)

theorem performs_detach : Performs s .detach s.detach.1 s.detach.2 := by
  rw [detach]
  split
  · rename_i hclosed
    exact .notAttached hclosed
  · rename_i hclosed
    exact .detached hclosed

theorem performs_addSourceBuffer (mime : String) :
    Performs s (.addSourceBuffer mime) (s.addSourceBuffer mime).1 (s.addSourceBuffer mime).2 := by
  by_cases hopen : s.readyState = .opened
  · rw [addSourceBuffer, check_addSourceBuffer hopen]
    obtain ⟨admission, controller, hasked⟩ : ∃ admission controller,
        PipelineController.addSource s.controller mime = (admission, controller) := ⟨_, _, rfl⟩
    rw [hasked]
    cases admission with
    | unsupported => exact .notAdmitted mime _ _ controller hopen hasked (.inl ⟨rfl, rfl⟩)
    | full => exact .notAdmitted mime _ _ controller hopen hasked (.inr ⟨rfl, rfl⟩)
    | admitted type =>
        change Performs s _ (registerBuffer { s with controller := controller } type).1
          (registerBuffer { s with controller := controller } type).2
        rcases registerBuffer_cases { s with controller := controller } type with
          ⟨hunknown, h⟩ | ⟨hknown, hsecond, h⟩ | ⟨hknown, hfirst, h⟩
        · rw [h]
          exact .wronglyAdmitted mime _ type controller hopen hasked (.inl ⟨hunknown, rfl⟩)
        · rw [h]
          exact .wronglyAdmitted mime _ type controller hopen hasked
            (.inr ⟨hknown, hsecond, rfl⟩)
        · rw [h]
          exact .added mime type controller hopen hasked hknown hfirst
  · rw [addSourceBuffer, check_of_not_open _ hopen]
    exact .addedWhileNotOpen mime hopen

theorem performs_endOfStream (error : Option EndOfStreamError) :
    Performs s (.endOfStream error) (s.endOfStream error).1 (s.endOfStream error).2 := by
  by_cases hopen : s.readyState = .opened
  · rw [endOfStream, check_of_open .endOfStream hopen (by decide)]
    cases hidle : s.anyUpdating with
    | true => exact .notEnded error _ (.inr (.inl ⟨hopen, hidle, rfl⟩))
    | false =>
        cases error with
        | none => exact .ended hopen hidle
        | some error => exact .notEnded (some error) _ (.inr (.inr ⟨hopen, hidle, rfl, rfl⟩))
  · rw [endOfStream, check_of_not_open _ hopen]
    exact .notEnded error _ (.inl ⟨hopen, rfl⟩)

theorem performs_setDuration (value : Binary64) :
    Performs s (.setDuration value) (s.setDuration value).1 (s.setDuration value).2 := by
  rw [setDuration]
  cases hnumber : value.isNaN with
  | true => exact .durationKept value _ (.inl ⟨hnumber, rfl⟩)
  | false =>
      rw [if_neg Bool.false_ne_true]
      by_cases hopen : s.readyState = .opened
      · rw [check_of_open .setDuration hopen (by decide)]
        cases hidle : s.anyUpdating with
        | true => exact .durationKept value _ (.inr (.inr ⟨hnumber, hopen, hidle, rfl⟩))
        | false => exact .durationSet value hnumber hopen hidle
      · rw [check_of_not_open _ hopen]
        exact .durationKept value _ (.inr (.inl ⟨hnumber, hopen, rfl⟩))

/-- Commands end in these ways, and in no other. -/
theorem performs_perform (s : MediaSource κ) (c : Command) :
    Performs s c (s.perform c).1 (s.perform c).2 := by
  cases c with
  | attach element => exact performs_attach element
  | detach => exact performs_detach
  | addSourceBuffer mime => exact performs_addSourceBuffer mime
  | setUpdating buffer updating => exact .updatingSet buffer updating
  | endOfStream error => exact performs_endOfStream error
  | setDuration value => exact performs_setDuration value
  | takeEvents => exact .eventsTaken
  | member name => exact .notImplemented name

/-- The number of a new buffer, if a command hands one out. -/
def newNumbers : Except Failure Answer → List ℕ
  | .ok (.buffer number) => [number]
  | _ => []

/-- A new buffer gets the next number of its source. -/
theorem Performs.range_buffers {c : Command} {r : Except Failure Answer} {s' : MediaSource κ}
    (hstep : Performs s c r s') :
    List.range s'.buffers.length = List.range s.buffers.length ++ newNumbers r := by
  cases hstep with
  | added => simp [newNumbers, List.range_succ]
  | _ => simp [newNumbers, setUpdating]

/-! ### Commands one after another -/

/-- The source after commands, those that failed included. -/
def after (s : MediaSource κ) (commands : List Command) : MediaSource κ :=
  commands.foldl (fun s c => (s.perform c).2) s

@[simp] theorem after_nil (s : MediaSource κ) : s.after [] = s := rfl

@[simp] theorem after_cons (s : MediaSource κ) (c : Command) (commands : List Command) :
    s.after (c :: commands) = (s.perform c).2.after commands := rfl

theorem after_append (s : MediaSource κ) (first second : List Command) :
    s.after (first ++ second) = (s.after first).after second :=
  List.foldl_append

/-- What was commanded, and what the results were. -/
def transcript (s : MediaSource κ) : List Command → List (Command × Except Failure Answer)
  | [] => []
  | c :: commands => (c, (s.perform c).1) :: (s.perform c).2.transcript commands

/-- What holds at first and is kept by every command holds after all commands. -/
theorem after_induction {P : MediaSource κ → Prop} (hstart : P s)
    (hstep : ∀ s c r s', Performs s c r s' → P s → P s') (commands : List Command) :
    P (s.after commands) := by
  induction commands generalizing s with
  | nil => exact hstart
  | cons c commands ih => exact ih (hstep s c _ _ (performs_perform s c) hstart)

theorem BuffersPlaced.performs {c : Command} {r : Except Failure Answer} {s' : MediaSource κ}
    (h : s.BuffersPlaced) (hstep : Performs s c r s') : s'.BuffersPlaced := by
  cases hstep with
  | detached hclosed => exact nofun
  | added mime type controller => exact h.added type controller
  | updatingSet buffer updating => exact h.updatingSet buffer updating
  | _ => exact h

theorem buffersPlaced_after (url : String) (controller : κ) (commands : List Command) :
    ((create url controller).after commands).BuffersPlaced :=
  after_induction (P := BuffersPlaced) (fun _ hentry => absurd hentry List.not_mem_nil)
    (fun _ _ _ _ hstep h => h.performs hstep) commands

end ProtectedMedia.MediaSource
