import ProtectedMedia.Proofs.Media.Steps

/-!
# Handles of buffers

Whoever was given a buffer keeps it, and can mark it as updating at any time, long after its source
was detached. The buffer itself knows whether it is still registered: it is attached until its source
is detached, and never again. A buffer that is not registered any more has no say in what its source
does.
-/
namespace ProtectedMedia.MediaSource

section
variable {κ : Type} {s : MediaSource κ}

theorem lookup_eq_some_iff_mem {α β : Type} [BEq α] [LawfulBEq α] {l : List (α × β)}
    (h : (l.map Prod.fst).Nodup) (a : α) (b : β) : l.lookup a = some b ↔ (a, b) ∈ l := by
  induction l with
  | nil => simp
  | cons entry l ih =>
      obtain ⟨a', b'⟩ := entry
      rw [List.map_cons, List.nodup_cons] at h
      by_cases heq : a = a'
      · have hrest : (a', b) ∉ l := fun hmem => h.1 (List.mem_map.mpr ⟨_, hmem, rfl⟩)
        simp [heq, hrest, eq_comm]
      · have hfalse : (a == a') = false := by simp [heq]
        simp [List.lookup_cons, hfalse, heq, ih h.2]

theorem getElem?_closeBuffers (registered : List (StreamType × ℕ)) (buffers : List SourceBuffer)
    (number : ℕ) :
    (registered.foldl closeBuffer buffers)[number]? =
      buffers[number]?.map fun b => if number ∈ registered.map Prod.snd then b.close else b := by
  induction registered generalizing buffers with
  | nil => simp
  | cons entry registered ih =>
      rw [List.foldl_cons, ih, closeBuffer, List.getElem?_modify]
      by_cases heq : entry.2 = number
      · simp [heq, Option.map_map, Function.comp_def, SourceBuffer.close]
      · have hne : number ≠ entry.2 := Ne.symm heq
        simp only [heq, if_false, id_map', List.map_cons, List.mem_cons, hne, false_or]

/-! ### Registered buffers -/

/-- A buffer is attached if and only if it is registered under its type. -/
structure Handled (s : MediaSource κ) : Prop where
  placed : s.BuffersPlaced
  once : (s.registered.map Prod.fst).Nodup
  attached : ∀ number b, s.buffers[number]? = some b →
    (b.attached = true ↔ (b.type, number) ∈ s.registered)
  closed : s.readyState = .closed → s.registered = []

theorem handled_create (url : String) (controller : κ) : (create url controller).Handled where
  placed := by simp [BuffersPlaced, create]
  once := List.nodup_nil
  attached := by simp [create]
  closed _ := rfl

/-- The number of a registered buffer is registered with the type of the buffer only. -/
theorem BuffersPlaced.mem_registered (h : s.BuffersPlaced) {number : ℕ} {b : SourceBuffer}
    (hb : s.buffers[number]? = some b) :
    number ∈ s.registered.map Prod.snd ↔ (b.type, number) ∈ s.registered := by
  constructor
  · intro hmem
    obtain ⟨entry, hentry, rfl⟩ := List.mem_map.mp hmem
    obtain ⟨b', hb', htype⟩ := h entry hentry
    rw [hb] at hb'
    cases hb'
    rw [htype]
    exact hentry
  · exact fun hmem => List.mem_map_of_mem hmem

theorem Handled.attached_iff (h : s.Handled) {number : ℕ} {b : SourceBuffer}
    (hb : s.buffers[number]? = some b) :
    b.attached = true ↔ number ∈ s.registered.map Prod.snd := by
  rw [h.attached number b hb, h.placed.mem_registered hb]

theorem Handled.sourceBuffer?_iff (h : s.Handled) {number : ℕ} {b : SourceBuffer}
    (hb : s.buffers[number]? = some b) :
    b.attached = true ↔ s.sourceBuffer? b.type = some number := by
  rw [h.attached number b hb, sourceBuffer?, lookup_eq_some_iff_mem h.once]

theorem Handled.detached (h : s.Handled) (controller : κ) (events : List LifecycleEvent) :
    Handled { s with
      readyState := .closed
      element := none
      controller := controller
      buffers := s.registered.foldl closeBuffer s.buffers
      registered := []
      events := events } where
  placed := by simp [BuffersPlaced]
  once := List.nodup_nil
  attached number b hb := by
    rw [getElem?_closeBuffers] at hb
    obtain ⟨b', hb', rfl⟩ := Option.map_eq_some_iff.mp hb
    have hattached := h.attached_iff hb'
    split
    · simp [SourceBuffer.close]
    · rename_i hstale
      simp only [hattached, hstale, List.not_mem_nil]
  closed _ := rfl

theorem Handled.added (h : s.Handled) {type : StreamType} (controller : κ)
    (hopen : s.readyState = .opened) (hfirst : type ∉ s.registered.map Prod.fst) :
    Handled { s with
      controller := controller
      buffers := s.buffers ++ [⟨type, false, true⟩]
      registered := s.registered ++ [(type, s.buffers.length)] } where
  placed := h.placed.added type controller
  once := nodup_types_concat h.once hfirst _
  attached number b hb := by
    by_cases hlt : number < s.buffers.length
    · rw [List.getElem?_append_left hlt] at hb
      simp [h.attached number b hb, Nat.ne_of_lt hlt]
    · have hle := Nat.le_of_not_lt hlt
      rw [List.getElem?_append_right hle, List.getElem?_singleton] at hb
      obtain ⟨hzero, hb⟩ := Option.ite_none_right_eq_some.mp hb
      cases hb
      have hnumber : number = s.buffers.length := by omega
      simp [hnumber]
  closed hclosed := by
    rw [hopen] at hclosed
    cases hclosed

theorem Handled.updatingSet (h : s.Handled) (buffer : ℕ) (updating : Bool) :
    (s.setUpdating buffer updating).Handled where
  placed := h.placed.updatingSet buffer updating
  once := h.once
  attached number b hb := by
    rw [setUpdating, List.getElem?_modify] at hb
    obtain ⟨b', hb', rfl⟩ := Option.map_eq_some_iff.mp hb
    have hattached := h.attached number b' hb'
    split
    · exact hattached
    · exact hattached
  closed := h.closed

/-! ### Who is asked -/

theorem anyUpdating_iff (s : MediaSource κ) :
    s.anyUpdating = true ↔ ∃ number ∈ s.registered.map Prod.snd,
      ∃ b, s.buffers[number]? = some b ∧ b.updating = true := by
  have hnumbers : s.anyUpdating =
      (s.registered.map Prod.snd).any fun number => s.buffers[number]?.any (·.updating) := by
    rw [List.any_map]
    rfl
  rw [hnumbers, List.any_eq_true]
  simp only [Option.any_eq_true]

/-- The source could have these buffers instead of its own and would have the same registered. -/
structure StaleApart (s : MediaSource κ) (buffers : List SourceBuffer) : Prop where
  length : buffers.length = s.buffers.length
  registered : ∀ number ∈ s.registered.map Prod.snd, buffers[number]? = s.buffers[number]?

variable {buffers : List SourceBuffer}

theorem StaleApart.check_eq (h : s.StaleApart buffers) (operation : Operation) :
    { s with buffers := buffers }.check operation = s.check operation := by
  have hupdating : { s with buffers := buffers }.anyUpdating = s.anyUpdating := by
    rw [Bool.eq_iff_iff, anyUpdating_iff, anyUpdating_iff]
    refine exists_congr fun number => and_congr_right fun hmem => ?_
    rw [h.registered number hmem]
  rw [check, check, hupdating]

theorem StaleApart.appended (h : s.StaleApart buffers) (b : SourceBuffer) (type : StreamType) :
    StaleApart { s with
      buffers := s.buffers ++ [b]
      registered := s.registered ++ [(type, s.buffers.length)] } (buffers ++ [b]) where
  length := by simp [h.length]
  registered number hmem := by
    rw [List.map_append, List.mem_append] at hmem
    rw [List.getElem?_append, List.getElem?_append, h.length]
    rcases hmem with hmem | hnew
    · rw [h.registered number hmem]
    · rw [List.mem_singleton.mp hnew]
      simp

theorem StaleApart.registerBuffer (h : s.StaleApart buffers) (type : StreamType) :
    ∃ buffers', { s with buffers := buffers }.registerBuffer type =
        ((s.registerBuffer type).1, { (s.registerBuffer type).2 with buffers := buffers' }) ∧
      (s.registerBuffer type).2.StaleApart buffers' := by
  unfold MediaSource.registerBuffer
  by_cases hunknown : type = .unknown
  · exact ⟨buffers, by simp [hunknown], by simpa [hunknown] using h⟩
  · have hsame : { s with buffers := buffers }.sourceBuffer? type = s.sourceBuffer? type := rfl
    rw [hsame, h.length, if_neg hunknown, if_neg hunknown]
    cases (s.sourceBuffer? type).isSome with
    | true => exact ⟨buffers, rfl, h⟩
    | false => exact ⟨_, rfl, by simpa using h.appended ⟨type, false, true⟩ type⟩

theorem StaleApart.updatingSet (h : s.StaleApart buffers) (buffer : ℕ) (updating : Bool) :
    (s.setUpdating buffer updating).StaleApart
      (buffers.modify buffer fun b => { b with updating := updating }) where
  length := by simp [setUpdating, h.length]
  registered number hmem := by
    rw [setUpdating, List.getElem?_modify, List.getElem?_modify, h.registered number hmem]

/-- A buffer that is not registered can be marked. -/
theorem staleApart_setUpdating {number : ℕ} (hstale : number ∉ s.registered.map Prod.snd)
    (updating : Bool) : s.StaleApart (s.setUpdating number updating).buffers where
  length := by simp [setUpdating]
  registered other hmem := by
    have hne : number ≠ other := fun heq => hstale (heq ▸ hmem)
    simp [setUpdating, hne]

end

variable {κ : Type} [PipelineController κ] {s : MediaSource κ} {buffers : List SourceBuffer}

theorem StaleApart.addSourceBuffer (h : s.StaleApart buffers) (mime : String) :
    ∃ buffers', { s with buffers := buffers }.addSourceBuffer mime =
        ((s.addSourceBuffer mime).1, { (s.addSourceBuffer mime).2 with buffers := buffers' }) ∧
      (s.addSourceBuffer mime).2.StaleApart buffers' := by
  unfold MediaSource.addSourceBuffer
  rw [h.check_eq]
  cases s.check .addSourceBuffer with
  | error e => exact ⟨buffers, rfl, h⟩
  | ok =>
      obtain ⟨admission, controller⟩ := PipelineController.addSource s.controller mime
      cases admission with
      | unsupported => exact ⟨buffers, rfl, ⟨h.length, h.registered⟩⟩
      | full => exact ⟨buffers, rfl, ⟨h.length, h.registered⟩⟩
      | admitted type =>
          have h' : StaleApart { s with controller := controller } buffers :=
            ⟨h.length, h.registered⟩
          exact h'.registerBuffer type

/-- A command has the same result whatever the buffers are that are not registered. -/
theorem StaleApart.perform (h : s.StaleApart buffers) (c : Command) :
    ∃ buffers', { s with buffers := buffers }.perform c =
        ((s.perform c).1, { (s.perform c).2 with buffers := buffers' }) ∧
      (s.perform c).2.StaleApart buffers' := by
  cases c with
  | attach element =>
      unfold MediaSource.perform attach
      by_cases hclosed : s.readyState = .closed
      · exact ⟨buffers, by simp [hclosed], by simpa [hclosed] using ⟨h.length, h.registered⟩⟩
      · exact ⟨buffers, by simp [hclosed], by simpa [hclosed] using h⟩
  | detach =>
      unfold MediaSource.perform detach
      by_cases hclosed : s.readyState = .closed
      · exact ⟨buffers, by simp [hclosed], by simpa [hclosed] using h⟩
      · refine ⟨s.registered.foldl closeBuffer buffers, by simp [hclosed], ?_⟩
        constructor <;> simp [hclosed, h.length]
  | addSourceBuffer mime => exact h.addSourceBuffer mime
  | setUpdating buffer updating => exact ⟨_, rfl, h.updatingSet buffer updating⟩
  | endOfStream error =>
      simp only [MediaSource.perform, endOfStream, h.check_eq]
      cases s.check .endOfStream with
      | error e => exact ⟨buffers, rfl, h⟩
      | ok =>
          cases error with
          | none => exact ⟨buffers, rfl, ⟨h.length, h.registered⟩⟩
          | some error => exact ⟨buffers, rfl, h⟩
  | setDuration value =>
      simp only [MediaSource.perform, setDuration, h.check_eq]
      cases value.isNaN with
      | true => exact ⟨buffers, rfl, h⟩
      | false =>
          cases s.check .setDuration with
          | error e => exact ⟨buffers, rfl, h⟩
          | ok => exact ⟨buffers, rfl, ⟨h.length, h.registered⟩⟩
  | takeEvents => exact ⟨buffers, rfl, ⟨h.length, h.registered⟩⟩
  | member name => exact ⟨buffers, rfl, h⟩

/-- So no later result depends on them either. -/
theorem StaleApart.transcript_eq (h : s.StaleApart buffers) (commands : List Command) :
    { s with buffers := buffers }.transcript commands = s.transcript commands := by
  induction commands generalizing s buffers with
  | nil => rfl
  | cons c commands ih =>
      obtain ⟨buffers', hperform, h'⟩ := h.perform c
      rw [transcript, transcript, hperform, ih h']

/-! ### Buffers and commands -/

variable {s' : MediaSource κ} {c : Command} {r : Except Failure Answer}

theorem Handled.performs (h : s.Handled) (hstep : Performs s c r s') : s'.Handled := by
  cases hstep with
  | attached element hclosed => exact ⟨h.placed, h.once, h.attached, nofun⟩
  | detached hclosed => exact h.detached _ _
  | added mime type controller hopen hasked hknown hfirst => exact h.added controller hopen hfirst
  | updatingSet buffer updating => exact h.updatingSet buffer updating
  | ended hopen hidle => exact ⟨h.placed, h.once, h.attached, nofun⟩
  | _ => exact ⟨h.placed, h.once, h.attached, h.closed⟩

theorem Handled.after (h : s.Handled) (commands : List Command) : (s.after commands).Handled :=
  after_induction (P := Handled) h (fun _ _ _ _ hstep h => h.performs hstep) commands

/-- A buffer is attached until its source is detached, and right after that it is at rest. -/
theorem Handled.kept (h : s.Handled) (hstep : Performs s c r s') {number : ℕ} {b : SourceBuffer}
    (hb : s.buffers[number]? = some b) :
    ∃ b', s'.buffers[number]? = some b' ∧ b'.type = b.type ∧
      (b'.attached = true ↔ b.attached = true ∧ c ≠ .detach) ∧
      (b.attached = true → c = .detach → b'.updating = false) := by
  have hattached := h.attached_iff hb
  cases hstep with
  | detached hclosed =>
      refine ⟨_, by rw [getElem?_closeBuffers, hb]; rfl, ?_⟩
      split
      · simp [SourceBuffer.close]
      · rename_i hstale
        simp [hattached, hstale]
  | notAttached hclosed =>
      have hstale : ¬ b.attached = true := by simp [hattached, h.closed hclosed]
      exact ⟨b, hb, rfl, by simp [hstale], fun htrue => absurd htrue hstale⟩
  | added mime type controller =>
      refine ⟨b, ?_, rfl, by simp, by simp⟩
      rw [List.getElem?_append_left (List.getElem?_eq_some_iff.mp hb).1, hb]
  | updatingSet buffer updating =>
      refine ⟨_, by rw [setUpdating, List.getElem?_modify, hb]; rfl, ?_⟩
      split
      · simp
      · simp
  | _ => exact ⟨b, hb, rfl, by simp, by simp⟩

/-- A buffer that is not attached is never attached again. -/
theorem Handled.stale_after (h : s.Handled) {number : ℕ} {b : SourceBuffer}
    (hb : s.buffers[number]? = some b) (hstale : b.attached = false) (commands : List Command) :
    ∃ b', (s.after commands).buffers[number]? = some b' ∧ b'.attached = false := by
  induction commands generalizing s b with
  | nil => exact ⟨b, hb, hstale⟩
  | cons c commands ih =>
      have hstep := performs_perform s c
      obtain ⟨b', hb', -, hkept, -⟩ := h.kept hstep hb
      refine ih (h.performs hstep) hb' ?_
      simpa [hstale] using hkept

/-- The numbers of the buffers that were handed out. -/
def handedOut (past : List (Command × Except Failure Answer)) : List ℕ :=
  past.flatMap fun entry => newNumbers entry.2

/-- Buffers are numbered in the order in which they are handed out. -/
theorem range_after (s : MediaSource κ) (commands : List Command) :
    List.range (s.after commands).buffers.length =
      List.range s.buffers.length ++ handedOut (s.transcript commands) := by
  induction commands generalizing s with
  | nil => simp [transcript, handedOut]
  | cons c commands ih =>
      rw [after_cons, ih, (performs_perform s c).range_buffers, List.append_assoc]
      rfl

/-- The numbers of the buffers that were added since the last attachment. -/
def addedBy (numbers : List ℕ) : Command × Except Failure Answer → List ℕ
  | (.attach _, .ok _) => []
  | (.addSourceBuffer _, .ok (.buffer number)) => numbers ++ [number]
  | _ => numbers

def addedSinceAttach (past : List (Command × Except Failure Answer)) : List ℕ :=
  past.foldl addedBy []

theorem Handled.added_performs (h : s.Handled) (hstep : Performs s c r s') {numbers : List ℕ}
    (hadded : s.readyState ≠ .closed → s.registered.map Prod.snd = numbers) :
    s'.readyState ≠ .closed → s'.registered.map Prod.snd = addedBy numbers (c, r) := by
  cases hstep with
  | attached element hclosed => simp [h.closed hclosed, addedBy]
  | detached hclosed => simp
  | added mime type controller hopen => simp [hadded, hopen, addedBy]
  | ended hopen => simp [hadded, hopen, addedBy]
  | _ => exact hadded

/-- While a source is attached, the buffers that were added since are registered. -/
theorem Handled.added_after (h : s.Handled) {numbers : List ℕ}
    (hadded : s.readyState ≠ .closed → s.registered.map Prod.snd = numbers) (commands : List Command) :
    (s.after commands).readyState ≠ .closed →
      (s.after commands).registered.map Prod.snd =
        (s.transcript commands).foldl addedBy numbers := by
  induction commands generalizing s numbers with
  | nil => exact hadded
  | cons c commands ih =>
      have hstep := performs_perform s c
      exact ih (h.performs hstep) (h.added_performs hstep hadded)

/-! ### Refusals -/

theorem endOfStream_updating_iff (s : MediaSource κ) (error : Option EndOfStreamError) :
    (s.perform (.endOfStream error)).1 = .error (.script (.updating .endOfStream)) ↔
      s.readyState = .opened ∧ s.anyUpdating = true := by
  by_cases hopen : s.readyState = .opened
  · rw [perform, endOfStream, check_of_open _ hopen (by decide)]
    cases s.anyUpdating with
    | true => simp [hopen]
    | false => cases error <;> simp
  · rw [perform, endOfStream, check_of_not_open _ hopen]
    simp [hopen]

theorem setDuration_updating_iff (s : MediaSource κ) (value : Binary64) :
    (s.perform (.setDuration value)).1 = .error (.script (.updating .setDuration)) ↔
      value.isNaN = false ∧ s.readyState = .opened ∧ s.anyUpdating = true := by
  rw [perform, setDuration]
  cases value.isNaN with
  | true => simp
  | false =>
      by_cases hopen : s.readyState = .opened
      · rw [check_of_open _ hopen (by decide)]
        cases s.anyUpdating with
        | true => simp [hopen]
        | false => simp
      · rw [check_of_not_open _ hopen]
        simp [hopen]

/-- Among the buffers that a source handed out, over any number of openings and with any pipeline, just
those are attached that are registered under their type. A buffer is attached until its source is
detached; it is at rest then, and never attached again. The end of the stream and a duration are refused
because of an update if and only if a buffer that was added since the last attachment is updating.
Marking a buffer that is not attached changes no result, neither that of the next command nor any later
one. -/
theorem handles_follow_registration (url : String) (controller : κ) (commands : List Command) :
    let s := (create url controller).after commands
    let past := (create url controller).transcript commands
    (∀ number ∈ handedOut past, ∃ b, s.buffers[number]? = some b ∧
      (b.attached = true ↔ s.sourceBuffer? b.type = some number) ∧
      (∀ c, ∃ b', (s.perform c).2.buffers[number]? = some b' ∧ b'.type = b.type ∧
        (b'.attached = true ↔ b.attached = true ∧ c ≠ .detach) ∧
        (b.attached = true → c = .detach → b'.updating = false)) ∧
      (b.attached = false → ∀ later, ∃ b',
        (s.after later).buffers[number]? = some b' ∧ b'.attached = false) ∧
      (b.attached = false → ∀ updating later,
        (s.setUpdating number updating).transcript later = s.transcript later)) ∧
      (∀ error, (s.perform (.endOfStream error)).1 = .error (.script (.updating .endOfStream)) ↔
        s.readyState = .opened ∧ ∃ number ∈ addedSinceAttach past,
          ∃ b, s.buffers[number]? = some b ∧ b.updating = true) ∧
      (∀ value, (s.perform (.setDuration value)).1 = .error (.script (.updating .setDuration)) ↔
        value.isNaN = false ∧ s.readyState = .opened ∧ ∃ number ∈ addedSinceAttach past,
          ∃ b, s.buffers[number]? = some b ∧ b.updating = true) := by
  intro s past
  have h : s.Handled := (handled_create url controller).after commands
  have hadded : s.readyState = .opened → s.registered.map Prod.snd = addedSinceAttach past :=
    fun hopen => (handled_create url controller).added_after (by simp [create]) commands
      (by simp [s, hopen])
  have hupdating : s.readyState = .opened → (s.anyUpdating = true ↔
      ∃ number ∈ addedSinceAttach past, ∃ b, s.buffers[number]? = some b ∧ b.updating = true) := by
    intro hopen
    rw [anyUpdating_iff, hadded hopen]
  refine ⟨fun number hnumber => ?_, fun error => ?_, fun value => ?_⟩
  · have hrange : List.range s.buffers.length = handedOut past :=
      range_after (create url controller) commands
    rw [← hrange, List.mem_range] at hnumber
    have hb := List.getElem?_eq_getElem hnumber
    refine ⟨_, hb, h.sourceBuffer?_iff hb, fun c => h.kept (performs_perform s c) hb,
      h.stale_after hb, fun hstale updating later => ?_⟩
    have hnot : number ∉ s.registered.map Prod.snd := by simp [← h.attached_iff hb, hstale]
    exact (staleApart_setUpdating hnot updating).transcript_eq later
  · rw [endOfStream_updating_iff]
    exact and_congr_right hupdating
  · rw [setDuration_updating_iff]
    exact and_congr_right fun _ => and_congr_right hupdating

/-- A buffer of the first opening is marked again and again, one of the second is not. -/
def twoOpenings : List Command :=
  [.attach 0, .addSourceBuffer "audio/mp4", .setUpdating 0 true, .detach, .setUpdating 0 true,
    .attach 1, .addSourceBuffer "video/mp4", .setUpdating 0 true]

def audioThenVideo : ScriptedPipeline := ⟨.admitted .audio, [.admitted .video], .nan, []⟩

theorem handles_follow_registration_two_openings :
    let s := (create "blob:a" audioThenVideo).after twoOpenings
    0 ∈ handedOut ((create "blob:a" audioThenVideo).transcript twoOpenings) ∧
      s.buffers = [⟨.audio, true, false⟩, ⟨.video, false, true⟩] ∧
      (∀ later, ∃ b, (s.after later).buffers[0]? = some b ∧ b.attached = false) ∧
      (∀ updating later, (s.setUpdating 0 updating).transcript later = s.transcript later) ∧
      (s.perform (.endOfStream none)).1 = .ok .nothing ∧
      ((s.setUpdating 1 true).perform (.endOfStream none)).1 =
        .error (.script (.updating .endOfStream)) := by
  intro s
  have hgiven : 0 ∈ handedOut ((create "blob:a" audioThenVideo).transcript twoOpenings) := by
    decide
  have hbuffers : s.buffers = [⟨.audio, true, false⟩, ⟨.video, false, true⟩] := by decide
  obtain ⟨b, hb, -, -, hstays, hmark⟩ :=
    (handles_follow_registration "blob:a" audioThenVideo twoOpenings).1 0 hgiven
  have hstale : b.attached = false := by
    change s.buffers[0]? = some b at hb
    rw [hbuffers] at hb
    cases hb
    rfl
  exact ⟨hgiven, hbuffers, hstays hstale, hmark hstale, by rfl, by rfl⟩

end ProtectedMedia.MediaSource
