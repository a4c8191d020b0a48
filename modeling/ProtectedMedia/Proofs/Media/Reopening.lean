import ProtectedMedia.Proofs.Media.Lifecycle
import ProtectedMedia.Proofs.Media.Renumbered

/-!
# Sources that were detached

A source with a basic pipeline that was detached, and whose events were taken, is a new source with a
past: it has handed out buffers before, and that is all there is to tell it from a source that was just
created. From then on the two do the same, whatever becomes of the old buffers.
-/
namespace ProtectedMedia.MediaSource

/-- The command for a source that has not handed out the first `m` buffers. There is none if it is one
of these that is marked. -/
def Command.since (m : ℕ) : Command → Option Command
  | .setUpdating buffer updating =>
      if buffer < m then none else some (.setUpdating (buffer - m) updating)
  | c => some c

section
variable {κ : Type} [PipelineController κ] {s : MediaSource κ}

theorem shift_of_since {m : ℕ} {c c' : Command} (h : c.since m = some c') : c'.shift m = c := by
  cases c with
  | setUpdating buffer updating =>
      simp only [Command.since, Option.ite_none_left_eq_some, Nat.not_lt] at h
      obtain ⟨hle, heq⟩ := h
      cases heq
      simp [Command.shift, hle]
  | _ =>
      cases h
      rfl

theorem old_of_since {m : ℕ} {c : Command} (h : c.since m = none) :
    ∃ buffer updating, buffer < m ∧ c = .setUpdating buffer updating := by
  cases c with
  | setUpdating buffer updating =>
      simp only [Command.since, ite_eq_left_iff, reduceCtorEq, imp_false, Nat.not_lt, Nat.not_le] at h
      exact ⟨buffer, updating, h, rfl⟩
  | _ => cases h

/-- The result of a command of a source with a past. -/
theorem result_behind (s : MediaSource κ) (old : List SourceBuffer) (url : String) (c : Command) :
    ((s.behind old url).perform c).1 =
      (c.since old.length).elim (.ok .nothing) fun c' =>
        (s.perform c').1.map (Answer.shift old.length) := by
  cases hsince : c.since old.length with
  | none =>
      obtain ⟨buffer, updating, hold, rfl⟩ := old_of_since hsince
      rw [perform_old hold]
      rfl
  | some c' =>
      rw [← shift_of_since hsince, perform_behind]
      rfl

/-- Whatever is asked of a source with a past, it is a source with a past afterwards. -/
theorem after_behind (s : MediaSource κ) (old : List SourceBuffer) (url : String)
    (commands : List Command) :
    ∃ old', old'.length = old.length ∧
      (s.behind old url).after commands =
        (s.after (commands.filterMap (·.since old.length))).behind old' url := by
  induction commands generalizing s old with
  | nil => exact ⟨old, rfl, rfl⟩
  | cons c commands ih =>
      rw [after_cons]
      cases hsince : c.since old.length with
      | none =>
          obtain ⟨buffer, updating, hold, rfl⟩ := old_of_since hsince
          obtain ⟨old', hlength, hafter⟩ :=
            ih s (old.modify buffer fun b => { b with updating := updating })
          rw [List.length_modify] at hlength hafter
          rw [perform_old hold, List.filterMap_cons_none hsince]
          exact ⟨old', hlength, hafter⟩
      | some c' =>
          rw [← shift_of_since hsince, perform_behind, shift_of_since hsince,
            List.filterMap_cons_some hsince]
          exact ih (s.perform c').2 old

end

/-! ### Durations -/

/-- The duration after one more result: the one that was set, and none after a detachment. -/
def durationBy (duration : Binary64) : Command × Except Failure Answer → Binary64
  | (.setDuration value, .ok _) => value
  | (.detach, .ok _) => .nan
  | _ => duration

theorem duration_of_asked {p p' : BasicPipeline} {mime : String} {admission : Admission}
    (h : p.addSource mime = (admission, p')) : p'.duration = p.duration := by
  cases admission with
  | admitted type =>
      rw [(BasicPipeline.addSource_admitted h).2.2]
  | unsupported | full => rw [BasicPipeline.addSource_refused h nofun]

variable {s s' : MediaSource BasicPipeline} {c : Command} {r : Except Failure Answer}

theorem Performs.duration_eq (hstep : Performs s c r s') :
    s'.duration = durationBy s.duration (c, r) := by
  cases hstep with
  | added mime type controller hopen hasked => exact duration_of_asked hasked
  | notAdmitted mime e admission controller hopen hasked => exact duration_of_asked hasked
  | wronglyAdmitted mime v type controller hopen hasked => exact duration_of_asked hasked
  | _ => rfl

/-- The duration can be told from the results. -/
theorem duration_after (s : MediaSource BasicPipeline) (commands : List Command) :
    (s.after commands).duration = (s.transcript commands).foldl durationBy s.duration := by
  induction commands generalizing s with
  | nil => rfl
  | cons c commands ih =>
      rw [after_cons, ih, transcript, List.foldl_cons, (performs_perform s c).duration_eq]

/-! ### Detached sources -/

/-- Once its events are taken, a source that was detached is a new source with a past. -/
theorem after_detach (s : MediaSource BasicPipeline) (hclosed : s.readyState ≠ .closed) (url : String) :
    s.after [.detach, .takeEvents] =
      (create url BasicPipeline.initial).behind (s.registered.foldl closeBuffer s.buffers) s.url := by
  simp [perform, detach, hclosed, behind, create, PipelineController.reset]

/-- So it goes on like a new source with a past. -/
theorem exists_past (s : MediaSource BasicPipeline) (hclosed : s.readyState ≠ .closed) (url : String)
    (later : List Command) :
    ∃ past, past.length = s.buffers.length ∧
      (s.after [.detach, .takeEvents]).after later =
        (reached url (later.filterMap (·.since s.buffers.length))).behind past s.url := by
  obtain ⟨past, hlength, hafter⟩ := after_behind (create url BasicPipeline.initial)
    (s.registered.foldl closeBuffer s.buffers) s.url later
  rw [length_foldl_closeBuffer] at hlength hafter
  exact ⟨past, hlength, by rw [after_detach s hclosed url, hafter]; rfl⟩

/-- Detaching makes a source as good as new. A source with a basic pipeline that was detached after any
history, and whose events were taken, goes on like one that was just created: after whatever further
commands the two have the same state, duration and events and the same buffers registered, and the next
command has the same result, apart from the numbers of buffers. Commands that mark an old buffer are
left out of the life of the new source, since they have no effect on the old one. The duration is none
until it is set again, and then it is, bit by bit, the one that was set. -/
theorem detached_as_new (url url' : String) (history : List Command)
    (hdetached : ((reached url history).perform .detach).1 = .ok .nothing)
    (later : List Command) :
    let m := (reached url history).buffers.length
    let reopened := (reached url history).after [.detach, .takeEvents]
    let old := reopened.after later
    let new := reached url' (later.filterMap (·.since m))
    old.readyState = new.readyState ∧ old.duration = new.duration ∧ old.events = new.events ∧
      (∀ type, old.sourceBuffer? type = (new.sourceBuffer? type).map (m + ·)) ∧
      (∀ number, old.buffers[m + number]? = new.buffers[number]?) ∧
      (∀ c, (old.perform c).1 =
        (c.since m).elim (.ok .nothing) fun c' => (new.perform c').1.map (Answer.shift m)) ∧
      old.duration = (reopened.transcript later).foldl durationBy .nan := by
  have hclosed : (reached url history).readyState ≠ .closed := fun hclosed => by
    simp [perform, detach, hclosed] at hdetached
  intro m reopened old new
  obtain ⟨past, hlength, hold⟩ := exists_past _ hclosed url' later
  change past.length = m at hlength
  change old = new.behind past _ at hold
  have hduration : reopened.duration = .nan := by
    change ((reached url history).after [.detach, .takeEvents]).duration = _
    rw [after_detach _ hclosed url']
    rfl
  rw [← hlength, hold, ← hduration]
  refine ⟨rfl, rfl, rfl, fun type => sourceBuffer?_behind type, fun number => ?_,
    fun c => result_behind new past _ c, ?_⟩
  · simp [behind, List.getElem?_append_right]
  · rw [← hold]
    exact duration_after reopened later

/-- The source was ended with a duration and with a buffer. -/
def endedOnce : List Command :=
  [.attach 0, .addSourceBuffer "audio/mp4", .setDuration ⟨0x401c000000000000⟩, .endOfStream none]

/-- Its buffer is marked again and again, and stands in the way of nothing. -/
def openedAgain : List Command :=
  [.setUpdating 0 true, .attach 1, .setUpdating 0 true, .addSourceBuffer "audio/mp4",
    .setUpdating 1 true, .setDuration ⟨0x4008000000000000⟩, .setUpdating 1 false,
    .setDuration ⟨0xfff0000000000000⟩]

theorem detached_as_new_once :
    ((reached "blob:a" endedOnce).perform .detach).1 = .ok .nothing ∧
      openedAgain.filterMap (·.since (reached "blob:a" endedOnce).buffers.length) =
        [.attach 1, .addSourceBuffer "audio/mp4", .setUpdating 0 true,
          .setDuration ⟨0x4008000000000000⟩, .setUpdating 0 false,
          .setDuration ⟨0xfff0000000000000⟩] ∧
      (((reached "blob:a" endedOnce).after [.detach, .takeEvents]).after openedAgain).duration =
        (reached "blob:b" (openedAgain.filterMap
          (·.since (reached "blob:a" endedOnce).buffers.length))).duration ∧
      (((reached "blob:a" endedOnce).after [.detach, .takeEvents]).after openedAgain).duration =
        ⟨0xfff0000000000000⟩ := by
  have hdetached : ((reached "blob:a" endedOnce).perform .detach).1 = .ok .nothing := by rfl
  exact ⟨hdetached, by decide,
    (detached_as_new "blob:a" "blob:b" endedOnce hdetached openedAgain).2.1, by decide⟩

end ProtectedMedia.MediaSource
