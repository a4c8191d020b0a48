import ProtectedMedia.Proofs.Media.Observed

/-!
# Sources with a past

A source that has handed out buffers before does the same as one that has not, under another url if
need be: its new buffers have higher numbers, and nothing else is different. The old buffers take no
part, even if somebody marks them as updating.
-/
namespace ProtectedMedia

theorem modify_append_right {α : Type} (l r : List α) (k : ℕ) (f : α → α) :
    (l ++ r).modify (l.length + k) f = l ++ r.modify k f := by
  induction l with
  | nil => simp
  | cons a l ih => simp [Nat.add_right_comm, ih]

theorem modify_append_left {α : Type} {l : List α} {k : ℕ} (h : k < l.length) (r : List α)
    (f : α → α) : (l ++ r).modify k f = l.modify k f ++ r := by
  induction l generalizing k with
  | nil => cases h
  | cons a l ih =>
      cases k with
      | zero => rfl
      | succ k => simp [ih (Nat.lt_of_succ_lt_succ h)]

theorem lookup_map_snd {α β γ : Type} [BEq α] (l : List (α × β)) (f : β → γ) (a : α) :
    (l.map fun entry => (entry.1, f entry.2)).lookup a = (l.lookup a).map f := by
  induction l with
  | nil => rfl
  | cons entry l ih =>
      obtain ⟨a', b⟩ := entry
      simp only [List.map_cons, List.lookup_cons]
      split <;> simp [ih]

namespace MediaSource

/-- The command with another numbering of the buffers. -/
def Command.shift (m : ℕ) : Command → Command
  | .setUpdating buffer updating => .setUpdating (m + buffer) updating
  | c => c

def Answer.shift (m : ℕ) : Answer → Answer
  | .buffer number => .buffer (m + number)
  | a => a

section
variable {κ : Type} {s : MediaSource κ} {old : List SourceBuffer} {url : String}

/-- The source under another url, and with old buffers that it handed out before its own. -/
def behind (s : MediaSource κ) (old : List SourceBuffer) (url : String) : MediaSource κ :=
  { s with
    url := url
    buffers := old ++ s.buffers
    registered := s.registered.map fun entry => (entry.1, old.length + entry.2) }

theorem behind_nil (s : MediaSource κ) (url : String) : s.behind [] url = { s with url := url } := by
  simp [behind]

@[simp] theorem sourceBuffer?_behind (type : StreamType) :
    (s.behind old url).sourceBuffer? type = (s.sourceBuffer? type).map (old.length + ·) :=
  lookup_map_snd _ _ _

@[simp] theorem anyUpdating_behind : (s.behind old url).anyUpdating = s.anyUpdating := by
  simp [anyUpdating, behind, Function.comp_def, List.getElem?_append_right]

@[simp] theorem check_behind (operation : Operation) :
    (s.behind old url).check operation = s.check operation := by
  rw [check, check, anyUpdating_behind]
  rfl

theorem foldl_closeBuffer_append (registered : List (StreamType × ℕ))
    (old buffers : List SourceBuffer) :
    (registered.map fun entry => (entry.1, old.length + entry.2)).foldl closeBuffer (old ++ buffers) =
      old ++ registered.foldl closeBuffer buffers := by
  induction registered generalizing buffers with
  | nil => rfl
  | cons entry registered ih =>
      rw [List.map_cons, List.foldl_cons, List.foldl_cons, ← ih]
      simp only [closeBuffer, modify_append_right]

theorem registerBuffer_behind (type : StreamType) :
    (s.behind old url).registerBuffer type =
      ((s.registerBuffer type).1.map (Answer.shift old.length),
        (s.registerBuffer type).2.behind old url) := by
  unfold registerBuffer
  by_cases hunknown : type = .unknown
  · simp [hunknown, Except.map]
  · rw [sourceBuffer?_behind, Option.isSome_map]
    cases (s.sourceBuffer? type).isSome with
    | true => simp [hunknown, Except.map]
    | false => simp [hunknown, Except.map, Answer.shift, behind]

end

variable {κ : Type} [PipelineController κ] {s : MediaSource κ} {old : List SourceBuffer} {url : String}

theorem addSourceBuffer_behind (mime : String) :
    (s.behind old url).addSourceBuffer mime =
      ((s.addSourceBuffer mime).1.map (Answer.shift old.length),
        (s.addSourceBuffer mime).2.behind old url) := by
  unfold addSourceBuffer
  rw [check_behind]
  cases s.check .addSourceBuffer with
  | error e => rfl
  | ok =>
      have hasked : PipelineController.addSource (s.behind old url).controller mime =
          PipelineController.addSource s.controller mime := rfl
      rw [hasked]
      obtain ⟨admission, controller⟩ := PipelineController.addSource s.controller mime
      cases admission with
      | unsupported => rfl
      | full => rfl
      | admitted type => exact registerBuffer_behind (s := { s with controller := controller }) type

/-- A source with a past answers with higher numbers, and goes on having the same past. -/
theorem perform_behind (s : MediaSource κ) (old : List SourceBuffer) (url : String) (c : Command) :
    (s.behind old url).perform (c.shift old.length) =
      ((s.perform c).1.map (Answer.shift old.length), (s.perform c).2.behind old url) := by
  cases c with
  | attach element =>
      by_cases hclosed : s.readyState = .closed
      · simp [Command.shift, perform, attach, behind, hclosed, Except.map, Answer.shift]
      · simp [Command.shift, perform, attach, behind, hclosed, Except.map]
  | detach =>
      by_cases hclosed : s.readyState = .closed
      · simp [Command.shift, perform, detach, behind, hclosed, Except.map]
      · simp [Command.shift, perform, detach, behind, hclosed, Except.map, Answer.shift,
          foldl_closeBuffer_append]
  | addSourceBuffer mime => exact addSourceBuffer_behind mime
  | setUpdating buffer updating =>
      simp [Command.shift, perform, setUpdating, behind, Except.map, Answer.shift,
        modify_append_right]
  | endOfStream error =>
      simp only [Command.shift, perform, endOfStream, check_behind]
      cases s.check .endOfStream with
      | error e => rfl
      | ok => cases error <;> rfl
  | setDuration value =>
      simp only [Command.shift, perform, setDuration, check_behind]
      cases value.isNaN with
      | true => rfl
      | false => cases s.check .setDuration <;> rfl
  | takeEvents => rfl
  | member name => rfl

/-- An old buffer can be marked as updating, and nothing comes of it. -/
theorem perform_old {buffer : ℕ} (h : buffer < old.length) (updating : Bool) :
    (s.behind old url).perform (.setUpdating buffer updating) =
      (.ok .nothing,
        s.behind (old.modify buffer fun b => { b with updating := updating }) url) := by
  simp [perform, setUpdating, behind, modify_append_left h]

/-- The url of a source is a mere label. -/
theorem perform_renamed (s : MediaSource κ) (url : String) (c : Command) :
    { s with url := url }.perform c = ((s.perform c).1, { (s.perform c).2 with url := url }) := by
  have h := perform_behind s [] url c
  have hcommand : c.shift 0 = c := by cases c <;> simp [Command.shift]
  have hanswer : Answer.shift 0 = id := by
    funext a
    cases a <;> simp [Answer.shift]
  simpa [behind_nil, hcommand, hanswer] using h

end MediaSource

end ProtectedMedia
