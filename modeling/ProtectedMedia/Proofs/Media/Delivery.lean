import Mathlib.Data.List.Basic
import ProtectedMedia.Proofs.Media.Sessions

/-!
# Who receives a signal

A signal through the client of a source is for the element that the source was attached to last, unless
it was detached since; and it is received only if that element still exists. Both can be told from the
requests of the session and the answers to them. A pipeline that signals while it is being called
finds the slot of its source as the command leaves it, so that such a signal is one that follows the
command.
-/
namespace ProtectedMedia

namespace MediaSource
variable {κ : Type} [PipelineController κ] {s s' : MediaSource κ} {c : Command}
  {r : Except Failure Answer}

/-- The element that a source has after a command with a result. -/
def elementAfter (element : Option ℕ) : Command → Except Failure Answer → Option ℕ
  | .attach e, .ok _ => some e
  | .detach, .ok _ => none
  | _, _ => element

theorem Performs.element_eq (hstep : Performs s c r s') :
    s'.element = elementAfter s.element c r := by
  cases hstep <;> rfl

end MediaSource

namespace PresentationElement
variable (x : PresentationElement)

@[simp] theorem alive_receive (signal : Signal) : (x.receive signal).alive = x.alive := by
  unfold receive
  split <;> rfl

@[simp] theorem alive_drain : x.drain.2.alive = x.alive := by
  unfold drain
  split <;> rfl

theorem inbox_receive (signal : Signal) :
    (x.receive signal).inbox = x.inbox ++ if x.alive then [signal] else [] := by
  unfold receive
  split <;> simp

end PresentationElement

namespace Session

section
variable {κ : Type}

/-! ### What requests and answers tell -/

/-- The element of a source after one more answer: an attachment or a detachment has taken effect if
it was answered without a failure. -/
def attachedBy (n : ℕ) (element : Option ℕ) : Request κ × Except Failure Answer → Option ℕ
  | (.command m (.attach e), .ok _) => if m = n then some e else element
  | (.command m .detach, .ok _) => if m = n then none else element
  | _ => element

/-- The element that a source is attached to. -/
def attachment (n : ℕ) (past : List (Request κ × Except Failure Answer)) : Option ℕ :=
  past.foldl (attachedBy n) none

def livesBy (e : ℕ) (lives : Bool) : Request κ × Except Failure Answer → Bool
  | (.createElement, .ok (.number k)) => if k = e then true else lives
  | (.dropElement k, _) => if k = e then false else lives
  | _ => lives

/-- Whether an element was created and not dropped since. -/
def lives (e : ℕ) (past : List (Request κ × Except Failure Answer)) : Bool :=
  past.foldl (livesBy e) false

/-- The signals of a request that are for an element, given what sources are attached to and whether
the element lives. -/
def addressedBy (element? : ℕ → Option ℕ) (alive : Bool) (e : ℕ) : Request κ → List Signal
  | .signal client signal => if client.bind element? = some e ∧ alive then [signal] else []
  | _ => []

/-- The signals of a run that are for an element, in the order in which they were raised. -/
def addressed (e : ℕ) (past : List (Request κ × Except Failure Answer)) :
    List (Request κ × Except Failure Answer) → List Signal
  | [] => []
  | (r, a) :: future =>
      addressedBy (attachment · past) (lives e past) e r ++ addressed e (past ++ [(r, a)]) future

/-! ### Elements -/

variable {s : Session κ} {e n : ℕ}

/-- The element in the slot of a source. -/
def element? (s : Session κ) (n : ℕ) : Option ℕ := s.sources[n]?.bind (·.source.element)

def alive (s : Session κ) (e : ℕ) : Bool := s.elements[e]?.any (·.alive)

def inbox (s : Session κ) (e : ℕ) : List Signal := (s.elements[e]?.map (·.inbox)).getD []

theorem send_eq (s : Session κ) (client : Option ℕ) (signal : Signal) :
    s.send client signal = { s with
      elements := match client.bind s.element? with
        | none => s.elements
        | some e => s.elements.modify e fun x => x.receive signal } := by
  unfold send
  rw [Option.bind_assoc]
  change (match client.bind s.element? with | none => s | some e => _) = _
  cases client.bind s.element? <;> rfl

theorem getElem?_send (s : Session κ) (client : Option ℕ) (signal : Signal) (e : ℕ) :
    (s.send client signal).elements[e]? = s.elements[e]?.map fun x =>
      if client.bind s.element? = some e then x.receive signal else x := by
  rw [send_eq]
  cases client.bind s.element? with
  | none => simp
  | some k => simp [getElem?_modify_if]

end

variable {κ : Type} [PipelineController κ] {s : Session κ} {e n : ℕ} {r : Request κ}

/-- Requests do this to the elements. -/
theorem elements_perform (s : Session κ) (r : Request κ) :
    (s.perform r).2.elements = match r with
      | .createElement => s.elements ++ [.create]
      | .dropElement e => s.elements.modify e (·.drop)
      | .drainElement e => s.elements.modify e (·.drain.2)
      | .signal client signal => (s.send client signal).elements
      | _ => s.elements := by
  cases r with
  | createSource controller urls =>
      change (s.createSource controller urls).2.elements = _
      cases hurl : urls.find? fun url => !s.registry.contains url with
      | none => rw [createSource_unavailable hurl]
      | some url => rw [createSource_eq hurl]
  | dropSource m =>
      simp only [perform, dropSource]
      split
      · rfl
      · split
        · rfl
        · split <;> rfl
  | drainElement k =>
      simp only [perform]
      cases hk : s.elements[k]? with
      | none => exact (modify_of_fixed (by simp [hk])).symm
      | some x =>
          rw [List.modify_eq_set_getElem?, hk]
          rfl
  | command m c =>
      change (s.command m c).2.elements = _
      cases hsource : s.source? m with
      | none => rw [command_unavailable hsource]
      | some source => rw [command_eq hsource]; rfl
  | findBuffer m type =>
      simp only [perform]
      split <;> rfl
  | setUpdating b updating =>
      simp only [perform]
      split
      · rfl
      · split <;> rfl
  | register | unregister => simp [perform]
  | createElement | dropElement | signal | lookup => rfl

/-- Requests do this to one element. -/
theorem getElem?_perform (s : Session κ) (r : Request κ) (e : ℕ) :
    (s.perform r).2.elements[e]? = match r with
      | .createElement => if s.elements.length = e then some .create else s.elements[e]?
      | .dropElement k => s.elements[e]?.map fun x => if k = e then x.drop else x
      | .drainElement k => s.elements[e]?.map fun x => if k = e then x.drain.2 else x
      | .signal client signal =>
          s.elements[e]?.map fun x =>
            if client.bind s.element? = some e then x.receive signal else x
      | _ => s.elements[e]? := by
  rw [elements_perform]
  cases r with
  | createElement =>
      change (s.elements ++ [.create])[e]? = _
      by_cases he : s.elements.length = e
      · subst he
        simp
      · rw [if_neg he, getElem?_concat_of_ne (Ne.symm he)]
  | dropElement k => exact getElem?_modify_if _ _ _ _
  | drainElement k => exact getElem?_modify_if _ _ _ _
  | signal client signal => exact getElem?_send s client signal e
  | _ => rfl

theorem alive_perform (s : Session κ) (r : Request κ) (e : ℕ) :
    (s.perform r).2.alive e = livesBy e (s.alive e) (r, (s.perform r).1) := by
  unfold alive
  rw [getElem?_perform]
  cases r with
  | createElement =>
      change _ = if s.elements.length = e then true else _
      by_cases he : s.elements.length = e <;> simp [he, PresentationElement.create]
  | dropElement k =>
      change _ = if k = e then false else _
      cases s.elements[e]? with
      | none => simp
      | some x => by_cases hk : k = e <;> simp [hk, PresentationElement.drop]
  | drainElement k =>
      change _ = s.elements[e]?.any (·.alive)
      cases s.elements[e]? with
      | none => rfl
      | some x => by_cases hk : k = e <;> simp [hk]
  | signal client signal =>
      change _ = s.elements[e]?.any (·.alive)
      cases s.elements[e]? with
      | none => rfl
      | some x => by_cases hk : client.bind s.element? = some e <;> simp [hk]
  | _ => rfl

/-- What an element gives away on a request: what it hands over when it is asked for its signals, and
what it takes along when it is dropped. -/
def givenBy (s : Session κ) (e : ℕ) (r : Request κ) : List Signal :=
  match r, (s.perform r).1 with
  | .drainElement k, .ok (.signals (some signals)) => if k = e then signals else []
  | .dropElement k, _ => if k = e then s.inbox e else []
  | _, _ => []

/-- All that an element is told in a run: what it gives away, and what it still keeps at the end. -/
def told (s : Session κ) (e : ℕ) : List (Request κ) → List Signal
  | [] => s.inbox e
  | r :: requests => s.givenBy e r ++ (s.perform r).2.told e requests

theorem givenBy_drainElement (k : ℕ) :
    s.givenBy e (.drainElement k) = if k = e ∧ s.alive e = true then s.inbox e else [] := by
  unfold givenBy alive inbox
  by_cases hk : k = e
  · subst hk
    simp only [perform]
    cases s.elements[k]? with
    | none => simp
    | some x => cases halive : x.alive <;> simp [halive, PresentationElement.drain]
  · split <;> simp_all

theorem givenBy_eq (s : Session κ) (e : ℕ) (r : Request κ) :
    s.givenBy e r = match r with
      | .drainElement k => if k = e ∧ s.alive e = true then s.inbox e else []
      | .dropElement k => if k = e then s.inbox e else []
      | _ => [] := by
  cases r with
  | drainElement k => exact givenBy_drainElement k
  | _ => rfl

/-- An element gives away or keeps what it had, and the signals that are for it. -/
theorem inbox_perform (s : Session κ) (e : ℕ) (r : Request κ) :
    s.givenBy e r ++ (s.perform r).2.inbox e =
      s.inbox e ++ addressedBy s.element? (s.alive e) e r := by
  rw [givenBy_eq]
  unfold inbox alive
  rw [getElem?_perform]
  cases r with
  | createElement =>
      by_cases he : s.elements.length = e
      · subst he
        simp [addressedBy, PresentationElement.create]
      · simp [he, addressedBy]
  | dropElement k =>
      cases s.elements[e]? with
      | none => simp [addressedBy]
      | some x => by_cases hk : k = e <;> simp [hk, addressedBy, PresentationElement.drop]
  | drainElement k =>
      cases s.elements[e]? with
      | none => simp [addressedBy]
      | some x =>
          by_cases hk : k = e <;> cases halive : x.alive <;>
            simp [hk, halive, addressedBy, PresentationElement.drain]
  | signal client signal =>
      cases s.elements[e]? with
      | none => simp [addressedBy]
      | some x =>
          by_cases hk : client.bind s.element? = some e <;>
            simp [hk, addressedBy, PresentationElement.inbox_receive]
  | _ => simp [addressedBy]

/-- What a session knows of sources and elements can be told from its past. -/
structure Accords (s : Session κ) (past : List (Request κ × Except Failure Answer)) : Prop where
  element? : ∀ n, s.element? n = attachment n past
  alive : ∀ e, s.alive e = lives e past

omit [PipelineController κ] in
theorem attachedBy_of_kept (element : Option ℕ) {a : Except Failure Answer}
    (h : ∀ c, r = .command n c → a = .error .unavailable) :
    attachedBy n element (r, a) = element := by
  have hm : ∀ {m : ℕ} {c : MediaSource.Command} {answer : Answer},
      (r, a) = (.command m c, .ok answer) → m ≠ n := by
    rintro m c answer ⟨rfl, rfl⟩ rfl
    exact absurd (h c rfl) (by simp)
  unfold attachedBy
  split
  · rename_i heq
    exact if_neg (hm heq)
  · rename_i heq
    exact if_neg (hm heq)
  · rfl

omit [PipelineController κ] in
/-- A session passes on whether a command has taken effect. -/
theorem attachedBy_command (s : Session κ) (element : Option ℕ) (c : MediaSource.Command)
    (result : Except MediaSource.Failure MediaSource.Answer) :
    attachedBy (κ := κ) n element (.command n c, s.passOn result) =
      MediaSource.elementAfter element c result := by
  cases c with
  | attach e =>
      cases result with
      | error => rfl
      | ok a => cases a <;> exact if_pos rfl
  | detach =>
      cases result with
      | error => rfl
      | ok a => cases a <;> exact if_pos rfl
  | _ => rfl

theorem element?_perform (s : Session κ) (n : ℕ) (r : Request κ) :
    (s.perform r).2.element? n = attachedBy n (s.element? n) (r, (s.perform r).1) := by
  have hleaves := leaves_perform s n r
  generalize (s.perform r).1 = a at hleaves ⊢
  unfold element?
  generalize (s.perform r).2.sources[n]? = slot at hleaves ⊢
  cases hleaves with
  | kept r a hcommand => exact (attachedBy_of_kept _ hcommand).symm
  | created controller urls url a hfree =>
      rw [hfree]
      rfl
  | commanded source c hsource =>
      rw [source?_eq_some.mp hsource, attachedBy_command]
      exact (MediaSource.performs_perform source c).element_eq
  | updatingSet slot b number updating hslot =>
      rw [hslot]
      rfl
  | dropped slot a hslot =>
      rw [hslot]
      rfl

theorem Accords.perform {past : List (Request κ × Except Failure Answer)} (h : s.Accords past) :
    (s.perform r).2.Accords (past ++ [(r, (s.perform r).1)]) where
  element? n := by
    rw [element?_perform, h.element?, attachment, attachment, List.foldl_append]
    rfl
  alive e := by
    rw [alive_perform, h.alive, lives, lives, List.foldl_append]
    rfl

theorem Accords.after {past : List (Request κ × Except Failure Answer)} (h : s.Accords past)
    (requests : List (Request κ)) :
    (s.after requests).Accords (past ++ s.transcript requests) := by
  induction requests generalizing s past with
  | nil => simpa [transcript] using h
  | cons r requests ih => simpa [transcript] using ih h.perform

theorem Accords.told_eq {past : List (Request κ × Except Failure Answer)} (h : s.Accords past)
    (requests : List (Request κ)) :
    s.told e requests = s.inbox e ++ addressed e past (s.transcript requests) := by
  induction requests generalizing s past with
  | nil => simp [told, transcript, addressed]
  | cons r requests ih =>
      rw [told, ih h.perform, ← List.append_assoc, inbox_perform, h.alive, funext h.element?,
        List.append_assoc]
      rfl

omit [PipelineController κ] in
theorem accords_empty : (empty : Session κ).Accords [] where
  element? _ := rfl
  alive _ := rfl

/-- At any moment of a session, a signal through the client of a source reaches the element that the
source was attached to when an attachment or a detachment of it last took effect, if there is one and
it still lives, and it reaches no other; nothing else changes. All that an element is told in a run
are the signals that were for it, in the order in which they were raised. -/
theorem signals_reach_attached (requests : List (Request κ)) :
    (∀ client signal e,
      ((empty.after requests).perform (.signal client signal)).2.elements[e]? =
        (empty.after requests).elements[e]?.map fun x =>
          if client.bind (attachment · (empty.transcript requests)) = some e ∧
              lives e (empty.transcript requests) = true then
            { x with inbox := x.inbox ++ [signal] }
          else x) ∧
      (∀ client signal,
        ((empty.after requests).perform (.signal client signal)).2 = { empty.after requests with
          elements := ((empty.after requests).perform (.signal client signal)).2.elements }) ∧
      (∀ e, lives e (empty.transcript requests) = (empty.after requests).elements[e]?.any (·.alive)) ∧
      ∀ e, (empty : Session κ).told e requests = addressed e [] (empty.transcript requests) := by
  have haccords := accords_empty.after requests
  rw [List.nil_append] at haccords
  refine ⟨fun client signal e => ?_, fun client signal => ?_, fun e => (haccords.alive e).symm, ?_⟩
  · have hclient : client.bind (empty.after requests).element? =
        client.bind (attachment · (empty.transcript requests)) :=
      congrArg client.bind (funext haccords.element?)
    rw [getElem?_perform, ← hclient, ← haccords.alive e, alive]
    cases (empty.after requests).elements[e]? with
    | none => rfl
    | some x => cases halive : x.alive <;> simp [PresentationElement.receive, halive]
  · change (empty.after requests).send client signal = { empty.after requests with
      elements := ((empty.after requests).send client signal).elements }
    rw [send_eq]
  · intro e
    exact accords_empty.told_eq requests

/-- The second element hears of the source only once it has taken the place of the first one, and goes
on hearing of it when the source is gone; what the first one does not hand over it takes along. -/
example : let requests : List (Request BasicPipeline) :=
      [.createSource .initial ["blob:a"], .createElement, .createElement,
        .signal (some 0) .waitingForKey, .command 0 (.attach 0), .command 0 (.attach 1),
        .signal (some 0) (.pipelineStatus .playing), .dropElement 0,
        .signal (some 0) (.pipelineStatus .paused), .command 0 .detach, .command 0 (.attach 1),
        .dropSource 0, .signal (some 0) (.pipelineStatus .ended), .signal none .waitingForKey]
    (empty.told 0 requests, empty.told 1 requests) =
      ([.pipelineStatus .playing], [.pipelineStatus .ended]) := by
  decide

end Session

end ProtectedMedia
