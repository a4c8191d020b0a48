import ProtectedMedia.Proofs.Media.Rounds
import ProtectedMedia.Proofs.Media.Steps

/-!
# The events of a media source

A source queues an event whenever its state changes, and at no other time. So the events that were
taken, and behind them those still pending, tell all that has happened to its state; the last of them
tells the state itself.
-/
namespace ProtectedMedia
open scoped Computability

namespace LifecycleEvent

/-- The event that is due when a state is entered. -/
def entering : ReadyState → LifecycleEvent
  | .closed => .sourceClose
  | .opened => .sourceOpen
  | .ended => .sourceEnded

/-- The events of a source from one attachment to the next detachment. -/
def lifetime : Language LifecycleEvent :=
  {[.sourceOpen]} * (1 + {[.sourceEnded]}) * {[.sourceClose]}

/-- The state of a source whose last event is known; without any it was never attached. -/
def lastState : Option LifecycleEvent → ReadyState
  | none => .closed
  | some .sourceClose => .closed
  | some .sourceOpen => .opened
  | some .sourceEnded => .ended

theorem mem_lifetime : [sourceOpen, sourceClose] ∈ lifetime :=
  append_mem_without (a := [sourceOpen]) rfl rfl

theorem mem_lifetime_ended : [sourceOpen, sourceEnded, sourceClose] ∈ lifetime :=
  append_mem_with (a := [sourceOpen]) (b := [sourceEnded]) rfl rfl rfl

theorem getLast?_of_mem_lifetime {word : List LifecycleEvent} (h : word ∈ lifetime) :
    word.getLast? = some .sourceClose := by
  obtain ⟨front, -, last, hlast, rfl⟩ := Language.mem_mul.mp h
  cases hlast
  exact List.getLast?_concat

/-- Whole lifetimes leave the source closed. -/
theorem lastState_of_lifetimes {word : List LifecycleEvent} (h : word ∈ lifetime∗) :
    lastState word.getLast? = .closed := by
  obtain ⟨lifetimes, rfl, hmem⟩ := Language.mem_kstar.mp h
  induction lifetimes using List.reverseRecOn with
  | nil => rfl
  | append_singleton front last ih =>
      have hlast := getLast?_of_mem_lifetime (hmem last (by simp))
      rw [List.flatten_concat, List.getLast?_append, hlast]
      rfl

end LifecycleEvent

namespace MediaSource
open LifecycleEvent

variable {κ : Type} [PipelineController κ]

/-- The events that a command hands over. -/
def handedOver : Except Failure Answer → List LifecycleEvent
  | .ok (.events events) => events
  | _ => []

/-- The events that were taken in a run. -/
def taken (s : MediaSource κ) : List Command → List LifecycleEvent
  | [] => []
  | c :: commands => handedOver (s.perform c).1 ++ (s.perform c).2.taken commands

def change (before after : ReadyState) : List LifecycleEvent :=
  if after = before then [] else [entering after]

/-- An event for each change of the state in a run. -/
def changes (s : MediaSource κ) : List Command → List LifecycleEvent
  | [] => []
  | c :: commands =>
      change s.readyState (s.perform c).2.readyState ++ (s.perform c).2.changes commands

variable {s s' : MediaSource κ} {c : Command} {r : Except Failure Answer}

@[simp] theorem change_self (state : ReadyState) : change state state = [] := if_pos rfl

/-- A command queues the event of its change behind those that it does not hand over. -/
theorem Performs.events (hstep : Performs s c r s') :
    handedOver r ++ s'.events = s.events ++ change s.readyState s'.readyState := by
  cases hstep with
  | attached element hclosed => simp [handedOver, hclosed, change, entering]
  | detached hclosed => simp [handedOver, change, entering, Ne.symm hclosed]
  | ended hopen => simp [handedOver, hopen, change, entering]
  | _ => simp [handedOver, setUpdating]

theorem taken_append_events (s : MediaSource κ) (commands : List Command) :
    s.taken commands ++ (s.after commands).events = s.events ++ s.changes commands := by
  induction commands generalizing s with
  | nil => simp [taken, changes]
  | cons c commands ih =>
      have hstep := (performs_perform s c).events
      calc s.taken (c :: commands) ++ (s.after (c :: commands)).events
          = handedOver (s.perform c).1 ++
              ((s.perform c).2.taken commands ++ ((s.perform c).2.after commands).events) :=
            List.append_assoc _ _ _
        _ = handedOver (s.perform c).1 ++ (s.perform c).2.events ++
              (s.perform c).2.changes commands := by rw [ih, List.append_assoc]
        _ = s.events ++ s.changes (c :: commands) := by rw [hstep, changes, List.append_assoc]

/-- The changes that have led to a state, from the first attachment on. -/
inductive LedTo : ReadyState → List LifecycleEvent → Prop
  | closed {word : List LifecycleEvent} (h : word ∈ lifetime∗) : LedTo .closed word
  | opened {word : List LifecycleEvent} (h : word ∈ lifetime∗) :
      LedTo .opened (word ++ [.sourceOpen])
  | ended {word : List LifecycleEvent} (h : word ∈ lifetime∗) :
      LedTo .ended (word ++ [.sourceOpen, .sourceEnded])

variable {state : ReadyState} {word : List LifecycleEvent}

theorem LedTo.begins (h : LedTo state word) : Begins lifetime word := by
  cases h with
  | closed h => exact begins_of_mem h
  | opened h => exact begins_append h [.sourceClose] mem_lifetime
  | ended h => exact begins_append h [.sourceClose] mem_lifetime_ended

theorem LedTo.lastState_eq (h : LedTo state word) : lastState word.getLast? = state := by
  cases h with
  | closed h => exact lastState_of_lifetimes h
  | opened h => simp [lastState]
  | ended h => simp [lastState]

theorem LedTo.detached (h : LedTo state word) (hclosed : state ≠ .closed) :
    LedTo .closed (word ++ [.sourceClose]) := by
  cases h with
  | closed => exact absurd rfl hclosed
  | opened h =>
      rw [List.append_assoc]
      exact .closed (append_mem_rounds h mem_lifetime)
  | ended h =>
      rw [List.append_assoc]
      exact .closed (append_mem_rounds h mem_lifetime_ended)

/-- A source is opened when it is closed, ended when it is open, and closed when it is not. -/
theorem LedTo.performs (h : LedTo s.readyState word) (hstep : Performs s c r s') :
    LedTo s'.readyState (word ++ change s.readyState s'.readyState) := by
  cases hstep with
  | attached element hclosed =>
      rw [hclosed] at h ⊢
      cases h with
      | closed h => exact .opened h
  | detached hclosed =>
      have hchange : change s.readyState .closed = [.sourceClose] := if_neg (Ne.symm hclosed)
      change LedTo .closed (word ++ change s.readyState .closed)
      rw [hchange]
      exact h.detached hclosed
  | ended hopen =>
      rw [hopen] at h ⊢
      cases h with
      | opened h =>
          rw [List.append_assoc]
          exact .ended h
  | _ => simpa [setUpdating] using h

theorem LedTo.after (h : LedTo s.readyState word) (commands : List Command) :
    LedTo (s.after commands).readyState (word ++ s.changes commands) := by
  induction commands generalizing s word with
  | nil => rwa [changes, List.append_nil]
  | cons c commands ih =>
      have hnext := ih (h.performs (performs_perform s c))
      rw [List.append_assoc] at hnext
      exact hnext

/-- The events that were taken in a run, and those still pending behind them, are the changes of the
state, each of them once and in order. They begin a sequence of lifetimes, and the last one tells the
state. -/
theorem events_tell_all (url : String) (controller : κ) (commands : List Command) :
    (create url controller).taken commands ++ ((create url controller).after commands).events =
        (create url controller).changes commands ∧
      Begins lifetime ((create url controller).changes commands) ∧
      ((create url controller).after commands).readyState =
        lastState ((create url controller).changes commands).getLast? := by
  have hled : LedTo (create url controller).readyState [] :=
    .closed (Language.nil_mem_kstar lifetime)
  have hafter := hled.after commands
  exact ⟨taken_append_events _ commands, hafter.begins, hafter.lastState_eq.symm⟩

end MediaSource

end ProtectedMedia
