import Mathlib.Data.List.Infix
import Mathlib.Data.Nat.Notation
import ProtectedMedia.Box.Walk

/-!
# What a handler is shown

A handler runs over the trace of a walk and ends where it fails first. What it has been given until
then depends only on the front of the trace that it got through, and so does its failure.
-/
namespace ProtectedMedia.Trace

variable {τ : Type} {handler : τ → Event → Except Error τ} {start last : τ} {es more : List Event}
  {error : Error}

/-- The boxes that a handler is given as they are opened. If it fails at a box, then that box is the
last one. -/
def shown (handler : τ → Event → Except Error τ) : τ → List Event → List Box
  | _, [] => []
  | s, .opened b :: es =>
    b :: match handler s (.opened b) with
      | .error _ => []
      | .ok s' => shown handler s' es
  | s, .closed b :: es =>
    match handler s (.closed b) with
    | .error _ => []
    | .ok s' => shown handler s' es

/-- It is given the first boxes of the trace. -/
theorem shown_prefix_boxes (handler : τ → Event → Except Error τ) (start : τ) (es : List Event)
    (fault : Option BoxFault) : shown handler start es <+: (Trace.mk es fault).boxes := by
  induction es generalizing start with
  | nil => exact List.prefix_refl []
  | cons e es ih =>
      cases e with
      | opened b =>
          rw [shown]
          apply List.prefix_cons_inj b |>.mpr
          cases handler start (.opened b) with
          | error error => exact List.nil_prefix
          | ok next => exact ih next
      | closed b =>
          rw [shown]
          cases handler start (.closed b) with
          | error error => exact List.nil_prefix
          | ok next => exact ih next

/-- A longer trace shows it the same boxes, and more only if it comes to the end of the shorter. -/
theorem shown_append (handler : τ → Event → Except Error τ) (start : τ) (es more : List Event) :
    shown handler start (es ++ more) =
      shown handler start es ++
        match es.foldlM handler start with
        | .error _ => []
        | .ok s => shown handler s more := by
  induction es generalizing start with
  | nil => rfl
  | cons e es ih =>
      rw [List.cons_append, List.foldlM_cons]
      cases e with
      | opened b =>
          rw [shown, shown]
          cases handler start (.opened b) with
          | error error => rfl
          | ok next => exact congrArg (b :: ·) (ih next)
      | closed b =>
          rw [shown, shown]
          cases handler start (.closed b) with
          | error error => rfl
          | ok next => exact ih next

/-- A handler that fails does so on every longer trace, too. -/
theorem run_of_failed {t t' : Trace} (h : t.events <+: t'.events)
    (hfailed : t.events.foldlM handler start = .error error) :
    t.run handler start = .error error ∧ t'.run handler start = .error error := by
  obtain ⟨rest, hrest⟩ := h
  constructor
  · rw [run, hfailed]
    rfl
  · rw [run, ← hrest, List.foldlM_append, hfailed]
    rfl

/-- One that does not leaves the outcome to the walk. -/
theorem run_of_passed {t : Trace} (hpassed : t.events.foldlM handler start = .ok last) :
    t.run handler start =
      match t.fault with
      | none => .ok last
      | some fault => .error (.box fault) := by
  rw [run, hpassed]
  rfl

end ProtectedMedia.Trace
