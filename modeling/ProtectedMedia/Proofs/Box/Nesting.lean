import Mathlib.Data.Nat.Notation
import ProtectedMedia.Box.Walk

/-!
# How boxes lie in each other

A walk closes a box after everything inside it, so its events nest, and the boxes around a box are
those that have been opened and not been closed yet. This holds also for a walk that ends early.
-/
namespace ProtectedMedia

/-- A box that is opened, and the boxes around it, innermost first. -/
structure Opening where
  around : List Box
  box : Box
  deriving DecidableEq

namespace Event

/-- The openings among events that take place inside the boxes of `around`. -/
def openings : (around : List Box) → List Event → List Opening
  | _, [] => []
  | around, .opened b :: es => ⟨around, b⟩ :: openings (b :: around) es
  | around, .closed _ :: es => openings around.tail es

/-- Inside the boxes of `around`, only the innermost box that is open is ever closed. -/
def Nest : (around : List Box) → List Event → Prop
  | _, [] => True
  | around, .opened b :: es => Nest (b :: around) es
  | [], .closed _ :: _ => False
  | a :: around, .closed b :: es => a = b ∧ Nest around es

/-- Events that nest and close every box they open, so that others may follow. -/
structure Complete (es : List Event) : Prop where
  nest : ∀ around rest, Nest around rest → Nest around (es ++ rest)
  openings : ∀ around rest,
    openings around (es ++ rest) = openings around es ++ openings around rest

variable {es es' : List Event}

theorem complete_nil : Complete [] := ⟨fun _ _ h => h, fun _ _ => rfl⟩

theorem Complete.append (h : Complete es) (h' : Complete es') : Complete (es ++ es') := by
  constructor
  · intro around rest hrest
    rw [List.append_assoc]
    exact h.nest around _ (h'.nest around rest hrest)
  · intro around rest
    rw [List.append_assoc, h.openings, h'.openings, h.openings, List.append_assoc]

/-- A box with everything inside it. -/
theorem Complete.around (h : Complete es) (b : Box) :
    Complete (.opened b :: es ++ [.closed b]) := by
  constructor
  · intro around rest hrest
    rw [List.append_assoc, List.cons_append]
    exact h.nest (b :: around) _ ⟨rfl, hrest⟩
  · intro around rest
    have hend : Event.openings (b :: around) [.closed b] = [] := rfl
    have hrest : Event.openings (b :: around) ([.closed b] ++ rest) =
        Event.openings around rest := rfl
    rw [List.append_assoc, List.cons_append, List.cons_append]
    change ⟨around, b⟩ :: Event.openings (b :: around) (es ++ ([.closed b] ++ rest)) =
      ⟨around, b⟩ :: Event.openings (b :: around) (es ++ [.closed b]) ++ Event.openings around rest
    rw [h.openings, h.openings, hend, hrest, List.append_nil, List.cons_append]

theorem Complete.openings_around (h : Complete es) (around : List Box) (b : Box) :
    Event.openings around (.opened b :: es ++ [.closed b]) =
      ⟨around, b⟩ :: Event.openings (b :: around) es := by
  rw [List.cons_append]
  change ⟨around, b⟩ :: Event.openings (b :: around) (es ++ [.closed b]) = _
  rw [h.openings]
  exact congrArg _ (List.append_nil _)

/-- Everything that is opened is opened inside some boxes. -/
theorem map_box_openings (around : List Box) (es : List Event) (fault : Option BoxFault) :
    (Event.openings around es).map Opening.box = (Trace.mk es fault).boxes := by
  induction es generalizing around with
  | nil => rfl
  | cons e es ih =>
      cases e with
      | opened b => exact congrArg (b :: ·) (ih (b :: around))
      | closed b => exact ih around.tail

theorem opened_of_mem_openings {around : List Box} {o : Opening} (h : o ∈ openings around es) :
    .opened o.box ∈ es := by
  induction es generalizing around with
  | nil => cases h
  | cons e es ih =>
      cases e with
      | opened b =>
          rcases List.mem_cons.mp h with rfl | h
          · exact List.mem_cons_self
          · exact List.mem_cons_of_mem _ (ih h)
      | closed b => exact List.mem_cons_of_mem _ (ih h)

/-- The boxes around everything are around each box that is opened. -/
theorem mem_around_of_nest (inner : List Box) {around : List Box} {a : Box} (ha : a ∈ around)
    (h : Nest inner es) : ∀ o ∈ openings (inner ++ around) es, a ∈ o.around := by
  induction es generalizing inner with
  | nil => exact nofun
  | cons e es ih =>
      cases e with
      | opened b =>
          intro o ho
          rcases List.mem_cons.mp ho with rfl | ho
          · exact List.mem_append_right inner ha
          · exact ih (b :: inner) h o ho
      | closed b =>
          cases inner with
          | nil => exact h.elim
          | cons _ inner => exact ih inner h.2

end Event

namespace Walk

open Event

variable {layout : Layout} {lenient : Bool}

/-- A walk that meets no fault closes every box it opens. -/
theorem complete_boxes {base : ℕ} {limit : Option ℕ} {c : Cursor}
    (h : (boxes layout lenient base limit c).fault = none) :
    Complete (boxes layout lenient base limit c).events := by
  fun_induction boxes layout lenient base limit c with
  | case1 => exact complete_nil
  | case2 => cases h
  | case3 base limit c hmore next hstep _ ih => exact ih h
  | case4 => cases h
  | case5 base limit c hmore b d next hstep _ start henter ih =>
      exact (complete_nil.around b).append (ih h)
  | case6 base limit c hmore b d next hstep _ count start henter _ inside fault hfault ih =>
      cases h
  | case7 base limit c hmore b d next hstep _ count start henter _ inside hfault ihInside ihNext =>
      exact ((ihInside hfault).around b).append (ihNext h)

theorem nest_boxes (base : ℕ) (limit : Option ℕ) (c : Cursor) (around : List Box) :
    Nest around (boxes layout lenient base limit c).events := by
  fun_induction boxes layout lenient base limit c generalizing around with
  | case1 => trivial
  | case2 => trivial
  | case3 base limit c hmore next hstep _ ih => exact ih around
  | case4 => trivial
  | case5 base limit c hmore b d next hstep _ start henter ih => exact ⟨rfl, ih around⟩
  | case6 base limit c hmore b d next hstep _ count start henter _ inside fault hfault ih =>
      exact ih (b :: around)
  | case7 base limit c hmore b d next hstep _ count start henter _ inside hfault ihInside ihNext =>
      exact ((complete_boxes hfault).around b).nest around _ (ihNext around)

theorem nest_trace (data : Bytes) : Nest [] (trace layout lenient data).events :=
  nest_boxes 0 none _ []

end Walk

end ProtectedMedia
