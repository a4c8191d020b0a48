import Mathlib.Data.List.Infix
import Mathlib.Data.Nat.Notation
import ProtectedMedia.Box.Walk

/-!
# One step of a walk

What a walk meets from a cursor on, given what the next box turns out to be: the end, a fault, a box
that is passed over, one whose own fields are refused, a leaf, or a box with boxes inside.
-/
namespace ProtectedMedia

namespace Trace

/-- What a walk meets that goes on with `more` where `t` ends without a fault. -/
def before (t more : Trace) : Trace :=
  match t.fault with
  | none => more.after t.events
  | some _ => t

theorem before_of_fault {t more : Trace} {fault : BoxFault} (h : t.fault = some fault) :
    t.before more = t := by
  rw [before, h]

theorem before_of_done {t more : Trace} (h : t.fault = none) :
    t.before more = more.after t.events := by
  rw [before, h]

theorem prefix_events_before (t more : Trace) : t.events <+: (t.before more).events := by
  cases h : t.fault with
  | none =>
      rw [before_of_done h]
      exact List.prefix_append _ _
  | some fault => rw [before_of_fault h]

end Trace

namespace Walk

variable {layout : Layout} {lenient : Bool} {base : ℕ} {c : Cursor}

theorem boxes_nil (h : c.rest = []) : boxes layout lenient base none c = .done := by
  rw [boxes, if_pos]
  right
  simp [Cursor.hasMore, h]

section Steps
variable {limit : Option ℕ} {b : Box} {d : Declaration} {next start : Cursor}
  (hmore : ¬(limit = some 0 ∨ !c.hasMore))
include hmore

/-- What a walk makes of the next box, in all cases. Behind a box with boxes inside it goes on only if
it met no fault in there. -/
theorem boxes_more : boxes layout lenient base limit c =
    match box layout lenient base c with
    | .error fault => .failed fault
    | .ok (none, next) => boxes layout lenient base (limit.map (· - 1)) next
    | .ok (some (b, d), next) =>
      match enter d.content (Cursor.ofBytes b.payload) with
      | .error fault => .after [.opened b] (.failed fault)
      | .ok (none, _) =>
        .after [.opened b, .closed b] (boxes layout lenient base (limit.map (· - 1)) next)
      | .ok (some count, start) =>
        .after [.opened b] ((boxes layout lenient (b.start + b.headerSize) count start).before
          (.after [.closed b] (boxes layout lenient base (limit.map (· - 1)) next))) := by
  rw [boxes, if_neg hmore]
  split
  · rename_i hstep
    rw [hstep]
  · rename_i hstep
    simp only [hstep]
  · rename_i b d next hstep
    simp only [hstep]
    split
    · rename_i henter
      simp only [henter]
    · rename_i henter
      simp only [henter]
    · rename_i count start henter
      simp only [henter]
      cases hfault : (boxes layout lenient (b.start + b.headerSize) count start).fault with
      | none =>
          rw [Trace.before_of_done hfault]
          simp only [Trace.after, List.cons_append, List.nil_append, List.append_assoc]
      | some fault =>
          rw [Trace.before_of_fault hfault]
          simp only [Trace.after, hfault]

theorem boxes_failed {fault : BoxFault} (hstep : box layout lenient base c = .error fault) :
    boxes layout lenient base limit c = .failed fault := by
  rw [boxes_more hmore, hstep]

theorem boxes_passed (hstep : box layout lenient base c = .ok (none, next)) :
    boxes layout lenient base limit c =
      boxes layout lenient base (limit.map (· - 1)) next := by
  rw [boxes_more hmore, hstep]

theorem boxes_leaf (hstep : box layout lenient base c = .ok (some (b, d), next))
    (henter : enter d.content (Cursor.ofBytes b.payload) = .ok (none, start)) :
    boxes layout lenient base limit c =
      .after [.opened b, .closed b] (boxes layout lenient base (limit.map (· - 1)) next) := by
  rw [boxes_more hmore, hstep]
  simp only [henter]

/-- A box whose own fields are refused ends the walk. -/
theorem boxes_refused {fault : BoxFault}
    (hstep : box layout lenient base c = .ok (some (b, d), next))
    (henter : enter d.content (Cursor.ofBytes b.payload) = .error fault) :
    boxes layout lenient base limit c = .after [.opened b] (.failed fault) := by
  rw [boxes_more hmore, hstep]
  simp only [henter]

theorem boxes_inside {count : Option ℕ}
    (hstep : box layout lenient base c = .ok (some (b, d), next))
    (henter : enter d.content (Cursor.ofBytes b.payload) = .ok (some count, start)) :
    boxes layout lenient base limit c =
      .after [.opened b] ((boxes layout lenient (b.start + b.headerSize) count start).before
        (.after [.closed b] (boxes layout lenient base (limit.map (· - 1)) next))) := by
  rw [boxes_more hmore, hstep]
  simp only [henter]

theorem boxes_node {count : Option ℕ} {inside : List Event}
    (hstep : box layout lenient base c = .ok (some (b, d), next))
    (henter : enter d.content (Cursor.ofBytes b.payload) = .ok (some count, start))
    (hinside : boxes layout lenient (b.start + b.headerSize) count start = ⟨inside, none⟩) :
    boxes layout lenient base limit c =
      .after (.opened b :: inside ++ [.closed b])
        (boxes layout lenient base (limit.map (· - 1)) next) := by
  rw [boxes_inside hmore hstep henter, hinside, Trace.before_of_done rfl]
  simp only [Trace.after, List.cons_append, List.nil_append, List.append_assoc]

/-- A fault inside a box ends the walk. -/
theorem boxes_fault_inside {count : Option ℕ}
    (hstep : box layout lenient base c = .ok (some (b, d), next))
    (henter : enter d.content (Cursor.ofBytes b.payload) = .ok (some count, start))
    (hinside : (boxes layout lenient (b.start + b.headerSize) count start).fault ≠ none) :
    (boxes layout lenient base limit c).fault ≠ none := by
  obtain ⟨fault, hfault⟩ := Option.ne_none_iff_exists'.mp hinside
  rw [boxes_inside hmore hstep henter, Trace.before_of_fault hfault]
  exact hinside

end Steps

end Walk

end ProtectedMedia
