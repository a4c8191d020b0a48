import ProtectedMedia.Proofs.Box.Forest

/-!
# Boxes further on

Boxes mean the same wherever they stand: a walk whose positions count from a later base, or one
through the same bytes in a later place, meets the same boxes with later starts.
-/
namespace ProtectedMedia

/-- The same box `n` bytes further on. -/
def Box.moved (n : ℕ) (b : Box) : Box := { b with start := n + b.start }

theorem Box.moved_zero : Box.moved 0 = id := by
  funext b
  rw [Box.moved, Nat.zero_add]
  rfl

def Event.moved (n : ℕ) : Event → Event
  | .opened b => .opened (b.moved n)
  | .closed b => .closed (b.moved n)

theorem Event.moved_zero : Event.moved 0 = id := by
  funext e
  cases e with
  | opened b => rw [Event.moved, Box.moved_zero, id, id]
  | closed b => rw [Event.moved, Box.moved_zero, id, id]

/-- Behind a read that did not need them, more bytes are still there. -/
theorem Cursor.Took.append {c c' c₂ : Cursor} {w tail : Bytes} (h : c.Took w c')
    (hrest : c₂.rest = c.rest ++ tail) :
    c₂.Took w (c₂.forward w.length) ∧ (c₂.forward w.length).rest = c'.rest ++ tail := by
  have hleft : (c₂.forward w.length).rest = c'.rest ++ tail := by
    rw [Cursor.rest_forward, hrest, h.rest, List.append_assoc, List.drop_left]
  refine ⟨⟨?_, rfl⟩, hleft⟩
  rw [hleft, hrest, h.rest, List.append_assoc]

namespace Walk

variable {layout : Layout} {lenient : Bool} {base base₂ n : ℕ} {c c' c₂ : Cursor} {b : Box}
  {tail : Bytes}

/-- A header is read from the same bytes anywhere, unless it says that the box reaches to the end of
the data and another number of bytes is left. -/
theorem Header.ReadFrom.elsewhere {h : Header} {field : ℕ} {c₂' : Cursor}
    (hread : h.ReadFrom c field c') (htook : c₂.Took (h.fields field) c₂')
    (hleft : c₂.rest.length = c.rest.length ∨ field ≠ 0)
    (hroom : c₂.position + h.size < 2 ^ 64) : h.ReadFrom c₂ field c₂' := by
  refine ⟨htook, hread.field_lt, hread.wide, fun hnarrow => ?_, hread.covers, hroom⟩
  rw [hread.narrow hnarrow]
  rcases hleft with hleft | hfield
  · rw [hleft]
  · rw [if_neg hfield, if_neg hfield]

/-- So is a box; its payload may be another one of the same length. -/
theorem Spelled.elsewhere {field : ℕ} {b₂ : Box} {c₂' : Cursor}
    (hs : Spelled lenient base c b field c') (hheader : b₂.header = b.header)
    (hfull : b₂.full = b.full) (hpayload : b₂.payload.length = b.payload.length)
    (hstart : b₂.start = base₂ + c₂.position) (htook : c₂.Took (b₂.spelled field) c₂')
    (hleft : c₂.rest.length = c.rest.length ∨
      field ≠ 0 ∧ b.size ≤ c.rest.length ∧ b.size ≤ c₂.rest.length)
    (hroom : c₂.position + b.size < 2 ^ 64) : Spelled lenient base₂ c₂ b₂ field c₂' := by
  obtain ⟨c₁, hfront, -⟩ := htook.split
  have hsize : b₂.size = b.size := congrArg Header.size hheader
  have hheaderSize : b₂.headerSize = b.headerSize := by
    rw [Box.headerSize, Box.headerSize, hfull, show b₂.wide = b.wide from congrArg Header.wide hheader]
  refine ⟨hstart, htook, ?_, ?_, ?_, fun hstrict => ?_⟩
  · rw [hheader] at hfront ⊢
    have hread := hs.header.elsewhere hfront (hleft.imp_right And.left) hroom
    rwa [hfront.eq] at hread
  · rw [hfull]
    exact hs.fits
  · rw [hpayload, hs.length, hsize, hheaderSize]
    omega
  · have hreaches := hs.reaches hstrict
    omega

/-- A box that ends where it says can be read with anything behind it, and any box further on. -/
theorem Spelled.moved {field : ℕ} (hs : Spelled lenient base c b field c')
    (hrest : c₂.rest = c.rest ++ tail) (hstart : base₂ + c₂.position = n + (base + c.position))
    (htail : tail = [] ∨ field ≠ 0 ∧ b.size ≤ c.rest.length)
    (hroom : c₂.position + b.size < 2 ^ 64) :
    Spelled lenient base₂ c₂ (b.moved n) field (c₂.forward (b.spelled field).length) := by
  refine hs.elsewhere rfl rfl rfl ?_ (hs.took.append hrest).1 ?_ hroom
  · rw [hstart, ← hs.start]
    rfl
  · rw [hrest, List.length_append]
    rcases htail with rfl | ⟨hfield, hsize⟩
    · exact .inl rfl
    · exact .inr ⟨hfield, hsize, by omega⟩

/-- Another base moves the boxes, and nothing else. -/
theorem box_moved {r : Option (Box × Declaration)}
    (hstep : box layout lenient base c = .ok (r, c')) :
    box layout lenient (n + base) c = .ok (r.map (Prod.map (Box.moved n) id), c') := by
  cases r with
  | none =>
      exact box_eq_passed.mpr (box_eq_passed.mp hstep)
  | some r =>
      obtain ⟨hfind, hfull, field, hs⟩ := box_eq_opened.mp hstep
      refine box_eq_opened.mpr ⟨hfind, hfull, field, ?_⟩
      have hmoved := hs.moved (n := n) (List.append_nil c.rest).symm (Nat.add_assoc n base _)
        (.inl rfl) hs.header.room
      rwa [← hs.took.eq] at hmoved

/-! ### Walks that meet no fault -/

/-- A walk from a cursor on meets these events and no fault. -/
inductive Walked (layout : Layout) (lenient : Bool) :
    (base : ℕ) → (limit : Option ℕ) → Cursor → List Event → Prop
  | done {base : ℕ} {limit : Option ℕ} {c : Cursor} (hend : limit = some 0 ∨ !c.hasMore) :
      Walked layout lenient base limit c []
  | passed {base : ℕ} {limit : Option ℕ} {c next : Cursor} {events : List Event}
      (hmore : ¬(limit = some 0 ∨ !c.hasMore))
      (hstep : box layout lenient base c = .ok (none, next))
      (hnext : Walked layout lenient base (limit.map (· - 1)) next events) :
      Walked layout lenient base limit c events
  | leaf {base : ℕ} {limit : Option ℕ} {c next start : Cursor} {b : Box} {d : Declaration}
      {events : List Event} (hmore : ¬(limit = some 0 ∨ !c.hasMore))
      (hstep : box layout lenient base c = .ok (some (b, d), next))
      (henter : enter d.content (Cursor.ofBytes b.payload) = .ok (none, start))
      (hnext : Walked layout lenient base (limit.map (· - 1)) next events) :
      Walked layout lenient base limit c ([.opened b, .closed b] ++ events)
  | node {base : ℕ} {limit count : Option ℕ} {c next start : Cursor} {b : Box} {d : Declaration}
      {inside events : List Event} (hmore : ¬(limit = some 0 ∨ !c.hasMore))
      (hstep : box layout lenient base c = .ok (some (b, d), next))
      (henter : enter d.content (Cursor.ofBytes b.payload) = .ok (some count, start))
      (hinside : Walked layout lenient (b.start + b.headerSize) count start inside)
      (hnext : Walked layout lenient base (limit.map (· - 1)) next events) :
      Walked layout lenient base limit c (.opened b :: inside ++ [.closed b] ++ events)

theorem walked_of_fault {limit : Option ℕ}
    (h : (boxes layout lenient base limit c).fault = none) :
    Walked layout lenient base limit c (boxes layout lenient base limit c).events := by
  fun_induction boxes layout lenient base limit c with
  | case1 base limit c hend => exact .done hend
  | case2 => cases h
  | case3 base limit c hmore next hstep _ ih => exact .passed hmore hstep (ih h)
  | case4 => cases h
  | case5 base limit c hmore b d next hstep _ start henter ih =>
      exact .leaf hmore hstep henter (ih h)
  | case6 => cases h
  | case7 base limit c hmore b d next hstep _ count start henter _ inside hfault ihInside ihNext =>
      exact .node hmore hstep henter (ihInside hfault) (ihNext h)

theorem Walked.boxes_eq {limit : Option ℕ} {events : List Event}
    (h : Walked layout lenient base limit c events) :
    boxes layout lenient base limit c = ⟨events, none⟩ := by
  induction h with
  | done hend => rw [boxes, if_pos hend, Trace.done]
  | passed hmore hstep _ ih => rw [boxes_passed hmore hstep, ih]
  | leaf hmore hstep henter _ ih => rw [boxes_leaf hmore hstep henter, ih, Trace.after]
  | node hmore hstep henter _ _ ihInside ihNext =>
      rw [boxes_node hmore hstep henter ihInside, ihNext, Trace.after]

/-- A walk from another base moves all boxes by the same distance. -/
theorem Walked.moved {limit : Option ℕ} {events : List Event}
    (h : Walked layout lenient base limit c events) (n : ℕ) :
    Walked layout lenient (n + base) limit c (events.map (Event.moved n)) := by
  induction h with
  | done hend => exact .done hend
  | passed hmore hstep _ ih => exact .passed hmore (box_moved hstep) ih
  | leaf hmore hstep henter _ ih => exact .leaf hmore (box_moved hstep) henter ih
  | node hmore hstep henter _ _ ihInside ihNext =>
      rw [List.map_append, List.map_append]
      rw [← Nat.add_assoc] at ihInside
      exact .node hmore (box_moved hstep) henter ihInside ihNext

end Walk

end ProtectedMedia
