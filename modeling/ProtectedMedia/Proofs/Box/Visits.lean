import ProtectedMedia.Proofs.Box.Forest
import ProtectedMedia.Proofs.Bytes.Splice

/-!
# The boxes that a walk visits

All boxes of a forest in document order, each with its place in the written forest and with the
types of the boxes around it. A walk over the written forest opens exactly those of them that are
declared together with every box around them, once each, in that order and as they were written.
Nothing else is looked at, and nothing goes wrong unless a handler refuses a box.
-/
namespace ProtectedMedia

/-- A box of a forest: what it is written from, where it starts, and the types of the boxes around
it, innermost first. -/
structure Place where
  around : List FourCC
  label : Label
  start : ℕ
  payload : Bytes

/-- The boxes that are opened along two stretches of a trace. -/
theorem Trace.boxes_append (es es' : List Event) (fault : Option BoxFault) :
    (Trace.mk (es ++ es') fault).boxes = (Trace.mk es none).boxes ++ (Trace.mk es' fault).boxes :=
  List.filterMap_append

theorem Trace.boxes_around (b : Box) (es : List Event) (fault : Option BoxFault) :
    (Trace.mk (.opened b :: es ++ [.closed b]) fault).boxes = b :: (Trace.mk es none).boxes := by
  rw [List.cons_append]
  change b :: (Trace.mk (es ++ [.closed b]) fault).boxes = _
  rw [Trace.boxes_append]
  exact congrArg (b :: ·) (List.append_nil _)

namespace Place

def box (p : Place) : Box := p.label.box p.start p.payload

/-- Whether a layout declares the box and every box around it. -/
def isDeclared (layout : Layout) (p : Place) : Bool :=
  (p.label.type :: p.around).all fun type => (layout.find? type).isSome

/-- The box is written at its place in the data. -/
def LiesIn (p : Place) (data : Bytes) : Prop := data.HasAt p.start (p.label.write p.payload)

end Place

namespace Forest

/-- All boxes of a forest in document order. It starts at a position, inside boxes of the given
types. -/
def places : List FourCC → ℕ → Forest → List Place
  | _, _, nil => []
  | around, start, leaf l payload next =>
    ⟨around, l, start, payload⟩ :: next.places around (start + (l.headerSize + payload.length))
  | around, start, node l inside next =>
    ⟨around, l, start, inside.write⟩ ::
      (inside.places (l.type :: around) (start + l.headerSize) ++
        next.places around (start + (l.headerSize + inside.write.length)))

variable {layout : Layout} {f : Forest} {around : List FourCC} {start : ℕ}

/-- Every box is found in the data where the forest is written. -/
theorem liesIn_of_mem_places {data : Bytes} (h : data.HasAt start f.write) :
    ∀ p ∈ f.places around start, p.LiesIn data := by
  induction f generalizing around start with
  | nil => simp [places]
  | leaf l payload next ih =>
      have hnext := h.right
      rw [Label.length_write] at hnext
      intro p hp
      rcases List.mem_cons.mp hp with rfl | hp
      · exact h.left
      · exact ih hnext p hp
  | node l inside next ihInside ihNext =>
      have hnext := h.right
      have hinside := h.left.right.right
      rw [Label.length_write] at hnext
      rw [Label.length_fields, Nat.add_assoc, ← Label.headerSize_eq] at hinside
      intro p hp
      rcases List.mem_cons.mp hp with rfl | hp
      · exact h.left
      rcases List.mem_append.mp hp with hp | hp
      · exact ihInside hinside p hp
      · exact ihNext hnext p hp

theorem mem_around_of_mem_places {type : FourCC} (htype : type ∈ around) :
    ∀ p ∈ f.places around start, type ∈ p.around := by
  induction f generalizing around start with
  | nil => simp [places]
  | leaf l payload next ih =>
      intro p hp
      rcases List.mem_cons.mp hp with rfl | hp
      · exact htype
      · exact ih htype p hp
  | node l inside next ihInside ihNext =>
      intro p hp
      rcases List.mem_cons.mp hp with rfl | hp
      · exact htype
      rcases List.mem_append.mp hp with hp | hp
      · exact ihInside (List.mem_cons_of_mem _ htype) p hp
      · exact ihNext htype p hp

/-- Nothing inside a box that is not declared counts as declared. -/
theorem filter_places_hidden {type : FourCC} (htype : type ∈ around)
    (hnone : layout.find? type = none) :
    (f.places around start).filter (Place.isDeclared layout) = [] := by
  rw [List.filter_eq_nil_iff]
  intro p hp hdeclared
  have hall := List.all_eq_true.mp hdeclared type
    (List.mem_cons_of_mem _ (mem_around_of_mem_places htype p hp))
  rw [hnone] at hall
  cases hall

/-- A box inside declared boxes is declared with them if its own type is. -/
theorem isDeclared_eq (h : ∀ type ∈ around, (layout.find? type).isSome) (l : Label) (at' : ℕ)
    (payload : Bytes) :
    Place.isDeclared layout ⟨around, l, at', payload⟩ = (layout.find? l.type).isSome := by
  have hall : (around.all fun type => (layout.find? type).isSome) = true :=
    List.all_eq_true.mpr h
  rw [Place.isDeclared, List.all_cons, hall, Bool.and_true]

/-- The walk opens the boxes that are declared together with all boxes around them. -/
theorem boxes_events (h : ∀ type ∈ around, (layout.find? type).isSome) :
    (Trace.mk (f.events layout start) none).boxes =
      ((f.places around start).filter (Place.isDeclared layout)).map Place.box := by
  induction f generalizing around start with
  | nil => rfl
  | leaf l payload next ih =>
      rw [events, places, Trace.boxes_append, ih h, List.filter_cons, isDeclared_eq h]
      cases layout.find? l.type <;> rfl
  | node l inside next ihInside ihNext =>
      rw [events, places, Trace.boxes_append, ihNext h, List.filter_cons, isDeclared_eq h,
        List.filter_append]
      cases hfind : layout.find? l.type with
      | none =>
          rw [filter_places_hidden List.mem_cons_self hfind]
          rfl
      | some d =>
          have haround : ∀ type ∈ l.type :: around, (layout.find? type).isSome := by
            simpa [hfind] using h
          dsimp only
          rw [Trace.boxes_around, ihInside haround, Option.isSome_some, if_pos rfl,
            List.map_cons, List.map_append]
          rfl

end Forest

namespace Walk

/-- A trace without a fault goes through if the handler refuses nothing. -/
theorem exists_run_ok {τ : Type} {handler : τ → Event → Except Error τ} {t : Trace}
    (hfault : t.fault = none) (hok : ∀ s e, ∃ s', handler s e = .ok s') (start : τ) :
    ∃ s, t.run handler start = .ok s := by
  have hfold (es : List Event) : ∃ s, es.foldlM handler start = .ok s := by
    induction es generalizing start with
    | nil => exact ⟨start, rfl⟩
    | cons e es ih =>
        obtain ⟨next, hnext⟩ := hok start e
        obtain ⟨s, hs⟩ := ih next
        refine ⟨s, ?_⟩
        rw [List.foldlM_cons, hnext]
        exact hs
  obtain ⟨s, hs⟩ := hfold t.events
  refine ⟨s, ?_⟩
  rw [Trace.run, hs, hfault]
  rfl

/-- The walk over a written forest opens exactly the boxes that are declared with all boxes around
them, in document order and as they were written, and ends well. -/
theorem forest_visited {layout : Layout} {f : Forest} (lenient : Bool) (fits : f.Fits layout)
    (hend : f.write.length < 2 ^ 64) :
    (∀ p ∈ f.places [] 0, p.LiesIn f.write) ∧
      (trace layout lenient f.write).boxes =
        ((f.places [] 0).filter (Place.isDeclared layout)).map Place.box ∧
      (trace layout lenient f.write).fault = none ∧
      ∀ (τ : Type) (handler : τ → Event → Except Error τ),
        (∀ s e, ∃ s', handler s e = .ok s') →
          ∀ start, ∃ s, (trace layout lenient f.write).run handler start = .ok s := by
  have hplaces : ∀ p ∈ f.places [] 0, p.LiesIn f.write :=
    Forest.liesIn_of_mem_places (Bytes.hasAt_self f.write)
  rw [trace_write fits hend]
  exact ⟨hplaces, Forest.boxes_events (by simp), rfl, fun τ handler hok => exists_run_ok rfl hok⟩

/-- A declared wide box that holds a full box and an undeclared box with a declared one inside,
between boxes that are not declared and in front of a full box of its own. -/
def mixedForest : Forest :=
  .leaf ⟨.ofChars 'f' 'r' 'e' 'e', none, false⟩ [1, 2, 3]
    (.node ⟨.moof, none, true⟩
      (.leaf ⟨.tfhd, some ⟨1, 0x020000⟩, false⟩ [4, 5]
        (.node ⟨.ofChars 's' 'k' 'i' 'p', none, true⟩
          (.leaf ⟨.tfhd, some ⟨0, 7⟩, false⟩ [6] .nil) .nil))
      (.leaf ⟨.ofChars 'f' 'r' 'e' 'e', none, true⟩ []
        (.leaf ⟨.tfhd, some ⟨2, 3⟩, true⟩ [7, 8, 9] .nil)))

def mixedLayout : Layout := [(.tfhd, ⟨true, .leaf⟩), (.moof, ⟨false, .boxes⟩)]

theorem mixed_forest_visited :
    (mixedForest.Fits mixedLayout ∧ mixedForest.write.length < 2 ^ 64) ∧
      (trace mixedLayout false mixedForest.write).boxes =
        [⟨.moof, 11, 59, none, true, mixedForest.write.drop 27 |>.take 43⟩,
          ⟨.tfhd, 27, 14, some ⟨1, 0x020000⟩, false, [4, 5]⟩,
          ⟨.tfhd, 86, 23, some ⟨2, 3⟩, true, [7, 8, 9]⟩] ∧
      (trace mixedLayout false mixedForest.write).fault = none ∧
      ∀ (τ : Type) (handler : τ → Event → Except Error τ),
        (∀ s e, ∃ s', handler s e = .ok s') →
          ∀ start, ∃ s, (trace mixedLayout false mixedForest.write).run handler start = .ok s := by
  have hfits : mixedForest.Fits mixedLayout := by decide
  have hend : mixedForest.write.length < 2 ^ 64 := by decide
  obtain ⟨-, hboxes, hfault, hrun⟩ := forest_visited false hfits hend
  refine ⟨⟨hfits, hend⟩, ?_, hfault, hrun⟩
  rw [hboxes]
  decide

end Walk

end ProtectedMedia
