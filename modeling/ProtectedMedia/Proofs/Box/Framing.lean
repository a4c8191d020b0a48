import ProtectedMedia.Proofs.Box.Header

/-!
# Boxes lie inside the data

Every box that a walk meets lies inside the data with its header and its payload, whatever sizes
the data declares. So no position that is computed from a box leaves the data.
-/
namespace ProtectedMedia

def Event.box : Event → Box
  | .opened b => b
  | .closed b => b

namespace Walk

variable {layout : Layout} {lenient : Bool} {base : ℕ} {c c' : Cursor}

theorem opened_of_mem_boxes {t : Trace} {b : Box} (h : b ∈ t.boxes) : .opened b ∈ t.events := by
  obtain ⟨e, he, hb⟩ := List.mem_filterMap.mp h
  cases e with
  | opened b' =>
      cases hb
      exact he
  | closed b' => cases hb

theorem le_headerSize (b : Box) : 8 ≤ b.headerSize := by
  rw [Box.headerSize]
  omega

/-- A declared box is where the walk stands, and is there with its payload. -/
theorem extent_of_box {b : Box} {d : Declaration}
    (hread : box layout lenient base c = .ok (some (b, d), c')) :
    b.start = base + c.position ∧ b.headerSize + b.payload.length ≤ c.rest.length := by
  obtain ⟨-, -, field, hspelled⟩ := box_eq_opened.mp hread
  refine ⟨hspelled.start, ?_⟩
  rw [hspelled.took.rest, List.length_append, b.length_spelled]
  omega

theorem data_of_box {r : Option (Box × Declaration)}
    (hread : box layout lenient base c = .ok (r, c')) : c'.data = c.data := by
  cases r with
  | some r =>
      obtain ⟨-, -, field, hspelled⟩ := box_eq_opened.mp hread
      rw [hspelled.took.eq, Cursor.data_forward]
  | none =>
      obtain ⟨h, field, c₁, -, -, rfl⟩ := box_eq_passed.mp hread
      split <;> rfl

/-- A box ends inside the first `stop` bytes. -/
def Within (stop : ℕ) (b : Box) : Prop := b.start + b.headerSize + b.payload.length ≤ stop

instance decidableWithin (stop : ℕ) (b : Box) : Decidable (Within stop b) :=
  inferInstanceAs (Decidable (_ ≤ _))

theorem within_of_box {b : Box} {d : Declaration} {stop : ℕ}
    (hread : box layout lenient base c = .ok (some (b, d), c'))
    (hstop : base + c.data.length ≤ stop) : Within stop b := by
  obtain ⟨hstart, hroom⟩ := extent_of_box hread
  rw [Cursor.length_rest] at hroom
  have hheader := le_headerSize b
  rw [Within]
  omega

/-- The boxes inside a payload start where its own data starts. -/
theorem within_inside {b : Box} {content : Content} {r : Option (Option ℕ)} {start : Cursor}
    {stop : ℕ} (hb : Within stop b)
    (henter : enter content (Cursor.ofBytes b.payload) = .ok (r, start)) :
    b.start + b.headerSize + start.data.length ≤ stop := by
  have hdata : start.data = b.payload := keeps_enter content _ _ _ henter
  rw [hdata]
  exact hb

/-- Every box takes eight bytes at least. -/
theorem position_lt_of_box {r : Option (Box × Declaration)}
    (hread : box layout lenient base c = .ok (r, c')) : c.position + 8 ≤ c'.position := by
  have hlength : 8 + Walk.yielded r + c'.rest.length ≤ c.rest.length :=
    consumes_box layout lenient base c r c' hread
  rw [c.length_rest, c'.length_rest, data_of_box hread] at hlength
  omega

/-- Every box that the walk meets was read from a place behind its own, inside the data. -/
theorem exists_step_of_boxes {limit : Option ℕ} :
    ∀ e ∈ (boxes layout lenient base limit c).events, ∃ base₁ c₁ d c₂,
      box layout lenient base₁ c₁ = .ok (some (e.box, d), c₂) ∧
        base + c.position ≤ base₁ + c₁.position ∧
        base₁ + c₁.data.length ≤ base + c.data.length := by
  -- a payload is shorter than the data around it and starts further on
  fun_induction boxes layout lenient base limit c with
  | case1 base limit c hend => simp [Trace.done]
  | case2 base limit c hmore fault hstep => simp [Trace.failed]
  | case3 base limit c hmore next hstep _ ih =>
      have hnext := position_lt_of_box hstep
      rw [data_of_box hstep] at ih
      intro e he
      obtain ⟨base₁, c₁, d₁, c₂, hread, hfirst, hlast⟩ := ih e he
      exact ⟨base₁, c₁, d₁, c₂, hread, by omega, hlast⟩
  | case4 base limit c hmore b d next hstep _ fault henter =>
      intro e he
      simp only [Trace.after, Trace.failed, List.append_nil, List.mem_singleton] at he
      subst he
      exact ⟨base, c, d, next, hstep, Nat.le_refl _, Nat.le_refl _⟩
  | case5 base limit c hmore b d next hstep _ start henter ih =>
      have hnext := position_lt_of_box hstep
      rw [data_of_box hstep] at ih
      intro e he
      simp only [Trace.after, List.cons_append, List.nil_append, List.mem_cons] at he
      rcases he with rfl | rfl | he
      · exact ⟨base, c, d, next, hstep, Nat.le_refl _, Nat.le_refl _⟩
      · exact ⟨base, c, d, next, hstep, Nat.le_refl _, Nat.le_refl _⟩
      · obtain ⟨base₁, c₁, d₁, c₂, hread, hfirst, hlast⟩ := ih e he
        exact ⟨base₁, c₁, d₁, c₂, hread, by omega, hlast⟩
  | case6 base limit c hmore b d next hstep _ count start henter _ inside fault hfault ih =>
      have hb := (extent_of_box hstep).1
      have hin := within_inside (within_of_box hstep (Nat.le_refl _)) henter
      intro e he
      simp only [Trace.after, List.cons_append, List.nil_append, List.mem_cons] at he
      rcases he with rfl | he
      · exact ⟨base, c, d, next, hstep, Nat.le_refl _, Nat.le_refl _⟩
      · obtain ⟨base₁, c₁, d₁, c₂, hread, hfirst, hlast⟩ := ih e he
        exact ⟨base₁, c₁, d₁, c₂, hread, by omega, by omega⟩
  | case7 base limit c hmore b d next hstep _ count start henter _ inside hfault ihInside ihNext =>
      have hb := (extent_of_box hstep).1
      have hin := within_inside (within_of_box hstep (Nat.le_refl _)) henter
      have hnext := position_lt_of_box hstep
      rw [data_of_box hstep] at ihNext
      intro e he
      simp only [Trace.after, List.cons_append, List.append_assoc, List.nil_append,
        List.mem_cons, List.mem_append] at he
      rcases he with rfl | he | rfl | he
      · exact ⟨base, c, d, next, hstep, Nat.le_refl _, Nat.le_refl _⟩
      · obtain ⟨base₁, c₁, d₁, c₂, hread, hfirst, hlast⟩ := ihInside e he
        exact ⟨base₁, c₁, d₁, c₂, hread, by omega, by omega⟩
      · exact ⟨base, c, d, next, hstep, Nat.le_refl _, Nat.le_refl _⟩
      · obtain ⟨base₁, c₁, d₁, c₂, hread, hfirst, hlast⟩ := ihNext e he
        exact ⟨base₁, c₁, d₁, c₂, hread, by omega, hlast⟩

/-- Nothing that the walk meets reaches past the data. -/
theorem within_boxes {limit : Option ℕ} {stop : ℕ} (hstop : base + c.data.length ≤ stop) :
    ∀ e ∈ (boxes layout lenient base limit c).events, Within stop e.box := by
  intro e he
  obtain ⟨base₁, c₁, d, c₂, hread, -, hlast⟩ := exists_step_of_boxes e he
  exact within_of_box hread (hlast.trans hstop)

/-- A walk opens nothing in front of the place where it stands. -/
theorem le_start_of_boxes {limit : Option ℕ} :
    ∀ e ∈ (boxes layout lenient base limit c).events, base + c.position ≤ e.box.start := by
  intro e he
  obtain ⟨base₁, c₁, d, c₂, hread, hfirst, -⟩ := exists_step_of_boxes e he
  rw [(extent_of_box hread).1]
  exact hfirst

theorem within_trace (data : Bytes) :
    ∀ e ∈ (trace layout lenient data).events, Within data.length e.box := by
  apply within_boxes
  rw [Nat.zero_add]
  exact Nat.le_refl data.length

end Walk

end ProtectedMedia
