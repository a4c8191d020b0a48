import ProtectedMedia.Proofs.Box.Succession

/-!
# Other boxes in the place of boxes

The boxes inside a payload are replaced by other bytes of the same length. A walk meets the same
boxes as before in front of that payload and behind it. The boxes around it have the same headers,
and differ in their payloads only.
-/
namespace ProtectedMedia

/-- The same box with another payload. -/
def Box.refilled (b : Box) (data : Bytes) : Box := { b with payload := data }

namespace Walk

variable {layout : Layout} {lenient : Bool} {base : ℕ} {limit : Option ℕ} {c c' c₂ next : Cursor}
  {b : Box} {d : Declaration} {events : List Event}

/-! ### Where the boxes of a walk lie -/

theorem Walked.le_start (h : Walked layout lenient base limit c events) :
    ∀ e ∈ events, base + c.position ≤ e.box.start := by
  have hstart : ∀ e ∈ (boxes layout lenient base limit c).events, _ := le_start_of_boxes
  rwa [h.boxes_eq] at hstart

theorem Walked.within {stop : ℕ} (h : Walked layout lenient base limit c events)
    (hstop : base + c.data.length ≤ stop) : ∀ e ∈ events, Within stop e.box := by
  have hwithin : ∀ e ∈ (boxes layout lenient base limit c).events, _ := within_boxes hstop
  rwa [h.boxes_eq] at hwithin

/-! ### Two cursors in front of different bytes -/

/-- `c` stands in front of `u`, `old` and `v`, and `c₂` in front of `u`, `new` and `v`, at the same
position. -/
structure Differs (u old new v : Bytes) (c c₂ : Cursor) : Prop where
  position : c₂.position = c.position
  rest : c.rest = u ++ (old ++ v)
  rest₂ : c₂.rest = u ++ (new ++ v)
  length : new.length = old.length

namespace Differs

variable {u old new v : Bytes}

theorem length_rest (h : Differs u old new v c c₂) : c₂.rest.length = c.rest.length := by
  simp only [h.rest, h.rest₂, List.length_append, h.length]

theorem hasMore (h : Differs u old new v c c₂) (hmore : ¬(limit = some 0 ∨ !c.hasMore)) :
    ¬(limit = some 0 ∨ !c₂.hasMore) := by
  have hlength := h.length_rest
  simp only [Cursor.hasMore, Bool.not_not, List.isEmpty_iff, ← List.length_eq_zero_iff] at hmore ⊢
  rwa [hlength]

theorem forward {k : ℕ} (h : Differs u old new v c c₂) (hk : k ≤ u.length) :
    Differs (u.drop k) old new v (c.forward k) (c₂.forward k) := by
  refine ⟨?_, ?_, ?_, h.length⟩
  · rw [Cursor.position_forward, Cursor.position_forward, h.position]
  · rw [Cursor.rest_forward, h.rest, List.drop_append_of_le_length hk]
  · rw [Cursor.rest_forward, h.rest₂, List.drop_append_of_le_length hk]

/-- What was taken from the common front can be taken there, too. -/
theorem took {w : Bytes} (h : Differs u old new v c c₂) (htook : c.Took w c')
    (hw : w.length ≤ u.length) :
    c₂.Took w (c₂.forward w.length) ∧
      Differs (u.drop w.length) old new v c' (c₂.forward w.length) := by
  obtain ⟨u', rfl⟩ := htook.exists_append h.rest hw
  have hrest₂ : c₂.rest = w ++ (u' ++ (new ++ v)) := by rw [h.rest₂, List.append_assoc]
  refine ⟨Cursor.took_of_rest hrest₂, ?_⟩
  rw [htook.eq]
  exact h.forward hw

/-- Where more was taken than what differs, both stand in front of the same bytes again. -/
theorem took_past {w : Bytes} (h : Differs u old new v c c₂) (htook : c.Took w c')
    (hw : u.length + old.length ≤ w.length) :
    ∃ v' c₂', w = u ++ (old ++ v') ∧ c₂.Took (u ++ (new ++ v')) c₂' ∧
      c₂'.position = c'.position ∧ c₂'.rest = c'.rest := by
  have hfront : c.rest = u ++ old ++ v := by rw [h.rest, List.append_assoc]
  obtain ⟨v', rfl⟩ := (Cursor.took_of_rest hfront).exists_append htook.rest (by
    rwa [List.length_append])
  have hv : v = v' ++ c'.rest := by
    have hrest := htook.rest
    rw [h.rest, List.append_assoc, List.append_assoc] at hrest
    exact List.append_cancel_left (List.append_cancel_left hrest)
  have hrest₂ : c₂.rest = u ++ (new ++ v') ++ c'.rest := by
    rw [h.rest₂, hv]
    simp only [List.append_assoc]
  refine ⟨v', _, List.append_assoc u old v', Cursor.took_of_rest hrest₂, ?_, ?_⟩
  · rw [Cursor.position_forward, h.position, htook.position]
    simp only [List.length_append, h.length, Nat.add_assoc]
  · rw [Cursor.rest_forward, hrest₂, List.drop_left]

theorem spelled {field : ℕ} {data : Bytes} {c₂' : Cursor} (h : Differs u old new v c c₂)
    (hs : Spelled lenient base c b field c') (hdata : data.length = b.payload.length)
    (htook : c₂.Took ((b.refilled data).spelled field) c₂') :
    Spelled lenient base c₂ (b.refilled data) field c₂' := by
  refine hs.elsewhere rfl rfl hdata ?_ htook (.inl h.length_rest) ?_
  · rw [h.position]
    exact hs.start
  · rw [h.position]
    exact hs.header.room

/-- A box that ends in the common front is passed over there, too. -/
theorem passed (h : Differs u old new v c c₂)
    (hstep : box layout lenient base c = .ok (none, next))
    (hu : next.position ≤ c.position + u.length) :
    ∃ next₂, box layout lenient base c₂ = .ok (none, next₂) ∧
      Differs (u.drop (next.position - c.position)) old new v next next₂ := by
  obtain ⟨x, field, c₁, hread, hfind, hnext⟩ := box_eq_passed.mp hstep
  have hcovers := hread.covers
  have hfields := x.length_fields field
  have hroom := congrArg List.length hread.took.rest
  have hrest := congrArg List.length h.rest
  have hlength := h.length
  rw [List.length_append] at hroom
  rw [List.length_append, List.length_append] at hrest
  have hread₂ (hu : (x.fields field).length ≤ u.length) :
      x.ReadFrom c₂ field (c₂.forward (x.fields field).length) :=
    hread.elsewhere (h.took hread.took hu).1 (.inl h.length_rest) (by
      rw [h.position]
      exact hread.room)
  by_cases hsize : x.size ≤ c.rest.length
  · rw [if_pos hsize] at hnext
    subst hnext
    rw [Cursor.position_forward] at hu ⊢
    rw [Nat.add_sub_cancel_left]
    refine ⟨c₂.forward x.size, box_eq_passed.mpr ⟨x, field, _, hread₂ (by omega), hfind, ?_⟩,
      h.forward (by omega)⟩
    rw [if_pos (by rwa [h.length_rest])]
  · rw [if_neg hsize] at hnext
    subst hnext
    rw [position_toEnd hread.rest_ne_nil] at hu ⊢
    rw [Nat.add_sub_cancel_left]
    have hend₂ := hread₂ (by omega)
    refine ⟨c₂.toEnd, box_eq_passed.mpr ⟨x, field, _, hend₂, hfind, ?_⟩, ?_⟩
    · rw [if_neg (by rwa [h.length_rest])]
    · have hold : old = [] := List.length_eq_zero_iff.mp (by omega)
      have hnew : new = [] := List.length_eq_zero_iff.mp (by omega)
      have hv : v = [] := List.length_eq_zero_iff.mp (by omega)
      have hnil : u.drop c.rest.length = [] := List.drop_eq_nil_of_le (by omega)
      refine ⟨?_, ?_, ?_, h.length⟩
      · rw [position_toEnd hend₂.rest_ne_nil, position_toEnd hread.rest_ne_nil, h.position,
          h.length_rest]
      · rw [hnil, hold, hv]
        rfl
      · rw [hnil, hnew, hv]
        rfl

/-- A box that ends in the common front is read there, too. -/
theorem opened (h : Differs u old new v c c₂)
    (hstep : box layout lenient base c = .ok (some (b, d), next))
    (hu : next.position ≤ c.position + u.length) :
    ∃ next₂, box layout lenient base c₂ = .ok (some (b, d), next₂) ∧
      Differs (u.drop (next.position - c.position)) old new v next next₂ := by
  obtain ⟨hfind, hfull, field, hs⟩ := box_eq_opened.mp hstep
  have hposition := hs.took.position
  have htook := h.took hs.took (by omega)
  rw [hposition, Nat.add_sub_cancel_left]
  exact ⟨_, box_eq_opened.mpr ⟨hfind, hfull, field, h.spelled hs rfl htook.1⟩, htook.2⟩

/-- Whatever ends in the common front is the same there. -/
theorem kept {r : Option (Box × Declaration)} (h : Differs u old new v c c₂)
    (hstep : box layout lenient base c = .ok (r, next))
    (hu : next.position ≤ c.position + u.length) :
    ∃ next₂, box layout lenient base c₂ = .ok (r, next₂) ∧
      Differs (u.drop (next.position - c.position)) old new v next next₂ := by
  cases r with
  | none => exact h.passed hstep hu
  | some r => exact h.opened hstep hu

/-- In front of a box whose payload differs, both walks take the same step. -/
theorem ahead {r : Option (Box × Declaration)} (h : Differs u old new v c c₂)
    (hplace : b.start + b.headerSize = base + c.position + u.length)
    (hstep : box layout lenient base c = .ok (r, next)) (hb : base + next.position ≤ b.start) :
    ∃ u' next₂, box layout lenient base c₂ = .ok (r, next₂) ∧ Differs u' old new v next next₂ ∧
      b.start + b.headerSize = base + next.position + u'.length := by
  have hadvance := position_lt_of_box hstep
  obtain ⟨next₂, hstep₂, hdiffers⟩ := h.kept hstep (by omega)
  refine ⟨_, next₂, hstep₂, hdiffers, ?_⟩
  rw [List.length_drop]
  omega

/-- A box around the bytes that differ is read with another payload, and what is behind it is the
same. -/
theorem around (h : Differs u old new v c c₂)
    (hstep : box layout lenient base c = .ok (some (b, d), next))
    (hu : b.headerSize ≤ u.length)
    (hv : u.length + old.length ≤ b.headerSize + b.payload.length) :
    ∃ v' next₂, b.payload = u.drop b.headerSize ++ (old ++ v') ∧
      box layout lenient base c₂ =
        .ok (some (b.refilled (u.drop b.headerSize ++ (new ++ v')), d), next₂) ∧
      next₂.position = next.position ∧ next₂.rest = next.rest := by
  obtain ⟨hfind, hfull, field, hs⟩ := box_eq_opened.mp hstep
  have hheader : (b.header.fields field ++ fullFields b.full).length = b.headerSize := by
    rw [List.length_append, b.length_fields_add]
  have htook := hs.took
  rw [Box.spelled, ← List.append_assoc] at htook
  obtain ⟨c₁, hfront, hback⟩ := htook.split
  obtain ⟨hfront₂, h₁⟩ := h.took hfront (by rwa [hheader])
  rw [hheader] at hfront₂ h₁
  have hpast : (u.drop b.headerSize).length + old.length ≤ b.payload.length := by
    rw [List.length_drop]
    omega
  obtain ⟨v', next₂, hpayload, hback₂, hposition, hrest⟩ := h₁.took_past hback hpast
  have hdata : (u.drop b.headerSize ++ (new ++ v')).length = b.payload.length := by
    simp only [hpayload, List.length_append, h.length]
  have htook₂ := hfront₂.trans hback₂
  rw [List.append_assoc] at htook₂
  exact ⟨v', next₂, hpayload,
    box_eq_opened.mpr ⟨hfind, hfull, field, h.spelled hs hdata htook₂⟩, hposition, hrest⟩

end Differs

/-! ### Only what is ahead matters -/

theorem box_congr {r : Option (Box × Declaration)}
    (hstep : box layout lenient base c = .ok (r, next)) (hposition : c₂.position = c.position)
    (hrest : c₂.rest = c.rest) :
    ∃ next₂, box layout lenient base c₂ = .ok (r, next₂) ∧ next₂.position = next.position ∧
      next₂.rest = next.rest := by
  have hsame : Differs c.rest [] [] [] c c₂ := ⟨hposition, by simp, by simp [hrest], rfl⟩
  have hnext : next.position ≤ c.position + c.rest.length := by
    rw [(position_of_box hstep).2.2]
    omega
  obtain ⟨next₂, hstep₂, hdiffers⟩ := hsame.kept hstep hnext
  exact ⟨next₂, hstep₂, hdiffers.position, hdiffers.rest₂.trans hdiffers.rest.symm⟩

theorem Walked.congr (h : Walked layout lenient base limit c events)
    (hposition : c₂.position = c.position) (hrest : c₂.rest = c.rest) :
    Walked layout lenient base limit c₂ events := by
  induction h generalizing c₂ with
  | done hend =>
      rw [Cursor.hasMore, ← hrest] at hend
      exact .done hend
  | passed hmore hstep _ ih =>
      rw [Cursor.hasMore, ← hrest] at hmore
      obtain ⟨next₂, hstep₂, hposition₂, hrest₂⟩ := box_congr hstep hposition hrest
      exact .passed hmore hstep₂ (ih hposition₂ hrest₂)
  | leaf hmore hstep henter _ ih =>
      rw [Cursor.hasMore, ← hrest] at hmore
      obtain ⟨next₂, hstep₂, hposition₂, hrest₂⟩ := box_congr hstep hposition hrest
      exact .leaf hmore hstep₂ henter (ih hposition₂ hrest₂)
  | node hmore hstep henter hinside _ _ ih =>
      rw [Cursor.hasMore, ← hrest] at hmore
      obtain ⟨next₂, hstep₂, hposition₂, hrest₂⟩ := box_congr hstep hposition hrest
      exact .node hmore hstep₂ henter hinside (ih hposition₂ hrest₂)

/-! ### The walk through all of the data -/

/-- A box of this type holds boxes and nothing else. -/
def Holds (layout : Layout) (type : FourCC) : Prop :=
  ∃ full, layout.find? type = some ⟨full, .boxes⟩

/-- A layout in which boxes that have boxes inside have nothing else there. -/
def Plain (layout : Layout) : Prop :=
  ∀ type d, layout.find? type = some d → d.content = .leaf ∨ d.content = .boxes

/-- The second events are the first ones, but the payload of one box `b` that was met is `data`, with
the events of `inside'` for those of `inside`; the boxes around it have other payloads, too. -/
inductive Exchanged (layout : Layout) (b : Box) (data : Bytes) (inside inside' : List Event) :
    List Event → List Event → Prop
  | here (after : List Event) :
      Exchanged layout b data inside inside' (.opened b :: inside ++ [.closed b] ++ after)
        (.opened (b.refilled data) :: inside' ++ [.closed (b.refilled data)] ++ after)
  | behind (before : List Event) {events events' : List Event}
      (h : Exchanged layout b data inside inside' events events') :
      Exchanged layout b data inside inside' (before ++ events) (before ++ events')
  | around {a : Box} (whole : Bytes) (after : List Event) {events events' : List Event}
      (ha : Holds layout a.type) (h : Exchanged layout b data inside inside' events events') :
      Exchanged layout b data inside inside' (.opened a :: events ++ [.closed a] ++ after)
        (.opened (a.refilled whole) :: events' ++ [.closed (a.refilled whole)] ++ after)

/-- Where there are boxes inside, a plain layout has nothing else in front of them. -/
theorem Plain.holds {count : Option ℕ} {start : Cursor} (plain : Plain layout)
    (hstep : box layout lenient base c = .ok (some (b, d), next))
    (henter : enter d.content (Cursor.ofBytes b.payload) = .ok (some count, start)) :
    Holds layout b.type ∧ d.content = .boxes ∧ count = none ∧ start = Cursor.ofBytes b.payload := by
  obtain ⟨hfind, -, -⟩ := box_eq_opened.mp hstep
  rcases plain _ _ hfind with hleaf | hboxes
  · rw [hleaf] at henter
    cases henter
  · rw [hboxes] at henter
    cases henter
    obtain ⟨full, content⟩ := d
    cases hboxes
    exact ⟨⟨full, hfind⟩, rfl, rfl, rfl⟩

/-- A box that holds boxes is not one in which the walk finds none. -/
theorem Holds.mem_behind_leaf {a : Box} {start : Cursor} (h : Holds layout b.type)
    (hstep : box layout lenient base c = .ok (some (a, d), next))
    (henter : enter d.content (Cursor.ofBytes a.payload) = .ok (none, start))
    (hmem : .opened b ∈ [.opened a, .closed a] ++ events) : .opened b ∈ events := by
  rcases List.mem_append.mp hmem with hmem | hmem
  · obtain rfl : b = a := by simpa using hmem
    obtain ⟨full, hholds⟩ := h
    obtain ⟨hfind, -, -⟩ := box_eq_opened.mp hstep
    rw [hholds] at hfind
    cases hfind
    cases henter
  · exact hmem

/-- A box that is met where the walk entered a box is that box, lies inside it or is behind it. -/
theorem opened_mem_around {a : Box} {inside after : List Event}
    (hmem : .opened b ∈ .opened a :: inside ++ [.closed a] ++ after) :
    b = a ∨ .opened b ∈ inside ∨ .opened b ∈ after := by
  simpa [or_assoc] using hmem

/-- The walk inside a box is a part of the walk through everything. -/
theorem Walked.exists_inside (plain : Plain layout) (hb : Holds layout b.type)
    (h : Walked layout lenient base limit c events) (hmem : .opened b ∈ events) :
    ∃ inside, Walked layout lenient (b.start + b.headerSize) none (Cursor.ofBytes b.payload) inside ∧
      inside ⊆ events := by
  induction h with
  | done hend => cases hmem
  | passed _ _ _ ih => exact ih hmem
  | @leaf base limit c next start a d events hmore hstep henter hnext ih =>
      obtain ⟨inside, hinside, hsubset⟩ := ih (hb.mem_behind_leaf hstep henter hmem)
      exact ⟨inside, hinside, List.subset_append_of_subset_right _ hsubset⟩
  | @node base limit count c next start a d inside₁ events hmore hstep henter hinside₁ hnext
      ihInside ih =>
      obtain ⟨-, -, rfl, rfl⟩ := plain.holds hstep henter
      have hfirst : inside₁ ⊆ .opened a :: inside₁ ++ [.closed a] ++ events :=
        fun e he => List.mem_append_left _ (List.mem_append_left _ (List.mem_cons_of_mem _ he))
      rcases opened_mem_around hmem with rfl | hmem | hmem
      · exact ⟨inside₁, hinside₁, hfirst⟩
      · obtain ⟨inside, hinside, hsubset⟩ := ihInside hmem
        exact ⟨inside, hinside, List.Subset.trans hsubset hfirst⟩
      · obtain ⟨inside, hinside, hsubset⟩ := ih hmem
        exact ⟨inside, hinside, List.subset_append_of_subset_right _ hsubset⟩

/-- A walk through a box whose payload is replaced goes on behind it as if nothing had happened. -/
theorem Walked.exchanged {data u v : Bytes} {inside inside' : List Event} (plain : Plain layout)
    (hb : Holds layout b.type)
    (hinside : Walked layout lenient (b.start + b.headerSize) none (Cursor.ofBytes b.payload) inside)
    (hinside' : Walked layout lenient (b.start + b.headerSize) none (Cursor.ofBytes data) inside')
    (h : Walked layout lenient base limit c events) (hmem : .opened b ∈ events)
    (hdiffers : Differs u b.payload data v c c₂)
    (hplace : b.start + b.headerSize = base + c.position + u.length) :
    ∃ events', Walked layout lenient base limit c₂ events' ∧
      Exchanged layout b data inside inside' events events' := by
  have h8 := le_headerSize b
  -- over the walk through the first bytes: the next box is in front of `b`, is `b` or is around it
  induction h generalizing u v c₂ with
  | done hend => cases hmem
  | @passed base limit c next events hmore hstep hnext ih =>
      obtain ⟨u', next₂, hstep₂, hdiffers₂, hplace₂⟩ :=
        hdiffers.ahead hplace hstep (hnext.le_start _ hmem)
      obtain ⟨events', hwalk, hexchanged⟩ := ih hmem hdiffers₂ hplace₂
      exact ⟨events', .passed (hdiffers.hasMore hmore) hstep₂ hwalk, hexchanged⟩
  | @leaf base limit c next start a d events hmore hstep henter hnext ih =>
      have hlater : .opened b ∈ events := hb.mem_behind_leaf hstep henter hmem
      obtain ⟨u', next₂, hstep₂, hdiffers₂, hplace₂⟩ :=
        hdiffers.ahead hplace hstep (hnext.le_start _ hlater)
      obtain ⟨events', hwalk, hexchanged⟩ := ih hlater hdiffers₂ hplace₂
      exact ⟨_, .leaf (hdiffers.hasMore hmore) hstep₂ henter hwalk, hexchanged.behind _⟩
  | @node base limit count c next start a d inside₁ events hmore hstep henter hinside₁ hnext
      ihInside ih =>
      obtain ⟨ha, hcontent, rfl, rfl⟩ := plain.holds hstep henter
      have henter₂ (whole : Bytes) : enter d.content (Cursor.ofBytes (a.refilled whole).payload) =
          .ok (some none, Cursor.ofBytes whole) := by
        rw [hcontent]
        rfl
      have hastart : a.start = base + c.position := (extent_of_box hstep).1
      rcases opened_mem_around hmem with rfl | hmem | hmem
      · obtain ⟨v', next₂, hpayload, hstep₂, hposition, hrest⟩ :=
          hdiffers.around hstep (by omega) (by omega)
        have hfront : u.drop b.headerSize = [] := List.drop_eq_nil_of_le (by omega)
        rw [hfront, List.nil_append] at hpayload hstep₂
        obtain rfl : v' = [] := by simpa using hpayload
        rw [List.append_nil] at hstep₂
        obtain rfl : inside₁ = inside := by
          have hsame := hinside₁.boxes_eq.symm.trans hinside.boxes_eq
          exact congrArg Trace.events hsame
        exact ⟨_, .node (hdiffers.hasMore hmore) hstep₂ (henter₂ data) hinside'
          (hnext.congr hposition hrest), .here events⟩
      · have hfirst : a.start + a.headerSize + 0 ≤ b.start := hinside₁.le_start _ hmem
        have hlast : Within _ b := hinside₁.within (Nat.le_refl _) _ hmem
        rw [Within] at hlast
        change _ ≤ a.start + a.headerSize + a.payload.length at hlast
        obtain ⟨v', next₂, hpayload, hstep₂, hposition, hrest⟩ :=
          hdiffers.around hstep (by omega) (by omega)
        have hinner : Differs (u.drop a.headerSize) b.payload data v' (Cursor.ofBytes a.payload)
            (Cursor.ofBytes (u.drop a.headerSize ++ (data ++ v'))) :=
          ⟨rfl, hpayload, rfl, hdiffers.length⟩
        obtain ⟨events', hwalk, hexchanged⟩ := ihInside hmem hinner (by
          rw [List.length_drop]
          change _ = a.start + a.headerSize + 0 + _
          omega)
        exact ⟨_, .node (hdiffers.hasMore hmore) hstep₂ (henter₂ _) hwalk
          (hnext.congr hposition hrest), hexchanged.around _ events ha⟩
      · obtain ⟨u', next₂, hstep₂, hdiffers₂, hplace₂⟩ :=
          hdiffers.ahead hplace hstep (hnext.le_start _ hmem)
        obtain ⟨events', hwalk, hexchanged⟩ := ih hmem hdiffers₂ hplace₂
        exact ⟨_, .node (hdiffers.hasMore hmore) hstep₂ henter hinside₁ hwalk,
          hexchanged.behind _⟩

/-- The payload of a box stands in the data, behind its header. -/
theorem hasAt_of_mem_boxes {whole : Bytes} (hmem : b ∈ (trace layout lenient whole).boxes) :
    whole.HasAt (b.start + b.headerSize) b.payload := by
  obtain ⟨e, hdescribes⟩ := exists_describes layout lenient whole b hmem
  have hwithin : Within whole.length b := within_trace whole _ (opened_of_mem_boxes hmem)
  rw [Within] at hwithin
  rw [hdescribes.payload]
  exact Bytes.hasAt_slice (by omega)

/-- The same for all of the data. -/
theorem exchanged_trace {whole data : Bytes} {inside inside' : List Event} (plain : Plain layout)
    (hfault : (trace layout lenient whole).fault = none)
    (hmem : b ∈ (trace layout lenient whole).boxes) (hb : Holds layout b.type)
    (hlength : data.length = b.payload.length)
    (hinside : Walked layout lenient (b.start + b.headerSize) none (Cursor.ofBytes b.payload) inside)
    (hinside' :
      Walked layout lenient (b.start + b.headerSize) none (Cursor.ofBytes data) inside') :
    ∃ events', trace layout lenient (whole.splice (b.start + b.headerSize) data) =
        ⟨events', none⟩ ∧
      Exchanged layout b data inside inside' (trace layout lenient whole).events events' := by
  obtain ⟨front, tail, hwhole, hfront⟩ := hasAt_of_mem_boxes hmem
  have hdiffers : Differs front b.payload data tail (Cursor.ofBytes whole)
      (Cursor.ofBytes (whole.splice (b.start + b.headerSize) data)) := by
    refine ⟨rfl, hwhole, ?_, hlength⟩
    rw [hwhole]
    exact Bytes.splice_at hfront hlength
  have hplace : b.start + b.headerSize = 0 + 0 + front.length := by omega
  obtain ⟨events', hwalk', hexchanged⟩ := Walked.exchanged plain hb hinside hinside'
    (walked_of_fault hfault) (opened_of_mem_boxes hmem) hdiffers hplace
  exact ⟨events', hwalk'.boxes_eq, hexchanged⟩

end Walk

end ProtectedMedia
