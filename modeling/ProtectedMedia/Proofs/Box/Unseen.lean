import ProtectedMedia.Proofs.Box.Alone

/-!
# Boxes for another walk

Two walks through the same data may look for different boxes. What one of them looks into, the other
one passes over, and both come to stand in the same places. Boxes in front of such data, each exactly
as long as it says, are met as if the data ended behind them.
-/
namespace ProtectedMedia

/-- The types of the boxes at the top. -/
def Forest.types : Forest → List FourCC
  | .nil => []
  | .leaf l _ next | .node l _ next => l.type :: next.types

namespace Walk

variable {layout other : Layout} {lenient lenient₂ : Bool} {base base₂ n : ℕ}
  {c c' c₂ : Cursor} {x rest tail : Bytes} {p : FourCC → Prop} {limit : Option ℕ}
  {events more : List Event} {b : Box} {d : Declaration}

/-- The boxes that `x` consists of are of such types. All of them end where they say, except that the
last one may say anything. -/
def Consists (p : FourCC → Prop) (x : Bytes) : Prop :=
  ∀ front rest, Framed front → x = front ++ rest → rest ≠ [] → p (boxType rest)

theorem Consists.mono {q : FourCC → Prop} (h : Consists p x) (hpq : ∀ type, p type → q type) :
    Consists q x :=
  fun front rest hfront hx hne => hpq _ (h front rest hfront hx hne)

theorem Consists.nil : Consists p [] := by
  intro front rest _ hx hne
  exact absurd (List.append_eq_nil_iff.mp hx.symm).2 hne

theorem Consists.of_append (hx : SelfSized x) (h : Consists p (x ++ rest)) : Consists p rest := by
  rintro front rest' hfront rfl hne
  exact h (x ++ front) rest' (.cons hx hfront) (List.append_assoc x front rest').symm hne

theorem Consists.append (hx : SelfSized x) (hp : p (boxType x)) (h : Consists p rest) :
    Consists p (x ++ rest) := by
  intro front rest' hfront hall hne
  cases hfront with
  | nil =>
      rw [List.nil_append] at hall
      rwa [← hall, hx.boxType_append]
  | @cons y front hy hfront =>
      rw [List.append_assoc] at hall
      exact h front rest' hfront (hx.unique hy hall).2 hne

theorem boxType_write {l : Label} {payload : Bytes} (fits : l.Fits payload.length)
    (hend : l.headerSize + payload.length < 2 ^ 64) : boxType (l.write payload) = l.type := by
  have hrest : (Cursor.ofBytes (l.write payload)).rest = l.write payload ++ [] :=
    (List.append_nil _).symm
  exact (readFrom_written 0 fits hrest (by rwa [← Nat.zero_add (_ + _)] at hend)).boxType_eq

theorem consists_write {f : Forest} (fits : f.Fits layout) (hend : f.write.length < 2 ^ 64)
    (hp : ∀ type ∈ f.types, p type) : Consists p f.write := by
  induction f with
  | nil => exact .nil
  | leaf l payload next ih =>
      rw [Forest.write, List.length_append, Label.length_write] at hend
      rw [Forest.types, List.forall_mem_cons] at hp
      refine Consists.append (selfSized_write fits.1 (by omega)) ?_ (ih fits.2.2 (by omega) hp.2)
      rw [boxType_write fits.1 (by omega)]
      exact hp.1
  | node l inside next _ ihNext =>
      rw [Forest.write, List.length_append, Label.length_write] at hend
      rw [Forest.types, List.forall_mem_cons] at hp
      refine Consists.append (selfSized_write fits.1 (by omega)) ?_
        (ihNext fits.2.2.2 (by omega) hp.2)
      rw [boxType_write fits.1 (by omega)]
      exact hp.1

/-- One box that declares more than there is. -/
theorem consists_of_length_lt (hp : p (boxType x)) (hx : x.length < declaredSize x) :
    Consists p x := by
  intro front rest hfront hall hne
  cases hfront with
  | nil => rwa [hall] at hp
  | @cons y front hy hfront =>
      rw [hall, List.append_assoc, hy.declaredSize_append] at hx
      simp at hx

/-- Behind a box that ends where it says. -/
theorem Consists.forward {h : Header} {field : ℕ} (hp : Consists p c.rest)
    (hread : h.ReadFrom c field c') (hsize : h.size ≤ c.rest.length) :
    Consists p (c.forward h.size).rest := by
  rw [Cursor.rest_forward]
  by_cases hfield : field = 0
  · have hnarrow : h.wide = false := by rw [hread.wide, hfield]; rfl
    have hwhole := hread.narrow hnarrow
    rw [if_pos hfield] at hwhole
    rw [hwhole, List.drop_length]
    exact .nil
  · have hall : c.rest.take h.size ++ c.rest.drop h.size = c.rest := List.take_append_drop _ _
    rw [← hall] at hp
    exact hp.of_append (hread.selfSized hfield hsize)

/-! ### Boxes that another walk passes over -/

/-- Where a walk stands behind a box that covers its header. -/
theorem next_eq {r : Option (Box × Declaration)} (hstep : box layout lenient base c = .ok (r, c'))
    (hcovers : leadSize layout c.rest ≤ boxSize c.rest) :
    c' = if boxSize c.rest ≤ c.rest.length then c.forward (boxSize c.rest) else c.toEnd := by
  obtain ⟨-, hroom, -⟩ := position_of_box hstep
  have h8 := (le_fieldsSize c.rest).trans (fieldsSize_le_leadSize layout c.rest)
  have hlength := c.length_rest
  have hposition := position_of_covered hstep hcovers
  apply Cursor.eq_of_position
  · rw [data_of_box hstep]
    split <;> rfl
  · rw [hposition]
    split
    · rw [Cursor.position_forward]
      omega
    · change _ = c.data.length
      omega

theorem covered_of_passed (hstep : box layout lenient base c = .ok (none, c')) :
    leadSize layout c.rest ≤ boxSize c.rest := by
  rw [leadSize_of_passed hstep]
  exact (position_of_box hstep).1

theorem covered_of_opened (hstep : box layout lenient base c = .ok (some (b, d), c'))
    (hcovers : b.headerSize ≤ b.size) : leadSize layout c.rest ≤ boxSize c.rest := by
  obtain ⟨-, -, field, hs⟩ := box_eq_opened.mp hstep
  rw [leadSize_of_opened hstep, hs.header.boxSize_eq]
  exact hcovers

/-- A box whose type a walk does not know is passed over by it. -/
theorem Joins.unseen {r : Option (Box × Declaration)} (hj : Joins n [] c) (hc : Behind n [] c c₂)
    (hstep : box layout lenient base c = .ok (r, c'))
    (hcovers : leadSize layout c.rest ≤ boxSize c.rest)
    (htypes : Consists (fun type => other.find? type = none) c.rest) :
    Joins n [] c' ∧ Consists (fun type => other.find? type = none) c'.rest ∧
      ∃ c₂', Behind n [] c' c₂' ∧ box other lenient₂ base₂ c₂ = .ok (none, c₂') := by
  obtain ⟨h, field, c₁, hread, -⟩ := box_eq_ok.mp hstep
  obtain ⟨-, hroom⟩ := hj.header hread
  have hne := hread.rest_ne_nil
  have htype := htypes [] c.rest .nil rfl hne
  rw [hread.boxType_eq] at htype
  have hmoved := hread.elsewhere (hread.took.append hc.rest).1 (.inl (by rw [hc.rest_eq]))
    (by rwa [hc.position])
  have hstep₂ : box other lenient₂ base₂ c₂ =
      .ok (none, if h.size ≤ c₂.rest.length then c₂.forward h.size else c₂.toEnd) :=
    box_eq_passed.mpr ⟨h, field, _, hmoved, htype, rfl⟩
  have hnext := next_eq hstep hcovers
  rw [hread.boxSize_eq] at hnext
  rw [hc.rest_eq] at hstep₂
  by_cases hsize : h.size ≤ c.rest.length
  · rw [if_pos hsize] at hnext hstep₂
    subst hnext
    exact ⟨hj.forward hread hsize, htypes.forward hread hsize, _, hc.forward hsize, hstep₂⟩
  · rw [if_neg hsize] at hnext hstep₂
    subst hnext
    exact ⟨hj.toEnd (position_toEnd hne) rfl, .nil, _, hc.toEnd hne, hstep₂⟩

/-- A walk passes over everything that another walk goes through without a fault, if it does not know
the types of the boxes that it would have to look into. -/
theorem Walked.unseen (h : Walked layout lenient base limit c events) (hlimit : limit = none)
    (hcovers : ∀ b, .opened b ∈ events → b.headerSize ≤ b.size)
    (htypes : Consists (fun type => other.find? type = none) c.rest)
    (hj : Joins n [] c) (hc : Behind n [] c c₂) :
    Walked other lenient₂ base₂ none c₂ [] := by
  induction h generalizing c₂ with
  | @done base limit c hend =>
      have hnil : c.rest = [] := by
        rcases hend with hzero | hend
        · rw [hlimit] at hzero
          cases hzero
        · simpa [Cursor.hasMore] using hend
      exact .done (.inr (by simp [Cursor.hasMore, hc.rest_eq, hnil]))
  | @passed base limit c next events hmore hstep hnext ih =>
      subst hlimit
      obtain ⟨hj', htypes', next₂, hc', hstep₂⟩ :=
        hj.unseen hc hstep (covered_of_passed hstep) htypes
      exact .passed (hasMore_behind hc hmore) hstep₂ (ih rfl hcovers htypes' hj' hc')
  | @leaf base limit c next start b d events hmore hstep henter hnext ih =>
      subst hlimit
      have hb : b.headerSize ≤ b.size := hcovers b List.mem_cons_self
      obtain ⟨hj', htypes', next₂, hc', hstep₂⟩ :=
        hj.unseen hc hstep (covered_of_opened hstep hb) htypes
      refine .passed (hasMore_behind hc hmore) hstep₂ (ih rfl (fun b' hb' => ?_) htypes' hj' hc')
      exact hcovers b' (List.mem_append_right _ hb')
  | @node base limit count c next start b d inside events hmore hstep henter hinside hnext _ ih =>
      subst hlimit
      have hb : b.headerSize ≤ b.size := hcovers b List.mem_cons_self
      obtain ⟨hj', htypes', next₂, hc', hstep₂⟩ :=
        hj.unseen hc hstep (covered_of_opened hstep hb) htypes
      refine .passed (hasMore_behind hc hmore) hstep₂ (ih rfl (fun b' hb' => ?_) htypes' hj' hc')
      exact hcovers b' (List.mem_append_right _ hb')

/-! ### Boxes in front of others -/

/-- A box that ends where it says is met in the same way whatever follows it. -/
theorem SelfSized.box_eq {r : Option (Box × Declaration)} {rest₂ : Bytes} (hx : SelfSized x)
    (hrest : c.rest = x ++ rest) (hrest₂ : c₂.rest = x ++ rest₂)
    (hposition : c₂.position = c.position) (hroom : c.position + x.length < 2 ^ 64)
    (hstep : box layout lenient base c = .ok (r, c'))
    (hcovers : ∀ b d, r = some (b, d) → b.headerSize ≤ b.size) :
    c' = c.forward x.length ∧ box layout lenient base c₂ = .ok (r, c₂.forward x.length) := by
  rw [← hposition] at hroom
  cases r with
  | none => exact hx.passed base hrest hrest₂ hroom hstep
  | some r =>
      obtain ⟨b, d⟩ := r
      obtain ⟨-, -, field, hs⟩ := box_eq_opened.mp hstep
      have hplaced : b.placed (base + c₂.position) = b := by
        rw [hposition, ← hs.start]
        rfl
      have hopened := hx.opened base hrest hrest₂ hroom hstep (hcovers b d rfl)
      rwa [hplaced] at hopened

/-- A walk goes through boxes that end where they say as if nothing followed, and on from there. -/
theorem Framed.walked (hx : Framed x) (h : Walked layout lenient base none c events)
    (hc : c.rest = x) (hrest : c₂.rest = x ++ tail) (hposition : c₂.position = c.position)
    (hroom : c.position + x.length < 2 ^ 64)
    (hcovers : ∀ b, .opened b ∈ events → b.headerSize ≤ b.size)
    (hmore : Walked layout lenient base none (c₂.forward x.length) more) :
    Walked layout lenient base none c₂ (events ++ more) := by
  induction hx generalizing c c₂ events with
  | nil =>
      have hnil : events = [] := by
        have hboxes := h.boxes_eq
        rw [boxes_nil hc] at hboxes
        exact (congrArg Trace.events hboxes).symm
      subst hnil
      exact hmore
  | @cons x rest hx hrest' ih =>
      rw [List.append_assoc] at hrest
      rw [List.length_append] at hroom
      have hback : (c.forward x.length).rest = rest := by rw [Cursor.rest_forward, hc, List.drop_left]
      have hback₂ : (c₂.forward x.length).rest = rest ++ tail := by
        rw [Cursor.rest_forward, hrest, List.drop_left]
      have hposition₂ : (c₂.forward x.length).position = (c.forward x.length).position := by
        rw [Cursor.position_forward, Cursor.position_forward, hposition]
      have hroom' : (c.forward x.length).position + rest.length < 2 ^ 64 := by
        rw [Cursor.position_forward]
        omega
      have hmore' : Walked layout lenient base none
          ((c₂.forward x.length).forward rest.length) more := by
        rwa [Cursor.forward_forward, ← List.length_append]
      have hgo {events : List Event}
          (hnext : Walked layout lenient base none (c.forward x.length) events)
          (hcovers : ∀ b, .opened b ∈ events → b.headerSize ≤ b.size) :
          Walked layout lenient base none (c₂.forward x.length) (events ++ more) :=
        ih hnext hback hback₂ hposition₂ hroom' hcovers hmore'
      cases h with
      | done hend => exact absurd hend (hx.more hc)
      | passed _ hstep hnext =>
          obtain ⟨rfl, hstep₂⟩ := hx.box_eq hc hrest hposition (by omega) hstep nofun
          exact .passed (hx.more hrest) hstep₂ (hgo hnext hcovers)
      | @leaf _ _ _ next start b d events _ hstep henter hnext =>
          obtain ⟨rfl, hstep₂⟩ := hx.box_eq hc hrest hposition (by omega) hstep fun b' d' hb => by
            cases hb
            exact hcovers b List.mem_cons_self
          rw [List.append_assoc]
          refine .leaf (hx.more hrest) hstep₂ henter (hgo hnext fun b' hb' => ?_)
          exact hcovers b' (List.mem_append_right _ hb')
      | @node _ _ count _ next start b d inside events _ hstep henter hinside hnext =>
          obtain ⟨rfl, hstep₂⟩ := hx.box_eq hc hrest hposition (by omega) hstep fun b' d' hb => by
            cases hb
            exact hcovers b List.mem_cons_self
          rw [List.append_assoc]
          refine .node (hx.more hrest) hstep₂ henter hinside (hgo hnext fun b' hb' => ?_)
          exact hcovers b' (List.mem_append_right _ hb')

/-! ### Whole walks -/

/-- A walk meets nothing in boxes whose types it does not know. -/
theorem trace_unseen (hx : (trace layout lenient x).fault = none) (framed : Framed x)
    (hend : x.length < 2 ^ 64) (htypes : Consists (fun type => other.find? type = none) x)
    (hcovers : ∀ b, .opened b ∈ (trace layout lenient x).events → b.headerSize ≤ b.size) :
    trace other lenient₂ x = ⟨[], none⟩ := by
  have hj : Joins 0 [] (Cursor.ofBytes x) := by
    refine ⟨?_, framed.movable ?_, .inl rfl⟩
    · change 0 + 0 + x.length < 2 ^ 64
      omega
    · change 0 + 0 + x.length < 2 ^ 64
      omega
  have hc : Behind 0 [] (Cursor.ofBytes x) (Cursor.ofBytes x) := ⟨rfl, (List.append_nil x).symm⟩
  exact ((walked_of_fault hx).unseen rfl hcovers htypes hj hc).boxes_eq

/-- Behind other boxes it meets nothing in them, either. -/
theorem trace_append_unseen {y : Bytes} (hx : (trace other lenient₂ x).fault = none)
    (hy : (trace layout lenient y).fault = none) (framed : Framed x)
    (movable : Movable x.length y) (hend : (x ++ y).length < 2 ^ 64)
    (htypes : Consists (fun type => other.find? type = none) y)
    (hcoversX : ∀ b, .opened b ∈ (trace other lenient₂ x).events → b.headerSize ≤ b.size)
    (hcoversY : ∀ b, .opened b ∈ (trace layout lenient y).events → b.headerSize ≤ b.size) :
    trace other lenient₂ (x ++ y) = trace other lenient₂ x := by
  rw [List.length_append] at hend
  have hj : Joins x.length [] (Cursor.ofBytes y) := by
    refine ⟨?_, movable, .inl rfl⟩
    change x.length + 0 + y.length < 2 ^ 64
    omega
  have hc : Behind x.length [] (Cursor.ofBytes y)
      ((Cursor.ofBytes (x ++ y)).forward x.length) := by
    refine ⟨Nat.zero_add _, ?_⟩
    rw [Cursor.rest_forward, List.append_nil]
    exact List.drop_left
  have hback : Walked other lenient₂ 0 none ((Cursor.ofBytes (x ++ y)).forward x.length) [] :=
    (walked_of_fault hy).unseen rfl hcoversY htypes hj hc
  have hroom : (Cursor.ofBytes x).position + x.length < 2 ^ 64 := by
    change 0 + x.length < 2 ^ 64
    omega
  have hrest : (Cursor.ofBytes (x ++ y)).rest = x ++ y := rfl
  have hstart : (Cursor.ofBytes (x ++ y)).position = (Cursor.ofBytes x).position := rfl
  have hwalk : Walked other lenient₂ 0 none (Cursor.ofBytes x) (trace other lenient₂ x).events :=
    walked_of_fault hx
  have hall := (framed.walked hwalk rfl hrest hstart hroom hcoversX hback).boxes_eq
  rw [List.append_nil] at hall
  rw [trace, hall]
  exact congrArg (Trace.mk _) hx.symm

end Walk

end ProtectedMedia
