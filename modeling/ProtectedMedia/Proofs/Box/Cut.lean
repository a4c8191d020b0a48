import Mathlib.Data.List.Forall2
import ProtectedMedia.Proofs.Box.Moved
import ProtectedMedia.Proofs.Box.Succession
import ProtectedMedia.Proofs.Box.Visits
import ProtectedMedia.Proofs.Bytes.Cut

/-!
# Walking data that ends early

A lenient walk takes from a box what is there. But every box has a front that the walk has to read
in one go: the header and, in a box with fields of its own, the fields in front of the boxes inside.
Of data that is cut, a walk meets the same boxes up to the cut, and it ends well if the cut falls
into no such front.
-/
namespace ProtectedMedia

open Reader

namespace Box

/-- The box with another size and `n` bytes of its payload. -/
def shortened (b : Box) (size n : ℕ) : Box := { b with size := size, payload := b.payload.take n }

/-- The box as it is met if the data is cut at `n`. If its size is not written down, it is another
one there. -/
def CutAt (n : ℕ) (b b' : Box) : Prop :=
  ∃ size, b' = b.shortened size (n - (b.start + b.headerSize))

end Box

namespace Walk

variable {layout : Layout} {lenient : Bool} {base k : ℕ} {c c' : Cursor} {b : Box}
  {d : Declaration}

/-! ### The fields in front of the boxes inside -/

theorem audioExtension_le (version : ℕ) : audioExtension version ≤ 48 := by
  unfold audioExtension
  split <;> decide

/-- The fields of an audio entry lie in the first bytes of its payload. -/
theorem confined_audioFields {x : Bytes} {u : Unit} {start : Cursor}
    (h : audioFields (.ofBytes x) = .ok (u, start)) :
    Confined audioFields (.ofBytes x) u start := by
  have hsmall {n k : ℕ} (hn : n ≤ 48) (hk : k ≤ 16) : k + n < 2 ^ 64 := by omega
  obtain ⟨u₁, c₁, hfront, h⟩ := bind_eq_ok.mp h
  obtain ⟨version, c₂, hversion, h⟩ := bind_eq_ok.mp h
  obtain ⟨u₃, c₃, hmiddle, hback⟩ := bind_eq_ok.mp h
  have h₁ : c₁.position = 8 := by
    rw [((skip_eq_ok (hsmall (by decide) (Nat.zero_le 16))).mp hfront).2]
    rfl
  have h₂ : c₂.position = 10 := by
    rw [(unsigned_eq_ok.mp hversion).2.2, Cursor.position_forward, h₁]
  have h₃ : c₃.position = 16 := by
    rw [((skip_eq_ok (hsmall (by decide) (by omega))).mp hmiddle).2, Cursor.position_forward, h₂]
  refine (confined_skip (hsmall (by decide) (Nat.zero_le 16)) hfront).bind ?_
  refine (confined_unsigned hversion).bind ?_
  refine (confined_skip (hsmall (by decide) (by omega)) hmiddle).bind ?_
  exact confined_skip (hsmall (audioExtension_le version) (by omega)) hback

theorem confined_enter {content : Content} {x : Bytes} {r : Option (Option ℕ)} {start : Cursor}
    (h : enter content (.ofBytes x) = .ok (r, start)) :
    Confined (enter content) (.ofBytes x) r start := by
  cases content with
  | leaf =>
      cases h
      exact confined_pure _ _
  | boxes =>
      cases h
      exact confined_pure _ _
  | sampleDescription =>
      obtain ⟨n, c₁, hn, h⟩ := bind_eq_ok.mp h
      cases h
      exact (confined_unsigned hn).bind (confined_pure _ _)
  | visualEntry =>
      obtain ⟨u, c₁, hskip, h⟩ := bind_eq_ok.mp h
      cases h
      have hrange : (Cursor.ofBytes x).position + 78 < 2 ^ 64 := by
        change 0 + 78 < _
        decide
      exact (confined_skip hrange hskip).bind (confined_pure _ _)
  | audioEntry =>
      obtain ⟨u, c₁, hfields, h⟩ := bind_eq_ok.mp h
      cases h
      exact (confined_audioFields hfields).bind (confined_pure _ _)

/-! ### A box in front of the cut -/

/-- A header that is read from in front of a cut. A size field of zero stands for what is left there. -/
def Header.shortened (h : Header) (field left : ℕ) : Header :=
  { h with size := if field = 0 then left else h.size }

namespace Header.ReadFrom

variable {h : Header} {field : ℕ}

theorem fields_shortened (hread : h.ReadFrom c field c') (left : ℕ) :
    (h.shortened field left).fields field = h.fields field := by
  rw [fields, fields, shortened]
  by_cases hfield : field = 0
  · have hnarrow : h.wide = false := by rw [hread.wide, hfield]; rfl
    dsimp only
    rw [hnarrow]
    rfl
  · rw [if_neg hfield]

theorem size_of_zero (hread : h.ReadFrom c field c') (hfield : field = 0) :
    h.size = c.rest.length := by
  subst hfield
  exact hread.narrow hread.wide

theorem cut (hread : h.ReadFrom c field c') (hk : c.position + h.fieldsSize ≤ k) :
    (h.shortened field (c.cut k).rest.length).ReadFrom (c.cut k) field (c'.cut k) := by
  have hfront : c.position ≤ k := by omega
  have hroom := hread.room
  have hcovers := hread.covers
  have htaken := congrArg List.length hread.took.rest
  rw [List.length_append, h.length_fields] at htaken
  have hleft := c.length_rest_cut (k := k)
  have htook := hread.took.cut hfront
  rw [List.take_of_length_le (by rw [h.length_fields]; omega)] at htook
  refine ⟨by rwa [hread.fields_shortened], hread.field_lt, hread.wide, fun hnarrow => ?_, ?_, ?_⟩
  · change (if field = 0 then _ else h.size) = _
    rw [hread.narrow hnarrow]
    split <;> rfl
  · change h.fieldsSize ≤ if field = 0 then _ else h.size
    split <;> omega
  · change min c.position k + (if field = 0 then _ else h.size) < _
    split
    · have hsize := hread.size_of_zero ‹_›
      omega
    · omega

end Header.ReadFrom

/-- A box whose header lies in front of the cut is spelled there with what is left of its payload. -/
theorem Spelled.cut {field : ℕ} (hs : Spelled true base c b field c')
    (hk : c.position + b.headerSize ≤ k) :
    Spelled true base (c.cut k)
      (b.shortened (b.header.shortened field (c.cut k).rest.length).size
        (k - (c.position + b.headerSize))) field (c'.cut k) := by
  have hfront : c.position ≤ k := by omega
  have hfields := b.length_fields_add field
  have hheader : (b.header.shortened field (c.cut k).rest.length).fields field =
      b.header.fields field :=
    hs.header.fields_shortened _
  have hspelled : (b.spelled field).take (k - c.position) =
      (b.shortened (b.header.shortened field (c.cut k).rest.length).size
        (k - (c.position + b.headerSize))).spelled field := by
    rw [Box.spelled, List.take_append, List.take_append, List.take_of_length_le (by omega),
      List.take_of_length_le (by omega), Nat.sub_sub, hfields, Nat.sub_sub]
    exact congrArg (· ++ _) hheader.symm
  refine ⟨?_, ?_, ?_, hs.fits, ?_, fun hstrict => absurd hstrict (by decide)⟩
  · rw [Cursor.position_cut, Nat.min_eq_left hfront]
    exact hs.start
  · rw [← hspelled]
    exact hs.took.cut hfront
  · have hread := hs.header.cut (k := k) (by rw [← b.header.length_fields field]; omega)
    rw [← Cursor.forward_cut (by omega), ← hheader] at hread
    exact hread
  · have hleft := c.length_rest_cut (k := k)
    have hlength := hs.length
    change (b.payload.take _).length = min (if field = 0 then _ else b.size) _ - b.headerSize
    rw [List.length_take]
    split
    · have hsize : b.size = c.rest.length := hs.header.size_of_zero ‹_›
      omega
    · omega

/-- A box whose header lies in front of the cut is met with what is there of its payload. -/
theorem box_cut_opened (hstep : box layout true base c = .ok (some (b, d), c'))
    (hk : c.position + b.headerSize ≤ k) :
    ∃ b', box layout true base (c.cut k) = .ok (some (b', d), c'.cut k) ∧
      b.CutAt (base + k) b' := by
  obtain ⟨hfind, hfull, field, hs⟩ := box_eq_opened.mp hstep
  have hcut : box layout true base (c.cut k) = .ok (some (b.shortened _ _, d), c'.cut k) :=
    box_eq_opened.mpr ⟨hfind, hfull, field, hs.cut hk⟩
  refine ⟨_, hcut, _, congrArg (b.shortened _) ?_⟩
  have hstart := hs.start
  omega

/-- A walk moves as far as there is data. -/
theorem passed_eq_forward {n : ℕ} (hne : c.rest ≠ []) :
    (if n ≤ c.rest.length then c.forward n else c.toEnd) = c.forward (min n c.rest.length) := by
  split
  · rw [Nat.min_eq_left ‹_›]
  · rw [Nat.min_eq_right (by omega)]
    exact Cursor.eq_of_position rfl (position_toEnd hne)

/-- A box that the walk passes over is passed over as far as the cut. -/
theorem box_cut_passed (hstep : box layout true base c = .ok (none, c'))
    (hk : c.position + leadSize layout c.rest ≤ k) :
    box layout true base (c.cut k) = .ok (none, c'.cut k) := by
  rw [leadSize_of_passed hstep] at hk
  obtain ⟨h, field, c₁, hread, hfind, hc'⟩ := box_eq_passed.mp hstep
  rw [hread.fieldsSize_eq] at hk
  have hcut := hread.cut hk
  refine box_eq_passed.mpr ⟨_, field, _, hcut, hfind, ?_⟩
  rw [hc', passed_eq_forward hread.rest_ne_nil, passed_eq_forward hcut.rest_ne_nil]
  refine Cursor.eq_of_position rfl ?_
  rw [Cursor.position_cut, Cursor.position_forward, Cursor.position_forward, Cursor.position_cut,
    Header.shortened]
  have hleft := c.length_rest_cut (k := k)
  dsimp only
  split
  · have hsize := hread.size_of_zero ‹_›
    omega
  · omega

theorem leadSize_append {x : Bytes} (h : 8 ≤ x.length) (rest : Bytes) :
    leadSize layout (x ++ rest) = leadSize layout x := by
  have htype : boxType (x ++ rest) = boxType x := by
    rw [boxType, boxType, Bytes.slice, Bytes.slice, List.drop_append_of_le_length (by omega),
      List.take_append_of_le_length (by rw [List.length_drop]; omega)]
  rw [leadSize, leadSize, fieldsSize_append (by omega), htype]

/-- A cut inside the header of a box is a fault. -/
theorem box_cut_failed (layout : Layout) (lenient : Bool) (base : ℕ) (hle : c.position ≤ k)
    (hk : k < c.position + leadSize layout c.rest) :
    ∃ fault, box layout lenient base (c.cut k) = .error fault := by
  cases hcut : box layout lenient base (c.cut k) with
  | error fault => exact ⟨fault, rfl⟩
  | ok p =>
      obtain ⟨r, c'⟩ := p
      obtain ⟨-, hroom, -⟩ := position_of_box hcut
      have h8 := (le_fieldsSize (c.cut k).rest).trans (fieldsSize_le_leadSize layout _)
      have hsame : leadSize layout c.rest = leadSize layout (c.cut k).rest := by
        rw [← leadSize_append (h8.trans hroom) (c.rest.drop (k - c.position)), Cursor.rest_cut,
          List.take_append_drop]
      have hlength := c.length_rest_cut (k := k)
      omega

/-! ### The fronts of all boxes -/

/-- A cut does not fall into these bytes: it is in front of them or behind them. -/
def Extent.SparedBy (n : ℕ) (e : Extent) : Prop := n ≤ e.first ∨ e.stop ≤ n

instance Extent.decidableSparedBy (n : ℕ) (e : Extent) : Decidable (e.SparedBy n) :=
  inferInstanceAs (Decidable (_ ∨ _))

/-- What a walk reads of the boxes themselves, declared or not: their headers, and the fields in
front of the boxes inside. -/
def fronts (layout : Layout) (base : ℕ) (limit : Option ℕ) (c : Cursor) : List Extent :=
  if limit = some 0 ∨ !c.hasMore then []
  else
    match step : box layout true base c with
    | .error _ => []
    | .ok (none, next) =>
      have : 8 + next.rest.length ≤ c.rest.length := consumes_box layout true base c _ _ step
      ⟨base + c.position, base + c.position + leadSize layout c.rest⟩ ::
        fronts layout base (limit.map (· - 1)) next
    | .ok (some (b, declaration), next) =>
      have : 8 + b.payload.length + next.rest.length ≤ c.rest.length :=
        consumes_box layout true base c _ _ step
      match inner : enter declaration.content (Cursor.ofBytes b.payload) with
      | .error _ => []
      | .ok (none, start) =>
        ⟨b.start, b.start + b.headerSize + start.position⟩ ::
          fronts layout base (limit.map (· - 1)) next
      | .ok (some count, start) =>
        have := length_rest_enter inner
        ⟨b.start, b.start + b.headerSize + start.position⟩ ::
          fronts layout (b.start + b.headerSize) count start ++
          fronts layout base (limit.map (· - 1)) next
termination_by c.rest.length
decreasing_by all_goals omega

section Steps

variable {limit : Option ℕ} {next start : Cursor} (hmore : ¬(limit = some 0 ∨ !c.hasMore))
include hmore

theorem fronts_passed (hstep : box layout true base c = .ok (none, next)) :
    fronts layout base limit c =
      ⟨base + c.position, base + c.position + leadSize layout c.rest⟩ ::
        fronts layout base (limit.map (· - 1)) next := by
  rw [fronts, if_neg hmore]
  split
  · simp_all
  · rename_i heq
    rw [hstep] at heq
    cases heq
    rfl
  · simp_all

theorem fronts_leaf (hstep : box layout true base c = .ok (some (b, d), next))
    (henter : enter d.content (.ofBytes b.payload) = .ok (none, start)) :
    fronts layout base limit c = ⟨b.start, b.start + b.headerSize + start.position⟩ ::
      fronts layout base (limit.map (· - 1)) next := by
  rw [fronts, if_neg hmore]
  split
  · simp_all
  · simp_all
  · rename_i heq
    rw [hstep] at heq
    cases heq
    split <;> simp_all

theorem fronts_node {count : Option ℕ} (hstep : box layout true base c = .ok (some (b, d), next))
    (henter : enter d.content (.ofBytes b.payload) = .ok (some count, start)) :
    fronts layout base limit c = ⟨b.start, b.start + b.headerSize + start.position⟩ ::
      fronts layout (b.start + b.headerSize) count start ++
      fronts layout base (limit.map (· - 1)) next := by
  rw [fronts, if_neg hmore]
  split
  · simp_all
  · simp_all
  · rename_i heq
    rw [hstep] at heq
    cases heq
    split <;> simp_all

end Steps

/-! ### The walk up to the cut -/

section Cut

variable {limit : Option ℕ} {events : List Event} {n : ℕ} {b' : Box} {content : Content}
  {r : Option (Option ℕ)} {start : Cursor}

theorem enter_cut (henter : enter content (.ofBytes b.payload) = .ok (r, start))
    (hb : b.CutAt n b') (hn : b.start + b.headerSize + start.position ≤ n) :
    enter content (.ofBytes b'.payload) = .ok (r, start.cut (n - (b.start + b.headerSize))) := by
  obtain ⟨size, rfl⟩ := hb
  rw [Box.shortened, ← Cursor.cut_ofBytes]
  exact (confined_enter henter).kept _ (by omega)

theorem enter_cut_failed (henter : enter content (.ofBytes b.payload) = .ok (r, start))
    (hb : b.CutAt n b') (hle : b.start + b.headerSize ≤ n)
    (hn : n < b.start + b.headerSize + start.position) :
    ∃ fault, enter content (.ofBytes b'.payload) = .error fault := by
  obtain ⟨size, rfl⟩ := hb
  rw [Box.shortened, ← Cursor.cut_ofBytes]
  exact (confined_enter henter).lost _ (Nat.zero_le _) (by omega)

theorem more_iff : ¬(limit = some 0 ∨ !c.hasMore) ↔ limit ≠ some 0 ∧ c.rest ≠ [] := by
  simp [Cursor.hasMore]

theorem more_cut (hmore : ¬(limit = some 0 ∨ !c.hasMore)) (hn : base + c.position < n) :
    ¬(limit = some 0 ∨ !(c.cut (n - base)).hasMore) := by
  rw [more_iff] at hmore ⊢
  refine ⟨hmore.1, fun hnil => ?_⟩
  rw [Cursor.rest_cut, List.take_eq_nil_iff] at hnil
  exact hnil.elim (fun h => by omega) hmore.2

/-- A walk that is done, or that stands behind the cut, meets nothing in front of the cut. -/
theorem walked_behind (hend : (limit = some 0 ∨ !c.hasMore) ∨ n ≤ base + c.position) :
    Walked layout lenient base limit (c.cut (n - base)) [] := by
  refine .done ?_
  by_contra hmore
  rw [more_iff, Cursor.rest_cut] at hmore
  rcases hend with hend | hn
  · refine more_iff.mpr ⟨hmore.1, fun hnil => hmore.2 ?_⟩ hend
    rw [hnil, List.take_nil]
  · rw [Nat.sub_eq_zero_of_le (by omega), List.take_zero] at hmore
    exact hmore.2 rfl

/-- Without the cut it would go on with boxes from behind the cut only. -/
theorem Walked.filter_behind (h : Walked layout lenient base limit c events)
    (hn : n ≤ base + c.position) : (Trace.mk events none).boxes.filter (·.start < n) = [] := by
  rw [List.filter_eq_nil_iff]
  intro b hb hlt
  obtain ⟨e, he, hopened⟩ := List.mem_filterMap.mp hb
  rw [← congrArg Trace.events h.boxes_eq] at he
  have hstart := le_start_of_boxes e he
  cases e with
  | closed => cases hopened
  | opened =>
      cases hopened
      have hbefore : b.start < n := of_decide_eq_true hlt
      change base + c.position ≤ b.start at hstart
      omega

theorem Walked.cut_behind (h : Walked layout lenient base limit c events)
    (hn : n ≤ base + c.position) :
    ∃ events', Walked layout lenient base limit (c.cut (n - base)) events' ∧
      List.Forall₂ (Box.CutAt n) ((Trace.mk events none).boxes.filter (·.start < n))
        (Trace.mk events' none).boxes := by
  refine ⟨[], walked_behind (.inr hn), ?_⟩
  rw [h.filter_behind hn]
  exact .nil

theorem le_first_of_fronts : ∀ e ∈ fronts layout base limit c, base + c.position ≤ e.first := by
  fun_induction fronts layout base limit c with
  | case1 => exact nofun
  | case2 => exact nofun
  | case3 base limit c hmore next hstep _ ih =>
      have hnext := position_lt_of_box hstep
      rw [List.forall_mem_cons]
      exact ⟨Nat.le_refl _, fun e he => by have := ih e he; omega⟩
  | case4 => exact nofun
  | case5 base limit c hmore b d next hstep _ start henter ih =>
      have hnext := position_lt_of_box hstep
      have hstart := (extent_of_box hstep).1
      rw [List.forall_mem_cons]
      exact ⟨hstart.ge, fun e he => by have := ih e he; omega⟩
  | case6 base limit c hmore b d next hstep _ count start henter _ ihInside ihNext =>
      have hnext := position_lt_of_box hstep
      have hstart := (extent_of_box hstep).1
      rw [List.cons_append, List.forall_mem_cons, List.forall_mem_append]
      exact ⟨hstart.ge, fun e he => by have := ihInside e he; omega,
        fun e he => by have := ihNext e he; omega⟩

theorem sparedBy_behind (hn : n ≤ base + c.position) :
    ∀ e ∈ fronts layout base limit c, e.SparedBy n :=
  fun e he => .inl (hn.trans (le_first_of_fronts e he))

/-- A box in front of the cut is met there, and what it holds is found at the same place. -/
theorem opened_before_cut (hstep : box layout true base c = .ok (some (b, d), c'))
    (henter : enter d.content (.ofBytes b.payload) = .ok (r, start)) (hn : base + c.position < n)
    (hfront : Extent.SparedBy n ⟨b.start, b.start + b.headerSize + start.position⟩) :
    ∃ b', box layout true base (c.cut (n - base)) = .ok (some (b', d), c'.cut (n - base)) ∧
      b.CutAt n b' ∧ b'.start + b'.headerSize = b.start + b.headerSize ∧
      enter d.content (.ofBytes b'.payload) =
        .ok (r, start.cut (n - (b.start + b.headerSize))) := by
  have hstart := (extent_of_box hstep).1
  have hinside : b.start + b.headerSize + start.position ≤ n := by
    rcases hfront with h | h <;> dsimp only at h <;> omega
  obtain ⟨b', hcut, hb⟩ := box_cut_opened (k := n - base) hstep (by omega)
  rw [Nat.add_sub_cancel' (by omega)] at hb
  refine ⟨b', hcut, hb, ?_, enter_cut henter hb hinside⟩
  obtain ⟨size, rfl⟩ := hb
  rfl

/-- A cut inside the front of a box ends the walk. -/
theorem fault_of_front (hmore : ¬(limit = some 0 ∨ !c.hasMore))
    (hstep : box layout true base c = .ok (some (b, d), c'))
    (henter : enter d.content (.ofBytes b.payload) = .ok (r, start))
    (hfront : ¬Extent.SparedBy n ⟨b.start, b.start + b.headerSize + start.position⟩) :
    (boxes layout true base limit (c.cut (n - base))).fault ≠ none := by
  have hstart := (extent_of_box hstep).1
  rw [Extent.SparedBy, not_or] at hfront
  obtain ⟨hfirst, hstop⟩ := hfront
  dsimp only at hfirst hstop
  have hmore' : ¬(limit = some 0 ∨ !(c.cut (n - base)).hasMore) := more_cut hmore (by omega)
  by_cases hheader : b.start + b.headerSize ≤ n
  · obtain ⟨b', hcut, hb⟩ := box_cut_opened (k := n - base) hstep (by omega)
    rw [Nat.add_sub_cancel' (by omega)] at hb
    obtain ⟨fault, hrefused⟩ := enter_cut_failed henter hb hheader (by omega)
    rw [boxes_refused hmore' hcut hrefused]
    exact nofun
  · obtain ⟨fault, hfailed⟩ := box_cut_failed layout true base (c := c) (k := n - base)
      (by omega) (by rw [leadSize_of_opened hstep]; omega)
    rw [boxes_failed hmore' hfailed]
    exact nofun

/-- If the cut falls into no front, the walk ends well and has met every box in front of the cut. -/
theorem Walked.cut (h : Walked layout true base limit c events)
    (hspared : ∀ e ∈ fronts layout base limit c, e.SparedBy n) :
    ∃ events', Walked layout true base limit (c.cut (n - base)) events' ∧
      List.Forall₂ (Box.CutAt n) ((Trace.mk events none).boxes.filter (·.start < n))
        (Trace.mk events' none).boxes := by
  -- in the cut data the walk stands at the same places, until it stands at the cut and is done
  induction h with
  | done hend => exact ⟨[], walked_behind (.inl hend), .nil⟩
  | @passed base limit c next events hmore hstep hnext ih =>
      by_cases hn : n ≤ base + c.position
      · exact (Walked.passed hmore hstep hnext).cut_behind hn
      rw [fronts_passed hmore hstep, List.forall_mem_cons] at hspared
      obtain ⟨hfront, hspared⟩ := hspared
      obtain ⟨events', hwalked, hboxes⟩ := ih hspared
      have hlead : c.position + leadSize layout c.rest ≤ n - base := by
        rcases hfront with h | h <;> dsimp only at h <;> omega
      exact ⟨events', .passed (more_cut hmore (by omega)) (box_cut_passed hstep hlead) hwalked,
        hboxes⟩
  | @leaf base limit c next start b d events hmore hstep henter hnext ih =>
      by_cases hn : n ≤ base + c.position
      · exact (Walked.leaf hmore hstep henter hnext).cut_behind hn
      rw [fronts_leaf hmore hstep henter, List.forall_mem_cons] at hspared
      obtain ⟨hfront, hspared⟩ := hspared
      obtain ⟨events', hwalked, hboxes⟩ := ih hspared
      obtain ⟨b', hcut, hb, -, henter'⟩ := opened_before_cut hstep henter (by omega) hfront
      have hlt : b.start < n := by
        rw [(extent_of_box hstep).1]
        omega
      refine ⟨_, .leaf (more_cut hmore (by omega)) hcut henter' hwalked, ?_⟩
      change List.Forall₂ _ (List.filter _ (b :: (Trace.mk events none).boxes))
        (b' :: (Trace.mk events' none).boxes)
      rw [List.filter_cons, if_pos (decide_eq_true hlt)]
      exact .cons hb hboxes
  | @node base limit count c next start b d inside events hmore hstep henter hinside hnext ihInside
      ihNext =>
      by_cases hn : n ≤ base + c.position
      · exact (Walked.node hmore hstep henter hinside hnext).cut_behind hn
      rw [fronts_node hmore hstep henter, List.cons_append, List.forall_mem_cons,
        List.forall_mem_append] at hspared
      obtain ⟨hfront, hsparedInside, hsparedNext⟩ := hspared
      obtain ⟨inside', hwalkedInside, hboxesInside⟩ := ihInside hsparedInside
      obtain ⟨events', hwalkedNext, hboxesNext⟩ := ihNext hsparedNext
      obtain ⟨b', hcut, hb, hbase, henter'⟩ := opened_before_cut hstep henter (by omega) hfront
      have hlt : b.start < n := by
        rw [(extent_of_box hstep).1]
        omega
      rw [← hbase] at hwalkedInside henter'
      refine ⟨_, .node (more_cut hmore (by omega)) hcut henter' hwalkedInside hwalkedNext, ?_⟩
      rw [Trace.boxes_append, Trace.boxes_around, Trace.boxes_append, Trace.boxes_around,
        List.filter_append, List.filter_cons, if_pos (decide_eq_true hlt)]
      exact List.rel_append (.cons hb hboxesInside) hboxesNext

/-- If the walk still ends well, the cut falls into no front. -/
theorem Walked.sparedBy_of_cut (h : Walked layout true base limit c events)
    (hfault : (boxes layout true base limit (c.cut (n - base))).fault = none) :
    ∀ e ∈ fronts layout base limit c, e.SparedBy n := by
  -- a front that is not spared would be a fault where the walk stands, and up to it nothing changes
  induction h with
  | @done base limit c hend =>
      rw [fronts, if_pos hend]
      exact nofun
  | @passed base limit c next events hmore hstep hnext ih =>
      by_cases hn : n ≤ base + c.position
      · exact sparedBy_behind hn
      have hbefore : base + c.position < n := Nat.lt_of_not_le hn
      have hmore' := more_cut hmore hbefore
      have hlead : c.position + leadSize layout c.rest ≤ n - base := by
        by_contra hlost
        obtain ⟨fault, hfailed⟩ := box_cut_failed layout true base (c := c) (k := n - base)
          (by omega) (by omega)
        rw [boxes_failed hmore' hfailed] at hfault
        cases hfault
      rw [boxes_passed hmore' (box_cut_passed hstep hlead)] at hfault
      rw [fronts_passed hmore hstep, List.forall_mem_cons]
      refine ⟨.inr ?_, ih hfault⟩
      dsimp only
      omega
  | @leaf base limit c next start b d events hmore hstep henter hnext ih =>
      by_cases hn : n ≤ base + c.position
      · exact sparedBy_behind hn
      have hfront : Extent.SparedBy n ⟨b.start, b.start + b.headerSize + start.position⟩ := by
        by_contra hlost
        exact fault_of_front hmore hstep henter hlost hfault
      obtain ⟨b', hcut, -, -, henter'⟩ := opened_before_cut hstep henter (by omega) hfront
      rw [boxes_leaf (more_cut hmore (by omega)) hcut henter'] at hfault
      rw [fronts_leaf hmore hstep henter, List.forall_mem_cons]
      exact ⟨hfront, ih hfault⟩
  | @node base limit count c next start b d inside events hmore hstep henter hinside hnext ihInside
      ihNext =>
      by_cases hn : n ≤ base + c.position
      · exact sparedBy_behind hn
      have hbefore : base + c.position < n := Nat.lt_of_not_le hn
      have hmore' := more_cut hmore hbefore
      have hfront : Extent.SparedBy n ⟨b.start, b.start + b.headerSize + start.position⟩ := by
        by_contra hlost
        exact fault_of_front hmore hstep henter hlost hfault
      obtain ⟨b', hcut, -, hbase, henter'⟩ := opened_before_cut hstep henter (by omega) hfront
      have hsparedInside := ihInside <| by
        by_contra hlost
        rw [← hbase] at hlost henter'
        exact boxes_fault_inside hmore' hcut henter' hlost hfault
      obtain ⟨inside', hwalked, -⟩ := hinside.cut hsparedInside
      rw [← hbase] at hwalked henter'
      rw [boxes_node hmore' hcut henter' hwalked.boxes_eq] at hfault
      rw [fronts_node hmore hstep henter, List.cons_append, List.forall_mem_cons,
        List.forall_mem_append]
      exact ⟨hfront, hsparedInside, ihNext hfault⟩

end Cut

/-- Cut at `n`, data without a fault is walked through without a fault just when the cut falls into
no front, and then every box in front of the cut is met. -/
theorem trace_cut {data : Bytes} (h : (trace layout true data).fault = none) (n : ℕ) :
    ((trace layout true (data.take n)).fault = none ↔
        ∀ e ∈ fronts layout 0 none (.ofBytes data), e.SparedBy n) ∧
      ((trace layout true (data.take n)).fault = none →
        List.Forall₂ (Box.CutAt n) ((trace layout true data).boxes.filter (·.start < n))
          (trace layout true (data.take n)).boxes) := by
  have hwalked := walked_of_fault h
  have hcut : trace layout true (data.take n) =
      boxes layout true 0 none ((Cursor.ofBytes data).cut (n - 0)) := by
    rw [Cursor.cut_ofBytes]
    rfl
  rw [hcut]
  have hspared := hwalked.sparedBy_of_cut (n := n)
  refine ⟨⟨hspared, fun h => ?_⟩, fun h => ?_⟩
  · obtain ⟨events, hwalked', -⟩ := hwalked.cut h
    rw [hwalked'.boxes_eq]
  · obtain ⟨events, hwalked', hboxes⟩ := hwalked.cut (hspared h)
    rw [hwalked'.boxes_eq]
    exact hboxes

end Walk

end ProtectedMedia
