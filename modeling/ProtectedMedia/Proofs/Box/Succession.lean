import ProtectedMedia.Proofs.Box.Description
import ProtectedMedia.Proofs.Box.Framed

/-!
# Where the next box starts

Behind a box the walk stands where the size of the box says, or at the end of the data if that comes
first. A size that does not cover the size and type fields is refused. A size that covers those, but
not the version and flags of a full box, is not: there the walk stands behind version and flags, and
the box takes bytes from what follows it. Even so no byte is taken by two boxes, unless one of them
lies in the other.
-/
namespace ProtectedMedia

open Reader Event

namespace Walk

/-! ### What the bytes at the front of a box say -/

/-- The size of the box at the front of `x`, which may be all of `x`. -/
def boxSize (x : Bytes) : ℕ := if sizeField x = 0 then x.length else declaredSize x

/-- The type of the box at the front of `x`. -/
def boxType (x : Bytes) : FourCC := UInt32.ofNat (Bytes.toNat (x.slice 4 8))

/-- The size of its whole header: version and flags follow if its type is declared as full. -/
def leadSize (layout : Layout) (x : Bytes) : ℕ :=
  fieldsSize x + if (layout.find? (boxType x)).any (·.full) then 4 else 0

variable {layout : Layout} {lenient : Bool} {base : ℕ} {c c' : Cursor} {b : Box}
  {d : Declaration}

theorem fieldsSize_le_leadSize (layout : Layout) (x : Bytes) : fieldsSize x ≤ leadSize layout x := by
  rw [leadSize]
  omega

namespace Header.ReadFrom

variable {h : Header} {field : ℕ}

theorem boxSize_eq (hread : h.ReadFrom c field c') : boxSize c.rest = h.size := by
  rw [boxSize, hread.sizeField_eq]
  by_cases hfield : field = 0
  · have hnarrow : h.wide = false := by rw [hread.wide, hfield]; rfl
    rw [if_pos hfield, hread.narrow hnarrow, if_pos hfield]
  · rw [if_neg hfield, hread.declaredSize_eq hfield]

theorem boxType_eq (hread : h.ReadFrom c field c') : boxType c.rest = h.type := by
  have hat : c.rest.HasAt 4 (Bytes.ofUInt32 h.type) := by
    refine ⟨Bytes.ofNat 4 field,
      (if h.wide then Bytes.ofNat 8 h.size else []) ++ c'.rest, ?_, Bytes.length_ofNat 4 field⟩
    rw [hread.took.rest, fields]
    simp only [List.append_assoc]
  rw [boxType, hat.eq_slice (Bytes.length_ofUInt32 h.type).symm, Bytes.toNat_ofUInt32,
    UInt32.ofNat_toNat]

theorem leadSize_eq (hread : h.ReadFrom c field c') :
    leadSize layout c.rest =
      h.fieldsSize + if (layout.find? h.type).any (·.full) then 4 else 0 := by
  rw [leadSize, hread.fieldsSize_eq, hread.boxType_eq]

end Header.ReadFrom

theorem leadSize_of_opened (hstep : box layout lenient base c = .ok (some (b, d), c')) :
    leadSize layout c.rest = b.headerSize := by
  obtain ⟨hfind, hfull, field, hs⟩ := box_eq_opened.mp hstep
  have hlead : leadSize layout c.rest = _ := hs.header.leadSize_eq
  rw [show b.header.type = b.type from rfl, hfind, Option.any_some, hfull] at hlead
  rw [hlead, ← b.length_fields_add field, Header.length_fields, length_fullFields]

theorem leadSize_of_passed (hstep : box layout lenient base c = .ok (none, c')) :
    leadSize layout c.rest = fieldsSize c.rest := by
  obtain ⟨h, field, c₁, hread, hfind, -⟩ := box_eq_passed.mp hstep
  rw [leadSize, hread.boxType_eq, hfind]
  rfl

/-! ### Where the walk stands behind a box -/

/-- The size covers the size and type fields; behind the box the walk has moved over all of it that
is there, and over its whole header in any case. -/
theorem position_of_box {r : Option (Box × Declaration)}
    (hstep : box layout lenient base c = .ok (r, c')) :
    fieldsSize c.rest ≤ boxSize c.rest ∧ leadSize layout c.rest ≤ c.rest.length ∧
      c'.position =
        c.position + min (max (boxSize c.rest) (leadSize layout c.rest)) c.rest.length := by
  cases r with
  | some r =>
      obtain ⟨-, -, field, hs⟩ := box_eq_opened.mp hstep
      have hread := hs.header
      have hcovers := hread.covers
      have htaken := congrArg List.length hs.took.rest
      have hlength := hs.length
      have hsize : boxSize c.rest = r.1.size := hread.boxSize_eq
      have hposition := hs.took.position
      rw [← hread.fieldsSize_eq, ← hread.boxSize_eq] at hcovers
      rw [List.length_append, r.1.length_spelled] at htaken
      rw [r.1.length_spelled] at hposition
      rw [leadSize_of_opened hstep]
      exact ⟨hcovers, by omega, by omega⟩
  | none =>
      obtain ⟨h, field, c₁, hread, -, hc'⟩ := box_eq_passed.mp hstep
      have hcovers := hread.covers
      have htaken := congrArg List.length hread.took.rest
      rw [List.length_append, h.length_fields, ← hread.fieldsSize_eq] at htaken
      rw [← hread.fieldsSize_eq, ← hread.boxSize_eq] at hcovers
      rw [← hread.boxSize_eq] at hc'
      rw [leadSize_of_passed hstep, Nat.max_eq_left hcovers]
      refine ⟨hcovers, by omega, ?_⟩
      split at hc'
      · rename_i hsize
        rw [hc', Cursor.position_forward, Nat.min_eq_left hsize]
      · rename_i hsize
        rw [hc', position_toEnd hread.rest_ne_nil, Nat.min_eq_right (by omega)]

/-- A size that does not cover the size and type fields is refused. -/
theorem box_sizeBelowHeader (hroom : fieldsSize c.rest ≤ c.rest.length)
    (hsize : boxSize c.rest < fieldsSize c.rest) :
    box layout lenient base c = .error (.sizeBelowHeader (boxType c.rest) (boxSize c.rest)) := by
  have h8 := le_fieldsSize c.rest
  have hfield : (unsigned 4 : Reader BoxFault ℕ) c = .ok (sizeField c.rest, c.forward 4) :=
    unsigned_eq_ok.mpr ⟨by omega, rfl, rfl⟩
  have htype : (word : Reader BoxFault UInt32) (c.forward 4) =
      .ok (boxType c.rest, (c.forward 4).forward 4) := by
    refine map_eq_ok.mpr ⟨_, unsigned_eq_ok.mpr ⟨?_, rfl, rfl⟩, rfl⟩
    rw [Cursor.rest_forward, List.length_drop]
    omega
  have hresolve : ∃ c₃, resolveSize c.remaining (sizeField c.rest) ((c.forward 4).forward 4) =
      .ok (boxSize c.rest, c₃) := by
    rw [resolveSize, boxSize, declaredSize]
    split_ifs with hzero hone
    · exact ⟨_, rfl⟩
    · rw [fieldsSize, if_pos hone] at hroom
      refine ⟨_, unsigned_eq_ok.mpr ⟨?_, ?_, rfl⟩⟩
      · rw [Cursor.rest_forward, Cursor.rest_forward, List.length_drop, List.length_drop]
        omega
      · rw [Cursor.rest_forward, Cursor.rest_forward, List.drop_drop]
        rfl
    · exact ⟨_, rfl⟩
  obtain ⟨c₃, hresolve⟩ := hresolve
  have hcheck : checkSize (boxType c.rest) c.position (boxSize c.rest)
      (if sizeField c.rest = 1 then 16 else 8) c₃ =
      .error (.sizeBelowHeader (boxType c.rest) (boxSize c.rest)) := by
    rw [checkSize, if_pos (by exact hsize)]
    rfl
  have hheader : header c = .error (.sizeBelowHeader (boxType c.rest) (boxSize c.rest)) :=
    (bind_of_ok rfl).trans ((bind_of_ok hfield).trans ((bind_of_ok htype).trans
      ((bind_of_ok hresolve).trans (bind_of_error hcheck))))
  exact (bind_of_ok rfl).trans (bind_of_error hheader)

end Walk

/-! ### Boxes apart -/

/-- Where the bytes end that are read as the header and the payload of a box. -/
def Box.stop (b : Box) : ℕ := b.start + b.headerSize + b.payload.length

/-- A later box lies in the earlier one, or behind it. -/
def Opening.Apart (o o' : Opening) : Prop := o.box ∈ o'.around ∨ o.box.stop ≤ o'.box.start

namespace Walk

variable {layout : Layout} {lenient : Bool} {base : ℕ} {c c' : Cursor} {b : Box}
  {d : Declaration} {limit : Option ℕ}

theorem stop_of_box (hstep : box layout lenient base c = .ok (some (b, d), c')) :
    b.stop = base + c'.position := by
  obtain ⟨-, -, field, hs⟩ := box_eq_opened.mp hstep
  rw [Box.stop, hs.start, hs.took.position, b.length_spelled]
  omega

theorem le_start_of_openings {around : List Box} {o : Opening}
    (ho : o ∈ openings around (boxes layout lenient base limit c).events) :
    base + c.position ≤ o.box.start :=
  le_start_of_boxes _ (opened_of_mem_openings ho)

/-- What is inside a box and what is behind it stay apart. -/
theorem apart_of_box {around : List Box} {inside : List Event} {o : Opening}
    (hstep : box layout lenient base c = .ok (some (b, d), c'))
    (hinside : ∀ e ∈ inside, Within b.stop e.box)
    (ho : o ∈ ⟨around, b⟩ :: openings (b :: around) inside) :
    ∀ o' ∈ openings around (boxes layout lenient base limit c').events, o.Apart o' := by
  intro o' ho'
  have hstart := le_start_of_openings ho'
  rw [← stop_of_box hstep] at hstart
  right
  rcases List.mem_cons.mp ho with rfl | ho
  · exact hstart
  · exact (hinside _ (opened_of_mem_openings ho)).trans hstart

/-- Of two boxes that a walk opens, the later one lies in the earlier one or behind it. -/
theorem apart_boxes (around : List Box) :
    (openings around (boxes layout lenient base limit c).events).Pairwise Opening.Apart := by
  fun_induction boxes layout lenient base limit c generalizing around with
  | case1 base limit c hend => exact List.Pairwise.nil
  | case2 base limit c hmore fault hstep => exact List.Pairwise.nil
  | case3 base limit c hmore next hstep _ ih => exact ih around
  | case4 base limit c hmore b d next hstep _ fault henter => exact List.pairwise_singleton _ _
  | case5 base limit c hmore b d next hstep _ start henter ih =>
      have hnone : ∀ e ∈ ([] : List Event), Within b.stop e.box := by simp
      exact (ih around).cons (apart_of_box hstep hnone List.mem_cons_self)
  | case6 base limit c hmore b d next hstep _ count start henter _ inside fault hfault ih =>
      refine (ih (b :: around)).cons fun o ho => ?_
      exact .inl (mem_around_of_nest [] List.mem_cons_self (nest_boxes _ _ _ _) o ho)
  | case7 base limit c hmore b d next hstep _ count start henter _ inside hfault ihInside ihNext =>
      have hcomplete := complete_boxes hfault
      have hwithin : ∀ e ∈ inside.events, Within b.stop e.box :=
        within_boxes (within_inside (Nat.le_refl b.stop) henter)
      rw [Trace.after, (hcomplete.around b).openings, hcomplete.openings_around]
      refine List.pairwise_append.mpr ⟨(ihInside (b :: around)).cons fun o ho => ?_,
        ihNext around, fun o ho => apart_of_box hstep hwithin ho⟩
      exact .inl (mem_around_of_nest [] List.mem_cons_self (nest_boxes _ _ _ _) o ho)

/-! ### One box after another -/

/-- Boxes that are read one after another from one cursor: where each of them starts, and where it
ends by its size. Every size covers the whole header. -/
inductive Siblings (layout : Layout) (lenient : Bool) (base : ℕ) :
    Cursor → List Extent → Cursor → Prop
  | nil {c : Cursor} : Siblings layout lenient base c [] c
  | cons {c c₁ c' : Cursor} {r : Option (Box × Declaration)} {es : List Extent}
      (hstep : box layout lenient base c = .ok (r, c₁))
      (hcovers : leadSize layout c.rest ≤ boxSize c.rest)
      (hrest : Siblings layout lenient base c₁ es c') :
      Siblings layout lenient base c (⟨c.position, c.position + boxSize c.rest⟩ :: es) c'

/-- A size that covers the whole header says where the walk goes on. -/
theorem position_of_covered {r : Option (Box × Declaration)}
    (hstep : box layout lenient base c = .ok (r, c'))
    (hcovers : leadSize layout c.rest ≤ boxSize c.rest) :
    c'.position = min (c.position + boxSize c.rest) c.data.length := by
  obtain ⟨-, hroom, hposition⟩ := position_of_box hstep
  have h8 := (le_fieldsSize c.rest).trans (fieldsSize_le_leadSize layout c.rest)
  have hlength := c.length_rest
  rw [Nat.max_eq_left hcovers] at hposition
  omega

/-- If another box is read, it is read from exactly there. -/
theorem Siblings.isChain {es : List Extent} (h : Siblings layout lenient base c es c') :
    es.IsChain fun e e' => e.stop = e'.first := by
  induction h with
  | nil => exact .nil
  | @cons c c₁ c' r es hstep hcovers hrest ih =>
      cases hrest with
      | nil => exact .singleton _
      | @cons _ c₂ _ r' es hstep' hcovers' hrest' =>
          refine .cons_cons ?_ ih
          have hroom' := (position_of_box hstep').2.1
          have h8 := (le_fieldsSize c₁.rest).trans (fieldsSize_le_leadSize layout c₁.rest)
          have hlength := c₁.length_rest
          rw [data_of_box hstep] at hlength
          have := position_of_covered hstep hcovers
          change c.position + boxSize c.rest = c₁.position
          omega

/-- Behind a box the walk stands where the size of the box ends, or at the end of the data, if the
size covers the header of the box, and behind the header otherwise. Boxes that are read one after
another adjoin. A size below that of its own fields is refused, and two boxes that are opened are
apart. -/
theorem boxes_adjoin (layout : Layout) (lenient : Bool) (base : ℕ) :
    (∀ c r c', box layout lenient base c = .ok (r, c') →
      c'.data = c.data ∧
        (leadSize layout c.rest ≤ boxSize c.rest →
          c'.position = min (c.position + boxSize c.rest) c.data.length) ∧
        (boxSize c.rest < leadSize layout c.rest →
          c'.position = c.position + leadSize layout c.rest)) ∧
      (∀ c es c', Siblings layout lenient base c es c' →
        es.IsChain fun e e' => e.stop = e'.first) ∧
      (∀ c, fieldsSize c.rest ≤ c.rest.length → boxSize c.rest < fieldsSize c.rest →
        box layout lenient base c =
          .error (.sizeBelowHeader (boxType c.rest) (boxSize c.rest))) ∧
      ∀ limit c around,
        (openings around (boxes layout lenient base limit c).events).Pairwise Opening.Apart := by
  refine ⟨fun c r c' hstep => ⟨data_of_box hstep, position_of_covered hstep, fun hbelow => ?_⟩,
    fun c es c' h => h.isChain, fun c => box_sizeBelowHeader, fun limit c => apart_boxes⟩
  obtain ⟨-, hroom, hposition⟩ := position_of_box hstep
  omega

/-- The type of boxes that only take up room. -/
def padding : FourCC := .ofChars 'f' 'r' 'e' 'e'

/-- A full box, one of an undeclared type, and a full box that is cut short by the end. -/
def adjoining : Bytes :=
  Bytes.ofNat 4 14 ++ Bytes.ofUInt32 FourCC.tfhd ++ [0, 0, 0, 7, 1, 2] ++
    (Bytes.ofNat 4 1 ++ Bytes.ofUInt32 padding ++ Bytes.ofNat 8 17 ++ [3] ++
      (Bytes.ofNat 4 20 ++ Bytes.ofUInt32 FourCC.tfhd ++ [0, 0, 0, 9, 4]))

theorem siblings_adjoining :
    Siblings mixedLayout true 0 (.ofBytes adjoining) [⟨0, 14⟩, ⟨14, 31⟩, ⟨31, 51⟩]
      ((Cursor.ofBytes adjoining).forward 44) := by
  refine .cons (r := some (⟨.tfhd, 0, 14, some ⟨0, 7⟩, false, [1, 2]⟩, ⟨true, .leaf⟩)) rfl
    (by decide) ?_
  refine .cons (c := (Cursor.ofBytes adjoining).forward 14) (r := none) rfl (by decide) ?_
  refine .cons (c := (Cursor.ofBytes adjoining).forward 31)
    (r := some (⟨.tfhd, 31, 20, some ⟨0, 9⟩, false, [4]⟩, ⟨true, .leaf⟩)) rfl (by decide) ?_
  exact .nil

theorem three_boxes_adjoin :
    box mixedLayout true 0 (.ofBytes adjoining) =
        .ok (some (⟨.tfhd, 0, 14, some ⟨0, 7⟩, false, [1, 2]⟩, ⟨true, .leaf⟩),
          (Cursor.ofBytes adjoining).forward 14) ∧
      ((Cursor.ofBytes adjoining).forward 14).position = min (0 + 14) 44 ∧
      Siblings mixedLayout true 0 (.ofBytes adjoining) [⟨0, 14⟩, ⟨14, 31⟩, ⟨31, 51⟩]
        ((Cursor.ofBytes adjoining).forward 44) ∧
      List.IsChain (fun e e' : Extent => e.stop = e'.first) [⟨0, 14⟩, ⟨14, 31⟩, ⟨31, 51⟩] ∧
      box mixedLayout true 0 (.ofBytes (Bytes.ofNat 4 4 ++ Bytes.ofUInt32 padding)) =
        .error (.sizeBelowHeader padding 4) := by
  obtain ⟨hposition, hchain, hrefused, -⟩ := boxes_adjoin mixedLayout true 0
  have hstep : box mixedLayout true 0 (.ofBytes adjoining) =
      .ok (some (⟨.tfhd, 0, 14, some ⟨0, 7⟩, false, [1, 2]⟩, ⟨true, .leaf⟩),
        (Cursor.ofBytes adjoining).forward 14) := rfl
  refine ⟨hstep, (hposition _ _ _ hstep).2.1 (by decide), siblings_adjoining,
    hchain _ _ _ siblings_adjoining, hrefused _ (by decide) (by decide)⟩

/-- A full box that has no room for version and flags, a box that holds four bytes, and an empty box
of a declared type. -/
def slipping : Bytes :=
  Bytes.ofNat 4 8 ++ Bytes.ofUInt32 FourCC.tfhd ++
    (Bytes.ofNat 4 12 ++ Bytes.ofUInt32 padding ++ [1, 2, 3, 4] ++
      (Bytes.ofNat 4 8 ++ Bytes.ofUInt32 FourCC.moof))

/-- A size that leaves no room for version and flags is not refused. They are read from the next box,
and what follows is read from the middle of that box: the last box is never seen. -/
theorem short_full_box_slips :
    (∃ c', box mixedLayout false 0 (.ofBytes slipping) =
        .ok (some (⟨.tfhd, 0, 8, some ⟨0, 12⟩, false, []⟩, ⟨true, .leaf⟩), c') ∧
      c'.position = 12 ∧ min (0 + 8) slipping.length = 8) ∧
      trace mixedLayout false slipping =
        ⟨[.opened ⟨.tfhd, 0, 8, some ⟨0, 12⟩, false, []⟩,
          .closed ⟨.tfhd, 0, 8, some ⟨0, 12⟩, false, []⟩], none⟩ := by
  have hfirst : box mixedLayout false 0 (.ofBytes slipping) =
      .ok (some (⟨.tfhd, 0, 8, some ⟨0, 12⟩, false, []⟩, ⟨true, .leaf⟩),
        (Cursor.ofBytes slipping).forward 12) := rfl
  have hsecond : box mixedLayout false 0 ((Cursor.ofBytes slipping).forward 12) =
      .ok (none, ((Cursor.ofBytes slipping).forward 12).toEnd) := rfl
  have hend : boxes mixedLayout false 0 none ((Cursor.ofBytes slipping).forward 12) = .done :=
    (boxes_passed (by decide) hsecond).trans (boxes_nil rfl)
  refine ⟨⟨_, hfirst, rfl, by decide⟩, ?_⟩
  rw [trace, boxes_leaf (by decide) hfirst rfl, Option.map_none, hend]
  rfl

end Walk

end ProtectedMedia
