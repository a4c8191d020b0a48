import ProtectedMedia.Proofs.Box.Moved
import ProtectedMedia.Proofs.Bytes.Splice

/-!
# Boxes one after another

Boxes that all say themselves how long they are can be put one after another in one way only, and
anything may follow them: a walk through them goes on behind them as if it started there. What
follows is met as it is when it stands alone, except for its place, as long as no size in it leads
past the last 64-bit position from there.
-/
namespace ProtectedMedia.Walk

/-! ### Sizes -/

/-- The number in the first four bytes of a box. -/
def sizeField (x : Bytes) : ℕ := Bytes.toNat (x.take 4)

/-- How many bytes the size and type fields take. -/
def fieldsSize (x : Bytes) : ℕ := if sizeField x = 1 then 16 else 8

/-- The size that a box declares; zero if the box reaches to the end of the data. -/
def declaredSize (x : Bytes) : ℕ :=
  if sizeField x = 1 then Bytes.toNat (x.slice 8 16) else sizeField x

/-- The box is exactly as long as it says. -/
structure SelfSized (x : Bytes) : Prop where
  covers : fieldsSize x ≤ x.length
  size : declaredSize x = x.length

instance SelfSized.decidable (x : Bytes) : Decidable (SelfSized x) :=
  decidable_of_iff (fieldsSize x ≤ x.length ∧ declaredSize x = x.length)
    ⟨fun h => ⟨h.1, h.2⟩, fun h => ⟨h.covers, h.size⟩⟩

/-- Boxes one after another, each exactly as long as it says. -/
inductive Framed : Bytes → Prop
  | nil : Framed []
  | cons {x rest : Bytes} (hx : SelfSized x) (hrest : Framed rest) : Framed (x ++ rest)

/-- No box that follows others in `x` declares an end past the last 64-bit position, if `x` starts
at position `n`. -/
def Movable (n : ℕ) (x : Bytes) : Prop :=
  ∀ front rest, Framed front → x = front ++ rest → n + front.length + declaredSize rest < 2 ^ 64

variable {x y rest rest' front : Bytes} {n : ℕ}

theorem le_fieldsSize (x : Bytes) : 8 ≤ fieldsSize x := by
  rw [fieldsSize]
  split <;> omega

theorem sizeField_append (h : 4 ≤ x.length) : sizeField (x ++ rest) = sizeField x := by
  rw [sizeField, sizeField, List.take_append_of_le_length h]

theorem fieldsSize_append (h : 4 ≤ x.length) : fieldsSize (x ++ rest) = fieldsSize x := by
  rw [fieldsSize, fieldsSize, sizeField_append h]

theorem declaredSize_append (h : fieldsSize x ≤ x.length) :
    declaredSize (x ++ rest) = declaredSize x := by
  have h8 := le_fieldsSize x
  rw [declaredSize, declaredSize, sizeField_append (by omega)]
  split
  · rename_i hwide
    rw [fieldsSize, if_pos hwide] at h
    rw [Bytes.slice, Bytes.slice, List.drop_append_of_le_length (by omega),
      List.take_append_of_le_length (by rw [List.length_drop]; omega)]
  · rfl

namespace SelfSized

theorem le_length (hx : SelfSized x) : 8 ≤ x.length := (le_fieldsSize x).trans hx.covers

theorem declaredSize_append (hx : SelfSized x) (rest : Bytes) :
    declaredSize (x ++ rest) = x.length := by
  rw [Walk.declaredSize_append hx.covers, hx.size]

/-- Where the first box ends is determined. -/
theorem unique (hx : SelfSized x) (hy : SelfSized y) (h : x ++ rest = y ++ rest') :
    x = y ∧ rest = rest' := by
  have hlength : x.length = y.length := by
    rw [← hx.declaredSize_append rest, h, hy.declaredSize_append]
  exact List.append_inj h hlength

end SelfSized

namespace Framed

theorem tail (hx : SelfSized x) (h : Framed (x ++ rest)) : Framed rest := by
  generalize hall : x ++ rest = all at h
  cases h with
  | nil =>
      have hnil := (List.append_eq_nil_iff.mp hall).1
      have := hx.le_length
      rw [hnil] at this
      cases this
  | cons hy hrest =>
      obtain ⟨-, rfl⟩ := hx.unique hy hall
      exact hrest

theorem cancel (hfront : Framed front) (h : Framed (front ++ rest)) : Framed rest := by
  induction hfront with
  | nil => exact h
  | cons hx _ ih =>
      rw [List.append_assoc] at h
      exact ih (h.tail hx)

theorem declaredSize_le (h : Framed x) : declaredSize x ≤ x.length := by
  cases h with
  | nil => exact Nat.le_refl 0
  | cons hx _ =>
      rw [hx.declaredSize_append, List.length_append]
      omega

/-- None of the boxes reaches to the end of the data without saying how long it is. -/
theorem sizeField_ne_zero (h : Framed x) (hne : x ≠ []) : sizeField x ≠ 0 := by
  cases h with
  | nil => exact absurd rfl hne
  | @cons x rest hx _ =>
      intro hzero
      have hsize := hx.declaredSize_append rest
      have hlength := hx.le_length
      rw [declaredSize, hzero, if_neg (by decide)] at hsize
      omega

theorem movable (h : Framed x) (hend : n + x.length < 2 ^ 64) : Movable n x := by
  rintro front rest hfront rfl
  have hrest := (hfront.cancel h).declaredSize_le
  rw [List.length_append] at hend
  omega

end Framed

theorem Movable.tail (hx : SelfSized x) (h : Movable n (x ++ rest)) :
    Movable (n + x.length) rest := by
  rintro front rest' hfront rfl
  have := h (x ++ front) rest' (.cons hx hfront) (List.append_assoc x front rest').symm
  rw [List.length_append] at this
  omega

theorem movable_nil (h : n < 2 ^ 64) : Movable n [] := Framed.nil.movable h

/-! ### The sizes that a walk reads -/

namespace Header.ReadFrom

variable {h : Header} {c c' : Cursor} {field : ℕ}

theorem rest_ne_nil (hread : h.ReadFrom c field c') : c.rest ≠ [] := by
  have hlength := h.length_fields field
  rw [Header.fieldsSize] at hlength
  rw [hread.took.rest, ← List.length_pos_iff, List.length_append]
  split at hlength <;> omega

theorem sizeField_eq (hread : h.ReadFrom c field c') : sizeField c.rest = field := by
  rw [sizeField, hread.took.rest, fields, List.append_assoc,
    List.take_left' (Bytes.length_ofNat 4 field), Bytes.toNat_ofNat]
  exact Nat.mod_eq_of_lt hread.field_lt

theorem fieldsSize_eq (hread : h.ReadFrom c field c') : Walk.fieldsSize c.rest = h.fieldsSize := by
  rw [Walk.fieldsSize, hread.sizeField_eq, Header.fieldsSize, hread.wide]
  simp only [decide_eq_true_eq]

theorem declaredSize_eq (hread : h.ReadFrom c field c') (hfield : field ≠ 0) :
    declaredSize c.rest = h.size := by
  rw [declaredSize, hread.sizeField_eq]
  split
  · rename_i hone
    have hwide : h.wide = true := by rw [hread.wide, hone]; rfl
    have hat : c.rest.HasAt 8 (Bytes.ofNat 8 h.size) := by
      refine ⟨Bytes.ofNat 4 field ++ Bytes.ofUInt32 h.type, c'.rest, ?_, ?_⟩
      · rw [hread.took.rest, fields, if_pos hwide]
        simp only [List.append_assoc]
      · rw [List.length_append, Bytes.length_ofNat, Bytes.length_ofUInt32]
    have hroom := hread.room
    rw [hat.eq_slice (Bytes.length_ofNat 8 h.size).symm, Bytes.toNat_ofNat]
    exact Nat.mod_eq_of_lt (by omega)
  · rename_i hone
    have hnarrow : h.wide = false := by rw [hread.wide]; exact decide_eq_false hone
    rw [hread.narrow hnarrow, if_neg hfield]

theorem selfSized (hread : h.ReadFrom c field c') (hfield : field ≠ 0)
    (hsize : h.size ≤ c.rest.length) : SelfSized (c.rest.take h.size) := by
  have hlength : (c.rest.take h.size).length = h.size := List.length_take_of_le hsize
  have hall : c.rest.take h.size ++ c.rest.drop h.size = c.rest := List.take_append_drop _ _
  have hcovers : Walk.fieldsSize c.rest ≤ h.size := hread.fieldsSize_eq.trans_le hread.covers
  have h8 := le_fieldsSize c.rest
  have hsame : Walk.fieldsSize (c.rest.take h.size) = Walk.fieldsSize c.rest := by
    rw [← fieldsSize_append (by omega), hall]
  have hfits : Walk.fieldsSize (c.rest.take h.size) ≤ (c.rest.take h.size).length := by omega
  refine ⟨hfits, ?_⟩
  rw [← declaredSize_append hfits, hall, hread.declaredSize_eq hfield, hlength]

end Header.ReadFrom

/-! ### Written boxes -/

theorem selfSized_write {l : Label} {payload : Bytes} (fits : l.Fits payload.length)
    (hend : l.headerSize + payload.length < 2 ^ 64) : SelfSized (l.write payload) := by
  have hrest : (Cursor.ofBytes (l.write payload)).rest = l.write payload ++ [] :=
    (List.append_nil _).symm
  have hread := readFrom_written 0 fits hrest (by rwa [← Nat.zero_add (_ + _)] at hend)
  have hself := hread.selfSized (l.sizeField_ne_zero _) (Label.length_write l payload).ge
  have hwhole : (l.write payload).take (l.headerSize + payload.length) = l.write payload :=
    List.take_of_length_le (Label.length_write l payload).le
  rwa [← hwhole]

theorem framed_write {layout : Layout} {f : Forest} (fits : f.Fits layout)
    (hend : f.write.length < 2 ^ 64) : Framed f.write := by
  induction f with
  | nil => exact .nil
  | leaf l payload next ih =>
      rw [Forest.write, List.length_append, Label.length_write] at hend
      exact .cons (selfSized_write fits.1 (by omega)) (ih fits.2.2 (by omega))
  | node l inside next _ ihNext =>
      rw [Forest.write, List.length_append, Label.length_write] at hend
      exact .cons (selfSized_write fits.1 (by omega)) (ihNext fits.2.2.2 (by omega))

/-! ### Going on behind boxes -/

/-- What is left at a cursor can be walked `n` bytes further on, with `tail` behind it. -/
structure Joins (n : ℕ) (tail : Bytes) (c : Cursor) : Prop where
  end_lt : n + c.position + c.rest.length < 2 ^ 64
  movable : Movable (n + c.position) c.rest
  framed : tail = [] ∨ Framed c.rest

/-- `c₂` is `n` bytes further on than `c`, in front of the same bytes and then `tail`. -/
structure Behind (n : ℕ) (tail : Bytes) (c c₂ : Cursor) : Prop where
  position : c₂.position = n + c.position
  rest : c₂.rest = c.rest ++ tail

variable {layout : Layout} {base : ℕ} {c c' c₂ : Cursor} {tail : Bytes}

namespace Joins

variable {h : Header} {field : ℕ}

/-- The header can be read there, too, and the box either ends where it says or ends the data. -/
theorem header (hj : Joins n tail c) (hread : h.ReadFrom c field c') :
    (tail = [] ∨ field ≠ 0 ∧ h.size ≤ c.rest.length) ∧ n + c.position + h.size < 2 ^ 64 := by
  have hend := hj.end_lt
  constructor
  · rcases hj.framed with htail | hframed
    · exact .inl htail
    · right
      have hdeclared := hframed.declaredSize_le
      have hfield : field ≠ 0 := by
        rw [← hread.sizeField_eq]
        exact hframed.sizeField_ne_zero hread.rest_ne_nil
      exact ⟨hfield, by rwa [hread.declaredSize_eq hfield] at hdeclared⟩
  · by_cases hfield : field = 0
    · have hnarrow : h.wide = false := by rw [hread.wide, hfield]; rfl
      rw [hread.narrow hnarrow, if_pos hfield]
      exact hend
    · have := hj.movable [] c.rest .nil rfl
      rwa [hread.declaredSize_eq hfield] at this

theorem toEnd (hj : Joins n tail c) (hposition : c'.position = c.position + c.rest.length)
    (hrest : c'.rest = []) : Joins n tail c' := by
  have hend := hj.end_lt
  refine ⟨?_, ?_, .inr ?_⟩
  · rw [hposition, hrest, List.length_nil]
    omega
  · rw [hrest]
    apply movable_nil
    omega
  · rw [hrest]
    exact .nil

/-- Behind a box that ends where it says. -/
theorem forward (hj : Joins n tail c) (hread : h.ReadFrom c field c')
    (hsize : h.size ≤ c.rest.length) : Joins n tail (c.forward h.size) := by
  have hlength : (c.rest.take h.size).length = h.size := List.length_take_of_le hsize
  have hall : c.rest.take h.size ++ c.rest.drop h.size = c.rest := List.take_append_drop _ _
  by_cases hfield : field = 0
  · have hnarrow : h.wide = false := by rw [hread.wide, hfield]; rfl
    have hwhole := hread.narrow hnarrow
    rw [if_pos hfield] at hwhole
    apply hj.toEnd
    · rw [Cursor.position_forward, hwhole]
    · rw [Cursor.rest_forward, hwhole, List.drop_length]
  · have hx := hread.selfSized hfield hsize
    refine ⟨?_, ?_, ?_⟩
    · have hend := hj.end_lt
      rw [Cursor.position_forward, Cursor.rest_forward, List.length_drop]
      omega
    · have hmovable := hj.movable
      rw [← hall] at hmovable
      have := hmovable.tail hx
      rwa [hlength, Nat.add_assoc] at this
    · rcases hj.framed with htail | hframed
      · exact .inl htail
      · rw [← hall] at hframed
        exact .inr (hframed.tail hx)

end Joins

theorem position_toEnd (hne : c.rest ≠ []) : c.toEnd.position = c.position + c.rest.length := by
  have hlength := c.length_rest
  have hpos := List.length_pos_iff.mpr hne
  change c.data.length = _
  omega

namespace Behind

variable {k : ℕ}

theorem forward (h : Behind n tail c c₂) (hk : k ≤ c.rest.length) :
    Behind n tail (c.forward k) (c₂.forward k) := by
  constructor
  · rw [Cursor.position_forward, Cursor.position_forward, h.position, Nat.add_assoc]
  · rw [Cursor.rest_forward, Cursor.rest_forward, h.rest, List.drop_append_of_le_length hk]

theorem rest_eq (h : Behind n [] c c₂) : c₂.rest = c.rest := by rw [h.rest, List.append_nil]

/-- At the end of all data. -/
theorem toEnd (h : Behind n [] c c₂) (hne : c.rest ≠ []) : Behind n [] c.toEnd c₂.toEnd := by
  have hne₂ : c₂.rest ≠ [] := by rwa [h.rest_eq]
  refine ⟨?_, rfl⟩
  rw [position_toEnd hne, position_toEnd hne₂, h.rest_eq, h.position, Nat.add_assoc]

end Behind

variable {b : Box} {d : Declaration} {field : ℕ} {limit : Option ℕ} {events more : List Event}

/-- A strict walk stands behind a box that covers its own header. -/
theorem Spelled.length_eq (hs : Spelled false base c b field c') (hcovers : b.headerSize ≤ b.size) :
    (b.spelled field).length = b.size ∧ b.size ≤ c.rest.length := by
  have hreaches := hs.reaches rfl
  refine ⟨?_, hreaches⟩
  rw [b.length_spelled, hs.length]
  omega

/-- A declared box is read further on as it is read alone. -/
theorem Joins.opened (hj : Joins n tail c) (hc : Behind n tail c c₂)
    (hstep : box layout false base c = .ok (some (b, d), c')) (hcovers : b.headerSize ≤ b.size) :
    Joins n tail c' ∧ c'.position + c'.rest.length = c.position + c.rest.length ∧
      ∃ c₂', Behind n tail c' c₂' ∧ box layout false base c₂ = .ok (some (b.moved n, d), c₂') := by
  obtain ⟨hfind, hfull, field, hs⟩ := box_eq_opened.mp hstep
  obtain ⟨hlength, hsize⟩ := hs.length_eq hcovers
  obtain ⟨htail, hroom⟩ := hj.header hs.header
  have hc' : c' = c.forward b.size := by rw [hs.took.eq, hlength]
  subst hc'
  have hstart : base + c₂.position = n + (base + c.position) := by
    have := hc.position
    omega
  have hmoved := hs.moved hc.rest hstart htail (by rw [hc.position]; exact hroom)
  rw [hlength] at hmoved
  refine ⟨hj.forward hs.header hsize, ?_, _, hc.forward hsize,
    box_eq_opened.mpr ⟨hfind, hfull, field, hmoved⟩⟩
  rw [Cursor.position_forward, Cursor.rest_forward, List.length_drop]
  omega

/-- Any other box is passed over further on, too. -/
theorem Joins.passed (hj : Joins n tail c) (hc : Behind n tail c c₂)
    (hstep : box layout false base c = .ok (none, c')) :
    Joins n tail c' ∧ c'.position + c'.rest.length = c.position + c.rest.length ∧
      ∃ c₂', Behind n tail c' c₂' ∧ box layout false base c₂ = .ok (none, c₂') := by
  obtain ⟨h, field, c₁, hread, hfind, hc'⟩ := box_eq_passed.mp hstep
  obtain ⟨htail, hroom⟩ := hj.header hread
  have hleft : c₂.rest.length = c.rest.length ∨ field ≠ 0 := by
    rw [hc.rest]
    exact htail.imp (fun hnil => by rw [hnil, List.append_nil]) And.left
  have hmoved := hread.elsewhere (hread.took.append hc.rest).1 hleft (by rwa [hc.position])
  have hstep₂ : box layout false base c₂ =
      .ok (none, if h.size ≤ c₂.rest.length then c₂.forward h.size else c₂.toEnd) :=
    box_eq_passed.mpr ⟨h, field, _, hmoved, hfind, rfl⟩
  by_cases hsize : h.size ≤ c.rest.length
  · rw [if_pos hsize] at hc'
    have hlong : h.size ≤ c₂.rest.length := by
      rw [hc.rest, List.length_append]
      omega
    rw [if_pos hlong] at hstep₂
    subst hc'
    refine ⟨hj.forward hread hsize, ?_, _, hc.forward hsize, hstep₂⟩
    rw [Cursor.position_forward, Cursor.rest_forward, List.length_drop]
    omega
  · rw [if_neg hsize] at hc'
    obtain rfl : tail = [] := by
      rcases htail with htail | ⟨-, hfits⟩
      · exact htail
      · exact absurd hfits hsize
    have hend := position_toEnd hread.rest_ne_nil
    rw [hc.rest_eq, if_neg hsize] at hstep₂
    subst hc'
    exact ⟨hj.toEnd hend rfl, hend, _, hc.toEnd hread.rest_ne_nil, hstep₂⟩

theorem hasMore_behind (hc : Behind n tail c c₂) (hmore : ¬(limit = some 0 ∨ !c.hasMore)) :
    ¬((none : Option ℕ) = some 0 ∨ !c₂.hasMore) := by
  simp only [Cursor.hasMore, Bool.not_not, List.isEmpty_iff, not_or, reduceCtorEq,
    not_false_eq_true, true_and] at hmore ⊢
  rw [hc.rest, List.append_eq_nil_iff]
  exact fun hnil => hmore.2 hnil.1

/-- A walk that meets no fault goes the same way further on, and on to what is behind. -/
theorem Walked.joined (h : Walked layout false base limit c events) (hlimit : limit = none)
    (hj : Joins n tail c) (hc : Behind n tail c c₂)
    (hcovers : ∀ b, .opened b ∈ events → b.headerSize ≤ b.size) :
    ∃ c₂', c₂'.position = n + (c.position + c.rest.length) ∧ c₂'.rest = tail ∧
      ∀ more, Walked layout false base none c₂' more →
        Walked layout false base none c₂ (events.map (Event.moved n) ++ more) := by
  induction h generalizing c₂ with
  | @done base limit c hend =>
      have hnil : c.rest = [] := by
        rcases hend with hzero | hend
        · rw [hlimit] at hzero
          cases hzero
        · simpa [Cursor.hasMore] using hend
      refine ⟨c₂, ?_, ?_, fun more hmore => hmore⟩
      · rw [hc.position, hnil]
        rfl
      · rw [hc.rest, hnil, List.nil_append]
  | @passed base limit c next events hmore hstep hnext ih =>
      subst hlimit
      obtain ⟨hj', hend, next₂, hc', hstep₂⟩ := hj.passed hc hstep
      obtain ⟨c₂', hposition, hrest, hgo⟩ := ih rfl hj' hc' hcovers
      rw [hend] at hposition
      exact ⟨c₂', hposition, hrest, fun more hwalk =>
        .passed (hasMore_behind hc hmore) hstep₂ (hgo more hwalk)⟩
  | @leaf base limit c next start b d events hmore hstep henter hnext ih =>
      subst hlimit
      have hb : b.headerSize ≤ b.size := hcovers b List.mem_cons_self
      obtain ⟨hj', hend, next₂, hc', hstep₂⟩ := hj.opened hc hstep hb
      obtain ⟨c₂', hposition, hrest, hgo⟩ := ih rfl hj' hc' fun b' hb' =>
        hcovers b' (List.mem_append_right _ hb')
      rw [hend] at hposition
      refine ⟨c₂', hposition, hrest, fun more hwalk => ?_⟩
      rw [List.map_append, List.append_assoc]
      exact .leaf (hasMore_behind hc hmore) hstep₂ henter (hgo more hwalk)
  | @node base limit count c next start b d inside events hmore hstep henter hinside hnext _ ih =>
      subst hlimit
      have hb : b.headerSize ≤ b.size := hcovers b List.mem_cons_self
      obtain ⟨hj', hend, next₂, hc', hstep₂⟩ := hj.opened hc hstep hb
      obtain ⟨c₂', hposition, hrest, hgo⟩ := ih rfl hj' hc' fun b' hb' =>
        hcovers b' (List.mem_append_right _ hb')
      rw [hend] at hposition
      have hmoved := hinside.moved n
      rw [← Nat.add_assoc] at hmoved
      refine ⟨c₂', hposition, hrest, fun more hwalk => ?_⟩
      rw [List.map_append, List.append_assoc, List.map_append]
      exact .node (hasMore_behind hc hmore) hstep₂ henter hmoved (hgo more hwalk)

/-- The walk through boxes one after another and something behind them goes through both, each as
if it stood alone. -/
theorem trace_append {a b : Bytes} (ha : (trace layout false a).fault = none)
    (hb : (trace layout false b).fault = none) (framed : Framed a) (movable : Movable a.length b)
    (hend : (a ++ b).length < 2 ^ 64)
    (hcoversA : ∀ x, .opened x ∈ (trace layout false a).events → x.headerSize ≤ x.size)
    (hcoversB : ∀ x, .opened x ∈ (trace layout false b).events → x.headerSize ≤ x.size) :
    trace layout false (a ++ b) =
      ⟨(trace layout false a).events ++ (trace layout false b).events.map (Event.moved a.length),
        none⟩ := by
  rw [List.length_append] at hend
  have hwalkA : Walked layout false 0 none (Cursor.ofBytes a) (trace layout false a).events :=
    walked_of_fault ha
  have hwalkB : Walked layout false 0 none (Cursor.ofBytes b) (trace layout false b).events :=
    walked_of_fault hb
  have hfront : Joins 0 b (Cursor.ofBytes a) := by
    refine ⟨?_, framed.movable ?_, .inr framed⟩
    · change 0 + 0 + a.length < 2 ^ 64
      omega
    · change 0 + 0 + a.length < 2 ^ 64
      omega
  have hstart : Behind 0 b (Cursor.ofBytes a) (Cursor.ofBytes (a ++ b)) := ⟨rfl, rfl⟩
  obtain ⟨c₂, hposition, hrest, hgo⟩ := hwalkA.joined rfl hfront hstart hcoversA
  have hback : Joins a.length [] (Cursor.ofBytes b) := by
    refine ⟨?_, movable, .inl rfl⟩
    change a.length + 0 + b.length < 2 ^ 64
    omega
  have hbehind : Behind a.length [] (Cursor.ofBytes b) c₂ := by
    refine ⟨?_, ?_⟩
    · rw [hposition, Nat.zero_add]
      exact Nat.zero_add _
    · rw [hrest]
      exact (List.append_nil b).symm
  obtain ⟨c₃, -, hnil, hgo'⟩ := hwalkB.joined rfl hback hbehind hcoversB
  have hlast : Walked layout false 0 none c₃ [] := .done (.inr (by simp [Cursor.hasMore, hnil]))
  have hall := (hgo _ (hgo' [] hlast)).boxes_eq
  rw [Event.moved_zero, List.map_id, List.append_nil] at hall
  exact hall

end ProtectedMedia.Walk
