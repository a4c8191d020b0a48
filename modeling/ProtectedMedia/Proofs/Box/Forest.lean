import ProtectedMedia.Proofs.Box.Header
import ProtectedMedia.Proofs.Box.Steps

/-!
# Walking what was written

A forest is a sequence of boxes, each with bytes inside or with a forest of its own. Written down
and walked through, it gives every declared box whose enclosing boxes are declared, too, at its
place and with what was written, opened before and closed after everything inside it. The walk
needs a layout that says of each type whether its boxes are full and whether they hold boxes.
-/
namespace ProtectedMedia

/-- What the header of a box says besides its size. -/
structure Label where
  type : FourCC
  full : Option FullHeader
  wide : Bool
  deriving DecidableEq

inductive Forest where
  | nil
  | leaf (label : Label) (payload : Bytes) (next : Forest)
  | node (label : Label) (inside : Forest) (next : Forest)

namespace Label

/-- The bytes of the size and type fields. -/
def fieldsSize (l : Label) : ℕ := if l.wide then 16 else 8

def headerSize (l : Label) : ℕ := l.fieldsSize + if l.full.isSome then 4 else 0

/-- The size and type fields in front of `n` bytes of payload. -/
def fields (l : Label) (n : ℕ) : Bytes :=
  if l.wide then Bytes.ofNat 4 1 ++ (Bytes.ofUInt32 l.type ++ Bytes.ofNat 8 (l.headerSize + n))
  else Bytes.ofNat 4 (l.headerSize + n) ++ Bytes.ofUInt32 l.type

def fullFields (l : Label) : Bytes :=
  match l.full with
  | none => []
  | some h => Bytes.ofUInt32 h.word

def write (l : Label) (payload : Bytes) : Bytes :=
  l.fields payload.length ++ (l.fullFields ++ payload)

/-- The box that a walk makes of a label and a payload. -/
def box (l : Label) (start : ℕ) (payload : Bytes) : Box :=
  ⟨l.type, start, l.headerSize + payload.length, l.full, l.wide, payload⟩

/-- A header of this label can be written in front of `n` bytes of payload. -/
structure Fits (l : Label) (n : ℕ) : Prop where
  size : l.wide = false → l.headerSize + n < 2 ^ 32
  full : ∀ h ∈ l.full, h.Fits

instance decidableFits (l : Label) (n : ℕ) : Decidable (l.Fits n) :=
  decidable_of_iff ((l.wide = false → l.headerSize + n < 2 ^ 32) ∧ ∀ h ∈ l.full, h.Fits)
    ⟨fun fits => ⟨fits.1, fits.2⟩, fun fits => ⟨fits.size, fits.full⟩⟩

/-- If the type is declared at all, then as full or not, and as holding boxes or not, as it is
written. -/
def Declared (l : Label) (layout : Layout) (content : Content) : Prop :=
  ∀ d ∈ layout.find? l.type, d = ⟨l.full.isSome, content⟩

instance decidableDeclared (l : Label) (layout : Layout) (content : Content) :
    Decidable (l.Declared layout content) :=
  inferInstanceAs (Decidable (∀ d ∈ layout.find? l.type, _))

end Label

namespace Forest

def write : Forest → Bytes
  | nil => []
  | leaf l payload next => l.write payload ++ next.write
  | node l inside next => l.write inside.write ++ next.write

/-- The steps of a walk through the forest, which starts at a position of the whole data. -/
def events (layout : Layout) : ℕ → Forest → List Event
  | _, nil => []
  | start, leaf l payload next =>
    (match layout.find? l.type with
      | none => []
      | some _ => [.opened (l.box start payload), .closed (l.box start payload)]) ++
      next.events layout (start + (l.headerSize + payload.length))
  | start, node l inside next =>
    (match layout.find? l.type with
      | none => []
      | some _ => .opened (l.box start inside.write) ::
          inside.events layout (start + l.headerSize) ++ [.closed (l.box start inside.write)]) ++
      next.events layout (start + (l.headerSize + inside.write.length))

/-- Every box of the forest can be written, and the layout declares it as it is written. -/
def Fits (layout : Layout) : Forest → Prop
  | nil => True
  | leaf l payload next =>
    l.Fits payload.length ∧ l.Declared layout .leaf ∧ next.Fits layout
  | node l inside next =>
    l.Fits inside.write.length ∧ l.Declared layout .boxes ∧ inside.Fits layout ∧ next.Fits layout

instance decidableFits (layout : Layout) : (f : Forest) → Decidable (f.Fits layout)
  | nil => isTrue trivial
  | leaf l payload next =>
    have := decidableFits layout next
    inferInstanceAs (Decidable (l.Fits payload.length ∧ l.Declared layout .leaf ∧ _))
  | node l inside next =>
    have := decidableFits layout inside
    have := decidableFits layout next
    inferInstanceAs
      (Decidable (l.Fits inside.write.length ∧ l.Declared layout .boxes ∧ _ ∧ _))

end Forest

/-! ### Written boxes -/

namespace Label

variable {l : Label} {n : ℕ}

theorem length_fields : (l.fields n).length = l.fieldsSize := by
  rw [fields, fieldsSize]
  split <;> simp [Bytes.length_ofUInt32]

theorem length_fullFields : l.fullFields.length = if l.full.isSome then 4 else 0 := by
  rw [fullFields]
  split <;> simp [*, Bytes.length_ofUInt32]

theorem headerSize_eq : l.headerSize = l.fieldsSize + l.fullFields.length := by
  rw [headerSize, length_fullFields]

theorem headerSize_box (start : ℕ) (payload : Bytes) :
    (l.box start payload).headerSize = l.headerSize := by
  rw [Box.headerSize, headerSize, fieldsSize, box]
  cases l.wide <;> rfl

@[simp] theorem length_write (l : Label) (payload : Bytes) :
    (l.write payload).length = l.headerSize + payload.length := by
  rw [write, List.length_append, List.length_append, length_fields, headerSize_eq]
  omega

/-- What is written in the first four bytes. -/
def sizeField (l : Label) (n : ℕ) : ℕ := if l.wide then 1 else l.headerSize + n

theorem eight_le_headerSize (l : Label) : 8 ≤ l.headerSize := by
  rw [headerSize, fieldsSize]
  split <;> omega

theorem sizeField_ne_zero (l : Label) (n : ℕ) : l.sizeField n ≠ 0 := by
  have := l.eight_le_headerSize
  rw [sizeField]
  split <;> omega

theorem write_eq (l : Label) (start : ℕ) (payload : Bytes) :
    l.write payload = (l.box start payload).spelled (l.sizeField payload.length) := by
  have hfields : l.fields payload.length =
      (l.box start payload).header.fields (l.sizeField payload.length) := by
    rw [fields, Walk.Header.fields, Box.header, box, sizeField]
    cases l.wide with
    | false => simp
    | true => rfl
  have hfull : l.fullFields = Walk.fullFields l.full := by
    rw [fullFields]
    cases l.full <;> rfl
  rw [write, Box.spelled, hfields, hfull]
  rfl

end Label

namespace Walk

open Reader

variable {layout : Layout} {lenient : Bool} {base : ℕ} {c : Cursor} {l : Label}
  {payload tail : Bytes}

/-- A header is read as it was written. -/
theorem readFrom_written (start : ℕ) (fits : l.Fits payload.length)
    (hrest : c.rest = l.write payload ++ tail)
    (hend : c.position + (l.headerSize + payload.length) < 2 ^ 64) :
    (l.box start payload).header.ReadFrom c (l.sizeField payload.length)
      (c.forward ((l.box start payload).header.fields (l.sizeField payload.length)).length) := by
  have h8 := l.eight_le_headerSize
  rw [l.write_eq start, Box.spelled, List.append_assoc] at hrest
  refine ⟨Cursor.took_of_rest hrest, ?_, ?_, fun hnarrow => ?_, ?_, hend⟩
  · rw [Label.sizeField]
    split
    · decide
    · exact fits.size (by simp_all)
  · change l.wide = _
    rw [Label.sizeField]
    cases l.wide with
    | true => rfl
    | false =>
        have hone : l.headerSize + payload.length ≠ 1 := by omega
        exact (decide_eq_false hone).symm
  · have hwide : l.wide = false := hnarrow
    rw [if_neg (l.sizeField_ne_zero _), Label.sizeField, hwide]
    rfl
  · change l.fieldsSize ≤ l.headerSize + payload.length
    rw [Label.headerSize]
    omega

/-- A box is read as it was written, and the cursor is behind it. -/
theorem spelled_written (fits : l.Fits payload.length) (hrest : c.rest = l.write payload ++ tail)
    (hend : c.position + (l.headerSize + payload.length) < 2 ^ 64) :
    Spelled lenient base c (l.box (base + c.position) payload) (l.sizeField payload.length)
      (c.forward (l.headerSize + payload.length)) := by
  have hlength := congrArg List.length hrest
  rw [List.length_append, Label.length_write] at hlength
  refine ⟨rfl, ?_, readFrom_written _ fits hrest hend, fits.full, ?_, fun _ => ?_⟩
  · rw [← Label.length_write, l.write_eq (base + c.position)]
    rw [l.write_eq (base + c.position)] at hrest
    exact Cursor.took_of_rest hrest
  · rw [Label.headerSize_box]
    change payload.length = min (l.headerSize + payload.length) _ - _
    omega
  · change l.headerSize + payload.length ≤ _
    omega

theorem box_written {content : Content} (fits : l.Fits payload.length)
    (declared : l.Declared layout content) (hrest : c.rest = l.write payload ++ tail)
    (hend : c.position + (l.headerSize + payload.length) < 2 ^ 64) :
    box layout lenient base c =
      .ok ((layout.find? l.type).map fun d => (l.box (base + c.position) payload, d),
        c.forward (l.headerSize + payload.length)) := by
  cases hfind : layout.find? l.type with
  | none =>
      have hlong : l.headerSize + payload.length ≤ c.rest.length := by
        rw [hrest, List.length_append, Label.length_write]
        omega
      have hread := readFrom_written (base + c.position) fits hrest hend
      exact box_eq_passed.mpr ⟨_, _, _, hread, hfind, (if_pos hlong).symm⟩
  | some d =>
      have hspelled : Spelled lenient base c (l.box (base + c.position) payload)
          (l.sizeField payload.length) (c.forward (l.headerSize + payload.length)) :=
        spelled_written fits hrest hend
      refine box_eq_opened.mpr ⟨hfind, ?_, _, hspelled⟩
      rw [declared d hfind]
      rfl

/-! ### The walk over a forest -/

/-- A cursor in front of a written box has more to read. -/
theorem hasMore_write (hrest : c.rest = l.write payload ++ tail) :
    ¬((none : Option ℕ) = some 0 ∨ !c.hasMore) := by
  have hne : c.rest ≠ [] := by
    apply List.ne_nil_of_length_pos
    rw [hrest, List.length_append, Label.length_write, Label.headerSize, Label.fieldsSize]
    split <;> omega
  simpa [Cursor.hasMore] using hne

theorem rest_behind_write (hrest : c.rest = l.write payload ++ tail) :
    (c.forward (l.headerSize + payload.length)).rest = tail := by
  rw [Cursor.rest_forward, hrest, List.drop_left' (Label.length_write l payload)]

/-- The walk over a written forest meets what the forest says, and nothing goes wrong. -/
theorem boxes_write {f : Forest} (fits : f.Fits layout) (hrest : c.rest = f.write)
    (hend : c.position + f.write.length < 2 ^ 64) :
    boxes layout lenient base none c = ⟨f.events layout (base + c.position), none⟩ := by
  -- the boxes inside a node are walked from another base, the next ones from another cursor
  induction f generalizing base c with
  | nil => exact boxes_nil hrest
  | leaf l payload next ih =>
      obtain ⟨hlabel, hdeclared, hnext⟩ := fits
      rw [Forest.write] at hrest
      rw [Forest.write, List.length_append, Label.length_write] at hend
      have hmore := hasMore_write hrest
      have hstep : box layout lenient base c = _ :=
        box_written hlabel hdeclared hrest (by omega)
      have hgo : boxes layout lenient base none (c.forward (l.headerSize + payload.length)) =
          ⟨next.events layout (base + (c.position + (l.headerSize + payload.length))), none⟩ :=
        ih hnext (rest_behind_write hrest) (by rw [Cursor.position_forward]; omega)
      rw [Forest.events, Nat.add_assoc base]
      cases hfind : layout.find? l.type with
      | none =>
          rw [hfind] at hstep
          rw [boxes_passed hmore hstep, Option.map_none, hgo]
          rfl
      | some d =>
          rw [hfind, hdeclared d hfind] at hstep
          rw [boxes_leaf hmore hstep rfl, Option.map_none, hgo]
          rfl
  | node l inside next ihInside ihNext =>
      obtain ⟨hlabel, hdeclared, hinside, hnext⟩ := fits
      rw [Forest.write] at hrest
      rw [Forest.write, List.length_append, Label.length_write] at hend
      have hmore := hasMore_write hrest
      have hstep : box layout lenient base c = _ :=
        box_written hlabel hdeclared hrest (by omega)
      have hgo : boxes layout lenient base none
            (c.forward (l.headerSize + inside.write.length)) =
          ⟨next.events layout (base + (c.position + (l.headerSize + inside.write.length))),
            none⟩ :=
        ihNext hnext (rest_behind_write hrest) (by rw [Cursor.position_forward]; omega)
      have hin : boxes layout lenient (base + c.position + l.headerSize) none
          (Cursor.ofBytes inside.write) =
          ⟨inside.events layout (base + c.position + l.headerSize), none⟩ :=
        ihInside hinside rfl (by change 0 + _ < _; omega)
      rw [Forest.events, Nat.add_assoc base c.position (l.headerSize + inside.write.length)]
      cases hfind : layout.find? l.type with
      | none =>
          rw [hfind] at hstep
          rw [boxes_passed hmore hstep, Option.map_none, hgo]
          rfl
      | some d =>
          rw [hfind, hdeclared d hfind] at hstep
          rw [← Label.headerSize_box (base + c.position) inside.write] at hin
          rw [boxes_node hmore hstep rfl hin, Option.map_none, hgo, Label.headerSize_box]
          rfl

theorem trace_write {f : Forest} (fits : f.Fits layout) (hend : f.write.length < 2 ^ 64) :
    trace layout lenient f.write = ⟨f.events layout 0, none⟩ :=
  boxes_write fits rfl (by rwa [← Nat.zero_add f.write.length] at hend)

end Walk

end ProtectedMedia
