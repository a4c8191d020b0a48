import ProtectedMedia.Proofs.Box.Succession

/-!
# Boxes on their own

A box that is exactly as long as it says is read the same way on its own and in front of anything
else, wherever that is. Behind it the walk stands in front of what follows.
-/
namespace ProtectedMedia

/-- The same box at another place. -/
def Box.placed (start : ℕ) (b : Box) : Box := { b with start := start }

namespace Walk

variable {layout : Layout} {lenient : Bool} {base : ℕ} {c c' c₂ next : Cursor}
  {x rest rest₂ : Bytes} {b : Box} {d : Declaration}

namespace SelfSized

/-- The header of the box says where the box ends. -/
theorem size_eq {h : Header} {field : ℕ} (hx : SelfSized x) (hread : h.ReadFrom c field c')
    (hrest : c.rest = x ++ rest) : field ≠ 0 ∧ h.size = x.length := by
  have hlength := hx.le_length
  have hfield : sizeField x = field := by
    rw [← hread.sizeField_eq, hrest, sizeField_append (by omega)]
  have hne : field ≠ 0 := by
    intro hzero
    have hsize := hx.size
    rw [declaredSize, hfield, hzero, if_neg (by decide)] at hsize
    omega
  refine ⟨hne, ?_⟩
  rw [← hread.declaredSize_eq hne, hrest, hx.declaredSize_append]

theorem length_lt {r : Option (Box × Declaration)} (hx : SelfSized x)
    (hrest : c.rest = x ++ rest) (hstep : box layout lenient base c = .ok (r, next)) :
    x.length < 2 ^ 64 := by
  obtain ⟨h, field, c₁, hread, -⟩ := box_eq_ok.mp hstep
  obtain ⟨-, hsize⟩ := hx.size_eq hread hrest
  have hroom := hread.room
  omega

theorem boxType_append (hx : SelfSized x) (rest : Bytes) : boxType (x ++ rest) = boxType x := by
  have hlength := hx.le_length
  rw [boxType, boxType, Bytes.slice, Bytes.slice, List.drop_append_of_le_length (by omega),
    List.take_append_of_le_length (by rw [List.length_drop]; omega)]

/-- In front of the box a walk that may read any number of boxes goes on. -/
theorem more (hx : SelfSized x) (hrest : c.rest = x ++ rest) :
    ¬((none : Option ℕ) = some 0 ∨ !c.hasMore) := by
  have hlength := hx.le_length
  have hne : x ≠ [] := List.length_pos_iff.mp (by omega)
  simp [Cursor.hasMore, hrest, hne]

/-- An undeclared box is passed over in any place. -/
theorem passed (hx : SelfSized x) (base₂ : ℕ) (hrest : c.rest = x ++ rest) (hrest₂ : c₂.rest = x ++ rest₂)
    (hroom : c₂.position + x.length < 2 ^ 64)
    (hstep : box layout lenient base c = .ok (none, next)) :
    next = c.forward x.length ∧
      box layout lenient base₂ c₂ = .ok (none, c₂.forward x.length) := by
  obtain ⟨h, field, c₁, hread, hfind, hnext⟩ := box_eq_passed.mp hstep
  obtain ⟨hfield, hsize⟩ := hx.size_eq hread hrest
  have hcovers := hread.covers
  have hlong : x.length ≤ c.rest.length := by simp [hrest]
  have hlong₂ : x.length ≤ c₂.rest.length := by simp [hrest₂]
  obtain ⟨x', rfl⟩ := hread.took.exists_append hrest (by
    rw [h.length_fields]
    omega)
  have htook : c₂.Took (h.fields field) _ :=
    Cursor.took_of_rest (hrest₂.trans (List.append_assoc _ _ _))
  have hread₂ := hread.elsewhere htook (.inr hfield) (by rwa [hsize])
  constructor
  · rw [hnext, hsize, if_pos hlong]
  · refine box_eq_passed.mpr ⟨h, field, _, hread₂, hfind, ?_⟩
    rw [hsize, if_pos hlong₂]

/-- A declared box is opened in any place, if it covers its header. -/
theorem opened (hx : SelfSized x) (base₂ : ℕ) (hrest : c.rest = x ++ rest) (hrest₂ : c₂.rest = x ++ rest₂)
    (hroom : c₂.position + x.length < 2 ^ 64)
    (hstep : box layout lenient base c = .ok (some (b, d), next))
    (hcovers : b.headerSize ≤ b.size) :
    next = c.forward x.length ∧
      box layout lenient base₂ c₂ =
        .ok (some (b.placed (base₂ + c₂.position), d), c₂.forward x.length) := by
  obtain ⟨hfind, hfull, field, hs⟩ := box_eq_opened.mp hstep
  obtain ⟨hfield, hsize⟩ := hx.size_eq hs.header hrest
  have hreaches : b.size ≤ c.rest.length := by
    have hsame : b.size = x.length := hsize
    rw [hrest, List.length_append, hsame]
    omega
  have hlength : (b.spelled field).length = b.size := by
    rw [b.length_spelled, hs.length]
    omega
  have hall : x = b.spelled field := by
    have hsame : x ++ rest = b.spelled field ++ next.rest := by rw [← hrest, hs.took.rest]
    exact (List.append_inj hsame (hsize.symm.trans hlength.symm)).1
  subst hall
  refine ⟨hs.took.eq, box_eq_opened.mpr ⟨hfind, hfull, field, ?_⟩⟩
  refine hs.elsewhere rfl rfl rfl rfl (Cursor.took_of_rest hrest₂) (.inr ⟨hfield, hreaches, ?_⟩) ?_
  · rw [hrest₂, List.length_append]
    omega
  · omega

end SelfSized

end Walk

end ProtectedMedia
