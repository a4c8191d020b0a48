import ProtectedMedia.Proofs.Box.Framing
import ProtectedMedia.Proofs.Box.Nesting
import ProtectedMedia.Proofs.Box.Visits

/-!
# Boxes describe the data they stand in

Each payload is walked as data of its own, with positions of its own. Still every box that a walk
opens, however deep it lies, says what stands at its place in the whole data, and it lies inside the
payload of the box around it.
-/
namespace ProtectedMedia

open Reader Event

/-- What is read in front of more bytes stands where the cursor was. -/
theorem Cursor.Took.hasAt {c c' : Cursor} {w : Bytes} (h : c.Took w c') (hw : w ≠ []) :
    c.data.HasAt c.position w := by
  have hrest : c.data.drop c.position = w ++ c'.rest := by rw [← c.rest_eq, h.rest]
  have hinside : c.position < c.data.length := by
    by_contra hpast
    rw [List.drop_eq_nil_of_le (by omega)] at hrest
    exact hw (List.append_eq_nil_iff.mp hrest.symm).1
  refine ⟨c.data.take c.position, c'.rest, ?_, List.length_take_of_le (by omega)⟩
  rw [← hrest, List.take_append_drop]

namespace Walk

variable {layout : Layout} {lenient : Bool} {base : ℕ} {c c' : Cursor} {b : Box}
  {d : Declaration} {data : Bytes}

/-- A stretch of the data. -/
structure Extent where
  first : ℕ
  stop : ℕ

/-- The stretch of the data in which boxes lie that have the given boxes around them. -/
def extent (data : Bytes) : (around : List Box) → Extent
  | [] => ⟨0, data.length⟩
  | b :: _ => ⟨b.start + b.headerSize, b.start + b.headerSize + b.payload.length⟩

/-- What `b` says stands in the data, and `b` lies in the stretch `e`. -/
structure Describes (layout : Layout) (lenient : Bool) (data : Bytes) (e : Extent) (b : Box) :
    Prop where
  declared : ∃ content, layout.find? b.type = some ⟨b.full.isSome, content⟩
  type : data.slice (b.start + 4) (b.start + 8) = Bytes.ofUInt32 b.type
  wide : b.wide = true → data.slice b.start (b.start + 4) = Bytes.ofNat 4 1 ∧
    data.slice (b.start + 8) (b.start + 16) = Bytes.ofNat 8 b.size
  narrow : b.wide = false →
    data.slice b.start (b.start + 4) = Bytes.ofNat 4 0 ∧ b.start + b.size = e.stop ∨
      data.slice b.start (b.start + 4) = Bytes.ofNat 4 b.size ∧ b.size < 2 ^ 32
  covers : (if b.wide then 16 else 8) ≤ b.size
  full : ∀ h ∈ b.full, h.Fits ∧
    data.slice (b.start + b.headerSize - 4) (b.start + b.headerSize) = Bytes.ofUInt32 h.word
  payload : b.payload = data.slice (b.start + b.headerSize) (min (b.start + b.size) e.stop)
  length : b.payload.length = min (b.start + b.size) e.stop - (b.start + b.headerSize)
  first_le : e.first ≤ b.start
  le_stop : b.start + b.headerSize + b.payload.length ≤ e.stop
  reaches : lenient = false → b.start + b.size ≤ e.stop

/-- A walk goes through the stretch `e` as data of its own, whose positions count from `base`. -/
structure Covers (data : Bytes) (e : Extent) (base : ℕ) (c : Cursor) : Prop where
  hasAt : data.HasAt base c.data
  first : e.first = base
  stop : e.stop = base + c.data.length

section Placed

variable {field : ℕ}

/-- A box that is read from a piece of the data stands where the piece does. -/
theorem Spelled.hasAt (hs : Spelled lenient base c b field c') (hdata : data.HasAt base c.data) :
    data.HasAt b.start (b.spelled field) := by
  rw [hs.start]
  apply hdata.trans (hs.took.hasAt _)
  rw [← List.length_pos_iff, b.length_spelled, Box.headerSize]
  omega

theorem hasAt_type (h : data.HasAt b.start (b.spelled field)) :
    data.HasAt (b.start + 4) (Bytes.ofUInt32 b.type) := by
  have htype := h.left.right.left
  rwa [Bytes.length_ofNat] at htype

theorem hasAt_wideSize (h : data.HasAt b.start (b.spelled field)) (hwide : b.wide = true) :
    data.HasAt (b.start + 8) (Bytes.ofNat 8 b.size) := by
  have hsize := h.left.right.right
  rwa [Bytes.length_ofNat, Bytes.length_ofUInt32, if_pos (by exact hwide)] at hsize

theorem hasAt_payload (h : data.HasAt b.start (b.spelled field)) :
    data.HasAt (b.start + b.headerSize) b.payload := by
  have hpayload := h.right.right
  rwa [Nat.add_assoc, b.length_fields_add] at hpayload

theorem hasAt_full {x : FullHeader} (h : data.HasAt b.start (b.spelled field)) (hx : x ∈ b.full) :
    data.HasAt (b.start + b.headerSize - 4) (Bytes.ofUInt32 x.word) := by
  have hfull := h.right.left
  have hsize := b.length_fields_add field
  rw [hx, fullFields, Bytes.length_ofUInt32] at hsize
  rw [hx, fullFields] at hfull
  rw [← hsize]
  exact hfull

end Placed

variable {e : Extent}

theorem Covers.next {r : Option (Box × Declaration)} (h : Covers data e base c)
    (hstep : box layout lenient base c = .ok (r, c')) : Covers data e base c' := by
  have hdata := data_of_box hstep
  refine ⟨?_, h.first, ?_⟩
  · rw [hdata]
    exact h.hasAt
  · rw [hdata]
    exact h.stop

/-- The boxes inside a payload are walked through in place, too. -/
theorem Covers.inside {content : Content} {r : Option (Option ℕ)} {start : Cursor}
    (h : Covers data e base c) (hstep : box layout lenient base c = .ok (some (b, d), c'))
    (henter : enter content (Cursor.ofBytes b.payload) = .ok (r, start)) (around : List Box) :
    Covers data (extent data (b :: around)) (b.start + b.headerSize) start := by
  obtain ⟨-, -, field, hs⟩ := box_eq_opened.mp hstep
  have hdata : start.data = b.payload := keeps_enter content _ _ _ henter
  refine ⟨?_, rfl, ?_⟩
  · rw [hdata]
    exact hasAt_payload (hs.hasAt h.hasAt)
  · rw [hdata]
    rfl

/-- A box that is opened describes the data that is walked through. -/
theorem Covers.describes (h : Covers data e base c)
    (hstep : box layout lenient base c = .ok (some (b, d), c')) :
    Describes layout lenient data e b := by
  obtain ⟨hfind, hfull, field, hs⟩ := box_eq_opened.mp hstep
  have hplace := hs.hasAt h.hasAt
  have hpayload := hasAt_payload hplace
  have hfirst := h.first
  have hstop := h.stop
  have hstart := hs.start
  have hheader := le_headerSize b
  have hroom := congrArg List.length hs.took.rest
  rw [List.length_append, b.length_spelled, c.length_rest] at hroom
  have hlength := hs.length
  rw [c.length_rest] at hlength
  have hextent : b.payload.length = min (b.start + b.size) e.stop - (b.start + b.headerSize) := by
    omega
  refine ⟨⟨d.content, ?_⟩, ?_, fun hwide => ⟨?_, ?_⟩, fun hnarrow => ?_, hs.header.covers,
    fun x hx => ⟨hs.fits x hx, ?_⟩, ?_, hextent, ?_, ?_, fun hstrict => ?_⟩
  · rw [hfind, ← hfull]
  · exact (hasAt_type hplace).slice
  · obtain rfl : field = 1 := of_decide_eq_true (hs.header.wide ▸ hwide)
    exact hplace.left.left.slice
  · exact (hasAt_wideSize hplace hwide).slice
  · have hfield := hplace.left.left.slice
    rw [Bytes.length_ofNat] at hfield
    have hsize : b.size = if field = 0 then c.rest.length else field :=
      hs.header.narrow hnarrow
    by_cases hzero : field = 0
    · rw [if_pos hzero, c.length_rest] at hsize
      rw [hzero] at hfield
      exact .inl ⟨hfield, by omega⟩
    · rw [if_neg hzero] at hsize
      rw [← hsize] at hfield
      exact .inr ⟨hfield, by rw [hsize]; exact hs.header.field_lt⟩
  · apply (hasAt_full hplace hx).eq_slice
    rw [Bytes.length_ofUInt32]
    omega
  · exact (hpayload.eq_slice hextent.symm).symm
  · omega
  · omega
  · have hreaches := hs.reaches hstrict
    rw [c.length_rest] at hreaches
    omega

/-- So do all boxes that a walk opens, whatever boxes are around it. -/
theorem Covers.describes_boxes {limit : Option ℕ} (around : List Box)
    (h : Covers data (extent data around) base c) :
    ∀ o ∈ openings around (boxes layout lenient base limit c).events,
      Describes layout lenient data (extent data o.around) o.box := by
  fun_induction boxes layout lenient base limit c generalizing around with
  | case1 base limit c hend => simp [Trace.done, openings]
  | case2 base limit c hmore fault hstep => simp [Trace.failed, openings]
  | case3 base limit c hmore next hstep _ ih => exact ih around (h.next hstep)
  | case4 base limit c hmore b d next hstep _ fault henter =>
      intro o ho
      obtain rfl : o = ⟨around, b⟩ := List.mem_singleton.mp ho
      exact h.describes hstep
  | case5 base limit c hmore b d next hstep _ start henter ih =>
      intro o ho
      rcases List.mem_cons.mp ho with rfl | ho
      · exact h.describes hstep
      · exact ih around (h.next hstep) o ho
  | case6 base limit c hmore b d next hstep _ count start henter _ inside fault hfault ih =>
      intro o ho
      rcases List.mem_cons.mp ho with rfl | ho
      · exact h.describes hstep
      · exact ih (b :: around) (h.inside hstep henter around) o ho
  | case7 base limit c hmore b d next hstep _ count start henter _ inside hfault ihInside ihNext =>
      have hcomplete := complete_boxes hfault
      intro o ho
      rw [Trace.after, (hcomplete.around b).openings, hcomplete.openings_around] at ho
      rcases List.mem_append.mp ho with ho | ho
      · rcases List.mem_cons.mp ho with rfl | ho
        · exact h.describes hstep
        · exact ihInside (b :: around) (h.inside hstep henter around) o ho
      · exact ihNext around (h.next hstep) o ho

theorem describes_trace (layout : Layout) (lenient : Bool) (data : Bytes) :
    ∀ o ∈ openings [] (trace layout lenient data).events,
      Describes layout lenient data (extent data o.around) o.box := by
  apply Covers.describes_boxes
  exact ⟨data.hasAt_self, rfl, (Nat.zero_add _).symm⟩

/-- A box that has any payload, or needs no version and flags, covers its own header. -/
theorem Describes.headerSize_le (h : Describes layout lenient data e b)
    (hb : b.full = none ∨ b.payload ≠ []) : b.headerSize ≤ b.size := by
  rcases hb with hfull | hpayload
  · have hcovers := h.covers
    rw [Box.headerSize, hfull]
    split at hcovers <;> simp_all
  · have hlength := h.length
    have hpos := List.length_pos_iff.mpr hpayload
    omega

theorem exists_describes (layout : Layout) (lenient : Bool) (data : Bytes) :
    ∀ b ∈ (trace layout lenient data).boxes, ∃ e, Describes layout lenient data e b := by
  intro b hb
  change b ∈ (Trace.mk (trace layout lenient data).events (trace layout lenient data).fault).boxes
    at hb
  rw [← map_box_openings []] at hb
  obtain ⟨o, ho, rfl⟩ := List.mem_map.mp hb
  exact ⟨_, describes_trace layout lenient data o ho⟩

/-- Every box that a walk opens says what stands at its place in the data, and lies inside the
payload of the box around it. -/
theorem openings_describe (layout : Layout) (lenient : Bool) (data : Bytes) :
    Nest [] (trace layout lenient data).events ∧
      (openings [] (trace layout lenient data).events).map Opening.box =
        (trace layout lenient data).boxes ∧
      ∀ o ∈ openings [] (trace layout lenient data).events,
        Describes layout lenient data (extent data o.around) o.box := by
  exact ⟨nest_trace data, map_box_openings _ _ _, describes_trace layout lenient data⟩

theorem nested_box_describes :
    (⟨[⟨.moof, 11, 59, none, true, mixedForest.write.slice 27 70⟩],
        ⟨.tfhd, 27, 14, some ⟨1, 0x020000⟩, false, [4, 5]⟩⟩ : Opening) ∈
      openings [] (trace mixedLayout false mixedForest.write).events ∧
      Describes mixedLayout false mixedForest.write ⟨27, 70⟩
        ⟨.tfhd, 27, 14, some ⟨1, 0x020000⟩, false, [4, 5]⟩ := by
  have hmem : (⟨[⟨.moof, 11, 59, none, true, mixedForest.write.slice 27 70⟩],
      ⟨.tfhd, 27, 14, some ⟨1, 0x020000⟩, false, [4, 5]⟩⟩ : Opening) ∈
      openings [] (trace mixedLayout false mixedForest.write).events := by
    rw [trace_write (by decide) (by decide)]
    decide
  refine ⟨hmem, ?_⟩
  exact (openings_describe mixedLayout false mixedForest.write).2.2 _ hmem

end Walk

end ProtectedMedia
