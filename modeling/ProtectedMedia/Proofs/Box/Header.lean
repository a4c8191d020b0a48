import ProtectedMedia.Box.Walk
import ProtectedMedia.Proofs.Bytes.Taken
import ProtectedMedia.Proofs.Bytes.Written

/-!
# What the fields of a box say

The size and type fields are read just when they are there, cover themselves and do not lead past
the last 64-bit position. A declared box goes on with version and flags if it is declared to be
full, and with a payload that reaches to the end of the box or, in a lenient walk, to the end of the
data if that comes first. A walk passes over any other box as far as it reaches.
-/
namespace ProtectedMedia

open Reader

/-- Version and flags share a word, eight bits and 24 bits of it. -/
structure FullHeader.Fits (h : FullHeader) : Prop where
  version : h.version.toNat < 256
  flags : h.flags.toNat < 2 ^ 24

instance FullHeader.decidableFits (h : FullHeader) : Decidable h.Fits :=
  decidable_of_iff (h.version.toNat < 256 ∧ h.flags.toNat < 2 ^ 24)
    ⟨fun fits => ⟨fits.1, fits.2⟩, fun fits => ⟨fits.version, fits.flags⟩⟩

def FullHeader.word (h : FullHeader) : UInt32 :=
  UInt32.ofNat (h.version.toNat * 2 ^ 24 + h.flags.toNat)

theorem FullHeader.split_word {h : FullHeader} (fits : h.Fits) :
    (⟨h.word >>> 24, h.word &&& 0xffffff⟩ : FullHeader) = h := by
  obtain ⟨version, flags⟩ := h
  have hversion : version.toNat < 256 := fits.version
  have hflags : flags.toNat < 2 ^ 24 := fits.flags
  have hlt : version.toNat * 2 ^ 24 + flags.toNat < 2 ^ 32 := by omega
  have hword : (FullHeader.word ⟨version, flags⟩).toNat = version.toNat * 2 ^ 24 + flags.toNat :=
    UInt32.toNat_ofNat_of_lt' hlt
  congr 1
  · rw [← UInt32.toNat_inj, UInt32.toNat_shiftRight, hword]
    change _ >>> 24 = _
    rw [Nat.shiftRight_eq_div_pow]
    omega
  · rw [← UInt32.toNat_inj, UInt32.toNat_and, hword]
    change _ &&& (2 ^ 24 - 1) = _
    rw [Nat.and_two_pow_sub_one_eq_mod]
    omega

/-- Version and flags are read from the word that they are written as. -/
theorem FullHeader.word_split (w : UInt32) :
    (⟨w >>> 24, w &&& 0xffffff⟩ : FullHeader).Fits ∧
      (⟨w >>> 24, w &&& 0xffffff⟩ : FullHeader).word = w := by
  have hversion : (w >>> 24).toNat = w.toNat / 2 ^ 24 := by
    rw [UInt32.toNat_shiftRight]
    change _ >>> 24 = _
    rw [Nat.shiftRight_eq_div_pow]
  have hflags : (w &&& 0xffffff).toNat = w.toNat % 2 ^ 24 := by
    rw [UInt32.toNat_and]
    change _ &&& (2 ^ 24 - 1) = _
    rw [Nat.and_two_pow_sub_one_eq_mod]
  have hlt : w.toNat < 2 ^ 32 := w.toNat_lt
  constructor
  · constructor
    · dsimp only
      omega
    · dsimp only
      omega
  · rw [word, hversion, hflags, Nat.div_add_mod', UInt32.ofNat_toNat]

namespace Walk

def fullFields : Option FullHeader → Bytes
  | none => []
  | some h => Bytes.ofUInt32 h.word

theorem length_fullFields (h : Option FullHeader) :
    (fullFields h).length = if h.isSome then 4 else 0 := by
  cases h with
  | none => rfl
  | some h => exact Bytes.length_ofUInt32 h.word

namespace Header

def fieldsSize (h : Header) : ℕ := if h.wide then 16 else 8

/-- The size and type fields, given what stands in the first four bytes. -/
def fields (h : Header) (field : ℕ) : Bytes :=
  Bytes.ofNat 4 field ++ (Bytes.ofUInt32 h.type ++ if h.wide then Bytes.ofNat 8 h.size else [])

/-- What has to be the case for a header to be read from `c` up to `c'`. -/
structure ReadFrom (h : Header) (c : Cursor) (field : ℕ) (c' : Cursor) : Prop where
  took : c.Took (h.fields field) c'
  field_lt : field < 2 ^ 32
  wide : h.wide = decide (field = 1)
  narrow : h.wide = false → h.size = if field = 0 then c.rest.length else field
  covers : h.fieldsSize ≤ h.size
  room : c.position + h.size < 2 ^ 64

theorem length_fields (h : Header) (field : ℕ) : (h.fields field).length = h.fieldsSize := by
  rw [fields, fieldsSize]
  split <;> simp [Bytes.length_ofUInt32]

end Header

variable {layout : Layout} {lenient : Bool} {base : ℕ} {c c' : Cursor}

theorem checkSize_eq_ok {type : FourCC} {start size used : ℕ} {u : Unit} :
    checkSize type start size used c = .ok (u, c') ↔
      used ≤ size ∧ start + size < 2 ^ 64 ∧ c' = c := by
  have hsize : UInt64.size = 2 ^ 64 := rfl
  rw [checkSize, hsize]
  split_ifs with hbelow hpast
  · exact ⟨nofun, fun h => by omega⟩
  · exact ⟨nofun, fun h => by omega⟩
  · constructor
    · intro h
      cases h
      exact ⟨by omega, by omega, rfl⟩
    · rintro ⟨-, -, rfl⟩
      rfl

theorem readFrom_of_header {h : Header} (hread : header c = .ok (h, c')) :
    ∃ field, h.ReadFrom c field c' := by
  obtain ⟨start, c₁, hstart, hread⟩ := bind_eq_ok.mp hread
  cases hstart
  obtain ⟨field, c₂, hfield, hread⟩ := bind_eq_ok.mp hread
  obtain ⟨type, c₃, htype, hread⟩ := bind_eq_ok.mp hread
  obtain ⟨size, c₄, hsize, hread⟩ := bind_eq_ok.mp hread
  obtain ⟨u, c₅, hcheck, hread⟩ := bind_eq_ok.mp hread
  cases hread
  obtain ⟨hcovers, hroom, rfl⟩ := checkSize_eq_ok.mp hcheck
  have hlast : c₃.Took (if decide (field = 1) then Bytes.ofNat 8 size else []) c' ∧
      (decide (field = 1) = false → size = if field = 0 then c.rest.length else field) := by
    rw [resolveSize] at hsize
    by_cases hzero : field = 0
    · rw [if_pos hzero] at hsize
      cases hsize
      rw [if_neg (by simp [hzero]), if_pos hzero]
      exact ⟨.refl _, fun _ => rfl⟩
    · rw [if_neg hzero] at hsize
      by_cases hone : field = 1
      · rw [if_pos hone] at hsize
        rw [if_pos (decide_eq_true hone)]
        exact ⟨took_unsigned hsize, fun h => by simp [hone] at h⟩
      · rw [if_neg hone] at hsize
        cases hsize
        rw [if_neg (by simp [hone]), if_neg hzero]
        exact ⟨.refl _, fun _ => rfl⟩
  refine ⟨field, ?_, lt_of_unsigned hfield, rfl, hlast.2, ?_, hroom⟩
  · exact (took_unsigned hfield).trans ((took_word htype).trans hlast.1)
  · rw [Header.fieldsSize]
    simpa using hcovers

theorem header_of_readFrom {h : Header} {field : ℕ} (hread : h.ReadFrom c field c') :
    header c = .ok (h, c') := by
  obtain ⟨type, size, wide⟩ := h
  have hcheck (used : ℕ) (hused : used ≤ size) :
      Reads (checkSize type c.position size used) [] () :=
    fun _ _ _ => checkSize_eq_ok.mpr ⟨hused, hread.room, rfl⟩
  have hcovers : Header.fieldsSize ⟨type, size, wide⟩ ≤ size := hread.covers
  have hwide : wide = decide (field = 1) := hread.wide
  have hreads : Reads (do
        let field ← unsigned 4
        let type ← word
        let size ← resolveSize c.remaining field
        checkSize type c.position size (if field = 1 then 16 else 8)
        return ⟨type, size, field = 1⟩)
      (Header.fields ⟨type, size, wide⟩ field) (⟨type, size, wide⟩ : Header) := by
    refine (reads_unsigned hread.field_lt).bind ((reads_word type).bind ?_)
    subst hwide
    by_cases hone : field = 1
    · have h16 : 16 ≤ size := by simpa [Header.fieldsSize, hone] using hcovers
      have hlt : size < 256 ^ 8 := by
        have := hread.room
        dsimp only at this
        omega
      subst hone
      change Reads _ (Bytes.ofNat 8 size) _
      rw [← List.append_nil (Bytes.ofNat 8 size)]
      exact (reads_unsigned hlt).bind ((hcheck 16 h16).bind_nil (reads_pure _))
    · have h8 : 8 ≤ size := by simpa [Header.fieldsSize, hone] using hcovers
      have hsize : size = if field = 0 then c.rest.length else field :=
        hread.narrow (decide_eq_false hone)
      have hresolve : resolveSize c.remaining field = pure size := by
        rw [resolveSize, if_neg hone, hsize]
        split <;> rfl
      rw [hresolve, if_neg hone, decide_eq_false hone, if_neg Bool.false_ne_true]
      exact (reads_pure size).bind_nil ((hcheck 8 h8).bind_nil (reads_pure _))
  rw [header, bind_eq_ok]
  refine ⟨c, c, rfl, ?_⟩
  rw [hreads c c'.rest hread.took.rest, hread.took.eq]

theorem header_eq_ok {h : Header} :
    header c = .ok (h, c') ↔ ∃ field, h.ReadFrom c field c' :=
  ⟨readFrom_of_header, fun ⟨_, hread⟩ => header_of_readFrom hread⟩

/-! ### Declared boxes -/

theorem fullHeader?_eq_ok {full : Bool} {h : Option FullHeader} :
    fullHeader? full c = .ok (h, c') ↔
      h.isSome = full ∧ (∀ x ∈ h, x.Fits) ∧ c.Took (fullFields h) c' := by
  cases full with
  | false =>
      constructor
      · intro hread
        cases hread
        exact ⟨rfl, nofun, .refl c⟩
      · rintro ⟨hnone, -, htook⟩
        obtain rfl : h = none := by simpa using hnone
        rw [htook.eq]
        rfl
  | true =>
      constructor
      · intro hread
        obtain ⟨x, hx, rfl⟩ := map_eq_ok.mp hread
        obtain ⟨w, c₁, hw, hx⟩ := bind_eq_ok.mp hx
        cases hx
        obtain ⟨hfits, hword⟩ := FullHeader.word_split w
        refine ⟨rfl, by simpa using hfits, ?_⟩
        rw [fullFields, hword]
        exact took_word hw
      · rintro ⟨hsome, hfits, htook⟩
        obtain ⟨x, rfl⟩ := Option.isSome_iff_exists.mp hsome
        have hread : Reads fullHeader (fullFields (some x)) x := by
          rw [← List.append_nil (fullFields (some x))]
          refine (reads_word x.word).bind ?_
          rw [FullHeader.split_word (hfits x rfl)]
          exact reads_pure x
        rw [htook.eq]
        exact hread.map some c c'.rest htook.rest

theorem payload_eq_ok {type : FourCC} {n : ℕ} {b : Bytes} :
    payload lenient type n c = .ok (b, c') ↔
      (lenient = false → n ≤ c.rest.length) ∧ b.length = min n c.rest.length ∧ c.Took b c' := by
  change (if c.rest.atLeast n then bytes n
    else if lenient then bytes c.rest.length else throw (BoxFault.pastEnd type)) c = _ ↔ _
  rw [Bytes.atLeast_eq]
  by_cases hn : n ≤ c.rest.length
  · rw [if_pos (decide_eq_true hn), bytes_eq_took, Nat.min_eq_left hn]
    exact ⟨fun h => ⟨fun _ => hn, h⟩, fun h => h.2⟩
  · rw [if_neg (by simpa using hn), Nat.min_eq_right (by omega)]
    cases lenient with
    | false => exact ⟨nofun, fun h => absurd (h.1 rfl) hn⟩
    | true =>
        rw [if_pos rfl, bytes_eq_took]
        exact ⟨fun h => ⟨nofun, h⟩, fun h => h.2⟩

/-- What has to be the case for a box to be read from behind its size and type fields. -/
structure Opens (lenient full : Bool) (base start : ℕ) (h : Header) (c : Cursor) (b : Box)
    (c' : Cursor) : Prop where
  eq : b = ⟨h.type, base + start, h.size, b.full, h.wide, b.payload⟩
  full : b.full.isSome = full
  fits : ∀ x ∈ b.full, x.Fits
  took : c.Took (fullFields b.full ++ b.payload) c'
  length : b.payload.length = min (start + h.size - (c.position + (fullFields b.full).length))
    (c.rest.length - (fullFields b.full).length)
  reaches : lenient = false → start + h.size - (c.position + (fullFields b.full).length) ≤
    c.rest.length - (fullFields b.full).length

theorem readBox_eq_ok {full : Bool} {start : ℕ} {h : Header} {b : Box} :
    readBox lenient base start h full c = .ok (b, c') ↔
      Opens lenient full base start h c b c' := by
  rw [readBox, bind_eq_ok]
  constructor
  · rintro ⟨full', c₁, hfull, hread⟩
    obtain ⟨c₂, c₃, hget, hread⟩ := bind_eq_ok.mp hread
    cases hget
    obtain ⟨data, c₄, hdata, hread⟩ := bind_eq_ok.mp hread
    cases hread
    obtain ⟨hsome, hfits, hfront⟩ := fullHeader?_eq_ok.mp hfull
    obtain ⟨hreaches, hlength, hdata⟩ := payload_eq_ok.mp hdata
    rw [hfront.position, hfront.length_rest] at hreaches hlength
    exact ⟨rfl, hsome, hfits, hfront.trans hdata, hlength, hreaches⟩
  · rintro ⟨heq, hsome, hfits, htook, hlength, hreaches⟩
    obtain ⟨c₁, hfront, hdata⟩ := htook.split
    refine ⟨b.full, c₁, fullHeader?_eq_ok.mpr ⟨hsome, hfits, hfront⟩, ?_⟩
    rw [← hfront.position, ← hfront.length_rest] at hreaches hlength
    rw [bind_eq_ok]
    refine ⟨c₁, c₁, rfl, ?_⟩
    rw [bind_eq_ok]
    refine ⟨b.payload, c', payload_eq_ok.mpr ⟨hreaches, hlength, hdata⟩, ?_⟩
    rw [heq]
    rfl

theorem box_eq_ok {r : Option (Box × Declaration)} :
    box layout lenient base c = .ok (r, c') ↔
      ∃ (h : Header) (field : ℕ) (c₁ : Cursor), h.ReadFrom c field c₁ ∧
        body layout lenient base c.position h c₁ = .ok (r, c') := by
  rw [box, bind_eq_ok]
  constructor
  · rintro ⟨start, c₁, hstart, hread⟩
    cases hstart
    obtain ⟨h, c₂, hheader, hbody⟩ := bind_eq_ok.mp hread
    obtain ⟨field, hfields⟩ := header_eq_ok.mp hheader
    exact ⟨h, field, c₂, hfields, hbody⟩
  · rintro ⟨h, field, c₁, hfields, hbody⟩
    refine ⟨c, c, rfl, ?_⟩
    rw [bind_eq_ok]
    exact ⟨h, c₁, header_eq_ok.mpr ⟨field, hfields⟩, hbody⟩

/-- Behind the size and type fields, a declared box is read on. -/
theorem body_eq_opened {start : ℕ} {h : Header} {b : Box} {d : Declaration} :
    body layout lenient base start h c = .ok (some (b, d), c') ↔
      layout.find? h.type = some d ∧ Opens lenient d.full base start h c b c' := by
  rw [body]
  cases layout.find? h.type with
  | none =>
      constructor
      · intro hbody
        obtain ⟨u, -, hnone⟩ := map_eq_ok.mp hbody
        cases hnone
      · rintro ⟨hsome, -⟩
        cases hsome
  | some d' =>
      constructor
      · intro hbody
        obtain ⟨b', hread, hsome⟩ := map_eq_ok.mp hbody
        cases hsome
        exact ⟨rfl, readBox_eq_ok.mp hread⟩
      · rintro ⟨hsome, hopens⟩
        cases hsome
        exact map_eq_ok.mpr ⟨b, readBox_eq_ok.mpr hopens, rfl⟩

/-- Behind those of any other box, the rest is passed over. -/
theorem body_eq_passed {start : ℕ} {h : Header} :
    body layout lenient base start h c = .ok (none, c') ↔
      layout.find? h.type = none ∧
        c' = if start + h.size - c.position ≤ c.rest.length
          then c.forward (start + h.size - c.position) else c.toEnd := by
  rw [body]
  cases layout.find? h.type with
  | none =>
      change Except.ok (none, if c.rest.atLeast _ then c.forward _ else c.toEnd) = _ ↔ _
      simp only [Bytes.atLeast_eq, decide_eq_true_eq, Except.ok.injEq, Prod.mk.injEq, true_and]
      exact eq_comm
  | some d' =>
      constructor
      · intro hbody
        obtain ⟨b', -, hsome⟩ := map_eq_ok.mp hbody
        cases hsome
      · rintro ⟨hnone, -⟩
        cases hnone

end Walk

/-! ### A declared box as a whole -/

namespace Box

def header (b : Box) : Walk.Header := ⟨b.type, b.size, b.wide⟩

/-- The bytes of a box, given what stands in its first four. -/
def spelled (b : Box) (field : ℕ) : Bytes :=
  b.header.fields field ++ (Walk.fullFields b.full ++ b.payload)

theorem length_fields_add (b : Box) (field : ℕ) : (b.header.fields field).length + (Walk.fullFields b.full).length =
      b.headerSize := by
  rw [Walk.Header.length_fields, Walk.length_fullFields, headerSize, Walk.Header.fieldsSize,
    header]
  dsimp only
  split <;> rfl

theorem length_spelled (b : Box) (field : ℕ) : (b.spelled field).length = b.headerSize + b.payload.length := by
  rw [spelled, List.length_append, List.length_append, ← b.length_fields_add field, Nat.add_assoc]

end Box

namespace Walk

variable {layout : Layout} {lenient : Bool} {base : ℕ} {c c' : Cursor} {b : Box} {d : Declaration}

/-- What has to be the case for a box to be read from `c` up to `c'`. -/
structure Spelled (lenient : Bool) (base : ℕ) (c : Cursor) (b : Box) (field : ℕ) (c' : Cursor) :
    Prop where
  start : b.start = base + c.position
  took : c.Took (b.spelled field) c'
  header : b.header.ReadFrom c field (c.forward (b.header.fields field).length)
  fits : ∀ h ∈ b.full, h.Fits
  length : b.payload.length = min b.size c.rest.length - b.headerSize
  reaches : lenient = false → b.size ≤ c.rest.length

/-- A walk opens a box just if its type is declared and it is spelled where the walk stands. -/
theorem box_eq_opened : box layout lenient base c = .ok (some (b, d), c') ↔
    layout.find? b.type = some d ∧ d.full = b.full.isSome ∧
      ∃ field, Spelled lenient base c b field c' := by
  rw [box_eq_ok]
  constructor
  · rintro ⟨h, field, c₁, hread, hbody⟩
    obtain ⟨hfind, hopens⟩ := body_eq_opened.mp hbody
    have hheader : b.header = h := by rw [hopens.eq, Box.header]
    subst hheader
    have hsize := b.length_fields_add field
    have htook := hread.took.trans hopens.took
    have hlead := hread
    rw [hread.took.eq] at hlead
    have hwithin := congrArg List.length htook.rest
    have hlength := hopens.length
    rw [hread.took.position, hread.took.length_rest] at hlength
    simp only [List.length_append] at hwithin
    refine ⟨hfind, hopens.full.symm, field, ?_, htook, hlead, hopens.fits, ?_, fun hstrict => ?_⟩
    · rw [hopens.eq]
    · rw [hlength]
      change min (c.position + b.size - _) _ = _
      omega
    · have hreaches := hopens.reaches hstrict
      rw [hread.took.position, hread.took.length_rest] at hreaches
      change c.position + b.size - _ ≤ _ at hreaches
      omega
  · rintro ⟨hfind, hfull, field, hs⟩
    obtain ⟨c₁, hfront, hback⟩ := hs.took.split
    have hsize := b.length_fields_add field
    have hlength := hs.length
    have hlead := hs.header
    rw [← hfront.eq] at hlead
    refine ⟨b.header, field, c₁, hlead, ?_⟩
    refine body_eq_opened.mpr ⟨hfind, ?_, hfull.symm, hs.fits, hback, ?_, fun hstrict => ?_⟩
    · rw [← hs.start]
      rfl
    · rw [hfront.position, hfront.length_rest]
      change _ = min (c.position + b.size - _) _
      omega
    · have hreaches := hs.reaches hstrict
      rw [hfront.position, hfront.length_rest]
      change c.position + b.size - _ ≤ _
      omega

/-- Any other box is passed over, up to the end of the data at most. -/
theorem box_eq_passed : box layout lenient base c = .ok (none, c') ↔
    ∃ (h : Header) (field : ℕ) (c₁ : Cursor), h.ReadFrom c field c₁ ∧
      layout.find? h.type = none ∧
        c' = if h.size ≤ c.rest.length then c.forward h.size else c.toEnd := by
  have hnext {h : Header} {field : ℕ} {c₁ : Cursor} (hread : h.ReadFrom c field c₁) :
      (if c.position + h.size - c₁.position ≤ c₁.rest.length
        then c₁.forward (c.position + h.size - c₁.position) else c₁.toEnd) =
      if h.size ≤ c.rest.length then c.forward h.size else c.toEnd := by
    have hcovers := hread.covers
    rw [← h.length_fields field] at hcovers
    have hroom := congrArg List.length hread.took.rest
    rw [List.length_append] at hroom
    rw [hread.took.position, hread.took.length_rest]
    by_cases hsize : h.size ≤ c.rest.length
    · rw [if_pos (by omega), if_pos hsize, hread.took.eq, Cursor.forward_forward]
      congr 1
      omega
    · rw [if_neg (by omega), if_neg hsize, hread.took.eq]
      rfl
  rw [box_eq_ok]
  constructor
  · rintro ⟨h, field, c₁, hread, hbody⟩
    obtain ⟨hfind, hc'⟩ := body_eq_passed.mp hbody
    exact ⟨h, field, c₁, hread, hfind, hc'.trans (hnext hread)⟩
  · rintro ⟨h, field, c₁, hread, hfind, hc'⟩
    exact ⟨h, field, c₁, hread, body_eq_passed.mpr ⟨hfind, hc'.trans (hnext hread).symm⟩⟩

end Walk

end ProtectedMedia
