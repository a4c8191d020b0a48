import ProtectedMedia.Proofs.Box.Cut
import ProtectedMedia.Proofs.Box.Tables
import ProtectedMedia.Proofs.Track.Found

/-!
# The encryption of a track from a prefix

An init segment may end early. As long as the boxes that count are there, the same encryption is
found, unless the cut falls into bytes that have to be read in one go. These are the front of a box
and the fields of later schemes and defaults, which are read although they do not count.
-/
namespace ProtectedMedia

open Reader Walk

namespace Box

variable {b b' : Box} {n : ℕ} {α : Type}

/-! ### Fields in front of the cut -/

theorem confined_when {present : Bool} {r : Reader BoxFault α} {c c' : Cursor} {a : Option α}
    (hr : ∀ {a}, r c = .ok (a, c') → Confined r c a c')
    (h : when present r c = .ok (a, c')) : Confined (when present r) c a c' := by
  cases present with
  | false =>
      cases h
      exact confined_pure none c
  | true =>
      obtain ⟨x, hx, rfl⟩ := map_eq_ok.mp h
      exact (hr hx).map some

theorem confined_readSchemeType {c c' : Cursor} {s : SchemeType}
    (h : readSchemeType c = .ok (s, c')) : Confined readSchemeType c s c' := by
  obtain ⟨scheme, c₁, hscheme, h⟩ := bind_eq_ok.mp h
  obtain ⟨version, c₂, hversion, h⟩ := bind_eq_ok.mp h
  cases h
  exact (confined_word hscheme).bind ((confined_word hversion).bind (confined_pure _ _))

theorem confined_readBlock {c c' : Cursor} {x : Block} (h : readBlock c = .ok (x, c')) :
    Confined readBlock c x c' := by
  obtain ⟨data, c₁, hdata, h⟩ := bind_eq_ok.mp h
  refine (confined_bytes hdata).bind ?_
  cases hblock : Block.ofBytes? data with
  | none =>
      rw [hblock] at h
      cases h
  | some y =>
      rw [hblock] at h
      cases h
      exact confined_pure _ _

theorem confined_readEncryptionDefaults {x : Bytes} {c' : Cursor} {d : EncryptionDefaults}
    (h : b.readEncryptionDefaults (.ofBytes x) = .ok (d, c')) :
    Confined b.readEncryptionDefaults (.ofBytes x) d c' := by
  obtain ⟨u, c₁, hreserved, h⟩ := bind_eq_ok.mp h
  obtain ⟨halves, c₂, hhalves, h⟩ := bind_eq_ok.mp h
  obtain ⟨flag, c₃, hflag, h⟩ := bind_eq_ok.mp h
  obtain ⟨ivSize, c₄, hivSize, h⟩ := bind_eq_ok.mp h
  obtain ⟨keyId, c₅, hkeyId, h⟩ := bind_eq_ok.mp h
  obtain ⟨constantIv, c₆, hconstantIv, h⟩ := bind_eq_ok.mp h
  cases h
  have hrange : (Cursor.ofBytes x).position + 1 < 2 ^ 64 := by
    change 0 + 1 < _
    decide
  refine (confined_skip hrange hreserved).bind ?_
  refine (confined_byte hhalves).bind ?_
  refine (confined_byte hflag).bind ?_
  refine (confined_byte hivSize).bind ?_
  refine (confined_readBlock hkeyId).bind ?_
  refine Confined.bind (confined_when (fun {iv} hiv => ?_) hconstantIv) (confined_pure _ _)
  obtain ⟨size, c₇, hsize, hiv⟩ := bind_eq_ok.mp hiv
  exact (confined_byte hsize).bind (confined_bytes hiv)

/-! ### A box that is cut -/

theorem CutAt.type_eq (hb : b.CutAt n b') : b'.type = b.type := by
  obtain ⟨size, rfl⟩ := hb
  rfl

theorem CutAt.readEncryptionDefaults_eq (hb : b.CutAt n b') :
    b'.readEncryptionDefaults = b.readEncryptionDefaults := by
  obtain ⟨size, rfl⟩ := hb
  rfl

section Reads

variable {r : Reader BoxFault α} {a : α} {type : FourCC}
  (hr : ∀ {a c}, r (.ofBytes b.payload) = .ok (a, c) → Confined r (.ofBytes b.payload) a c)
  (hb : b.CutAt n b')
include hr hb

/-- A box that is cut behind what is read of it says the same. -/
theorem read?_cut (h : b.read? type r = some a)
    (hn : b.start + b.headerSize + reach r b.payload ≤ n) : b'.read? type r = some a := by
  obtain ⟨htype, hparse⟩ := read?_eq_some.mp h
  obtain ⟨c, hread⟩ := parse_eq_ok.mp hparse
  rw [reach_eq hread] at hn
  refine read?_eq_some.mpr ⟨hb.type_eq.trans htype, parse_eq_ok.mpr ?_⟩
  obtain ⟨size, rfl⟩ := hb
  rw [shortened, ← Cursor.cut_ofBytes]
  exact ⟨_, (hr hread).kept _ (by omega)⟩

/-- A box that can still be read is cut behind what is read of it. A reader that needs something
finds nothing behind a header that is cut itself. -/
theorem reach_le_of_read? (hempty : ∃ e, r (.ofBytes []) = .error e)
    (h : b.read? type r = some a) (h' : (b'.read? type r).isSome) :
    b.start + b.headerSize + reach r b.payload ≤ n := by
  obtain ⟨c, hread⟩ := parse_eq_ok.mp (read?_eq_some.mp h).2
  obtain ⟨a', ha'⟩ := Option.isSome_iff_exists.mp h'
  obtain ⟨c', hread'⟩ := parse_eq_ok.mp (read?_eq_some.mp ha').2
  obtain ⟨size, rfl⟩ := hb
  rw [shortened, ← Cursor.cut_ofBytes] at hread'
  rw [reach_eq hread]
  by_contra hlost
  have hfailed : ∃ e, r ((Cursor.ofBytes b.payload).cut (n - (b.start + b.headerSize))) =
      .error e := by
    by_cases hheader : b.start + b.headerSize ≤ n
    · exact (hr hread).lost _ (Nat.zero_le _) (by omega)
    · rw [Cursor.cut_ofBytes, Nat.sub_eq_zero_of_le (by omega), List.take_zero]
      exact hempty
  obtain ⟨e, he⟩ := hfailed
  rw [he] at hread'
  cases hread'

end Reads

/-- The bytes of a box up to the last one that is read of it, if something is read of it. -/
def noted (b : Box) : Option Extent :=
  if b.type = .schm then
    some ⟨b.start, b.start + b.headerSize + reach readSchemeType b.payload⟩
  else if b.type = .tenc then
    some ⟨b.start, b.start + b.headerSize + reach b.readEncryptionDefaults b.payload⟩
  else none

theorem noted_scheme (h : b.type = .schm) :
    b.noted = some ⟨b.start, b.start + b.headerSize + reach readSchemeType b.payload⟩ := if_pos h

theorem noted_defaults (h : b.type = .tenc) :
    b.noted = some ⟨b.start, b.start + b.headerSize + reach b.readEncryptionDefaults b.payload⟩ := by
  have hschm : b.type ≠ .schm := h ▸ by decide
  rw [noted, if_neg hschm, if_pos h]

theorem noted_cases {e : Extent} (h : b.noted = some e) :
    e.first = b.start ∧ (b.type = .schm ∨ b.type = .tenc) := by
  rw [noted] at h
  split at h
  · cases h
    exact ⟨rfl, .inl ‹_›⟩
  · split at h
    · cases h
      exact ⟨rfl, .inr ‹_›⟩
    · cases h

theorem Readable.cut (h : b.Readable) (hb : b.CutAt n b') (hn : ∀ e ∈ b.noted, e.stop ≤ n) :
    b'.Readable ∧ b'.scheme? = b.scheme? ∧ b'.defaults? = b.defaults? := by
  have htype := hb.type_eq
  have hscheme : b'.scheme? = b.scheme? := by
    by_cases hschm : b.type = .schm
    · obtain ⟨scheme, hscheme⟩ := Option.isSome_iff_exists.mp (h.scheme hschm)
      obtain ⟨named, hnamed, -⟩ := Option.map_eq_some_iff.mp hscheme
      have hcut := read?_cut confined_readSchemeType hb hnamed (hn _ (noted_scheme hschm))
      rw [scheme?, scheme?, hnamed, hcut]
    · rw [scheme?_of_ne hschm, scheme?_of_ne (htype ▸ hschm)]
  have hdefaults : b'.defaults? = b.defaults? := by
    by_cases htenc : b.type = .tenc
    · obtain ⟨d, hd⟩ := Option.isSome_iff_exists.mp (h.defaults htenc)
      have hcut := read?_cut confined_readEncryptionDefaults hb hd (hn _ (noted_defaults htenc))
      rw [hd, ← hcut, defaults?, hb.readEncryptionDefaults_eq]
    · rw [defaults?_of_ne htenc, defaults?_of_ne (htype ▸ htenc)]
  refine ⟨⟨fun hschm => ?_, fun htenc => ?_⟩, hscheme, hdefaults⟩
  · rw [hscheme]
    exact h.scheme (htype.symm.trans hschm)
  · rw [hdefaults]
    exact h.defaults (htype.symm.trans htenc)

theorem Readable.stop_le (h : b.Readable) (h' : b'.Readable) (hb : b.CutAt n b') :
    ∀ e ∈ b.noted, e.stop ≤ n := by
  have htype := hb.type_eq
  intro e he
  rcases (noted_cases he).2 with hschm | htenc
  · obtain ⟨scheme, hscheme⟩ := Option.isSome_iff_exists.mp (h.scheme hschm)
    obtain ⟨named, hnamed, -⟩ := Option.map_eq_some_iff.mp hscheme
    have hcut := h'.scheme (htype.trans hschm)
    rw [scheme?, Option.isSome_map] at hcut
    cases (noted_scheme hschm).symm.trans he
    exact reach_le_of_read? confined_readSchemeType hb ⟨_, rfl⟩ hnamed hcut
  · obtain ⟨d, hd⟩ := Option.isSome_iff_exists.mp (h.defaults htenc)
    have hcut := h'.defaults (htype.trans htenc)
    rw [defaults?, hb.readEncryptionDefaults_eq] at hcut
    cases (noted_defaults htenc).symm.trans he
    exact reach_le_of_read? confined_readEncryptionDefaults hb ⟨_, rfl⟩ hd hcut

/-- Boxes that are cut behind what is read of them say the same one after another. -/
theorem found_cut {bs bs' : List Box} (h : List.Forall₂ (CutAt n) bs bs')
    (hread : ∀ b ∈ bs, b.Readable) (hn : ∀ b ∈ bs, ∀ e ∈ b.noted, e.stop ≤ n) :
    (∀ b ∈ bs', b.Readable) ∧ bs'.findSome? scheme? = bs.findSome? scheme? ∧
      bs'.findSome? defaults? = bs.findSome? defaults? := by
  induction h with
  | nil => exact ⟨nofun, rfl, rfl⟩
  | cons hb _ ih =>
      rw [List.forall_mem_cons] at hread hn
      obtain ⟨hread', hscheme, hdefaults⟩ := hread.1.cut hb hn.1
      obtain ⟨ihread, ihscheme, ihdefaults⟩ := ih hread.2 hn.2
      rw [List.forall_mem_cons, List.findSome?_cons, List.findSome?_cons, List.findSome?_cons,
        List.findSome?_cons, hscheme, hdefaults, ihscheme, ihdefaults]
      exact ⟨⟨hread', ihread⟩, rfl, rfl⟩

theorem stop_le_of_readable {bs bs' : List Box} (h : List.Forall₂ (CutAt n) bs bs')
    (hread : ∀ b ∈ bs, b.Readable) (hread' : ∀ b ∈ bs', b.Readable) :
    ∀ b ∈ bs, ∀ e ∈ b.noted, e.stop ≤ n := by
  induction h with
  | nil => exact nofun
  | cons hb _ ih =>
      rw [List.forall_mem_cons] at hread hread' ⊢
      exact ⟨hread.1.stop_le hread'.1 hb, ih hread.2 hread'.2⟩

/-- A cut spares what is read of boxes just if it comes behind that for each box in front of it. -/
theorem sparedBy_noted_iff {bs : List Box} :
    (∀ e ∈ bs.filterMap noted, e.SparedBy n) ↔
      ∀ b ∈ bs.filter (·.start < n), ∀ e ∈ b.noted, e.stop ≤ n := by
  constructor
  · intro h b hb e he
    obtain ⟨hmem, hlt⟩ := List.mem_filter.mp hb
    have hstart : e.first < n := (noted_cases he).1 ▸ of_decide_eq_true hlt
    exact (h e (List.mem_filterMap.mpr ⟨b, hmem, he⟩)).resolve_left (Nat.not_le_of_lt hstart)
  · intro h e he
    obtain ⟨b, hmem, hnoted⟩ := List.mem_filterMap.mp he
    by_cases hstart : b.start < n
    · exact .inr (h b (List.mem_filter.mpr ⟨hmem, decide_eq_true hstart⟩) e hnoted)
    · rw [← (noted_cases hnoted).1] at hstart
      exact .inl (Nat.le_of_not_lt hstart)

end Box

namespace TrackEncryption

variable {data : Bytes} {t : TrackEncryption} {n : ℕ}

/-- What has to be read in one go: the fronts of all boxes, and what is read of the boxes that name a
scheme or hold defaults. -/
def stretches (data : Bytes) : List Extent :=
  fronts layout 0 none (.ofBytes data) ++ (trace layout true data).boxes.filterMap Box.noted

/-- The first `n` bytes hold the whole of the boxes that count. -/
structure Holds (n : ℕ) (data : Bytes) : Prop where
  scheme : ∀ o ∈ firstOf .schm data, Within n o.box
  defaults : ∀ o ∈ firstOf .tenc data, Within n o.box

theorem start_lt_of_within {b : Box} (h : Within n b) : b.start < n := by
  rw [Within, Box.headerSize] at h
  omega

theorem ofInit_take (h : ofInit data = .ok (some t)) (hholds : Holds n data) :
    ofInit (data.take n) = .ok (some t) ↔ ∀ e ∈ stretches data, e.SparedBy n := by
  obtain ⟨hfault, hread, hfound⟩ := ofInit_eq_ok.mp h
  obtain ⟨hcut, hboxes⟩ := trace_cut hfault n
  have hreadBefore : ∀ b ∈ (trace layout true data).boxes.filter (·.start < n), b.Readable :=
    fun b hb => hread b (List.mem_filter.mp hb).1
  rw [stretches, List.forall_mem_append, Box.sparedBy_noted_iff, ofInit_eq_ok]
  constructor
  · rintro ⟨hfault', hread', -⟩
    exact ⟨hcut.mp hfault', Box.stop_le_of_readable (hboxes hfault') hreadBefore hread'⟩
  · rintro ⟨hfronts, hnoted⟩
    have hfault' := hcut.mpr hfronts
    obtain ⟨hread', hscheme, hdefaults⟩ := Box.found_cut (hboxes hfault') hreadBefore hnoted
    refine ⟨hfault', hread', ?_⟩
    -- the searches stop at the boxes that count, and these lie in front of the cut
    have htenc := fun b hb => (hread b hb).defaults
    have hschm := fun b hb => (hread b hb).scheme
    have hdefaultsBefore := fun o ho => decide_eq_true (start_lt_of_within (hholds.defaults o ho))
    have hschemeBefore := fun o ho => decide_eq_true (start_lt_of_within (hholds.scheme o ho))
    rw [hscheme, hdefaults,
      findSome?_filter htenc (fun _ => Box.defaults?_of_ne) _ hdefaultsBefore,
      findSome?_filter hschm (fun _ => Box.scheme?_of_ne) _ hschemeBefore,
      ← findSome?_boxes htenc fun _ => Box.defaults?_of_ne,
      ← findSome?_boxes hschm fun _ => Box.scheme?_of_ne]
    exact hfound

/-- A prefix that holds the boxes that count gives the same encryption just if it ends in no stretch
that has to be read in one go. -/
theorem ofInit_cut {p : Bytes} (h : ofInit data = .ok (some t)) (hp : p <+: data)
    (hholds : Holds p.length data) :
    ofInit p = .ok (some t) ↔ ∀ e ∈ stretches data, e.SparedBy p.length := by
  have htake := ofInit_take h hholds
  rwa [← List.prefix_iff_eq_take.mp hp] at htake

/-- A track whose sample entry ends with a box that is not declared. -/
def paddedTrack : Bytes :=
  plainBox .moov
    (trackOf (videoEntry (schemeBox Scheme.cens.code ++ (defaultsBox 1 ++ plainBox padding [0, 0]))))

/-- The cut may fall into the payload of the last box, and with it into all boxes around it. -/
theorem padded_track_found :
    (ofInit paddedTrack =
        .ok (some ⟨⟨.none, true, 8, Vector.replicate 16 1, none⟩, Scheme.cens.code⟩) ∧
      paddedTrack.take (paddedTrack.length - 1) <+: paddedTrack ∧
      Holds (paddedTrack.take (paddedTrack.length - 1)).length paddedTrack) ∧
      ofInit (paddedTrack.take (paddedTrack.length - 1)) =
        .ok (some ⟨⟨.none, true, 8, Vector.replicate 16 1, none⟩, Scheme.cens.code⟩) := by
  have hinit : ofInit paddedTrack =
      .ok (some ⟨⟨.none, true, 8, Vector.replicate 16 1, none⟩, Scheme.cens.code⟩) := by
    decide +kernel
  have hprefix := List.take_prefix (paddedTrack.length - 1) paddedTrack
  have hholds : Holds (paddedTrack.take (paddedTrack.length - 1)).length paddedTrack :=
    ⟨by decide +kernel, by decide +kernel⟩
  refine ⟨⟨hinit, hprefix, hholds⟩, (ofInit_cut hinit hprefix hholds).mpr ?_⟩
  decide +kernel

/-- A cut into the header of that box makes the walk fail, though the boxes that count are there. -/
theorem padded_track_refused :
    ofInit paddedTrack =
        .ok (some ⟨⟨.none, true, 8, Vector.replicate 16 1, none⟩, Scheme.cens.code⟩) ∧
      paddedTrack.take (paddedTrack.length - 6) <+: paddedTrack ∧
      Holds (paddedTrack.take (paddedTrack.length - 6)).length paddedTrack ∧
      ofInit (paddedTrack.take (paddedTrack.length - 6)) = .error (.box (.field .cutOff)) :=
  ⟨by decide +kernel, List.take_prefix _ _, ⟨by decide +kernel, by decide +kernel⟩,
    by decide +kernel⟩

end TrackEncryption

end ProtectedMedia
