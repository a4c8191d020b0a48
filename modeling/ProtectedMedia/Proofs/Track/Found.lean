import ProtectedMedia.Proofs.Box.Forest
import ProtectedMedia.Proofs.Box.Nesting
import ProtectedMedia.Track

/-!
# What is found on the way to the encryption of a track

A walk through an init segment takes the defaults from the first box that holds some and the scheme
from the first box that names one. The two are found independently of each other: nothing makes
sure that they lie in the same sample entry.
-/
namespace ProtectedMedia

namespace Box

variable {b : Box} {α : Type} {type : FourCC} {r : Reader BoxFault α} {a : α}

/-- What is read of a box if it has the type. -/
def read? (b : Box) (type : FourCC) (r : Reader BoxFault α) : Option α :=
  if b.type = type then (b.parse r).toOption else none

theorem read?_of_ne (h : b.type ≠ type) : b.read? type r = none := if_neg h

theorem read?_eq_some : b.read? type r = some a ↔ b.type = type ∧ b.parse r = .ok a := by
  rw [read?]
  by_cases htype : b.type = type
  · rw [if_pos htype, and_iff_right htype]
    cases b.parse r with
    | error e => exact ⟨nofun, nofun⟩
    | ok x => exact ⟨fun h => by cases h; rfl, fun h => by cases h; rfl⟩
  · rw [if_neg htype]
    exact ⟨nofun, fun h => absurd h.1 htype⟩

/-- The scheme that a box names. -/
def scheme? (b : Box) : Option FourCC := (b.read? .schm readSchemeType).map (·.scheme)

/-- The defaults that a box holds. -/
def defaults? (b : Box) : Option EncryptionDefaults := b.read? .tenc b.readEncryptionDefaults

theorem scheme?_of_ne (h : b.type ≠ .schm) : b.scheme? = none := by
  rw [scheme?, read?_of_ne h, Option.map_none]

theorem defaults?_of_ne (h : b.type ≠ .tenc) : b.defaults? = none := read?_of_ne h

/-- A box that should name a scheme or hold defaults does so. -/
structure Readable (b : Box) : Prop where
  scheme : b.type = .schm → b.scheme?.isSome
  defaults : b.type = .tenc → b.defaults?.isSome

end Box

namespace Trace

theorem run_eq_ok {τ : Type} {handler : τ → Event → Except Error τ} {t : Trace} {start s : τ} :
    t.run handler start = .ok s ↔ t.events.foldlM handler start = .ok s ∧ t.fault = none := by
  rw [run]
  cases t.events.foldlM handler start with
  | error e => exact ⟨nofun, nofun⟩
  | ok last =>
      cases t.fault with
      | some fault => exact ⟨nofun, nofun⟩
      | none => exact ⟨fun h => ⟨h, rfl⟩, fun h => h.1⟩

end Trace

namespace TrackEncryption

open Event Walk

variable {found found' : Found} {b : Box} {data : Bytes}

/-- What is known behind a box. -/
def Found.behind (found : Found) (b : Box) : Found :=
  ⟨found.scheme <|> b.scheme?, found.defaults <|> b.defaults?⟩

theorem note_scheme (htype : b.type = .schm) :
    note found (.opened b) = .ok found' ↔ b.scheme?.isSome ∧ found' = found.behind b := by
  have htenc : b.type ≠ .tenc := htype ▸ by decide
  obtain ⟨scheme, defaults⟩ := found
  rw [note, if_pos htype, Found.behind, Box.defaults?_of_ne htenc, Box.scheme?, Box.read?,
    if_pos htype]
  cases b.parse Box.readSchemeType with
  | error e => exact ⟨nofun, nofun⟩
  | ok read =>
      cases defaults <;> exact ⟨fun h => by cases h; exact ⟨rfl, rfl⟩, fun h => by rw [h.2]; rfl⟩

theorem note_defaults (htype : b.type = .tenc) :
    note found (.opened b) = .ok found' ↔ b.defaults?.isSome ∧ found' = found.behind b := by
  have hschm : b.type ≠ .schm := htype ▸ by decide
  obtain ⟨scheme, defaults⟩ := found
  rw [note, if_neg hschm, if_pos htype, Found.behind, Box.scheme?_of_ne hschm, Box.defaults?,
    Box.read?, if_pos htype]
  cases b.parse b.readEncryptionDefaults with
  | error e => exact ⟨nofun, nofun⟩
  | ok read =>
      cases scheme <;> exact ⟨fun h => by cases h; exact ⟨rfl, rfl⟩, fun h => by rw [h.2]; rfl⟩

/-- An opened box is taken note of just when it is readable, each kind of box for its own part. -/
theorem note_opened :
    note found (.opened b) = .ok found' ↔ b.Readable ∧ found' = found.behind b := by
  by_cases hschm : b.type = .schm
  · have htenc : b.type ≠ .tenc := hschm ▸ by decide
    rw [note_scheme hschm]
    exact and_congr_left fun _ => ⟨fun h => ⟨fun _ => h, fun h => (htenc h).elim⟩,
      fun h => h.scheme hschm⟩
  by_cases htenc : b.type = .tenc
  · rw [note_defaults htenc]
    exact and_congr_left fun _ => ⟨fun h => ⟨fun h => (hschm h).elim, fun _ => h⟩,
      fun h => h.defaults htenc⟩
  · have hsame : found.behind b = found := by
      rw [Found.behind, Box.scheme?_of_ne hschm, Box.defaults?_of_ne htenc]
      obtain ⟨scheme, defaults⟩ := found
      cases scheme <;> cases defaults <;> rfl
    rw [note, if_neg hschm, if_neg htenc, hsame]
    exact ⟨fun h => by cases h; exact ⟨⟨(hschm · |>.elim), (htenc · |>.elim)⟩, rfl⟩,
      fun h => by rw [h.2]; rfl⟩

theorem foldlM_note {events : List Event} (fault : Option BoxFault) :
    events.foldlM note found = .ok found' ↔
      (∀ b ∈ (Trace.mk events fault).boxes, b.Readable) ∧
        found' = (Trace.mk events fault).boxes.foldl Found.behind found := by
  induction events generalizing found with
  | nil => exact ⟨fun h => by cases h; exact ⟨nofun, rfl⟩, fun h => by rw [h.2]; rfl⟩
  | cons e events ih =>
      cases e with
      | closed b => exact ih
      | opened b =>
          change note found (.opened b) >>= (events.foldlM note ·) = _ ↔
            (∀ a ∈ b :: (Trace.mk events fault).boxes, a.Readable) ∧
              found' = (Trace.mk events fault).boxes.foldl Found.behind (found.behind b)
          rw [List.forall_mem_cons, and_assoc, ← ih]
          constructor
          · intro h
            cases hb : note found (.opened b) with
            | error e =>
                rw [hb] at h
                cases h
            | ok next =>
                rw [hb] at h
                obtain ⟨hread, rfl⟩ := note_opened.mp hb
                exact ⟨hread, h⟩
          · rintro ⟨hread, h⟩
            rw [note_opened.mpr ⟨hread, rfl⟩]
            exact h

/-- Of each kind, what is known first stays. -/
theorem foldl_behind (bs : List Box) :
    bs.foldl Found.behind found = ⟨found.scheme <|> bs.findSome? Box.scheme?,
      found.defaults <|> bs.findSome? Box.defaults?⟩ := by
  induction bs generalizing found with
  | nil =>
      obtain ⟨scheme, defaults⟩ := found
      cases scheme <;> cases defaults <;> rfl
  | cons b bs ih =>
      rw [List.foldl_cons, ih, Found.behind, List.findSome?_cons, List.findSome?_cons]
      obtain ⟨scheme, defaults⟩ := found
      cases scheme <;> cases defaults <;> cases b.scheme? <;> cases b.defaults? <;> rfl

/-- A walk finds the encryption of a track just when it ends well and every box on the way can be
read. -/
theorem ofInit_eq_ok {r : Option TrackEncryption} :
    ofInit data = .ok r ↔
      (trace layout true data).fault = none ∧
        (∀ b ∈ (trace layout true data).boxes, b.Readable) ∧
        r = ((trace layout true data).boxes.findSome? Box.defaults?).map fun d =>
          ⟨d, ((trace layout true data).boxes.findSome? Box.scheme?).getD Scheme.cenc.code⟩ := by
  rw [ofInit]
  constructor
  · intro h
    cases hrun : (trace layout true data).run note ⟨none, none⟩ with
    | error e =>
        rw [hrun] at h
        cases h
    | ok found =>
        rw [hrun] at h
        obtain ⟨hfold, hfault⟩ := Trace.run_eq_ok.mp hrun
        obtain ⟨hread, rfl⟩ := (foldlM_note (trace layout true data).fault).mp hfold
        rw [foldl_behind] at h
        cases h
        exact ⟨hfault, hread, rfl⟩
  · rintro ⟨hfault, hread, rfl⟩
    have hrun : (trace layout true data).run note ⟨none, none⟩ = _ :=
      Trace.run_eq_ok.mpr ⟨(foldlM_note (trace layout true data).fault).mpr ⟨hread, rfl⟩, hfault⟩
    rw [hrun, foldl_behind]
    rfl

/-! ### The boxes that count -/

/-- The boxes that are met in an init segment, in the order of the data. -/
def met (data : Bytes) : List Opening := openings [] (trace layout true data).events

def firstOf (type : FourCC) (data : Bytes) : Option Opening :=
  (met data).find? fun o => o.box.type = type

theorem mem_boxes_of_firstOf {type : FourCC} {o : Opening} (h : firstOf type data = some o) :
    o.box ∈ (trace layout true data).boxes ∧ o.box.type = type := by
  refine ⟨?_, by simpa using List.find?_some h⟩
  rw [← map_box_openings [] (trace layout true data).events]
  exact List.mem_map_of_mem (List.mem_of_find?_eq_some h)

section Searches

variable {α : Type} {type : FourCC} {read : Box → Option α}
  (hread : ∀ b ∈ (trace layout true data).boxes, b.type = type → (read b).isSome)
  (hother : ∀ b : Box, b.type ≠ type → read b = none)
include hread hother

/-- A search that is successful at every box of one type, and at no other, ends at the first of
them. Boxes behind it do not matter. -/
theorem findSome?_filter (keep : Box → Bool) (hkeep : ∀ o ∈ firstOf type data, keep o.box) :
    ((trace layout true data).boxes.filter keep).findSome? read =
      (firstOf type data).bind fun o => read o.box := by
  rw [← map_box_openings [] (trace layout true data).events] at hread ⊢
  rw [firstOf, met] at hkeep ⊢
  generalize openings [] (trace layout true data).events = os at hread hkeep ⊢
  induction os with
  | nil => rfl
  | cons o os ih =>
      rw [List.map_cons, List.forall_mem_cons] at hread
      rw [List.find?_cons] at hkeep ⊢
      rw [List.map_cons, List.filter_cons]
      by_cases htype : o.box.type = type
      · rw [decide_eq_true htype] at hkeep ⊢
        obtain ⟨x, hx⟩ := Option.isSome_iff_exists.mp (hread.1 htype)
        rw [if_pos (hkeep o rfl), List.findSome?_cons, Option.bind_some, hx]
      · rw [decide_eq_false htype] at hkeep ⊢
        rw [← ih hread.2 hkeep]
        split
        · rw [List.findSome?_cons, hother o.box htype]
        · rfl

theorem findSome?_boxes : (trace layout true data).boxes.findSome? read =
    (firstOf type data).bind fun o => read o.box := by
  have hall := findSome?_filter hread hother (fun _ => true) fun _ _ => rfl
  rwa [List.filter_eq_self.mpr fun _ _ => rfl] at hall

end Searches

end TrackEncryption

/-- The innermost sinf that a box lies in. -/
def Opening.sinf? (o : Opening) : Option Box := o.around.find? fun b => b.type = .sinf

/-- Two boxes lie in the same sinf. -/
def Opening.Beside (o o' : Opening) : Prop := o.sinf?.isSome ∧ o.sinf? = o'.sinf?

instance Opening.decidableBeside (o o' : Opening) : Decidable (o.Beside o') :=
  inferInstanceAs (Decidable (_ ∧ _))

namespace TrackEncryption

open Event Walk

variable {data : Bytes}

/-- The first box beside another one that names a scheme. -/
def schemeBeside (o : Opening) (data : Bytes) : Option Opening :=
  (met data).find? fun s => s.box.type = .schm ∧ s.Beside o

/-- What a box says about the scheme. Where there is no such box, the scheme is `cenc`. -/
def Says : Option Opening → FourCC → Prop
  | none, scheme => scheme = Scheme.cenc.code
  | some s, scheme => ∃ version, s.box.parse Box.readSchemeType = .ok ⟨scheme, version⟩

theorem schemeBeside_of_first {o : Opening} (h : ∀ s ∈ firstOf .schm data, s.Beside o) :
    schemeBeside o data = firstOf .schm data := by
  rw [schemeBeside]
  cases hfirst : firstOf .schm data with
  | none =>
      rw [firstOf, List.find?_eq_none] at hfirst
      rw [List.find?_eq_none]
      intro s hs hboth
      exact hfirst s hs (decide_eq_true (of_decide_eq_true hboth).1)
  | some s =>
      obtain ⟨htype, before, after, hmet, hbefore⟩ := List.find?_eq_some_iff_append.mp hfirst
      rw [List.find?_eq_some_iff_append]
      refine ⟨?_, before, after, hmet, fun a ha => ?_⟩
      · simpa using ⟨of_decide_eq_true htype, h s hfirst⟩
      · have hother : a.box.type ≠ .schm := by simpa using hbefore a ha
        simp [hother]

/-- The defaults of a track are those of the first box that holds some, and its scheme is that of
the first box that names one. Both come from one sample entry if that box lies beside the other or
there is none. -/
theorem encryption_found {t : TrackEncryption} (h : ofInit data = .ok (some t)) :
    ∃ o ∈ firstOf .tenc data,
      o.box.parse o.box.readEncryptionDefaults = .ok t.toEncryptionDefaults ∧
        Says (firstOf .schm data) t.scheme ∧
        ((∀ s ∈ firstOf .schm data, s.Beside o) → Says (schemeBeside o data) t.scheme) := by
  obtain ⟨-, hread, hfound⟩ := ofInit_eq_ok.mp h
  rw [findSome?_boxes (fun b hb => (hread b hb).defaults) fun _ => Box.defaults?_of_ne,
    findSome?_boxes (fun b hb => (hread b hb).scheme) fun _ => Box.scheme?_of_ne] at hfound
  obtain ⟨d, hdefaults, ht⟩ := Option.map_eq_some_iff.mp hfound.symm
  obtain ⟨o, ho, hd⟩ := Option.bind_eq_some_iff.mp hdefaults
  have hsays : Says (firstOf .schm data) t.scheme := by
    rw [← ht]
    cases hfirst : firstOf .schm data with
    | none => rfl
    | some s =>
        obtain ⟨hs, htype⟩ := mem_boxes_of_firstOf hfirst
        obtain ⟨scheme, hscheme⟩ := Option.isSome_iff_exists.mp ((hread s.box hs).scheme htype)
        obtain ⟨named, hnamed, rfl⟩ := Option.map_eq_some_iff.mp hscheme
        rw [Option.bind_some, hscheme]
        exact ⟨named.version, (Box.read?_eq_some.mp hnamed).2⟩
  refine ⟨o, ho, ?_, hsays, fun hbeside => ?_⟩
  · rw [(Box.read?_eq_some.mp hd).2, ← ht]
  · rwa [schemeBeside_of_first hbeside]

/-! ### Init segments -/

def plainBox (type : FourCC) (payload : Bytes) : Bytes := (Label.mk type none false).write payload

def fullBox (type : FourCC) (payload : Bytes) : Bytes :=
  (Label.mk type (some ⟨0, 0⟩) false).write payload

/-- A track with one sample entry. -/
def trackOf (entry : Bytes) : Bytes :=
  [FourCC.trak, .mdia, .minf, .stbl].foldr plainBox (fullBox .stsd (Bytes.ofNat 4 1 ++ entry))

def videoEntry (protection : Bytes) : Bytes :=
  plainBox .encv (List.replicate 78 0 ++ plainBox .sinf protection)

def audioEntry (protection : Bytes) : Bytes :=
  plainBox .enca (List.replicate 28 0 ++ plainBox .sinf protection)

def schemeBox (scheme : FourCC) : Bytes :=
  fullBox .schm (Bytes.ofUInt32 scheme ++ Bytes.ofNat 4 0x10000)

/-- Defaults with vectors of eight bytes and a key identifier of equal bytes. -/
def defaultsBox (key : UInt8) : Bytes :=
  plainBox .schi (fullBox .tenc ([0, 0, 1, 8] ++ List.replicate 16 key))

/-- Two tracks, each with its own scheme. -/
def pairedTracks : Bytes :=
  plainBox .moov
    (trackOf (videoEntry (defaultsBox 1 ++ schemeBox Scheme.cens.code)) ++
      trackOf (audioEntry (schemeBox Scheme.cbcs.code ++ defaultsBox 2)))

theorem paired_tracks_found :
    ofInit pairedTracks =
        .ok (some ⟨⟨.none, true, 8, Vector.replicate 16 1, none⟩, Scheme.cens.code⟩) ∧
      ∃ o ∈ firstOf .tenc pairedTracks, (∀ s ∈ firstOf .schm pairedTracks, s.Beside o) ∧
        Says (schemeBeside o pairedTracks) Scheme.cens.code := by
  have hinit : ofInit pairedTracks =
      .ok (some ⟨⟨.none, true, 8, Vector.replicate 16 1, none⟩, Scheme.cens.code⟩) := by
    decide +kernel
  obtain ⟨o, ho, -, -, hsays⟩ := encryption_found hinit
  have hbeside : ∀ o ∈ firstOf .tenc pairedTracks, ∀ s ∈ firstOf .schm pairedTracks,
      s.Beside o := by
    decide +kernel
  exact ⟨hinit, o, ho, hbeside o ho, hsays (hbeside o ho)⟩

/-- Of two tracks, the first does not name a scheme. -/
def unpairedTracks : Bytes :=
  plainBox .moov
    (trackOf (videoEntry (defaultsBox 1)) ++
      trackOf (audioEntry (schemeBox Scheme.cbcs.code ++ defaultsBox 2)))

/-- The scheme of another track is found for a sample entry that has none. -/
theorem scheme_of_another_track :
    ofInit unpairedTracks =
        .ok (some ⟨⟨.none, true, 8, Vector.replicate 16 1, none⟩, Scheme.cbcs.code⟩) ∧
      ∃ o ∈ firstOf .tenc unpairedTracks, o.sinf?.isSome ∧
        schemeBeside o unpairedTracks = none ∧
        ¬Says (schemeBeside o unpairedTracks) Scheme.cbcs.code := by
  refine ⟨by decide +kernel, ?_⟩
  have hnone : ∃ o ∈ firstOf .tenc unpairedTracks, o.sinf?.isSome ∧
      schemeBeside o unpairedTracks = none := by
    decide +kernel
  obtain ⟨o, ho, hsinf, hbeside⟩ := hnone
  refine ⟨o, ho, hsinf, hbeside, ?_⟩
  rw [hbeside]
  change ¬Scheme.cbcs.code = Scheme.cenc.code
  decide

end TrackEncryption

end ProtectedMedia
