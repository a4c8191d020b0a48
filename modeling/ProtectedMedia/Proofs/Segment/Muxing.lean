import ProtectedMedia.Proofs.Packet.Attached
import ProtectedMedia.Proofs.Segment.Samples

/-!
# Extraction undoes muxing

Samples of a protected track are muxed into a segment of one fragment: its run gives the size of
each sample and where the media data starts, its encryption table gives the vector and the
subsamples of each. Extraction from that segment yields the samples again, one behind the other up
to the end, and each packet has the parameters of the track with the vector and the subsamples of
its sample.
-/
namespace ProtectedMedia

/-- A sample before it is put into a segment. -/
structure RawSample where
  data : Bytes
  encryption : SampleEncryption

/-- The vector of a sample, or the constant one if samples have none of their own. -/
def RawSample.iv (track : TrackEncryption) (raw : RawSample) : Bytes :=
  if track.ivSize = 0 then track.constantIv.getD [] else raw.encryption.iv

def RawSample.info (track : TrackEncryption) (raw : RawSample) : EncryptionInfo where
  scheme := track.scheme
  pattern := track.pattern
  keyId := track.keyId.toBytes
  iv := raw.iv track
  subsamples := raw.encryption.subsamples

/-- What a segment is made from: payloads of the boxes in front of the fragment, a track number and
the samples. -/
structure Muxing where
  brands : Bytes
  sequence : Bytes
  track : UInt32
  samples : List RawSample

namespace Muxing
open Segment

def stypLabel : Label := ⟨.ofChars 's' 't' 'y' 'p', none, false⟩

def mfhdLabel : Label := ⟨.ofChars 'm' 'f' 'h' 'd', some ⟨0, 0⟩, false⟩

/-- An encryption table with subsamples. -/
def sencLabel : Label := ⟨.senc, some ⟨0, 0x2⟩, false⟩

def mdatLabel : Label := ⟨.ofChars 'm' 'd' 'a' 't', none, false⟩

variable (m : Muxing)

def sizes : List UInt32 := m.samples.map fun raw => UInt32.ofNat raw.data.length

def entries : List SampleEncryption := m.samples.map RawSample.encryption

def media : Bytes := m.samples.flatMap RawSample.data

def fragment (offset : ℕ) : Forest :=
  .leaf tfhdLabel (Bytes.ofUInt32 m.track)
    (.leaf trunLabel (writeTrackRun offset m.sizes)
      (.leaf sencLabel (writeSampleEncryption m.entries) .nil))

def movie (offset : ℕ) : Forest :=
  .leaf mfhdLabel m.sequence (.node trafLabel (m.fragment offset) .nil)

/-- How far behind the start of the movie fragment the media data starts. The size of the fragment
does not depend on the offset that is written into it. -/
def offset : ℕ := 8 + (m.movie 0).write.length + 8

def forest : Forest :=
  .leaf stypLabel m.brands (.node moofLabel (m.movie m.offset) (.leaf mdatLabel m.media .nil))

def segment : Bytes := m.forest.write

/-- Where the media data starts. -/
def mediaStart : ℕ := 8 + m.brands.length + m.offset

variable {m}

theorem length_movie (offset : ℕ) : (m.movie offset).write.length = (m.movie 0).write.length := by
  simp only [movie, fragment, Forest.write, List.length_append, Label.length_write,
    length_writeTrackRun]

/-- The media data is the end of the segment. -/
theorem exists_segment_eq : ∃ front, m.segment = front ++ m.media ∧ front.length = m.mediaStart := by
  refine ⟨stypLabel.write m.brands ++ (moofLabel.write (m.movie m.offset).write ++
    mdatLabel.fields m.media.length), ?_, ?_⟩
  · simp only [segment, forest, Forest.write, List.append_nil, List.append_assoc]
    rfl
  · simp only [List.length_append, Label.length_write, Label.length_fields, length_movie]
    change 8 + _ + (8 + _ + 8) = 8 + _ + (8 + _ + 8)
    rfl

theorem length_segment : m.segment.length = m.mediaStart + m.media.length := by
  obtain ⟨front, hsegment, hfront⟩ := exists_segment_eq
  rw [hsegment, List.length_append, hfront]

theorem drop_mediaStart : m.segment.drop m.mediaStart = m.media := by
  obtain ⟨front, hsegment, hfront⟩ := exists_segment_eq
  rw [hsegment, List.drop_left' hfront]

theorem label_fits {l : Label} {n : ℕ} (hsize : l.headerSize + n < 2 ^ 32)
    (hfull : ∀ h ∈ l.full, h.Fits) : l.Fits n := ⟨fun _ => hsize, hfull⟩

/-- In a small segment all boxes are small. -/
theorem fits (hsize : m.segment.length < 2 ^ 31) : m.forest.Fits layout := by
  have hfragment : (m.fragment m.offset).write.length =
      tfhdLabel.headerSize + (Bytes.ofUInt32 m.track).length +
        (trunLabel.headerSize + (writeTrackRun m.offset m.sizes).length +
          (sencLabel.headerSize + (writeSampleEncryption m.entries).length)) := by
    simp only [fragment, Forest.write, List.length_append, Label.length_write, List.length_nil,
      Nat.add_zero]
  have hmovie : (m.movie m.offset).write.length = mfhdLabel.headerSize + m.sequence.length +
      (trafLabel.headerSize + (m.fragment m.offset).write.length) := by
    simp only [movie, Forest.write, List.length_append, Label.length_write, List.length_nil,
      Nat.add_zero]
  have hsegment : m.segment.length = stypLabel.headerSize + m.brands.length +
      (moofLabel.headerSize + (m.movie m.offset).write.length +
        (mdatLabel.headerSize + m.media.length)) := by
    simp only [segment, forest, Forest.write, List.length_append, Label.length_write,
      List.length_nil, Nat.add_zero]
  have fragmentFits : (m.fragment m.offset).Fits layout :=
    ⟨label_fits (by omega) (by decide), by decide, label_fits (by omega) (by decide), by decide,
      label_fits (by omega) (by decide), by decide, trivial⟩
  have movieFits : (m.movie m.offset).Fits layout :=
    ⟨label_fits (by omega) (by decide), by decide, label_fits (by omega) (by decide), by decide,
      fragmentFits, trivial⟩
  exact ⟨label_fits (by omega) (by decide), by decide, label_fits (by omega) (by decide),
    by decide, movieFits, label_fits (by omega) (by decide), by decide, trivial⟩

/-! ### What extraction meets -/

section Steps
variable {track : TrackEncryption} {n : ℕ} {p : Progress} {f : Fragment} {b : Box}
  {es : List Event}

theorem foldlM_field (hmoof : b.type ≠ .moof) (htraf : b.type ≠ .traf)
    (hread : readField track n p.fragment b = .ok f) :
    (.opened b :: .closed b :: es).foldlM (step track n) p =
      es.foldlM (step track n) { p with fragment := f } := by
  rw [List.foldlM_cons, step_field hmoof htraf, hread]
  change (.closed b :: es).foldlM (step track n) { p with fragment := f } = _
  rw [List.foldlM_cons, step_closed htraf]
  rfl

end Steps

def header (m : Muxing) : FragmentHeader := ⟨m.track, none, none⟩

def run (m : Muxing) : TrackRun := ⟨some m.offset, m.sizes.map some⟩

variable {track : TrackEncryption}

theorem samples_length_le : m.samples.length * 4 ≤ m.segment.length := by
  simp only [segment, forest, movie, fragment, Forest.write, List.length_append,
    Label.length_write, length_writeTrackRun, sizes, List.length_map]
  omega

theorem offset_le : m.offset ≤ m.segment.length := by
  rw [length_segment, mediaStart]
  omega

/-- The boxes of the track fragment say what was muxed. -/
theorem foldlM_fragment {start : ℕ} {p : Progress} {es : List Event}
    (hsamples : ∀ raw ∈ m.samples, raw.encryption.Fits track.ivSize.toNat)
    (hsize : m.segment.length < 2 ^ 31) (hempty : p.fragment = .empty) :
    ((m.fragment m.offset).events layout start ++ es).foldlM (step track m.segment.length) p =
      es.foldlM (step track m.segment.length)
        { p with fragment := ⟨some m.header, [m.run], some m.entries⟩ } := by
  have hcount := m.samples_length_le
  obtain ⟨tfhd, trun, senc, hevents, ⟨htfhd, hfull₁, hpayload₁⟩, ⟨htrun, hfull₂, hpayload₂⟩,
      hsenc, hfull₃, hpayload₃⟩ : ∃ b₁ b₂ b₃ : Box,
      (m.fragment m.offset).events layout start =
        [.opened b₁, .closed b₁, .opened b₂, .closed b₂, .opened b₃, .closed b₃] ∧
      (b₁.type = .tfhd ∧ b₁.flags = 0x020000 ∧ b₁.payload = Bytes.ofUInt32 m.track) ∧
      (b₂.type = .trun ∧ b₂.flags = 0x201 ∧ b₂.payload = writeTrackRun m.offset m.sizes) ∧
      b₃.type = .senc ∧ b₃.flags = 0x2 ∧ b₃.payload = writeSampleEncryption m.entries :=
    ⟨_, _, _, rfl, ⟨rfl, rfl, rfl⟩, ⟨rfl, rfl, rfl⟩, rfl, rfl, rfl⟩
  have hheader : tfhd.parse tfhd.readFragmentHeader = .ok m.header := by
    apply Box.parse_of_reads
    rw [hpayload₁]
    exact Box.reads_fragmentHeader hfull₁ m.track
  have hrun : trun.parse (trun.readTrackRun m.segment.length) = .ok m.run := by
    apply Box.parse_of_reads
    rw [hpayload₂]
    have hoffset := m.offset_le
    have hsizes : m.sizes.length = m.samples.length := List.length_map _
    exact Box.reads_trackRun hfull₂ (by omega) (by omega) (by omega)
  have hentries : senc.parse (senc.readSampleEncryption track.ivSize.toNat m.segment.length) =
      .ok m.entries := by
    apply Box.parse_of_reads
    rw [hpayload₃]
    have hlength : m.entries.length = m.samples.length := List.length_map _
    refine Box.reads_sampleEncryption hfull₃ ?_ (by omega) (by omega)
    intro e he
    obtain ⟨raw, hraw, rfl⟩ := List.mem_map.mp he
    exact hsamples raw hraw
  rw [hevents]
  simp only [List.cons_append, List.nil_append]
  rw [foldlM_field (by rw [htfhd]; decide) (by rw [htfhd]; decide)
      (readField_eq_ok.mpr (.header htfhd hheader)),
    foldlM_field (by rw [htrun]; decide) (by rw [htrun]; decide) (readField_eq_ok.mpr (.run htrun hrun)),
    foldlM_field (by rw [hsenc]; decide) (by rw [hsenc]; decide) (readField_eq_ok.mpr (.encryption hsenc hentries)),
    hempty]
  rfl

/-- The samples lie one after another from a position on. -/
def spans : ℕ → List RawSample → List (ℕ × ℕ)
  | _, [] => []
  | start, raw :: raws =>
    (start, start + raw.data.length) :: spans (start + raw.data.length) raws

theorem length_spans (start : ℕ) (raws : List RawSample) :
    (spans start raws).length = raws.length := by
  induction raws generalizing start with
  | nil => rfl
  | cons raw raws ih => exact congrArg (· + 1) (ih _)

theorem placed_spans {header : FragmentHeader} {n start : ℕ} {raws : List RawSample}
    (hroom : start + (raws.flatMap RawSample.data).length ≤ n)
    (hsize : (raws.flatMap RawSample.data).length < 2 ^ 32) :
    Placed header n start (raws.map fun raw => some (UInt32.ofNat raw.data.length))
      (spans start raws) (start + (raws.flatMap RawSample.data).length) := by
  induction raws generalizing start with
  | nil => exact .nil start
  | cons raw raws ih =>
      rw [List.flatMap_cons, List.length_append] at hroom hsize ⊢
      have hlength : (UInt32.ofNat raw.data.length).toNat = raw.data.length :=
        UInt32.toNat_ofNat_of_lt' (by rw [UInt32.size]; omega)
      have hrest := ih (show start + raw.data.length + _ ≤ n by omega) (by omega)
      rw [Nat.add_assoc, ← hlength] at hrest
      have hcons : Placed header n start (some (UInt32.ofNat raw.data.length) :: _) _ _ :=
        .cons rfl (by omega) hrest
      rw [hlength] at hcons
      exact hcons

/-- The fragment places the samples where the media data lies. -/
theorem locate_fragment {movieStart : ℕ} (hprotected : track.isProtected = true)
    (hstart : movieStart = 8 + m.brands.length) (hsize : m.segment.length < 2 ^ 31) :
    locate track m.segment.length movieStart ⟨some m.header, [m.run], some m.entries⟩ =
      .ok (List.zipWith (describe track) (spans m.mediaStart m.samples) m.entries) := by
  have hlength := m.length_segment
  have hsizes : m.run.sizes = m.samples.map fun raw => some (UInt32.ofNat raw.data.length) :=
    List.map_map
  have hstarts : StartsAt movieStart movieStart m.run m.mediaStart := by
    constructor
    · rw [hstart, mediaStart]
      exact Int.natCast_add _ _
    · omega
  have hruns : RunsPlaced m.header m.segment.length movieStart movieStart [m.run]
      [spans m.mediaStart m.samples] := by
    have hplaced : Placed m.header m.segment.length m.mediaStart m.run.sizes
        (spans m.mediaStart m.samples) (m.mediaStart + m.media.length) := by
      rw [hsizes]
      exact placed_spans hlength.ge (by rw [media] at hlength; omega)
    exact .cons hstarts hplaced (.nil _)
  have hplaced : placeRuns m.header m.segment.length movieStart movieStart [m.run] =
      .ok (spans m.mediaStart m.samples) :=
    placeRuns_eq_ok.mpr ⟨_, hruns, List.append_nil _⟩
  have hentries : m.entries.length = (spans m.mediaStart m.samples).length := by
    rw [length_spans, entries, List.length_map]
  change (placeRuns m.header m.segment.length movieStart movieStart [m.run] >>= fun placed =>
    protect track m.header (some m.entries) placed) = _
  have hprotect : protect track m.header (some m.entries) (spans m.mediaStart m.samples) = _ :=
    protect_of_protected hprotected hentries
  rw [hplaced]
  exact hprotect

theorem events_forest : ∃ moof traf start,
    m.forest.events layout 0 = .opened moof :: .opened traf ::
      ((m.fragment m.offset).events layout start ++ [.closed traf, .closed moof]) ∧
    moof.type = .moof ∧ traf.type = .traf ∧ moof.start = 8 + m.brands.length := by
  have hstyp : layout.find? stypLabel.type = none := by decide
  have hmfhd : layout.find? mfhdLabel.type = none := by decide
  have hmdat : layout.find? mdatLabel.type = none := by decide
  have hmoof : layout.find? moofLabel.type = some ⟨false, .boxes⟩ := by decide
  have htraf : layout.find? trafLabel.type = some ⟨false, .boxes⟩ := by decide
  simp only [forest, movie, Forest.events, hstyp, hmfhd, hmdat, hmoof, htraf, List.nil_append,
    List.append_nil, List.cons_append, List.append_assoc]
  exact ⟨_, _, _, rfl, rfl, rfl, Nat.zero_add _⟩

theorem samples_segment (hprotected : track.isProtected = true)
    (hsamples : ∀ raw ∈ m.samples, raw.encryption.Fits track.ivSize.toNat)
    (hsize : m.segment.length < 2 ^ 31) :
    Segment.samples track m.segment =
      .ok ((List.zipWith (describe track) (spans m.mediaStart m.samples) m.entries).map
        (toSample m.segment)) := by
  obtain ⟨moof, traf, start, hevents, hmoof, htraf, hstart⟩ := m.events_forest
  have hrun : (m.forest.events layout 0).foldlM (step track m.segment.length) ⟨0, .empty, []⟩ =
      .ok ⟨8 + m.brands.length, .empty,
        List.zipWith (describe track) (spans m.mediaStart m.samples) m.entries⟩ := by
    have hno : moof.type ≠ .traf := by rw [hmoof]; decide
    rw [hevents, List.foldlM_cons, step_moof hmoof]
    change (.opened traf :: _).foldlM (step track m.segment.length) ⟨moof.start, .empty, []⟩ = _
    rw [List.foldlM_cons, step_traf htraf]
    change List.foldlM (step track m.segment.length) ⟨moof.start, .empty, []⟩ (_ ++ _) = _
    rw [foldlM_fragment hsamples hsize rfl, List.foldlM_cons, step_trafEnd htraf,
      locate_fragment hprotected hstart hsize]
    change [.closed moof].foldlM (step track m.segment.length) ⟨moof.start, .empty, _⟩ = _
    rw [List.foldlM_cons, step_closed hno, hstart]
    rfl
  rw [segment, samples_write (fits hsize) (by rw [segment] at hsize; omega)]
  rw [segment] at hrun
  rw [hrun]
  rfl

end Muxing

/-! ### What comes back -/

/-- Samples that lie one after another, without gaps, from a position up to another. -/
def Consecutive : (start : ℕ) → List Sample → (stop : ℕ) → Prop
  | start, [], stop => start = stop
  | start, s :: ss, stop => s.start = start ∧ Consecutive s.stop ss stop

/-- A sample has the data that was muxed, and its packet the parameters. Side data gives the length
of a vector in 32 bits, so a longer constant vector cannot be carried by any packet. -/
structure Recovers (track : TrackEncryption) (s : Sample) (raw : RawSample) : Prop where
  data : s.packet.data = raw.data
  size : s.stop = s.start + raw.data.length
  info : (raw.iv track).length < 2 ^ 32 →
    s.packet.encryptionInfo = .ok (some (raw.info track))

namespace Muxing
open Segment

variable {m : Muxing} {track : TrackEncryption} {raw : RawSample} {raws : List RawSample}
  {segment : Bytes} {start : ℕ}

theorem describe_eq (fits : raw.encryption.Fits track.ivSize.toNat) (span : ℕ × ℕ) :
    describe track span raw.encryption = ⟨span.1, span.2, some (raw.info track)⟩ := by
  have hiv : sampleIv track raw.encryption = raw.iv track := by
    rw [sampleIv, RawSample.iv]
    cases track.constantIv with
    | some iv => rfl
    | none =>
        by_cases hzero : track.ivSize = 0
        · have hnil : raw.encryption.iv = [] := by
            apply List.eq_nil_of_length_eq_zero
            rw [fits.iv, hzero]
            rfl
          rw [if_pos hzero, hnil]
          rfl
        · rw [if_neg hzero]
  rw [describe, hiv]
  rfl

theorem fitsWords_info (fits : raw.encryption.Fits track.ivSize.toNat)
    (hiv : (raw.iv track).length < 2 ^ 32) : (raw.info track).FitsWords := by
  have hkey : track.keyId.toBytes.length < 2 ^ 32 := by
    rw [Block.length_toBytes]
    omega
  have hcount : raw.encryption.subsamples.length < 2 ^ 32 := by
    have := fits.count
    omega
  exact ⟨hkey, hiv, hcount⟩

theorem recovers_toSample (fits : raw.encryption.Fits track.ivSize.toNat) {rest : Bytes}
    (hdrop : segment.drop start = raw.data ++ rest) :
    Recovers track
      (toSample segment ⟨start, start + raw.data.length, some (raw.info track)⟩) raw := by
  have hslice : segment.slice start (start + raw.data.length) = raw.data := by
    rw [Bytes.slice, hdrop, Nat.add_sub_cancel_left, List.take_left]
  constructor
  · exact hslice
  · rfl
  · intro hiv
    exact Packet.encryptionInfo_encrypted _ (fitsWords_info fits hiv)

/-- Samples that lie where their data lies are recovered one by one. -/
theorem recovers_samples (fits : ∀ raw ∈ raws, raw.encryption.Fits track.ivSize.toNat)
    (hdrop : segment.drop start = raws.flatMap RawSample.data) :
    ∃ found, (List.zipWith (describe track) (spans start raws)
        (raws.map RawSample.encryption)).map (toSample segment) = found ∧
      Consecutive start found (start + (raws.flatMap RawSample.data).length) ∧
      List.Forall₂ (Recovers track) found raws := by
  induction raws generalizing start with
  | nil => exact ⟨[], rfl, rfl, .nil⟩
  | cons raw raws ih =>
      rw [List.flatMap_cons] at hdrop
      have hfits := fits raw List.mem_cons_self
      have hrest : segment.drop (start + raw.data.length) = raws.flatMap RawSample.data := by
        rw [← List.drop_drop, hdrop, List.drop_left]
      obtain ⟨found, hfound, hconsecutive, hrecovers⟩ :=
        ih (fun raw' h => fits raw' (List.mem_cons_of_mem raw h)) hrest
      refine ⟨_ :: found, ?_, ⟨rfl, ?_⟩, .cons (recovers_toSample hfits hdrop) hrecovers⟩
      · rw [spans, List.map_cons, List.zipWith_cons_cons, List.map_cons, hfound,
          describe_eq hfits]
      · rw [List.flatMap_cons, List.length_append, ← Nat.add_assoc]
        exact hconsecutive

/-- Extraction yields the muxed samples in order, one behind the other from where the media data
starts up to the end of the segment. -/
theorem samples_recovered (m : Muxing) (track : TrackEncryption)
    (hprotected : track.isProtected = true)
    (hsamples : ∀ raw ∈ m.samples, raw.encryption.Fits track.ivSize.toNat)
    (hsize : m.segment.length < 2 ^ 31) :
    ∃ found, Segment.samples track m.segment = .ok found ∧
      Consecutive m.mediaStart found m.segment.length ∧
      List.Forall₂ (Recovers track) found m.samples := by
  obtain ⟨found, hfound, hconsecutive, hrecovers⟩ := recovers_samples hsamples m.drop_mediaStart
  refine ⟨found, ?_, ?_, hrecovers⟩
  · rw [samples_segment hprotected hsamples hsize, ← hfound]
    rfl
  · rw [length_segment]
    exact hconsecutive

def protectedTrack : TrackEncryption := ⟨⟨⟨1, 9⟩, true, 8, .zero, none⟩, Scheme.cens.code⟩

/-- Three samples, the second one empty and the third one without subsamples. -/
def threeSamples : Muxing where
  brands := [109, 115, 100, 104]
  sequence := [0, 0, 0, 1]
  track := 1
  samples := [⟨[1, 2, 3, 4, 5], ⟨List.replicate 8 7, [⟨2, 3⟩]⟩⟩,
    ⟨[], ⟨List.replicate 8 8, [⟨0, 0⟩, ⟨0, 0⟩]⟩⟩, ⟨[6, 7], ⟨List.replicate 8 9, []⟩⟩]

theorem three_samples_recovered :
    (protectedTrack.isProtected = true ∧
      (∀ raw ∈ threeSamples.samples, raw.encryption.Fits protectedTrack.ivSize.toNat) ∧
      threeSamples.segment.length < 2 ^ 31) ∧
    ∃ found, Segment.samples protectedTrack threeSamples.segment = .ok found ∧
      Consecutive threeSamples.mediaStart found threeSamples.segment.length ∧
      List.Forall₂ (Recovers protectedTrack) found threeSamples.samples := by
  have hsamples : ∀ raw ∈ threeSamples.samples,
      raw.encryption.Fits protectedTrack.ivSize.toNat := by decide
  have hsize : threeSamples.segment.length < 2 ^ 31 := by decide +kernel
  exact ⟨⟨rfl, hsamples, hsize⟩, samples_recovered threeSamples protectedTrack rfl hsamples hsize⟩

end Muxing

end ProtectedMedia
