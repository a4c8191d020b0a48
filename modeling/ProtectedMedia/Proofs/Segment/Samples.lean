import Mathlib.Data.List.DropRight
import ProtectedMedia.Proofs.Box.Forest
import ProtectedMedia.Proofs.Box.Framing
import ProtectedMedia.Proofs.Box.Tables
import ProtectedMedia.Proofs.Segment.Placement

/-!
# The samples of a segment

What the samples of a segment are is said by the events of the walk through it. Each time a track
fragment ends, its samples are those of the runs that were met since a track fragment was opened or
closed last. They count from the header that was met last among those boxes, and from the movie
fragment that was opened last of all. A run that no end of a track fragment follows without another
start or end of one between them is read, but has no samples.
-/
namespace ProtectedMedia

def Event.opened? : Event → Option Box
  | .opened b => some b
  | .closed _ => none

/-- Where a sample lies. -/
def Sample.span (s : Sample) : ℕ × ℕ := (s.start, s.stop)

namespace Segment

/-! ### What the events say -/

/-- The boxes of a type that were opened, in order. -/
def openedBoxes (type : FourCC) (es : List Event) : List Box :=
  (es.filterMap Event.opened?).filter fun b => b.type = type

/-- The events since a fragment of a track was opened or closed. -/
def sinceTraf (es : List Event) : List Event := es.rtakeWhile fun e => e.box.type ≠ .traf

/-- The start of the movie fragment that was opened last. -/
def movieStart (es : List Event) : ℕ := ((openedBoxes .moof es).getLast?.map Box.start).getD 0

/-- The events before each end of a track fragment, for events that follow those of `before`. -/
def trafEnds (before : List Event) : List Event → List (List Event)
  | [] => []
  | .opened b :: es => trafEnds (before ++ [.opened b]) es
  | .closed b :: es =>
    (if b.type = .traf then [before] else []) ++ trafEnds (before ++ [.closed b]) es

/-- Where the samples of a track fragment lie that ends after the events of `before`. -/
def TrafPlaced (segment : ℕ) (before : List Event) (placed : List (ℕ × ℕ)) : Prop :=
  ∃ b header runs spans, (openedBoxes .tfhd (sinceTraf before)).getLast? = some b ∧
    b.parse b.readFragmentHeader = .ok header ∧
    List.Forall₂ (fun (b : Box) run => b.parse (b.readTrackRun segment) = .ok run)
      (openedBoxes .trun (sinceTraf before)) runs ∧
    RunsPlaced header segment (origin header (movieStart before))
      (origin header (movieStart before)) runs spans ∧
    placed = spans.flatten

variable {type : FourCC} {es : List Event} {b : Box}

theorem openedBoxes_opened :
    openedBoxes type (es ++ [.opened b]) =
      openedBoxes type es ++ if b.type = type then [b] else [] := by
  rw [openedBoxes, List.filterMap_append, List.filter_append]
  change _ ++ List.filter _ [b] = _
  rw [List.filter_singleton]
  simp [openedBoxes]

theorem openedBoxes_closed : openedBoxes type (es ++ [.closed b]) = openedBoxes type es := by
  rw [openedBoxes, List.filterMap_append, List.filter_append]
  exact List.append_nil _

theorem movieStart_moof (h : b.type = .moof) : movieStart (es ++ [.opened b]) = b.start := by
  rw [movieStart, openedBoxes_opened, if_pos h, List.getLast?_concat]
  rfl

theorem movieStart_other (h : b.type ≠ .moof) :
    movieStart (es ++ [.opened b]) = movieStart es := by
  rw [movieStart, openedBoxes_opened, if_neg h, List.append_nil]
  rfl

theorem movieStart_closed : movieStart (es ++ [.closed b]) = movieStart es := by
  rw [movieStart, openedBoxes_closed]
  rfl

theorem sinceTraf_traf {e : Event} (h : e.box.type = .traf) : sinceTraf (es ++ [e]) = [] := by
  rw [sinceTraf, List.rtakeWhile_concat_neg]
  simp [h]

theorem sinceTraf_other {e : Event} (h : e.box.type ≠ .traf) :
    sinceTraf (es ++ [e]) = sinceTraf es ++ [e] := by
  rw [sinceTraf, List.rtakeWhile_concat_pos]
  · rfl
  · simpa using h

/-! ### What a step does -/

variable {track : TrackEncryption} {segment : ℕ} {p q : Progress} {f g : Fragment}

theorem step_moof (h : b.type = .moof) :
    step track segment p (.opened b) = .ok { p with movie := b.start } := by
  rw [step, if_pos h]

theorem step_traf (h : b.type = .traf) :
    step track segment p (.opened b) = .ok { p with fragment := .empty } := by
  rw [step, if_neg (by rw [h]; decide), if_pos h]

theorem step_field (hmoof : b.type ≠ .moof) (htraf : b.type ≠ .traf) :
    step track segment p (.opened b) =
      (readField track segment p.fragment b).map fun f => { p with fragment := f } := by
  rw [step, if_neg hmoof, if_neg htraf]

theorem step_trafEnd (h : b.type = .traf) :
    step track segment p (.closed b) =
      (locate track segment p.movie p.fragment).map fun samples =>
        { p with fragment := .empty, located := p.located ++ samples } := by
  rw [step, if_pos h]

theorem step_closed (h : b.type ≠ .traf) : step track segment p (.closed b) = .ok p := by
  rw [step, if_neg h]

/-- What a box inside the fragment of a track adds to what is known of the fragment. -/
inductive FieldRead (track : TrackEncryption) (segment : ℕ) (f : Fragment) (b : Box) :
    Fragment → Prop
  | header {header : FragmentHeader} (htype : b.type = .tfhd)
      (hparse : b.parse b.readFragmentHeader = .ok header) :
      FieldRead track segment f b { f with header := some header }
  | run {run : TrackRun} (htype : b.type = .trun)
      (hparse : b.parse (b.readTrackRun segment) = .ok run) :
      FieldRead track segment f b { f with runs := f.runs ++ [run] }
  | encryption {entries : List SampleEncryption} (htype : b.type = .senc)
      (hparse : b.parse (b.readSampleEncryption track.ivSize.toNat segment) = .ok entries) :
      FieldRead track segment f b { f with encryption := some entries }
  | other (htfhd : b.type ≠ .tfhd) (htrun : b.type ≠ .trun) (hsenc : b.type ≠ .senc) :
      FieldRead track segment f b f

theorem readField_eq_ok : readField track segment f b = .ok g ↔ FieldRead track segment f b g := by
  constructor
  · intro h
    unfold readField at h
    split_ifs at h with htfhd htrun hsenc
    · obtain ⟨header, hparse, h⟩ := Error.bind_eq_ok.mp h
      cases h
      exact .header htfhd hparse
    · obtain ⟨run, hparse, h⟩ := Error.bind_eq_ok.mp h
      cases h
      exact .run htrun hparse
    · obtain ⟨entries, hparse, h⟩ := Error.bind_eq_ok.mp h
      cases h
      exact .encryption hsenc hparse
    · cases h
      exact .other htfhd htrun hsenc
  · intro h
    cases h with
    | header htype hparse =>
        rw [readField, if_pos htype, hparse]
        rfl
    | run htype hparse =>
        rw [readField, if_neg (by rw [htype]; decide), if_pos htype, hparse]
        rfl
    | encryption htype hparse =>
        rw [readField, if_neg (by rw [htype]; decide), if_neg (by rw [htype]; decide),
          if_pos htype, hparse]
        rfl
    | other htfhd htrun hsenc => rw [readField, if_neg htfhd, if_neg htrun, if_neg hsenc]; rfl

/-- A fragment holds what its boxes say: the last header, and all runs in order. -/
structure ReadsFragment (segment : ℕ) (es : List Event) (f : Fragment) : Prop where
  header : ∀ header, f.header = some header → ∃ b, (openedBoxes .tfhd es).getLast? = some b ∧
    b.parse b.readFragmentHeader = .ok header
  runs : List.Forall₂ (fun (b : Box) run => b.parse (b.readTrackRun segment) = .ok run)
    (openedBoxes .trun es) f.runs

theorem readsFragment_empty : ReadsFragment segment [] .empty where
  header _ h := by cases h
  runs := .nil

/-- Other boxes say nothing about header and runs. -/
theorem ReadsFragment.pass (h : ReadsFragment segment es f) (htfhd : b.type ≠ .tfhd)
    (htrun : b.type ≠ .trun) (hheader : g.header = f.header) (hruns : g.runs = f.runs) :
    ReadsFragment segment (es ++ [.opened b]) g := by
  constructor
  · rw [openedBoxes_opened, if_neg htfhd, List.append_nil, hheader]
    exact h.header
  · rw [openedBoxes_opened, if_neg htrun, List.append_nil, hruns]
    exact h.runs

theorem ReadsFragment.closed (h : ReadsFragment segment es f) :
    ReadsFragment segment (es ++ [.closed b]) f := by
  constructor
  · rw [openedBoxes_closed]
    exact h.header
  · rw [openedBoxes_closed]
    exact h.runs

theorem ReadsFragment.readField (h : ReadsFragment segment es f)
    (hread : FieldRead track segment f b g) : ReadsFragment segment (es ++ [.opened b]) g := by
  cases hread with
  | @header header htype hparse =>
      have hno : b.type ≠ .trun := by rw [htype]; decide
      constructor
      · intro header' hsome
        cases hsome
        exact ⟨b, by rw [openedBoxes_opened, if_pos htype, List.getLast?_concat], hparse⟩
      · rw [openedBoxes_opened, if_neg hno, List.append_nil]
        exact h.runs
  | run htype hparse =>
      have hno : b.type ≠ .tfhd := by rw [htype]; decide
      constructor
      · rw [openedBoxes_opened, if_neg hno, List.append_nil]
        exact h.header
      · rw [openedBoxes_opened, if_pos htype]
        exact List.rel_append h.runs (.cons hparse .nil)
  | encryption htype hparse =>
      exact h.pass (by rw [htype]; decide) (by rw [htype]; decide) rfl rfl
  | other htfhd htrun _ => exact h.pass htfhd htrun rfl rfl

/-- What is known after the events of `before`. -/
structure Reached (segment : ℕ) (before : List Event) (p : Progress) : Prop where
  movie : p.movie = movieStart before
  fragment : ReadsFragment segment (sinceTraf before) p.fragment

theorem reached_start : Reached segment [] ⟨0, .empty, []⟩ := ⟨rfl, readsFragment_empty⟩

/-- Opening a box places no samples. -/
theorem Reached.opened {before : List Event} (h : Reached segment before p)
    (hstep : step track segment p (.opened b) = .ok q) :
    Reached segment (before ++ [.opened b]) q ∧ q.located = p.located := by
  by_cases htraf : b.type = .traf
  · rw [step_traf htraf] at hstep
    cases hstep
    have hmoof : b.type ≠ .moof := by rw [htraf]; decide
    have hsince : sinceTraf (before ++ [.opened b]) = [] := sinceTraf_traf htraf
    refine ⟨⟨?_, ?_⟩, rfl⟩
    · rw [movieStart_other hmoof]
      exact h.movie
    · rw [hsince]
      exact readsFragment_empty
  · have hsince : sinceTraf (before ++ [.opened b]) = sinceTraf before ++ [.opened b] :=
      sinceTraf_other htraf
    by_cases hmoof : b.type = .moof
    · rw [step_moof hmoof] at hstep
      cases hstep
      refine ⟨⟨(movieStart_moof hmoof).symm, ?_⟩, rfl⟩
      rw [hsince]
      exact h.fragment.pass (by rw [hmoof]; decide) (by rw [hmoof]; decide) rfl rfl
    · rw [step_field hmoof htraf] at hstep
      obtain ⟨f, hread, rfl⟩ := Error.map_eq_ok.mp hstep
      refine ⟨⟨?_, ?_⟩, rfl⟩
      · rw [movieStart_other hmoof]
        exact h.movie
      · rw [hsince]
        exact h.fragment.readField (readField_eq_ok.mp hread)

theorem Reached.closed {before : List Event} (h : Reached segment before p)
    (htraf : b.type ≠ .traf) : Reached segment (before ++ [.closed b]) p := by
  have hsince : sinceTraf (before ++ [.closed b]) = sinceTraf before ++ [.closed b] :=
    sinceTraf_other htraf
  constructor
  · rw [movieStart_closed]
    exact h.movie
  · rw [hsince]
    exact h.fragment.closed

/-- The end of a track fragment places the samples of its runs. -/
theorem Reached.trafEnd {before : List Event} (h : Reached segment before p)
    (htraf : b.type = .traf) (hstep : step track segment p (.closed b) = .ok q) :
    Reached segment (before ++ [.closed b]) q ∧
      ∃ located, q.located = p.located ++ located ∧
        TrafPlaced segment before (located.map Located.span) ∧
        ∀ l ∈ located, l.info.isSome = track.isProtected := by
  rw [step_trafEnd htraf] at hstep
  obtain ⟨located, hlocate, rfl⟩ := Error.map_eq_ok.mp hstep
  obtain ⟨header, spans, hheader, hplaced, hspans, hinfo⟩ := locate_eq_ok hlocate
  obtain ⟨b', hlast, hparse⟩ := h.fragment.header header hheader
  rw [h.movie] at hplaced
  have hsince : sinceTraf (before ++ [.closed b]) = [] := sinceTraf_traf htraf
  refine ⟨⟨?_, ?_⟩, located, rfl, ?_, hinfo⟩
  · rw [movieStart_closed]
    exact h.movie
  · rw [hsince]
    exact readsFragment_empty
  · exact ⟨b', header, p.fragment.runs, spans, hlast, hparse, h.fragment.runs, hplaced, hspans⟩

/-- A run over events places the samples of every track fragment that ends among them. -/
theorem placed_of_foldlM {before : List Event} (h : Reached segment before p)
    (hrun : es.foldlM (step track segment) p = .ok q) :
    ∃ more parts, q.located = p.located ++ more ∧
      List.Forall₂ (TrafPlaced segment) (trafEnds before es) parts ∧
      more.map Located.span = parts.flatten ∧ ∀ l ∈ more, l.info.isSome = track.isProtected := by
  -- over the events to come; what has been reached depends on all those before them
  induction es generalizing before p with
  | nil =>
      cases hrun
      exact ⟨[], [], (List.append_nil _).symm, .nil, rfl, by simp⟩
  | cons e es ih =>
      rw [List.foldlM_cons] at hrun
      obtain ⟨next, hstep, hrest⟩ := Error.bind_eq_ok.mp hrun
      cases e with
      | opened b =>
          obtain ⟨hnext, hsame⟩ := h.opened hstep
          rw [← hsame]
          exact ih hnext hrest
      | closed b =>
          by_cases htraf : b.type = .traf
          · obtain ⟨hnext, located, hlocated, hplaced, hinfo⟩ := h.trafEnd htraf hstep
            obtain ⟨more, parts, hmore, hparts, hspans, hall⟩ := ih hnext hrest
            refine ⟨located ++ more, located.map Located.span :: parts, ?_, ?_, ?_, ?_⟩
            · rw [hmore, hlocated, List.append_assoc]
            · rw [trafEnds, if_pos htraf]
              exact .cons hplaced hparts
            · rw [List.map_append, hspans, List.flatten_cons]
            · intro l hl
              rcases List.mem_append.mp hl with hl | hl
              · exact hinfo l hl
              · exact hall l hl
          · rw [step_closed htraf] at hstep
            cases hstep
            rw [trafEnds, if_neg htraf]
            exact ih (h.closed htraf) hrest

/-! ### Extraction -/

variable {data : Bytes} {found : List Sample}

theorem samples_eq_ok (h : samples track data = .ok found) :
    ∃ q, (Walk.trace layout false data).fault = none ∧
      (Walk.trace layout false data).events.foldlM (step track data.length) ⟨0, .empty, []⟩ =
        .ok q ∧ found = q.located.map (toSample data) := by
  obtain ⟨q, hrun, hfound⟩ := Error.bind_eq_ok.mp h
  obtain ⟨q', hfold, hrun⟩ := Error.bind_eq_ok.mp hrun
  cases hfault : (Walk.trace layout false data).fault with
  | some fault => rw [hfault] at hrun; cases hrun
  | none =>
      rw [hfault] at hrun
      cases hrun
      cases hfound
      exact ⟨q, rfl, hfold, rfl⟩

theorem data_toSample (l : Located) :
    (toSample data l).packet.data = data.slice l.start l.stop := by
  rw [toSample]
  cases l.info <;> rfl

theorem isEncrypted_toSample (l : Located) :
    (toSample data l).packet.isEncrypted = l.info.isSome := by
  rw [toSample]
  cases l.info <;> rfl

/-- What extraction yields: the placed samples of the track fragments in order, with their data. -/
theorem placed_of_samples (h : samples track data = .ok found) :
    ∃ parts, List.Forall₂ (TrafPlaced data.length)
        (trafEnds [] (Walk.trace layout false data).events) parts ∧
      found.map Sample.span = parts.flatten ∧
      ∀ s ∈ found, s.packet.data = data.slice s.start s.stop ∧
        s.packet.isEncrypted = track.isProtected := by
  obtain ⟨q, -, hrun, rfl⟩ := samples_eq_ok h
  obtain ⟨more, parts, hmore, hparts, hspans, hall⟩ := placed_of_foldlM reached_start hrun
  rw [List.nil_append] at hmore
  subst hmore
  refine ⟨parts, hparts, ?_, ?_⟩
  · rw [← hspans, List.map_map]
    rfl
  · intro s hs
    obtain ⟨l, hl, rfl⟩ := List.mem_map.mp hs
    refine ⟨data_toSample l, ?_⟩
    rw [isEncrypted_toSample]
    exact hall l hl

theorem TrafPlaced.bounds {before : List Event} {placed : List (ℕ × ℕ)}
    (h : TrafPlaced segment before placed) :
    ∀ span ∈ placed, span.1 ≤ span.2 ∧ span.2 ≤ segment := by
  obtain ⟨b, header, runs, spans, -, -, -, hspans, rfl⟩ := h
  exact hspans.bounds

theorem bounds_of_parts {ends : List (List Event)} {parts : List (List (ℕ × ℕ))}
    (h : List.Forall₂ (TrafPlaced segment) ends parts) :
    ∀ span ∈ parts.flatten, span.1 ≤ span.2 ∧ span.2 ≤ segment := by
  induction h with
  | nil => simp
  | cons hpart _ ih =>
      intro span hspan
      rcases List.mem_append.mp hspan with hspan | hspan
      · exact hpart.bounds span hspan
      · exact ih span hspan

/-- Every sample lies inside the segment. -/
theorem samples_bounds (h : samples track data = .ok found) :
    ∀ s ∈ found, s.start ≤ s.stop ∧ s.stop ≤ data.length := by
  obtain ⟨parts, hparts, hspans, -⟩ := placed_of_samples h
  intro s hs
  apply bounds_of_parts hparts s.span
  rw [← hspans]
  exact List.mem_map_of_mem hs

/-- The samples of a segment that was written box by box. -/
theorem samples_write {f : Forest} (fits : f.Fits layout) (hend : f.write.length < 2 ^ 64) :
    samples track f.write =
      ((f.events layout 0).foldlM (step track f.write.length) ⟨0, .empty, []⟩).map fun p =>
        p.located.map (toSample f.write) := by
  rw [samples, Walk.trace_write fits hend, Trace.run]
  cases (f.events layout 0).foldlM (step track f.write.length) ⟨0, .empty, []⟩ <;> rfl

/-- No box that is met reaches past the segment. When extraction succeeds, every sample lies inside
the segment, and the samples are, in order, those that the runs of the track fragments place: one
for each entry, where the offsets and sizes say. -/
theorem samples_follow_runs (track : TrackEncryption) (data : Bytes) :
    (∀ e ∈ (Walk.trace layout false data).events, Walk.Within data.length e.box) ∧
      ∀ found, samples track data = .ok found →
        (∀ s ∈ found, s.start ≤ s.stop ∧ s.stop ≤ data.length ∧
          s.packet.data = data.slice s.start s.stop) ∧
        ∃ parts, List.Forall₂ (TrafPlaced data.length)
            (trafEnds [] (Walk.trace layout false data).events) parts ∧
          found.map Sample.span = parts.flatten := by
  refine ⟨Walk.within_trace data, ?_⟩
  intro found h
  obtain ⟨parts, hparts, hspans, hdata⟩ := placed_of_samples h
  refine ⟨?_, parts, hparts, hspans⟩
  intro s hs
  obtain ⟨hstart, hstop⟩ := samples_bounds h s hs
  exact ⟨hstart, hstop, (hdata s hs).1⟩

/-! ### Small segments -/

def clearTrack : TrackEncryption := ⟨⟨.none, false, 8, .zero, none⟩, Scheme.cenc.code⟩

def moofLabel : Label := ⟨.moof, none, false⟩

def trafLabel : Label := ⟨.traf, none, false⟩

/-- A header that makes offsets count from the movie fragment. -/
def tfhdLabel : Label := ⟨.tfhd, some ⟨0, 0x020000⟩, false⟩

/-- A run with an offset and with the size of every sample. -/
def trunLabel : Label := ⟨.trun, some ⟨0, 0x201⟩, false⟩

/-- Two runs in one fragment, the second one with neither an offset nor sizes of its own. -/
def twoRuns : Forest :=
  .node moofLabel
    (.node trafLabel
      (.leaf ⟨.tfhd, some ⟨0, 0x10⟩, false⟩ (Bytes.ofUInt32 1 ++ Bytes.ofUInt32 4)
        (.leaf trunLabel (writeTrackRun 0 [8])
          (.leaf ⟨.trun, some ⟨0, 0⟩, false⟩ (Bytes.ofNat 4 2) .nil)))
      .nil)
    .nil

theorem samples_twoRuns :
    ∃ found, samples clearTrack twoRuns.write = .ok found ∧
      found.map Sample.span = [(0, 8), (8, 12), (12, 16)] := by
  rw [samples_write (by decide) (by decide)]
  exact ⟨_, rfl, rfl⟩

theorem samples_follow_two_runs :
    ∃ found, samples clearTrack twoRuns.write = .ok found ∧
      (∀ s ∈ found, s.start ≤ s.stop ∧ s.stop ≤ twoRuns.write.length ∧
        s.packet.data = twoRuns.write.slice s.start s.stop) ∧
      ∃ parts, List.Forall₂ (TrafPlaced twoRuns.write.length)
          (trafEnds [] (Walk.trace layout false twoRuns.write).events) parts ∧
        [(0, 8), (8, 12), (12, 16)] = parts.flatten := by
  obtain ⟨found, hfound, hspans⟩ := samples_twoRuns
  refine ⟨found, hfound, ?_⟩
  rw [← hspans]
  exact (samples_follow_runs clearTrack twoRuns.write).2 found hfound

/-- A run that lies behind the fragment it should be in. -/
def runBehindFragment : Forest :=
  .node moofLabel
    (.node trafLabel
      (.leaf tfhdLabel (Bytes.ofUInt32 1) (.leaf trunLabel (writeTrackRun 0 [8]) .nil))
      (.leaf trunLabel (writeTrackRun 8 [8]) .nil))
    .nil

/-- A run in front of another fragment inside its own. -/
def runBeforeFragment : Forest :=
  .node moofLabel
    (.node trafLabel
      (.leaf trunLabel (writeTrackRun 0 [8])
        (.node trafLabel
          (.leaf tfhdLabel (Bytes.ofUInt32 1) (.leaf trunLabel (writeTrackRun 8 [8]) .nil))
          (.leaf tfhdLabel (Bytes.ofUInt32 1) .nil)))
      .nil)
    .nil

/-- How many entries each run of a written segment has. -/
def runEntries (f : Forest) : List (Except Error ℕ) :=
  (openedBoxes .trun (Walk.trace layout false f.write).events).map fun b =>
    (b.parse (b.readTrackRun f.write.length)).map fun run => run.sizes.length

theorem runs_without_samples :
    (runEntries runBehindFragment = [.ok 1, .ok 1] ∧
      (samples clearTrack runBehindFragment.write).map (List.map Sample.span) = .ok [(0, 8)]) ∧
    (runEntries runBeforeFragment = [.ok 1, .ok 1] ∧
      (samples clearTrack runBeforeFragment.write).map (List.map Sample.span) = .ok [(8, 16)]) := by
  rw [runEntries, runEntries, samples_write (by decide) (by decide),
    samples_write (by decide) (by decide),
    Walk.trace_write (by decide) (by decide),
    Walk.trace_write (by decide) (by decide)]
  exact ⟨⟨rfl, rfl⟩, rfl, rfl⟩

end Segment

end ProtectedMedia
