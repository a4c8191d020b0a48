import ProtectedMedia.Proofs.Segment.Samples

/-!
# What the boxes of a track fragment say

Of the headers in a track fragment and of the encryptions the last one counts; the runs come one
after the other. So what is known of the fragment depends on the headers, on the runs and on the
encryptions, each in their order, and not on how they stand between each other.
-/
namespace ProtectedMedia.Segment

variable {track : TrackEncryption} {limit : ℕ} {f g : Fragment} {b : Box} {bs bs' : List Box}
  {headers : List FragmentHeader} {runs : List TrackRun} {tables : List (List SampleEncryption)}

def ofType (type : FourCC) (bs : List Box) : List Box := bs.filter fun b => b.type = type

theorem ofType_cons_self {type : FourCC} (h : b.type = type) :
    ofType type (b :: bs) = b :: ofType type bs := by
  simp [ofType, h]

theorem ofType_cons_other {type : FourCC} (h : b.type ≠ type) :
    ofType type (b :: bs) = ofType type bs := by
  simp [ofType, h]

/-- The boxes say these headers, runs and encryptions, each in their order. -/
structure Says (track : TrackEncryption) (limit : ℕ) (bs : List Box)
    (headers : List FragmentHeader) (runs : List TrackRun)
    (tables : List (List SampleEncryption)) : Prop where
  headers : List.Forall₂ (fun (b : Box) header => b.parse b.readFragmentHeader = .ok header)
    (ofType .tfhd bs) headers
  runs : List.Forall₂ (fun (b : Box) run => b.parse (b.readTrackRun limit) = .ok run)
    (ofType .trun bs) runs
  tables : List.Forall₂ (fun (b : Box) entries =>
    b.parse (b.readSampleEncryption track.ivSize.toNat limit) = .ok entries)
    (ofType .senc bs) tables

/-- What is known of a fragment when more has been said about it. -/
def Fragment.adding (f : Fragment) (headers : List FragmentHeader) (runs : List TrackRun)
    (tables : List (List SampleEncryption)) : Fragment :=
  ⟨headers.getLast?.or f.header, f.runs ++ runs, tables.getLast?.or f.encryption⟩

theorem getLast?_cons_or {α : Type} (a : α) (l : List α) (x : Option α) :
    (a :: l).getLast?.or x = l.getLast?.or (some a) := by
  rw [List.getLast?_cons]
  cases l.getLast? <;> rfl

theorem Fragment.adding_header {header : FragmentHeader} :
    f.adding (header :: headers) runs tables =
      { f with header := some header }.adding headers runs tables := by
  rw [adding, adding, getLast?_cons_or]

theorem Fragment.adding_run {run : TrackRun} :
    f.adding headers (run :: runs) tables =
      { f with runs := f.runs ++ [run] }.adding headers runs tables := by
  rw [adding, adding, List.append_assoc, List.singleton_append]

theorem Fragment.adding_encryption {entries : List SampleEncryption} :
    f.adding headers runs (entries :: tables) =
      { f with encryption := some entries }.adding headers runs tables := by
  rw [adding, adding, getLast?_cons_or]

/-- What the first box says comes before what the others say. -/
theorem Says.cons (h : Says track limit bs headers runs tables)
    (hread : FieldRead track limit f b g) :
    ∃ headers' runs' tables', Says track limit (b :: bs) headers' runs' tables' ∧
      f.adding headers' runs' tables' = g.adding headers runs tables := by
  cases hread with
  | @header header htype hparse =>
      refine ⟨header :: headers, runs, tables, ⟨?_, ?_, ?_⟩, Fragment.adding_header⟩
      · rw [ofType_cons_self htype]
        exact .cons hparse h.headers
      · rw [ofType_cons_other (by rw [htype]; decide)]
        exact h.runs
      · rw [ofType_cons_other (by rw [htype]; decide)]
        exact h.tables
  | @run run htype hparse =>
      refine ⟨headers, run :: runs, tables, ⟨?_, ?_, ?_⟩, Fragment.adding_run⟩
      · rw [ofType_cons_other (by rw [htype]; decide)]
        exact h.headers
      · rw [ofType_cons_self htype]
        exact .cons hparse h.runs
      · rw [ofType_cons_other (by rw [htype]; decide)]
        exact h.tables
  | @encryption entries htype hparse =>
      refine ⟨headers, runs, entries :: tables, ⟨?_, ?_, ?_⟩, Fragment.adding_encryption⟩
      · rw [ofType_cons_other (by rw [htype]; decide)]
        exact h.headers
      · rw [ofType_cons_other (by rw [htype]; decide)]
        exact h.runs
      · rw [ofType_cons_self htype]
        exact .cons hparse h.tables
  | other htfhd htrun hsenc =>
      refine ⟨headers, runs, tables, ⟨?_, ?_, ?_⟩, rfl⟩
      · rw [ofType_cons_other htfhd]
        exact h.headers
      · rw [ofType_cons_other htrun]
        exact h.runs
      · rw [ofType_cons_other hsenc]
        exact h.tables

theorem Says.uncons (h : Says track limit (b :: bs) headers runs tables) (f : Fragment) :
    ∃ g headers' runs' tables', FieldRead track limit f b g ∧
      Says track limit bs headers' runs' tables' ∧
      f.adding headers runs tables = g.adding headers' runs' tables' := by
  obtain ⟨hheaders, hruns, htables⟩ := h
  by_cases htfhd : b.type = .tfhd
  · have htrun : b.type ≠ .trun := by rw [htfhd]; decide
    have hsenc : b.type ≠ .senc := by rw [htfhd]; decide
    rw [ofType_cons_self htfhd] at hheaders
    rw [ofType_cons_other htrun] at hruns
    rw [ofType_cons_other hsenc] at htables
    cases hheaders with
    | cons hparse hheaders =>
        exact ⟨_, _, _, _, .header htfhd hparse, ⟨hheaders, hruns, htables⟩, Fragment.adding_header⟩
  rw [ofType_cons_other htfhd] at hheaders
  by_cases htrun : b.type = .trun
  · have hsenc : b.type ≠ .senc := by rw [htrun]; decide
    rw [ofType_cons_self htrun] at hruns
    rw [ofType_cons_other hsenc] at htables
    cases hruns with
    | cons hparse hruns =>
        exact ⟨_, _, _, _, .run htrun hparse, ⟨hheaders, hruns, htables⟩, Fragment.adding_run⟩
  rw [ofType_cons_other htrun] at hruns
  by_cases hsenc : b.type = .senc
  · rw [ofType_cons_self hsenc] at htables
    cases htables with
    | cons hparse htables =>
        exact ⟨_, _, _, _, .encryption hsenc hparse, ⟨hheaders, hruns, htables⟩,
          Fragment.adding_encryption⟩
  · rw [ofType_cons_other hsenc] at htables
    exact ⟨_, _, _, _, .other htfhd htrun hsenc, ⟨hheaders, hruns, htables⟩, rfl⟩

/-- Reading the boxes of a fragment one after the other. -/
theorem foldlM_readField_eq_ok : bs.foldlM (readField track limit) f = .ok g ↔
    ∃ headers runs tables, Says track limit bs headers runs tables ∧
      g = f.adding headers runs tables := by
  induction bs generalizing f with
  | nil =>
      constructor
      · intro h
        cases h
        exact ⟨[], [], [], ⟨.nil, .nil, .nil⟩, by simp [Fragment.adding]⟩
      · rintro ⟨headers, runs, tables, ⟨⟨⟩, ⟨⟩, ⟨⟩⟩, rfl⟩
        simp [Fragment.adding]
        rfl
  | cons b bs ih =>
      rw [List.foldlM_cons, Error.bind_eq_ok]
      constructor
      · rintro ⟨next, hread, hrest⟩
        obtain ⟨headers, runs, tables, hsays, rfl⟩ := ih.mp hrest
        obtain ⟨headers', runs', tables', hall, hsame⟩ := hsays.cons (readField_eq_ok.mp hread)
        exact ⟨headers', runs', tables', hall, hsame.symm⟩
      · rintro ⟨headers, runs, tables, hsays, rfl⟩
        obtain ⟨next, headers', runs', tables', hread, hrest, hsame⟩ := hsays.uncons f
        exact ⟨next, readField_eq_ok.mpr hread, ih.mpr ⟨_, _, _, hrest, hsame⟩⟩

/-- Boxes with the same headers, runs and encryptions, each in their order, say the same. -/
theorem foldlM_readField_congr (hheaders : ofType .tfhd bs' = ofType .tfhd bs)
    (hruns : ofType .trun bs' = ofType .trun bs) (htables : ofType .senc bs' = ofType .senc bs)
    (h : bs.foldlM (readField track limit) f = .ok g) :
    bs'.foldlM (readField track limit) f = .ok g := by
  obtain ⟨headers, runs, tables, hsays, rfl⟩ := foldlM_readField_eq_ok.mp h
  refine foldlM_readField_eq_ok.mpr ⟨headers, runs, tables, ⟨?_, ?_, ?_⟩, rfl⟩
  · rw [hheaders]
    exact hsays.headers
  · rw [hruns]
    exact hsays.runs
  · rw [htables]
    exact hsays.tables

end ProtectedMedia.Segment
