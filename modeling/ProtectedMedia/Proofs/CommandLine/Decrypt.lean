import ProtectedMedia.CommandLine.Run
import ProtectedMedia.Proofs.CommandLine.Disk
import ProtectedMedia.Proofs.Segment.Frame
import ProtectedMedia.Proofs.Track.Found

/-!
# Decrypting all or nothing

A decryption needs all of its keys, files and segments. The track is the one of the init segment or,
if that describes none, of the first input, and never changes after that. Only if everything went well
is anything written: the init segment and the decrypted inputs, as many bytes as were read.
-/
namespace ProtectedMedia

theorem Segment.length_decrypt {σ : Type} {m : DecryptionModule σ} {track : TrackEncryption}
    {segment out : Bytes} {s : σ} (h : (decrypt m track segment s).1 = .ok out) :
    out.length = segment.length := by
  obtain ⟨found, hfound, hok⟩ := decrypt_eq_ok h
  exact (decryptSamples_frame (inside_of_samples hfound) rfl hok).1

namespace CommandLine

theorem Draft.after_eq_ok {d : Draft} {notices : List Notice} {data all : Bytes} :
    (d.after notices data).result = .ok all ↔ ∃ rest, d.result = .ok rest ∧ all = data ++ rest := by
  rw [after]
  cases d.result with
  | error contexts => simp [Except.map]
  | ok rest => simp [Except.map, eq_comm]

/-- The files at these paths. -/
def FilesAt (readFile : ReadFile) : List String → List Bytes → Prop :=
  List.Forall₂ fun path data => readFile path = .ok data

theorem filesAt_singleton {readFile : ReadFile} {path : String} {data : Bytes}
    (h : readFile path = .ok data) {files : List Bytes} :
    FilesAt readFile [path] files ↔ files = [data] := by
  constructor
  · rintro (_ | ⟨hdata, hnil⟩)
    cases hnil
    rw [h] at hdata
    cases hdata
    rfl
  · rintro rfl
    exact .cons h .nil

namespace DecryptArgs

variable {readFile : ReadFile} {keys : KeyStore} {path : String} {paths : List String}
  {track : Option TrackEncryption} {t : TrackEncryption} {segment plain data : Bytes}
  {segments plains : List Bytes}

/-- What a segment becomes with the keys and a track. -/
def Becomes (keys : KeyStore) (track : Option TrackEncryption) (segment plain : Bytes) : Prop :=
  ∃ t ∈ track, (Segment.decrypt (keys.toModule Aes.cipher) t segment []).1 = .ok plain

/-- Everything that a decryption needs is there, and nothing is wrong with it. -/
structure Succeeds (readFile : ReadFile) (args : DecryptArgs) (keys : KeyStore)
    (inits segments : List Bytes) (track : Option TrackEncryption) (plains : List Bytes) :
    Prop where
  stored : KeyStore.build (args.keys.map .pair) = .ok keys
  initRead : FilesAt readFile args.init.toList inits
  inputsRead : FilesAt readFile args.inputs segments
  /-- The track is that of the init segment or else that of the first input. -/
  found : (inits ++ segments.take 1).foldlM trackFor none = .ok track
  decrypted : List.Forall₂ (Becomes keys track) segments plains

/-! ### Keys -/

theorem readKeys_eq_ok {texts : List String} {keys' : KeyStore} :
    readKeys texts keys = .ok keys' ↔ (texts.map .pair).foldlM KeyStore.add keys = .ok keys' := by
  induction texts generalizing keys with
  | nil => exact ⟨fun h => by cases h; rfl, fun h => by cases h; rfl⟩
  | cons text texts ih =>
      rw [readKeys, List.map_cons, List.foldlM_cons]
      cases keys.add (.pair text) with
      | error e => exact ⟨nofun, nofun⟩
      | ok next => exact ih

theorem build_eq_ok {texts : List String} :
    KeyStore.build (texts.map .pair) = .ok keys ↔
      readKeys texts .empty = .ok keys ∧ keys.entries.isEmpty = false := by
  rw [readKeys_eq_ok, KeyStore.build, Error.bind_eq_ok]
  constructor
  · rintro ⟨read, hread, h⟩
    cases hempty : read.entries.isEmpty with
    | true =>
        rw [if_pos hempty] at h
        cases h
    | false =>
        rw [if_neg (by simp [hempty])] at h
        cases h
        exact ⟨hread, hempty⟩
  · rintro ⟨hread, hempty⟩
    exact ⟨keys, hread, by rw [if_neg (by simp [hempty])]; rfl⟩

/-! ### Inputs -/

theorem decryptSegment_eq_ok :
    (decryptSegment keys path t segment).result = .ok plain ↔
      (Segment.decrypt (keys.toModule Aes.cipher) t segment []).1 = .ok plain := by
  rw [decryptSegment]
  rcases Segment.decrypt (keys.toModule Aes.cipher) t segment [] with ⟨e | out, refusals⟩
  · exact ⟨nofun, nofun⟩
  · exact ⟨fun h => congrArg _ (Except.ok.inj h), fun h => congrArg _ (Except.ok.inj h)⟩

/-- One input is decrypted, and with the track that it leaves behind so are the others. -/
theorem decryptInputs_cons_eq_ok :
    (decryptInputs readFile keys (path :: paths) track).result = .ok data ↔
      ∃ segment t plain rest, readFile path = .ok segment ∧
        trackFor track segment = .ok (some t) ∧
        (Segment.decrypt (keys.toModule Aes.cipher) t segment []).1 = .ok plain ∧
        (decryptInputs readFile keys paths (some t)).result = .ok rest ∧ data = plain ++ rest := by
  rw [decryptInputs]
  cases readFile path with
  | error fault => simp [Draft.failed]
  | ok segment =>
      dsimp only
      cases htrack : trackFor track segment with
      | error e => simp [Draft.ofError, htrack]
      | ok found =>
          cases found with
          | none => simp [Draft.failed, htrack]
          | some t =>
              have hsegment : ∀ plain, (decryptSegment keys path t segment).result = .ok plain ↔ _ :=
                fun _ => decryptSegment_eq_ok
              cases hfirst : (decryptSegment keys path t segment).result with
              | error contexts => simp [hfirst, htrack, ← hsegment]
              | ok plain => simp [hfirst, htrack, ← hsegment, Draft.after_eq_ok]

/-- The track stays what it is. -/
theorem decryptInputs_some_eq_ok :
    (decryptInputs readFile keys paths (some t)).result = .ok data ↔
      ∃ segments plains, FilesAt readFile paths segments ∧
        List.Forall₂ (Becomes keys (some t)) segments plains ∧ data = plains.flatten := by
  induction paths generalizing data with
  | nil =>
      constructor
      · intro h
        cases h
        exact ⟨[], [], .nil, .nil, rfl⟩
      · rintro ⟨segments, plains, hread, hplains, rfl⟩
        cases hread
        cases hplains
        rfl
  | cons path paths ih =>
      rw [decryptInputs_cons_eq_ok]
      constructor
      · rintro ⟨segment, u, plain, rest, hread, htrack, hplain, hrest, rfl⟩
        cases htrack
        obtain ⟨segments, plains, hreads, hplains, rfl⟩ := ih.mp hrest
        exact ⟨segment :: segments, plain :: plains, .cons hread hreads,
          .cons ⟨t, rfl, hplain⟩ hplains, rfl⟩
      · rintro ⟨_, _, hread, hplains, rfl⟩
        cases hread with
        | @cons _ segment _ segments hread hreads =>
            cases hplains with
            | @cons _ plain _ plains hplain hplains =>
                obtain ⟨u, hu, hplain⟩ := hplain
                cases hu
                exact ⟨segment, t, plain, _, hread, rfl, hplain,
                  ih.mpr ⟨segments, plains, hreads, hplains, rfl⟩, rfl⟩

/-- The first input may have to tell the track, and then all are decrypted with it. -/
theorem decryptInputs_eq_ok :
    (decryptInputs readFile keys paths track).result = .ok data ↔
      ∃ segments found plains, FilesAt readFile paths segments ∧
        (segments.take 1).foldlM trackFor track = .ok found ∧
        List.Forall₂ (Becomes keys found) segments plains ∧ data = plains.flatten := by
  cases paths with
  | nil =>
      constructor
      · intro h
        cases h
        exact ⟨[], track, [], .nil, rfl, .nil, rfl⟩
      · rintro ⟨segments, found, plains, hread, -, hplains, rfl⟩
        cases hread
        cases hplains
        rfl
  | cons path paths =>
      rw [decryptInputs_cons_eq_ok]
      constructor
      · rintro ⟨segment, t, plain, rest, hread, htrack, hplain, hrest, rfl⟩
        obtain ⟨segments, plains, hreads, hplains, rfl⟩ := decryptInputs_some_eq_ok.mp hrest
        refine ⟨segment :: segments, some t, plain :: plains, .cons hread hreads, ?_,
          .cons ⟨t, rfl, hplain⟩ hplains, rfl⟩
        rw [List.take_succ_cons, List.take_zero, List.foldlM_cons, htrack]
        rfl
      · rintro ⟨_, found, _, hread, htrack, hplains, rfl⟩
        cases hread with
        | @cons _ segment _ segments hread hreads =>
            cases hplains with
            | @cons _ plain _ plains hplain hplains =>
                obtain ⟨t, ht, hplain⟩ := hplain
                cases ht
                rw [List.take_succ_cons, List.take_zero, List.foldlM_cons] at htrack
                obtain ⟨found, hfirst, hfound⟩ := Error.bind_eq_ok.mp htrack
                cases hfound
                exact ⟨segment, t, plain, _, hread, hfirst, hplain,
                  decryptInputs_some_eq_ok.mpr ⟨segments, plains, hreads, hplains, rfl⟩, rfl⟩

/-! ### The whole command -/

/-- The init segment, if there is one, comes before the inputs. -/
theorem draft_eq_ok_of_keys {args : DecryptArgs} (hkeys : readKeys args.keys .empty = .ok keys)
    (hsome : keys.entries.isEmpty = false) :
    (args.draft readFile).result = .ok data ↔ ∃ inits track rest,
      FilesAt readFile args.init.toList inits ∧ inits.foldlM trackFor none = .ok track ∧
        (decryptInputs readFile keys args.inputs track).result = .ok rest ∧
        data = inits.flatten ++ rest := by
  rw [draft, hkeys]
  simp only [hsome, Bool.false_eq_true, if_false]
  cases args.init with
  | none =>
      constructor
      · exact fun h => ⟨[], none, data, .nil, rfl, h, rfl⟩
      · rintro ⟨inits, track, rest, hread, htrack, hrest, rfl⟩
        cases hread
        cases htrack
        exact hrest
  | some path =>
      dsimp only
      cases hread : readFile path with
      | error fault =>
          constructor
          · exact nofun
          · rintro ⟨inits, track, rest, _ | ⟨h, -⟩, -⟩
            rw [hread] at h
            cases h
      | ok init =>
          have htrack : [init].foldlM trackFor none = TrackEncryption.ofInit init := bind_pure _
          dsimp only
          simp only [Option.toList_some, filesAt_singleton hread, exists_and_left, exists_eq_left,
            htrack, List.flatten_singleton]
          cases TrackEncryption.ofInit init with
          | error e => simp [Draft.ofError]
          | ok track => simp [Draft.after_eq_ok]

theorem exists_keys {args : DecryptArgs} (h : (args.draft readFile).result = .ok data) :
    ∃ keys, KeyStore.build (args.keys.map .pair) = .ok keys := by
  rw [draft] at h
  cases hread : readKeys args.keys .empty with
  | error contexts =>
      rw [hread] at h
      cases h
  | ok keys =>
      cases hempty : keys.entries.isEmpty with
      | true =>
          simp only [hread, hempty, if_true] at h
          cases h
      | false => exact ⟨keys, build_eq_ok.mpr ⟨hread, hempty⟩⟩

/-- There is something to write just when everything goes well. -/
theorem draft_eq_ok {args : DecryptArgs} :
    (args.draft readFile).result = .ok data ↔ ∃ keys inits segments track plains,
      Succeeds readFile args keys inits segments track plains ∧ data = (inits ++ plains).flatten := by
  constructor
  · intro h
    obtain ⟨keys, hstored⟩ := exists_keys h
    obtain ⟨hkeys, hsome⟩ := build_eq_ok.mp hstored
    obtain ⟨inits, first, rest, hread, hfirst, hrest, rfl⟩ := (draft_eq_ok_of_keys hkeys hsome).mp h
    obtain ⟨segments, track, plains, hreads, htrack, hplains, rfl⟩ := decryptInputs_eq_ok.mp hrest
    refine ⟨keys, inits, segments, track, plains, ⟨hstored, hread, hreads, ?_, hplains⟩, ?_⟩
    · rw [List.foldlM_append, hfirst]
      exact htrack
    · rw [List.flatten_append]
  · rintro ⟨keys, inits, segments, track, plains, h, rfl⟩
    obtain ⟨hkeys, hsome⟩ := build_eq_ok.mp h.stored
    have hfound := h.found
    rw [List.foldlM_append, Error.bind_eq_ok] at hfound
    obtain ⟨first, hfirst, htrack⟩ := hfound
    rw [draft_eq_ok_of_keys hkeys hsome, List.flatten_append]
    exact ⟨inits, first, plains.flatten, h.initRead, hfirst,
      decryptInputs_eq_ok.mpr ⟨segments, track, plains, h.inputsRead, htrack, h.decrypted, rfl⟩, rfl⟩

/-- As many bytes are written as were read. -/
theorem Succeeds.length_eq {args : DecryptArgs} {inits : List Bytes}
    (h : Succeeds readFile args keys inits segments track plains) :
    (inits ++ plains).flatten.length = ((inits ++ segments).map List.length).sum := by
  have hlengths : ∀ {segments plains}, List.Forall₂ (Becomes keys track) segments plains →
      plains.map List.length = segments.map List.length := by
    intro segments plains hplains
    induction hplains with
    | nil => rfl
    | cons hplain _ ih =>
        obtain ⟨t, -, hplain⟩ := hplain
        rw [List.map_cons, List.map_cons, Segment.length_decrypt hplain, ih]
  rw [List.length_flatten, List.map_append, List.map_append, hlengths h.decrypted]

/-- A run ends with the disk on which the draft was written, or else with a failure and the disk as it
was. -/
theorem run_cases (disk : Disk) (args : DecryptArgs) :
    (∃ data, (args.draft disk.read).result = .ok data ∧
        disk.write args.output data = .ok (args.run disk).2 ∧ (args.run disk).1.exitCode = 0) ∨
      ((args.run disk).1.exitCode = 1 ∧ (args.run disk).2 = disk ∧
        ∀ data, (args.draft disk.read).result = .ok data →
          ∃ fault, disk.write args.output data = .error fault) := by
  rw [run]
  cases hdraft : (args.draft disk.read).result with
  | error contexts =>
      have hcode : (args.report (args.draft disk.read) fun _ => none).exitCode = 1 := by
        simp only [report, hdraft, Report.exitCode]
      exact .inr ⟨hcode, rfl, nofun⟩
  | ok data =>
      dsimp only
      cases hwrite : disk.write args.output data with
      | error fault =>
          have hcode : (args.report (args.draft disk.read) fun _ => some fault).exitCode = 1 := by
            simp only [report, hdraft, Report.exitCode]
          refine .inr ⟨hcode, rfl, fun other hother => ⟨fault, ?_⟩⟩
          cases hother
          exact hwrite
      | ok disk' =>
          have hcode : (args.report (args.draft disk.read) fun _ => none).exitCode = 0 := by
            simp only [report, hdraft, Report.exitCode]
          exact .inl ⟨data, rfl, hwrite, hcode⟩

/-- A decryption either ends well, and then the output is what was read of the init segment and all
decrypted inputs in order, one track for all of them and as many bytes as were read; or it ends with a
failure and leaves the disk as it was, and then something was wrong with a key, a file, the track or a
segment, or the output could not be written. -/
theorem decryption_all_or_nothing (settings : Settings) (args : DecryptArgs) (terminal : Bool)
    (url : String) (disk : Disk) :
    let ran := Invocation.run ⟨settings, .decrypt args⟩ terminal url disk
    (ran.1.exitCode = 0 ∧ ∃ keys inits segments track plains,
        Succeeds disk.read args keys inits segments track plains ∧
        disk.write args.output (inits ++ plains).flatten = .ok ran.2 ∧
        (ran.2.read args.output = .ok (inits ++ plains).flatten ∨
          Disk.locate disk.resolveTarget args.output = .ok .nullDevice) ∧
        (inits ++ plains).flatten.length = ((inits ++ segments).map List.length).sum) ∨
      (ran.1.exitCode = 1 ∧ ran.2 = disk ∧ ∀ keys inits segments track plains,
        Succeeds disk.read args keys inits segments track plains →
          ∃ fault, disk.write args.output (inits ++ plains).flatten = .error fault) := by
  intro ran
  rcases run_cases disk args with ⟨data, hdraft, hwrite, hcode⟩ | ⟨hcode, hdisk, hfault⟩
  · obtain ⟨keys, inits, segments, track, plains, h, rfl⟩ := draft_eq_ok.mp hdraft
    exact .inl ⟨hcode, keys, inits, segments, track, plains, h, hwrite, Disk.read_write hwrite,
      h.length_eq⟩
  · refine .inr ⟨hcode, hdisk, fun keys inits segments track plains h => ?_⟩
    exact hfault _ (draft_eq_ok.mpr ⟨keys, inits, segments, track, plains, h, rfl⟩)

/-- An init segment, two segments of media data and one that breaks off inside a header. -/
def tornFiles : Disk :=
  Disk.ofFiles [("init", TrackEncryption.pairedTracks), ("first", Muxing.mdatLabel.write [1, 2]),
    ("second", Muxing.mdatLabel.write [3]), ("torn", Bytes.ofNat 4 1 ++ Bytes.ofNat 4 0)]

def tornArgs (inputs : List String) : DecryptArgs where
  inputs := inputs
  keys := ["01010101010101010101010101010101:00000000000000000000000000000000"]
  init := some "init"
  output := "out"

theorem torn_segment_spoils_decryption :
    (∃ keys inits segments track plains,
      Succeeds tornFiles.read (tornArgs ["first", "second"]) keys inits segments track plains ∧
        (inits ++ plains).flatten = TrackEncryption.pairedTracks ++
          (Muxing.mdatLabel.write [1, 2] ++ Muxing.mdatLabel.write [3])) ∧
      (run tornFiles (tornArgs ["first", "second", "torn"])).2 = tornFiles ∧
      ∀ keys inits segments track plains, ¬Succeeds tornFiles.read
        (tornArgs ["first", "second", "torn"]) keys inits segments track plains := by
  constructor
  · rcases decryption_all_or_nothing ⟨.auto, 0, false⟩ (tornArgs ["first", "second"]) false "blob:a"
      tornFiles with ⟨-, keys, inits, segments, track, plains, h, -, hread | hnull, -⟩ | ⟨hcode, -⟩
    · refine ⟨keys, inits, segments, track, plains, h, ?_⟩
      have hout : (run tornFiles (tornArgs ["first", "second"])).2.read "out" =
          .ok (TrackEncryption.pairedTracks ++
            (Muxing.mdatLabel.write [1, 2] ++ Muxing.mdatLabel.write [3])) := by decide +kernel
      exact Except.ok.inj (hread.symm.trans hout)
    · have hplace : Disk.locate tornFiles.resolveTarget "out" ≠ .ok .nullDevice := by decide +kernel
      exact absurd hnull hplace
    · have hzero : (run tornFiles (tornArgs ["first", "second"])).1.exitCode ≠ 1 := by
        decide +kernel
      exact absurd hcode hzero
  · rcases decryption_all_or_nothing ⟨.auto, 0, false⟩ (tornArgs ["first", "second", "torn"]) false
      "blob:a" tornFiles with ⟨hcode, -⟩ | ⟨-, hdisk, hfault⟩
    · have hone : (run tornFiles (tornArgs ["first", "second", "torn"])).1.exitCode ≠ 0 := by
        decide +kernel
      exact absurd hcode hone
    · refine ⟨hdisk, fun keys inits segments track plains h => ?_⟩
      obtain ⟨fault, hwrite⟩ := hfault keys inits segments track plains h
      have hplace : Disk.locate tornFiles.resolveTarget "out" =
          .ok (.absent ⟨.above 0, ["out"]⟩) := by decide +kernel
      rw [show (tornArgs ["first", "second", "torn"]).output = "out" from rfl, Disk.write,
        hplace] at hwrite
      cases hwrite

end DecryptArgs

end CommandLine

end ProtectedMedia
