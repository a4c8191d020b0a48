import ProtectedMedia.Proofs.CommandLine.Decrypt
import ProtectedMedia.Proofs.Track.Joined

/-!
# Init segments in the first input

An init segment can be given as a file of its own, or it can stand at the front of the first input.
The output is the same.
-/
namespace ProtectedMedia

open Walk

/-- The types of the boxes that samples are found by. -/
def sampleTypes : List FourCC := [.moof, .traf, .tfhd, .trun, .senc]

/-- The types of the boxes that a media segment consists of. -/
def segmentTypes : List FourCC :=
  [.ofChars 's' 't' 'y' 'p', .ofChars 's' 'i' 'd' 'x', .moof, .ofChars 'm' 'd' 'a' 't']

/-- Whole boxes that describe a track and no samples. -/
structure IsInit (t : TrackEncryption) (data : Bytes) : Prop where
  framed : Framed data
  types : Consists (· ∉ sampleTypes) data
  found : TrackEncryption.ofInit data = .ok (some t)

/-- Boxes that describe and hold samples, in fragments that do not depend on where they stand. -/
structure IsMedia (data : Bytes) : Prop where
  types : Consists (· ∈ segmentTypes) data
  self : Segment.SelfContained data

variable {t : TrackEncryption} {init segment : Bytes}

theorem IsInit.unseen (h : IsInit t init) :
    Consists (fun type => Segment.layout.find? type = none) init := by
  refine h.types.mono fun type htype => ?_
  by_contra hfind
  obtain ⟨d, hd⟩ := Option.ne_none_iff_exists'.mp hfind
  apply htype
  rcases Segment.declared_of_find? hd with ⟨-, rfl | rfl⟩ | ⟨-, rfl | rfl | rfl⟩ <;> decide

theorem IsMedia.unseen (h : IsMedia segment) :
    Consists (fun type => TrackEncryption.layout.find? type = none) segment := by
  refine h.types.mono fun type htype => ?_
  simp only [segmentTypes, List.mem_cons, List.not_mem_nil, or_false] at htype
  rcases htype with rfl | rfl | rfl | rfl <;> rfl

namespace CommandLine.DecryptArgs

variable {readFile : ReadFile} {keys : KeyStore} {texts : List String} {output : String}
  {initPath path joined : String} {data : Bytes}

/-- What is to be written is the same. -/
theorem draft_joined (hinit : readFile initPath = .ok init) (hsegment : readFile path = .ok segment)
    (hjoined : readFile joined = .ok (init ++ segment)) (h : IsInit t init) (h' : IsMedia segment)
    (movable : Movable init.length segment) (hend : (init ++ segment).length < 2 ^ 63)
    (hdraft : (draft readFile ⟨[path], texts, some initPath, output⟩).result = .ok data) :
    (draft readFile ⟨[joined], texts, none, output⟩).result = .ok data := by
  obtain ⟨keys, inits, segments, track, plains, hgood, rfl⟩ := draft_eq_ok.mp hdraft
  obtain rfl : inits = [init] := (filesAt_singleton hinit).mp hgood.initRead
  obtain rfl : segments = [segment] := (filesAt_singleton hsegment).mp hgood.inputsRead
  have htrack : [init, segment].foldlM trackFor none = .ok (some t) := by
    rw [List.foldlM_cons, show trackFor none init = .ok (some t) from h.found]
    rfl
  obtain rfl : some t = track := Except.ok.inj (htrack.symm.trans hgood.found)
  cases hgood.decrypted with
  | @cons _ plain _ plains hbecomes hnil =>
      cases hnil
      obtain ⟨u, hu, hplain⟩ := hbecomes
      cases hu
      obtain ⟨hfound, hdecrypt⟩ := Segment.decrypt_joined (keys.oblivious_toModule Aes.cipher) h.found
        hplain h.framed movable h'.self hend h.unseen h'.unseen []
      have hfirst : [init ++ segment].foldlM trackFor none = .ok (some t) := by
        rw [List.foldlM_cons, show trackFor none (init ++ segment) = .ok (some t) from hfound]
        rfl
      refine draft_eq_ok.mpr ⟨keys, [], [init ++ segment], some t, [init ++ plain],
        ⟨hgood.stored, .nil, (filesAt_singleton hjoined).mpr rfl, hfirst,
          .cons ⟨t, rfl, hdecrypt⟩ .nil⟩, ?_⟩
      simp

/-- If a segment is decrypted with an init segment of its own file, then so are both in one file, with
the same output. No box of the segment may declare an end past the last 64-bit position from where it
stands then. -/
theorem init_joined {settings : Settings} {terminal : Bool} {url : String} {disk : Disk}
    (hinit : disk.read initPath = .ok init) (hsegment : disk.read path = .ok segment)
    (hjoined : disk.read joined = .ok (init ++ segment)) (h : IsInit t init) (h' : IsMedia segment)
    (movable : Movable init.length segment) (hend : (init ++ segment).length < 2 ^ 63)
    (hok : (Invocation.run ⟨settings, .decrypt ⟨[path], texts, some initPath, output⟩⟩ terminal url
      disk).1.exitCode = 0) :
    (Invocation.run ⟨settings, .decrypt ⟨[joined], texts, none, output⟩⟩ terminal url
        disk).1.exitCode = 0 ∧
      (Invocation.run ⟨settings, .decrypt ⟨[joined], texts, none, output⟩⟩ terminal url disk).2 =
        (Invocation.run ⟨settings, .decrypt ⟨[path], texts, some initPath, output⟩⟩ terminal url
          disk).2 := by
  rcases run_cases disk ⟨[path], texts, some initPath, output⟩ with
    ⟨data, hdraft, hwrite, -⟩ | ⟨hcode, -⟩
  · have hdraft' := draft_joined hinit hsegment hjoined h h' movable hend hdraft
    rcases run_cases disk ⟨[joined], texts, none, output⟩ with
      ⟨data', hdraft'', hwrite', hcode⟩ | ⟨-, -, hfault⟩
    · obtain rfl : data' = data := Except.ok.inj (hdraft''.symm.trans hdraft')
      exact ⟨hcode, Except.ok.inj (hwrite'.symm.trans hwrite)⟩
    · obtain ⟨fault, hfault⟩ := hfault data hdraft'
      exact absurd (hwrite.symm.trans hfault) nofun
  · exact absurd (hok.symm.trans hcode) nofun

/-- One track with vectors of eight bytes and the key identifier zero. -/
def zeroInit : Bytes :=
  TrackEncryption.plainBox .moov (TrackEncryption.trackOf (TrackEncryption.videoEntry
    (TrackEncryption.schemeBox Scheme.cenc.code ++ TrackEncryption.defaultsBox 0)))

/-- An init segment, a media segment, and both in one file. -/
def joinedFiles (segment : Bytes) : Disk :=
  Disk.ofFiles [("init", zeroInit), ("segment", segment), ("joined", zeroInit ++ segment)]

theorem read_joinedFiles (segment : Bytes) :
    (joinedFiles segment).read "init" = .ok zeroInit ∧
      (joinedFiles segment).read "segment" = .ok segment ∧
      (joinedFiles segment).read "joined" = .ok (zeroInit ++ segment) := by
  have hplain : ∀ name ∈ ["init", "segment", "joined"],
      Path.ofText name = .ok ⟨false, [name], false⟩ ∧ Path.fitsName name = true ∧
        name ≠ "." ∧ name ≠ ".." := by
    decide +kernel
  have hread {name : String} {data : Bytes} (hname : name ∈ ["init", "segment", "joined"])
      (h : (joinedFiles segment).files.lookup (Disk.Location.workingDirectory.child name) =
        some data) :
      (joinedFiles segment).read name = .ok data := by
    obtain ⟨hpath, hfits, hdots⟩ := hplain name hname
    exact Disk.read_of_lookup hpath hfits hdots h
  exact ⟨hread (by simp) rfl, hread (by simp) rfl, hread (by simp) rfl⟩

def zeroKeys : List String :=
  ["00000000000000000000000000000000:00000000000000000000000000000000"]

theorem isInit_zeroInit : IsInit Segment.cencTrack zeroInit := by
  have hself : SelfSized zeroInit := by decide +kernel
  have htype : boxType zeroInit ∉ sampleTypes := by decide
  have hall : zeroInit = zeroInit ++ [] := (List.append_nil _).symm
  refine ⟨?_, ?_, by decide +kernel⟩
  · rw [hall]
    exact .cons hself .nil
  · rw [hall]
    exact .append hself htype .nil

theorem init_joined_two_samples :
    IsMedia Segment.twoSamples.segment ∧
      (Invocation.run ⟨⟨.auto, 0, false⟩, .decrypt ⟨["joined"], zeroKeys, none, "out"⟩⟩ false "blob:a"
          (joinedFiles Segment.twoSamples.segment)).1.exitCode = 0 ∧
      (Invocation.run ⟨⟨.auto, 0, false⟩, .decrypt ⟨["joined"], zeroKeys, none, "out"⟩⟩ false "blob:a"
          (joinedFiles Segment.twoSamples.segment)).2 =
        (Invocation.run ⟨⟨.auto, 0, false⟩, .decrypt ⟨["segment"], zeroKeys, some "init", "out"⟩⟩
          false "blob:a" (joinedFiles Segment.twoSamples.segment)).2 := by
  have hzero : zeroInit.length < 2 ^ 31 := by decide +kernel
  have hsegment := Segment.length_twoSamples
  have hsize : (zeroInit ++ Segment.twoSamples.segment).length < 2 ^ 32 := by
    rw [List.length_append]
    omega
  have hmedia : IsMedia Segment.twoSamples.segment :=
    ⟨consists_write (Segment.twoSamples.fits hsegment) (hsegment.trans (by decide))
      (List.forall_iff_forall_mem.mp (by decide)), Segment.selfContained_twoSamples⟩
  have movable : Movable zeroInit.length Segment.twoSamples.segment := by
    apply Segment.framed_twoSamples.movable
    rw [← List.length_append]
    omega
  have hok : (Invocation.run ⟨⟨.auto, 0, false⟩, .decrypt ⟨["segment"], zeroKeys, some "init", "out"⟩⟩
      false "blob:a" (joinedFiles Segment.twoSamples.segment)).1.exitCode = 0 := by decide +kernel
  obtain ⟨hinit, hread, hjoined⟩ := read_joinedFiles Segment.twoSamples.segment
  exact ⟨hmedia, init_joined hinit hread hjoined isInit_zeroInit hmedia movable (by omega) hok⟩

/-- A box of media data that declares to end at the last 64-bit position. -/
def longestData : Bytes :=
  Bytes.ofNat 4 1 ++ Bytes.ofUInt32 Muxing.mdatLabel.type ++ Bytes.ofNat 8 (2 ^ 64 - 1)

/-- Behind an init segment, the end that such a box declares is no position any more. -/
theorem longest_data_behind_init :
    IsInit Segment.cencTrack zeroInit ∧ IsMedia longestData ∧
      (joinedFiles longestData).read "init" = .ok zeroInit ∧
      (joinedFiles longestData).read "segment" = .ok longestData ∧
      (joinedFiles longestData).read "joined" = .ok (zeroInit ++ longestData) ∧
      (Invocation.run ⟨⟨.auto, 0, false⟩, .decrypt ⟨["segment"], zeroKeys, some "init", "out"⟩⟩
        false "blob:a" (joinedFiles longestData)).1.exitCode = 0 ∧
      (Invocation.run ⟨⟨.auto, 0, false⟩, .decrypt ⟨["joined"], zeroKeys, none, "out"⟩⟩ false "blob:a"
        (joinedFiles longestData)).1.exitCode = 1 := by
  have hmedia : IsMedia longestData := by
    refine ⟨consists_of_length_lt (by decide) (by decide), ?_, ?_⟩
    · decide +kernel
    · decide +kernel
  obtain ⟨hinit, hread, hjoined⟩ := read_joinedFiles longestData
  exact ⟨isInit_zeroInit, hmedia, hinit, hread, hjoined, by decide +kernel, by decide +kernel⟩

end CommandLine.DecryptArgs

end ProtectedMedia
