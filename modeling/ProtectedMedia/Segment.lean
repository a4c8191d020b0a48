import ProtectedMedia.Track

/-!
# The samples of a media segment

A segment consists of fragments. The fragment of a track has a header, runs of samples and, if the
track is protected, the encryption of each sample. Samples lie one after another from where their
run starts; a run without an offset of its own starts where the run before it ended. Offsets count
from the base of the fragment, which is that of its header or else the start of the movie fragment
that was opened last.
-/

namespace ProtectedMedia

/-- A sample: the bytes `start` up to `stop` of the segment, as a packet. -/
structure Sample where
  start : Nat
  stop : Nat
  packet : Packet
  deriving DecidableEq

namespace Segment

def layout : Layout :=
  [(.moof, ⟨false, .boxes⟩), (.traf, ⟨false, .boxes⟩), (.tfhd, ⟨true, .leaf⟩),
    (.trun, ⟨true, .leaf⟩), (.senc, ⟨true, .leaf⟩)]

/-- What is known of the fragment of a track. -/
structure Fragment where
  header : Option FragmentHeader
  runs : List TrackRun
  encryption : Option (List SampleEncryption)
  deriving DecidableEq

def Fragment.empty : Fragment := ⟨none, [], none⟩

/-- Where a sample lies, and its encryption if it is protected. -/
structure Located where
  start : Nat
  stop : Nat
  info : Option EncryptionInfo
  deriving DecidableEq

/-- Places samples of the given sizes one after another from a position on; yields where they lie
and the position after the last. Every sample has to lie inside the segment. -/
def placeSizes (header : FragmentHeader) (segment : Nat) :
    Nat → List (Option UInt32) → Except Error (List (Nat × Nat) × Nat)
  | position, [] => .ok ([], position)
  | position, own :: sizes =>
    match own <|> header.sampleSize with
    | none => .error (.box (.noSampleSize header.track))
    | some size =>
      let stop := position + size.toNat
      if segment < position then .error (.box (.sampleStart position size.toNat))
      else if segment < stop then .error (.box (.sampleEnd position stop segment))
      else do
        let (placed, last) ← placeSizes header segment stop sizes
        return ((position, stop) :: placed, last)

/-- The position at an offset from a base, which has to be a 64-bit position. -/
def positionAt (base : Nat) (offset : Int) : Except Error Nat :=
  let position := (base : Int) + offset
  if 0 ≤ position ∧ position < UInt64.size then .ok position.toNat
  else .error (.box (.runOffset offset))

def runStart (base position : Nat) (run : TrackRun) : Except Error Nat :=
  match run.offset with
  | none => .ok position
  | some offset => positionAt base offset

def placeRuns (header : FragmentHeader) (segment base : Nat) :
    Nat → List TrackRun → Except Error (List (Nat × Nat))
  | _, [] => .ok []
  | position, run :: runs => do
    let start ← runStart base position run
    let (placed, last) ← placeSizes header segment start run.sizes
    let others ← placeRuns header segment base last runs
    return placed ++ others

/-- The initialization vector of a sample: the constant one of the track if samples have none. -/
def sampleIv (track : TrackEncryption) (entry : SampleEncryption) : Bytes :=
  match track.constantIv with
  | some iv => if track.ivSize = 0 then iv else entry.iv
  | none => entry.iv

/-- Adds the encryption to samples that have been placed. -/
def protect (track : TrackEncryption) (header : FragmentHeader)
    (encryption : Option (List SampleEncryption)) (placed : List (Nat × Nat)) :
    Except Error (List Located) :=
  if !track.isProtected then .ok (placed.map fun (start, stop) => ⟨start, stop, none⟩)
  else
    match encryption with
    | none => .error (.unsupported (.sampleEncryption header.track))
    | some entries =>
      if entries.length ≠ placed.length then
        .error (.box (.sampleCount entries.length placed.length))
      else
        .ok (List.zipWith (fun (start, stop) entry =>
          ⟨start, stop, some (track.info (sampleIv track entry) entry.subsamples)⟩)
          placed entries)

def locate (track : TrackEncryption) (segment movie : Nat) (f : Fragment) :
    Except Error (List Located) :=
  match f.header with
  | none => .error (.box .noFragmentHeader)
  | some header => do
    let base := (header.baseOffset.map UInt64.toNat).getD movie
    let placed ← placeRuns header segment base base f.runs
    protect track header f.encryption placed

/-- What a walk through a segment has met so far: the start of the movie fragment that was opened
last, the fragment being read and the samples of those before it. -/
structure Progress where
  movie : Nat
  fragment : Fragment
  located : List Located
  deriving DecidableEq

/-- Reads a box inside the fragment of a track; of headers and encryptions the last one counts. -/
def readField (track : TrackEncryption) (segment : Nat) (f : Fragment) (b : Box) :
    Except Error Fragment :=
  if b.type = .tfhd then do
    return { f with header := some (← b.parse b.readFragmentHeader) }
  else if b.type = .trun then do
    return { f with runs := f.runs ++ [← b.parse (b.readTrackRun segment)] }
  else if b.type = .senc then do
    let entries ← b.parse (b.readSampleEncryption track.ivSize.toNat segment)
    return { f with encryption := some entries }
  else return f

/-- Takes a step through a segment of `segment` bytes. -/
def step (track : TrackEncryption) (segment : Nat) (p : Progress) : Event → Except Error Progress
  | .opened b =>
    if b.type = .moof then .ok { p with movie := b.start }
    else if b.type = .traf then .ok { p with fragment := .empty }
    else (readField track segment p.fragment b).map fun f => { p with fragment := f }
  | .closed b =>
    if b.type = .traf then
      (locate track segment p.movie p.fragment).map fun samples =>
        { p with fragment := .empty, located := p.located ++ samples }
    else .ok p

def toSample (segment : Bytes) (l : Located) : Sample :=
  let data := segment.slice l.start l.stop
  ⟨l.start, l.stop,
    match l.info with
    | some info => Packet.encrypted data info
    | none => Packet.ofData data⟩

/-- The samples of a segment, in the order of the fragments and runs. -/
def samples (track : TrackEncryption) (segment : Bytes) : Except Error (List Sample) := do
  let p ← (Walk.trace layout false segment).run (step track segment.length) ⟨0, .empty, []⟩
  return p.located.map (toSample segment)

end Segment

end ProtectedMedia
