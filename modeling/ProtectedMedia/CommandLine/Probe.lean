import ProtectedMedia.CommandLine.Decrypt

/-!
# Showing the encryption of a segment

A head of labelled lines about the track, then one line for each sample: its number, where it
lies, its size, and either its initialization vector and subsamples or that it is clear.
-/

namespace ProtectedMedia.CommandLine.ProbeArgs

def field (color : Bool) (name value : String) : String :=
  paint color bold (name ++ ":") ++ " " ++ value

/-- The name of a scheme and what is logged about it; an unknown one is shown by its code. -/
def schemeName (track : TrackEncryption) : String × List Notice :=
  match Scheme.resolve track.scheme track.pattern with
  | .ok scheme => (scheme.name, [])
  | .error e => (track.scheme.display ++ " (unsupported)", e.notice?.toList)

def head (color : Bool) (track : TrackEncryption) : List String :=
  [field color "scheme" (schemeName track).1,
    field color "pattern"
      (toString track.pattern.crypt ++ ":" ++ toString track.pattern.skip),
    field color "protected" (if track.isProtected then "true" else "false"),
    field color "kid" (Hex.encode track.keyId.toBytes),
    match track.constantIv with
    | some iv => field color "constant iv" (Hex.encode iv)
    | none => field color "iv size" (toString track.ivSize)]

def layout (subsamples : List Subsample) : String :=
  if subsamples.isEmpty then "whole"
  else
    String.intercalate " "
      (subsamples.map fun s => toString s.clearBytes ++ "/" ++ toString s.protectedBytes)

/-- Number, place and size of a sample, in columns. -/
def location (number : Nat) (s : Sample) : String :=
  "#" ++ padRight 5 (toString number) ++ " " ++ padLeft 8 (toString s.start) ++ ".." ++
    padRight 8 (toString s.stop) ++ " " ++ padLeft 7 (toString s.packet.data.length) ++ " bytes"

def sampleLine (color : Bool) (number : Nat) (s : Sample) : Except Error String :=
  s.packet.encryptionInfo.map fun
    | some info =>
      location number s ++ " iv=" ++ paint color cyan (Hex.encode info.iv) ++ " " ++
        layout info.subsamples
    | none => location number s ++ " " ++ paint color dimmed "clear"

/-- The lines of samples from a number on, up to the first that cannot be shown. -/
def sampleLines (color : Bool) : Nat → List Sample → List String × Option Error
  | _, [] => ([], none)
  | number, s :: samples =>
    match sampleLine color number s with
    | .error e => ([], some e)
    | .ok line =>
      let (lines, e) := sampleLines color (number + 1) samples
      (line :: lines, e)

/-- The report on the samples of a segment. -/
def describe (color : Bool) (limit : Option Nat) (track : TrackEncryption) (segment : Bytes) :
    Report :=
  let notices := (schemeName track).2
  match Segment.samples track segment with
  | .error e => ⟨head color track, notices ++ e.notice?.toList, .failure e.chain⟩
  | .ok samples =>
    let shown := samples.take (limit.getD samples.length)
    let (lines, e) := sampleLines color 0 shown
    let all := head color track ++ field color "samples" (toString samples.length) :: lines
    match e with
    | none => ⟨all, notices, .success⟩
    | some e => ⟨all, notices ++ e.notice?.toList, .failure e.chain⟩

def load (readFile : ReadFile) (path : String) : Except (List String) Bytes :=
  match readFile path with
  | .ok data => .ok data
  | .error fault => .error ["cannot read " ++ path, fault.message]

/-- Reads the segment and the encryption of its track, which is in the init segment if one is given
and else in the segment itself. -/
def inputs (readFile : ReadFile) (args : ProbeArgs) :
    Except (List String) (TrackEncryption × Bytes) := do
  let segment ← load readFile args.input
  let init ←
    match args.init with
    | some path => load readFile path
    | none => pure segment
  match TrackEncryption.ofInit init with
  | .error e => throw e.chain
  | .ok none => throw ["no track encryption (tenc) box found, the track is not protected."]
  | .ok (some track) => return (track, segment)

def run (color : Bool) (readFile : ReadFile) (args : ProbeArgs) : Report :=
  match args.inputs readFile with
  | .error contexts => ⟨[], [], .failure contexts⟩
  | .ok (track, segment) => describe color args.limit track segment

end ProtectedMedia.CommandLine.ProbeArgs
