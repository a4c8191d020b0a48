import ProtectedMedia.CommandLine.Disk
import ProtectedMedia.CommandLine.Report
import ProtectedMedia.DecryptionModule.KeyText
import ProtectedMedia.Segment.Decrypt

/-!
# Decrypting segments into a file

The keys are read, then the init segment if one is given, then one segment after another. The
track that was found first stays the track for all segments. Only when every segment has been
decrypted is there anything to write: the init segment and all decrypted segments in one piece.
-/

namespace ProtectedMedia.CommandLine

/-- What a command reads files with. -/
abbrev ReadFile := String → Except FileFault Bytes

/-- Notices on the way, and either the bytes to write or the contexts of a failure. -/
structure Draft where
  notices : List Notice
  result : Except (List String) Bytes

namespace Draft

def failed (contexts : List String) : Draft := ⟨[], .error contexts⟩

def ofError (context : List String) (e : Error) : Draft :=
  ⟨e.notice?.toList, .error (context ++ e.chain)⟩

/-- A draft with notices and bytes before its own. -/
def after (notices : List Notice) (data : Bytes) (d : Draft) : Draft :=
  ⟨notices ++ d.notices, d.result.map (data ++ ·)⟩

end Draft

namespace DecryptArgs

def readKeys : List String → KeyStore → Except (List String) KeyStore
  | [], keys => .ok keys
  | text :: texts, keys =>
    match keys.add (.pair text) with
    | .ok keys => readKeys texts keys
    | .error e => .error (("invalid --key " ++ text) :: e.chain)

/-- A warning if the default key of a protected track is not there. -/
def keyWarning (keys : KeyStore) (track : TrackEncryption) : List Notice :=
  if track.isProtected && !keys.contains track.keyId.toBytes then
    [⟨.warning, "no key given for default KID " ++ Hex.encode track.keyId.toBytes⟩]
  else []

def decryptSegment (keys : KeyStore) (path : String) (track : TrackEncryption) (segment : Bytes) :
    Draft :=
  let warnings := keyWarning keys track
  match Segment.decrypt (keys.toModule Aes.cipher) track segment [] with
  | (.ok plain, refusals) => ⟨warnings ++ refusals.map (·.notice), .ok plain⟩
  | (.error e, refusals) =>
    ⟨warnings ++ refusals.map (·.notice) ++ e.notice?.toList,
      .error (("cannot decrypt " ++ path) :: e.chain)⟩

/-- The track to decrypt a segment with: the one found before, or else that of the segment. -/
def trackFor (track : Option TrackEncryption) (segment : Bytes) :
    Except Error (Option TrackEncryption) :=
  match track with
  | some t => .ok (some t)
  | none => TrackEncryption.ofInit segment

def decryptInputs (readFile : ReadFile) (keys : KeyStore) :
    List String → Option TrackEncryption → Draft
  | [], _ => ⟨[], .ok []⟩
  | path :: paths, track =>
    match readFile path with
    | .error fault => .failed ["cannot read " ++ path, fault.message]
    | .ok segment =>
      match trackFor track segment with
      | .error e => .ofError [] e
      | .ok none =>
        .failed [path ++
          " has no track encryption (tenc) box, pass the init segment using --init."]
      | .ok (some track) =>
        let first := decryptSegment keys path track segment
        match first.result with
        | .error _ => first
        | .ok plain => (decryptInputs readFile keys paths (some track)).after first.notices plain

/-- Everything up to the writing of the output. -/
def draft (readFile : ReadFile) (args : DecryptArgs) : Draft :=
  match readKeys args.keys .empty with
  | .error contexts => .failed contexts
  | .ok keys =>
    if keys.entries.isEmpty then .ofError [] .noKeys
    else
      match args.init with
      | none => decryptInputs readFile keys args.inputs none
      | some path =>
        match readFile path with
        | .error fault => .failed ["cannot read " ++ path, fault.message]
        | .ok init =>
          match TrackEncryption.ofInit init with
          | .error e => .ofError [] e
          | .ok track => (decryptInputs readFile keys args.inputs track).after [] init

/-- The report on a draft, given how the writing of its bytes went. -/
def report (args : DecryptArgs) (d : Draft) (written : Bytes → Option FileFault) : Report :=
  match d.result with
  | .error contexts => ⟨[], d.notices, .failure contexts⟩
  | .ok data =>
    match written data with
    | none => ⟨[], d.notices, .success⟩
    | some fault =>
      ⟨[], d.notices, .failure ["cannot write " ++ args.output, fault.message]⟩

/-- Decrypts on a disk. -/
def run (disk : Disk) (args : DecryptArgs) : Report × Disk :=
  let d := args.draft disk.read
  match d.result with
  | .error _ => (args.report d fun _ => none, disk)
  | .ok data =>
    match disk.write args.output data with
    | .error fault => (args.report d fun _ => some fault, disk)
    | .ok disk => (args.report d fun _ => none, disk)

end DecryptArgs

end ProtectedMedia.CommandLine
