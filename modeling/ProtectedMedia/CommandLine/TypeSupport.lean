import ProtectedMedia.Binary64.Decimal
import ProtectedMedia.CommandLine.Report
import ProtectedMedia.Media.Source

/-!
# Checking media types

Every type is reported as supported or not. On request a media source is opened, a buffer is added
for every type, the duration is set if there is one, and the stream is ended.
-/

namespace ProtectedMedia.CommandLine.TypeArgs

def supportLine (color : Bool) (mime : String) : String :=
  (if ContentType.isSupported mime then paint color green "supported"
    else paint color red "unsupported") ++ " " ++ mime

abbrev Source := MediaSource BasicPipeline

def failureText : MediaSource.Failure → String
  | .script e => e.message
  | .violation v => v.message

def addLine (color : Bool) (mime : String) (result : Except MediaSource.Failure MediaSource.Answer)
    (s : Source) : String :=
  match result with
  | .ok (.buffer n) =>
    let type := ((s.buffers[n]?).map fun b => b.type.name).getD StreamType.unknown.name
    paint color green "added" ++ " " ++ type ++ " source buffer for " ++ mime
  | .ok _ => paint color green "added" ++ " " ++ mime
  | .error e => paint color red "rejected" ++ " " ++ mime ++ ": " ++ failureText e

def addAll (color : Bool) : List String → Source → List String × Source
  | [], s => ([], s)
  | mime :: types, s =>
    let (result, s) := s.perform (.addSourceBuffer mime)
    let line := addLine color mime result s
    let (lines, s) := addAll color types s
    (line :: lines, s)

/-- The notice of the state that a source is in. -/
def stateNotice (s : Source) : Notice := ⟨.info, s.url ++ " is " ++ s.readyState.name⟩

/-- Sets the duration, if there is one to set. -/
def setDuration (duration : Option Binary64) (s : Source) :
    Except MediaSource.Failure (List Notice) × Source :=
  match duration with
  | none => (.ok [], s)
  | some d =>
    let (result, s) := s.perform (.setDuration d)
    (result.map fun _ => [⟨.info, "duration set to " ++ s.duration.toText ++ "s"⟩], s)

/-- Ends the stream after the duration was set, and says how it went. -/
def finish (duration : Option Binary64) (s : Source) : List Notice × Ending :=
  match setDuration duration s with
  | (.error e, _) => ([], .failure [failureText e])
  | (.ok notices, s) =>
    match s.perform (.endOfStream none) with
    | (.error e, _) => (notices, .failure [failureText e])
    | (.ok _, s) => (notices ++ [stateNotice s], .success)

def session (color : Bool) (url : String) (args : TypeArgs) : Report :=
  let (_, opened) := (MediaSource.create url BasicPipeline.initial).perform (.attach 0)
  let (lines, s) := addAll color args.types opened
  let (notices, ending) := finish args.duration s
  ⟨lines, stateNotice opened :: notices, ending⟩

def run (color : Bool) (url : String) (args : TypeArgs) : Report :=
  let lines := args.types.map (supportLine color)
  if args.add then
    let r := args.session color url
    { r with lines := lines ++ r.lines }
  else ⟨lines, [], .success⟩

end ProtectedMedia.CommandLine.TypeArgs
