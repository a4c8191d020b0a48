import ProtectedMedia.Text.Blank

/-!
# Media types

A media type names a container, audio or video, and may name one codec as a parameter. A type is
supported if the container and the codec are known and the codec is of the declared kind. Letter
case never matters, except that the codec is reported as it was written.
-/

namespace ProtectedMedia

inductive StreamType where
  | unknown
  | audio
  | video
  deriving DecidableEq, Inhabited

def StreamType.name : StreamType → String
  | .unknown => "unknown"
  | .audio => "audio"
  | .video => "video"

inductive Container where
  | mp4
  | webm
  | mp2t
  deriving DecidableEq

/-- The name of a container format, which is the subtype of its media types. -/
def Container.name : Container → String
  | .mp4 => "mp4"
  | .webm => "webm"
  | .mp2t => "mp2t"

structure ContentType where
  stream : StreamType
  container : Container
  codec : Option String
  deriving DecidableEq

namespace ContentType

/-- The known codec families of each stream type. -/
def families : List (StreamType × List String) :=
  [(.video, ["avc1", "avc3", "hvc1", "hev1", "vp8", "vp9", "vp09", "av01"]),
    (.audio, ["mp4a", "opus", "vorbis", "flac", "ac-3", "ec-3"])]

/-- The stream type of a codec by its family, the part before the first dot. -/
def codecStream? (codec : List Char) : Option StreamType :=
  let family := String.ofList (Text.lower (codec.takeWhile (· ≠ '.')))
  (families.find? fun (_, names) => names.contains family).map (·.1)

def streamOf? (name : List Char) : Option StreamType :=
  [StreamType.video, .audio].find? fun t => t.name.toList = name

def containerOf? (name : List Char) : Option Container :=
  [Container.mp4, .webm, .mp2t].find? fun c => c.name.toList = name

def essence? (text : List Char) : Option (StreamType × Container) := do
  let (kind, subtype) ← Text.splitOnce? '/' (Text.lower (Text.trim text))
  let stream ← streamOf? kind
  let container ← containerOf? subtype
  return (stream, container)

/-- The codecs that a parameter value lists, without the quotes around it. -/
def codecs (value : List Char) : List (List Char) :=
  ((Text.splitAll ',' (Text.trimWhile (· = '"') (Text.trim value))).map Text.trim).filter (· ≠ [])

/-- Reads the value of the codec parameter: exactly one codec, of the declared stream type. -/
def singleCodec? (stream : StreamType) (value : List Char) : Option (List Char) :=
  match codecs value with
  | [codec] => if codecStream? codec = some stream then some codec else none
  | _ => none

/-- Reads a parameter; `codec` is the codec named so far. Blank parameters and those of other names
count for nothing, and text that is no parameter spoils the type. -/
def parameter? (stream : StreamType) (codec : Option (List Char)) (text : List Char) :
    Option (Option (List Char)) :=
  match Text.splitOnce? '=' text with
  | none => if text.all Text.isBlank then some codec else none
  | some (key, value) =>
    if Text.lower (Text.trim key) = "codecs".toList then (singleCodec? stream value).map some
    else some codec

def parse? (mime : String) : Option ContentType :=
  match Text.splitAll ';' mime.toList with
  | [] => none
  | essence :: parameters => do
    let (stream, container) ← essence? essence
    let codec ← parameters.foldlM (parameter? stream) none
    return ⟨stream, container, codec.map String.ofList⟩

def isSupported (mime : String) : Bool := (parse? mime).isSome

end ContentType

end ProtectedMedia
