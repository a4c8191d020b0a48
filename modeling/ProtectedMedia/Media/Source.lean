import ProtectedMedia.Media.Pipeline
import ProtectedMedia.Media.Precondition

/-!
# Media sources

A media source is attached to a presentation element and detached from it again. While it is open,
source buffers can be added, each for one stream type and each with the consent of the pipeline.
Buffers stay in the hands of whoever asked for them, so a source keeps all it ever handed out;
those that are registered are the ones added since it was last attached.

Every operation answers with a result and the source it leaves behind. There are two kinds of
failure: a `ScriptError`, which scripts have to expect, and a `Violation`, which a correct caller
and a correct pipeline never cause.
-/

namespace ProtectedMedia

/-- A buffer that was handed out. Whoever appends data says when it is updating. -/
structure SourceBuffer where
  type : StreamType
  updating : Bool
  attached : Bool
  deriving DecidableEq

/-- Cuts a buffer off from its source. -/
def SourceBuffer.close (b : SourceBuffer) : SourceBuffer :=
  { b with attached := false, updating := false }

inductive LifecycleEvent where
  | sourceOpen
  | sourceEnded
  | sourceClose
  deriving DecidableEq

inductive EndOfStreamError where
  | network
  | decode
  deriving DecidableEq

/-- A media source that drives a pipeline of type `κ`. Buffers and elements are known by number. -/
structure MediaSource (κ : Type) where
  readyState : ReadyState
  url : String
  controller : κ
  buffers : List SourceBuffer
  registered : List (StreamType × Nat)
  element : Option Nat
  events : List LifecycleEvent
  deriving DecidableEq

namespace MediaSource

/-- A broken promise of the caller or of the pipeline. -/
inductive Violation where
  | alreadyAttached
  | notAttached
  /-- The pipeline admitted a source of no known type. -/
  | unknownType
  /-- The pipeline admitted a second source of a type. -/
  | secondBuffer (type : StreamType)
  deriving DecidableEq

def Violation.message : Violation → String
  | .alreadyAttached => "MediaSource already attached to a presentation element."
  | .notAttached => "MediaSource not attached to a presentation element."
  | .unknownType => "pipeline admitted a source of unknown type"
  | .secondBuffer type => type.name ++ " SourceBuffer already registered"

inductive Failure where
  | script (e : ScriptError)
  | violation (v : Violation)
  deriving DecidableEq

inductive Command where
  | attach (element : Nat)
  | detach
  | addSourceBuffer (mime : String)
  | setUpdating (buffer : Nat) (updating : Bool)
  | endOfStream (error : Option EndOfStreamError)
  | setDuration (value : Binary64)
  | takeEvents
  /-- A member of the script surface that has no implementation. -/
  | member (name : String)
  deriving DecidableEq

inductive Answer where
  | nothing
  | buffer (number : Nat)
  | events (events : List LifecycleEvent)
  deriving DecidableEq

variable {κ : Type}

def create (url : String) (controller : κ) : MediaSource κ :=
  ⟨.closed, url, controller, [], [], none, []⟩

def sourceBuffer? (s : MediaSource κ) (type : StreamType) : Option Nat := s.registered.lookup type

def anyUpdating (s : MediaSource κ) : Bool :=
  s.registered.any fun (_, n) => (s.buffers[n]?).any (·.updating)

def check (s : MediaSource κ) (operation : Operation) : Except ScriptError Unit :=
  (Precondition.evaluate operation s.readyState s.anyUpdating).check operation

/-- Attaches to an element and opens. -/
def attach (s : MediaSource κ) (element : Nat) : Except Failure Answer × MediaSource κ :=
  if s.readyState ≠ .closed then (.error (.violation .alreadyAttached), s)
  else
    (.ok .nothing,
      { s with
        readyState := .opened
        element := some element
        events := s.events ++ [.sourceOpen] })

/-- The buffers with the one of a number cut off. -/
def closeBuffer (buffers : List SourceBuffer) (entry : StreamType × Nat) : List SourceBuffer :=
  buffers.modify entry.2 SourceBuffer.close

variable [PipelineController κ]

/-- Lets go of the element, resets the pipeline and cuts off every registered buffer. -/
def detach (s : MediaSource κ) : Except Failure Answer × MediaSource κ :=
  if s.readyState = .closed then (.error (.violation .notAttached), s)
  else
    (.ok .nothing,
      { s with
        readyState := .closed
        element := none
        controller := PipelineController.reset s.controller
        buffers := s.registered.foldl closeBuffer s.buffers
        registered := []
        events := s.events ++ [.sourceClose] })

def registerBuffer (s : MediaSource κ) (type : StreamType) :
    Except Failure Answer × MediaSource κ :=
  if type = .unknown then (.error (.violation .unknownType), s)
  else if (s.sourceBuffer? type).isSome then (.error (.violation (.secondBuffer type)), s)
  else
    let number := s.buffers.length
    (.ok (.buffer number),
      { s with
        buffers := s.buffers ++ [⟨type, false, true⟩]
        registered := s.registered ++ [(type, number)] })

/-- Adds a buffer if the source is open and the pipeline admits the media type. -/
def addSourceBuffer (s : MediaSource κ) (mime : String) :
    Except Failure Answer × MediaSource κ :=
  match s.check .addSourceBuffer with
  | .error e => (.error (.script e), s)
  | .ok () =>
    let (admission, controller) := PipelineController.addSource s.controller mime
    let s := { s with controller := controller }
    match admission with
    | .unsupported => (.error (.script (.unsupportedType mime)), s)
    | .full => (.error (.script .noMoreBuffers), s)
    | .admitted type => s.registerBuffer type

/-- Announces the end of the stream, which is not possible with an error. -/
def endOfStream (s : MediaSource κ) (error : Option EndOfStreamError) :
    Except Failure Answer × MediaSource κ :=
  match s.check .endOfStream with
  | .error e => (.error (.script e), s)
  | .ok () =>
    if error.isSome then (.error (.script .endWithError), s)
    else
      (.ok .nothing,
        { s with
          readyState := .ended
          controller := PipelineController.endOfStream s.controller
          events := s.events ++ [.sourceEnded] })

/-- The duration of the presentation, which is the pipeline's business. -/
def duration (s : MediaSource κ) : Binary64 := PipelineController.duration s.controller

/-- Sets the duration. That it is a number is checked before anything else. -/
def setDuration (s : MediaSource κ) (value : Binary64) : Except Failure Answer × MediaSource κ :=
  if value.isNaN then (.error (.script .durationNaN), s)
  else
    match s.check .setDuration with
    | .error e => (.error (.script e), s)
    | .ok () =>
      (.ok .nothing, { s with controller := PipelineController.setDuration s.controller value })

omit [PipelineController κ] in
def setUpdating (s : MediaSource κ) (buffer : Nat) (updating : Bool) : MediaSource κ :=
  { s with buffers := s.buffers.modify buffer fun b => { b with updating := updating } }

def perform (s : MediaSource κ) : Command → Except Failure Answer × MediaSource κ
  | .attach element => s.attach element
  | .detach => s.detach
  | .addSourceBuffer mime => s.addSourceBuffer mime
  | .setUpdating buffer updating => (.ok .nothing, s.setUpdating buffer updating)
  | .endOfStream error => s.endOfStream error
  | .setDuration value => s.setDuration value
  | .takeEvents => (.ok (.events s.events), { s with events := [] })
  | .member name => (.error (.script (.notImplemented name)), s)

end MediaSource

end ProtectedMedia
