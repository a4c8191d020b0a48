import ProtectedMedia.Error
import ProtectedMedia.Media.ContentType

/-!
# Signals to a presentation element

While a pipeline plays it tells the element that its source is attached to how things stand. The
element keeps what it was told until somebody asks.
-/

namespace ProtectedMedia

inductive MediaReadyState where
  | haveNothing
  | haveMetadata
  | haveCurrentData
  | haveFutureData
  | haveEnoughData
  deriving DecidableEq

inductive PipelineStatus where
  | initializing
  | playing
  | paused
  | seekingPlay
  | seekingPause
  | stalled
  | ended
  | errored
  deriving DecidableEq

inductive MediaError where
  | decrypt (e : Error)
  | decode (reason : String)
  | demux (reason : String)
  deriving DecidableEq

def MediaError.message : MediaError → String
  | .decrypt e => "decryption failed: " ++ e.message
  | .decode reason => "decode failed: " ++ reason
  | .demux reason => "demux failed: " ++ reason

inductive InitDataType where
  | cenc
  | keyIds
  | webm
  deriving DecidableEq

/-- One thing that an element is told. -/
inductive Signal where
  | readyState (state : MediaReadyState)
  | pipelineStatus (status : PipelineStatus)
  | mediaError (source : StreamType) (e : MediaError)
  | waitingForKey
  | encrypted (type : InitDataType) (data : Bytes)
  deriving DecidableEq

/-- A presentation element: whether it still exists, and what it was told, latest last. -/
structure PresentationElement where
  alive : Bool
  inbox : List Signal
  deriving DecidableEq

namespace PresentationElement

def create : PresentationElement := ⟨true, []⟩

/-- Tells an element something; one that is gone does not hear it. -/
def receive (e : PresentationElement) (signal : Signal) : PresentationElement :=
  if e.alive then { e with inbox := e.inbox ++ [signal] } else e

/-- Hands over what an element was told; one that is gone has nothing to hand over. -/
def drain (e : PresentationElement) : Option (List Signal) × PresentationElement :=
  if e.alive then (some e.inbox, { e with inbox := [] }) else (none, e)

def drop (e : PresentationElement) : PresentationElement := { e with alive := false, inbox := [] }

end PresentationElement

end ProtectedMedia
