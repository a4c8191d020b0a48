/-!
# What a media source may be asked when

A source is closed until it is attached, then open, and ended once its end was announced. Three
operations need it open; two of them also need every buffer at rest. The state is looked at before
the buffers.
-/

namespace ProtectedMedia

inductive ReadyState where
  | closed
  | opened
  | ended
  deriving DecidableEq, Inhabited

def ReadyState.name : ReadyState → String
  | .closed => "closed"
  | .opened => "open"
  | .ended => "ended"

inductive Operation where
  | addSourceBuffer
  | endOfStream
  | setDuration
  deriving DecidableEq

/-- A failure as scripts see it, by cause. -/
inductive ScriptError where
  | notOpen (operation : Operation)
  /-- A buffer is updating; adding a buffer never fails for that. -/
  | updating (operation : Operation)
  | noMoreBuffers
  | unsupportedType (mime : String)
  | endWithError
  | durationNaN
  | notImplemented (member : String)
  deriving DecidableEq

namespace ScriptError

inductive Kind where
  | invalidState
  | notSupported
  | type
  | notImplemented
  deriving DecidableEq

def kind : ScriptError → Kind
  | .notOpen .addSourceBuffer => .notSupported
  | .notOpen _ => .invalidState
  | .updating _ => .invalidState
  | .noMoreBuffers => .notSupported
  | .unsupportedType _ => .notSupported
  | .endWithError => .notSupported
  | .durationNaN => .type
  | .notImplemented _ => .notImplemented

def reason : ScriptError → String
  | .notOpen .addSourceBuffer => "Cannot add any additional SourceBuffer objects."
  | .notOpen .endOfStream => "Cannot call endOfStream() unless MediaSource is \"open\"."
  | .notOpen .setDuration => "Cannot change duration unless MediaSource is \"open\"."
  | .updating .addSourceBuffer => "Cannot add a SourceBuffer when a SourceBuffer is updating."
  | .updating .endOfStream => "Cannot call endOfStream() when a SourceBuffer is updating."
  | .updating .setDuration => "Cannot change duration when a SourceBuffer is updating."
  | .noMoreBuffers => "Cannot add any additional SourceBuffer objects."
  | .unsupportedType mime => "The given type ('" ++ mime ++ "') is unsupported."
  | .endWithError => "Calling endOfStream() with an argument is not supported."
  | .durationNaN => "Cannot set duration to NaN."
  | .notImplemented member => "MediaSource." ++ member ++ " is not implemented"

def Kind.label : Kind → String
  | .invalidState => "InvalidStateError: "
  | .notSupported => "NotSupportedError: "
  | .type => "TypeError: "
  | .notImplemented => ""

def message (e : ScriptError) : String := e.kind.label ++ e.reason

end ScriptError

inductive Precondition where
  | satisfied
  | notOpen
  | updating
  deriving DecidableEq

namespace Precondition

/-- The precondition of an operation in a state, given whether any buffer is updating. -/
def evaluate (operation : Operation) (state : ReadyState) (anyUpdating : Bool) : Precondition :=
  if state ≠ .opened then .notOpen
  else if operation ≠ .addSourceBuffer ∧ anyUpdating then .updating
  else .satisfied

/-- The error of an operation whose precondition fails. Updating buffers never stand in the way of
adding one. -/
def check (p : Precondition) (operation : Operation) : Except ScriptError Unit :=
  match p with
  | .satisfied => .ok ()
  | .notOpen => .error (.notOpen operation)
  | .updating => if operation = .addSourceBuffer then .ok () else .error (.updating operation)

end Precondition

end ProtectedMedia
