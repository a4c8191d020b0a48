import ProtectedMedia.Binary64
import ProtectedMedia.Media.ContentType

/-!
# Playback pipelines

A pipeline decides which sources are admitted and owns the duration and the end of the stream. A
media source drives it through the operations of `PipelineController` and nothing else. The basic
pipeline admits one source of each stream type and plays nothing; the scripted one gives the
answers of a list and keeps what it was asked.
-/

namespace ProtectedMedia

inductive Admission where
  | admitted (type : StreamType)
  | unsupported
  | full
  deriving DecidableEq

/-- What a media source asks of a pipeline. -/
class PipelineController (κ : Type) where
  addSource : κ → String → Admission × κ
  endOfStream : κ → κ
  duration : κ → Binary64
  setDuration : κ → Binary64 → κ
  reset : κ → κ

/-- Admits one source of each stream type; plays nothing. -/
structure BasicPipeline where
  sources : List StreamType
  duration : Binary64
  ended : Bool
  deriving DecidableEq

namespace BasicPipeline

def initial : BasicPipeline := ⟨[], .nan, false⟩

def hasSource (p : BasicPipeline) (type : StreamType) : Bool := p.sources.contains type

/-- Admits a source if its media type is supported and none of its stream type is there. -/
def addSource (p : BasicPipeline) (mime : String) : Admission × BasicPipeline :=
  match ContentType.parse? mime with
  | none => (.unsupported, p)
  | some t =>
    if p.hasSource t.stream then (.full, p)
    else (.admitted t.stream, { p with sources := t.stream :: p.sources })

instance : PipelineController BasicPipeline where
  addSource := addSource
  endOfStream p := { p with ended := true }
  duration p := p.duration
  setDuration p d := { p with duration := d }
  reset _ := initial

end BasicPipeline

/-- What a scripted pipeline was asked; asking for the duration leaves no mark. -/
inductive PipelineCall where
  | addSource (mime : String)
  | endOfStream
  | setDuration (value : Binary64)
  | reset
  deriving DecidableEq

/-- Answers with the admissions of a list, the last one again and again, always reports one
duration and keeps its calls, latest last. -/
structure ScriptedPipeline where
  next : Admission
  later : List Admission
  duration : Binary64
  calls : List PipelineCall
  deriving DecidableEq

namespace ScriptedPipeline

def note (p : ScriptedPipeline) (call : PipelineCall) : ScriptedPipeline :=
  { p with calls := p.calls ++ [call] }

/-- Gives the next admission, whatever the media type. -/
def addSource (p : ScriptedPipeline) (mime : String) : Admission × ScriptedPipeline :=
  let p' := p.note (.addSource mime)
  match p.later with
  | [] => (p.next, p')
  | a :: later => (p.next, { p' with next := a, later := later })

instance : PipelineController ScriptedPipeline where
  addSource := addSource
  endOfStream p := p.note .endOfStream
  duration p := p.duration
  setDuration p d := p.note (.setDuration d)
  reset p := p.note .reset

def takeCalls (p : ScriptedPipeline) : List PipelineCall × ScriptedPipeline :=
  (p.calls, { p with calls := [] })

end ScriptedPipeline

/-- Two kinds of pipelines side by side. -/
instance {α β : Type} [PipelineController α] [PipelineController β] :
    PipelineController (α ⊕ β) where
  addSource
    | .inl p, mime => let (a, p) := PipelineController.addSource p mime; (a, .inl p)
    | .inr p, mime => let (a, p) := PipelineController.addSource p mime; (a, .inr p)
  endOfStream
    | .inl p => .inl (PipelineController.endOfStream p)
    | .inr p => .inr (PipelineController.endOfStream p)
  duration
    | .inl p => PipelineController.duration p
    | .inr p => PipelineController.duration p
  setDuration
    | .inl p, d => .inl (PipelineController.setDuration p d)
    | .inr p, d => .inr (PipelineController.setDuration p d)
  reset
    | .inl p => .inl (PipelineController.reset p)
    | .inr p => .inr (PipelineController.reset p)

end ProtectedMedia
