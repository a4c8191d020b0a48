import ProtectedMedia.Media.Registry
import ProtectedMedia.Media.Signal
import ProtectedMedia.Media.Source

/-!
# Sessions

A session holds any number of media sources, presentation elements and buffers, known by number in
the order of their creation, and one registry for all sources. A source is registered when it is
created and unregistered when it is dropped. What it handed out outlives it: its buffers, and the
client by which its pipeline sends signals to the element of the source. The element is held
weakly, so that a signal is lost if there is none or if it is gone.
-/

namespace ProtectedMedia

structure SourceSlot (κ : Type) where
  source : MediaSource κ
  alive : Bool

/-- Everything that lives at one time. A buffer is known by its source and its number there. -/
structure Session (κ : Type) where
  sources : List (SourceSlot κ)
  elements : List PresentationElement
  buffers : List (Nat × Nat)
  registry : Registry

namespace Session

inductive Request (κ : Type) where
  /-- Creates a source under the first of the urls that is not registered. -/
  | createSource (controller : κ) (urls : List String)
  | dropSource (source : Nat)
  | createElement
  | dropElement (element : Nat)
  | drainElement (element : Nat)
  /-- A command for a source; buffers are handed out under numbers of the session. -/
  | command (source : Nat) (command : MediaSource.Command)
  | findBuffer (source : Nat) (type : StreamType)
  | setUpdating (buffer : Nat) (updating : Bool)
  /-- A signal through the client of a source, or through one without source. -/
  | signal (client : Option Nat) (signal : Signal)
  | register (url : String) (source : Option Nat)
  | unregister (url : String)
  | lookup (url : String)

inductive Failure where
  | source (e : MediaSource.Failure)
  | registry (v : Registry.Violation)
  | unavailable
  deriving DecidableEq

inductive Answer where
  | nothing
  | number (n : Nat)
  | found (n : Option Nat)
  | events (events : List LifecycleEvent)
  | signals (signals : Option (List Signal))
  | lookup (source : Option Nat) (contained : Bool)
  deriving DecidableEq

variable {κ : Type}

def empty : Session κ := ⟨[], [], [], .empty⟩

def source? (s : Session κ) (n : Nat) : Option (MediaSource κ) :=
  match s.sources[n]? with
  | some slot => if slot.alive then some slot.source else none
  | none => none

/-- Replaces a source, which keeps existing or not as before. -/
def setSource (s : Session κ) (n : Nat) (source : MediaSource κ) : Session κ :=
  { s with sources := s.sources.modify n fun slot => { slot with source := source } }

/-- Creates a source and registers it. -/
def createSource (s : Session κ) (controller : κ) (urls : List String) :
    Except Failure Answer × Session κ :=
  match urls.find? fun url => !s.registry.contains url with
  | none => (.error .unavailable, s)
  | some url =>
    let n := s.sources.length
    let (result, registry) := s.registry.register url (some n)
    let s := { s with
      sources := s.sources ++ [⟨MediaSource.create url controller, true⟩]
      registry := registry }
    match result with
    | .error v => (.error (.registry v), s)
    | .ok () => (.ok (.number n), s)

/-- The end of a source. It is gone even if its url turns out not to be registered, and once it is
gone there is nothing left to do. -/
def dropSource (s : Session κ) (n : Nat) : Except Failure Answer × Session κ :=
  match s.sources[n]? with
  | none => (.error .unavailable, s)
  | some slot =>
    if !slot.alive then (.ok .nothing, s)
    else
      let (result, registry) := s.registry.unregister slot.source.url
      let s := { s with
        sources := s.sources.modify n fun slot => { slot with alive := false }
        registry := registry }
      match result with
      | .error v => (.error (.registry v), s)
      | .ok () => (.ok .nothing, s)

/-- Sends a signal to the element of a source. -/
def send (s : Session κ) (client : Option Nat) (signal : Signal) : Session κ :=
  match (client.bind fun n => s.sources[n]?).bind fun slot => slot.source.element with
  | none => s
  | some e => { s with elements := s.elements.modify e fun x => x.receive signal }

/-- The number that a buffer of a source has in the session. -/
def bufferNumber? (s : Session κ) (source buffer : Nat) : Option Nat :=
  s.buffers.idxOf? (source, buffer)

def lookup (s : Session κ) (url : String) : Option Nat :=
  match s.registry.find? url with
  | some (some n) => if (s.source? n).isSome then some n else none
  | _ => none

def ofRegistry (s : Session κ) (result : Except Registry.Violation Unit × Registry) :
    Except Failure Answer × Session κ :=
  match result with
  | (.ok (), registry) => (.ok .nothing, { s with registry := registry })
  | (.error v, registry) => (.error (.registry v), { s with registry := registry })

variable [PipelineController κ]

/-- Performs a command of a source. A new buffer gets the next number of the session. -/
def command (s : Session κ) (n : Nat) (c : MediaSource.Command) :
    Except Failure Answer × Session κ :=
  match s.source? n with
  | none => (.error .unavailable, s)
  | some source =>
    let (result, source) := source.perform c
    let s := s.setSource n source
    match result with
    | .error e => (.error (.source e), s)
    | .ok .nothing => (.ok .nothing, s)
    | .ok (.events events) => (.ok (.events events), s)
    | .ok (.buffer b) => (.ok (.number s.buffers.length), { s with buffers := s.buffers ++ [(n, b)] })

def perform (s : Session κ) : Request κ → Except Failure Answer × Session κ
  | .createSource controller urls => s.createSource controller urls
  | .dropSource n => s.dropSource n
  | .createElement =>
    (.ok (.number s.elements.length),
      { s with elements := s.elements ++ [PresentationElement.create] })
  | .dropElement e => (.ok .nothing, { s with elements := s.elements.modify e (·.drop) })
  | .drainElement e =>
    match s.elements[e]? with
    | none => (.error .unavailable, s)
    | some x => (.ok (.signals x.drain.1), { s with elements := s.elements.set e x.drain.2 })
  | .command n c => s.command n c
  | .findBuffer n type =>
    match s.source? n with
    | none => (.error .unavailable, s)
    | some source => (.ok (.found ((source.sourceBuffer? type).bind (s.bufferNumber? n))), s)
  | .setUpdating b updating =>
    match s.buffers[b]? with
    | none => (.error .unavailable, s)
    | some (n, b) =>
      match s.sources[n]? with
      | none => (.error .unavailable, s)
      | some slot => (.ok .nothing, s.setSource n (slot.source.setUpdating b updating))
  | .signal client signal => (.ok .nothing, s.send client signal)
  | .register url source => s.ofRegistry (s.registry.register url source)
  | .unregister url => s.ofRegistry (s.registry.unregister url)
  | .lookup url => (.ok (.lookup (s.lookup url) (s.registry.contains url)), s)

end Session

end ProtectedMedia
