import ProtectedMedia.Box

/-!
# Walking boxes

A walk goes through data box by box, into the boxes that hold boxes and past those that are not
declared. It yields a trace: every declared box as it is opened and, after everything inside it,
as it is closed, in the order of the data, up to the first fault. What is done about the boxes is
left to a handler, which runs over the trace; a handler that fails cuts the trace there.

A walk is lenient if the data may end inside a box, and strict otherwise.
-/

namespace ProtectedMedia

/-- A step of a walk. -/
inductive Event where
  | opened (box : Box)
  | closed (box : Box)
  deriving DecidableEq

/-- What a walk comes across, and why it ended early if it did. -/
structure Trace where
  events : List Event
  fault : Option BoxFault
  deriving DecidableEq

namespace Trace

def done : Trace := ⟨[], none⟩

def failed (fault : BoxFault) : Trace := ⟨[], some fault⟩

def after (events : List Event) (t : Trace) : Trace := ⟨events ++ t.events, t.fault⟩

def boxes (t : Trace) : List Box :=
  t.events.filterMap fun
    | .opened box => some box
    | .closed _ => none

/-- Runs a handler over a trace. The first failure counts, be it of the handler or of the walk. -/
def run {τ : Type} (handler : τ → Event → Except Error τ) (t : Trace) (start : τ) :
    Except Error τ := do
  let s ← t.events.foldlM handler start
  match t.fault with
  | none => return s
  | some fault => throw (.box fault)

end Trace

namespace Walk

structure Header where
  type : FourCC
  size : Nat
  wide : Bool

/-- The size that a size field stands for: zero means everything that is `left` from the start of
the box, and one that the size follows in 64 bits. -/
def resolveSize (left field : Nat) : Reader BoxFault Nat :=
  if field = 0 then pure left
  else if field = 1 then Reader.unsigned 8
  else pure field

/-- Refuses a size that does not cover the `used` bytes of its own fields, and one that leads past
the last 64-bit position. -/
def checkSize (type : FourCC) (start size used : Nat) : Reader BoxFault Unit :=
  if size < used then throw (.sizeBelowHeader type size)
  else if UInt64.size ≤ start + size then throw (.sizeOverflow type size)
  else pure ()

def header : Reader BoxFault Header := do
  let start ← get
  let field ← Reader.unsigned 4
  let type ← Reader.word
  let size ← resolveSize start.remaining field
  checkSize type start.position size (if field = 1 then 16 else 8)
  return ⟨type, size, field = 1⟩

def fullHeader : Reader BoxFault FullHeader := do
  let word ← Reader.word
  return ⟨word >>> 24, word &&& 0xffffff⟩

/-- Moves over `n` bytes, or to the end of the data if fewer are left. -/
def pass (n : Nat) : Reader BoxFault Unit :=
  modify fun c => if c.rest.atLeast n then c.forward n else c.toEnd

/-- Reads the next `n` bytes. If fewer are left, a lenient walk takes those. -/
def payload (lenient : Bool) (type : FourCC) (n : Nat) : Reader BoxFault Bytes := do
  let c ← get
  if c.rest.atLeast n then Reader.bytes n
  else if lenient then Reader.bytes c.remaining
  else throw (.pastEnd type)

/-- Version and flags, if the box is declared to have them. -/
def fullHeader? (full : Bool) : Reader BoxFault (Option FullHeader) :=
  if full then some <$> fullHeader else pure none

def passBox (start : Nat) (h : Header) : Reader BoxFault Unit := do
  let c ← get
  pass (start + h.size - c.position)

/-- Reads what follows the size and type fields of a box that starts at `start`. -/
def readBox (lenient : Bool) (base start : Nat) (h : Header) (full : Bool) :
    Reader BoxFault Box := do
  let full ← fullHeader? full
  let c ← get
  let data ← payload lenient h.type (start + h.size - c.position)
  return ⟨h.type, base + start, h.size, full, h.wide, data⟩

/-- Moves over the rest of a box; yields it if its type is declared. -/
def body (layout : Layout) (lenient : Bool) (base start : Nat) (h : Header) :
    Reader BoxFault (Option (Box × Declaration)) :=
  match layout.find? h.type with
  | none => (fun _ => none) <$> passBox start h
  | some declaration =>
    (fun b => some (b, declaration)) <$> readBox lenient base start h declaration.full

/-- Reads one box and moves behind it; yields it if its type is declared. Positions of the cursor
count from `base` of the whole data. -/
def box (layout : Layout) (lenient : Bool) (base : Nat) :
    Reader BoxFault (Option (Box × Declaration)) := do
  let start ← get
  let h ← header
  body layout lenient base start.position h

/-- The bytes of audio parameters that follow the common ones, by version of the entry. -/
def audioExtension (version : Nat) : Nat :=
  match version with
  | 2 => 48
  | 1 => 28
  | _ => 12

def audioFields : Reader BoxFault Unit := do
  Reader.skip 8
  let version ← Reader.unsigned 2
  Reader.skip 6
  Reader.skip (audioExtension version)

/-- Moves to where the boxes inside a payload start. Yields whether there are boxes, and how many
at most. -/
def enter (content : Content) : Reader BoxFault (Option (Option Nat)) := do
  match content with
  | .leaf => return none
  | .boxes => return some none
  | .sampleDescription => return some (some (← Reader.unsigned 4))
  | .visualEntry => Reader.skip 78; return some none
  | .audioEntry => audioFields; return some none

/-! ### What a box takes from the data -/

open Reader

theorem consumes_header : Consumes header fun _ => 8 := by
  have size (left field : Nat) : Consumes (resolveSize left field) fun _ => 0 := by
    unfold resolveSize
    refine consumes_ite (consumes_pure _) (consumes_ite ?_ (consumes_pure _))
    exact (consumes_unsigned 8).mono fun _ => Nat.zero_le _
  have check (type : FourCC) (start size used : Nat) :
      Consumes (checkSize type start size used) fun _ => 0 :=
    consumes_ite (consumes_throw _ _) (consumes_ite (consumes_throw _ _) (consumes_pure _))
  exact (consumes_get.bind fun start => (consumes_unsigned 4).bind fun field =>
    consumes_word.bind fun type => (size _ field).bind fun size =>
    (check type _ size _).bind fun _ => consumes_pure _).mono fun _ => by simp

theorem consumes_payload (lenient : Bool) (type : FourCC) (n : Nat) :
    Consumes (payload lenient type n) List.length := by
  have branches (c : Cursor) : Consumes
      (if c.rest.atLeast n then bytes n
        else if lenient then bytes c.remaining else throw (BoxFault.pastEnd type)) List.length :=
    consumes_ite (consumes_bytes n) (consumes_ite (consumes_bytes _) (consumes_throw _ _))
  exact (consumes_get.bind branches).mono fun _ => by simp

theorem consumes_passBox (start : Nat) (h : Header) : Consumes (passBox start h) fun _ => 0 := by
  intro c u c' e
  change Except.ok ((), if c.rest.atLeast _ then c.forward _ else c.toEnd) = .ok (u, c') at e
  cases e
  split <;> simp [Cursor.forward, Cursor.toEnd]

theorem consumes_readBox (lenient : Bool) (base start : Nat) (h : Header) (full : Bool) :
    Consumes (readBox lenient base start h full) fun b => b.payload.length := by
  have front : Consumes (fullHeader? full) fun _ => 0 :=
    consumes_ite ((consumes_word.bind fun _ => consumes_pure _).map.mono fun _ => Nat.zero_le _)
      (consumes_pure _)
  have back (full : Option FullHeader) (n : Nat) :
      Consumes (Box.mk h.type (base + start) h.size full h.wide <$> payload lenient h.type n)
        fun b => b.payload.length :=
    (consumes_payload lenient h.type n).mapCost fun _ => Nat.le_refl _
  exact (front.bind fun full => consumes_get.bind fun c => back full _).mono fun _ => by simp

def yielded : Option (Box × Declaration) → Nat
  | none => 0
  | some (b, _) => b.payload.length

theorem consumes_body (layout : Layout) (lenient : Bool) (base start : Nat) (h : Header) :
    Consumes (body layout lenient base start h) yielded := by
  unfold body
  split
  · exact (consumes_passBox _ h).mapCost fun _ => Nat.zero_le _
  · exact (consumes_readBox _ _ _ h _).mapCost fun _ => Nat.le_refl _

/-- A box takes at least its size and type fields and its payload from the data. -/
theorem consumes_box (layout : Layout) (lenient : Bool) (base : Nat) :
    Consumes (box layout lenient base) fun r => 8 + yielded r :=
  (consumes_get.bind fun start => consumes_header.bind fun h =>
    consumes_body layout lenient base start.position h).mono fun r => by simp

/-! ### Where the boxes inside a payload start -/

/-- A reader never leaves the data of its cursor. -/
def Keeps {α : Type} (r : Reader BoxFault α) : Prop :=
  ∀ c a c', r c = .ok (a, c') → c'.data = c.data

theorem keeps_pure {α : Type} (a : α) : Keeps (pure a) := by
  intro c b c' h
  cases h
  rfl

theorem Keeps.bind {α β : Type} {r : Reader BoxFault α} {f : α → Reader BoxFault β}
    (hr : Keeps r) (hf : ∀ a, Keeps (f a)) : Keeps (r >>= f) := by
  intro c b c' h
  change (r c >>= fun p => f p.1 p.2) = .ok (b, c') at h
  cases hc : r c with
  | error e => rw [hc] at h; cases h
  | ok p =>
    rw [hc] at h
    rw [hf p.1 p.2 b c' h, hr c p.1 p.2 hc]

theorem keeps_unsigned (width : Nat) : Keeps (Reader.unsigned width) := by
  intro c n c' h
  unfold Reader.unsigned Reader.lift Cursor.readUnsigned at h
  split at h
  · cases h
    rename_i heq
    split at heq
    · cases heq; rfl
    · cases heq
  · cases h

theorem keeps_skip (n : Nat) : Keeps (Reader.skip n) := by
  intro c u c' h
  unfold Reader.skip Reader.lift Cursor.skip at h
  split at h
  · cases h
    rename_i heq
    dsimp only at heq
    split at heq
    · split at heq
      · cases heq; rfl
      · cases heq
    · split at heq
      · cases heq; rfl
      · cases heq
  · cases h

theorem keeps_enter (content : Content) : Keeps (enter content) := by
  cases content with
  | leaf => exact keeps_pure _
  | boxes => exact keeps_pure _
  | sampleDescription => exact (keeps_unsigned 4).bind fun n => keeps_pure _
  | visualEntry => exact (keeps_skip 78).bind fun _ => keeps_pure _
  | audioEntry =>
    refine Keeps.bind ?_ fun _ => keeps_pure _
    exact (keeps_skip 8).bind fun _ => (keeps_unsigned 2).bind fun _ =>
      (keeps_skip 6).bind fun _ => keeps_skip _

/-- The boxes inside a payload lie within it. -/
theorem length_rest_enter {content : Content} {data : Bytes} {r : Option (Option Nat)}
    {c : Cursor} (h : enter content (Cursor.ofBytes data) = .ok (r, c)) :
    c.rest.length ≤ data.length := by
  have : c.data = data := keeps_enter content _ _ _ h
  rw [c.rest_eq, this]
  simp

/-! ### The walk -/

/-- Walks through the boxes from a cursor on, `limit` of them at most if there is a limit. -/
def boxes (layout : Layout) (lenient : Bool) (base : Nat) (limit : Option Nat) (c : Cursor) :
    Trace :=
  if limit = some 0 ∨ !c.hasMore then .done
  else
    match step : box layout lenient base c with
    | .error fault => .failed fault
    | .ok (none, next) =>
      have : 8 + next.rest.length ≤ c.rest.length :=
        consumes_box layout lenient base c _ _ step
      boxes layout lenient base (limit.map (· - 1)) next
    | .ok (some (b, declaration), next) =>
      have : 8 + b.payload.length + next.rest.length ≤ c.rest.length :=
        consumes_box layout lenient base c _ _ step
      match inner : enter declaration.content (Cursor.ofBytes b.payload) with
      | .error fault => .after [.opened b] (.failed fault)
      | .ok (none, _) =>
        .after [.opened b, .closed b] (boxes layout lenient base (limit.map (· - 1)) next)
      | .ok (some count, start) =>
        have := length_rest_enter inner
        let inside := boxes layout lenient (b.start + b.headerSize) count start
        match inside.fault with
        | some fault => .after [.opened b] ⟨inside.events, some fault⟩
        | none =>
          .after (.opened b :: inside.events ++ [.closed b])
            (boxes layout lenient base (limit.map (· - 1)) next)
termination_by c.rest.length
decreasing_by all_goals omega

def trace (layout : Layout) (lenient : Bool) (data : Bytes) : Trace :=
  boxes layout lenient 0 none (Cursor.ofBytes data)

end Walk

end ProtectedMedia
