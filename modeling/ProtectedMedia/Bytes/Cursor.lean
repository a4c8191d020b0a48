import ProtectedMedia.Bytes

/-!
# Cursors

A cursor is a byte string with a position in it. Every operation answers with a value or a fault
and with the cursor it leaves behind, because a failed operation may move the cursor too: a number
that is cut off by the end of the data consumes what is there, while a byte string or a skip that
does not fit consumes nothing.

Positions are 64-bit words. A skip whose target does not fit in a word goes to the target modulo
`2 ^ 64`.
-/

namespace ProtectedMedia

/-- A byte string and a position in it; `rest` is what lies from the position on. -/
structure Cursor where
  data : Bytes
  position : Nat
  rest : Bytes
  rest_eq : rest = data.drop position

inductive ReadFault where
  | cutOff
  | readPastEnd
  | skipPastEnd
  deriving DecidableEq

def ReadFault.message : ReadFault → String
  | .cutOff => "failed to fill whole buffer"
  | .readPastEnd => "Reader reads out of memory bounds."
  | .skipPastEnd => "Reader skips out of memory bounds."

namespace Cursor

def seek (data : Bytes) (position : Nat) : Cursor :=
  ⟨data, position, data.drop position, rfl⟩

def ofBytes (data : Bytes) : Cursor := ⟨data, 0, data, rfl⟩

def length (c : Cursor) : Nat := c.data.length

def remaining (c : Cursor) : Nat := c.rest.length

def hasMore (c : Cursor) : Bool := !c.rest.isEmpty

def forward (c : Cursor) (n : Nat) : Cursor :=
  ⟨c.data, c.position + n, c.rest.drop n, by rw [c.rest_eq, List.drop_drop]⟩

def toEnd (c : Cursor) : Cursor := ⟨c.data, c.data.length, [], by simp⟩

/-- An unsigned number of `width` bytes. If it is cut off, the rest of the data is consumed. -/
def readUnsigned (width : Nat) (c : Cursor) : Except ReadFault Nat × Cursor :=
  if c.rest.atLeast width then (.ok (Bytes.toNat (c.rest.take width)), c.forward width)
  else (.error .cutOff, c.toEnd)

/-- The signed number that a 32-bit word stands for in two's complement. -/
def signed32 (n : Nat) : Int := if n < 0x80000000 then n else (n : Int) - UInt32.size

def readSigned32 (c : Cursor) : Except ReadFault Int × Cursor :=
  let (n, c) := c.readUnsigned 4
  (n.map signed32, c)

def readBytes (n : Nat) (c : Cursor) : Except ReadFault Bytes × Cursor :=
  if c.rest.atLeast n then (.ok (c.rest.take n), c.forward n) else (.error .readPastEnd, c)

def skip (n : Nat) (c : Cursor) : Except ReadFault Unit × Cursor :=
  let target := c.position + n
  if target < UInt64.size then
    if c.rest.atLeast n then (.ok (), c.forward n) else (.error .skipPastEnd, c)
  else if c.data.atLeast (target % UInt64.size) then (.ok (), seek c.data (target % UInt64.size))
  else (.error .skipPastEnd, c)

inductive Operation where
  | unsigned (width : Nat)
  | signed32
  | bytes (count : Nat)
  | skip (count : Nat)
  deriving DecidableEq

inductive Value where
  | number (n : Int)
  | bytes (b : Bytes)
  | nothing
  deriving DecidableEq

def apply (c : Cursor) : Operation → Except ReadFault Value × Cursor
  | .unsigned width => let (r, c) := c.readUnsigned width; (r.map fun n => .number n, c)
  | .signed32 => let (r, c) := c.readSigned32; (r.map .number, c)
  | .bytes count => let (r, c) := c.readBytes count; (r.map .bytes, c)
  | .skip count => let (r, c) := c.skip count; (r.map fun _ => .nothing, c)

end Cursor

end ProtectedMedia
