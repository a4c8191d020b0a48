import ProtectedMedia.Proofs.Bytes.Reader
import ProtectedMedia.Proofs.Bytes.Splice

/-!
# How far operations move a cursor

An operation takes the bytes it asks for if that many are left. If not, a byte string and a skip
leave the cursor where it is, and a number moves it to the end. So a cursor stays within its data and
never goes back, and what a run of operations takes lies one piece behind the other.

The exception is a skip whose target lies past the last 64-bit position. Its target is counted modulo
`2 ^ 64`, and the position that this gives may well lie in the data, in front of the cursor.
-/
namespace ProtectedMedia.Cursor

namespace Operation

/-- How many bytes an operation asks for. -/
def size : Operation → ℕ
  | .unsigned width => width
  | .signed32 => 4
  | .bytes count | .skip count => count

/-- The operation reads a number. -/
def isNumber : Operation → Bool
  | .unsigned _ | .signed32 => true
  | .bytes _ | .skip _ => false

/-- What an operation makes of the bytes that it takes. A signed number is the one next to zero of
those that are equal to the unsigned one modulo `2 ^ 32`. -/
def value (b : Bytes) : Operation → Value
  | .unsigned _ => .number b.toNat
  | .signed32 => .number (Int.bmod b.toNat UInt32.size)
  | .bytes _ => .bytes b
  | .skip _ => .nothing

def fault : Operation → ReadFault
  | .unsigned _ | .signed32 => .cutOff
  | .bytes _ => .readPastEnd
  | .skip _ => .skipPastEnd

/-- The target of a skip is a 64-bit position. -/
def Addressable (position : ℕ) : Operation → Prop
  | .skip count => position + count < UInt64.size
  | _ => True

instance (position : ℕ) (operation : Operation) : Decidable (operation.Addressable position) := by
  cases operation <;> unfold Addressable <;> infer_instance

end Operation

/-- How an operation can go: its answer, and the cursor after it. -/
inductive Performs (c : Cursor) : Operation → Except ReadFault Value → Cursor → Prop
  | taken {operation : Operation} : operation.Addressable c.position →
      operation.size ≤ c.rest.length →
      Performs c operation (.ok (operation.value (c.rest.take operation.size)))
        (c.forward operation.size)
  | cutOff {operation : Operation} : operation.isNumber = true →
      c.rest.length < operation.size → Performs c operation (.error .cutOff) c.toEnd
  | refused {operation : Operation} : operation.Addressable c.position →
      operation.isNumber = false → c.rest.length < operation.size →
      Performs c operation (.error operation.fault) c
  | wrapped {count : ℕ} : ¬(Operation.skip count).Addressable c.position →
      (c.position + count) % UInt64.size ≤ c.data.length →
      Performs c (.skip count) (.ok .nothing) (seek c.data ((c.position + count) % UInt64.size))
  | wrappedPastEnd {count : ℕ} : ¬(Operation.skip count).Addressable c.position →
      Performs c (.skip count) (.error .skipPastEnd) c

/-- An operation of a run, with the cursor before and after it. -/
structure Turn where
  before : Cursor
  operation : Operation
  answer : Except ReadFault Value
  after : Cursor

/-- The bytes that a successful operation passed over. -/
def Turn.taken (t : Turn) : Bytes :=
  if t.answer.isOk then t.before.data.slice t.before.position t.after.position else []

/-- The operations of a run. -/
def turns (c : Cursor) : List Operation → List Turn
  | [] => []
  | operation :: operations =>
      ⟨c, operation, (c.apply operation).1, (c.apply operation).2⟩ ::
        turns (c.apply operation).2 operations

section
variable (c : Cursor)

end

namespace Performs
variable {c c' : Cursor} {operation : Operation} {answer : Except ReadFault Value}

section
variable (h : c.Performs operation answer c')
  (haddressable : operation.Addressable c.position)
include h haddressable

end

end Performs

/-! ### A run of operations -/

section
variable {c : Cursor} {operations : List Operation} {t : Turn}

end

end ProtectedMedia.Cursor
