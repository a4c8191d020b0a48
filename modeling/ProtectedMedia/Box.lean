import ProtectedMedia.Bytes.Reader
import ProtectedMedia.Error

/-!
# Boxes

An mp4 file is a sequence of boxes. Each starts with its size and its type; a size field of one
says that a 64-bit size follows the type, and one of zero that the box reaches to the end of what
it is in. A full box goes on with a version and flags. What a payload holds is known only for the
types that a layout declares; all other boxes are passed over.
-/

namespace ProtectedMedia

instance : HasReadFault BoxFault := ⟨.field⟩

instance : HasReadFault Error := ⟨fun fault => .box (.field fault)⟩

structure FullHeader where
  version : UInt32
  flags : UInt32
  deriving DecidableEq

/-- A box of a declared type. `start` is its position in the whole data and `size` what it
declares, header included; the payload may have been cut short. -/
structure Box where
  type : FourCC
  start : Nat
  size : Nat
  full : Option FullHeader
  wide : Bool
  payload : Bytes
  deriving DecidableEq

namespace Box

def headerSize (b : Box) : Nat :=
  8 + (if b.wide then 8 else 0) + (if b.full.isSome then 4 else 0)

/-- The version, which is zero for a box that has none. -/
def version (b : Box) : UInt32 := (b.full.map (·.version)).getD 0

/-- The flags, none of which are set in a box without flags. -/
def flags (b : Box) : UInt32 := (b.full.map (·.flags)).getD 0

end Box

/-- What the payload of a box holds. -/
inductive Content where
  | leaf
  /-- Boxes up to the end. -/
  | boxes
  /-- A count of four bytes and at most that many boxes. -/
  | sampleDescription
  /-- The fields of a visual sample entry, and then boxes. -/
  | visualEntry
  /-- The fields of an audio sample entry, whose size depends on its version, and then boxes. -/
  | audioEntry
  deriving DecidableEq

structure Declaration where
  full : Bool
  content : Content
  deriving DecidableEq

/-- The declared box types. Of two declarations of a type the first one in the list counts. -/
abbrev Layout := List (FourCC × Declaration)

namespace Layout

def find? (layout : Layout) (type : FourCC) : Option Declaration := layout.lookup type

/-- Declares a type, in place of an earlier declaration if there is one. -/
def declare (layout : Layout) (type : FourCC) (declaration : Declaration) : Layout :=
  (type, declaration) :: layout

end Layout

namespace FourCC

/-- The code of four ASCII characters. -/
def ofChars (a b c d : Char) : FourCC :=
  UInt32.ofNat (((a.toNat * 256 + b.toNat) * 256 + c.toNat) * 256 + d.toNat)

def moov : FourCC := ofChars 'm' 'o' 'o' 'v'
def trak : FourCC := ofChars 't' 'r' 'a' 'k'
def mdia : FourCC := ofChars 'm' 'd' 'i' 'a'
def minf : FourCC := ofChars 'm' 'i' 'n' 'f'
def stbl : FourCC := ofChars 's' 't' 'b' 'l'
def stsd : FourCC := ofChars 's' 't' 's' 'd'
def encv : FourCC := ofChars 'e' 'n' 'c' 'v'
def enca : FourCC := ofChars 'e' 'n' 'c' 'a'
def sinf : FourCC := ofChars 's' 'i' 'n' 'f'
def schi : FourCC := ofChars 's' 'c' 'h' 'i'
def schm : FourCC := ofChars 's' 'c' 'h' 'm'
def tenc : FourCC := ofChars 't' 'e' 'n' 'c'
def moof : FourCC := ofChars 'm' 'o' 'o' 'f'
def traf : FourCC := ofChars 't' 'r' 'a' 'f'
def tfhd : FourCC := ofChars 't' 'f' 'h' 'd'
def trun : FourCC := ofChars 't' 'r' 'u' 'n'
def senc : FourCC := ofChars 's' 'e' 'n' 'c'

end FourCC

end ProtectedMedia
