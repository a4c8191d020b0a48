import ProtectedMedia.Bytes.Hex
import ProtectedMedia.Text.Utf8

/-!
# Four-character codes

A 32-bit word whose bytes are usually four ASCII characters. Box types and protection schemes are
named by such codes. A code has two readings: `display` falls back to a number unless all four
bytes are visible characters, and `name` shows the bytes as text whatever they are.
-/

namespace ProtectedMedia

abbrev FourCC := UInt32

namespace FourCC

def bytes (code : FourCC) : Bytes := Bytes.ofUInt32 code

/-- Whether a byte is an ASCII character that leaves a mark, the blank not included. -/
def isGraphic (x : UInt8) : Bool := 0x21 ≤ x && x ≤ 0x7e

/-- The four characters of a code, or its number if one of them is not visible. -/
def display (code : FourCC) : String :=
  if code.bytes.all isGraphic then String.ofList (code.bytes.map fun x => Char.ofNat x.toNat)
  else "0x" ++ Hex.ofNat 8 code.toNat

/-- The bytes of a code read as UTF-8, with a replacement for every piece that is no character. -/
def name (code : FourCC) : String := Text.lossy code.bytes

/-- The code whose bytes are those of a text, if there are four of them. -/
def ofName? (text : String) : Option FourCC :=
  let b := Text.utf8 text
  if b.length = 4 then some (UInt32.ofNat (Bytes.toNat b)) else none

/-- What is said to a caller who names a box by a text of another length. -/
def nameLengthMessage : String := "MP4 box names must be 4 characters long"

end FourCC

end ProtectedMedia
