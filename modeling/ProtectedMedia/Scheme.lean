import ProtectedMedia.FourCC

/-!
# Protection schemes and patterns

Common encryption knows four schemes, each named by a four-character code. Two of them use counter
mode and two use cipher block chaining; of each pair one may leave blocks in the clear by a
repeating pattern.
-/

namespace ProtectedMedia

/-- A repeating pattern of `crypt` encrypted blocks followed by `skip` clear ones. -/
structure Pattern where
  crypt : UInt32
  skip : UInt32
  deriving DecidableEq, Inhabited

namespace Pattern

/-- The pattern `0:0`, which stands for no pattern: every block is encrypted. -/
def none : Pattern := ⟨0, 0⟩

/-- Whether every block is encrypted. -/
def isNone (p : Pattern) : Bool := p.crypt = 0 && p.skip = 0

def size (p : Pattern) : Nat := p.crypt.toNat + p.skip.toNat

end Pattern

inductive CipherMode where
  /-- The cipher encrypts a counter and the result is added to the data. -/
  | counter
  /-- Each block is added to the encrypted form of the block before. -/
  | chaining
  deriving DecidableEq

inductive Scheme where
  | cenc
  | cens
  | cbc1
  | cbcs
  deriving DecidableEq

namespace Scheme

/-- The code by which files name a scheme. -/
def code : Scheme → FourCC
  | .cenc => 0x63656e63
  | .cens => 0x63656e73
  | .cbc1 => 0x63626331
  | .cbcs => 0x63626373

def ofCode? (code : FourCC) : Option Scheme :=
  [cenc, cens, cbc1, cbcs].find? fun s => s.code = code

def name : Scheme → String
  | .cenc => "cenc"
  | .cens => "cens"
  | .cbc1 => "cbc1"
  | .cbcs => "cbcs"

def mode : Scheme → CipherMode
  | .cenc | .cens => .counter
  | .cbc1 | .cbcs => .chaining

/-- Whether a scheme may leave blocks in the clear by a pattern. -/
def allowsPattern : Scheme → Bool
  | .cens | .cbcs => true
  | .cenc | .cbc1 => false

end Scheme

end ProtectedMedia
