/-!
# Double precision numbers

A number in the IEEE 754 format of 64 bits, kept as its bits so that every one of them survives:
the sign in the top bit, eleven bits of exponent and fifty-two of fraction.
-/

namespace ProtectedMedia

/-- A double precision number by its bits. -/
structure Binary64 where
  bits : UInt64
  deriving DecidableEq, Inhabited

namespace Binary64

def nan : Binary64 := ⟨0x7ff8000000000000⟩

def infinity (negative : Bool) : Binary64 :=
  if negative then ⟨0xfff0000000000000⟩ else ⟨0x7ff0000000000000⟩

def signBit : Nat := 0x8000000000000000

/-- The number of different fractions. -/
def fractions : Nat := 0x10000000000000

def isNegative (x : Binary64) : Bool := signBit ≤ x.bits.toNat

def exponentField (x : Binary64) : Nat := x.bits.toNat / fractions % 0x800

def fractionField (x : Binary64) : Nat := x.bits.toNat % fractions

/-- Whether it is no number: the greatest exponent with a fraction. -/
def isNaN (x : Binary64) : Bool := x.exponentField = 0x7ff && x.fractionField ≠ 0

/-- Whether it is infinite: the greatest exponent without a fraction. -/
def isInfinite (x : Binary64) : Bool := x.exponentField = 0x7ff && x.fractionField = 0

/-- The natural number `m` of the magnitude `m * 2 ^ (q - 1074)` of a finite number. -/
def significand (x : Binary64) : Nat :=
  if x.exponentField = 0 then x.fractionField else fractions + x.fractionField

/-- The natural number `q` of the magnitude `m * 2 ^ (q - 1074)` of a finite number. -/
def scale (x : Binary64) : Nat := x.exponentField - 1

example : nan.isNaN = true := rfl

example : (infinity true).isNaN = false := rfl

end Binary64

end ProtectedMedia
