import ProtectedMedia.Binary64
import ProtectedMedia.Text.Blank

/-!
# Double precision numbers in decimal

A finite number is written with the fewest digits that read back as the same number and, of those,
with the digits nearest to it; the point is always written out and never replaced by an exponent.
A decimal is read as the nearest double precision number, a tie going to the even one.

All arithmetic is exact: a number is `m * 2 ^ e` with a natural `m`, and the decimals that read
back as it are those within half a step on either side.
-/

namespace ProtectedMedia.Binary64

/-! ### Writing -/

/-- A decimal number `digits * 10 ^ exponent`. -/
structure Decimal where
  digits : Nat
  exponent : Int
  deriving DecidableEq

/-- A power as a fraction: the numerator and the denominator of `base ^ exponent`. -/
def powerFraction (base : Nat) (exponent : Int) : Nat × Nat :=
  (Nat.pow base exponent.toNat, Nat.pow base (-exponent).toNat)

/-- The number of zeros behind the point of `num / den`, which is below one, before a digit. -/
def leadingZeros : Nat → Nat → Nat → Nat
  | 0, _, _ => 0
  | fuel + 1, num, den =>
    if den ≤ num * 10 then 0 else leadingZeros fuel (num * 10) den + 1

/-- The place before the first digit of `num / den`: the power of ten next above it. -/
def magnitude (num den : Nat) : Int :=
  if den ≤ num then (Nat.toDigits 10 (num / den)).length
  else -(leadingZeros 400 num den : Int)

/-- The decimal on the grid of the given step `10 ^ unit` that reads back as `m * 2 ^ e`, if there
is one. Only the two points next to the number are candidates; if both will do the nearer is taken,
and of two equally near the greater. `half` is the number of quarter steps down to the midpoint
below the number, which is one at the bottom of a range of exponents and else two. -/
def gridPoint? (m : Nat) (e unit : Int) (half : Nat) : Option Nat :=
  let two := powerFraction 2 e
  let ten := powerFraction 10 unit
  let step := two.1 * ten.2
  let den := two.2 * ten.1
  let num := m * step
  let below := num / den
  let readsBack (c : Nat) : Bool :=
    if m % 2 = 0 then 4 * num ≤ 4 * c * den + half * step && 4 * c * den ≤ 4 * num + 2 * step
    else 4 * num < 4 * c * den + half * step && 4 * c * den < 4 * num + 2 * step
  match readsBack below, readsBack (below + 1) with
  | true, true => if den ≤ 2 * (num - below * den) then some (below + 1) else some below
  | true, false => some below
  | false, true => some (below + 1)
  | false, false => none

/-- The decimal with the fewest digits, `count` or more, that reads back as `m * 2 ^ e`. -/
def shortestFrom (m : Nat) (e : Int) (half : Nat) (place : Int) : Nat → Nat → Decimal
  | 0, _ => ⟨0, 0⟩
  | fuel + 1, count =>
    match gridPoint? m e (place - count) half with
    | some c => ⟨c, place - count⟩
    | none => shortestFrom m e half place fuel (count + 1)

/-- The shortest decimal that reads back as the magnitude of a finite number other than zero. -/
def shortest (x : Binary64) : Decimal :=
  let m := x.significand
  let e : Int := (x.scale : Int) - 1074
  let half := if x.fractionField = 0 ∧ 1 < x.exponentField then 1 else 2
  let two := powerFraction 2 e
  shortestFrom m e half (magnitude (m * two.1) two.2) 20 1

/-- Digits without the zeros at the end, and how many those were. -/
def stripZeros (digits : List Char) : List Char × Nat :=
  let kept := (digits.reverse.dropWhile (· = '0')).reverse
  (kept, digits.length - kept.length)

/-- A decimal written with its point, without zeros that do not count. -/
def Decimal.toText (d : Decimal) : List Char :=
  let (digits, dropped) := stripZeros (Nat.toDigits 10 d.digits)
  let exponent := d.exponent + dropped
  if digits = [] then ['0']
  else if 0 ≤ exponent then digits ++ List.replicate exponent.toNat '0'
  else
    let places := (-exponent).toNat
    let padded := List.replicate (places + 1 - digits.length) '0' ++ digits
    padded.take (padded.length - places) ++ '.' :: padded.drop (padded.length - places)

def toText (x : Binary64) : String :=
  if x.isNaN then "NaN"
  else
    let magnitude :=
      if x.isInfinite then "inf"
      else if x.significand = 0 then "0"
      else String.ofList x.shortest.toText
    if x.isNegative then "-" ++ magnitude else magnitude

/-! ### Reading -/

def roundDiv (num den : Nat) : Nat :=
  let q := num / den
  let r := num % den
  if den < 2 * r ∨ (2 * r = den ∧ q % 2 = 1) then q + 1 else q

/-- The exponent of the greatest power of two that is not above `num / den`. -/
def floorLog2 (num den : Nat) : Int :=
  let guess : Int := (num.log2 : Int) - den.log2
  let (up, down) := powerFraction 2 guess
  if den * up ≤ num * down then guess else guess - 1

/-- The bits of a sign, a significand below `2 ^ 53` and the exponent of its last place. -/
def ofParts (negative : Bool) (m : Nat) (e : Int) : Binary64 :=
  let sign := if negative then signBit else 0
  if m < fractions then ⟨UInt64.ofNat (sign + m)⟩
  else if 971 < e then infinity negative
  else ⟨UInt64.ofNat (sign + (e + 1075).toNat * fractions + (m - fractions))⟩

def ofFraction (negative : Bool) (num den : Nat) : Binary64 :=
  let e := max (floorLog2 num den - 52) (-1074)
  let (up, down) := powerFraction 2 e
  let m := roundDiv (num * down) (den * up)
  if m = 2 * fractions then ofParts negative fractions (e + 1) else ofParts negative m e

/-- The number nearest to a decimal. Decimals that are far out of range are not worked out. -/
def ofDecimal (negative : Bool) (d : Decimal) : Binary64 :=
  if d.digits = 0 then ofParts negative 0 0
  else
    let place := d.exponent + (Nat.toDigits 10 d.digits).length
    if 310 < place then infinity negative
    else if place < -330 then ofParts negative 0 0
    else
      let (up, down) := powerFraction 10 d.exponent
      ofFraction negative (d.digits * up) down

def ofDigits (digits : List Char) : Nat :=
  digits.foldl (fun n c => n * 10 + (c.toNat - '0'.toNat)) 0

/-- Reads what is left of a decimal after its digits: nothing, or an exponent with a digit. -/
def exponent? : List Char → Option Int
  | [] => some 0
  | c :: text =>
    if c ≠ 'e' ∧ c ≠ 'E' then none
    else
      let (negative, digits) :=
        match text with
        | '-' :: digits => (true, digits)
        | '+' :: digits => (false, digits)
        | digits => (false, digits)
      if digits = [] ∨ !digits.all Char.isDigit then none
      else some (if negative then -(ofDigits digits : Int) else ofDigits digits)

/-- Reads a decimal without sign: digits, a point among them or not, and an exponent or not. -/
def decimal? (text : List Char) : Option Decimal := do
  let whole := text.takeWhile Char.isDigit
  let rest := text.dropWhile Char.isDigit
  let (fraction, rest) :=
    match rest with
    | '.' :: rest => (rest.takeWhile Char.isDigit, rest.dropWhile Char.isDigit)
    | rest => ([], rest)
  if whole = [] ∧ fraction = [] then none
  else
    let exponent ← exponent? rest
    return ⟨ofDigits (whole ++ fraction), exponent - fraction.length⟩

/-- Reads a number without sign; infinity and the number that is not one have names, in letters of
either case. -/
def magnitude? (negative : Bool) (text : List Char) : Option Binary64 :=
  match decimal? text with
  | some d => some (ofDecimal negative d)
  | none =>
    let name := String.ofList (Text.lower text)
    if name = "inf" ∨ name = "infinity" then some (infinity negative)
    else if name = "nan" then some nan
    else none

def ofText? (text : String) : Option Binary64 :=
  match text.toList with
  | '-' :: text => magnitude? true text
  | '+' :: text => magnitude? false text
  | text => magnitude? false text

end ProtectedMedia.Binary64
