/-!
Decimal texts of doubles, in exact arithmetic: the shortest digits that read back
as the same double, and roundings to a given number of places.
-/

namespace BranchCutPrice.Decimal

/-- A finite magnitude `mantissa * 2 ^ exponent`. -/
structure Magnitude where
  mantissa : Nat
  exponent : Int
  deriving DecidableEq, Repr

/-- The leading bit of a normal mantissa, which the encoding leaves out. -/
def hiddenBit : Nat :=
  0x10000000000000

def magnitude (x : Float) : Magnitude :=
  let bits := x.toBits.toNat
  let fraction : Nat := bits % hiddenBit
  let field : Nat := bits / hiddenBit % 0x800
  if field = 0 then ⟨fraction, -1074⟩ else ⟨hiddenBit + fraction, (field : Int) - 1075⟩

def isNegative (x : Float) : Bool :=
  0x8000000000000000 ≤ x.toBits.toNat

/-- A magnitude in units of `10 ^ place`, as numerator and denominator. -/
def scaled (value : Magnitude) (place : Int) : Nat × Nat :=
  (value.mantissa * Nat.pow 2 value.exponent.toNat * Nat.pow 10 (-place).toNat,
    Nat.pow 2 (-value.exponent).toNat * Nat.pow 10 place.toNat)

/-- The place of the leading decimal digit of a positive magnitude. -/
def leadingPlace (value : Magnitude) : Int :=
  let (numerator, denominator) := scaled value (-400)
  ((Nat.toDigits 10 (numerator / denominator)).length : Int) - 401

/-- Rounds a quotient to the nearest integer, a half to the even one. -/
def roundQuotient (numerator denominator : Nat) : Nat :=
  let quotient := numerator / denominator
  let twice := 2 * (numerator % denominator)
  if denominator < twice || (denominator = twice && quotient % 2 = 1) then quotient + 1
  else quotient

/-- The neighbour of a magnitude on the grid of `10 ^ place` that reads back as
it, the nearer one if both do. A magnitude owns the values up to half a unit of
its last binary digit away, a quarter unit below a power of two, and the ends of
this interval if its mantissa is even. -/
def gridDigits? (value : Magnitude) (place : Int) : Option Nat :=
  let (numerator, denominator) := scaled value place
  let unit := numerator / value.mantissa
  let below := if value.mantissa = hiddenBit && value.exponent ≠ -1074 then unit else 2 * unit
  let owns (digits : Nat) : Bool :=
    let point := 4 * digits * denominator
    if value.mantissa % 2 = 0 then
      4 * numerator ≤ point + below && point ≤ 4 * numerator + 2 * unit
    else
      4 * numerator < point + below && point < 4 * numerator + 2 * unit
  let low := numerator / denominator
  let nearest := roundQuotient numerator denominator
  if owns nearest then some nearest
  else if owns low then some low
  else if owns (low + 1) then some (low + 1)
  else none

/-- The fewest digits that read back as a positive magnitude, with the place of
the last one. The power of ten above the magnitude is the first candidate, and
seventeen digits always read back. -/
def shortestDigits (value : Magnitude) : Nat × Int :=
  let leading := leadingPlace value
  let candidates := (List.range 18).filterMap fun (count : Nat) =>
    let place := leading + 1 - (count : Int)
    (gridDigits? value place).map fun digits => (digits, place)
  candidates.headD (0, 0)

def zeros (count : Nat) : String :=
  String.ofList (List.replicate count '0')

/-- Digits with a point in front of the last `places` of them. -/
def pointed (digits places : Nat) : String :=
  let text := Nat.repr digits
  if places = 0 then text
  else
    let padded := zeros (places + 1 - text.length) ++ text
    let whole := padded.length - places
    String.ofList (padded.toList.take whole) ++ "." ++ String.ofList (padded.toList.drop whole)

/-- Writes the sign and the values that have no digits; `digits` writes the
magnitude of a finite number. -/
def signed (x : Float) (digits : Magnitude → String) : String :=
  if x.isNaN then "NaN"
  else
    let sign := if isNegative x then "-" else ""
    sign ++ if x.isInf then "inf" else digits (magnitude x)

/-- The shortest digits that read back, without an exponent. -/
def shortest (x : Float) : String :=
  signed x fun value =>
    if value.mantissa = 0 then "0"
    else
      let (digits, place) := shortestDigits value
      if place < 0 then pointed digits (-place).toNat
      else Nat.repr digits ++ zeros place.toNat

/-- A given number of decimal places. -/
def fixed (places : Nat) (x : Float) : String :=
  signed x fun value =>
    let (numerator, denominator) := scaled value (-places)
    pointed (roundQuotient numerator denominator) places

/-- One digit before the point, a given number behind it, and the exponent. -/
def scientific (places : Nat) (x : Float) : String :=
  signed x fun value =>
    if value.mantissa = 0 then pointed 0 places ++ "e0"
    else
      let leading := leadingPlace value
      let (numerator, denominator) := scaled value (leading - places)
      let digits := roundQuotient numerator denominator
      if digits < Nat.pow 10 (places + 1) then s!"{pointed digits places}e{leading}"
      else s!"{pointed (digits / 10) places}e{leading + 1}"

end BranchCutPrice.Decimal
