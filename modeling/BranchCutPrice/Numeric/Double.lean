/-!
Rules on doubles that the numerical parts share: infinities, minima and maxima
that pass over an undefined operand, sums in list order, and the total order by
which efficacies and scores are ranked.
-/

namespace BranchCutPrice

/-- A double as it is stored, with the sign bit that an undefined value may have. -/
structure RawDouble where
  bits : UInt64
  deriving DecidableEq, Repr

namespace RawDouble

/-- A computed double. The sign of an undefined one is left open by the standard,
and taken as positive. -/
def ofFloat (x : Float) : RawDouble :=
  ⟨x.toBits⟩

def toFloat (x : RawDouble) : Float :=
  .ofBits x.bits

end RawDouble

namespace Double

def infinity : Float := 1.0 / 0.0

def negInfinity : Float := -1.0 / 0.0

/-- The smaller operand; an undefined one gives way to the other. -/
def least (a b : Float) : Float :=
  if a.isNaN then b else if b.isNaN then a else if b < a then b else a

/-- The larger operand; an undefined one gives way to the other. -/
def greatest (a b : Float) : Float :=
  if a.isNaN then b else if b.isNaN then a else if a < b then b else a

/-- The sum in list order. It starts from negative zero, the neutral element of
addition, so that a list of zeros keeps its sign. -/
def sum (terms : List Float) : Float :=
  terms.foldl (· + ·) (-0.0)

/-- The place of a double in the total order on doubles: negative zero comes
right below positive zero, and an undefined value comes last or, with the sign
bit, first. -/
def rank (x : RawDouble) : Int :=
  let bits := x.bits.toNat
  if bits < 0x8000000000000000 then bits else 0x7fffffffffffffff - (bits : Int)

/-- Two bounds agree: the same infinity, or finite and within the tolerance. -/
def close (a b tolerance : Float) : Bool :=
  if a.isInf || b.isInf then a == b else (a - b).abs ≤ tolerance

/-- The tolerance by which a lower bound may miss a cutoff and still reach it. -/
def boundSlack : Float := 1e-9

/-- Vectors shorter than this count as having no direction. -/
def normFloor : Float := 1e-12

end Double

end BranchCutPrice
