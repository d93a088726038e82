import BranchCutPrice.Error
import BranchCutPrice.Numeric.Double
import BranchCutPrice.Numeric.Ranking

/-!
Sparse coefficient vectors: the nonzero coefficients with their indices,
ascending and below the dimension.
-/

namespace BranchCutPrice

structure SparseVec where
  dimension : Nat
  entries : List (Nat × Float)
  deriving DecidableEq, Repr

namespace SparseVec

/-- The first index that the next entry repeats, if the entries are in order. -/
def repeated? : List (Nat × Float) → Option Nat
  | (i, _) :: (j, y) :: rest => if i = j then some i else repeated? ((j, y) :: rest)
  | _ => none

/-- The nonzero entries in index order. -/
def arrange (entries : List (Nat × Float)) : List (Nat × Float) :=
  Ranking.sort (fun a b => a.1 < b.1) (entries.filter fun entry => entry.2 != 0.0)

/-- Builds the vector of `owner` from entries in any order. Zeros are dropped;
repeated indices, indices beyond the dimension and coefficients that are not
finite are refused, in this order. -/
def ofEntries (owner : String) (dimension : Nat) (entries : List (Nat × Float)) :
    Except Error SparseVec :=
  let arranged := arrange entries
  match repeated? arranged with
  | some index => .error (.invalid (.duplicateIndex owner index))
  | none =>
      match arranged.find? fun entry => dimension ≤ entry.1 with
      | some entry => .error (.invalid (.indexOutOfRange owner entry.1 dimension))
      | none =>
          if arranged.all fun entry => entry.2.isFinite then .ok ⟨dimension, arranged⟩
          else .error (.invalid (.nonFiniteCoefficient owner))

def indices (vec : SparseVec) : List Nat :=
  vec.entries.map Prod.fst

def values (vec : SparseVec) : List Float :=
  vec.entries.map Prod.snd

/-- The smallest index, zero for the empty vector. -/
def firstIndex (vec : SparseVec) : Nat :=
  vec.indices.headD 0

/-- The largest index, zero for the empty vector. -/
def lastIndex (vec : SparseVec) : Nat :=
  vec.indices.getLastD 0

/-- The Euclidean norm. -/
def norm (vec : SparseVec) : Float :=
  (Double.sum (vec.values.map fun a => a * a)).sqrt

/-- The product with a dense vector, whose missing components count as zero. -/
def activity (vec : SparseVec) (x : Array Float) : Float :=
  Double.sum (vec.entries.map fun (j, a) => a * x.getD j 0.0)

/-- Adds up the products at common indices, walking both lists at once: entries
on the right are passed over until their index is no longer too small. -/
def dotFrom (total : Float) : List (Nat × Float) → List (Nat × Float) → Float
  | [], _ => total
  | (i, a) :: left, right =>
      match right.dropWhile fun entry => entry.1 < i with
      | [] => total
      | (j, b) :: rest =>
          if i = j then dotFrom (total + a * b) left rest
          else dotFrom total left ((j, b) :: rest)

/-- The inner product of two sparse vectors. -/
def dot (left right : SparseVec) : Float :=
  dotFrom 0.0 left.entries right.entries

/-- The same indices, and coefficients within the tolerance. -/
def near (left right : SparseVec) (tolerance : Float) : Bool :=
  left.indices == right.indices &&
    (left.values.zip right.values).all fun (a, b) => (a - b).abs ≤ tolerance

end SparseVec

end BranchCutPrice
