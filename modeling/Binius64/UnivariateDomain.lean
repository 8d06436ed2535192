import Binius64.DomainContexts
import Binius64.EqualityTensor
import Mathlib.Algebra.Order.Star.Basic
import Mathlib.LinearAlgebra.Lagrange

/-!
# Univariate domains

A polynomial given by its values on a subspace is evaluated elsewhere without divisions.
-/

namespace Binius64.UnivariateDomain

open Polynomial Ntt CheckedRun SubspacePolynomials List

section Definitions

variable {F : Type} [Field F]

def trailingOnes (index : ℕ) : ℕ := if index % 2 = 1 then trailingOnes (index / 2) + 1 else 0
termination_by index

/-- A walk through the elements of a subspace in index order. -/
structure BinarySubspaceIterator (F : Type) where
  basis : List F
  index : ℕ
  next : Option F

namespace BinarySubspaceIterator

/-- The walk from the first element on. -/
def new (basis : List F) : BinarySubspaceIterator F := ⟨basis,0,some 0⟩

/-- Take an element; the one after it is without the basis elements of the trailing one bits, and with the
basis element behind them. -/
def advance (walk : BinarySubspaceIterator F) : Option (F × BinarySubspaceIterator F) := do
  let ret ← walk.next
  let ones := trailingOnes walk.index
  let next := (walk.basis.take ones).foldl (· - ·) ret
  return (ret,{walk with index := walk.index + 1,next := walk.basis[ones]?.map (next + ·)})

/-- The elements that are left, so many at most. -/
def collect : ℕ → BinarySubspaceIterator F → List F
  | 0,_ => []
  | n + 1,walk =>
    match walk.advance with
    | none => []
    | some (ret,walk) => ret :: collect n walk

end BinarySubspaceIterator

def iter (subspace : BinarySubspace F) : List F :=
  BinarySubspaceIterator.collect (1 <<< subspace.dim) (.new subspace.basis)

variable {E : Type} [CommRing E] [Algebra F E]

end Definitions

variable {F : Type} [Field F]

variable (bs : List F) {i : ℕ}

/-- The points of a domain. -/
def node (bs : List F) (i : ℕ) : F := subsetSum bs i

section Values

variable {E : Type} [CommRing E] [Algebra F E]

variable {bs : List F}

end Values

section Sweeps

variable {E : Type} [CommRing E]

end Sweeps

section Interpolation

variable [CharP F 2] [DecidableEq F] {E : Type} [CommRing E] [Algebra F E] {subspace : BinarySubspace F}

end Interpolation

end Binius64.UnivariateDomain
