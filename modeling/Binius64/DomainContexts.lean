import Binius64.NeighborsLast
import Binius64.SubspacePolynomials

/-!
# Domain contexts

Subspaces given by an ordered basis, the generic domain context that tabulates the normalised
subspace polynomials on the basis, and the two ways to evaluate these polynomials elsewhere.
-/

namespace Binius64.Ntt

open SubspacePolynomials

variable {F : Type} [Field F]

def index {α : Type} (xs : List α) (i : ℕ) : Except AssertFailure α :=
  match xs[i]? with
  | some x => .ok x
  | none => .error .failed

/-- The span of an ordered basis over the field of two elements. -/
structure BinarySubspace (F : Type) where
  basis : List F

def elementAt (basis : List F) (idx : ℕ) : F :=
  (basis.zipIdx.map fun entry => entry.1 * if (idx >>> entry.2) &&& 1 = 1 then 1 else 0).sum

namespace BinarySubspace

variable (subspace : BinarySubspace F)

/-- The dimension. -/
def dim : ℕ := subspace.basis.length

/-- The element that an index selects. -/
def get (idx : ℕ) : Except AssertFailure F := do
  require (idx < 1 <<< subspace.dim)
  return elementAt subspace.basis idx

end BinarySubspace

/-- The values of the next subspace polynomial, from those of one on the elements it does not vanish
on. -/
def nextEvals : List F → List F
  | [] => []
  | first :: rest => rest.map fun val => val * (val + first)

/-- Divide a row by its first value. -/
def normalizeEvals (evals : List F) : Except AssertFailure (List F) := do
  let first ← index evals 0
  return evals.map fun eval => eval * first⁻¹

/-- The normalised subspace polynomials on the basis: row `i` from its element `i` on. -/
def generateEvalsFromSubspace (subspace : BinarySubspace F) : Except AssertFailure (List (List F)) :=
  let evals := (List.range' 1 (subspace.dim - 1)).foldl (fun evals i =>
    evals ++ [nextEvals (evals.getD (i - 1) [])]) [subspace.basis]
  evals.mapM normalizeEvals

/-- A domain context that computes its twiddles when they are asked for. -/
structure GenericOnTheFly (F : Type) where
  /-- The values of the normalised subspace polynomials on the basis. -/
  evals : List (List F)

namespace GenericOnTheFly

def generateFromSubspace (subspace : BinarySubspace F) : Except AssertFailure (GenericOnTheFly F) := do
  let evals ← generateEvalsFromSubspace subspace
  return ⟨evals⟩

variable (context : GenericOnTheFly F)

/-- The number of layers. -/
def logDomainSize : ℕ := context.evals.length

/-- The domain of a dimension. -/
def subspace (i : ℕ) : Except AssertFailure (BinarySubspace F) := do
  if i = 0 then return ⟨[]⟩
  require (i ≤ context.logDomainSize)
  let basis ← index context.evals (context.logDomainSize - i)
  return ⟨basis⟩

def twiddle (layer block : ℕ) : Except AssertFailure F := do
  require (layer + 1 ≤ context.logDomainSize)
  let v ← index context.evals (context.logDomainSize - layer - 1)
  (⟨v.tail⟩ : BinarySubspace F).get block

def twiddleBasis (layer : ℕ) : List F :=
  (context.evals.getD (context.logDomainSize - layer - 1) []).tail

end GenericOnTheFly

/-- What a domain context tells of its domains. -/
structure SubspaceContext (F : Type) where
  logDomainSize : ℕ
  subspace : ℕ → Except AssertFailure (BinarySubspace F)

def GenericOnTheFly.subspaceContext (context : GenericOnTheFly F) : SubspaceContext F :=
  ⟨context.logDomainSize,context.subspace⟩

structure NormalizedSubspacePolys (F : Type) where
  stepInv : List F
  beta0Inv : F

namespace NormalizedSubspacePolys

variable [DecidableEq F]

def new (domainContext : SubspaceContext F) : Except AssertFailure (NormalizedSubspacePolys F) := do
  let l := domainContext.logDomainSize
  require (1 ≤ l)
  let stepInv ← (List.range (l - 1)).mapM fun k => do
    let subspace ← domainContext.subspace (l - k)
    let d ← index subspace.basis 1
    let step := d * (d + 1)
    require (step ≠ 0)
    return step⁻¹
  let subspace ← domainContext.subspace l
  let beta0 ← index subspace.basis 0
  require (beta0 ≠ 0)
  return ⟨stepInv,beta0⁻¹⟩

omit [DecidableEq F] in
def evalsAt (polys : NormalizedSubspacePolys F) (x : F) : List F :=
  let w := x * polys.beta0Inv
  (polys.stepInv.foldl (fun state stepInv =>
    let w := state.2 * ((state.2 + 1) * stepInv)
    (state.1 ++ [w],w)) ([w],w)).1

end NormalizedSubspacePolys

def evalsAtDomainIndex (domainContext : SubspaceContext F) (idx : ℕ) : Except AssertFailure (List F) := do
  let l := domainContext.logDomainSize
  require (idx < 1 <<< l)
  (List.range l).mapM fun k => do
    let subspace ← domainContext.subspace (l - k)
    subspace.get (idx >>> k)

theorem elementAt_eq (basis : List F) (idx : ℕ) : elementAt basis idx = subsetSum basis idx := by
  have hgen : ∀ (bs : List F) (n : ℕ), ((bs.zipIdx n).map fun entry =>
      entry.1 * if (idx >>> entry.2) &&& 1 = 1 then 1 else 0).sum = subsetSum bs (idx / 2 ^ n) := by
    intro bs
    induction bs with
    | nil => exact fun _ => rfl
    | cons b bs ih =>
      intro n
      rw [List.zipIdx_cons,List.map_cons,List.sum_cons,ih (n + 1),subsetSum,Nat.and_one_is_mod,
        Nat.shiftRight_eq_div_pow,pow_succ,Nat.div_div_eq_div_mul]
      split
      · rw [mul_one]
      · rw [mul_zero]
  have hall := hgen basis 0
  rw [pow_zero,Nat.div_one] at hall
  exact hall

section Contexts

variable [Algebra (ZMod 2) F]

def GenericOnTheFly.domainContext (context : GenericOnTheFly F) : DomainContext F where
  logDomainSize := context.logDomainSize
  twiddle := fun layer block => elementAt (context.twiddleBasis layer) block
  iterTwiddles := fun layer logStepBy => (List.range (1 <<< (layer - logStepBy))).map fun block =>
    elementAt (context.twiddleBasis layer) (block <<< logStepBy)
  twiddle_xor := by
    intro layer _ a _ b _
    have hchar : CharP F 2 := charP_two
    rw [elementAt_eq,elementAt_eq,elementAt_eq,subsetSum_xor]
  iterTwiddles_eq := fun _ _ _ _ => rfl

end Contexts

end Binius64.Ntt
