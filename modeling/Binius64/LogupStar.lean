import Binius64.DomainContexts
import Binius64.InplaceEvaluation

/-!
# The logUp* reduction

The verifier of indexed lookups in several tables.
-/

namespace Binius64.LogupStar

open SumcheckVerify LayerChecks SplitCoordinates InplaceEvaluation

class BinaryExtension (F : Type) [Field F] [Algebra (ZMod 2) F] where
  basis : List F
  independent : LinearIndependent (ZMod 2) basis.get

/-- The ways the reduction stops. -/
inductive Error where
  | precondition
  /-- The fractional-addition check fails. -/
  | fracAddCheck (error : SumcheckVerify.Error)
  /-- The leaf numerators do not combine to the leaf's. -/
  | incorrectXEvaluation
  /-- The leaf denominators do not combine to the leaf's. -/
  | incorrectIndexEvaluation
  | transcriptIsEmpty
deriving DecidableEq

variable {F : Type}

abbrev LogupM (F α : Type) := StateT (Channel F) (Except Error) α

def asserting {α : Type} (run : Except Ntt.AssertFailure α) : LogupM F α := fun ch =>
  (run.mapError fun _ => Error.precondition).map fun a => (a,ch)

def sampleMany : ℕ → ChannelM F (List F)
  | 0 => return []
  | n + 1 => do
    let c ← sample
    let rest ← sampleMany n
    return c :: rest

structure LookerClaim (F : Type) where
  evalPoint : List F
  evalClaim : F

structure TableLookup (F : Type) where
  nVars : ℕ
  lookers : List (LookerClaim F)

def suffix (n : ℕ) (point : List F) : List F := point.drop (point.length - n)

section Verifier

variable [Field F] [Algebra (ZMod 2) F] [BinaryExtension F]

def denominatorEval (c : F) (point : List F) : Except Ntt.AssertFailure F := do
  let terms ← point.zipIdx.mapM fun entry => do
    let basisT ← Ntt.index (BinaryExtension.basis (F := F)) entry.2
    return basisT * entry.1
  let j := terms.foldl (· + ·) 0
  return j - c

def resize (xs : List F) (n : ℕ) (a : F) : List F := xs.take n ++ List.replicate (n - xs.length) a

def greatest (ns : List ℕ) : ℕ := ns.foldl max 0

variable [DecidableEq F]

end Verifier

end Binius64.LogupStar
