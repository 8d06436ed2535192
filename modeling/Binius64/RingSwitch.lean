import Binius64.FieldBuffer
import Binius64.TensorAlgebra
import Binius64.VerifierChannel

/-!
# Ring switching

A claim about a multilinear of bits becomes a claim about the multilinear of packed field elements.
-/

namespace Binius64.RingSwitch

open Ntt InplaceEvaluation EqualityTensor RowFold SumcheckVerify VerifierChannel ExtensionField
open LogupStar (sampleMany)

variable {F : Type} [Field F] [Algebra (ZMod 2) F] [ExtensionField F]

abbrev RingSwitchM (F α : Type) := VerifierM F α

structure RingSwitchVerifyOutput (F : Type) where
  eqRDoublePrime : List F
  sumcheckClaim : F

def valuesOf (scalars : List F) : Values F := ⟨scalars.length,fun i => scalars.getD i 0⟩

def verify [DecidableEq F] (evaluationClaim : F) (evalPoint : List F) :
    RingSwitchM F (RingSwitchVerifyOutput F) := do
  let logPacking := logDegree F
  asserting (require (logPacking ≤ evalPoint.length))
  let evalPointLow := evalPoint.take logPacking
  let sHatV ← onChannel (recvMany (1 <<< logPacking))
  let computedClaim ← asserting (evaluateInplaceScalars (valuesOf sHatV) evalPointLow)
  onChannel (assertZero (evaluationClaim - computedClaim))
  let sHatU := (TensorAlgebra.new sHatV).transpose
  let rDoublePrime ← onChannel (sampleMany logPacking)
  let eqRDoublePrime := eqIndPartialEvalScalars rDoublePrime
  let sumcheckClaim ← asserting (evaluateInplaceScalars (valuesOf sHatU.elems) rDoublePrime)
  return ⟨eqRDoublePrime,sumcheckClaim⟩

/-- Evaluate the indicator at a point: the equality indicator over the tensor algebra, one point vertical
and the other horizontal, folded by the row-batching challenges. -/
def evalRsEq (zVals query expandedRowBatchQuery : List F) : Except AssertFailure F := do
  require (zVals.length = query.length)
  require (expandedRowBatchQuery.length = degree F)
  let tensorEval := (zVals.zip query).foldl (fun eval entry =>
    let vertScaled := eval.scaleVertical entry.1
    let hztlScaled := eval.scaleHorizontal entry.2
    (eval.add vertScaled).add hztlScaled) (TensorAlgebra.fromVertical 1)
  return tensorEval.foldVertical expandedRowBatchQuery

/-- A buffer of `2 ^ logLen` scalars in packed elements of `2 ^ w` lanes; lanes past the last
scalar hold anything. -/
structure PackedBuffer (w : ℕ) (F : Type) where
  logLen : ℕ
  elems : ℕ → PackedField w F

namespace PackedBuffer

variable {w : ℕ}

def packedLen {F : Type} (buffer : PackedBuffer w F) : ℕ := 1 <<< (buffer.logLen - w)

/-- The scalar at a position. -/
def get (buffer : PackedBuffer w F) (x : ℕ) : F := (buffer.elems (x / 2 ^ w)).get (x % 2 ^ w)

end PackedBuffer

def asRef (buffer : Buffer F) : List F := (List.range (1 <<< buffer.logLen)).map buffer.scalars

def fromScalars {w : ℕ} (scalars : List F) : PackedField w F := fun lane => scalars.getD lane 0

def eqIndPartialEval (point : List F) : Buffer F :=
  ⟨point.length,fun i => (eqIndPartialEvalScalars point).getD i 0⟩

/-- Fold the rows of bits of a packed matrix against an equality tensor in two factors: each block
against the low factor, its column sums scaled by an entry of the high factor. -/
def fold1bRowsForB128Split {w : ℕ} (mat : PackedBuffer w F) (eqLo eqHi : Buffer F) :
    Except AssertFailure (Buffer F) := do
  require (mat.logLen = eqLo.logLen + eqHi.logLen)
  require (w ≤ eqLo.logLen ∨ eqHi.logLen = 0)
  require (eqLo.logLen ≤ logDegree F)
  let loTables := rowFoldTable (asRef eqLo)
  let blockPackedLen := 1 <<< (eqLo.logLen - w)
  let nBlocks := min (mat.packedLen / blockPackedLen) (1 <<< eqHi.logLen)
  let acc ← (List.range nBlocks).foldlM (fun acc block => do
    let matBlock := (List.range' (block * blockPackedLen) blockPackedLen).map mat.elems
    let rows := iterSlice matBlock
    -- rows past the end of the block stay zero
    let sums ← foldInto loTables (fun g t => castBases (rows.getD (8 * g + t) 0)) fun _ _ => 0
    return fun i => acc i + sums.column i * eqHi.scalars block) fun _ => 0
  return ⟨logDegree F,acc⟩

/-- Build the indicator from the two factors: every entry is a product of theirs, folded bitwise by
the row-batching challenges. -/
def rsEqIndFromFactors (w : ℕ) (eqLo eqHi rowBatchQuery : Buffer F) :
    Except AssertFailure (PackedBuffer w F) := do
  require (w ≤ eqLo.logLen ∨ eqHi.logLen = 0)
  require (rowBatchQuery.logLen = logDegree F)
  let lookup ← bytewiseLookup (logDegree F) (asRef rowBatchQuery)
  let blockPackedLen := 1 <<< (eqLo.logLen - w)
  return ⟨eqLo.logLen + eqHi.logLen,fun slot =>
    let eqHiVal := eqHi.scalars (slot / blockPackedLen)
    let loChunk := ((asRef eqLo).drop (slot % blockPackedLen * 2 ^ w)).take (2 ^ w)
    fromScalars (loChunk.map fun lo => transform lookup (castBases (lo * eqHiVal)))⟩

/-- The two factors of the equality tensor of a point, the low one of a block's length at most. -/
def expandTensorFactors (point : List F) : Buffer F × Buffer F :=
  let n := min point.length (logDegree F)
  (eqIndPartialEval (point.take n),eqIndPartialEval (point.drop n))

/-- What the prover is left with. -/
structure RingSwitchOutput (w : ℕ) (F : Type) where
  rsEqInd : PackedBuffer w F
  sumcheckClaim : F

structure ProverChannel (F : Type) where
  sent : List F
  challenges : ℕ → F

def prove {w : ℕ} (packedWitness : PackedBuffer w F) (evalPoint : List F) (channel : ProverChannel F) :
    Except AssertFailure (RingSwitchOutput w F × ProverChannel F) := do
  let logPacking := logDegree F
  require (packedWitness.logLen + logPacking = evalPoint.length)
  let (eqLo,eqHi) := expandTensorFactors (evalPoint.drop logPacking)
  let sHatV ← fold1bRowsForB128Split packedWitness eqLo eqHi
  let sHatU := (TensorAlgebra.new (asRef sHatV)).transpose.elems
  let rDoublePrime := (List.range logPacking).map channel.challenges
  let eqRDoublePrime := eqIndPartialEval rDoublePrime
  let sumcheckClaim := (List.zipWith (fun a b => b * a) sHatU (asRef eqRDoublePrime)).sum
  let rsEqInd ← rsEqIndFromFactors w eqLo eqHi eqRDoublePrime
  return (⟨rsEqInd,sumcheckClaim⟩,
    ⟨channel.sent ++ asRef sHatV,fun i => channel.challenges (i + logPacking)⟩)

/-- The multilinear of bits that is packed: those of an element next to each other. -/
def bitPolynomial {w : ℕ} (packed : PackedBuffer w F) : Memory F := fun i =>
  algebraMap (ZMod 2) F (coord (packed.get (i / 2 ^ logDegree F)) (i % 2 ^ logDegree F))

def rowFold {w : ℕ} (packed : PackedBuffer w F) (tensor : ℕ → F) (v : ℕ) : F :=
  ∑ x ∈ Finset.range (2 ^ packed.logLen), coord (packed.get x) v • tensor x

end Binius64.RingSwitch
