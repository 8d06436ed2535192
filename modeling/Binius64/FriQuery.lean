import Binius64.FriFold

/-!
# The query phase of the proximity test

The prover opens the committed codewords at sampled positions, each codeword of a round at the
cosets that the positions before lie in, and sends the terminal codeword whole.
-/

namespace Binius64.Fri

open Ntt MerkleChannel ReplayedRuns EqualityTensor InplaceEvaluation
open FriParams (greatest)

variable {F σ τ K : Type}

/-- Shift positions to those of the cosets that they lie in. -/
def shiftAll (indices : List (BitVec 64)) (bits : ℕ) : List (BitVec 64) :=
  indices.map fun idx : BitVec 64 => idx >>> bits

variable (ch : MerkleIPProverChannel F σ K)

def BrakedownOracleProver.openQueries (self : BrakedownOracleProver F K)
    (indices : List (BitVec 64)) : Writing σ Unit :=
  ch.sendOpenings self.commitment self.codeword (shiftAll indices self.logLift)

def FriOracleProver.openQueries (self : FriOracleProver F K)
    (indices : List (BitVec 64)) : Writing σ Unit :=
  ch.sendOpenings self.commitment self.codeword indices

structure FriQueryProver (F K : Type) where
  codewordOracle : List (BrakedownOracleProver F K)
  friOracles : List (FriOracleProver F K)

namespace FriQueryProver

/-- Open the codewords of the rounds, each at the cosets of the positions before. -/
def proveRounds (ch : MerkleIPProverChannel F σ K) : List (FriOracleProver F K) → List (BitVec 64) →
    Writing σ Unit
  | [],_ => pure ()
  | friOracle :: friOracles,indices => do
    let indices := shiftAll indices friOracle.cosetLogSize
    friOracle.openQueries ch indices
    proveRounds ch friOracles indices

/-- Open everything. -/
def proveQueries (ch : MerkleIPProverChannel F σ K) (self : FriQueryProver F K)
    (indices : List (BitVec 64)) : Writing σ Unit := do
  let _ ← self.codewordOracle.mapM fun oracle => oracle.openQueries ch indices
  proveRounds ch self.friOracles indices

end FriQueryProver

namespace FriFoldProver

variable [Field F]

/-- The terminal codeword with its commitment, and the codewords to open. -/
def finalize (self : FriFoldProver F K) : Option (Buffer F × K × FriQueryProver F K) := do
  guard (self.currRound = self.params.nFoldRounds)
  match self.state with
  | .laterFolds firstOracle lastCodeword lastCommitment roundOracles =>
    return (lastCodeword,lastCommitment,⟨firstOracle,roundOracles⟩)
  | .firstFold _ => none

/-- Run the query phase. -/
def finishProof (ch : MerkleIPProverChannel F σ K) (self : FriFoldProver F K) : Writing σ Unit := do
  let (terminateCodeword,terminalCommitment,queryProver) ← checked self.finalize
  let indices ← (List.replicate self.params.nTestQueries self.params.indexBits).mapM ch.sampleBits
  queryProver.proveQueries ch indices
  ch.sendCommittedVector terminalCommitment terminateCodeword

end FriFoldProver

def asserting {α : Type} (run : Except AssertFailure α) : Reading τ Stop α := fun u =>
  match run with
  | .ok a => .ok (a,u)
  | .error _ => .error .panic

def selectWord (elems : List F) (word : BitVec 64) : Except AssertFailure F := do
  require (elems ≠ [] ∧ elems.length.isPowerOfTwo)
  index elems (word.toNat &&& (elems.length - 1))

def valuesOf [Zero F] (elems : List F) : Values F := ⟨elems.length,fun i => elems.getD i 0⟩

variable [Field F]

/-- An interleaved codeword with the challenges that fold its lanes. -/
structure BrakedownOracle (F K : Type) where
  challenges : List F
  commitment : K
  logLift : ℕ

/-- The values of the folded codeword at some positions. -/
def BrakedownOracle.openQueries (ch : MerkleIPVerifierChannel F τ K) (self : BrakedownOracle F K)
    (indices : List (BitVec 64)) : Reading τ Stop (List F) := do
  let values ← ch.recvOpenings self.commitment (shiftAll indices self.logLift)
  (MerkleTree.chunks (1 <<< self.challenges.length) values).mapM fun coset =>
    asserting (evaluateInplaceScalars (valuesOf coset) self.challenges)

/-- A batch of interleaved codewords with the challenges that combine them. -/
structure BatchBrakedownOracle (F K : Type) where
  oracles : List (BrakedownOracle F K)
  outerChallenges : List F

namespace BatchBrakedownOracle

/-- Open a batch and add up what its codewords contribute. -/
def openAll (ch : MerkleIPVerifierChannel F τ K) (indices : List (BitVec 64)) :
    List (BrakedownOracle F K × F) → List F → Reading τ Stop (List F)
  | [],combined => pure combined
  | (oracle,scalar) :: oracles,combined => do
    let values ← oracle.openQueries ch indices
    openAll ch indices oracles (List.zipWith (fun acc value => acc + value * scalar) combined values)

/-- The values of the combined codeword at some positions. -/
def openQueries (ch : MerkleIPVerifierChannel F τ K) (self : BatchBrakedownOracle F K)
    (indices : List (BitVec 64)) : Reading τ Stop (List F) :=
  openAll ch indices (self.oracles.zip (eqIndPartialEvalScalars self.outerChallenges))
    (indices.map fun _ => 0)

end BatchBrakedownOracle

/-- A codeword of a round with the challenges that fold its cosets. -/
structure FriOracle (F K : Type) [Field F] where
  challenges : List F
  commitment : K
  depth : ℕ
  domainContext : AdditiveNtt F

namespace FriOracle

variable (ch : MerkleIPVerifierChannel F τ K) (self : FriOracle F K)

/-- Check a claim against an opened coset and fold it. -/
def reduceOne [DecidableEq F] (entry : (List F × BitVec 64 × BitVec 64) × F) : Reading τ Stop F := do
  let ((coset,cosetIndex,idx),claim) := entry
  let opened ← asserting (selectWord coset idx)
  ch.assertZero (opened - claim)
  asserting (foldCoset self.domainContext (self.depth + self.challenges.length) cosetIndex.toNat
    self.challenges (valuesOf coset))

/-- Check the values claimed at some positions and return those of the folded codeword. -/
def reduceQueries [DecidableEq F]
    (indices : List (BitVec 64)) (claims : List F) : Reading τ Stop (List F) := do
  asserting (require (indices.length = claims.length))
  let cosetLogSize := self.challenges.length
  let cosetIndices := shiftAll indices cosetLogSize
  let values ← ch.recvOpenings self.commitment cosetIndices
  (((MerkleTree.chunks (1 <<< cosetLogSize) values).zip (cosetIndices.zip indices)).zip claims).mapM
    (self.reduceOne ch)

end FriOracle

structure FriQueryVerifier (F K : Type) [Field F] where
  params : FriParams
  terminalCommitment : K
  finalChallenges : List F
  codewordOracle : BatchBrakedownOracle F K
  friOracles : List (FriOracle F K)

namespace FriQueryVerifier

variable [Algebra (ZMod 2) F] [BinaryField F] [DecidableEq F]

/-- The domains of a code's length. -/
def generate (logLen : ℕ) : Except AssertFailure (AdditiveNtt F) :=
  if h : logLen ≤ BinaryField.nBits F ∧ 0 < logLen ∧ gaoMateerElement F 0 = 1 then
    .ok (gaoMateerOnTheFly logLen h.1 h.2.2)
  else .error .failed

def roundOracles (domainContext : AdditiveNtt F) (challenges : List F) :
    (commitments : List (K × ℕ)) → (depth foldRound : ℕ) → List (FriOracle F K)
  | [],_,_ => []
  | (commitment,arity) :: commitments,depth,foldRound =>
    let depth := depth - arity
    ⟨(challenges.drop foldRound).take arity,commitment,depth,domainContext⟩ ::
      roundOracles domainContext challenges commitments depth (foldRound + arity)

def newBatch (params : FriParams) (codewordCommitments roundCommitments : List K) (challenges : List F) :
    Except AssertFailure (FriQueryVerifier F K) := do
  require (codewordCommitments.length = params.inputOracles.length)
  require (roundCommitments.length = params.nOracles)
  require (challenges.length = params.nFoldRounds)
  require (∀ spec ∈ params.inputOracles, spec.logLift ≤ params.rsCode.logDimension)
  let maxEarly := greatest (params.inputOracles.map CodewordSpec.logEarlyBatchSize)
  let maxLater := greatest (params.inputOracles.map CodewordSpec.logLaterBatchSize)
  let logNOracles := Nat.clog 2 params.inputOracles.length
  let earlyChallenges := challenges.take maxEarly
  let outerChallenges := (challenges.drop maxEarly).take logNOracles
  let laterChallenges := (challenges.take params.logBatchSize).drop (maxEarly + logNOracles)
  let codewordSubOracles := List.zipWith (fun commitment spec =>
    let earlyWindow := earlyChallenges.drop (maxEarly - spec.logEarlyBatchSize)
    let laterWindow := laterChallenges.drop (maxLater - spec.logLaterBatchSize)
    (⟨earlyWindow ++ laterWindow,commitment,spec.logLift⟩ : BrakedownOracle F K))
    codewordCommitments params.inputOracles
  require (codewordSubOracles ≠ [])
  let domainContext ← generate params.rsCode.logLen
  let terminalCommitment ← index roundCommitments (roundCommitments.length - 1)
  return {
    params := params
    terminalCommitment := terminalCommitment
    finalChallenges := challenges.drop (params.logBatchSize + params.foldArities.sum)
    codewordOracle := ⟨codewordSubOracles,outerChallenges⟩
    friOracles := roundOracles domainContext challenges (roundCommitments.zip params.foldArities)
      params.indexBits params.logBatchSize }

def reduceRounds (ch : MerkleIPVerifierChannel F τ K) : List (FriOracle F K × ℕ) →
    List (BitVec 64) → List F → Reading τ Stop (List (BitVec 64) × List F)
  | [],indices,claims => pure (indices,claims)
  | (oracle,arity) :: oracles,indices,claims => do
    let claims ← oracle.reduceQueries ch indices claims
    reduceRounds ch oracles (shiftAll indices arity) claims

variable (ch : MerkleIPVerifierChannel F τ K)

def checkEntry (terminateCodeword : List F) (entry : F × BitVec 64) : Reading τ Stop Unit := do
  let value ← asserting (selectWord terminateCodeword entry.2)
  ch.assertZero (entry.1 - value)

variable (self : FriQueryVerifier F K)

/-- Check claims against the terminal codeword, and return the value that its cosets fold to. -/
def verifyTerminalQueries (claims : List F) (indices : List (BitVec 64)) : Reading τ Stop F := do
  let nFinalChallenges := self.params.nFinalChallenges
  let logInvRate := self.params.rsCode.logInvRate
  let terminateCodeword ← ch.recvCommittedVector self.terminalCommitment
  let _ ← (claims.zip indices).mapM (checkEntry ch terminateCodeword)
  let domainContext : AdditiveNtt F ← asserting (generate self.params.rsCode.logLen)
  let logLen := nFinalChallenges + logInvRate
  let repetitionCodeword ← (MerkleTree.chunks (1 <<< nFinalChallenges) terminateCodeword).zipIdx.mapM
    fun entry : List F × ℕ => asserting (foldCoset domainContext logLen entry.2 self.finalChallenges
      (valuesOf entry.1))
  let finalValue ← asserting (index repetitionCodeword 0)
  let _ ← repetitionCodeword.tail.mapM fun entry => ch.assertZero (entry - finalValue)
  return finalValue

/-- Run the query phase. -/
def verify : Reading τ Stop F := do
  let indices ← (List.replicate self.params.nTestQueries self.params.indexBits).mapM ch.sampleBits
  let claims ← self.codewordOracle.openQueries ch indices
  let (indices,claims) ← reduceRounds ch (self.friOracles.zip self.params.foldArities) indices claims
  self.verifyTerminalQueries ch claims indices

end FriQueryVerifier

end Binius64.Fri
