import Binius64.EqualityTensor
import Binius64.FriFolding
import Binius64.FriParams
import Binius64.MerkleChannel

/-!
# The fold phase of the proximity test

The prover folds the batch of interleaved codewords into one codeword, folds this one again whenever
enough challenges have arrived, and commits to what it gets.
-/

namespace Binius64.Fri

open Ntt MerkleChannel ReplayedRuns EqualityTensor
open FriParams (greatest)

variable {F σ τ K : Type}

/-- A committed interleaved codeword with the sizes that it is folded by. -/
structure ProxTestFolder (F K : Type) where
  logEarlyBatchSize : ℕ
  logLaterBatchSize : ℕ
  logLift : ℕ
  codeword : Buffer F
  commitment : K

namespace ProxTestFolder

variable (folder : ProxTestFolder F K)

/-- The logarithm of the number of codewords that are interleaved. -/
def logBatchSize : ℕ := folder.logEarlyBatchSize + folder.logLaterBatchSize

def logFoldedLen : ℕ := folder.codeword.logLen - folder.logBatchSize

end ProxTestFolder

/-- An interleaved codeword to open. -/
structure BrakedownOracleProver (F K : Type) where
  codeword : Buffer F
  commitment : K
  logLift : ℕ

/-- A codeword of a round to open. -/
structure FriOracleProver (F K : Type) where
  codeword : Buffer F
  commitment : K
  cosetLogSize : ℕ

/-- Encode the message of a codeword of the batch, with the code of its own dimension. -/
def encodeInterleaved [Field F] [Algebra (ZMod 2) F] [BinaryField F] [DecidableEq F] (params : FriParams)
    (oracleIndex : ℕ) (ntt : AdditiveNtt F) (message : Buffer F) : Except AssertFailure (Buffer F) := do
  let oracleSpec ← index params.inputOracles oracleIndex
  let logBatchSize := oracleSpec.logBatchSize
  require (oracleSpec.logLift ≤ params.rsCode.logDimension)
  let oracleLogDim := params.rsCode.logDimension - oracleSpec.logLift
  require (message.logLen = oracleLogDim + logBatchSize)
  let rsCode : ReedSolomonCode := ⟨oracleLogDim,params.rsCode.logInvRate⟩
  rsCode.encodeBatch ntt message logBatchSize

/-- The interleaved codewords and the length that they are combined at. -/
structure BatchBrakedownFolder (F K : Type) where
  logCodeLen : ℕ
  folders : List (ProxTestFolder F K)

def innerProduct [Field F] (as bs : List F) : F := (List.zipWith (· * ·) as bs).sum

namespace BatchBrakedownFolder

def new (folders : List (ProxTestFolder F K)) (logCodeLen : ℕ) : Option (BatchBrakedownFolder F K) := do
  guard (folders ≠ [])
  guard (∀ folder ∈ folders, folder.logFoldedLen ≤ logCodeLen)
  return ⟨logCodeLen,folders⟩

variable [Field F] [DecidableEq F]

/-- Fold one codeword and add it to those before it: each folded entry comes to its copies. -/
def foldOne (logCodeLen maxEarly maxLater : ℕ) (earlyChallenges laterChallenges : List F)
    (state : Memory F × List (BrakedownOracleProver F K)) (entry : (ProxTestFolder F K × F) × ℕ) :
    Option (Memory F × List (BrakedownOracleProver F K)) := do
  let ((folder,scalar),idx) := entry
  let logBatchSize := folder.logEarlyBatchSize + folder.logLaterBatchSize
  guard (maxLater - folder.logLaterBatchSize ≤ laterChallenges.length)
  let earlyWindow := earlyChallenges.drop (maxEarly - folder.logEarlyBatchSize)
  let laterWindow := laterChallenges.drop (maxLater - folder.logLaterBatchSize)
  let foldChallenges := earlyWindow ++ laterWindow
  let tensor := eqIndPartialEvalScalars foldChallenges
  let tensor := if scalar ≠ 1 then tensor.map (· * scalar) else tensor
  guard (foldChallenges.length = logBatchSize)
  let value := fun chunkIndex => innerProduct (folder.codeword.chunk logBatchSize chunkIndex) tensor
  let nChunks := 1 <<< (folder.codeword.logLen - logBatchSize)
  let oracles := state.2 ++ [⟨folder.codeword,folder.commitment,folder.logLift⟩]
  if idx = 0 then
    guard ((1 <<< logCodeLen) >>> folder.logLift = nChunks)
    return (fun j => value (j >>> folder.logLift),oracles)
  else
    -- the two chunk iterators stop at the shorter one
    return (fun j => if j >>> folder.logLift < nChunks then state.1 j + value (j >>> folder.logLift)
      else state.1 j,oracles)

def fold (self : BatchBrakedownFolder F K) (challenges : List F) :
    Option (Buffer F × List (BrakedownOracleProver F K)) := do
  let maxEarly := greatest (self.folders.map ProxTestFolder.logEarlyBatchSize)
  let maxLater := greatest (self.folders.map ProxTestFolder.logLaterBatchSize)
  let logNOracles := Nat.clog 2 self.folders.length
  guard (maxEarly + logNOracles ≤ challenges.length)
  let earlyChallenges := challenges.take maxEarly
  let outerChallenges := (challenges.drop maxEarly).take logNOracles
  let laterChallenges := challenges.drop (maxEarly + logNOracles)
  let outerTensor := eqIndPartialEvalScalars outerChallenges
  let (values,oracles) ← (self.folders.zip outerTensor).zipIdx.foldlM
    (foldOne self.logCodeLen maxEarly maxLater earlyChallenges laterChallenges) (fun _ => 0,[])
  return (⟨self.logCodeLen,values⟩,oracles)

end BatchBrakedownFolder

def foldCodeword [Field F] (ntt : AdditiveNtt F) (codeword : Buffer F) (challenges : List F) :
    Except AssertFailure (Buffer F) := do
  require (challenges.length ≤ codeword.logLen)
  let foldedLogLen := codeword.logLen - challenges.length
  let values ← (List.range (1 <<< foldedLogLen)).mapM fun i =>
    foldChunk ntt codeword.logLen i (coset codeword.scalars challenges.length i) challenges
  return ⟨foldedLogLen,fun i => values.getD i 0⟩

inductive FriFolderState (F K : Type) where
  /-- The batch is not folded yet. -/
  | firstFold (folder : BatchBrakedownFolder F K)
  | laterFolds (firstOracle : List (BrakedownOracleProver F K)) (lastCodeword : Buffer F)
    (lastCommitment : K) (roundOracles : List (FriOracleProver F K))

structure FriFoldProver (F K : Type) [Field F] where
  params : FriParams
  ntt : AdditiveNtt F
  state : FriFolderState F K
  currRound : ℕ
  nextCommitRound : Option ℕ
  unprocessedChallenges : List F

namespace FriFoldProver

variable [Field F]

def folders (params : FriParams) (committedCodewords : List (Buffer F × K)) : List (ProxTestFolder F K) :=
  List.zipWith (fun entry spec =>
    ⟨spec.logEarlyBatchSize,spec.logLaterBatchSize,spec.logLift,entry.1,entry.2⟩)
    committedCodewords params.inputOracles

def newBatch (params : FriParams) (ntt : AdditiveNtt F) (committedCodewords : List (Buffer F × K)) :
    Option (FriFoldProver F K) := do
  guard (committedCodewords.length = params.inputOracles.length)
  guard (∀ spec ∈ params.inputOracles, spec.logLift ≤ params.rsCode.logDimension)
  guard (∀ entry ∈ committedCodewords.zip params.inputOracles, entry.1.1.logLen =
    params.rsCode.logDimension - entry.2.logLift + entry.2.logBatchSize + params.rsCode.logInvRate)
  let batchFolder ← BatchBrakedownFolder.new (folders params committedCodewords) params.rsCode.logLen
  return ⟨params,ntt,.firstFold batchFolder,0,some params.logBatchSize,[]⟩

variable (self : FriFoldProver F K)

def isCommitmentRound : Bool :=
  self.nextCommitRound.any (· == self.currRound)

def receiveChallenge (challenge : F) (self : FriFoldProver F K) : FriFoldProver F K :=
  { self with
    unprocessedChallenges := self.unprocessedChallenges ++ [challenge]
    currRound := self.currRound + 1 }

variable (ch : MerkleIPProverChannel F σ K)

def commitRound (foldedCodeword : Buffer F) (nextArity : Option ℕ) (self : FriFoldProver F K) :
    Writing σ (K × FriFoldProver F K) := do
  let logCosetSize := nextArity.getD self.params.nFinalChallenges
  let commitment ← ch.sendMerkleCommitment foldedCodeword (1 <<< logCosetSize)
  return (commitment,{ self with nextCommitRound := nextArity.map (self.currRound + ·) })

def checked {α : Type} (run : Option α) : Writing σ α := fun s => run.map fun a => (a,s)

variable [DecidableEq F]

def executeFoldRound : Writing σ (FriFoldProver F K) :=
  if self.isCommitmentRound then
    match self.state with
    | .firstFold folder => do
      let (foldedCodeword,firstOracle) ← checked (folder.fold self.unprocessedChallenges)
      let self := { self with unprocessedChallenges := [] }
      let (lastCommitment,self) ← self.commitRound ch foldedCodeword self.params.foldArities.head?
      return { self with state := .laterFolds firstOracle foldedCodeword lastCommitment [] }
    | .laterFolds firstOracle lastCodeword lastCommitment roundOracles => do
      let challenges := self.unprocessedChallenges
      let foldedCodeword ← checked (foldCodeword self.ntt lastCodeword challenges).toOption
      let self := { self with unprocessedChallenges := [] }
      let oracle : FriOracleProver F K := ⟨lastCodeword,lastCommitment,challenges.length⟩
      let nextArity := self.params.foldArities[roundOracles.length + 1]?
      let (lastCommitment,self) ← self.commitRound ch foldedCodeword nextArity
      return { self with
        state := .laterFolds firstOracle foldedCodeword lastCommitment (roundOracles ++ [oracle]) }
  else return self

end FriFoldProver

structure ExpectedCommitment where
  round : ℕ
  leafSize : ℕ
  depth : ℕ
deriving DecidableEq

structure FriFoldVerifier (K : Type) where
  commitSchedule : List ExpectedCommitment
  roundCommitments : List K
  currRound : ℕ
  nRounds : ℕ

namespace FriFoldVerifier

def schedule (terminal : ℕ → ExpectedCommitment) : (foldArities : List ℕ) → (round depth : ℕ) →
    List ExpectedCommitment
  | [],round,_ => [terminal round]
  | arity :: foldArities,round,depth =>
    let depth := depth - arity
    ⟨round,1 <<< arity,depth⟩ :: schedule terminal foldArities (round + arity) depth

def new (params : FriParams) : FriFoldVerifier K where
  commitSchedule := schedule
    (fun round => ⟨round,1 <<< params.nFinalChallenges,params.rsCode.logInvRate⟩)
    params.foldArities params.logBatchSize params.indexBits
  roundCommitments := []
  currRound := 0
  nRounds := params.nFoldRounds + 1

variable (self : FriFoldVerifier K)

def nextCommitment : Option ExpectedCommitment :=
  self.commitSchedule[self.roundCommitments.length]?

def processRound (ch : MerkleIPVerifierChannel F τ K) (self : FriFoldVerifier K) :
    Reading τ Stop (Option K × FriFoldVerifier K) :=
  if self.currRound < self.nRounds then
    match self.nextCommitment with
    | some expected =>
      if expected.round = self.currRound then do
        let commitment ← ch.recvMerkleCommitment expected.leafSize expected.depth
        return (some commitment,{ self with
          roundCommitments := self.roundCommitments ++ [commitment]
          currRound := self.currRound + 1 })
      else return (none,{ self with currRound := self.currRound + 1 })
    | none => return (none,{ self with currRound := self.currRound + 1 })
  else throw .panic

def isComplete : Bool := self.currRound == self.nRounds

/-- The commitments received. -/
def finalize : Reading τ Stop (List K) :=
  if self.isComplete then return self.roundCommitments else throw .panic

end FriFoldVerifier

end Binius64.Fri
