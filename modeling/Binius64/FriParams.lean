import Binius64.ReedSolomon

/-!
# Parameters of the proximity test

The code that is tested, the codewords that are batched into its first round with their
lifts and batch sizes, and the arities of the folds down to the terminal codeword.
-/

namespace Binius64.Fri

open Ntt (ReedSolomonCode)

structure CodewordSpec where
  logLift : ℕ
  logEarlyBatchSize : ℕ
  logLaterBatchSize : ℕ
deriving DecidableEq

/-- The logarithm of the number of codewords that are interleaved. -/
def CodewordSpec.logBatchSize (spec : CodewordSpec) : ℕ := spec.logEarlyBatchSize + spec.logLaterBatchSize

structure FriParams where
  rsCode : ReedSolomonCode
  inputOracles : List CodewordSpec
  /-- The logarithm of the greatest length of a message that is lifted. -/
  maxLogMsgLen : ℕ
  logNOracles : ℕ
  foldArities : List ℕ
  logTerminalDim : ℕ
  nTestQueries : ℕ

namespace FriParams

def greatest (ns : List ℕ) : ℕ := ns.foldl max 0

def newBatch (rsCode : ReedSolomonCode) (oracles : List CodewordSpec) (foldArities : List ℕ)
    (nTestQueries : ℕ) : Option FriParams := do
  guard (oracles ≠ [])
  guard (foldArities.sum ≤ rsCode.logDimension)
  let maxEarly := greatest (oracles.map CodewordSpec.logEarlyBatchSize)
  let maxLater := greatest (oracles.map CodewordSpec.logLaterBatchSize)
  return {
    rsCode := rsCode
    inputOracles := oracles
    maxLogMsgLen := rsCode.logDimension + maxEarly + maxLater
    logNOracles := Nat.clog 2 oracles.length
    foldArities := foldArities
    logTerminalDim := rsCode.logDimension - foldArities.sum
    nTestQueries := nTestQueries }

variable (params : FriParams)

def nFoldRounds : ℕ := params.maxLogMsgLen + params.logNOracles

/-- The number of commitments. -/
def nOracles : ℕ := 1 + params.foldArities.length

def indexBits : ℕ := params.rsCode.logLen

/-- The number of challenges after the last commitment. -/
def nFinalChallenges : ℕ := params.logTerminalDim

/-- The logarithm of the length of the message. -/
def logMsgLen : ℕ := params.maxLogMsgLen + params.logNOracles

/-- The arity of the reduction to the first commitment. -/
def logBatchSize : ℕ := params.logMsgLen - params.rsCode.logDimension

end FriParams

end Binius64.Fri
