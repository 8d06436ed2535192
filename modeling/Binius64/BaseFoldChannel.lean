import Binius64.FriParams
import Binius64.OracleChannel

/-!
# The verifier's channel over committed oracles

Every oracle is received as the Merkle commitment of its codeword, in the order the oracles are
declared.
-/

namespace Binius64.OracleChannel

open Fri

structure QueuedRelation (F : Type) where
  transparent : TransparentEvalFn F
  claim : F

structure BaseFoldVerifierChannel (F σ K : Type) where
  channel : σ
  oracleSpecs : List OracleSpec
  friParams : FriParams
  oracleCommitments : List K
  queue : List (List (QueuedRelation F))

namespace BaseFoldVerifierChannel

variable {F σ K : Type}

def new (channel : σ) (oracleSpecs : List OracleSpec) (friParams : FriParams) :
    BaseFoldVerifierChannel F σ K := ⟨channel,oracleSpecs,friParams,[],[]⟩

/-- The leaf size and the depth of the tree of an oracle's codeword, which has to hold the declared
message and its mask. -/
def commitmentShape (oracleSpecs : List OracleSpec) (friParams : FriParams) (index : ℕ) :
    Option (ℕ × ℕ) := do
  let friOracle ← friParams.inputOracles[index]?
  guard (friOracle.logLift ≤ friParams.rsCode.logDimension)
  let depth := friParams.rsCode.logDimension - friOracle.logLift + friParams.rsCode.logInvRate
  let spec ← oracleSpecs[index]?
  guard (friOracle.logBatchSize + depth - friParams.rsCode.logInvRate =
    spec.logMsgLen + if spec.isZk then 1 else 0)
  return (1 <<< friOracle.logBatchSize,depth)

variable (inner : MerkleIPVerifierChannel F σ K)

/-- Receive an oracle. The declared specification tells its length. -/
def recvOracle (_logMsgLen : ℕ) (_isWitnessDependent : Bool) :
    Fallible Error (BaseFoldVerifierChannel F σ K) ℕ := fun s => do
  guard (s.queue.length < s.oracleSpecs.length)
  let index := s.queue.length
  let (leafSize,depth) ← commitmentShape s.oracleSpecs s.friParams index
  let (outcome,t) ← inner.recvMerkleCommitment leafSize depth s.channel
  match outcome with
  | .error e => return (.error (.merkle e),{ s with channel := t })
  | .ok commitment =>
    return (.ok index,{ s with
      channel := t
      oracleCommitments := s.oracleCommitments ++ [commitment]
      queue := s.queue ++ [[]] })

def verifyOracleRelation (oracle : ℕ) (transparent : TransparentEvalFn F) (claim : F) :
    Fallible Error (BaseFoldVerifierChannel F σ K) Unit := fun s => do
  guard (oracle < s.queue.length)
  return (.ok (),{ s with queue := s.queue.modify oracle fun relations => relations ++ [⟨transparent,claim⟩] })

def channelOver : IOPVerifierChannel F (BaseFoldVerifierChannel F σ K) ℕ where
  toIPVerifierChannel := inner.over BaseFoldVerifierChannel.channel fun t s => { s with channel := t }
  recvOracle := recvOracle inner
  verifyOracleRelation := verifyOracleRelation

end BaseFoldVerifierChannel

end Binius64.OracleChannel
