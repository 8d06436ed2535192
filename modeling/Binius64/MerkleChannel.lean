import Binius64.MerkleProver
import Binius64.ReedSolomon
import Binius64.ReplayedRuns
import Binius64.TranscriptChannel

/-!
# Merkle channels

A prover commits to buffers and opens their leaves over its transcript, a verifier receives
commitments and openings over its own.
-/

namespace Binius64.Ntt

def Buffer.iterScalars {F : Type} (buffer : Buffer F) : List F :=
  (List.range (1 <<< buffer.logLen)).map buffer.scalars

def Buffer.chunk {F : Type} (buffer : Buffer F) (logChunkSize chunkIndex : ℕ) : List F :=
  (List.range (1 <<< logChunkSize)).map fun j => buffer.scalars ((chunkIndex <<< logChunkSize) + j)

end Binius64.Ntt

namespace Binius64.MerkleChannel

open Ntt (Buffer)
open FiatShamir ReplayedRuns ByteCodec MerkleTree MerkleProver
open OracleChannel (MerkleError IpError Fallible Infallible merkleTranscriptChannel)

structure ScalarCodec (F : Type) extends FixedSizeSerializeBytes F where
  total : ∀ x, ∃ bytes, serialize x = .ok bytes

inductive Stop where
  /-- An assertion of the program fails. -/
  | panic
  /-- An opening is not accepted. -/
  | merkle (failure : Failure)
  /-- The transcript is too short. -/
  | transcript (error : MerkleError)
  | ipChannel (error : IpError)
deriving DecidableEq

structure MerkleIPProverChannel (F σ K : Type) where
  sampleBits : ℕ → Writing σ (BitVec 64)
  sendMerkleCommitment : Buffer F → ℕ → Writing σ K
  sendOpenings : K → Buffer F → List (BitVec 64) → Writing σ Unit
  sendCommittedVector : K → Buffer F → Writing σ Unit

structure MerkleIPVerifierChannel (F τ K : Type) where
  sampleBits : ℕ → Reading τ Stop (BitVec 64)
  assertZero : F → Reading τ Stop Unit
  /-- Receive the commitment of a tree, from the leaf size and the depth. -/
  recvMerkleCommitment : ℕ → ℕ → Reading τ Stop K
  recvOpenings : K → List (BitVec 64) → Reading τ Stop (List F)
  recvCommittedVector : K → Reading τ Stop (List F)

section Transcripts

variable {F σ : Type} {n : ℕ} (C : Challenger σ) (G : Growth) (H : HashSuite n) (codec : ScalarCodec F)

structure ProverMerkleCommitment (n : ℕ) where
  committed : BinaryMerkleTree n
  depth : ℕ
  logLeafSize : ℕ

def sendMerkleCommitment (data : Buffer F) (leafSize : ℕ) :
    Writing (ProverTranscript σ) (ProverMerkleCommitment n) := fun t => do
  guard leafSize.isPowerOfTwo
  let logLeafSize := Nat.log2 leafSize
  guard (logLeafSize ≤ data.logLen)
  let tree ← (BinaryMerkleTree.fromLeaves H codec.toFixedSizeSerializeBytes
    (chunks (1 <<< logLeafSize) data.iterScalars)).toOption
  let root ← tree.root.toOption
  let t ← t.message C G [.value (Codec.array n) root.bytes]
  return (⟨tree,tree.logLen,logLeafSize⟩,t)

variable (commitment : ProverMerkleCommitment n)

def openingBytes (data : Buffer F) (layerDepth idx : ℕ) : Option (List UInt8) := do
  let leaf ← (leafBytes codec.toFixedSizeSerializeBytes (data.chunk commitment.logLeafSize idx)).toOption
  let branch ← (commitment.committed.branch idx layerDepth).toOption
  let siblings ← (writeAll (branch.map Digest.serialize) : Encoded Failure).toOption
  return leaf ++ siblings

def sendOpenings (data : Buffer F) (indices : List (BitVec 64)) : Writing (ProverTranscript σ) Unit := fun t => do
  guard (commitment.depth = data.logLen - commitment.logLeafSize)
  let indices := indices.map BitVec.toNat
  guard (indices.all (· < 1 <<< commitment.depth))
  let layerDepth := optimalVerifyLayer indices.length commitment.depth
  let layer ← (commitment.committed.layer layerDepth).toOption
  let layerBytes ← (writeAll (layer.map Digest.serialize) : Encoded Failure).toOption
  let openings ← indices.mapM (openingBytes codec commitment data layerDepth)
  let t ← t.decommitment G ((layerBytes :: openings).map (Item.bytes (V := Unit)))
  return ((),t)

def sendCommittedVector (data : Buffer F) : Writing (ProverTranscript σ) Unit := fun t => do
  guard (commitment.depth = data.logLen - commitment.logLeafSize)
  let bytes ← (leafBytes codec.toFixedSizeSerializeBytes data.iterScalars).toOption
  let t ← t.decommitment G [Item.bytes (V := Unit) bytes]
  return ((),t)

def proverMerkleTranscriptChannel :
    MerkleIPProverChannel F (ProverTranscript σ) (ProverMerkleCommitment n) where
  sampleBits bits t :=
    let (sampled,t) := t.sampleBits C bits
    some (BitVec.ofNat 64 sampled,t)
  sendMerkleCommitment := sendMerkleCommitment C G H codec
  sendOpenings := sendOpenings G codec
  sendCommittedVector := sendCommittedVector G codec

structure Commitment (n : ℕ) where
  root : Digest n
  depth : ℕ
  leafSize : ℕ

def orStop {τ ε α : Type} (stop : ε → Stop) (call : Fallible ε τ α) : Reading τ Stop α := fun u =>
  match call u with
  | none => .error .panic
  | some (.error e,_) => .error (stop e)
  | some (.ok a,u) => .ok (a,u)

/-- Make a call that does not fail. -/
def orPanic {τ α : Type} (call : Infallible τ α) : Reading τ Stop α := fun u =>
  match call u with
  | none => .error .panic
  | some r => .ok r

def decommit {α : Type} (decoder : Decoder Failure α) : Reading (VerifierTranscript σ) Stop α := fun t =>
  match decoder t.combined.buffer with
  | .error .precondition => .error .panic
  | .error failure => .error (.merkle failure)
  | .ok (a,rest) => .ok (a,{ t with combined := { t.combined with buffer := rest } })

variable [Zero F] [DecidableEq F] (scalar : Codec F)

def verifierMerkleTranscriptChannel :
    MerkleIPVerifierChannel F (VerifierTranscript σ) (Commitment n) where
  sampleBits bits := orPanic ((merkleTranscriptChannel C scalar n).sampleBits bits)
  assertZero val := orStop .ipChannel ((merkleTranscriptChannel C scalar n).assertZero val)
  recvMerkleCommitment leafSize depth := do
    let received ← orStop .transcript ((merkleTranscriptChannel C scalar n).recvMerkleCommitment leafSize depth)
    if h : received.root.length = n then
      return ⟨⟨received.root,h⟩,received.depth,received.leafSize⟩
    else throw .panic
  recvOpenings commitment indices := decommit (MerkleTree.recvOpenings H
    codec.toFixedSizeSerializeBytes commitment.root commitment.depth commitment.leafSize
    (indices.map BitVec.toNat))
  recvCommittedVector commitment := decommit (MerkleTree.recvCommittedVector H
    codec.toFixedSizeSerializeBytes commitment.root commitment.depth commitment.leafSize)

end Transcripts

end Binius64.MerkleChannel
