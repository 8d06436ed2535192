import Binius64.BlockLayout
import Binius64.FieldBuffer
import Binius64.OracleChannel

/-!
# The prover's merging of oracles

The buffers sent between two challenges are committed as one, laid out from the largest to the
smallest.
-/

namespace Binius64.OracleChannel

open Ntt List

structure IOPProverChannel (w : ℕ) (F τ O : Type) where
  sendMany : List F → Infallible τ Unit
  observeMany : List F → Infallible τ Unit
  sample : Infallible τ F
  observeWords : List (BitVec 64) → Infallible τ Unit
  sampleBits : ℕ → Infallible τ (BitVec 64)
  sendOracle : FieldBuffer w F → Infallible τ O
  proveOracleRelation : O → FieldBuffer w F → F → Infallible τ Unit
  finalizeOracle : O → FieldBuffer w F → Infallible τ Unit

namespace MergeProver

structure Mapping where
  group : ℕ
  blockIndex : ℕ
  combinedLogLen : ℕ
deriving DecidableEq

/-- An oracle that is sent. -/
structure Record where
  logMsgLen : ℕ
  mapping : Option Mapping
deriving DecidableEq

/-- The combined oracle of a round. -/
structure Group (w : ℕ) (F O : Type) where
  outer : O
  buffer : Option (FieldBuffer w F)
  nMembers : ℕ
  nFinalized : ℕ

end MergeProver

open MergeProver (Mapping Record Group)

structure MergeProverChannel (w : ℕ) (F τ O : Type) where
  inner : τ
  oracleSpecs : List OracleSpec
  pending : List (FieldBuffer w F)
  records : List MergeProver.Record
  groups : List (Group w F O)

namespace MergeProverChannel

variable {w : ℕ} {F τ O : Type}

def new (inner : τ) (oracleSpecs : List OracleSpec) : MergeProverChannel w F τ O := ⟨inner,oracleSpecs,[],[],[]⟩

def blockIndices (size : ℕ → ℕ) : List ℕ → ℕ → List ℕ → List ℕ
  | [],_,indices => indices
  | k :: order,offset,indices =>
    blockIndices size order (offset + 1 <<< size k) (indices.set k (offset >>> size k))

def resize {α : Type} (xs : List α) (n : ℕ) (a : α) : List α := xs.take n ++ replicate (n - xs.length) a

theorem resize_length {α : Type} (xs : List α) (n : ℕ) (a : α) : (resize xs n a).length = n := by
  rw [resize,length_append,length_take,length_replicate]
  omega

theorem resize_getD {α : Type} (xs : List α) {n i : ℕ} (hi : i < n) (a : α) :
    (resize xs n a).getD i a = xs.getD i a := by
  rw [resize,getD_eq_getElem?_getD,getElem?_append,length_take]
  by_cases hlow : i < xs.length
  · rw [if_pos (lt_min hi hlow),getElem?_take_of_lt hi,getD_eq_getElem?_getD]
  · rw [if_neg (fun h => hlow (h.trans_le (min_le_right _ _))),getElem?_replicate,
      getD_eq_default _ _ (not_lt.mp hlow)]
    split <;> rfl

variable [Field F]

def placeBlock (dst src : FieldBuffer w F) (blockIndex : ℕ) : Option (FieldBuffer w F) := do
  let n := src.logLen
  let offset := blockIndex <<< n
  guard (offset + 1 <<< n ≤ dst.len)
  (range (1 <<< n)).foldlM (fun dst i => do
    let value ← src.get i
    dst.set (offset + i) value) dst

/-- The logarithm of the length of a buffer of the open round. -/
def sizeAt (pending : List (FieldBuffer w F)) (k : ℕ) : ℕ := (pending[k]?.map FieldBuffer.logLen).getD 0

def wordsAt (pending : List (FieldBuffer w F)) (k : ℕ) : List (PackedField w F) :=
  (pending[k]?.map FieldBuffer.words).getD []

/-- The buffers of the open round, from the largest to the smallest. -/
def order (pending : List (FieldBuffer w F)) : List ℕ :=
  (range pending.length).mergeSort fun i j => decide (sizeAt pending j ≤ sizeAt pending i)

def combinedLogLen (pending : List (FieldBuffer w F)) : ℕ :=
  Nat.clog 2 ((order pending).map fun k => 1 <<< sizeAt pending k).sum

def combine (pending : List (FieldBuffer w F)) (blocks : List ℕ) : Option (FieldBuffer w F) := do
  let order := order pending
  -- buffers of whole words come first, and their words follow each other
  let nWhole := (order.takeWhile fun k => decide (w ≤ sizeAt pending k)).length
  let nWords := 1 <<< (combinedLogLen pending - w)
  let words := resize ((order.take nWhole).flatMap (wordsAt pending)) nWords 0
  let combined : FieldBuffer w F := ⟨combinedLogLen pending,words,resize_length _ _ _⟩
  (order.drop nWhole).foldlM (fun combined k => do
    let buffer ← pending[k]?
    let block ← blocks[k]?
    placeBlock combined buffer block) combined

variable (inner : IOPProverChannel w F τ O)

/-- Commit the buffers of the open round as one. -/
def flush : Infallible (MergeProverChannel w F τ O) Unit := fun s =>
  if s.pending = [] then some ((),s) else do
    let firstIndex := s.records.length - s.pending.length
    let blocks := blockIndices (sizeAt s.pending) (order s.pending) 0 (replicate s.pending.length 0)
    let combined ← combine s.pending blocks
    let (outer,t) ← inner.sendOracle combined s.inner
    let groupIndex := s.groups.length
    let nMembers := s.pending.length
    let records := (range nMembers).foldl (fun records k => records.modify (firstIndex + k) fun record =>
      { record with mapping := some ⟨groupIndex,blocks.getD k 0,combinedLogLen s.pending⟩ }) s.records
    return ((),{ s with
      inner := t
      pending := []
      records := records
      groups := s.groups ++ [⟨outer,some combined,nMembers,0⟩] })

/-- Commit the last round and return the channel below. -/
def intoInner (s : MergeProverChannel w F τ O) : Option τ := do
  let (_,s) ← flush inner s
  guard (s.oracleSpecs.length = s.records.length)
  return s.inner

def sendOracle (buffer : FieldBuffer w F) : Infallible (MergeProverChannel w F τ O) ℕ := fun s => do
  guard (s.records.length < s.oracleSpecs.length)
  let records := s.records ++ [⟨buffer.logLen,none⟩]
  return (records.length - 1,{ s with pending := s.pending ++ [buffer], records := records })

def padded (transparent : FieldBuffer w F) (blockIndex combinedLogLen : ℕ) : Option (FieldBuffer w F) :=
  placeBlock (.zeros combinedLogLen) transparent blockIndex

def proveOracleRelation (oracle : ℕ) (transparent : FieldBuffer w F) (claim : F) :
    Infallible (MergeProverChannel w F τ O) Unit := fun s => do
  let (_,s) ← flush inner s
  let record ← s.records[oracle]?
  guard (transparent.logLen = record.logMsgLen)
  let mapping ← record.mapping
  let padded ← padded transparent mapping.blockIndex mapping.combinedLogLen
  let group ← s.groups[mapping.group]?
  let (_,t) ← inner.proveOracleRelation group.outer padded claim s.inner
  return ((),{ s with inner := t })

/-- Hand back a buffer; the combined one is handed back with the last member. -/
def finalizeOracle (oracle : ℕ) (_buffer : FieldBuffer w F) :
    Infallible (MergeProverChannel w F τ O) Unit := fun s => do
  let (_,s) ← flush inner s
  let record ← s.records[oracle]?
  let mapping ← record.mapping
  let group ← s.groups[mapping.group]?
  let group := { group with nFinalized := group.nFinalized + 1 }
  if group.nFinalized = group.nMembers then do
    let combined ← group.buffer
    let (_,t) ← inner.finalizeOracle group.outer combined s.inner
    return ((),{ s with inner := t, groups := s.groups.set mapping.group { group with buffer := none } })
  else return ((),{ s with groups := s.groups.set mapping.group group })

def draw {α : Type} (call : Infallible τ α) : Infallible (MergeProverChannel w F τ O) α := fun s => do
  let (_,s) ← flush inner s
  let (a,t) ← call s.inner
  return (a,{ s with inner := t })

def channel : IOPProverChannel w F (MergeProverChannel w F τ O) ℕ where
  sendMany vals := forward MergeProverChannel.inner (fun t s => { s with inner := t }) (inner.sendMany vals)
  observeMany vals := forward MergeProverChannel.inner (fun t s => { s with inner := t }) (inner.observeMany vals)
  sample := draw inner inner.sample
  observeWords words :=
    forward MergeProverChannel.inner (fun t s => { s with inner := t }) (inner.observeWords words)
  sampleBits bits := draw inner (inner.sampleBits bits)
  sendOracle := sendOracle
  proveOracleRelation := proveOracleRelation inner
  finalizeOracle := finalizeOracle inner

end MergeProverChannel

end Binius64.OracleChannel
