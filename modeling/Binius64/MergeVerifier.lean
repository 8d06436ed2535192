import Binius64.BlockLayout
import Binius64.EqualityTensor
import Binius64.OracleChannel

/-!
# The verifier's merging of oracles

The oracles that arrive between two challenges are received as one.
-/

namespace Binius64.OracleChannel

open EqualityTensor (eqInd)
open Or (inl inr)

structure Mapping (O : Type) where
  outer : O
  blockIndex : ℕ
  combinedLogLen : ℕ
deriving DecidableEq

/-- An oracle that is received. -/
structure Record (O : Type) where
  logMsgLen : ℕ
  isWitnessDependent : Bool
  mapping : Option (Mapping O)
deriving DecidableEq

structure MergeVerifierChannel (σ O : Type) where
  inner : σ
  oracleSpecs : List OracleSpec
  records : List (Record O)
  flushed : ℕ

variable {F σ O : Type}

namespace MergeVerifierChannel

def new (inner : σ) (oracleSpecs : List OracleSpec) : MergeVerifierChannel σ O := ⟨inner,oracleSpecs,[],0⟩

/-- The logarithm of the length of a received oracle. -/
def logMsgLenAt (s : MergeVerifierChannel σ O) (i : ℕ) : ℕ := (s.records[i]?.map Record.logMsgLen).getD 0

def isWitnessDependentAt (s : MergeVerifierChannel σ O) (i : ℕ) : Bool :=
  (s.records[i]?.map Record.isWitnessDependent).getD false

/-- The oracles of the open round, from the largest to the smallest. -/
def order (s : MergeVerifierChannel σ O) : List ℕ :=
  (List.range' s.flushed (s.records.length - s.flushed)).mergeSort fun i j =>
    decide (s.logMsgLenAt j ≤ s.logMsgLenAt i)

/-- Record where the oracles of a round land. -/
def land (size : ℕ → ℕ) (outer : O) (combinedLogLen : ℕ) :
    List ℕ → ℕ → List (Record O) → List (Record O)
  | [],_,records => records
  | i :: order,offset,records =>
    land size outer combinedLogLen order (offset + 1 <<< size i) (records.modify i fun record =>
      { record with mapping := some ⟨outer,offset >>> size i,combinedLogLen⟩ })

variable [Field F] [DecidableEq F] (inner : IOPVerifierChannel F σ O)

/-- Receive the oracles of the open round as one. -/
def flush : Fallible Error (MergeVerifierChannel σ O) Unit := fun s =>
  if s.flushed = s.records.length then some (.ok (),s) else do
    let isWitnessDependent := s.order.any s.isWitnessDependentAt
    let combinedLogLen := mergedLogMsgLen (s.order.map s.logMsgLenAt)
    let (outcome,t) ← inner.recvOracle combinedLogLen isWitnessDependent s.inner
    match outcome with
    | .error e => return (.error e,{ s with inner := t })
    | .ok outer =>
      return (.ok (),{ s with
        inner := t
        records := land s.logMsgLenAt outer combinedLogLen s.order 0 s.records
        flushed := s.records.length })

/-- Flush the last round and return the channel below. -/
def intoInner (s : MergeVerifierChannel σ O) : Option (Except Error σ) := do
  let (outcome,s) ← flush inner s
  match outcome with
  | .error e => return .error e
  | .ok _ =>
    guard (s.oracleSpecs.length = s.records.length)
    return .ok s.inner

def blockPattern (n blockIndex combinedLogLen : ℕ) : List F :=
  (List.range (combinedLogLen - n)).map fun bit => if blockIndex >>> bit &&& 1 = 1 then 1 else 0

def paddedTransparent (n blockIndex combinedLogLen : ℕ) (transparent : TransparentEvalFn F) :
    TransparentEvalFn F := fun point => do
  guard (n ≤ point.length)
  let low := point.take n
  let high := point.drop n
  let indicator ← eqInd high (blockPattern n blockIndex combinedLogLen)
  let value ← transparent low
  return indicator * value

def recvOracle (logMsgLen : ℕ) (isWitnessDependent : Bool) :
    Fallible Error (MergeVerifierChannel σ O) ℕ := fun s => do
  guard (s.records.length < s.oracleSpecs.length)
  let records := s.records ++ [⟨logMsgLen,isWitnessDependent,none⟩]
  return (.ok (records.length - 1),{ s with records := records })

def verifyOracleRelation (oracle : ℕ) (transparent : TransparentEvalFn F) (claim : F) :
    Fallible Error (MergeVerifierChannel σ O) Unit := fun s => do
  let (outcome,s) ← flush inner s
  match outcome with
  | .error e => return (.error e,s)
  | .ok _ =>
    let record ← s.records[oracle]?
    let mapping ← record.mapping
    let (outcome,t) ← inner.verifyOracleRelation mapping.outer
      (paddedTransparent record.logMsgLen mapping.blockIndex mapping.combinedLogLen transparent) claim
      s.inner
    return (outcome,{ s with inner := t })

/-- Draw from the channel below once the round is flushed, whether or not this fails. -/
def draw {α : Type} (call : Infallible σ α) : Infallible (MergeVerifierChannel σ O) α := fun s => do
  let (_,s) ← flush inner s
  let (a,t) ← call s.inner
  return (a,{ s with inner := t })

def channel : IOPVerifierChannel F (MergeVerifierChannel σ O) ℕ where
  toIPVerifierChannel := { inner.over MergeVerifierChannel.inner (fun t s => { s with inner := t }) with
    sample := draw inner inner.sample
    sampleBits := fun bits => draw inner (inner.sampleBits bits) }
  recvOracle := recvOracle
  verifyOracleRelation := verifyOracleRelation inner

theorem mem_order {s : MergeVerifierChannel σ O} {i : ℕ} :
    i ∈ s.order ↔ s.flushed ≤ i ∧ i < s.records.length := by
  rw [order,List.mem_mergeSort,List.mem_range'_1]
  omega

theorem order_nodup (s : MergeVerifierChannel σ O) : s.order.Nodup :=
  (List.mergeSort_perm _ _).nodup_iff.mpr List.nodup_range'

theorem land_length (size : ℕ → ℕ) (outer : O) (combinedLogLen : ℕ) (order : List ℕ) (offset : ℕ)
    (records : List (Record O)) :
    (land size outer combinedLogLen order offset records).length = records.length := by
  induction order generalizing offset records with
  | nil => rfl
  | cons i order ih => rw [land,ih,List.length_modify]

theorem land_getElem? (size : ℕ → ℕ) (outer : O) (combinedLogLen : ℕ) {order : List ℕ}
    (hnodup : order.Nodup) (offset : ℕ) (records : List (Record O)) (i : ℕ) :
    (land size outer combinedLogLen order offset records)[i]? =
      if i ∈ order then records[i]?.map fun record => { record with
        mapping := some ⟨outer,(offset + BlockLayout.start size order i) >>> size i,combinedLogLen⟩ }
      else records[i]? := by
  induction order generalizing offset records with
  | nil => rfl
  | cons j order ih =>
    obtain ⟨hj,hrest⟩ := List.nodup_cons.mp hnodup
    rw [land,ih hrest,List.getElem?_modify]
    by_cases hji : j = i
    · rw [if_neg (hji ▸ hj),if_pos (List.mem_cons.mpr (inl hji.symm)),hji,BlockLayout.start_cons_self]
      simp
    · have hmem : i ∈ order ↔ i ∈ j :: order := by
        rw [List.mem_cons]
        exact ⟨inr,fun h => h.resolve_left fun h => hji h.symm⟩
      rw [if_congr hmem rfl rfl,BlockLayout.start_cons_of_ne size hji,Nat.shiftLeft_eq,one_mul,add_assoc]
      simp [hji]

theorem call_cases {inner : IOPVerifierChannel F σ O} {R : σ → σ → Prop}
    (hmoves : inner.toIPVerifierChannel.Moves R) {call : VerifierCall F ℕ} {s s' : MergeVerifierChannel σ O}
    {outcome : Except Error (Answer F ℕ)} (h : (channel inner).call call s = some (outcome,s')) :
    (call.draws = false ∧ ∃ t, R s.inner t ∧ s' = { s with inner := t }) ∨
    (∃ flushed s₁ t, flush inner s = some (flushed,s₁) ∧ R s₁.inner t ∧ s' = { s₁ with inner := t }) ∨
    (∃ logMsgLen dependent,
      s' = { s with records := s.records ++ [⟨logMsgLen,dependent,none⟩] }) ∨
    (∃ e, flush inner s = some (.error e,s')) ∨
    ∃ s₁ outer transparent claim opened t, flush inner s = some (.ok (),s₁) ∧
      inner.verifyOracleRelation outer transparent claim s₁.inner = some (opened,t) ∧
        s' = { s₁ with inner := t } := by
  have hbase := hmoves.over (fun s : MergeVerifierChannel σ O => s.inner) fun t s => { s with inner := t }
  have hdraw : ∀ {α : Type} {answer : Infallible σ α} {s s' : MergeVerifierChannel σ O} {a : α},
      (∀ {s r s'}, answer s = some (r,s') → R s s') → draw inner answer s = some (a,s') →
        ∃ flushed s₁ t, flush inner s = some (flushed,s₁) ∧ R s₁.inner t ∧ s' = { s₁ with inner := t } := by
    intro α answer s s' a hanswer h
    obtain ⟨⟨flushed,s₁⟩,hflush,h⟩ := Option.bind_eq_some_iff.mp h
    obtain ⟨⟨b,t⟩,hdrawn,h⟩ := Option.bind_eq_some_iff.mp h
    cases h
    exact ⟨flushed,s₁,t,hflush,hanswer hdrawn,rfl⟩
  cases call with
  | recvOne =>
    obtain ⟨⟨r,s₁⟩,hr,h⟩ := Option.bind_eq_some_iff.mp h
    cases h
    exact inl ⟨rfl,hbase.recvOne hr⟩
  | recvMany n =>
    obtain ⟨⟨r,s₁⟩,hr,h⟩ := Option.bind_eq_some_iff.mp h
    cases h
    exact inl ⟨rfl,hbase.recvMany hr⟩
  | recvArray n =>
    obtain ⟨⟨r,s₁⟩,hr,h⟩ := Option.bind_eq_some_iff.mp h
    cases h
    exact inl ⟨rfl,hbase.recvArray hr⟩
  | recvPublicClaim =>
    obtain ⟨⟨r,s₁⟩,hr,h⟩ := Option.bind_eq_some_iff.mp h
    cases h
    exact inl ⟨rfl,hbase.recvPublicClaim hr⟩
  | sample =>
    obtain ⟨⟨r,s₁⟩,hr,h⟩ := Option.bind_eq_some_iff.mp h
    cases h
    exact inr (inl (hdraw hmoves.sample hr))
  | observeOne val =>
    obtain ⟨⟨r,s₁⟩,hr,h⟩ := Option.bind_eq_some_iff.mp h
    cases h
    exact inl ⟨rfl,hbase.observeOne hr⟩
  | observeMany vals =>
    obtain ⟨⟨r,s₁⟩,hr,h⟩ := Option.bind_eq_some_iff.mp h
    cases h
    exact inl ⟨rfl,hbase.observeMany hr⟩
  | assertZero val =>
    obtain ⟨⟨r,s₁⟩,hr,h⟩ := Option.bind_eq_some_iff.mp h
    cases h
    exact inl ⟨rfl,hbase.assertZero hr⟩
  | observeWords words =>
    obtain ⟨⟨r,s₁⟩,hr,h⟩ := Option.bind_eq_some_iff.mp h
    cases h
    exact inl ⟨rfl,hbase.observeWords hr⟩
  | sampleBits bits =>
    obtain ⟨⟨r,s₁⟩,hr,h⟩ := Option.bind_eq_some_iff.mp h
    cases h
    exact inr (inl (hdraw hmoves.sampleBits hr))
  | recvOracle logMsgLen dependent =>
    obtain ⟨⟨r,s₁⟩,hr,h⟩ := Option.bind_eq_some_iff.mp h
    cases h
    obtain ⟨-,-,hr⟩ := Option.bind_eq_some_iff.mp hr
    cases hr
    exact inr (inr (inl ⟨logMsgLen,dependent,rfl⟩))
  | verifyOracleRelation oracle transparent claim =>
    obtain ⟨⟨r,s₁⟩,hr,h⟩ := Option.bind_eq_some_iff.mp h
    cases h
    obtain ⟨⟨flushed,s₂⟩,hflush,hr⟩ := Option.bind_eq_some_iff.mp hr
    cases flushed with
    | error e =>
      cases hr
      exact inr (inr (inr (inl ⟨e,hflush⟩)))
    | ok u =>
      obtain ⟨record,-,hr⟩ := Option.bind_eq_some_iff.mp hr
      obtain ⟨mapping,-,hr⟩ := Option.bind_eq_some_iff.mp hr
      obtain ⟨⟨opened,t⟩,hopened,hr⟩ := Option.bind_eq_some_iff.mp hr
      cases hr
      exact inr (inr (inr (inr ⟨s₂,_,_,_,_,t,hflush,hopened,rfl⟩)))

theorem call_draws {inner : IOPVerifierChannel F σ ℕ} {call : VerifierCall F ℕ} (hdraws : call.draws = true)
    {s s' : MergeVerifierChannel σ ℕ} {outcome : Except Error (Answer F ℕ)}
    (h : (channel inner).call call s = some (outcome,s')) :
    ∃ flushed s₁ t, flush inner s = some (flushed,s₁) ∧ inner.call call s₁.inner = some (outcome,t) ∧
      s' = { s₁ with inner := t } := by
  have hdraw : ∀ {α : Type} {answer : α → Answer F ℕ} {base : Infallible σ α},
      IOPVerifierChannel.tellOk answer (draw inner base) s = some (outcome,s') →
        ∃ flushed s₁ t, flush inner s = some (flushed,s₁) ∧
          IOPVerifierChannel.tellOk answer base s₁.inner = some (outcome,t) ∧ s' = { s₁ with inner := t } := by
    intro α answer base h
    obtain ⟨⟨a,s₃⟩,hdrawn,h⟩ := Option.bind_eq_some_iff.mp h
    obtain ⟨⟨flushed,s₁⟩,hflush,hdrawn⟩ := Option.bind_eq_some_iff.mp hdrawn
    obtain ⟨⟨b,t⟩,hbase,hdrawn⟩ := Option.bind_eq_some_iff.mp hdrawn
    cases hdrawn
    cases h
    exact ⟨flushed,s₁,t,hflush,Option.bind_eq_some_iff.mpr ⟨_,hbase,rfl⟩,rfl⟩
  cases call with
  | sample => exact hdraw h
  | sampleBits bits => exact hdraw h
  | _ => cases hdraws

end MergeVerifierChannel

end Binius64.OracleChannel
