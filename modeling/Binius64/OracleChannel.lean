import Binius64.Transcript
import Mathlib.Data.Nat.Log

/-!
# Channels of oracle protocols

A verifier works over a channel: it receives messages, observes data, samples challenges, receives
commitments of oracles and queues linear relations on them.
-/

namespace Binius64.OracleChannel

/-- A call that may fail, and may panic. -/
abbrev Fallible (ε σ α : Type) := σ → Option (Except ε α × σ)

/-- A call that may panic. -/
abbrev Infallible (σ α : Type) := σ → Option (α × σ)

/-- The failures of an interactive protocol's channel. -/
inductive IpError where
  | proofEmpty
  | invalidAssert
deriving DecidableEq

inductive MerkleError where
  | transcript (error : FiatShamir.Error)
deriving DecidableEq

/-- The failures of an oracle protocol's channel. -/
inductive Error where
  /-- The interactive protocol's channel fails. -/
  | ipChannel (error : IpError)
  | merkle (error : MerkleError)
deriving DecidableEq

/-- A transparent polynomial, evaluated at a point. A point of a wrong length panics. -/
abbrev TransparentEvalFn (F : Type) := List F → Option F

/-- The verifier's channel of an interactive protocol that also carries words. -/
structure IPVerifierChannel (F σ : Type) where
  recvOne : Fallible IpError σ F
  recvMany : ℕ → Fallible IpError σ (List F)
  recvArray : ℕ → Fallible IpError σ (List F)
  recvPublicClaim : Fallible IpError σ F
  sample : Infallible σ F
  observeOne : F → Infallible σ F
  observeMany : List F → Infallible σ (List F)
  assertZero : F → Fallible IpError σ Unit
  observeWords : List (BitVec 64) → Infallible σ (List (BitVec 64))
  sampleBits : ℕ → Infallible σ (BitVec 64)

structure MerkleIPVerifierChannel (F σ K : Type) extends IPVerifierChannel F σ where
  /-- Receive the commitment of a tree, from the leaf size and the depth. -/
  recvMerkleCommitment : ℕ → ℕ → Fallible MerkleError σ K

structure IOPVerifierChannel (F σ O : Type) extends IPVerifierChannel F σ where
  /-- Receive an oracle, from the logarithm of its length and whether it depends on the witness. -/
  recvOracle : ℕ → Bool → Fallible Error σ O
  verifyOracleRelation : O → TransparentEvalFn F → F → Fallible Error σ Unit

section Forward

variable {F σ S ε α : Type} (get : S → σ) (put : σ → S → S)

def forward (call : Infallible σ α) : Infallible S α := fun s => do
  let (a,t) ← call (get s)
  return (a,put t s)

def IPVerifierChannel.over (ch : IPVerifierChannel F σ) : IPVerifierChannel F S where
  recvOne := forward get put ch.recvOne
  recvMany n := forward get put (ch.recvMany n)
  recvArray n := forward get put (ch.recvArray n)
  recvPublicClaim := forward get put ch.recvPublicClaim
  sample := forward get put ch.sample
  observeOne val := forward get put (ch.observeOne val)
  observeMany vals := forward get put (ch.observeMany vals)
  assertZero val := forward get put (ch.assertZero val)
  observeWords words := forward get put (ch.observeWords words)
  sampleBits bits := forward get put (ch.sampleBits bits)

theorem forward_eq_some {call : Infallible σ α} {s s' : S} {a : α}
    (h : forward get put call s = some (a,s')) : ∃ t, call (get s) = some (a,t) ∧ s' = put t s := by
  obtain ⟨⟨b,t⟩,hcall,h⟩ := Option.bind_eq_some_iff.mp h
  cases h
  exact ⟨t,hcall,rfl⟩

end Forward

section Moves

variable {F σ : Type}

structure IPVerifierChannel.Moves (ch : IPVerifierChannel F σ) (R : σ → σ → Prop) : Prop where
  recvOne : ∀ {s r s'}, ch.recvOne s = some (r,s') → R s s'
  recvMany : ∀ {n s r s'}, ch.recvMany n s = some (r,s') → R s s'
  recvArray : ∀ {n s r s'}, ch.recvArray n s = some (r,s') → R s s'
  recvPublicClaim : ∀ {s r s'}, ch.recvPublicClaim s = some (r,s') → R s s'
  sample : ∀ {s r s'}, ch.sample s = some (r,s') → R s s'
  observeOne : ∀ {val s r s'}, ch.observeOne val s = some (r,s') → R s s'
  observeMany : ∀ {vals s r s'}, ch.observeMany vals s = some (r,s') → R s s'
  assertZero : ∀ {val s r s'}, ch.assertZero val s = some (r,s') → R s s'
  observeWords : ∀ {words s r s'}, ch.observeWords words s = some (r,s') → R s s'
  sampleBits : ∀ {bits s r s'}, ch.sampleBits bits s = some (r,s') → R s s'

theorem IPVerifierChannel.Moves.over {S : Type} {ch : IPVerifierChannel F σ} {R : σ → σ → Prop}
    (h : ch.Moves R) (get : S → σ) (put : σ → S → S) :
    (ch.over get put).Moves fun s s' => ∃ t, R (get s) t ∧ s' = put t s := by
  have hmove : ∀ {α : Type} {call : Infallible σ α} {s : S} {r : α} {s' : S},
      (∀ {s r s'}, call s = some (r,s') → R s s') → OracleChannel.forward get put call s = some (r,s') →
        ∃ t, R (get s) t ∧ s' = put t s := by
    intro α call s r s' hcall hforward
    obtain ⟨t,ht,hs'⟩ := forward_eq_some get put hforward
    exact ⟨t,hcall ht,hs'⟩
  exact ⟨hmove h.recvOne,hmove h.recvMany,hmove h.recvArray,hmove h.recvPublicClaim,hmove h.sample,
    hmove h.observeOne,hmove h.observeMany,hmove h.assertZero,hmove h.observeWords,hmove h.sampleBits⟩

end Moves

inductive VerifierCall (F O : Type) where
  | recvOne
  | recvMany (n : ℕ)
  /-- Receive an array of elements. -/
  | recvArray (n : ℕ)
  /-- Receive a value that the verifier checks by itself. -/
  | recvPublicClaim
  | sample
  | observeOne (val : F)
  | observeMany (vals : List F)
  /-- Require a value to be zero. -/
  | assertZero (val : F)
  | observeWords (words : List (BitVec 64))
  | sampleBits (bits : ℕ)
  | recvOracle (logMsgLen : ℕ) (isWitnessDependent : Bool)
  /-- Queue a relation on an oracle. -/
  | verifyOracleRelation (oracle : O) (transparent : TransparentEvalFn F) (claim : F)

/-- What a call returns. -/
inductive Answer (F O : Type) where
  | elem (val : F)
  | elems (vals : List F)
  | word (val : BitVec 64)
  | words (vals : List (BitVec 64))
  | oracle (handle : O)
  | done

def VerifierCall.draws {F O : Type} : VerifierCall F O → Bool
  | .sample => true
  | .sampleBits _ => true
  | _ => false

namespace IOPVerifierChannel

variable {F σ O : Type} (ch : IOPVerifierChannel F σ O)

def tell {ε α : Type} (answer : α → Answer F O) (error : ε → Error) (call : Fallible ε σ α) :
    Fallible Error σ (Answer F O) := fun s => do
  let (outcome,s) ← call s
  return ((outcome.map answer).mapError error,s)

def tellOk {α : Type} (answer : α → Answer F O) (call : Infallible σ α) :
    Fallible Error σ (Answer F O) := fun s => do
  let (a,s) ← call s
  return (.ok (answer a),s)

def call : VerifierCall F O → Fallible Error σ (Answer F O)
  | .recvOne => tell .elem .ipChannel ch.recvOne
  | .recvMany n => tell .elems .ipChannel (ch.recvMany n)
  | .recvArray n => tell .elems .ipChannel (ch.recvArray n)
  | .recvPublicClaim => tell .elem .ipChannel ch.recvPublicClaim
  | .sample => tellOk .elem ch.sample
  | .observeOne val => tellOk .elem (ch.observeOne val)
  | .observeMany vals => tellOk .elems (ch.observeMany vals)
  | .assertZero val => tell (fun _ => .done) .ipChannel (ch.assertZero val)
  | .observeWords words => tellOk .words (ch.observeWords words)
  | .sampleBits bits => tellOk .word (ch.sampleBits bits)
  | .recvOracle logMsgLen isWitnessDependent =>
    tell .oracle id (ch.recvOracle logMsgLen isWitnessDependent)
  | .verifyOracleRelation oracle transparent claim =>
    tell (fun _ => .done) id (ch.verifyOracleRelation oracle transparent claim)

/-- Make calls in turn, whatever they return. -/
def run : List (VerifierCall F O) → Infallible σ (List (Except Error (Answer F O)))
  | [],s => some ([],s)
  | call :: calls,s => do
    let (answer,s) ← ch.call call s
    let (answers,s) ← run calls s
    return (answer :: answers,s)

theorem run_append {calls later : List (VerifierCall F O)} {s s' : σ}
    {answers : List (Except Error (Answer F O))} (h : ch.run (calls ++ later) s = some (answers,s')) :
    ∃ first rest t, ch.run calls s = some (first,t) ∧ ch.run later t = some (rest,s') := by
  induction calls generalizing s answers with
  | nil => exact ⟨[],answers,s,rfl,h⟩
  | cons call calls ih =>
    obtain ⟨⟨answer,s₁⟩,hcall,h⟩ := Option.bind_eq_some_iff.mp h
    obtain ⟨⟨tail,s₂⟩,hrun,h⟩ := Option.bind_eq_some_iff.mp h
    cases h
    obtain ⟨first,rest,t,hfirst,hrest⟩ := ih hrun
    refine ⟨answer :: first,rest,t,?_,hrest⟩
    exact Option.bind_eq_some_iff.mpr ⟨_,hcall,Option.bind_eq_some_iff.mpr ⟨_,hfirst,rfl⟩⟩

theorem run_preserves {P : σ → Prop}
    (hstep : ∀ call s outcome s', ch.call call s = some (outcome,s') → P s → P s')
    {calls : List (VerifierCall F O)} {s s' : σ} {answers : List (Except Error (Answer F O))}
    (h : ch.run calls s = some (answers,s')) (hs : P s) : P s' := by
  induction calls generalizing s answers with
  | nil =>
    cases h
    exact hs
  | cons call calls ih =>
    obtain ⟨⟨answer,s₁⟩,hcall,h⟩ := Option.bind_eq_some_iff.mp h
    obtain ⟨⟨tail,s₂⟩,hrun,h⟩ := Option.bind_eq_some_iff.mp h
    cases h
    exact ih hrun (hstep _ _ _ _ hcall hs)

end IOPVerifierChannel

structure OracleSpec where
  logMsgLen : ℕ
  isZk : Bool
deriving DecidableEq

/-- The length of the oracle that a round's oracles are committed as. -/
def mergedLogMsgLen (logMsgLens : List ℕ) : ℕ := Nat.clog 2 (logMsgLens.map (1 <<< ·)).sum

/-- The oracles of a protocol with the ends of their rounds. -/
structure OracleSchedule where
  specs : List OracleSpec
  ends : List ℕ

namespace OracleSchedule

def new : OracleSchedule := ⟨[],[]⟩

def push (spec : OracleSpec) (s : OracleSchedule) : OracleSchedule := { s with specs := s.specs ++ [spec] }

variable (s : OracleSchedule)

/-- Close the open round, unless it is empty. -/
def endRound : OracleSchedule :=
  let openStart := s.ends.getLast?.getD 0
  if openStart < s.specs.length then { s with ends := s.ends ++ [s.specs.length] } else s

def rounds : List (List OracleSpec) :=
  ((0 :: s.ends).zip s.ends).map fun entry => (s.specs.drop entry.1).take (entry.2 - entry.1)

def mergedSpec (round : List OracleSpec) : OracleSpec :=
  ⟨mergedLogMsgLen (round.map OracleSpec.logMsgLen),round.any OracleSpec.isZk⟩

def mergedSpecs : List OracleSpec := s.rounds.map mergedSpec

end OracleSchedule

structure OracleSetupChannel where
  isZk : Bool
  schedule : OracleSchedule

namespace OracleSetupChannel

def new (isZk : Bool) : OracleSetupChannel := ⟨isZk,.new⟩

def recvOracle (logMsgLen : ℕ) (isWitnessDependent : Bool) (s : OracleSetupChannel) : OracleSetupChannel :=
  { s with schedule := s.schedule.push ⟨logMsgLen,s.isZk && isWitnessDependent⟩ }

variable (s : OracleSetupChannel)

def sample : OracleSetupChannel := { s with schedule := s.schedule.endRound }

/-- A sampled word ends the round too. -/
def sampleBits (_bits : ℕ) (s : OracleSetupChannel) : OracleSetupChannel :=
  { s with schedule := s.schedule.endRound }

def verifyOracleRelation : OracleSetupChannel :=
  { s with schedule := s.schedule.endRound }

/-- What is recorded, with the last round closed. -/
def intoOracleSchedule : OracleSchedule := s.schedule.endRound

/-- Make a call. The others record nothing. -/
def call {F O : Type} : VerifierCall F O → OracleSetupChannel → OracleSetupChannel
  | .recvOracle logMsgLen isWitnessDependent,s => s.recvOracle logMsgLen isWitnessDependent
  | .sample,s => s.sample
  | .sampleBits bits,s => s.sampleBits bits
  | .verifyOracleRelation _ _ _,s => s.verifyOracleRelation
  | _,s => s

end OracleSetupChannel

end Binius64.OracleChannel
