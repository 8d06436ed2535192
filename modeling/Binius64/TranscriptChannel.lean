import Binius64.OracleChannel
import Binius64.TranscriptReplay

/-!
# Channels over transcripts

A transcript is a channel that also receives Merkle commitments: their roots are messages.
-/

namespace Binius64.OracleChannel

open FiatShamir List

variable {F σ : Type}

section Channel

variable (C : Challenger σ) (scalar : Codec F)

/-- Receive an element. -/
def recvScalar : Fallible IpError (VerifierTranscript σ) F := fun t =>
  let (outcome,combined) := scalar.deserialize.run (FiatShamirBuf.buf C) t.combined
  some (outcome.mapError fun _ => .proofEmpty,{ t with combined := combined })

def dataValues (read : List (Data F)) : List F :=
  read.filterMap fun
    | .value v => some v
    | _ => none

/-- Receive elements. -/
def recvScalars (n : ℕ) : Fallible IpError (VerifierTranscript σ) (List F) := fun t =>
  let (read,t) := t.message C (replicate n (.value scalar))
  some ((read.map dataValues).mapError fun _ => .proofEmpty,t)

def observeValues {V : Type} (codec : Codec V) (vals : List V) :
    Infallible (VerifierTranscript σ) (List V) := fun t =>
  match t.observe C (vals.map (.value codec)) with
  | (.ok _,t) => some (vals,t)
  | (.error _,_) => none

def transcriptChannel [Zero F] [DecidableEq F] : IPVerifierChannel F (VerifierTranscript σ) where
  recvOne := recvScalar C scalar
  recvMany := recvScalars C scalar
  recvArray := recvScalars C scalar
  recvPublicClaim := recvScalar C scalar
  sample t :=
    match t.sample C scalar.deserialize with
    | (.ok val,t) => some (val,t)
    | (.error _,_) => none
  observeOne val t := do
    let (_,t) ← observeValues C scalar [val] t
    return (val,t)
  observeMany := observeValues C scalar
  assertZero val t := some (if val = 0 then .ok () else .error .invalidAssert,t)
  observeWords := observeValues C Codec.u64
  sampleBits bits t :=
    let (sampled,t) := t.sampleBits C bits
    some (BitVec.ofNat 64 sampled,t)

structure TranscriptMerkleCommitment where
  root : List UInt8
  depth : ℕ
  leafSize : ℕ

def merkleTranscriptChannel [Zero F] [DecidableEq F] (digestSize : ℕ) :
    MerkleIPVerifierChannel F (VerifierTranscript σ) TranscriptMerkleCommitment where
  toIPVerifierChannel := transcriptChannel C scalar
  recvMerkleCommitment leafSize depth t :=
    let (root,combined) := (Codec.array digestSize).deserialize.run (FiatShamirBuf.buf C) t.combined
    some ((root.map fun root => ⟨root,depth,leafSize⟩).mapError fun error =>
      .transcript (.serialization error),{ t with combined := combined })

end Channel

/-- What happens to a challenger. -/
inductive Event where
  | observed (byte : UInt8)
  | drawn (count : ℕ)
deriving DecidableEq

structure Recorded (σ : Type) where
  challenger : σ
  log : List Event

def recording (C : Challenger σ) : Challenger (Recorded σ) where
  observer c := ⟨C.observer c.challenger,c.log⟩
  putSlice bytes c := ⟨C.putSlice bytes c.challenger,c.log ++ bytes.map .observed⟩
  sampler c := ⟨C.sampler c.challenger,c.log⟩
  copyToSlice n c :=
    let (bytes,challenger) := C.copyToSlice n c.challenger
    (bytes,⟨challenger,c.log ++ [.drawn n]⟩)
  observe_append c a b := by
    rw [C.observe_append,append_assoc,map_append]

theorem absorb_log (C : Challenger σ) (c : Recorded σ) (bytes : List UInt8) :
    (absorb (recording C) c bytes).log = c.log ++ bytes.map .observed := by
  rw [absorb]
  split
  · rename_i hnil
    rw [hnil,map_nil,append_nil]
  · rfl

/-- A transcript goes on: nothing is put back on the tape, and nothing that happened is undone. -/
structure Advances (t t' : VerifierTranscript (Recorded σ)) : Prop where
  remaining : t'.combined.buffer.length ≤ t.combined.buffer.length
  log : t.combined.challenger.log <+: t'.combined.challenger.log

theorem Advances.refl (t : VerifierTranscript (Recorded σ)) : Advances t t := ⟨le_rfl,prefix_rfl⟩

section Calls

variable (C : Challenger σ)

theorem Advances.of_observed {α : Type} {read : List UInt8 → α × List UInt8}
    {observed : FiatShamirBuf (List UInt8) (Recorded σ) → α × FiatShamirBuf (List UInt8) (Recorded σ)}
    (h : Observed (recording C) read observed) (t : VerifierTranscript (Recorded σ)) :
    Advances t { t with combined := (observed t.combined).2 } := by
  obtain ⟨used,hused,hobserved⟩ := h t.combined.buffer t.combined.challenger
  rw [hobserved]
  refine ⟨?_,?_⟩
  · conv_rhs => rw [hused]
    rw [length_append]
    exact Nat.le_add_left _ _
  · rw [absorb_log]
    exact prefix_append _ _

theorem putSlices_log (slices : List (List UInt8)) (c : Recorded σ) :
    c.log <+: (slices.foldl (fun c slice => (recording C).putSlice slice c) c).log := by
  induction slices generalizing c with
  | nil => exact prefix_rfl
  | cons slice slices ih =>
    have hput : c.log <+: ((recording C).putSlice slice c).log := prefix_append c.log _
    exact hput.trans (ih _)

theorem drawn_log {V : Type} (reader : Reader V) (c : Recorded σ) :
    c.log <+: (reader.run (samplerBuf (recording C)) c).2.log := by
  induction reader generalizing c with
  | done a => exact prefix_rfl
  | fail e => exact prefix_rfl
  | take n next ih =>
    have hdraw : c.log <+: ((recording C).copyToSlice n c).2.log := prefix_append c.log _
    exact hdraw.trans (ih _ _)

theorem observeValues_advances {V : Type} {codec : Codec V} {vals r : List V}
    {t t' : VerifierTranscript (Recorded σ)}
    (h : observeValues (recording C) codec vals t = some (r,t')) : Advances t t' := by
  rw [observeValues,VerifierTranscript.observe] at h
  cases hslices : itemSlices t.options (vals.map (.value codec)) with
  | none =>
    rw [hslices] at h
    cases h
  | some slices =>
    rw [hslices] at h
    cases h
    exact ⟨le_rfl,putSlices_log C slices ((recording C).observer t.combined.challenger)⟩

theorem transcriptChannel_moves [Zero F] [DecidableEq F] (scalar : Codec F) :
    (transcriptChannel (recording C) scalar).Moves Advances := by
  have hscalar : ∀ {t r t'}, recvScalar (recording C) scalar t = some (r,t') → Advances t t' := by
    intro t r t' h
    cases h
    exact .of_observed C (Reader.observed (recording C) scalar.deserialize) t
  have hscalars : ∀ {n t r t'}, recvScalars (recording C) scalar n t = some (r,t') → Advances t t' := by
    intro n t r t' h
    cases h
    exact .of_observed C (readShapes_observed (recording C) t.options _) t
  refine ⟨hscalar,hscalars,hscalars,hscalar,?_,?_,observeValues_advances C,?_,observeValues_advances C,?_⟩
  · intro t r t' h
    have hdrawn := drawn_log C scalar.deserialize ((recording C).sampler t.combined.challenger)
    simp only [transcriptChannel,VerifierTranscript.sample] at h
    split at h
    · rename_i outcome val t₁ hval
      cases h
      cases (Prod.ext_iff.mp hval).2
      exact ⟨le_rfl,hdrawn⟩
    · cases h
  · intro val t r t' h
    obtain ⟨⟨vals,t₁⟩,hobserve,h⟩ := Option.bind_eq_some_iff.mp h
    cases h
    exact observeValues_advances C hobserve
  · intro val t r t' h
    cases h
    exact .refl t
  · intro bits t r t' h
    cases h
    exact ⟨le_rfl,prefix_append t.combined.challenger.log _⟩

theorem recvMerkleCommitment_cases [Zero F] [DecidableEq F] (scalar : Codec F) {digestSize leafSize depth : ℕ}
    {t t' : VerifierTranscript (Recorded σ)} {outcome : Except MerkleError TranscriptMerkleCommitment}
    (h : (merkleTranscriptChannel (recording C) scalar digestSize).recvMerkleCommitment leafSize depth t =
      some (outcome,t')) :
    (digestSize ≤ t.combined.buffer.length ∧ ∃ root, outcome = .ok ⟨root,depth,leafSize⟩ ∧ Advances t t' ∧
      t'.combined.challenger.log = t.combined.challenger.log ++ root.map .observed) ∨
    (t.combined.buffer.length < digestSize ∧ (∃ e, outcome = .error e) ∧ t' = t) := by
  have hadvances := Advances.of_observed C
    (Reader.observed (recording C) (Codec.array digestSize).deserialize) t
  simp only [merkleTranscriptChannel] at h
  by_cases henough : digestSize ≤ t.combined.buffer.length
  · have htest : (FiatShamirBuf.buf (recording C)).enough digestSize t.combined = true :=
      decide_eq_true henough
    have hrun : (Codec.array digestSize).deserialize.run (FiatShamirBuf.buf (recording C)) t.combined =
        (.ok (t.combined.buffer.take digestSize),⟨t.combined.buffer.drop digestSize,
          absorb (recording C) t.combined.challenger (t.combined.buffer.take digestSize)⟩) := by
      simp only [Codec.array,Reader.run,htest,if_true,copyToSlice_eq (recording C) henough]
    rw [hrun] at h hadvances
    cases h
    exact Or.inl ⟨henough,t.combined.buffer.take digestSize,rfl,hadvances,absorb_log C _ _⟩
  · have htest : ¬(FiatShamirBuf.buf (recording C)).enough digestSize t.combined = true := by
      simpa only [FiatShamirBuf.buf,bytesBuf,decide_eq_true_eq] using henough
    have hrun : (Codec.array digestSize).deserialize.run (FiatShamirBuf.buf (recording C)) t.combined =
        (.error .notEnoughBytes,t.combined) := by
      simp only [Codec.array,Reader.run,if_neg htest]
    rw [hrun] at h
    cases h
    exact Or.inr ⟨not_le.mp henough,⟨_,rfl⟩,rfl⟩

end Calls

end Binius64.OracleChannel
