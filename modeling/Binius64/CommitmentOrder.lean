import Binius64.BaseFoldChannel
import Binius64.MergeVerifier
import Binius64.TranscriptChannel

/-!
# Commitments come before challenges

Over the merging channel every oracle received before a challenge is committed before the challenge
is drawn.
-/

namespace Binius64.OracleChannel

open FiatShamir List

variable {F σ O τ : Type} [Field F] [DecidableEq F]

/-- The channel that receives commitments on a tape, what happens to its challenger recorded. -/
abbrev CommittedChannel (F σ : Type) :=
  BaseFoldVerifierChannel F (VerifierTranscript (Recorded σ)) TranscriptMerkleCommitment

section Tape

variable (C : Challenger σ) (scalar : Codec F) (digestSize : ℕ)

def committing : IOPVerifierChannel F (CommittedChannel F σ) ℕ :=
  BaseFoldVerifierChannel.channelOver (merkleTranscriptChannel (recording C) scalar digestSize)

def merging : IOPVerifierChannel F (MergeVerifierChannel (CommittedChannel F σ) ℕ) ℕ :=
  MergeVerifierChannel.channel (committing C scalar digestSize)

/-- Only the transcript goes on. -/
def Continues (b b' : CommittedChannel F σ) : Prop :=
  ∃ t, Advances b.channel t ∧ b' = { b with channel := t }

theorem committing_moves : (committing C scalar digestSize).toIPVerifierChannel.Moves Continues :=
  (transcriptChannel_moves C scalar).over (fun b : CommittedChannel F σ => b.channel)
    fun t b => { b with channel := t }

variable {b : CommittedChannel F σ} {s : MergeVerifierChannel (CommittedChannel F σ) ℕ}

theorem committing_relation {b' : CommittedChannel F σ} {oracle : ℕ} {transparent : TransparentEvalFn F}
    {claim : F} {outcome : Except Error Unit}
    (h : (committing C scalar digestSize).verifyOracleRelation oracle transparent claim b =
      some (outcome,b')) :
    ∃ queue, queue.length = b.queue.length ∧ b' = { b with queue := queue } := by
  obtain ⟨-,-,h⟩ := Option.bind_eq_some_iff.mp h
  cases h
  exact ⟨_,length_modify ..,rfl⟩

/-- The open round cannot be flushed: its commitment is declared and well shaped, but the tape is
shorter than a root. -/
structure Stuck (s : MergeVerifierChannel (CommittedChannel F σ) ℕ) : Prop where
  queued : s.flushed < s.records.length
  declared : s.inner.queue.length < s.inner.oracleSpecs.length
  shaped : ∃ shape, BaseFoldVerifierChannel.commitmentShape s.inner.oracleSpecs s.inner.friParams
    s.inner.queue.length = some shape
  short : s.inner.channel.combined.buffer.length < digestSize

theorem flush_cases {s' : MergeVerifierChannel (CommittedChannel F σ) ℕ} {outcome : Except Error Unit}
    (hle : s.flushed ≤ s.records.length)
    (h : MergeVerifierChannel.flush (committing C scalar digestSize) s = some (outcome,s')) :
    (s.flushed = s.records.length ∧ outcome = .ok () ∧ s' = s) ∨
    (∃ t commitment combinedLogLen, outcome = .ok () ∧ Advances s.inner.channel t ∧
      t.combined.challenger.log =
        s.inner.channel.combined.challenger.log ++ commitment.root.map .observed ∧
      s' = { s with
        inner := { s.inner with
          channel := t
          oracleCommitments := s.inner.oracleCommitments ++ [commitment]
          queue := s.inner.queue ++ [[]] }
        records := MergeVerifierChannel.land s.logMsgLenAt s.inner.queue.length combinedLogLen s.order 0
          s.records
        flushed := s.records.length }) ∨
    (Stuck digestSize s ∧ (∃ e, outcome = .error e) ∧ s' = s) := by
  rw [MergeVerifierChannel.flush] at h
  split at h
  · rename_i hempty
    cases h
    exact Or.inl ⟨hempty,rfl,rfl⟩
  · rename_i hround
    obtain ⟨⟨received,b⟩,hreceived,h⟩ := Option.bind_eq_some_iff.mp h
    obtain ⟨u,hdeclared,hreceived⟩ := Option.bind_eq_some_iff.mp hreceived
    obtain ⟨⟨leafSize,depth⟩,hshape,hreceived⟩ := Option.bind_eq_some_iff.mp hreceived
    obtain ⟨⟨root,t⟩,hroot,hreceived⟩ := Option.bind_eq_some_iff.mp hreceived
    right
    rcases recvMerkleCommitment_cases C scalar hroot with ⟨-,bytes,hok,hadvances,hlog⟩ | ⟨hshort,⟨e,he⟩,ht⟩
    · left
      rw [hok] at hreceived
      cases hreceived
      cases h
      exact ⟨t,_,_,rfl,hadvances,hlog,rfl⟩
    · right
      rw [he] at hreceived
      cases hreceived
      cases h
      have hexpects : s.inner.queue.length < s.inner.oracleSpecs.length := by
        by_contra hnot
        have hnone : (guard (s.inner.queue.length < s.inner.oracleSpecs.length) : Option Unit) = none :=
          if_neg hnot
        rw [hnone] at hdeclared
        cases hdeclared
      refine ⟨⟨lt_of_le_of_ne hle hround,hexpects,⟨_,hshape⟩,hshort⟩,⟨_,rfl⟩,?_⟩
      rw [ht]

theorem Stuck.flush (h : Stuck digestSize s) :
    ∃ e, MergeVerifierChannel.flush (committing C scalar digestSize) s = some (.error e,s) := by
  have hround : ¬s.flushed = s.records.length := h.queued.ne
  obtain ⟨⟨leafSize,depth⟩,hshape⟩ := h.shaped
  have hdeclared : (guard (s.inner.queue.length < s.inner.oracleSpecs.length) : Option Unit) = some () :=
    if_pos h.declared
  cases hroot : (merkleTranscriptChannel (recording C) scalar digestSize).recvMerkleCommitment leafSize depth
      s.inner.channel with
  | none => cases hroot
  | some r =>
    obtain ⟨root,t⟩ := r
    rcases recvMerkleCommitment_cases C scalar hroot with ⟨henough,-⟩ | ⟨-,⟨e,he⟩,ht⟩
    · exact absurd h.short (not_lt.mpr henough)
    · refine ⟨.merkle e,?_⟩
      rw [MergeVerifierChannel.flush,if_neg hround]
      simp only [committing,BaseFoldVerifierChannel.channelOver,BaseFoldVerifierChannel.recvOracle,hdeclared,
        hshape,hroot,he,ht,bind,Option.bind,pure]

omit [Field F] [DecidableEq F] in
theorem Stuck.continues (h : Stuck digestSize s)
    (hb : Continues s.inner b) : Stuck digestSize { s with inner := b } := by
  obtain ⟨t,ht,rfl⟩ := hb
  exact ⟨h.queued,h.declared,h.shaped,ht.remaining.trans_lt h.short⟩

theorem stuck_step {call : VerifierCall F ℕ} {s' : MergeVerifierChannel (CommittedChannel F σ) ℕ}
    {outcome : Except Error (Answer F ℕ)}
    (h : (merging C scalar digestSize).call call s = some (outcome,s')) (hs : Stuck digestSize s) :
    Stuck digestSize s' := by
  obtain ⟨e,hfails⟩ := hs.flush C scalar
  rcases MergeVerifierChannel.call_cases (committing_moves C scalar digestSize) h with
    ⟨-,b,hb,rfl⟩ | ⟨flushed,s₁,b,hflush,hb,rfl⟩ | ⟨logMsgLen,dependent,rfl⟩ | ⟨e',hflush⟩ |
      ⟨s₁,outer,transparent,claim,opened,b,hflush,-,-⟩
  · exact hs.continues digestSize hb
  · rw [hfails] at hflush
    cases hflush
    exact hs.continues digestSize hb
  · refine ⟨?_,hs.declared,hs.shaped,hs.short⟩
    rw [length_append]
    exact Nat.lt_add_right _ hs.queued
  · rw [hfails] at hflush
    cases hflush
    exact hs
  · rw [hfails] at hflush
    cases hflush

/-- An oracle is committed: it has its place in a combined oracle, and the root of that one's commitment
is observed. -/
def IsCommitted (s : MergeVerifierChannel (CommittedChannel F σ) ℕ) (i : ℕ) : Prop :=
  ∃ record mapping commitment, s.records[i]? = some record ∧ record.mapping = some mapping ∧
    s.inner.oracleCommitments[mapping.outer]? = some commitment ∧
    commitment.root.map Event.observed <:+: s.inner.channel.combined.challenger.log

structure Committed (s : MergeVerifierChannel (CommittedChannel F σ) ℕ) : Prop where
  flushed_le : s.flushed ≤ s.records.length
  numbered : s.inner.queue.length = s.inner.oracleCommitments.length
  committed : ∀ i < s.flushed, IsCommitted s i

omit [Field F] [DecidableEq F] in
theorem Committed.continues (h : Committed s)
    (hb : Continues s.inner b) : Committed { s with inner := b } := by
  obtain ⟨t,ht,rfl⟩ := hb
  refine ⟨h.flushed_le,h.numbered,fun i hi => ?_⟩
  obtain ⟨record,mapping,commitment,hrecord,hmapping,hcommitment,hroot⟩ := h.committed i hi
  exact ⟨record,mapping,commitment,hrecord,hmapping,hcommitment,hroot.trans ht.log.isInfix⟩

theorem Committed.flush {s' : MergeVerifierChannel (CommittedChannel F σ) ℕ} (h : Committed s)
    (hflush : MergeVerifierChannel.flush (committing C scalar digestSize) s = some (.ok (),s')) :
    Committed s' ∧ s'.flushed = s.records.length ∧ s'.records.length = s.records.length := by
  rcases flush_cases C scalar digestSize h.flushed_le hflush with
    ⟨hempty,-,rfl⟩ | ⟨t,commitment,combinedLogLen,-,hadvances,hlog,rfl⟩ | ⟨-,⟨e,he⟩,-⟩
  · exact ⟨h,hempty,rfl⟩
  · refine ⟨⟨?_,?_,fun i hi => ?_⟩,rfl,MergeVerifierChannel.land_length ..⟩
    · rw [MergeVerifierChannel.land_length]
    · rw [length_append,length_append,h.numbered,length_singleton,length_singleton]
    · have hland := MergeVerifierChannel.land_getElem? s.logMsgLenAt s.inner.queue.length combinedLogLen
        s.order_nodup 0 s.records i
      by_cases hround : s.flushed ≤ i
      · -- an oracle of the round: its commitment is the new one
        obtain ⟨record,hrecord⟩ : ∃ record, s.records[i]? = some record := ⟨_,getElem?_eq_getElem hi⟩
        rw [if_pos (MergeVerifierChannel.mem_order.mpr ⟨hround,hi⟩),hrecord] at hland
        refine ⟨_,_,commitment,hland,rfl,?_,?_⟩
        · rw [h.numbered]
          exact getElem?_concat_length
        · rw [hlog]
          exact (suffix_append _ _).isInfix
      · -- an oracle of an earlier round
        obtain ⟨record,mapping,earlier,hrecord,hmapping,hearlier,hroot⟩ := h.committed i (not_le.mp hround)
        rw [if_neg fun hmem => hround (MergeVerifierChannel.mem_order.mp hmem).1] at hland
        refine ⟨record,mapping,earlier,hland.trans hrecord,hmapping,?_,hroot.trans hadvances.log.isInfix⟩
        exact getElem?_append_left (List.getElem?_eq_some_iff.mp hearlier).1 ▸ hearlier
  · cases he

theorem committed_step {call : VerifierCall F ℕ} {s' : MergeVerifierChannel (CommittedChannel F σ) ℕ}
    {outcome : Except Error (Answer F ℕ)}
    (h : (merging C scalar digestSize).call call s = some (outcome,s')) (hs : Committed s) : Committed s' := by
  have hflushed : ∀ {r s₁}, MergeVerifierChannel.flush (committing C scalar digestSize) s = some (r,s₁) →
      Committed s₁ := by
    intro r s₁ hflush
    cases r with
    | error e =>
      rcases flush_cases C scalar digestSize hs.flushed_le hflush with
        ⟨-,he,-⟩ | ⟨t,commitment,combinedLogLen,he,-,-,-⟩ | ⟨-,-,rfl⟩
      · cases he
      · cases he
      · exact hs
    | ok u => exact (hs.flush C scalar digestSize hflush).1
  rcases MergeVerifierChannel.call_cases (committing_moves C scalar digestSize) h with
    ⟨-,b,hb,rfl⟩ | ⟨flushed,s₁,b,hflush,hb,rfl⟩ | ⟨logMsgLen,dependent,rfl⟩ | ⟨e',hflush⟩ |
      ⟨s₁,outer,transparent,claim,opened,b,hflush,hrelation,rfl⟩
  · exact hs.continues hb
  · exact (hflushed hflush).continues hb
  · refine ⟨?_,hs.numbered,fun i hi => ?_⟩
    · rw [length_append]
      exact hs.flushed_le.trans (Nat.le_add_right _ _)
    · obtain ⟨record,mapping,commitment,hrecord,hrest⟩ := hs.committed i hi
      refine ⟨record,mapping,commitment,?_,hrest⟩
      exact getElem?_append_left (List.getElem?_eq_some_iff.mp hrecord).1 ▸ hrecord
  · exact hflushed hflush
  · have hs₁ := hflushed hflush
    obtain ⟨queue,hqueue,rfl⟩ := committing_relation C scalar digestSize hrelation
    exact ⟨hs₁.flushed_le,hqueue.trans hs₁.numbered,hs₁.committed⟩

theorem stuck_run {calls : List (VerifierCall F ℕ)} {s' : MergeVerifierChannel (CommittedChannel F σ) ℕ}
    {answers : List (Except Error (Answer F ℕ))}
    (h : (merging C scalar digestSize).run calls s = some (answers,s')) (hs : Stuck digestSize s) :
    (∃ e, MergeVerifierChannel.flush (committing C scalar digestSize) s' = some (.error e,s')) ∧
      ∃ e, MergeVerifierChannel.intoInner (committing C scalar digestSize) s' = some (.error e) := by
  have hs' : Stuck digestSize s' := (merging C scalar digestSize).run_preserves
    (fun _ _ _ _ hcall hstuck => stuck_step C scalar digestSize hcall hstuck) h hs
  obtain ⟨e,hflush⟩ := hs'.flush C scalar
  refine ⟨⟨e,hflush⟩,e,?_⟩
  rw [MergeVerifierChannel.intoInner,hflush]
  rfl

/-- Once the merging channel has returned the channel below, every oracle received before a challenge
was committed when the challenge was drawn; a flush that fails in a run fails at every later point of
it, and the channel below is not returned. -/
theorem commitments_precede_challenges (start : σ) (tape : List UInt8) (options : Options)
    (oracleSpecs mergedSpecs : List OracleSpec) (friParams : Fri.FriParams)
    (calls : List (VerifierCall F ℕ)) {s : MergeVerifierChannel (CommittedChannel F σ) ℕ}
    {answers : List (Except Error (Answer F ℕ))}
    (hrun : (merging C scalar digestSize).run calls (.new (.new (.withOpts ⟨start,[]⟩ tape options)
      mergedSpecs friParams) oracleSpecs) = some (answers,s)) :
    (∀ before draw after, calls = before ++ draw :: after → VerifierCall.draws draw = true →
      (∃ b, MergeVerifierChannel.intoInner (committing C scalar digestSize) s = some (.ok b)) →
      ∃ first s₁ s₂ answer b,
        (merging C scalar digestSize).run before (.new (.new (.withOpts ⟨start,[]⟩ tape options)
          mergedSpecs friParams) oracleSpecs) = some (first,s₁) ∧
        MergeVerifierChannel.flush (committing C scalar digestSize) s₁ = some (.ok (),s₂) ∧
        (∀ i < s₁.records.length, IsCommitted s₂ i) ∧
        (committing C scalar digestSize).call draw s₂.inner = some (answer,b) ∧
        (merging C scalar digestSize).call draw s₁ = some (answer,{ s₂ with inner := b })) ∧
    ∀ before after first s₁ e s₂, calls = before ++ after →
      (merging C scalar digestSize).run before (.new (.new (.withOpts ⟨start,[]⟩ tape options)
        mergedSpecs friParams) oracleSpecs) = some (first,s₁) →
      MergeVerifierChannel.flush (committing C scalar digestSize) s₁ = some (.error e,s₂) →
      (∃ e, MergeVerifierChannel.flush (committing C scalar digestSize) s = some (.error e,s)) ∧
        ∃ e, MergeVerifierChannel.intoInner (committing C scalar digestSize) s = some (.error e) := by
  have hstart : Committed (.new (.new (.withOpts ⟨start,[]⟩ tape options) mergedSpecs friParams) oracleSpecs :
      MergeVerifierChannel (CommittedChannel F σ) ℕ) := ⟨le_rfl,rfl,fun i hi => absurd hi (Nat.not_lt_zero i)⟩
  have hreached : ∀ {before first s₁}, (merging C scalar digestSize).run before
      (.new (.new (.withOpts ⟨start,[]⟩ tape options) mergedSpecs friParams) oracleSpecs) = some (first,s₁) →
        Committed s₁ := by
    intro before first s₁ hbefore
    exact (merging C scalar digestSize).run_preserves
      (fun _ _ _ _ hcall hs => committed_step C scalar digestSize hcall hs) hbefore hstart
  constructor
  · rintro before draw after rfl hdraws ⟨b,hinner⟩
    obtain ⟨first,rest,s₁,hbefore,hrest⟩ := (merging C scalar digestSize).run_append hrun
    obtain ⟨⟨answer,s₃⟩,hcall,hrest⟩ := Option.bind_eq_some_iff.mp hrest
    obtain ⟨⟨later,s₄⟩,hafter,hrest⟩ := Option.bind_eq_some_iff.mp hrest
    cases hrest
    obtain ⟨flushed,s₂,t,hflush,hdrawn,hs₃⟩ := MergeVerifierChannel.call_draws hdraws hcall
    cases flushed with
    | error e =>
      rcases flush_cases C scalar digestSize (hreached hbefore).flushed_le hflush with
        ⟨-,he,-⟩ | ⟨t,commitment,combinedLogLen,he,-,-,-⟩ | ⟨hstuck,-,-⟩
      · cases he
      · cases he
      · obtain ⟨-,e',hfails⟩ := stuck_run C scalar digestSize hafter
          (stuck_step C scalar digestSize hcall hstuck)
        rw [hfails] at hinner
        cases hinner
    | ok u =>
      obtain ⟨hcommitted,hall,-⟩ := (hreached hbefore).flush C scalar digestSize hflush
      rw [hs₃] at hcall
      exact ⟨first,s₁,s₂,answer,t,hbefore,hflush,fun i hi => hcommitted.committed i (hall ▸ hi),hdrawn,hcall⟩
  · rintro before after first s₁ e s₂ rfl hbefore hflush
    obtain ⟨first',rest,s₁',hbefore',hafter⟩ := (merging C scalar digestSize).run_append hrun
    rw [hbefore] at hbefore'
    cases hbefore'
    rcases flush_cases C scalar digestSize (hreached hbefore).flushed_le hflush with
      ⟨-,he,-⟩ | ⟨t,commitment,combinedLogLen,he,-,-,-⟩ | ⟨hstuck,-,-⟩
    · cases he
    · cases he
    · exact stuck_run C scalar digestSize hafter hstuck

end Tape

def bitCodec : Codec (ZMod 2) where
  serialize v := .ok [[if v = 0 then 0 else 1]]
  deserialize := .take 1 fun bytes => .done (if bytes = [0] then 0 else 1)
  roundTrip v slices h rest := by
    cases h
    have hbyte : v = 0 ∨ v = 1 := by
      revert v
      decide
    rcases hbyte with rfl | rfl
    · simp [Reader.run,bytesBuf]
    · simp [Reader.run,bytesBuf]

def oneCodeword : Fri.FriParams := ⟨⟨1,1⟩,[⟨0,0,0⟩],1,0,[],1,1⟩

def waiting : MergeVerifierChannel (CommittedChannel (ZMod 2) { c : HasherChallenger // c.Valid countDigest }) ℕ :=
  ⟨.new (.withOpts ⟨countStart,[]⟩ [1,2,3,4] ⟨false⟩) [⟨1,false⟩] oneCodeword,[⟨1,true⟩],[⟨1,true,none⟩],0⟩

/-- An oracle is received and bits are sampled: its root is observed first. -/
theorem commitments_precede_challenges_root : ∃ s₂, MergeVerifierChannel.flush
    (committing (HasherChallenger.challenger countDigest) bitCodec 4) waiting = some (.ok (),s₂) ∧
      IsCommitted s₂ 0 := by
  have horder : waiting.order = [0] := mergeSort_singleton 0
  obtain ⟨s₂,hflush,hempty,hall⟩ : ∃ s₂, MergeVerifierChannel.flush
      (committing (HasherChallenger.challenger countDigest) bitCodec 4) waiting = some (.ok (),s₂) ∧
      s₂.flushed = s₂.records.length ∧ s₂.oracleSpecs.length = s₂.records.length := by
    rw [MergeVerifierChannel.flush,if_neg (by decide),horder]
    exact ⟨_,rfl,rfl,rfl⟩
  have hdraw : ∃ answers s, (merging (HasherChallenger.challenger countDigest) bitCodec 4).run
      [.sampleBits 3] waiting = some (answers,s) ∧ s.flushed = s.records.length ∧
        s.oracleSpecs.length = s.records.length := by
    simp only [IOPVerifierChannel.run,IOPVerifierChannel.call,merging,MergeVerifierChannel.channel,
      IOPVerifierChannel.tellOk,MergeVerifierChannel.draw,hflush,bind,Option.bind]
    exact ⟨_,_,rfl,hempty,hall⟩
  obtain ⟨answers,s,hrun,hdone,hdeclared⟩ := hdraw
  have hinner : ∃ b, MergeVerifierChannel.intoInner
      (committing (HasherChallenger.challenger countDigest) bitCodec 4) s = some (.ok b) := by
    rw [MergeVerifierChannel.intoInner,MergeVerifierChannel.flush,if_pos hdone]
    simp [hdeclared]
  have hwhole : (merging (HasherChallenger.challenger countDigest) bitCodec 4).run
      [.recvOracle 1 true,.sampleBits 3] (.new (.new (.withOpts ⟨countStart,[]⟩ [1,2,3,4] ⟨false⟩)
        [⟨1,false⟩] oneCodeword) [⟨1,true⟩]) = some (.ok (.oracle 0) :: answers,s) := by
    have hstep : (merging (HasherChallenger.challenger countDigest) bitCodec 4).run
        [.recvOracle 1 true,.sampleBits 3] (.new (.new (.withOpts ⟨countStart,[]⟩ [1,2,3,4] ⟨false⟩)
          [⟨1,false⟩] oneCodeword) [⟨1,true⟩]) =
        ((merging (HasherChallenger.challenger countDigest) bitCodec 4).run [.sampleBits 3] waiting).bind
          fun r => some (.ok (.oracle 0) :: r.1,r.2) := rfl
    rw [hstep,hrun]
    rfl
  obtain ⟨first,s₁,s₂,-,-,hfirst,hflush,hall,-,-⟩ := (commitments_precede_challenges
    (HasherChallenger.challenger countDigest) bitCodec 4 countStart [1,2,3,4] ⟨false⟩ [⟨1,true⟩] [⟨1,false⟩]
    oneCodeword [.recvOracle 1 true,.sampleBits 3] hwhole).1 [.recvOracle 1 true] (.sampleBits 3) [] rfl rfl hinner
  have hwaiting : some (first,s₁) = some ([.ok (.oracle 0)],waiting) := hfirst.symm
  cases hwaiting
  exact ⟨s₂,hflush,hall 0 Nat.one_pos⟩

end Binius64.OracleChannel
