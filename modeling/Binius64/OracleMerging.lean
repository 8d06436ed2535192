import Binius64.OracleRounds
import Binius64.PaddedTransparents

/-!
# Merging is exact

Prover and verifier merge the oracles of a run into the same rounds.
-/

namespace Binius64.OracleChannel

open Ntt BlockLayout List
open MergeProverChannel (blockOf combinedLogLen)
open Prod (fst snd)

variable {w : ℕ} {F τ σ O Q : Type} [Field F]

def recordSent (P : IOPProverChannel w F τ O) :
    IOPProverChannel w F (τ × List (FieldBuffer w F × O)) O where
  sendMany vals := forward fst (fun t s => (t,s.2)) (P.sendMany vals)
  observeMany vals := forward fst (fun t s => (t,s.2)) (P.observeMany vals)
  sample := forward fst (fun t s => (t,s.2)) P.sample
  observeWords words := forward fst (fun t s => (t,s.2)) (P.observeWords words)
  sampleBits bits := forward fst (fun t s => (t,s.2)) (P.sampleBits bits)
  sendOracle buffer s := do
    let (outer,t) ← P.sendOracle buffer s.1
    return (outer,(t,s.2 ++ [(buffer,outer)]))
  proveOracleRelation outer transparent claim :=
    forward fst (fun t s => (t,s.2)) (P.proveOracleRelation outer transparent claim)
  finalizeOracle outer buffer := forward fst (fun t s => (t,s.2)) (P.finalizeOracle outer buffer)

/-- An oracle that a verifier's channel was asked for. -/
structure Received (Q : Type) where
  logMsgLen : ℕ
  isWitnessDependent : Bool
  outcome : Except Error Q

def recordReceived (V : IOPVerifierChannel F σ Q) : IOPVerifierChannel F (σ × List (Received Q)) Q where
  toIPVerifierChannel := V.over fst fun t s => (t,s.2)
  recvOracle logMsgLen isWitnessDependent s := do
    let (outcome,t) ← V.recvOracle logMsgLen isWitnessDependent s.1
    return (outcome,(t,s.2 ++ [⟨logMsgLen,isWitnessDependent,outcome⟩]))
  verifyOracleRelation outer transparent claim :=
    forward fst (fun t s => (t,s.2)) (V.verifyOracleRelation outer transparent claim)

theorem forward_fst {ρ α β : Type} {call : Infallible ρ α} {s s' : ρ × β} {a : α}
    (h : forward fst (fun t s => (t,s.2)) call s = some (a,s')) : s'.2 = s.2 := by
  obtain ⟨t,-,rfl⟩ := forward_eq_some _ _ h
  rfl

def proverCall (ch : IOPProverChannel w F τ ℕ) : RoundCall w F → τ → Option τ
  | .oracle member,t => (ch.sendOracle member.buffer t).map snd
  | .sample,t => (ch.sample t).map snd
  | .sampleBits bits,t => (ch.sampleBits bits t).map snd
  | .relation handle table _ claim,t => (ch.proveOracleRelation handle table claim t).map snd
  | .message vals,t => (ch.sendMany vals t).map snd
  | .observe vals,t => (ch.observeMany vals t).map snd
  | .observeWords words,t => (ch.observeWords words t).map snd

def proverRun (ch : IOPProverChannel w F τ ℕ) : List (RoundCall w F) → τ → Option τ
  | [],t => some t
  | call :: calls,t => do
    let t ← proverCall ch call t
    proverRun ch calls t

omit [Field F] in
theorem combinedLogLen_buffers (round : List (Member w F)) :
    combinedLogLen (buffers round) = mergedLogMsgLen (round.map fun member => member.buffer.logLen) := by
  have hsizes : (range (buffers round).length).map (fun k => 2 ^ MergeProverChannel.sizeAt (buffers round) k) =
      (round.map fun member => member.buffer.logLen).map (1 <<< ·) := by
    refine ext_getElem (by simp [buffers]) fun k hk hk' => ?_
    have hround : k < round.length := by
      rw [length_map,length_map] at hk'
      exact hk'
    have hget : (buffers round)[k]? = some round[k].buffer := by
      rw [buffers,getElem?_map,getElem?_eq_getElem hround]
      rfl
    rw [getElem_map,getElem_map,getElem_map,getElem_range,
      MergeProverChannel.sizeAt_eq _ hget,Nat.shiftLeft_eq,one_mul]
  rw [MergeProverChannel.combinedLogLen_eq,logCover,MergeProverChannel.order_eq,total_largestFirst,total,hsizes]
  rfl

section Prover

variable (P : IOPProverChannel w F τ O)

structure RoundSent (s : MergeProverChannel w F (τ × List (FieldBuffer w F × O)) O) (first g : ℕ)
    (round : List (Member w F)) : Prop where
  committed : ∃ combined outer, s.inner.2[g]? = some (combined,outer) ∧
    s.groups[g]?.map MergeProver.Group.outer = some outer ∧
    MergeProverChannel.combine (buffers round) (MergeProverChannel.blocks (buffers round)) = some combined
  recorded : ∀ k member, round[k]? = some member → s.records[first + k]? = some
    ⟨member.buffer.logLen,some ⟨g,blockOf (buffers round) k,combinedLogLen (buffers round)⟩⟩

structure ProverRounds (rounds : Rounds w F) (s : MergeProverChannel w F (τ × List (FieldBuffer w F × O)) O) :
    Prop where
  pending : s.pending = buffers rounds.opened
  count : s.records.length = rounds.nClosed + rounds.opened.length
  sent : s.inner.2.length = rounds.closed.length
  groups : s.groups.length = rounds.closed.length
  opened : ∀ k member, rounds.opened[k]? = some member →
    s.records[rounds.nClosed + k]? = some ⟨member.buffer.logLen,none⟩
  closed : ∀ g round, rounds.closed[g]? = some round → RoundSent s (rounds.first g) g round

variable {rounds : Rounds w F} {s : MergeProverChannel w F (τ × List (FieldBuffer w F × O)) O}

theorem aligned_concat {α β : Type} {opened : List α} {records : List β} {n k : ℕ} {f : α → β} {a m : α}
    (hcount : records.length = n + opened.length)
    (h : ∀ k m, opened[k]? = some m → records[n + k]? = some (f m)) (hk : (opened ++ [a])[k]? = some m) :
    (records ++ [f a])[n + k]? = some (f m) := by
  by_cases hlast : k < opened.length
  · rw [getElem?_append_left hlast] at hk
    rw [getElem?_append_left (by omega)]
    exact h k m hk
  · rw [getElem?_append_right (not_lt.mp hlast)] at hk
    obtain ⟨hk',hm⟩ := List.getElem?_eq_some_iff.mp hk
    have hzero : k = opened.length := by
      rw [length_singleton] at hk'
      omega
    have hmember : a = m := by simpa [hzero] using hm
    rw [hzero,← hcount,getElem?_concat_length,hmember]

theorem ProverRounds.inner
    (h : ProverRounds rounds s)
    {t : τ × List (FieldBuffer w F × O)} (ht : t.2 = s.inner.2) : ProverRounds rounds { s with inner := t } := by
  refine ⟨h.pending,h.count,(congrArg length ht).trans h.sent,h.groups,h.opened,fun g round hround => ?_⟩
  obtain ⟨⟨combined,outer,hsent,hrest⟩,hrecorded⟩ := h.closed g round hround
  exact ⟨⟨combined,outer,by rw [ht]; exact hsent,hrest⟩,hrecorded⟩

theorem ProverRounds.oracle
    {s' : MergeProverChannel w F (τ × List (FieldBuffer w F × O)) O} (h : ProverRounds rounds s)
    {member : Member w F} {handle : ℕ} (hsend : MergeProverChannel.sendOracle member.buffer s = some (handle,s')) :
    ProverRounds { rounds with opened := rounds.opened ++ [member] } s' := by
  obtain ⟨-,-,hsend⟩ := Option.bind_eq_some_iff.mp hsend
  cases hsend
  refine ⟨?_,?_,h.sent,h.groups,fun k m hk => ?_,fun g round hround => ?_⟩
  · rw [buffers,map_append,h.pending]
    rfl
  · rw [length_append,length_append,h.count]
    rfl
  · exact aligned_concat (f := fun m => ⟨m.buffer.logLen,none⟩) h.count h.opened hk
  · obtain ⟨hcommitted,hrecorded⟩ := h.closed g round hround
    refine ⟨hcommitted,fun k m hk => ?_⟩
    have hrecord := hrecorded k m hk
    exact getElem?_append_left (List.getElem?_eq_some_iff.mp hrecord).1 ▸ hrecord

theorem landed_getElem? (first n : ℕ) (mapping : ℕ → MergeProver.Mapping) (records : List MergeProver.Record)
    (i : ℕ) : ((range n).foldl (fun records k => records.modify (first + k) fun record =>
      { record with mapping := some (mapping k) }) records)[i]? =
        if first ≤ i ∧ i < first + n then records[i]?.map fun record =>
          { record with mapping := some (mapping (i - first)) } else records[i]? := by
  induction n with
  | zero => exact (if_neg (by omega)).symm
  | succ n ih =>
    rw [range_succ,foldl_append,foldl_cons,foldl_nil,getElem?_modify,ih]
    by_cases hi : first + n = i
    · rw [if_neg (by omega),if_pos (by omega),←hi,Nat.add_sub_cancel_left]
      simp
    · have hsame : first ≤ i ∧ i < first + n ↔ first ≤ i ∧ i < first + (n + 1) := by omega
      rw [if_congr hsame rfl rfl]
      simp [hi]

theorem ProverRounds.flush
    {s' : MergeProverChannel w F (τ × List (FieldBuffer w F × O)) O} (h : ProverRounds rounds s)
    (hflush : MergeProverChannel.flush (recordSent P) s = some ((),s')) : ProverRounds rounds.close s' := by
  rw [MergeProverChannel.flush] at hflush
  split at hflush
  · rename_i hempty
    cases hflush
    have hopen : rounds.opened = [] := map_eq_nil_iff.mp (h.pending.symm.trans hempty)
    rw [Rounds.close_of_nil hopen]
    exact h
  · rename_i hpending
    have hopen : rounds.opened ≠ [] := by
      intro hnil
      rw [h.pending,hnil] at hpending
      exact hpending rfl
    obtain ⟨combined,hcombined,hflush⟩ := Option.bind_eq_some_iff.mp hflush
    obtain ⟨⟨outer,t⟩,hsend,hflush⟩ := Option.bind_eq_some_iff.mp hflush
    obtain ⟨⟨outer',t'⟩,-,hsend⟩ := Option.bind_eq_some_iff.mp hsend
    cases hsend
    cases hflush
    have hlen : s.pending.length = rounds.opened.length := by rw [h.pending,buffers,length_map]
    have hfirst : s.records.length - s.pending.length = rounds.nClosed := by
      rw [h.count,hlen,Nat.add_sub_cancel]
    have hlanded := landed_getElem? (s.records.length - s.pending.length) s.pending.length
      (fun k => ⟨s.groups.length,(MergeProverChannel.blocks s.pending).getD k 0,combinedLogLen s.pending⟩) s.records
    rw [Rounds.close_of_ne_nil hopen]
    refine ⟨rfl,?_,?_,?_,fun k member hk => (by cases hk),fun g round hround => ?_⟩
    · have hmodified : ∀ (ks : List ℕ) (records : List MergeProver.Record)
          (f : ℕ → MergeProver.Record → MergeProver.Record) (i : ℕ), (ks.foldl (fun records k => records.modify (i + k) (f k)) records).length = records.length := by
        intro ks
        induction ks with
        | nil => exact fun records f i => rfl
        | cons k ks ih => exact fun records f i => (ih _ f i).trans (length_modify ..)
      refine (hmodified _ _ _ _).trans ?_
      rw [h.count,Rounds.nClosed,Rounds.nClosed,flatten_append,flatten_singleton,length_append]
      rfl
    · simp only [length_append,length_singleton,h.sent]
    · simp only [length_append,length_singleton,h.groups]
    · by_cases hg : g < rounds.closed.length
      · -- an earlier round
        rw [getElem?_append_left hg] at hround
        obtain ⟨⟨c,o,hsent,hgroup,hcombine⟩,hrecorded⟩ := h.closed g round hround
        rw [Rounds.first_append hg]
        refine ⟨⟨c,o,?_,?_,hcombine⟩,fun k member hk => ?_⟩
        · exact getElem?_append_left (List.getElem?_eq_some_iff.mp hsent).1 ▸ hsent
        · rw [getElem?_append_left (by rw [h.groups]; exact hg)]
          exact hgroup
        · have hend := Rounds.first_add_le hround
          have hkround := (List.getElem?_eq_some_iff.mp hk).1
          refine (hlanded (rounds.first g + k)).trans ?_
          rw [hfirst,if_neg (by omega)]
          exact hrecorded k member hk
      · -- the round that is closed
        obtain ⟨hg',hr⟩ := List.getElem?_eq_some_iff.mp hround
        have hlast : g = rounds.closed.length := by
          rw [length_append,length_singleton] at hg'
          omega
        have hsame : rounds.opened = round := by simpa [hlast] using hr
        rw [hlast,Rounds.first_append_self,←hsame]
        have hbuffers := h.pending
        refine ⟨⟨combined,outer,?_,?_,?_⟩,fun k member hk => ?_⟩
        · simp only
          rw [←h.sent,getElem?_concat_length]
        · simp only
          rw [←h.groups,getElem?_concat_length]
          rfl
        · rw [←hbuffers]
          exact hcombined
        · have hklt := (List.getElem?_eq_some_iff.mp hk).1
          have hblock : (MergeProverChannel.blocks s.pending).getD k 0 = blockOf (buffers rounds.opened) k := by
            rw [getD_eq_getElem?_getD,MergeProverChannel.blocks_getElem? _ (by rw [hlen]; exact hklt),hbuffers]
            rfl
          refine (hlanded (rounds.nClosed + k)).trans ?_
          rw [hfirst,hlen,if_pos (by omega),h.opened k member hk,Nat.add_sub_cancel_left,hblock,h.groups,hbuffers]
          rfl

theorem ProverRounds.step
    {s' : MergeProverChannel w F (τ × List (FieldBuffer w F × O)) O} (h : ProverRounds rounds s)
    {call : RoundCall w F} (hcall : proverCall (MergeProverChannel.channel (recordSent P)) call s = some s') :
    ProverRounds (rounds.step call) s' := by
  have hplain : ∀ {α : Type} {base : Infallible (τ × List (FieldBuffer w F × O)) α} {a : α},
      (∀ {t t' a}, base t = some (a,t') → t'.2 = t.2) →
        forward MergeProverChannel.inner (fun t s => { s with inner := t }) base s = some (a,s') →
          ProverRounds rounds s' := by
    intro α base a hbase hforward
    obtain ⟨t,ht,rfl⟩ := forward_eq_some _ _ hforward
    exact h.inner (hbase ht)
  have hdraw : ∀ {α : Type} {base : Infallible (τ × List (FieldBuffer w F × O)) α} {a : α},
      (∀ {t t' a}, base t = some (a,t') → t'.2 = t.2) →
        MergeProverChannel.draw (recordSent P) base s = some (a,s') → ProverRounds rounds.close s' := by
    intro α base a hbase hdrawn
    obtain ⟨⟨u,s₁⟩,hflush,hdrawn⟩ := Option.bind_eq_some_iff.mp hdrawn
    obtain ⟨⟨b,t⟩,ht,hdrawn⟩ := Option.bind_eq_some_iff.mp hdrawn
    cases hdrawn
    exact (h.flush P hflush).inner (hbase ht)
  cases call with
  | oracle member =>
    obtain ⟨⟨handle,s₁⟩,hsend,rfl⟩ := Option.map_eq_some_iff.mp hcall
    exact h.oracle hsend
  | sample =>
    obtain ⟨⟨a,s₁⟩,hsample,rfl⟩ := Option.map_eq_some_iff.mp hcall
    exact hdraw forward_fst hsample
  | sampleBits bits =>
    obtain ⟨⟨a,s₁⟩,hsample,rfl⟩ := Option.map_eq_some_iff.mp hcall
    exact hdraw forward_fst hsample
  | relation handle table transparent claim =>
    obtain ⟨⟨a,s₁⟩,hrelation,rfl⟩ := Option.map_eq_some_iff.mp hcall
    obtain ⟨⟨u,s₂⟩,hflush,hrelation⟩ := Option.bind_eq_some_iff.mp hrelation
    obtain ⟨record,-,hrelation⟩ := Option.bind_eq_some_iff.mp hrelation
    obtain ⟨-,-,hrelation⟩ := Option.bind_eq_some_iff.mp hrelation
    obtain ⟨mapping,-,hrelation⟩ := Option.bind_eq_some_iff.mp hrelation
    obtain ⟨padded,-,hrelation⟩ := Option.bind_eq_some_iff.mp hrelation
    obtain ⟨group,-,hrelation⟩ := Option.bind_eq_some_iff.mp hrelation
    obtain ⟨⟨b,t⟩,ht,hrelation⟩ := Option.bind_eq_some_iff.mp hrelation
    cases hrelation
    exact (h.flush P hflush).inner (forward_fst ht)
  | message vals =>
    obtain ⟨⟨a,s₁⟩,hsend,rfl⟩ := Option.map_eq_some_iff.mp hcall
    exact hplain forward_fst hsend
  | observe vals =>
    obtain ⟨⟨a,s₁⟩,hobserve,rfl⟩ := Option.map_eq_some_iff.mp hcall
    exact hplain forward_fst hobserve
  | observeWords words =>
    obtain ⟨⟨a,s₁⟩,hobserve,rfl⟩ := Option.map_eq_some_iff.mp hcall
    exact hplain forward_fst hobserve

theorem ProverRounds.run
    {s' : MergeProverChannel w F (τ × List (FieldBuffer w F × O)) O} (h : ProverRounds rounds s)
    {calls : List (RoundCall w F)}
    (hrun : proverRun (MergeProverChannel.channel (recordSent P)) calls s = some s') :
    ProverRounds (calls.foldl Rounds.step rounds) s' := by
  induction calls generalizing rounds s with
  | nil =>
    cases hrun
    exact h
  | cons call calls ih =>
    obtain ⟨s₁,hcall,hrun⟩ := Option.bind_eq_some_iff.mp hrun
    exact ih (h.step P hcall) hrun

end Prover

section Verifier

variable [DecidableEq F] (V : IOPVerifierChannel F σ Q)

/-- A round is received: its combined oracle is asked for, and every member has its block there. -/
def RoundReceived (s : MergeVerifierChannel (σ × List (Received Q)) Q) (first g : ℕ)
    (round : List (Member w F)) : Prop :=
  ∃ outer, s.inner.2[g]? = some ⟨combinedLogLen (buffers round),round.any Member.isWitnessDependent,.ok outer⟩ ∧
    ∀ k member, round[k]? = some member → s.records[first + k]? = some ⟨member.buffer.logLen,
      member.isWitnessDependent,some ⟨outer,blockOf (buffers round) k,combinedLogLen (buffers round)⟩⟩

structure VerifierRounds (rounds : Rounds w F) (s : MergeVerifierChannel (σ × List (Received Q)) Q) :
    Prop where
  flushed : s.flushed = rounds.nClosed
  count : s.records.length = rounds.nClosed + rounds.opened.length
  received : s.inner.2.length = rounds.closed.length
  opened : ∀ k member, rounds.opened[k]? = some member →
    s.records[rounds.nClosed + k]? = some ⟨member.buffer.logLen,member.isWitnessDependent,none⟩
  closed : ∀ g round, rounds.closed[g]? = some round → RoundReceived s (rounds.first g) g round

/-- An oracle was asked for and not received. -/
def Failed (s : MergeVerifierChannel (σ × List (Received Q)) Q) : Prop :=
  ∃ entry ∈ s.inner.2, ∀ outer, entry.outcome ≠ .ok outer

variable {rounds : Rounds w F} {s : MergeVerifierChannel (σ × List (Received Q)) Q}

omit [Field F] [DecidableEq F] in
theorem VerifierRounds.order_eq
    (h : VerifierRounds rounds s) :
    s.order = (MergeProverChannel.order (buffers rounds.opened)).map (rounds.nClosed + ·) ∧
      ∀ k < rounds.opened.length,
        s.logMsgLenAt (rounds.nClosed + k) = MergeProverChannel.sizeAt (buffers rounds.opened) k := by
  have hsize : ∀ k < rounds.opened.length,
      s.logMsgLenAt (rounds.nClosed + k) = MergeProverChannel.sizeAt (buffers rounds.opened) k := by
    intro k hk
    have hget := getElem?_eq_getElem hk
    have hbuffer : (buffers rounds.opened)[k]? = some rounds.opened[k].buffer := by
      rw [buffers,getElem?_map,hget]
      rfl
    rw [MergeVerifierChannel.logMsgLenAt,h.opened k _ hget,MergeProverChannel.sizeAt,hbuffer]
    rfl
  refine ⟨?_,hsize⟩
  have hrange : range' s.flushed (s.records.length - s.flushed) =
      (range (buffers rounds.opened).length).map (rounds.nClosed + ·) := by
    rw [h.flushed,h.count,Nat.add_sub_cancel_left,buffers,length_map,range'_eq_map_range]
  rw [MergeVerifierChannel.order,hrange,MergeProverChannel.order_eq]
  refine map_largestFirst (MergeProverChannel.sizeAt (buffers rounds.opened)) _ fun k hk => ?_
  rw [buffers,length_map,mem_range] at hk
  exact hsize k hk

omit [Field F] [DecidableEq F] in
theorem VerifierRounds.layout
    (h : VerifierRounds rounds s) :
    mergedLogMsgLen (s.order.map s.logMsgLenAt) = combinedLogLen (buffers rounds.opened) ∧
      s.order.any s.isWitnessDependentAt = rounds.opened.any Member.isWitnessDependent ∧
      ∀ k < rounds.opened.length, (0 + start s.logMsgLenAt s.order (rounds.nClosed + k)) >>>
        s.logMsgLenAt (rounds.nClosed + k) = blockOf (buffers rounds.opened) k := by
  obtain ⟨horder,hsize⟩ := h.order_eq
  have hlen : (buffers rounds.opened).length = rounds.opened.length := length_map _
  have hmem : ∀ k ∈ MergeProverChannel.order (buffers rounds.opened), k < rounds.opened.length := by
    intro k hk
    rw [←hlen]
    exact (MergeProverChannel.mem_order _).mp hk
  refine ⟨?_,?_,fun k hk => ?_⟩
  · rw [mergedLogMsgLen,combinedLogLen,horder,map_map,map_map]
    refine congrArg (fun ns => Nat.clog 2 (sum ns)) (map_congr_left fun k hk => ?_)
    simp only [Function.comp_apply,hsize k (hmem k hk)]
  · have hdependent : ∀ k (hk : k < rounds.opened.length),
        s.isWitnessDependentAt (rounds.nClosed + k) = rounds.opened[k].isWitnessDependent := by
      intro k hk
      rw [MergeVerifierChannel.isWitnessDependentAt,h.opened k _ (getElem?_eq_getElem hk)]
      rfl
    rw [horder,any_map,Bool.eq_iff_iff,any_eq_true,any_eq_true]
    constructor
    · rintro ⟨k,hk,hdep⟩
      rw [Function.comp_apply,hdependent k (hmem k hk)] at hdep
      exact ⟨_,getElem_mem _,hdep⟩
    · rintro ⟨member,hmember,hdep⟩
      obtain ⟨k,hk,rfl⟩ := getElem_of_mem hmember
      refine ⟨k,(MergeProverChannel.mem_order _).mpr (hlen ▸ hk),?_⟩
      rw [Function.comp_apply,hdependent k hk]
      exact hdep
  · rw [horder,start_map (add_right_injective rounds.nClosed) fun i hi => hsize i (hmem i hi),hsize k hk,zero_add]
    rfl

omit [Field F] [DecidableEq F] in
theorem VerifierRounds.flush {s' : MergeVerifierChannel (σ × List (Received Q)) Q}
    {outcome : Except Error Unit} (h : VerifierRounds rounds s)
    (hflush : MergeVerifierChannel.flush (recordReceived V) s = some (outcome,s')) :
    (outcome = .ok () ∧ VerifierRounds rounds.close s') ∨ Failed s' := by
  rw [MergeVerifierChannel.flush] at hflush
  split at hflush
  · rename_i hempty
    cases hflush
    have hopen : rounds.opened = [] := by
      have hzero : rounds.opened.length = 0 := by
        rw [h.flushed,h.count] at hempty
        omega
      exact length_eq_zero_iff.mp hzero
    rw [Rounds.close_of_nil hopen]
    exact Or.inl ⟨rfl,h⟩
  · rename_i hround
    have hopen : rounds.opened ≠ [] := by
      intro hnil
      rw [h.flushed,h.count,hnil] at hround
      exact hround rfl
    obtain ⟨⟨received,t⟩,hreceived,hflush⟩ := Option.bind_eq_some_iff.mp hflush
    obtain ⟨⟨received',t'⟩,-,hreceived⟩ := Option.bind_eq_some_iff.mp hreceived
    cases hreceived
    cases received with
    | error e =>
      cases hflush
      refine Or.inr ⟨_,mem_append_right _ (mem_singleton_self _),fun outer houter => ?_⟩
      cases houter
    | ok outer =>
      cases hflush
      obtain ⟨hlength,hdependent,hblocks⟩ := h.layout
      have hland := MergeVerifierChannel.land_getElem? s.logMsgLenAt outer
        (mergedLogMsgLen (s.order.map s.logMsgLenAt)) s.order_nodup 0 s.records
      rw [Rounds.close_of_ne_nil hopen]
      refine Or.inl ⟨rfl,?_,?_,?_,fun k member hk => (by cases hk),fun g round hround => ?_⟩
      · rw [h.count,Rounds.nClosed,Rounds.nClosed,flatten_append,flatten_singleton,length_append]
      · rw [MergeVerifierChannel.land_length,h.count,Rounds.nClosed,Rounds.nClosed,flatten_append,
          flatten_singleton,length_append]
        rfl
      · simp only [length_append,length_singleton,h.received]
      · by_cases hg : g < rounds.closed.length
        · -- an earlier round
          rw [getElem?_append_left hg] at hround
          obtain ⟨earlier,hentry,hrecorded⟩ := h.closed g round hround
          rw [Rounds.first_append hg]
          refine ⟨earlier,?_,fun k member hk => ?_⟩
          · exact getElem?_append_left (List.getElem?_eq_some_iff.mp hentry).1 ▸ hentry
          · have hend := Rounds.first_add_le hround
            have hkround := (List.getElem?_eq_some_iff.mp hk).1
            refine (hland (rounds.first g + k)).trans ?_
            rw [if_neg fun hmem => ?_]
            · exact hrecorded k member hk
            · have hpast := (MergeVerifierChannel.mem_order.mp hmem).1
              rw [h.flushed] at hpast
              omega
        · -- the round that is closed
          obtain ⟨hg',hr⟩ := List.getElem?_eq_some_iff.mp hround
          have hlast : g = rounds.closed.length := by
            rw [length_append,length_singleton] at hg'
            omega
          have hsame : rounds.opened = round := by simpa [hlast] using hr
          rw [hlast,Rounds.first_append_self,←hsame]
          refine ⟨outer,?_,fun k member hk => ?_⟩
          · rw [←hlength,←hdependent]
            simp only
            rw [←h.received,getElem?_concat_length]
          · have hklt := (List.getElem?_eq_some_iff.mp hk).1
            refine (hland (rounds.nClosed + k)).trans ?_
            rw [if_pos (MergeVerifierChannel.mem_order.mpr ⟨by rw [h.flushed]; omega,by rw [h.count]; omega⟩),
              h.opened k member hk,hblocks k hklt,hlength]
            rfl

omit [Field F] [DecidableEq F] in
theorem VerifierRounds.inner
    (h : VerifierRounds rounds s) {t : σ × List (Received Q)} (ht : t.2 = s.inner.2) :
    VerifierRounds rounds { s with inner := t } := by
  refine ⟨h.flushed,h.count,(congrArg length ht).trans h.received,h.opened,fun g round hround => ?_⟩
  obtain ⟨outer,hentry,hrecorded⟩ := h.closed g round hround
  exact ⟨outer,by rw [ht]; exact hentry,hrecorded⟩

omit [Field F] [DecidableEq F] in
theorem VerifierRounds.oracle {s' : MergeVerifierChannel (σ × List (Received Q)) Q}
    (h : VerifierRounds rounds s) {member : Member w F} {outcome : Except Error ℕ}
    (hrecv : MergeVerifierChannel.recvOracle member.buffer.logLen member.isWitnessDependent s =
      some (outcome,s')) : VerifierRounds { rounds with opened := rounds.opened ++ [member] } s' := by
  obtain ⟨-,-,hrecv⟩ := Option.bind_eq_some_iff.mp hrecv
  cases hrecv
  refine ⟨h.flushed,?_,h.received,fun k m hk => ?_,fun g round hround => ?_⟩
  · rw [length_append,length_append,h.count]
    rfl
  · exact aligned_concat (f := fun m => ⟨m.buffer.logLen,m.isWitnessDependent,none⟩) h.count h.opened hk
  · obtain ⟨outer,hentry,hrecorded⟩ := h.closed g round hround
    refine ⟨outer,hentry,fun k m hk => ?_⟩
    have hrecord := hrecorded k m hk
    exact getElem?_append_left (List.getElem?_eq_some_iff.mp hrecord).1 ▸ hrecord

omit [Field F] [DecidableEq F] in
theorem recordReceived_moves : (recordReceived V).toIPVerifierChannel.Moves fun t t' => t'.2 = t.2 :=
  ⟨forward_fst,forward_fst,forward_fst,forward_fst,forward_fst,forward_fst,forward_fst,forward_fst,forward_fst,
    forward_fst⟩

omit [Field F] [DecidableEq F] in
theorem Failed.mono {s' : MergeVerifierChannel (σ × List (Received Q)) Q} (h : Failed s)
    (hlog : s.inner.2 <+: s'.inner.2) : Failed s' := by
  obtain ⟨entry,hentry,hfailed⟩ := h
  exact ⟨entry,hlog.subset hentry,hfailed⟩

omit [Field F] [DecidableEq F] in
theorem flush_received {s' : MergeVerifierChannel (σ × List (Received Q)) Q} {outcome : Except Error Unit}
    (hflush : MergeVerifierChannel.flush (recordReceived V) s = some (outcome,s')) :
    s.inner.2 <+: s'.inner.2 := by
  rw [MergeVerifierChannel.flush] at hflush
  split at hflush
  · cases hflush
    exact prefix_rfl
  · obtain ⟨⟨received,t⟩,hreceived,hflush⟩ := Option.bind_eq_some_iff.mp hflush
    obtain ⟨⟨received',t'⟩,-,hreceived⟩ := Option.bind_eq_some_iff.mp hreceived
    cases hreceived
    cases received with
    | error e =>
      cases hflush
      exact prefix_append _ _
    | ok outer =>
      cases hflush
      exact prefix_append _ _

theorem call_received {call : VerifierCall F ℕ} {s' : MergeVerifierChannel (σ × List (Received Q)) Q}
    {outcome : Except Error (Answer F ℕ)}
    (h : (MergeVerifierChannel.channel (recordReceived V)).call call s = some (outcome,s')) :
    s.inner.2 <+: s'.inner.2 := by
  rcases MergeVerifierChannel.call_cases (recordReceived_moves V) h with
    ⟨-,t,ht,rfl⟩ | ⟨flushed,s₁,t,hflush,ht,rfl⟩ | ⟨logMsgLen,dependent,rfl⟩ | ⟨e,hflush⟩ |
      ⟨s₁,outer,transparent,claim,opened,t,hflush,hrelation,rfl⟩
  · exact ht ▸ prefix_rfl
  · exact ht ▸ flush_received V hflush
  · exact prefix_rfl
  · exact flush_received V hflush
  · have ht : t.2 = s₁.inner.2 := forward_fst hrelation
    exact ht ▸ flush_received V hflush

theorem VerifierRounds.step {s' : MergeVerifierChannel (σ × List (Received Q)) Q}
    (h : VerifierRounds rounds s) {call : RoundCall w F} {outcome : Except Error (Answer F ℕ)}
    (hcall : (MergeVerifierChannel.channel (recordReceived V)).call call.verifierCall s = some (outcome,s')) :
    VerifierRounds (rounds.step call) s' ∨ Failed s' := by
  have hplain : ∀ {α : Type} {base : Infallible (σ × List (Received Q)) α} {a : α},
      (∀ {t t' a}, base t = some (a,t') → t'.2 = t.2) →
        forward MergeVerifierChannel.inner (fun t s => { s with inner := t }) base s = some (a,s') →
          VerifierRounds rounds s' := by
    intro α base a hbase hforward
    obtain ⟨t,ht,rfl⟩ := forward_eq_some _ _ hforward
    exact h.inner (hbase ht)
  have hdraw : ∀ {α : Type} {base : Infallible (σ × List (Received Q)) α} {a : α},
      (∀ {t t' a}, base t = some (a,t') → t'.2 = t.2) →
        MergeVerifierChannel.draw (recordReceived V) base s = some (a,s') →
          VerifierRounds rounds.close s' ∨ Failed s' := by
    intro α base a hbase hdrawn
    obtain ⟨⟨flushed,s₁⟩,hflush,hdrawn⟩ := Option.bind_eq_some_iff.mp hdrawn
    obtain ⟨⟨b,t⟩,ht,hdrawn⟩ := Option.bind_eq_some_iff.mp hdrawn
    cases hdrawn
    rcases h.flush V hflush with ⟨-,hclosed⟩ | hfailed
    · exact Or.inl (hclosed.inner (hbase ht))
    · exact Or.inr (hfailed.mono ((hbase ht) ▸ prefix_rfl))
  cases call with
  | oracle member =>
    obtain ⟨⟨r,s₁⟩,hr,hcall⟩ := Option.bind_eq_some_iff.mp hcall
    cases hcall
    exact Or.inl (h.oracle hr)
  | sample =>
    obtain ⟨⟨r,s₁⟩,hr,hcall⟩ := Option.bind_eq_some_iff.mp hcall
    cases hcall
    exact hdraw forward_fst hr
  | sampleBits bits =>
    obtain ⟨⟨r,s₁⟩,hr,hcall⟩ := Option.bind_eq_some_iff.mp hcall
    cases hcall
    exact hdraw forward_fst hr
  | relation handle table transparent claim =>
    obtain ⟨⟨r,s₁⟩,hr,hcall⟩ := Option.bind_eq_some_iff.mp hcall
    cases hcall
    obtain ⟨⟨flushed,s₂⟩,hflush,hr⟩ := Option.bind_eq_some_iff.mp hr
    cases flushed with
    | error e =>
      cases hr
      rcases h.flush V hflush with ⟨hok,-⟩ | hfailed
      · cases hok
      · exact Or.inr hfailed
    | ok u =>
      obtain ⟨record,-,hr⟩ := Option.bind_eq_some_iff.mp hr
      obtain ⟨mapping,-,hr⟩ := Option.bind_eq_some_iff.mp hr
      obtain ⟨⟨opened,t⟩,ht,hr⟩ := Option.bind_eq_some_iff.mp hr
      cases hr
      have hlog : t.2 = s₂.inner.2 := forward_fst ht
      rcases h.flush V hflush with ⟨-,hclosed⟩ | hfailed
      · exact Or.inl (hclosed.inner hlog)
      · exact Or.inr (hfailed.mono (hlog ▸ prefix_rfl))
  | message vals =>
    obtain ⟨⟨r,s₁⟩,hr,hcall⟩ := Option.bind_eq_some_iff.mp hcall
    cases hcall
    exact Or.inl (hplain forward_fst hr)
  | observe vals =>
    obtain ⟨⟨r,s₁⟩,hr,hcall⟩ := Option.bind_eq_some_iff.mp hcall
    cases hcall
    exact Or.inl (hplain forward_fst hr)
  | observeWords words =>
    obtain ⟨⟨r,s₁⟩,hr,hcall⟩ := Option.bind_eq_some_iff.mp hcall
    cases hcall
    exact Or.inl (hplain forward_fst hr)

theorem VerifierRounds.run {s' : MergeVerifierChannel (σ × List (Received Q)) Q}
    (h : VerifierRounds rounds s ∨ Failed s) {calls : List (RoundCall w F)}
    {answers : List (Except Error (Answer F ℕ))}
    (hrun : (MergeVerifierChannel.channel (recordReceived V)).run (calls.map RoundCall.verifierCall) s =
      some (answers,s')) : VerifierRounds (calls.foldl Rounds.step rounds) s' ∨ Failed s' := by
  induction calls generalizing rounds s answers with
  | nil =>
    cases hrun
    exact h
  | cons call calls ih =>
    obtain ⟨⟨answer,s₁⟩,hcall,hrun⟩ := Option.bind_eq_some_iff.mp hrun
    obtain ⟨⟨tail,s₂⟩,htail,hrun⟩ := Option.bind_eq_some_iff.mp hrun
    cases hrun
    refine ih (h.elim (fun hrounds => hrounds.step V hcall) fun hfailed => Or.inr ?_) htail
    exact hfailed.mono (call_received V hcall)

end Verifier

section Both

variable [DecidableEq F] (P : IOPProverChannel w F τ O) (V : IOPVerifierChannel F σ Q)

/-- A round that both sides merged in one way, from the blocks of its members. -/
structure RoundMerged (p : MergeProverChannel w F (τ × List (FieldBuffer w F × O)) O)
    (v : MergeVerifierChannel (σ × List (Received Q)) Q) (first g : ℕ) (round : List (Member w F))
    (combined : FieldBuffer w F) (block : ℕ → ℕ) : Prop where
  sent : ∃ outer, p.inner.2[g]? = some (combined,outer) ∧ p.groups[g]?.map MergeProver.Group.outer = some outer ∧
    ∀ k member, round[k]? = some member →
      p.records[first + k]? = some ⟨member.buffer.logLen,some ⟨g,block k,combined.logLen⟩⟩
  received : ∃ outer, v.inner.2[g]? = some ⟨combined.logLen,round.any Member.isWitnessDependent,.ok outer⟩ ∧
    ∀ k member, round[k]? = some member → v.records[first + k]? = some ⟨member.buffer.logLen,
      member.isWitnessDependent,some ⟨outer,block k,combined.logLen⟩⟩
  inside : ∀ k member, round[k]? = some member →
    block k * 2 ^ member.buffer.logLen + 2 ^ member.buffer.logLen ≤ 2 ^ combined.logLen
  disjoint : ∀ k l member other, round[k]? = some member → round[l]? = some other → k ≠ l →
    block k * 2 ^ member.buffer.logLen + 2 ^ member.buffer.logLen ≤ block l * 2 ^ other.buffer.logLen ∨
      block l * 2 ^ other.buffer.logLen + 2 ^ other.buffer.logLen ≤ block k * 2 ^ member.buffer.logLen
  scalars : ∀ k member, round[k]? = some member → ∀ i < 2 ^ member.buffer.logLen,
    combined.scalar (block k * 2 ^ member.buffer.logLen + i) = member.buffer.scalar i
  zeros : ∀ x < 2 ^ combined.logLen, (∀ k member, round[k]? = some member →
    ¬(block k * 2 ^ member.buffer.logLen ≤ x ∧
      x < block k * 2 ^ member.buffer.logLen + 2 ^ member.buffer.logLen)) → combined.scalar x = 0
  /-- A member's transparent is padded to one that meets the combined buffer as the member is met, and
  the verifier evaluates its extension. -/
  transparents : ∀ k member, round[k]? = some member → ∀ table : FieldBuffer w F,
    table.logLen = member.buffer.logLen → ∃ padded,
      MergeProverChannel.padded table (block k) combined.logLen = some padded ∧
      padded.logLen = combined.logLen ∧ padded.innerProduct combined = table.innerProduct member.buffer ∧
      ∀ transparent, (∀ low, low.length = table.logLen → transparent low = some (table.mle low)) →
        ∀ point, point.length = combined.logLen → MergeVerifierChannel.paddedTransparent
          member.buffer.logLen (block k) combined.logLen transparent point = some (padded.mle point)

theorem RoundSent.merged {p : MergeProverChannel w F (τ × List (FieldBuffer w F × O)) O}
    {v : MergeVerifierChannel (σ × List (Received Q)) Q} {first g : ℕ} {round : List (Member w F)}
    (hsent : RoundSent p first g round) (hreceived : RoundReceived v first g round) :
    ∃ combined, RoundMerged p v first g round combined (blockOf (buffers round)) := by
  obtain ⟨⟨combined,outer,hbuffer,hgroup,hcombine⟩,hrecorded⟩ := hsent
  obtain ⟨outer',hentry,hrecorded'⟩ := hreceived
  obtain ⟨combined',hcombine',hlen,hscalar⟩ := MergeProverChannel.combine_run (buffers round)
  cases hcombine.symm.trans hcombine'
  have hmember : ∀ {k member}, round[k]? = some member → (buffers round)[k]? = some member.buffer ∧
      k < (buffers round).length ∧ MergeProverChannel.sizeAt (buffers round) k = member.buffer.logLen := by
    intro k member hk
    have hget : (buffers round)[k]? = some member.buffer := by
      rw [buffers,getElem?_map,hk]
      rfl
    exact ⟨hget,(List.getElem?_eq_some_iff.mp hget).1,MergeProverChannel.sizeAt_eq _ hget⟩
  have hinside : ∀ k member, round[k]? = some member → blockOf (buffers round) k * 2 ^ member.buffer.logLen +
      2 ^ member.buffer.logLen ≤ 2 ^ combined.logLen := by
    intro k member hk
    obtain ⟨-,hlt,hsize⟩ := hmember hk
    rw [hlen,←hsize]
    exact MergeProverChannel.blockOf_fits _ hlt
  have hstart : ∀ {k member}, round[k]? = some member → blockOf (buffers round) k * 2 ^ member.buffer.logLen =
      start (MergeProverChannel.sizeAt (buffers round)) (MergeProverChannel.order (buffers round)) k := by
    intro k member hk
    obtain ⟨-,hlt,hsize⟩ := hmember hk
    rw [←hsize]
    exact MergeProverChannel.blockOf_mul _ hlt
  have hcells : ∀ i ∈ MergeProverChannel.order (buffers round),
      (MergeProverChannel.scalarsAt (buffers round) i).length = 2 ^ MergeProverChannel.sizeAt (buffers round) i :=
    fun i hi => MergeProverChannel.scalarsAt_length _ ((MergeProverChannel.mem_order _).mp hi)
  have hscalars : ∀ k member, round[k]? = some member → ∀ i < 2 ^ member.buffer.logLen, combined.scalar
      (blockOf (buffers round) k * 2 ^ member.buffer.logLen + i) = member.buffer.scalar i := by
    intro k member hk i hi
    obtain ⟨hget,hlt,hsize⟩ := hmember hk
    have hin := hinside k member hk
    rw [hscalar _ (by rw [←hlen]; omega),hstart hk,
      getD_flatMap _ hcells ((MergeProverChannel.mem_order _).mpr hlt) (by rw [hsize]; exact hi),
      MergeProverChannel.scalarsAt,hget]
    exact member.buffer.scalars_getD hi
  refine ⟨combined,⟨outer,hbuffer,hgroup,?_⟩,⟨outer',?_,?_⟩,hinside,?_,hscalars,?_,?_⟩
  · rw [hlen]
    exact hrecorded
  · rw [hlen]
    exact hentry
  · rw [hlen]
    exact hrecorded'
  · intro k l member other hk hl hkl
    obtain ⟨-,hklt,hksize⟩ := hmember hk
    obtain ⟨-,hllt,hlsize⟩ := hmember hl
    rw [hstart hk,hstart hl,←hksize,←hlsize]
    exact start_disjoint _ ((MergeProverChannel.mem_order _).mpr hklt) ((MergeProverChannel.mem_order _).mpr hllt) hkl
  · intro x hx hout
    rw [hscalar x (hlen ▸ hx),getD_eq_default]
    by_contra hlow
    rw [flatMap_length _ hcells,not_le] at hlow
    obtain ⟨k,hk,hle,hlt⟩ := exists_block _ (MergeProverChannel.order_nodup _) hlow
    have hkround : k < round.length := by
      have hkbuffers := (MergeProverChannel.mem_order _).mp hk
      rwa [buffers,length_map] at hkbuffers
    have hget := getElem?_eq_getElem hkround
    refine hout k _ hget ?_
    rw [hstart hget,←(hmember hget).2.2]
    exact ⟨hle,hlt⟩
  · intro k member hk table htable
    have hin := hinside k member hk
    rw [←htable] at hin
    obtain ⟨padded,hpadded,hpaddedLen,-⟩ := padded_run hin
    refine ⟨padded,hpadded,hpaddedLen,innerProduct_padded htable hin hpadded (hscalars k member hk),?_⟩
    intro transparent htransparent point hpoint
    rw [←htable]
    exact paddedTransparent_eq hin hpadded htransparent hpoint

/-- In a run of which no oracle fails to be received, prover and verifier merge the same rounds in one
way once the last one is flushed, and the schedule lists what they commit. -/
theorem merging_exact (isZk : Bool) (oracleSpecs : List OracleSpec) (t₀ : τ) (s₀ : σ)
    (calls : List (RoundCall w F)) {p₁ p : MergeProverChannel w F (τ × List (FieldBuffer w F × O)) O}
    {v₁ v : MergeVerifierChannel (σ × List (Received Q)) Q} {answers : List (Except Error (Answer F ℕ))}
    {outcome : Except Error Unit}
    (hproved : proverRun (MergeProverChannel.channel (recordSent P)) calls (.new (t₀,[]) oracleSpecs) = some p₁)
    (hsent : MergeProverChannel.flush (recordSent P) p₁ = some ((),p))
    (hverified : (MergeVerifierChannel.channel (recordReceived V)).run (calls.map RoundCall.verifierCall)
      (.new (s₀,[]) oracleSpecs) = some (answers,v₁))
    (hreceived : MergeVerifierChannel.flush (recordReceived V) v₁ = some (outcome,v))
    (hall : ∀ entry ∈ v.inner.2, ∃ outer, entry.outcome = .ok outer) :
    p.inner.2.length = (roundsOf calls).length ∧ v.inner.2.length = (roundsOf calls).length ∧
    (∀ g round, (roundsOf calls)[g]? = some round → ∃ combined block,
      RoundMerged p v ((roundsOf calls).take g).flatten.length g round combined block) ∧
    v.inner.2.map (fun entry => ⟨entry.logMsgLen,isZk && entry.isWitnessDependent⟩) =
      ((calls.map RoundCall.verifierCall).foldl (fun s call => OracleSetupChannel.call call s)
        (.new isZk)).intoOracleSchedule.mergedSpecs := by
  have hprover : ProverRounds (calls.foldl Rounds.step ⟨[],[]⟩).close p := by
    have hstart : ProverRounds (⟨[],[]⟩ : Rounds w F) (.new (t₀,[]) oracleSpecs :
        MergeProverChannel w F (τ × List (FieldBuffer w F × O)) O) := by
      refine ⟨rfl,rfl,rfl,rfl,fun k member hk => ?_,fun g round hround => ?_⟩
      · cases hk
      · cases hround
    exact (hstart.run P hproved).flush P hsent
  have hverifier : VerifierRounds (calls.foldl Rounds.step ⟨[],[]⟩).close v := by
    have hstart : VerifierRounds (⟨[],[]⟩ : Rounds w F) (.new (s₀,[]) oracleSpecs :
        MergeVerifierChannel (σ × List (Received Q)) Q) := by
      refine ⟨rfl,rfl,rfl,fun k member hk => ?_,fun g round hround => ?_⟩
      · cases hk
      · cases hround
    have hnone : ¬Failed v := by
      rintro ⟨entry,hentry,hfailed⟩
      obtain ⟨outer,houter⟩ := hall entry hentry
      exact hfailed outer houter
    rcases VerifierRounds.run V (Or.inl hstart) hverified with hrounds | hfailed
    · rcases hrounds.flush V hreceived with ⟨-,hclosed⟩ | hfailed
      · exact hclosed
      · exact absurd hfailed hnone
    · exact absurd (hfailed.mono (flush_received V hreceived)) hnone
  refine ⟨hprover.sent,hverifier.received,fun g round hround => ?_,?_⟩
  · obtain ⟨combined,hmerged⟩ := (hprover.closed g round hround).merged (hverifier.closed g round hround)
    exact ⟨combined,_,hmerged⟩
  · rw [mergedSpecs_eq]
    refine ext_getElem? fun g => ?_
    rw [getElem?_map,getElem?_map]
    cases hround : (roundsOf calls)[g]? with
    | none =>
      have hpast : v.inner.2.length ≤ g := hverifier.received.trans_le (List.getElem?_eq_none_iff.mp hround)
      rw [getElem?_eq_none hpast]
      rfl
    | some round =>
      obtain ⟨outer,hentry,-⟩ := hverifier.closed g round hround
      rw [hentry,Option.map_some,Option.map_some,combinedLogLen_buffers,OracleSchedule.mergedSpec]
      have hany : (round.map (Member.spec isZk)).any OracleSpec.isZk =
          (isZk && round.any Member.isWitnessDependent) := by
        rw [any_map]
        cases isZk <;> simp [Member.spec,Function.comp_def]
      rw [hany,map_map]
      rfl

end Both

def acceptingProver : IOPProverChannel 1 (ZMod 2) Unit Unit where
  sendMany _ t := some ((),t)
  observeMany _ t := some ((),t)
  sample t := some (1,t)
  observeWords _ t := some ((),t)
  sampleBits _ t := some (0,t)
  sendOracle _ t := some ((),t)
  proveOracleRelation _ _ _ t := some ((),t)
  finalizeOracle _ _ t := some ((),t)

def acceptingVerifier : IOPVerifierChannel (ZMod 2) Unit Unit where
  recvOne s := some (.ok 0,s)
  recvMany n s := some (.ok (replicate n 0),s)
  recvArray n s := some (.ok (replicate n 0),s)
  recvPublicClaim s := some (.ok 0,s)
  sample s := some (1,s)
  observeOne val s := some (val,s)
  observeMany vals s := some (vals,s)
  assertZero _ s := some (.ok (),s)
  observeWords words s := some (words,s)
  sampleBits _ s := some (0,s)
  recvOracle _ _ s := some (.ok (),s)
  verifyOracleRelation _ _ _ s := some (.ok (),s)

/-- A round of two oracles: one scalar and four. -/
def mixedRound : List (Member 1 (ZMod 2)) := [⟨.zeros 0,true⟩,⟨.zeros 2,false⟩]

/-- Two oracles are merged. -/
theorem merging_exact_mixed : ∃ (p : MergeProverChannel 1 (ZMod 2) (Unit × List (FieldBuffer 1 (ZMod 2) × Unit)) Unit)
    (v : MergeVerifierChannel (Unit × List (Received Unit)) Unit) (combined : FieldBuffer 1 (ZMod 2))
    (block : ℕ → ℕ), RoundMerged p v 0 0 mixedRound combined block := by
  have hflush : ∀ s : MergeProverChannel 1 (ZMod 2) (Unit × List (FieldBuffer 1 (ZMod 2) × Unit)) Unit,
      ∃ s', MergeProverChannel.flush (recordSent acceptingProver) s = some ((),s') := by
    intro s
    rw [MergeProverChannel.flush]
    split
    · exact ⟨s,rfl⟩
    · obtain ⟨combined,hcombine,-⟩ := MergeProverChannel.combine_run s.pending
      rw [MergeProverChannel.blocks] at hcombine
      simp only [hcombine]
      exact ⟨_,rfl⟩
  obtain ⟨p,hsent⟩ := hflush ⟨((),[]),[⟨0,true⟩,⟨2,false⟩],[.zeros 0,.zeros 2],[⟨0,none⟩,⟨2,none⟩],[]⟩
  obtain ⟨v,hreceived,hall⟩ : ∃ v, MergeVerifierChannel.flush (recordReceived acceptingVerifier)
      ⟨((),[]),[⟨0,true⟩,⟨2,false⟩],[⟨0,true,none⟩,⟨2,false,none⟩],0⟩ = some (.ok (),v) ∧
        ∀ entry ∈ v.inner.2, ∃ outer, entry.outcome = .ok outer := by
    rw [MergeVerifierChannel.flush,if_neg (by decide)]
    refine ⟨_,rfl,fun entry hentry => ?_⟩
    cases mem_singleton.mp hentry
    exact ⟨(),rfl⟩
  obtain ⟨-,-,hmerged,-⟩ := merging_exact acceptingProver acceptingVerifier true [⟨0,true⟩,⟨2,false⟩] () ()
    (mixedRound.map .oracle) rfl hsent rfl hreceived hall
  obtain ⟨combined,block,hround⟩ := hmerged 0 mixedRound rfl
  exact ⟨p,v,combined,block,hround⟩

end Binius64.OracleChannel
