import Binius64.FriRounds

/-!
# The rounds of prover and verifier in step

An honest prover commits in the rounds in which the verifier expects a commitment, in the shapes
that it expects, when every fold takes a challenge.
-/

namespace Binius64.Fri

open Ntt MerkleChannel ReplayedRuns List
open FriParams (greatest)
open Option (any_some getD_none getD_some map_some)

variable {F σ τ K K' : Type}

namespace FriFoldProver

variable [Field F]

def lastCommitment (self : FriFoldProver F K) : Option K :=
  match self.state with
  | .laterFolds _ _ commitment _ => some commitment
  | .firstFold _ => none

variable [DecidableEq F] (ch : MerkleIPProverChannel F σ K)

/-- Execute a round and return the commitment that it sends, if it sends one. -/
def executeRound (self : FriFoldProver F K) : Writing σ (Option K × FriFoldProver F K) := do
  let next ← self.executeFoldRound ch
  return (if self.isCommitmentRound then next.lastCommitment else none,next)

/-- Execute the rounds, a challenge drawn between each and the next. -/
def runRounds : List (Writing σ F) → FriFoldProver F K → Writing σ (List (Option K) × FriFoldProver F K)
  | [],self => do
    let (commitment,self) ← self.executeRound ch
    return ([commitment],self)
  | draw :: draws,self => do
    let (commitment,self) ← self.executeRound ch
    let challenge ← draw
    let (commitments,self) ← runRounds draws (self.receiveChallenge challenge)
    return (commitment :: commitments,self)

end FriFoldProver

/-- Process the rounds, a challenge drawn between each and the next. -/
def FriFoldVerifier.runRounds (ch : MerkleIPVerifierChannel F τ K) :
    List (Reading τ Stop F) → FriFoldVerifier K →
      Reading τ Stop (List (Option K) × List F × FriFoldVerifier K)
  | [],self => do
    let (commitment,self) ← self.processRound ch
    return ([commitment],[],self)
  | draw :: draws,self => do
    let (commitment,self) ← self.processRound ch
    let challenge ← draw
    let (commitments,challenges,self) ← runRounds ch draws self
    return (commitment :: commitments,challenge :: challenges,self)

def shapeOf (shape : K → ℕ × ℕ) (round : ℕ) (commitment : Option K) : List ExpectedCommitment :=
  (commitment.map fun c => ⟨round,(shape c).1,(shape c).2⟩).toList

/-- What the rounds from a round on commit to, as the schedule has it. -/
def shapes (shape : K → ℕ × ℕ) : ℕ → List (Option K) → List ExpectedCommitment
  | _,[] => []
  | round,commitment :: commitments =>
    shapeOf shape round commitment ++ shapes shape (round + 1) commitments

namespace FriParams

structure Laid (params : FriParams) : Prop where
  nonempty : params.inputOracles ≠ []
  maxLogMsgLen : params.maxLogMsgLen = params.rsCode.logDimension + params.maxEarly + params.maxLater
  logNOracles : params.logNOracles = Nat.clog 2 params.inputOracles.length
  sum_le : params.foldArities.sum ≤ params.rsCode.logDimension
  logTerminalDim : params.logTerminalDim = params.rsCode.logDimension - params.foldArities.sum

theorem newBatch_laid {rsCode : ReedSolomonCode} {oracles : List CodewordSpec} {foldArities : List ℕ}
    {nTestQueries : ℕ} {params : FriParams}
    (h : newBatch rsCode oracles foldArities nTestQueries = some params) :
    params.Laid ∧ params.rsCode = rsCode ∧ params.inputOracles = oracles ∧
      params.foldArities = foldArities := by
  obtain ⟨_,hnonempty,h⟩ := Option.bind_eq_some_iff.mp h
  obtain ⟨_,hsum,h⟩ := Option.bind_eq_some_iff.mp h
  rw [Option.guard_eq_some'] at hnonempty hsum
  cases h
  exact ⟨⟨hnonempty,rfl,rfl,hsum,rfl⟩,rfl,rfl,rfl⟩

variable {params : FriParams}

theorem Laid.logBatchSize_eq (h : params.Laid) :
    params.logBatchSize = params.maxEarly + params.logNOracles + params.maxLater := by
  rw [logBatchSize,logMsgLen,h.maxLogMsgLen]
  omega

theorem Laid.nFoldRounds_eq (h : params.Laid) :
    params.nFoldRounds = params.logBatchSize + params.rsCode.logDimension := by
  rw [h.logBatchSize_eq,nFoldRounds,h.maxLogMsgLen]
  omega

end FriParams

def commitSchedule (params : FriParams) : List ExpectedCommitment :=
  FriFoldVerifier.schedule (fun round => ⟨round,1 <<< params.nFinalChallenges,params.rsCode.logInvRate⟩)
    params.foldArities params.logBatchSize params.indexBits

theorem schedule_at (terminal : ℕ → ExpectedCommitment) (done rest : List ℕ) (round depth : ℕ) :
    (FriFoldVerifier.schedule terminal (done ++ rest) round depth)[done.length]? =
      some (match rest with
        | [] => terminal (round + done.sum)
        | arity :: _ => ⟨round + done.sum,1 <<< arity,depth - done.sum - arity⟩) := by
  induction done generalizing round depth with
  | nil => cases rest <;> rfl
  | cons arity done ih =>
    rw [cons_append,FriFoldVerifier.schedule,length_cons,getElem?_cons_succ,ih,
      sum_cons,add_assoc,Nat.sub_sub]

theorem schedule_length (terminal : ℕ → ExpectedCommitment) (arities : List ℕ) (round depth : ℕ) :
    (FriFoldVerifier.schedule terminal arities round depth).length = arities.length + 1 := by
  induction arities generalizing round depth with
  | nil => rfl
  | cons arity arities ih => rw [FriFoldVerifier.schedule,length_cons,ih,length_cons]

theorem commitSchedule_at {params : FriParams} (hlaid : params.Laid) {done rest : List ℕ}
    (harities : params.foldArities = done ++ rest) :
    (commitSchedule params)[done.length]? = some ⟨params.logBatchSize + done.sum,
      1 <<< rest.head?.getD params.nFinalChallenges,params.rsCode.logDimension - done.sum +
        params.rsCode.logInvRate - rest.head?.getD params.nFinalChallenges⟩ := by
  have hsum := hlaid.sum_le
  rw [harities,sum_append] at hsum
  rw [commitSchedule,harities,schedule_at]
  cases rest with
  | nil =>
    have hterminal := hlaid.logTerminalDim
    rw [harities,sum_append,sum_nil] at hterminal
    have hdepth : params.rsCode.logInvRate = params.rsCode.logDimension - done.sum +
        params.rsCode.logInvRate - params.logTerminalDim := by
      rw [sum_nil] at hsum
      omega
    rw [head?_nil,getD_none,FriParams.nFinalChallenges,←hdepth]
  | cons arity rest =>
    rw [sum_cons] at hsum
    have hdepth : params.rsCode.logDimension + params.rsCode.logInvRate - done.sum - arity =
        params.rsCode.logDimension - done.sum + params.rsCode.logInvRate - arity := by omega
    rw [head?_cons,getD_some,FriParams.indexBits,ReedSolomonCode.logLen]
    simp only [hdepth]

section Steps

variable [Field F] (params : FriParams) (ntt : AdditiveNtt F) (members : List (Member F K K'))
  (Committed : K → K' → Buffer F → ℕ → Prop)

/-- The states of prover and verifier after some challenges: the batch is not folded yet, or it is and some
codewords of rounds after it are too. -/
inductive InStep (challenges : List F) : FriFoldProver F K → FriFoldVerifier K' → Prop where
  | waiting {round : ℕ} (hnext : round ≤ params.logBatchSize) :
      InStep challenges
        ⟨params,ntt,.firstFold ⟨params.rsCode.logLen,members.map Member.folder⟩,challenges.length,
          some params.logBatchSize,challenges⟩
        ⟨commitSchedule params,[],round,params.nFoldRounds + 1⟩
  | folding {round : ℕ} {done rest : List ℕ} {w : Buffer F} {c : K} {c' : K'}
      {oracles : List (FriOracleProver F K)} {cs' : List K'} (harities : params.foldArities = done ++ rest)
      (hlen : params.logBatchSize + done.sum ≤ challenges.length)
      (hnext : ∀ arity ∈ rest.head?, round ≤ params.logBatchSize + done.sum + arity)
      (hopened : OpenedAt params ntt (members.map Member.message) Committed challenges 0 done oracles cs')
      (hw : LevelAt params ntt (members.map Member.message) challenges done.sum w)
      (hc : Committed c c' w (rest.head?.getD params.nFinalChallenges)) :
      InStep challenges
        ⟨params,ntt,.laterFolds (members.map Member.opened) w c oracles,challenges.length,
          rest.head?.map (params.logBatchSize + done.sum + ·),
          challenges.drop (params.logBatchSize + done.sum)⟩
        ⟨commitSchedule params,cs' ++ [c'],round,params.nFoldRounds + 1⟩

variable {params ntt members Committed} {challenges : List F}

variable {self : FriFoldProver F K} {verifier : FriFoldVerifier K'}

theorem InStep.receive
    (h : InStep params ntt members Committed challenges self verifier) (challenge : F) :
    InStep params ntt members Committed (challenges ++ [challenge]) (self.receiveChallenge challenge)
      verifier := by
  have hlength : challenges.length + 1 = (challenges ++ [challenge]).length := by
    rw [length_append,length_singleton]
  cases h with
  | waiting hnext =>
    simp only [FriFoldProver.receiveChallenge,hlength]
    exact .waiting hnext
  | folding harities hlen hnext hopened hw hc =>
    simp only [FriFoldProver.receiveChallenge,hlength]
    rw [←drop_append_of_le_length hlen]
    exact .folding harities (by omega) hnext (hopened.extend (by omega) _) (hw.extend hlen _) hc

variable [DecidableEq F] {R : Replay σ τ} {T : Prop} {P : MerkleIPProverChannel F σ K}
  {V : MerkleIPVerifierChannel F τ K'}

theorem quiet_mirror
    (hself : self.isCommitmentRound = false)
    (hverifier : ∀ expected, verifier.nextCommitment = some expected → expected.round ≠ verifier.currRound)
    (hround : verifier.currRound < verifier.nRounds) {Q : _ → _ → Prop}
    (hQ : Q (none,self) (none,{ verifier with currRound := verifier.currRound + 1 })) :
    Mirrors R T (self.executeRound P) (verifier.processRound V) Q := by
  have hwrite : self.executeRound P = pure (none,self) := by
    simp only [FriFoldProver.executeRound,FriFoldProver.executeFoldRound,hself,Bool.false_eq_true,if_false,
      pure_bind]
  have hread : verifier.processRound V = pure (none,{ verifier with currRound := verifier.currRound + 1 }) := by
    rw [FriFoldVerifier.processRound,if_pos hround]
    cases hnext : verifier.nextCommitment with
    | none => rfl
    | some expected => exact if_neg (hverifier expected hnext)
  rw [hwrite,hread]
  exact .pure hQ

omit [Field F] [DecidableEq F] in
theorem processRound_due {expected : ExpectedCommitment}
    (hnext : verifier.nextCommitment = some expected) (hdue : expected.round = verifier.currRound)
    (hround : verifier.currRound < verifier.nRounds) :
    verifier.processRound V = V.recvMerkleCommitment expected.leafSize expected.depth >>= fun c' =>
      pure (some c',{ verifier with
        roundCommitments := verifier.roundCommitments ++ [c']
        currRound := verifier.currRound + 1 }) := by
  simp only [FriFoldVerifier.processRound,if_pos hround,hnext,if_pos hdue]

omit [Field F] [DecidableEq F] in
theorem checked_some {α : Type} (a : α) : FriFoldProver.checked (some a) = (pure a : Writing σ α) := rfl

omit [Field F] [DecidableEq F] in
theorem batch_windows (hlaid : params.Laid) (h : params.logBatchSize ≤ challenges.length) :
    challenges.take params.logBatchSize = challenges.take params.maxEarly ++
      (challenges.drop params.maxEarly).take params.logNOracles ++
        (challenges.take params.logBatchSize).drop (params.maxEarly + params.logNOracles) ∧
      (challenges.take params.maxEarly).length = params.maxEarly ∧
      ((challenges.drop params.maxEarly).take params.logNOracles).length = params.logNOracles ∧
      ((challenges.take params.logBatchSize).drop (params.maxEarly + params.logNOracles)).length =
        params.maxLater := by
  have hsize := hlaid.logBatchSize_eq
  refine ⟨?_,?_,?_,?_⟩
  · rw [←take_add]
    have hfirst : challenges.take (params.maxEarly + params.logNOracles) =
        (challenges.take params.logBatchSize).take (params.maxEarly + params.logNOracles) := by
      rw [take_take,Nat.min_eq_left (by omega)]
    rw [hfirst,take_append_drop]
  · rw [length_take]
    omega
  · rw [length_take,length_drop]
    omega
  · rw [length_drop,length_take]
    omega

variable {w : Buffer F}

theorem executeRound_first {folder : BatchBrakedownFolder F K}
    {opened : List (BrakedownOracleProver F K)} (hfold : folder.fold challenges = some (w,opened))
    (hround : challenges.length = params.logBatchSize) :
    (⟨params,ntt,.firstFold folder,challenges.length,some params.logBatchSize,challenges⟩ :
      FriFoldProver F K).executeRound P =
        P.sendMerkleCommitment w (1 <<< params.foldArities.head?.getD params.nFinalChallenges) >>= fun c =>
          pure (some c,⟨params,ntt,.laterFolds opened w c [],challenges.length,
            params.foldArities.head?.map (challenges.length + ·),[]⟩) := by
  have hdue : (⟨params,ntt,.firstFold folder,challenges.length,some params.logBatchSize,challenges⟩ :
      FriFoldProver F K).isCommitmentRound = true := by
    rw [FriFoldProver.isCommitmentRound,any_some,hround]
    exact beq_self_eq_true _
  simp only [FriFoldProver.executeRound,FriFoldProver.executeFoldRound,hdue,if_true,hfold,checked_some,
    FriFoldProver.commitRound,bind_assoc,pure_bind,FriFoldProver.lastCommitment]

theorem executeRound_later {folded : Buffer F} {c : K} {opened : List (BrakedownOracleProver F K)}
    {oracles : List (FriOracleProver F K)} {unprocessed : List F} {round : ℕ}
    (hfold : foldCodeword ntt w unprocessed = .ok folded) :
    (⟨params,ntt,.laterFolds opened w c oracles,round,some round,unprocessed⟩ :
      FriFoldProver F K).executeRound P =
        P.sendMerkleCommitment folded
          (1 <<< params.foldArities[oracles.length + 1]?.getD params.nFinalChallenges) >>= fun next =>
            pure (some next,⟨params,ntt,.laterFolds opened folded next (oracles ++ [⟨w,c,unprocessed.length⟩]),
              round,params.foldArities[oracles.length + 1]?.map (round + ·),[]⟩) := by
  have hdue : (⟨params,ntt,.laterFolds opened w c oracles,round,some round,unprocessed⟩ :
      FriFoldProver F K).isCommitmentRound = true := by
    rw [FriFoldProver.isCommitmentRound,any_some]
    exact beq_self_eq_true _
  simp only [FriFoldProver.executeRound,FriFoldProver.executeFoldRound,hdue,if_true,hfold,Except.toOption,checked_some,
    FriFoldProver.commitRound,bind_assoc,pure_bind,FriFoldProver.lastCommitment]

/-- What a round leaves behind: the states are in step, and what was sent is what the schedule has next. -/
structure Executed (params : FriParams) (ntt : AdditiveNtt F) (members : List (Member F K K'))
    (Committed : K → K' → Buffer F → ℕ → Prop) (shape : K → ℕ × ℕ) (shape' : K' → ℕ × ℕ)
    (challenges : List F) (received : ℕ) (r : Option K × FriFoldProver F K)
    (r' : Option K' × FriFoldVerifier K') : Prop where
  round : r'.2.currRound = challenges.length + 1
  step : InStep params ntt members Committed challenges r.2 r'.2
  sent : (commitSchedule params).drop received = shapeOf shape challenges.length r.1 ++
    (commitSchedule params).drop r'.2.roundCommitments.length
  got : (commitSchedule params).drop received = shapeOf shape' challenges.length r'.1 ++
    (commitSchedule params).drop r'.2.roundCommitments.length

variable {shape : K → ℕ × ℕ} {shape' : K' → ℕ × ℕ}

omit [DecidableEq F] in
theorem due_mirror (hchannel : Mirrored R T P V Committed)
    (hshape : ∀ {c c' data k}, Committed c c' data k →
      shape c = (1 <<< k,data.logLen - k) ∧ shape' c' = (1 <<< k,data.logLen - k))
    (hlaid : params.Laid) {done rest : List ℕ} (harities : params.foldArities = done ++ rest)
    (hround : challenges.length = params.logBatchSize + done.sum)
    (hpos : ∀ arity ∈ rest.head?, 0 < arity) {oracles : List (FriOracleProver F K)} {cs' : List K'}
    (hopened : OpenedAt params ntt (members.map Member.message) Committed challenges 0 done oracles cs')
    (hw : LevelAt params ntt (members.map Member.message) challenges done.sum w)
    {write : Writing σ (Option K × FriFoldProver F K)}
    (hwrite : write = P.sendMerkleCommitment w (1 <<< rest.head?.getD params.nFinalChallenges) >>= fun c =>
      pure (some c,⟨params,ntt,.laterFolds (members.map Member.opened) w c oracles,challenges.length,
        rest.head?.map (challenges.length + ·),[]⟩)) :
    Mirrors R T write ((⟨commitSchedule params,cs',challenges.length,params.nFoldRounds + 1⟩ :
      FriFoldVerifier K').processRound V)
        (Executed params ntt members Committed shape shape' challenges cs'.length) := by
  have hsum := hlaid.sum_le
  have hterminal := hlaid.logTerminalDim
  rw [harities,sum_append] at hsum hterminal
  have hcount : cs'.length = done.length := hopened.lengths.2
  have hnext := commitSchedule_at hlaid harities
  have hleaf : rest.head?.getD params.nFinalChallenges ≤ w.logLen := by
    rw [hw.length]
    cases rest with
    | nil =>
      rw [head?_nil,getD_none,FriParams.nFinalChallenges,hterminal]
      omega
    | cons arity rest =>
      rw [sum_cons] at hsum
      rw [head?_cons,getD_some]
      omega
  rw [←hcount,←hround,←hw.length] at hnext
  have hlt : challenges.length < params.nFoldRounds + 1 := by
    rw [hlaid.nFoldRounds_eq]
    omega
  have hdrop : (commitSchedule params).drop cs'.length = ⟨challenges.length,
      1 <<< rest.head?.getD params.nFinalChallenges,w.logLen - rest.head?.getD params.nFinalChallenges⟩ ::
        (commitSchedule params).drop (cs'.length + 1) := by
    rw [drop_eq_getElem?_toList_append,hnext]
    rfl
  have hread : (⟨commitSchedule params,cs',challenges.length,params.nFoldRounds + 1⟩ :
      FriFoldVerifier K').processRound V = _ := processRound_due hnext rfl hlt
  rw [hwrite,hread]
  refine (hchannel.commitment w _ hleaf).bind fun c c' hc => .pure ?_
  obtain ⟨hc₁,hc₂⟩ := hshape hc
  have hunprocessed : challenges.drop (params.logBatchSize + done.sum) = [] :=
    drop_eq_nil_of_le (le_of_eq hround)
  have hstate : InStep params ntt members Committed challenges _
      (⟨commitSchedule params,cs' ++ [c'],challenges.length + 1,params.nFoldRounds + 1⟩ : FriFoldVerifier K') :=
    .folding harities (le_of_eq hround.symm) (fun arity harity => by have := hpos arity harity; omega) hopened
      hw hc
  rw [hunprocessed,←hround] at hstate
  refine ⟨rfl,hstate,?_,?_⟩
  · rw [hdrop,length_append,length_singleton,shapeOf,map_some,hc₁]
    rfl
  · rw [hdrop,length_append,length_singleton,shapeOf,map_some,hc₂]
    rfl

theorem execute_mirror [CharP F 2] (hchannel : Mirrored R T P V Committed)
    (hshape : ∀ {c c' data k}, Committed c c' data k →
      shape c = (1 <<< k,data.logLen - k) ∧ shape' c' = (1 <<< k,data.logLen - k))
    (hlaid : params.Laid) (hb : Batch params ntt members)
    (hdomain : params.rsCode.logLen ≤ ntt.logDomainSize) (hpos : ∀ arity ∈ params.foldArities, 0 < arity)
    (hstep : InStep params ntt members Committed challenges self verifier)
    (hround : verifier.currRound = challenges.length) (htotal : challenges.length ≤ params.nFoldRounds) :
    Mirrors R T (self.executeRound P) (verifier.processRound V)
      (Executed params ntt members Committed shape shape' challenges verifier.roundCommitments.length) := by
  have hlt : challenges.length < params.nFoldRounds + 1 := Nat.lt_succ_of_le htotal
  cases hstep with
  | @waiting round hnext =>
    have hnow : round = challenges.length := hround
    rw [hnow] at hnext ⊢
    by_cases hdue : challenges.length = params.logBatchSize
    · -- the batch is folded
      obtain ⟨hsplit,he,ho,hl⟩ := batch_windows hlaid (le_of_eq hdue.symm)
      have hall : challenges.take params.logBatchSize = challenges := by rw [←hdue,take_length]
      rw [hall] at hsplit hl
      obtain ⟨values,hfold,hvalues⟩ := fold_run hb he ho hl
      rw [←hsplit] at hfold
      have hw : LevelAt params ntt (members.map Member.message) challenges 0
          ⟨params.rsCode.logLen,values⟩ := by
        refine ⟨rfl,fun i hi => ?_⟩
        have hvalue := (hvalues i hi).trans (combined_codeword hb he ho hl i)
        rw [←hsplit] at hvalue
        rw [level,Nat.sub_zero,add_zero,hall]
        exact hvalue
      have hnone : params.foldArities = [] ++ params.foldArities := rfl
      exact due_mirror hchannel hshape hlaid hnone hdue
        (fun arity harity => hpos arity (mem_of_mem_head? harity)) .nil hw
        (executeRound_first hfold hdue)
    · have hlater : challenges.length + 1 ≤ params.logBatchSize := by omega
      refine quiet_mirror ?_ ?_ hlt ⟨rfl,.waiting hlater,rfl,rfl⟩
      · rw [FriFoldProver.isCommitmentRound,any_some]
        exact beq_false_of_ne fun h => hdue h.symm
      · intro expected hexpected
        have hnone : params.foldArities = [] ++ params.foldArities := rfl
        have hfirst := commitSchedule_at hlaid hnone
        rw [FriFoldVerifier.nextCommitment] at hexpected
        have hsame := Option.some.inj (hfirst.symm.trans hexpected)
        rw [←hsame]
        exact fun h => hdue h.symm
  | @folding round done rest w c c' oracles cs' harities hlen hnext hopened hw hc =>
    have hnow : round = challenges.length := hround
    rw [hnow] at hnext ⊢
    have hcount : (cs' ++ [c']).length = done.length + 1 := by
      rw [length_append,length_singleton,hopened.lengths.2]
    cases rest with
    | nil =>
      refine quiet_mirror rfl ?_ hlt ⟨rfl,.folding harities hlen (fun arity h => by cases h) hopened hw hc,
        rfl,rfl⟩
      intro expected hexpected
      rw [append_nil] at harities
      have hnone : (commitSchedule params)[(cs' ++ [c']).length]? = none := by
        refine getElem?_eq_none ?_
        rw [commitSchedule,schedule_length,hcount,harities]
      exact absurd (hnone.symm.trans hexpected) (by simp)
    | cons arity rest =>
      have harities' : params.foldArities = (done ++ [arity]) ++ rest := by
        rw [harities,append_assoc,singleton_append]
      have hdone : (done ++ [arity]).sum = done.sum + arity := by
        rw [sum_append,sum_singleton]
      have hbound := hnext arity rfl
      by_cases hdue : challenges.length = params.logBatchSize + done.sum + arity
      · -- the last codeword is folded
        have hsum := hlaid.sum_le
        rw [harities,sum_append,sum_cons] at hsum
        obtain ⟨folded,hfold,hfolded⟩ := foldCodeword_run hw hdomain (by omega) hdue
        have hunprocessed : (challenges.drop (params.logBatchSize + done.sum)).length = arity := by
          rw [length_drop]
          omega
        have hindex : params.foldArities[oracles.length + 1]? = rest.head? := by
          rw [harities,hopened.lengths.1,getElem?_append_right (Nat.le_succ _),
            Nat.succ_sub (le_refl _),Nat.sub_self,getElem?_cons_succ,head?_eq_getElem?]
        have hnextRound : ((arity :: rest).head?.map (params.logBatchSize + done.sum + ·)) =
            some challenges.length := by
          rw [head?_cons,map_some,hdue]
        have hwrite : (⟨params,ntt,.laterFolds (members.map Member.opened) w c oracles,challenges.length,
            some challenges.length,challenges.drop (params.logBatchSize + done.sum)⟩ :
              FriFoldProver F K).executeRound P = _ := executeRound_later hfold
        rw [hunprocessed,hindex] at hwrite
        have hround' : challenges.length = params.logBatchSize + (done ++ [arity]).sum := by
          rw [hdone]
          omega
        have hpos' : ∀ a ∈ rest.head?, 0 < a := fun a ha => by
          refine hpos a ?_
          rw [harities']
          exact mem_append_right _ (mem_of_mem_head? ha)
        have hopened' : OpenedAt params ntt (members.map Member.message) Committed challenges 0
            (done ++ [arity]) (oracles ++ [⟨w,c,arity⟩]) (cs' ++ [c']) :=
          hopened.concat (by rw [zero_add]; exact hw) rfl hc
        rw [←hdone] at hfolded
        rw [hnextRound]
        exact due_mirror hchannel hshape hlaid harities' hround' hpos' hopened' hfolded hwrite
      · have hlater : ∀ a ∈ (arity :: rest).head?,
            challenges.length + 1 ≤ params.logBatchSize + done.sum + a := by
          intro a ha
          rw [head?_cons] at ha
          cases ha
          omega
        refine quiet_mirror ?_ ?_ hlt ⟨rfl,.folding harities hlen hlater hopened hw hc,rfl,rfl⟩
        · rw [FriFoldProver.isCommitmentRound,head?_cons,map_some,any_some]
          exact beq_false_of_ne fun h => hdue h.symm
        · intro expected hexpected
          have hat := commitSchedule_at hlaid harities'
          rw [hdone,length_append,length_singleton,←hcount] at hat
          have hsame := Option.some.inj (hat.symm.trans hexpected)
          rw [←hsame]
          exact fun h => hdue ((Nat.add_assoc _ _ _).trans h).symm

/-- The states after all rounds: the codewords of all folds are committed to. -/
inductive Finished (params : FriParams) (ntt : AdditiveNtt F) (members : List (Member F K K'))
    (Committed : K → K' → Buffer F → ℕ → Prop) (challenges : List F) :
    FriFoldProver F K → FriFoldVerifier K' → Prop where
  | intro {w : Buffer F} {c : K} {c' : K'} {oracles : List (FriOracleProver F K)} {cs' : List K'}
      {unprocessed : List F}
      (hopened : OpenedAt params ntt (members.map Member.message) Committed challenges 0 params.foldArities
        oracles cs')
      (hw : LevelAt params ntt (members.map Member.message) challenges params.foldArities.sum w)
      (hc : Committed c c' w params.nFinalChallenges) :
      Finished params ntt members Committed challenges
        ⟨params,ntt,.laterFolds (members.map Member.opened) w c oracles,params.nFoldRounds,none,unprocessed⟩
        ⟨commitSchedule params,cs' ++ [c'],params.nFoldRounds + 1,params.nFoldRounds + 1⟩

omit [DecidableEq F] in
theorem InStep.finished (hlaid : params.Laid)
    (h : InStep params ntt members Committed challenges self verifier)
    (hlast : challenges.length = params.nFoldRounds) (hround : verifier.currRound = challenges.length + 1) :
    Finished params ntt members Committed challenges self verifier ∧
      (commitSchedule params).drop verifier.roundCommitments.length = [] := by
  have htotal := hlaid.nFoldRounds_eq
  have hsum := hlaid.sum_le
  cases h with
  | @waiting round hnext =>
    have hnow : round = challenges.length + 1 := hround
    omega
  | @folding round done rest w c c' oracles cs' harities hlen hnext hopened hw hc =>
    have hnow : round = challenges.length + 1 := hround
    rw [harities,sum_append] at hsum
    cases rest with
    | cons arity rest =>
      have hbound := hnext arity rfl
      rw [sum_cons] at hsum
      omega
    | nil =>
      rw [append_nil] at harities
      rw [hnow,hlast]
      refine ⟨.intro ?_ ?_ hc,?_⟩
      · rw [harities]
        exact hopened
      · rw [harities]
        exact hw
      · refine drop_eq_nil_of_le ?_
        rw [commitSchedule,schedule_length,length_append,length_singleton,hopened.lengths.2,harities]

/-- What all rounds leave behind. -/
structure RanRounds (params : FriParams) (ntt : AdditiveNtt F) (members : List (Member F K K'))
    (Committed : K → K' → Buffer F → ℕ → Prop) (shape : K → ℕ × ℕ) (shape' : K' → ℕ × ℕ)
    (challenges : List F) (received : ℕ) (r : List (Option K) × FriFoldProver F K)
    (r' : List (Option K') × List F × FriFoldVerifier K') : Prop where
  length : (challenges ++ r'.2.1).length = params.nFoldRounds
  finished : Finished params ntt members Committed (challenges ++ r'.2.1) r.2 r'.2.2
  sent : (commitSchedule params).drop received = shapes shape challenges.length r.1
  got : (commitSchedule params).drop received = shapes shape' challenges.length r'.1

theorem rounds_mirror [CharP F 2] (hchannel : Mirrored R T P V Committed)
    (hshape : ∀ {c c' data k}, Committed c c' data k →
      shape c = (1 <<< k,data.logLen - k) ∧ shape' c' = (1 <<< k,data.logLen - k))
    (hlaid : params.Laid) (hb : Batch params ntt members)
    (hdomain : params.rsCode.logLen ≤ ntt.logDomainSize) (hpos : ∀ arity ∈ params.foldArities, 0 < arity)
    {draws : List (Writing σ F)} {draws' : List (Reading τ Stop F)}
    (hdraws : List.Forall₂ (fun draw draw' => Mirrors R T draw draw' (· = ·)) draws draws')
    (hstep : InStep params ntt members Committed challenges self verifier)
    (hround : verifier.currRound = challenges.length)
    (htotal : challenges.length + draws.length = params.nFoldRounds) :
    Mirrors R T (self.runRounds P draws) (verifier.runRounds V draws')
      (RanRounds params ntt members Committed shape shape' challenges verifier.roundCommitments.length) := by
  induction hdraws generalizing challenges self verifier with
  | nil =>
    rw [length_nil,add_zero] at htotal
    refine (execute_mirror hchannel hshape hlaid hb hdomain hpos hstep hround (le_of_eq htotal)).bind
      fun r r' hr => .pure ?_
    obtain ⟨hfinished,hdone⟩ := hr.step.finished hlaid htotal hr.round
    have hsame : challenges ++ [] = challenges := append_nil _
    refine ⟨?_,?_,?_,?_⟩
    · rw [hsame]
      exact htotal
    · rw [hsame]
      exact hfinished
    · rw [hr.sent,hdone]
      rfl
    · rw [hr.got,hdone]
      rfl
  | @cons draw draw' draws draws' hdraw _ ih =>
    rw [length_cons] at htotal
    refine (execute_mirror hchannel hshape hlaid hb hdomain hpos hstep hround (by omega)).bind
      fun r r' hr => hdraw.bind fun challenge challenge' hchallenge => ?_
    subst hchallenge
    have hlength : (challenges ++ [challenge]).length = challenges.length + 1 := by
      rw [length_append,length_singleton]
    have hnext := ih (hr.step.receive challenge) (hr.round.trans hlength.symm) (by omega)
    refine hnext.bind fun last last' hlast => .pure ?_
    have hall : challenges ++ challenge :: last'.2.1 = challenges ++ [challenge] ++ last'.2.1 := by
      rw [append_assoc,singleton_append]
    have hsent := hlast.sent
    have hgot := hlast.got
    rw [hlength] at hsent hgot
    refine ⟨?_,?_,?_,?_⟩
    · rw [hall]
      exact hlast.length
    · rw [hall]
      exact hlast.finished
    · rw [hr.sent,hsent]
      rfl
    · rw [hr.got,hgot]
      rfl

end Steps

end Binius64.Fri
