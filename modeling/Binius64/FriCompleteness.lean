import Binius64.FriOpenings

/-!
# Completeness of the proximity test

A run of the whole test: the messages are encoded and committed to, the rounds fold the batch, and
the codewords are opened at sampled positions.
-/

namespace Binius64.Fri

open Finset Ntt MerkleChannel ReplayedRuns EqualityTensor InplaceEvaluation SubspacePolynomials List

variable {F σ τ K K' : Type}

section Definitions

variable [Field F] [Algebra (ZMod 2) F] [BinaryField F] [DecidableEq F] (params : FriParams)

def encodeAll (ntt : AdditiveNtt F) (messages : List (Buffer F)) : Except AssertFailure (List (Buffer F)) :=
  messages.zipIdx.mapM fun entry => encodeInterleaved params entry.2 ntt entry.1

def commitOne (ch : MerkleIPProverChannel F σ K) (entry : Buffer F × CodewordSpec) :
    Writing σ (Buffer F × K) := do
  let commitment ← ch.sendMerkleCommitment entry.1 (1 <<< entry.2.logBatchSize)
  return (entry.1,commitment)

def receiveOne (ch : MerkleIPVerifierChannel F τ K) (spec : CodewordSpec) : Reading τ Stop K :=
  ch.recvMerkleCommitment (1 <<< spec.logBatchSize) (params.indexBits - spec.logLift)

/-- Encode messages, commit to their codewords, run the rounds and open the codewords. -/
def prove (ch : MerkleIPProverChannel F σ K) (ntt : AdditiveNtt F) (messages : List (Buffer F))
    (draws : List (Writing σ F)) : Writing σ (List (Option K)) := do
  let codewords ← FriFoldProver.checked (encodeAll params ntt messages).toOption
  let committed ← (codewords.zip params.inputOracles).mapM (commitOne ch)
  let prover ← FriFoldProver.checked (FriFoldProver.newBatch params ntt committed)
  let (commitments,prover) ← prover.runRounds ch draws
  prover.finishProof ch
  return commitments

/-- Receive commitments, run the rounds and check the openings. -/
def verify (ch : MerkleIPVerifierChannel F τ K) (draws : List (Reading τ Stop F)) :
    Reading τ Stop (List (Option K) × List F × F) := do
  let codewordCommitments ← params.inputOracles.mapM (receiveOne params ch)
  let (commitments,challenges,verifier) ← (FriFoldVerifier.new params : FriFoldVerifier K).runRounds ch draws
  let roundCommitments ← verifier.finalize
  let verifier ← asserting (FriQueryVerifier.newBatch params codewordCommitments roundCommitments challenges)
  let value ← verifier.verify ch
  return (commitments,challenges,value)

end Definitions

section Queries

variable [Field F] [Algebra (ZMod 2) F] [BinaryField F] [DecidableEq F] {R : Replay σ τ} {T : Prop}
  {P : MerkleIPProverChannel F σ K} {V : MerkleIPVerifierChannel F τ K'}
  {Committed : K → K' → Buffer F → ℕ → Prop} {params : FriParams} {ntt : AdditiveNtt F}
  {members : List (Member F K K')} {challenges : List F}

theorem newBatch_run (hlaid : params.Laid) (hb : Batch params ntt members) (hntt : Admits ntt params.rsCode)
    (hlen : challenges.length = params.nFoldRounds) {cs' : List K'} (c' : K')
    (hcount : cs'.length = params.foldArities.length) :
    ∃ context : AdditiveNtt F, Admits context params.rsCode ∧
      FriQueryVerifier.newBatch params (members.map Member.commitment') (cs' ++ [c']) challenges =
        .ok ⟨params,c',challenges.drop (params.logBatchSize + params.foldArities.sum),
          ⟨members.map fun m => m.oracle (challenges.take params.maxEarly)
            ((challenges.take params.logBatchSize).drop (params.maxEarly + params.logNOracles)),
            (challenges.drop params.maxEarly).take params.logNOracles⟩,
          FriQueryVerifier.roundOracles context challenges (cs'.zip params.foldArities) params.rsCode.logLen
            params.logBatchSize⟩ := by
  obtain ⟨context,hgenerate,hcontext⟩ := generate_admits hntt
  have htotal := hlaid.nFoldRounds_eq
  obtain ⟨-,he,-,hl⟩ := batch_windows hlaid (by omega : params.logBatchSize ≤ challenges.length)
  have hmembers : (members.map Member.commitment').length = params.inputOracles.length := by
    rw [hb.specs,length_map,length_map]
  have hrounds : (cs' ++ [c']).length = params.nOracles := by
    rw [length_append,length_singleton,hcount,FriParams.nOracles,add_comm]
  have hlifts : ∀ spec ∈ params.inputOracles, spec.logLift ≤ params.rsCode.logDimension := by
    rw [hb.specs]
    intro spec hspec
    obtain ⟨m,hm,rfl⟩ := List.mem_map.mp hspec
    exact (hb.encoded m hm).lift
  have hcodewords : List.zipWith (fun commitment (spec : CodewordSpec) =>
      (⟨(challenges.take params.maxEarly).drop (params.maxEarly - spec.logEarlyBatchSize) ++
        ((challenges.take params.logBatchSize).drop (params.maxEarly + params.logNOracles)).drop
          (params.maxLater - spec.logLaterBatchSize),commitment,spec.logLift⟩ : BrakedownOracle F K'))
      (members.map Member.commitment') params.inputOracles =
        members.map fun m => m.oracle (challenges.take params.maxEarly)
          ((challenges.take params.logBatchSize).drop (params.maxEarly + params.logNOracles)) := by
    rw [hb.specs,zipWith_map,zipWith_self]
    refine map_congr_left fun m _ => ?_
    rw [Member.oracle,CodewordSpec.window,he,hl]
  have hnonempty : (members.map fun m => m.oracle (challenges.take params.maxEarly)
      ((challenges.take params.logBatchSize).drop (params.maxEarly + params.logNOracles))) ≠ [] := by
    rw [Ne,map_eq_nil_iff]
    exact hb.nonempty
  have hlast : index (cs' ++ [c']) ((cs' ++ [c']).length - 1) = .ok c' := by
    rw [index,length_append,length_singleton,Nat.add_sub_cancel,
      getElem?_append_right (le_refl _),Nat.sub_self,getElem?_cons_zero]
  have hzip : (cs' ++ [c']).zip params.foldArities = cs'.zip params.foldArities := by
    have happend : (cs' ++ [c']).zip (params.foldArities ++ []) = _ := zip_append hcount
    rw [append_nil,zip_nil_right,append_nil] at happend
    exact happend
  refine ⟨context,hcontext,?_⟩
  rw [FriQueryVerifier.newBatch]
  simp only [FriParams.maxEarly,FriParams.maxLater] at hcodewords hnonempty he hl
  simp only [require_true hmembers,require_true hrounds,require_true hlen,require_true hlifts,
    CheckedRun.ok_bind,←hlaid.logNOracles,hcodewords,require_true hnonempty,hgenerate,hlast,hzip]
  rfl

omit [Algebra (ZMod 2) F] [BinaryField F] [DecidableEq F] in
theorem positions_mirror (hchannel : Mirrored R T P V Committed) (n bits : ℕ) :
    Mirrors R T ((List.replicate n bits).mapM P.sampleBits) ((List.replicate n bits).mapM V.sampleBits)
      fun indices indices' => indices = indices' ∧ ∀ idx ∈ indices, idx.toNat < 2 ^ bits := by
  have hsteps : List.Forall₂ (fun b b' => Mirrors R T (P.sampleBits b) (V.sampleBits b')
      fun w w' => w = w' ∧ w.toNat < 2 ^ bits) (List.replicate n bits) (List.replicate n bits) :=
    forall₂_same.mpr fun b hb => by
      rw [eq_of_mem_replicate hb]
      exact hchannel.sampleBits bits
  refine (Mirrors.mapM hsteps).mono fun indices indices' h => ?_
  induction h with
  | nil => exact ⟨rfl,nofun⟩
  | cons hfirst _ ih =>
    refine ⟨congrArg₂ List.cons hfirst.1 ih.1,fun idx hidx => ?_⟩
    rcases List.mem_cons.mp hidx with rfl | hidx
    · exact hfirst.2
    · exact ih.2 idx hidx

theorem queries_mirror (hchannel : Mirrored R T P V Committed) (hlaid : params.Laid)
    (hb : Batch params ntt members) (hntt : Admits ntt params.rsCode) (hword : params.rsCode.logLen < 64)
    (hcommitted : ∀ m ∈ members, Committed m.commitment m.commitment' m.codeword m.spec.logBatchSize)
    (hlen : challenges.length = params.nFoldRounds) {last : FriFoldProver F K} {last' : FriFoldVerifier K'}
    (hfinished : Finished params ntt members Committed challenges last last') :
    Mirrors R T (last.finishProof P)
      (do
        let roundCommitments ← last'.finalize
        let verifier ← asserting (FriQueryVerifier.newBatch params (members.map Member.commitment')
          roundCommitments challenges)
        verifier.verify V)
      fun _ value => value = topFold challenges 0
        (combinedMessage params (members.map Member.message)).scalars 0 := by
  have htotal := hlaid.nFoldRounds_eq
  have hsum := hlaid.sum_le
  cases hfinished with
  | @intro w c c' oracles cs' unprocessed hopened hw hc =>
    obtain ⟨context,hcontext,hnew⟩ := newBatch_run hlaid hb hntt hlen c' hopened.lengths.2
    have hfinalize : (⟨commitSchedule params,cs' ++ [c'],params.nFoldRounds + 1,params.nFoldRounds + 1⟩ :
        FriFoldVerifier K').finalize = (pure (cs' ++ [c']) : Reading τ Stop (List K')) := by
      rw [FriFoldVerifier.finalize,FriFoldVerifier.isComplete,if_pos (beq_self_eq_true _)]
    have hlast : (⟨params,ntt,.laterFolds (members.map Member.opened) w c oracles,params.nFoldRounds,none,
        unprocessed⟩ : FriFoldProver F K).finalize = some (w,c,⟨members.map Member.opened,oracles⟩) := by
      simp only [FriFoldProver.finalize,guard,if_true,Option.pure_def,Option.bind_eq_bind,Option.bind_some]
    rw [hfinalize,pure_bind,asserting_ok hnew,pure_bind]
    simp only [FriFoldProver.finishProof,hlast,checked_some,pure_bind,FriQueryVerifier.verify,
      FriQueryProver.proveQueries,bind_assoc]
    refine (positions_mirror hchannel _ _).bind ?_
    rintro indices _ ⟨rfl,hindices⟩
    obtain ⟨hsplit,he,ho,hl⟩ := batch_windows hlaid (by omega : params.logBatchSize ≤ challenges.length)
    refine (batch_mirror hchannel hb hcommitted he ho hl hindices).bind ?_
    rintro _ claims rfl
    have hclaims : (indices.map fun idx : BitVec 64 => combined params ntt (challenges.take params.maxEarly)
        ((challenges.drop params.maxEarly).take params.logNOracles)
        ((challenges.take params.logBatchSize).drop (params.maxEarly + params.logNOracles)) members idx.toNat) =
        indices.map fun idx => level params ntt (members.map Member.message) challenges 0 idx.toNat := by
      refine map_congr_left fun idx _ => ?_
      rw [combined_codeword hb he ho hl,←hsplit,level,Nat.sub_zero,add_zero]
    rw [hclaims]
    have hrounds := reduceRounds_mirror hchannel hntt hcontext hword hopened (by omega) (by omega) hindices
    refine hrounds.bind ?_
    rintro _ ⟨indices',claims⟩ ⟨hvalues,hbelow⟩
    simp only [zero_add] at hvalues hbelow
    simp only [hvalues]
    exact terminal_mirror hchannel hlaid hntt hword hw hc (by omega) rfl rfl rfl hbelow

end Queries

section Whole

variable [Field F] [Algebra (ZMod 2) F] [BinaryField F] [DecidableEq F] {R : Replay σ τ} {T : Prop}
  {P : MerkleIPProverChannel F σ K} {V : MerkleIPVerifierChannel F τ K'}
  {Committed : K → K' → Buffer F → ℕ → Prop} {params : FriParams} {ntt : AdditiveNtt F}

theorem encodeInterleaved_ok {message codeword : Buffer F} {i : ℕ}
    (h : encodeInterleaved params i ntt message = .ok codeword) :
    ∃ spec, params.inputOracles[i]? = some spec ∧ Encoded params ntt spec message codeword := by
  rw [encodeInterleaved,CheckedRun.bind_eq_ok] at h
  obtain ⟨spec,hspec,h⟩ := h
  rw [CheckedRun.bind_eq_ok] at h
  obtain ⟨_,hlift,h⟩ := h
  rw [CheckedRun.bind_eq_ok] at h
  obtain ⟨_,hlen,h⟩ := h
  rw [require_eq_ok] at hlift hlen
  have hget : params.inputOracles[i]? = some spec := by
    rw [index] at hspec
    cases hi : params.inputOracles[i]? with
    | none =>
      rw [hi] at hspec
      cases hspec
    | some found =>
      rw [hi] at hspec
      cases hspec
      rfl
  obtain ⟨hcode,hsize⟩ := encodeBatch_ok h
  obtain ⟨output,hrun,hlength,hvalue⟩ := encodeBatch_run hcode hsize
  have hsame : output = codeword := Except.ok.inj (hrun.symm.trans h)
  rw [hsame] at hlength hvalue
  exact ⟨spec,hget,hlift,hlength,hvalue⟩

theorem encodeAll_ok {messages codewords : List (Buffer F)}
    (h : encodeAll params ntt messages = .ok codewords) (hcount : messages.length = params.inputOracles.length) :
    ∃ entries : List (CodewordSpec × Buffer F × Buffer F), params.inputOracles = entries.map Prod.fst ∧
      messages = entries.map (fun entry => entry.2.1) ∧ codewords = entries.map (fun entry => entry.2.2) ∧
        ∀ entry ∈ entries, Encoded params ntt entry.1 entry.2.1 entry.2.2 := by
  obtain ⟨hlen,hget⟩ := CheckedRun.mapM_getElem h
  rw [length_zipIdx] at hlen
  have hinner : params.inputOracles.length ≤ (messages.zip codewords).length := by
    rw [length_zip]
    omega
  refine ⟨params.inputOracles.zip (messages.zip codewords),(map_fst_zip hinner).symm,?_,?_,?_⟩
  · have hsecond : (params.inputOracles.zip (messages.zip codewords)).map Prod.snd = messages.zip codewords :=
      map_snd_zip (by rw [length_zip]; omega)
    have hfirst : (messages.zip codewords).map Prod.fst = messages := map_fst_zip (by omega)
    rw [←hsecond,List.map_map] at hfirst
    exact hfirst.symm
  · have hsecond : (params.inputOracles.zip (messages.zip codewords)).map Prod.snd = messages.zip codewords :=
      map_snd_zip (by rw [length_zip]; omega)
    have hlast : (messages.zip codewords).map Prod.snd = codewords := map_snd_zip (by omega)
    rw [←hsecond,List.map_map] at hlast
    exact hlast.symm
  · intro entry hentry
    obtain ⟨i,hi,rfl⟩ := mem_iff_getElem.mp hentry
    rw [length_zip,length_zip] at hi
    obtain ⟨codeword,hrun,hcodeword⟩ := hget i (by rw [length_zipIdx]; omega)
    rw [getElem_zipIdx,zero_add] at hrun
    obtain ⟨spec,hspec,hencoded⟩ := encodeInterleaved_ok hrun
    have hspec' : params.inputOracles[i] = spec :=
      Option.some.inj ((List.getElem?_eq_getElem (by omega)).symm.trans hspec)
    have hcodeword' : codewords[i] = codeword :=
      Option.some.inj ((List.getElem?_eq_getElem (by omega)).symm.trans hcodeword)
    simp only [getElem_zip,hspec',hcodeword']
    exact hencoded

omit [Algebra (ZMod 2) F] [BinaryField F] [DecidableEq F] in
theorem commitAll_mirror (hchannel : Mirrored R T P V Committed)
    (entries : List (CodewordSpec × Buffer F × Buffer F))
    (hentries : ∀ entry ∈ entries, Encoded params ntt entry.1 entry.2.1 entry.2.2) :
    Mirrors R T (((entries.map fun entry => entry.2.2).zip (entries.map Prod.fst)).mapM (commitOne P))
      ((entries.map Prod.fst).mapM (receiveOne params V))
      fun committed received => ∃ members : List (Member F K K'),
        entries = (members.map fun m => (m.spec,m.message,m.codeword)) ∧
          committed = (members.map fun m => (m.codeword,m.commitment)) ∧
            received = members.map Member.commitment' ∧
              ∀ m ∈ members, Committed m.commitment m.commitment' m.codeword m.spec.logBatchSize := by
  induction entries with
  | nil => exact .pure ⟨[],rfl,rfl,rfl,nofun⟩
  | cons entry entries ih =>
    have hencoded := hentries entry List.mem_cons_self
    have hlift := hencoded.lift
    have hdim : entry.1.logDim params = params.rsCode.logDimension - entry.1.logLift := rfl
    have hindex : params.indexBits = params.rsCode.logDimension + params.rsCode.logInvRate := rfl
    have hlen := hencoded.length
    have hdepth : params.indexBits - entry.1.logLift = entry.2.2.logLen - entry.1.logBatchSize := by omega
    rw [List.map_cons,List.map_cons,zip_cons_cons,mapM_cons,mapM_cons,commitOne,receiveOne,
      hdepth,bind_assoc]
    refine (hchannel.commitment entry.2.2 entry.1.logBatchSize (by omega)).bind fun c c' hc => ?_
    rw [pure_bind]
    refine (ih fun e he => hentries e (List.mem_cons_of_mem _ he)).bind ?_
    rintro committed received ⟨members,hmembers,hcommitted,hreceived,hall⟩
    refine .pure ⟨⟨entry.1,entry.2.1,entry.2.2,c,c'⟩ :: members,?_,?_,?_,?_⟩
    · rw [hmembers,List.map_cons]
    · rw [hcommitted,List.map_cons]
    · rw [hreceived,List.map_cons]
    · intro m hm
      rcases List.mem_cons.mp hm with rfl | hm
      · exact hc
      · exact hall m hm

omit [Algebra (ZMod 2) F] [BinaryField F] [DecidableEq F] in
theorem newProver_run {members : List (Member F K K')} (hb : Batch params ntt members) :
    FriFoldProver.newBatch params ntt (members.map fun m => (m.codeword,m.commitment)) =
      some ⟨params,ntt,.firstFold ⟨params.rsCode.logLen,members.map Member.folder⟩,0,
        some params.logBatchSize,[]⟩ := by
  have hcount : (members.map fun m => (m.codeword,m.commitment)).length = params.inputOracles.length := by
    rw [hb.specs,length_map,length_map]
  have hlifts : ∀ spec ∈ params.inputOracles, spec.logLift ≤ params.rsCode.logDimension := by
    rw [hb.specs]
    intro spec hspec
    obtain ⟨m,hm,rfl⟩ := List.mem_map.mp hspec
    exact (hb.encoded m hm).lift
  have hzip : (members.map fun m => (m.codeword,m.commitment)).zip params.inputOracles =
      members.map fun m => ((m.codeword,m.commitment),m.spec) := by
    rw [hb.specs,zip_map,List.zip,zipWith_self,List.map_map]
    rfl
  have hlengths : ∀ entry ∈ (members.map fun m => (m.codeword,m.commitment)).zip params.inputOracles,
      entry.1.1.logLen = params.rsCode.logDimension - entry.2.logLift + entry.2.logBatchSize +
        params.rsCode.logInvRate := by
    rw [hzip]
    intro entry hentry
    obtain ⟨m,hm,rfl⟩ := List.mem_map.mp hentry
    exact (hb.encoded m hm).length
  have hfolders : FriFoldProver.folders params (members.map fun m => (m.codeword,m.commitment)) =
      members.map Member.folder := by
    rw [FriFoldProver.folders,hb.specs,zipWith_map,zipWith_self]
    rfl
  have hnonempty : members.map Member.folder ≠ [] := by
    rw [Ne,map_eq_nil_iff]
    exact hb.nonempty
  have hfolded : ∀ folder ∈ members.map Member.folder, folder.logFoldedLen ≤ params.rsCode.logLen := by
    intro folder hfolder
    obtain ⟨m,hm,rfl⟩ := List.mem_map.mp hfolder
    have hlen := (hb.encoded m hm).length
    have hdim : m.spec.logDim params = params.rsCode.logDimension - m.spec.logLift := rfl
    have hlogLen : params.rsCode.logLen = params.rsCode.logDimension + params.rsCode.logInvRate := rfl
    change m.codeword.logLen - m.spec.logBatchSize ≤ params.rsCode.logLen
    omega
  simp only [FriFoldProver.newBatch,guard,if_pos hcount,if_pos hlifts,if_pos hlengths,hfolders,
    BatchBrakedownFolder.new,if_pos hnonempty,if_pos hfolded,Option.pure_def,Option.bind_eq_bind,
    Option.bind_some]

omit [Algebra (ZMod 2) F] [BinaryField F] [DecidableEq F] in
theorem evaluate_combined {messages : List (Buffer F)} {challenges : List F}
    (hlen : challenges.length = params.nFoldRounds) :
    evaluateInplaceScalars ⟨1 <<< params.logMsgLen,(combinedMessage params messages).scalars⟩
      challenges.reverse = .ok (topFold challenges 0 (combinedMessage params messages).scalars 0) := by
  have hsize : (1 <<< params.logMsgLen : ℕ) = 1 <<< challenges.reverse.length := by
    rw [length_reverse,hlen]
    rfl
  rw [evaluateInplaceScalars_run hsize,evaluateLoop_eq_sum,topFold,length_reverse]
  simp only [pow_zero,mul_one,add_zero]

/-- What is returned: both sides have the commitments of the schedule, and the value is that of the combined
message at the challenges. -/
structure Accepted (params : FriParams) (messages : List (Buffer F)) (shape : K → ℕ × ℕ) (shape' : K' → ℕ × ℕ)
    (commitments : List (Option K)) (r : List (Option K') × List F × F) : Prop where
  sent : shapes shape 0 commitments = commitSchedule params
  got : shapes shape' 0 r.1 = commitSchedule params
  length : r.2.1.length = params.nFoldRounds
  value : evaluateInplaceScalars ⟨1 <<< params.logMsgLen,(combinedMessage params messages).scalars⟩
    r.2.1.reverse = .ok r.2.2

theorem proof_mirror {shape : K → ℕ × ℕ} {shape' : K' → ℕ × ℕ} (hchannel : Mirrored R T P V Committed)
    (hshape : ∀ {c c' data k}, Committed c c' data k →
      shape c = (1 <<< k,data.logLen - k) ∧ shape' c' = (1 <<< k,data.logLen - k))
    (hlaid : params.Laid) (hntt : Admits ntt params.rsCode) (hword : params.rsCode.logLen < 64)
    (hpos : ∀ arity ∈ params.foldArities, 0 < arity) {messages codewords : List (Buffer F)}
    (hencode : encodeAll params ntt messages = .ok codewords)
    (hcount : messages.length = params.inputOracles.length)
    {draws : List (Writing σ F)} {draws' : List (Reading τ Stop F)}
    (hdraws : List.Forall₂ (fun draw draw' => Mirrors R T draw draw' (· = ·)) draws draws')
    (htotal : draws.length = params.nFoldRounds) :
    Mirrors R T (prove params P ntt messages draws) (verify params V draws')
      (Accepted params messages shape shape') := by
  have hchar : CharP F 2 := charP_two
  obtain ⟨entries,hspecs,hmessages,hcodewords,hencoded⟩ := encodeAll_ok hencode hcount
  simp only [prove,verify,hencode,Except.toOption,checked_some,pure_bind]
  rw [hcodewords,hspecs]
  refine (commitAll_mirror hchannel entries hencoded).bind ?_
  rintro _ _ ⟨members,hmembers,rfl,rfl,hcommitted⟩
  have hmember : ∀ m ∈ members, m.Encoded params ntt := by
    intro m hm
    refine hencoded (m.spec,m.message,m.codeword) ?_
    rw [hmembers]
    exact List.mem_map_of_mem hm
  rw [hmembers,List.map_map] at hspecs hmessages
  have hmessages' : messages = members.map Member.message := hmessages
  have hspecs' : params.inputOracles = members.map Member.spec := hspecs
  have hb : Batch params ntt members := by
    refine ⟨fun hnil => hlaid.nonempty ?_,hspecs',?_,hmember⟩
    · rw [hspecs',hnil]
      rfl
    · rw [hlaid.logNOracles,hspecs',length_map]
  rw [newProver_run hb,checked_some,pure_bind]
  have hstart : InStep params ntt members Committed ([] : List F) _
      (FriFoldVerifier.new params : FriFoldVerifier K') := .waiting (Nat.zero_le _)
  have hrounds := rounds_mirror hchannel hshape hlaid hb hntt.domain hpos hdraws hstart rfl
    (by rw [length_nil,zero_add]; exact htotal)
  refine hrounds.bind fun r r' hr => ?_
  have hlen := hr.length
  have hfinished := hr.finished
  have hsent := hr.sent
  have hgot := hr.got
  rw [nil_append] at hlen hfinished
  have hqueries := queries_mirror hchannel hlaid hb hntt hword hcommitted hlen hfinished
  have hdone : Mirrors R T (r.2.finishProof P >>= fun _ => pure r.1)
      (((do
        let roundCommitments ← r'.2.2.finalize
        let verifier ← asserting (FriQueryVerifier.newBatch params (members.map Member.commitment')
          roundCommitments r'.2.1)
        verifier.verify V) : Reading τ Stop F) >>= fun value => pure (r'.1,r'.2.1,value))
      (Accepted params messages shape shape') := by
    refine hqueries.bind ?_
    rintro _ value rfl
    refine .pure ⟨hsent.symm,hgot.symm,hlen,?_⟩
    rw [hmessages']
    exact evaluate_combined hlen
  simp only [bind_assoc] at hdone
  exact hdone

end Whole

section Stuck

variable {ch : MerkleIPVerifierChannel F τ K}

theorem processRound_cases {self next : FriFoldVerifier K} {c : Option K} {u u' : τ}
    (h : self.processRound ch u = .ok ((c,next),u')) :
    next.commitSchedule = self.commitSchedule ∧ next.currRound = self.currRound + 1 ∧
      (next.roundCommitments = self.roundCommitments ∨
        ∃ expected, self.nextCommitment = some expected ∧ expected.round = self.currRound ∧
          next.roundCommitments.length = self.roundCommitments.length + 1) := by
  rw [FriFoldVerifier.processRound] at h
  by_cases hopen : self.currRound < self.nRounds
  · rw [if_pos hopen] at h
    cases hexpected : self.nextCommitment with
    | none =>
      rw [hexpected] at h
      cases h
      exact ⟨rfl,rfl,.inl rfl⟩
    | some expected =>
      simp only [hexpected] at h
      by_cases hround : expected.round = self.currRound
      · rw [if_pos hround] at h
        obtain ⟨received,u₁,-,h⟩ := CheckedRun.state_bind_eq_ok.mp h
        cases h
        refine ⟨rfl,rfl,.inr ⟨expected,rfl,hround,?_⟩⟩
        rw [length_append,length_singleton]
      · rw [if_neg hround] at h
        cases h
        exact ⟨rfl,rfl,.inl rfl⟩
  · rw [if_neg hopen] at h
    cases h

structure StuckAt (schedule : List ExpectedCommitment) (n round : ℕ) (verifier : FriFoldVerifier K) : Prop where
  same : verifier.commitSchedule = schedule
  received : verifier.roundCommitments.length ≤ n ∨
    verifier.roundCommitments.length = n + 1 ∧ round < verifier.currRound

theorem StuckAt.step {schedule : List ExpectedCommitment} {n round : ℕ} {first second : ExpectedCommitment}
    (hfirst : schedule[n]? = some first) (hsecond : schedule[n + 1]? = some second)
    (hround : first.round = round) (hround' : second.round = round) {self next : FriFoldVerifier K}
    (hself : StuckAt schedule n round self) {c : Option K} {u u' : τ}
    (h : self.processRound ch u = .ok ((c,next),u')) : StuckAt schedule n round next := by
  obtain ⟨hschedule,hnext,hcases⟩ := processRound_cases h
  refine ⟨hschedule.trans hself.same,?_⟩
  rcases hcases with hsame | ⟨expected,hexpected,hdue,hlen⟩
  · rw [hsame,hnext]
    rcases hself.received with hle | ⟨heq,hlt⟩
    · exact .inl hle
    · exact .inr ⟨heq,by omega⟩
  · rw [FriFoldVerifier.nextCommitment,hself.same] at hexpected
    rcases hself.received with hle | ⟨heq,hlt⟩
    · by_cases hlast : self.roundCommitments.length = n
      · rw [hlast,hfirst] at hexpected
        cases hexpected
        exact .inr ⟨by omega,by omega⟩
      · exact .inl (by omega)
    · rw [heq,hsecond] at hexpected
      cases hexpected
      omega

theorem StuckAt.run {schedule : List ExpectedCommitment} {n round : ℕ} {first second : ExpectedCommitment}
    (hfirst : schedule[n]? = some first) (hsecond : schedule[n + 1]? = some second)
    (hround : first.round = round) (hround' : second.round = round) {draws : List (Reading τ Stop F)}
    {self last : FriFoldVerifier K} (hself : StuckAt schedule n round self) {log : List (Option K)}
    {challenges : List F} {u u' : τ} (h : self.runRounds ch draws u = .ok ((log,challenges,last),u')) :
    StuckAt schedule n round last := by
  induction draws generalizing self log challenges u with
  | nil =>
    obtain ⟨⟨c,next⟩,u₁,hstep,h⟩ := CheckedRun.state_bind_eq_ok.mp h
    cases h
    exact hself.step hfirst hsecond hround hround' hstep
  | cons draw draws ih =>
    obtain ⟨⟨c,next⟩,u₁,hstep,h⟩ := CheckedRun.state_bind_eq_ok.mp h
    obtain ⟨challenge,u₂,-,h⟩ := CheckedRun.state_bind_eq_ok.mp h
    obtain ⟨⟨log',challenges',last'⟩,u₃,hrest,h⟩ := CheckedRun.state_bind_eq_ok.mp h
    cases h
    exact ih (hself.step hfirst hsecond hround hround' hstep) hrest

variable [Field F] [Algebra (ZMod 2) F] [BinaryField F] [DecidableEq F]

theorem verify_stuck {params : FriParams} (hlaid : params.Laid) (hzero : ¬∀ arity ∈ params.foldArities, 0 < arity)
    (draws : List (Reading τ Stop F)) (u : τ) (r : (List (Option K) × List F × F) × τ) :
    verify params ch draws u ≠ .ok r := by
  intro h
  have hmem : 0 ∈ params.foldArities := by
    by_contra hnone
    exact hzero fun arity harity => Nat.pos_of_ne_zero fun h0 => hnone (h0 ▸ harity)
  obtain ⟨done,rest,harities⟩ := append_of_mem hmem
  have hsplit : params.foldArities = (done ++ [0]) ++ rest := by
    rw [harities,List.append_assoc,singleton_append]
  have hfirst := commitSchedule_at hlaid harities
  have hsecond := commitSchedule_at hlaid hsplit
  rw [length_append,length_singleton,sum_append,List.sum_singleton,add_zero] at hsecond
  obtain ⟨commitments,u₁,-,h⟩ := CheckedRun.state_bind_eq_ok.mp h
  obtain ⟨⟨log,challenges,last⟩,u₂,hrounds,h⟩ := CheckedRun.state_bind_eq_ok.mp h
  obtain ⟨roundCommitments,u₃,hfinal,h⟩ := CheckedRun.state_bind_eq_ok.mp h
  obtain ⟨verifier,u₄,hnew,-⟩ := CheckedRun.state_bind_eq_ok.mp h
  have hstart : StuckAt (commitSchedule params) done.length (params.logBatchSize + done.sum)
      (FriFoldVerifier.new params : FriFoldVerifier K) := ⟨rfl,.inl (Nat.zero_le _)⟩
  have hlast := hstart.run hfirst hsecond rfl rfl hrounds
  have hreceived : roundCommitments = last.roundCommitments := by
    simp only [FriFoldVerifier.finalize] at hfinal
    split at hfinal
    · cases hfinal
      rfl
    · cases hfinal
  have hcount : roundCommitments.length = params.nOracles := by
    cases hrun : FriQueryVerifier.newBatch (F := F) params commitments roundCommitments challenges with
    | error failure =>
      rw [hrun] at hnew
      cases hnew
    | ok verifier' =>
      rw [FriQueryVerifier.newBatch,CheckedRun.bind_eq_ok] at hrun
      obtain ⟨_,-,hrun⟩ := hrun
      rw [CheckedRun.bind_eq_ok] at hrun
      obtain ⟨_,hlen,-⟩ := hrun
      exact require_eq_ok.mp hlen
  have hall : params.nOracles = 1 + (done.length + (rest.length + 1)) := by
    rw [FriParams.nOracles,harities,length_append,length_cons]
  rw [hreceived] at hcount
  rcases hlast.received with hle | ⟨heq,-⟩
  · omega
  · omega

end Stuck

section Transcripts

open FiatShamir ByteCodec MerkleTree MerkleProver

variable {n : ℕ} {W : Type}

/-- The calls on the transcript between two rounds, and the challenge that is made of their answers. -/
structure Interlude (W F : Type) where
  calls : List (Call W)
  challenge : List (Answer W) → F

variable (C : Challenger σ)

def Interlude.draw (G : Growth) (interlude : Interlude W F) : Writing (ProverTranscript σ) F := do
  let answers ← fun t : ProverTranscript σ => t.run C G interlude.calls
  return interlude.challenge answers

def Interlude.redraw (interlude : Interlude W F) : Reading (VerifierTranscript σ) Stop F := do
  let answers ← fun v : VerifierTranscript σ =>
    match VerifierTranscript.run C interlude.calls v with
    | (.ok answers,v) => .ok (answers,v)
    | (.error _,_) => .error Stop.panic
  return interlude.challenge answers

def proverShape (commitment : ProverMerkleCommitment n) : ℕ × ℕ :=
  (1 <<< commitment.logLeafSize,commitment.depth)

def verifierShape (commitment : Commitment n) : ℕ × ℕ := (commitment.leafSize,commitment.depth)

theorem shapes_agree {H : HashSuite n} {codec : ScalarCodec F} {c : ProverMerkleCommitment n}
    {c' : Commitment n} {data : Buffer F} {k : ℕ} (hc : CommittedTo H codec c c' data k) :
    proverShape c = (1 <<< k,data.logLen - k) ∧ verifierShape c' = (1 <<< k,data.logLen - k) := by
  rw [proverShape,verifierShape,hc.logLeafSize,hc.depth,hc.leafSize,hc.depth',Nat.shiftLeft_eq,one_mul]
  exact ⟨rfl,rfl⟩

variable [Field F] [Algebra (ZMod 2) F] [BinaryField F] [DecidableEq F]

/-- An honest test over transcripts: the prover returns, and the verifier accepts what it wrote, reads it
out and returns the value of the combined message. -/
def Completes (G : Growth) (H : HashSuite n) (codec : ScalarCodec F) (scalar : Codec F)
    (params : FriParams) (ntt : AdditiveNtt F) (messages : List (Buffer F)) (interludes : List (Interlude W F))
    (start : σ) (options : Options) : Prop :=
  ∃ commitments t r v,
    prove params (proverMerkleTranscriptChannel C G H codec) ntt messages
      (interludes.map (Interlude.draw C G)) (ProverTranscript.withOpts start options) = some (commitments,t) ∧
    verify params (verifierMerkleTranscriptChannel C H codec scalar)
      (interludes.map (Interlude.redraw C)) (t.intoVerifier start) = .ok (r,v) ∧
    v.finalize = .ok () ∧ Accepted params messages proverShape verifierShape commitments r

/-- The test is complete exactly when every fold takes a challenge. -/
theorem fri_complete_iff (C : Challenger σ) (G : Growth) (H : HashSuite n) (codec : ScalarCodec F)
    (scalar : Codec F) {rsCode : ReedSolomonCode} {oracles : List CodewordSpec} {foldArities : List ℕ}
    {nTestQueries : ℕ} {params : FriParams}
    (hparams : FriParams.newBatch rsCode oracles foldArities nTestQueries = some params)
    {ntt : AdditiveNtt F} (hntt : Admits ntt rsCode) (hword : rsCode.logLen < 64)
    {messages codewords : List (Buffer F)} (hencode : encodeAll params ntt messages = .ok codewords)
    (hcount : messages.length = oracles.length) (interludes : List (Interlude W F))
    (htotal : interludes.length = params.nFoldRounds)
    (hinterludes : ∀ interlude ∈ interludes, ∀ t : ProverTranscript σ, ∃ r, t.run C G interlude.calls = some r)
    (start : σ) (options : Options) :
    Completes C G H codec scalar params ntt messages interludes start options ↔
      ∀ arity ∈ foldArities, 0 < arity := by
  obtain ⟨hlaid,hcode,horacles,harities⟩ := FriParams.newBatch_laid hparams
  rw [←hcode] at hntt hword
  rw [←horacles] at hcount
  rw [←harities]
  constructor
  · rintro ⟨commitments,t,r,v,-,hverify,-,-⟩
    by_contra hzero
    exact verify_stuck hlaid hzero _ _ _ hverify
  · intro hpos
    have hdraws : List.Forall₂ (fun draw draw' => Mirrors transcriptReplay True draw draw' (· = ·))
        (interludes.map (Interlude.draw C G)) (interludes.map (Interlude.redraw C)) := by
      rw [forall₂_map_left_iff,forall₂_map_right_iff]
      refine forall₂_same.mpr fun interlude hinterlude => ?_
      refine (calls_mirror C G fun _ => hinterludes interlude hinterlude).bind fun answers answers' h => ?_
      exact .pure (congrArg interlude.challenge h)
    have hrun := proof_mirror (transcripts_mirrored C G H codec True scalar) shapes_agree hlaid hntt hword hpos hencode hcount hdraws (by rw [length_map]; exact htotal)
    obtain ⟨⟨commitments,t⟩,hprove⟩ := (hrun (ProverTranscript.withOpts start options)).1 trivial
    obtain ⟨hleads,-⟩ := (hrun _).2 _ _ hprove
    obtain ⟨r,v,hverify,haccepted,hat⟩ := hrun.run hprove (u := t.intoVerifier start) ⟨hleads.1,rfl,rfl⟩
    refine ⟨commitments,t,r,v,hprove,hverify,?_,haccepted⟩
    have hempty : v.combined.buffer = [] := by
      have htape := hat.2.2
      exact (append_right_eq_self.mp htape.symm)
    rw [VerifierTranscript.finalize,hempty]
    exact if_neg (not_not.mpr rfl)

/-- An element of the field of four elements in a byte. -/
def quaternaryByte : Quaternary → UInt8
  | .zero => 0
  | .one => 1
  | .root => 2
  | .conj => 3

def ofQuaternaryByte (byte : UInt8) : Quaternary :=
  if byte = 0 then .zero else if byte = 1 then .one else if byte = 2 then .root else .conj

theorem ofQuaternaryByte_byte (x : Quaternary) : ofQuaternaryByte (quaternaryByte x) = x := by
  cases x <;> rfl

/-- The byte form for leaves. -/
def quaternaryLeaf : ScalarCodec Quaternary where
  byteSize := 1
  serialize x := .ok [quaternaryByte x]
  deserialize input :=
    match input with
    | [] => .error .transcript
    | byte :: rest => .ok (ofQuaternaryByte byte,rest)
  sized x bytes h := by
    cases h
    rfl
  roundTrip x bytes h rest := by
    cases h
    change Except.ok (ofQuaternaryByte (quaternaryByte x),rest) = _
    rw [ofQuaternaryByte_byte]
  total x := ⟨_,rfl⟩

def quaternaryMessage : Codec Quaternary where
  serialize x := .ok [[quaternaryByte x]]
  deserialize := .take 1 fun bytes => .done (ofQuaternaryByte (bytes.headD 0))
  roundTrip x slices h rest := by
    cases h
    have hvalue := ofQuaternaryByte_byte x
    simp [Reader.run,bytesBuf,hvalue]

/-- The parameters of a test of one codeword of two symbols, folded once. -/
def oneFold (arity : ℕ) : FriParams := ⟨⟨1,1⟩,[⟨0,0,0⟩],1,0,[arity],1 - arity,1⟩

theorem oneFold_accepted {arity : ℕ} (h : arity ≤ 1) :
    FriParams.newBatch ⟨1,1⟩ [⟨0,0,0⟩] [arity] 1 = some (oneFold arity) := by
  have hclog : Nat.clog 2 1 = 0 := Nat.clog_one_right 2
  have hsum : [arity].sum ≤ 1 := by
    rw [List.sum_singleton]
    exact h
  simp only [FriParams.newBatch,guard]
  rw [if_pos (by decide),if_pos hsum]
  simp only [Option.pure_def,Option.bind_eq_bind,Option.bind_some,length_singleton,hclog,
    List.sum_singleton]
  rfl

/-- A test in which nothing is said between the rounds. -/
def silent : List (Interlude Unit Quaternary) := [⟨[],fun _ => Quaternary.conj⟩]

theorem quaternary_admits : Admits quaternaryNtt ⟨1,1⟩ :=
  ⟨by decide,by decide,by decide,by decide,rfl⟩

theorem twoSymbols_encoded (arity : ℕ) :
    ∃ codewords, encodeAll (oneFold arity) quaternaryNtt [twoSymbols] = .ok codewords := ⟨_,rfl⟩

/-- A test that folds the codeword once is complete. -/
theorem fri_complete_iff_once :
    Completes (HasherChallenger.challenger countDigest) exactGrowth sumSuite quaternaryLeaf quaternaryMessage
      (oneFold 1) quaternaryNtt [twoSymbols] silent countStart ⟨false⟩ := by
  obtain ⟨codewords,hencode⟩ := twoSymbols_encoded 1
  refine (fri_complete_iff (HasherChallenger.challenger countDigest) exactGrowth sumSuite quaternaryLeaf
    quaternaryMessage (oneFold_accepted (by decide)) quaternary_admits (by decide) hencode rfl silent rfl ?_ countStart
      ⟨false⟩).mpr (by decide)
  intro interlude hinterlude t
  cases List.mem_singleton.mp hinterlude
  exact ⟨_,rfl⟩

/-- A fold of arity zero is accepted by the parameters, the message is encoded, and the test is not
complete. -/
theorem fri_incomplete_zeroArity :
    FriParams.newBatch ⟨1,1⟩ [⟨0,0,0⟩] [0] 1 = some (oneFold 0) ∧ Admits quaternaryNtt ⟨1,1⟩ ∧
      (∃ codewords, encodeAll (oneFold 0) quaternaryNtt [twoSymbols] = .ok codewords) ∧
      ¬Completes (HasherChallenger.challenger countDigest) exactGrowth sumSuite quaternaryLeaf
        quaternaryMessage (oneFold 0) quaternaryNtt [twoSymbols] silent countStart ⟨false⟩ := by
  refine ⟨oneFold_accepted (by decide),quaternary_admits,twoSymbols_encoded 0,?_⟩
  rintro ⟨commitments,t,r,v,-,hverify,-,-⟩
  exact verify_stuck (FriParams.newBatch_laid (oneFold_accepted (by decide))).1 (by decide) _ _ _ hverify

end Transcripts

end Binius64.Fri
