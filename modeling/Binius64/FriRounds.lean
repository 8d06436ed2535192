import Binius64.FriCodewords
import Binius64.MerkleReplay

/-!
# Rounds of an honest proximity test

The first fold of a batch of codewords and every fold after it give codewords of the combined
message with more and more of its variables fixed.
-/

namespace Binius64.Fri

open Finset Ntt EqualityTensor InplaceEvaluation
open FriParams (greatest)

variable {F : Type} [Field F]

theorem topFold_append (p q : List F) (w : ℕ) (m : Memory F) :
    topFold (p ++ q) w m = topFold q w (topFold p (w + q.length) m) := by
  have hall := foldlM_topFold (p ++ q) w m
  have hlen : w + (p ++ q).length = w + q.length + p.length := by
    rw [List.length_append]
    omega
  rw [hlen,List.foldlM_append,foldlM_topFold,CheckedRun.ok_bind,foldlM_topFold] at hall
  have hsame := Except.ok.inj hall
  exact ((Buffer.mk.injEq _ _ _ _).mp hsame).2.symm

theorem lanes_topFold (t : ℕ → ℕ → F) (k ρ : ℕ) (point : List F) (m : Memory F) (i : ℕ) :
    evaluateLoop point (fun j => networkCodeword t k ρ point.length m (i * 2 ^ point.length + j)) 0 =
      networkCodeword t k ρ 0 (topFold point k m) i := by
  obtain ⟨folded,hrun,-,hvalue⟩ := lanes_codeword t k ρ point (m := ⟨k + point.length,m⟩) rfl
  rw [foldlM_topFold] at hrun
  have hsame := Except.ok.inj hrun
  rw [hvalue,←hsame]

theorem foldRounds_topFold [CharP F 2] (ntt : AdditiveNtt F) (k ρ : ℕ) (challenges : List F)
    (m : Memory F) :
    foldRounds ntt (k + challenges.length + ρ) challenges
      (networkCodeword ntt.twiddle (k + challenges.length) ρ 0 m) =
        networkCodeword ntt.twiddle k ρ 0 (topFold challenges k m) := by
  obtain ⟨folded,hrun,-,hvalue⟩ := foldRounds_codeword ntt ρ challenges
    (m := ⟨k + challenges.length,m⟩) (Nat.le_add_left _ _)
  rw [foldlM_topFold] at hrun
  have hsame := Except.ok.inj hrun
  rw [←hsame] at hvalue
  exact hvalue

omit [Field F] in
theorem chunk_eq_map (w : Buffer F) (b i : ℕ) :
    w.chunk b i = (List.range (2 ^ b)).map fun j => w.scalars (i * 2 ^ b + j) := by
  simp only [Buffer.chunk,Nat.shiftLeft_eq,one_mul]

theorem innerProduct_chunk (w : Buffer F) (challenges : List F) (scalar : F) (i : ℕ) :
    innerProduct (w.chunk challenges.length i)
      ((eqIndPartialEvalScalars challenges).map (· * scalar)) =
        scalar * evaluateLoop challenges (fun j => w.scalars (i * 2 ^ challenges.length + j)) 0 := by
  rw [innerProduct,chunk_eq_map,eqIndPartialEvalScalars_eq,evaluateLoop_eq_sum,mul_sum,List.map_map,
    List.zipWith_map,List.zipWith_self]
  change ∑ j ∈ range (2 ^ challenges.length), _ = _
  refine sum_congr rfl fun j _ => ?_
  rw [Function.comp_apply]
  ring

def CodewordSpec.logDim (spec : CodewordSpec) (params : FriParams) : ℕ :=
  params.rsCode.logDimension - spec.logLift

structure Encoded (params : FriParams) (ntt : AdditiveNtt F) (spec : CodewordSpec) (message codeword : Buffer F) :
    Prop where
  lift : spec.logLift ≤ params.rsCode.logDimension
  length : codeword.logLen = spec.logDim params + spec.logBatchSize + params.rsCode.logInvRate
  value : ∀ i < 2 ^ codeword.logLen, codeword.scalars i = networkCodeword ntt.twiddle (spec.logDim params)
    params.rsCode.logInvRate spec.logBatchSize message.scalars i

/-- A codeword of a batch, with its commitment on either side. -/
structure Member (F K K' : Type) where
  spec : CodewordSpec
  message : Buffer F
  codeword : Buffer F
  commitment : K
  commitment' : K'

namespace Member

variable {K K' : Type} (params : FriParams) (ntt : AdditiveNtt F) (early later : List F) (m : Member F K K')

def folder : ProxTestFolder F K :=
  ⟨m.spec.logEarlyBatchSize,m.spec.logLaterBatchSize,m.spec.logLift,m.codeword,m.commitment⟩

def opened : BrakedownOracleProver F K := ⟨m.codeword,m.commitment,m.spec.logLift⟩

/-- What the verifier opens. -/
def oracle : BrakedownOracle F K' := ⟨m.spec.window early later,m.commitment',m.spec.logLift⟩

/-- The codeword of the message with its batch variables fixed. -/
def folded : Memory F :=
  networkCodeword ntt.twiddle (m.spec.logDim params) params.rsCode.logInvRate 0
    (topFold (m.spec.window early later) (m.spec.logDim params) m.message.scalars)

abbrev Encoded : Prop := Fri.Encoded params ntt m.spec m.message m.codeword

end Member

def weighted {α : Type} (entries : List (α × F)) (value : α → F) : F :=
  (entries.map fun entry => entry.2 * value entry.1).sum

theorem weighted_tensor {α : Type} (xs : List α) {point : List F} (h : xs.length ≤ 2 ^ point.length)
    (value : α → F) : weighted (xs.zip (eqIndPartialEvalScalars point)) value =
      ∑ i ∈ range (2 ^ point.length), eqTensor point i * (xs[i]?.elim 0 value) := by
  have hgen : ∀ (xs : List α) (n : ℕ) (g : ℕ → F), xs.length ≤ n →
      weighted (xs.zip ((List.range n).map g)) value = ∑ i ∈ range n, g i * (xs[i]?.elim 0 value) := by
    intro xs
    induction xs with
    | nil =>
      intro n g _
      simp only [weighted,List.zip_nil_left,List.map_nil,List.sum_nil,List.getElem?_nil,Option.elim_none,
        mul_zero,sum_const_zero]
    | cons x xs ih =>
      intro n g hlen
      cases n with
      | zero => exact absurd hlen (Nat.not_succ_le_zero _)
      | succ n =>
        have hrest := ih n (fun i => g (i + 1)) (Nat.le_of_succ_le_succ hlen)
        have hmap : (List.range (n + 1)).map g = g 0 :: (List.range n).map fun i => g (i + 1) := by
          rw [List.range_succ_eq_map,List.map_cons,List.map_map]
          rfl
        rw [weighted] at hrest
        rw [weighted,hmap,List.zip_cons_cons,List.map_cons,List.sum_cons,hrest,sum_range_succ',add_comm]
        rfl
  rw [eqIndPartialEvalScalars_eq]
  exact hgen xs _ _ h

section FirstFold

variable {K K' : Type} {params : FriParams} {ntt : AdditiveNtt F} {early later : List F} {m : Member F K K'}

omit [Field F] in
theorem window_length {spec : CodewordSpec} (he : spec.logEarlyBatchSize ≤ early.length)
    (hl : spec.logLaterBatchSize ≤ later.length) :
    (spec.window early later).length = spec.logBatchSize := by
  rw [CodewordSpec.window,List.length_append,List.length_drop,List.length_drop,CodewordSpec.logBatchSize]
  omega

theorem Member.Encoded.lanes (hm : m.Encoded params ntt) (he : m.spec.logEarlyBatchSize ≤ early.length)
    (hl : m.spec.logLaterBatchSize ≤ later.length) {i : ℕ}
    (hi : i < 2 ^ (m.spec.logDim params + params.rsCode.logInvRate)) :
    evaluateLoop (m.spec.window early later)
      (fun j => m.codeword.scalars (i * 2 ^ m.spec.logBatchSize + j)) 0 =
        m.folded params ntt early later i := by
  have hlen := window_length he hl
  have hlanes := lanes_topFold ntt.twiddle (m.spec.logDim params) params.rsCode.logInvRate
    (m.spec.window early later) m.message.scalars i
  rw [Member.folded,←hlanes,hlen]
  refine evaluateLoop_congr _ fun j hj => hm.value _ ?_
  have hsize : m.codeword.logLen - m.spec.logBatchSize = m.spec.logDim params + params.rsCode.logInvRate := by
    rw [hm.length]
    omega
  rw [hlen] at hj
  exact coset_lt (by rw [hm.length]; omega) (by rw [hsize]; exact hi) hj

theorem Member.Encoded.lifted (hm : m.Encoded params ntt) (j : ℕ) :
    m.folded params ntt early later (j / 2 ^ m.spec.logLift) =
      networkCodeword ntt.twiddle params.rsCode.logDimension params.rsCode.logInvRate 0
        (place (m.spec.logDim params) (topFold (m.spec.window early later) (m.spec.logDim params) m.message.scalars))
        j := by
  have hdim : params.rsCode.logDimension = m.spec.logDim params + m.spec.logLift :=
    (Nat.sub_add_cancel hm.lift).symm
  conv_rhs => rw [hdim]
  rw [networkCodeword_place]
  rfl

theorem Member.Encoded.lift_lt (hm : m.Encoded params ntt) {j : ℕ} (hj : j < 2 ^ params.rsCode.logLen) :
    j / 2 ^ m.spec.logLift < 2 ^ (m.spec.logDim params + params.rsCode.logInvRate) := by
  have hlift := hm.lift
  have hlen : params.rsCode.logLen = m.spec.logLift + (m.spec.logDim params + params.rsCode.logInvRate) := by
    rw [ReedSolomonCode.logLen,CodewordSpec.logDim]
    omega
  rw [hlen,pow_add] at hj
  exact Nat.div_lt_of_lt_mul hj

variable [DecidableEq F]

theorem foldOne_run (hm : m.Encoded params ntt) {maxEarly maxLater : ℕ} (he : early.length = maxEarly)
    (hl : later.length = maxLater) (hearly : m.spec.logEarlyBatchSize ≤ maxEarly)
    (hlater : m.spec.logLaterBatchSize ≤ maxLater) (scalar : F) (idx : ℕ) (values : Memory F)
    (oracles : List (BrakedownOracleProver F K)) (hfirst : idx = 0 → ∀ j, values j = 0) :
    ∃ next, BatchBrakedownFolder.foldOne params.rsCode.logLen maxEarly maxLater early later
      (values,oracles) ((m.folder,scalar),idx) = some (next,oracles ++ [m.opened]) ∧
      ∀ j < 2 ^ params.rsCode.logLen, next j = values j +
        scalar * m.folded params ntt early later (j / 2 ^ m.spec.logLift) := by
  have hwindow : early.drop (maxEarly - m.spec.logEarlyBatchSize) ++
      later.drop (maxLater - m.spec.logLaterBatchSize) = m.spec.window early later := by
    rw [CodewordSpec.window,he,hl]
  have hlen : (m.spec.window early later).length = m.spec.logBatchSize :=
    window_length (by omega) (by omega)
  have hguard : maxLater - m.spec.logLaterBatchSize ≤ later.length := by omega
  have htensor : (if scalar ≠ 1 then (eqIndPartialEvalScalars (m.spec.window early later)).map (· * scalar)
      else eqIndPartialEvalScalars (m.spec.window early later)) =
        (eqIndPartialEvalScalars (m.spec.window early later)).map (· * scalar) := by
    by_cases hone : scalar = 1
    · rw [if_neg (not_not.mpr hone),hone]
      simp only [mul_one,List.map_id']
    · rw [if_pos hone]
  have hvalue : ∀ i < 2 ^ (m.spec.logDim params + params.rsCode.logInvRate),
      innerProduct (m.codeword.chunk m.spec.logBatchSize i)
        ((eqIndPartialEvalScalars (m.spec.window early later)).map (· * scalar)) =
          scalar * m.folded params ntt early later i := by
    intro i hi
    have hproduct := innerProduct_chunk m.codeword (m.spec.window early later) scalar i
    rw [hlen] at hproduct
    rw [hproduct,hm.lanes (by omega) (by omega) hi]
  have hchunks : m.codeword.logLen - m.spec.logBatchSize = m.spec.logDim params + params.rsCode.logInvRate := by
    rw [hm.length]
    omega
  have hcopies : (1 <<< params.rsCode.logLen) >>> m.spec.logLift =
      1 <<< (m.codeword.logLen - m.spec.logBatchSize) := by
    have hlift := hm.lift
    have hsplit : params.rsCode.logLen = m.spec.logDim params + params.rsCode.logInvRate + m.spec.logLift := by
      rw [ReedSolomonCode.logLen,CodewordSpec.logDim]
      omega
    rw [hchunks,Nat.shiftLeft_eq,Nat.shiftLeft_eq,one_mul,one_mul,Nat.shiftRight_eq_div_pow,hsplit,pow_add _ _ m.spec.logLift,
      Nat.mul_div_cancel _ (Nat.two_pow_pos _)]
  have hsize : m.spec.logEarlyBatchSize + m.spec.logLaterBatchSize = m.spec.logBatchSize := rfl
  simp only [BatchBrakedownFolder.foldOne,Member.folder,guard,hguard,if_true,hwindow,htensor,hsize,hlen,
    hcopies,Option.pure_def,Option.bind_eq_bind,Option.bind_some]
  by_cases hidx : idx = 0
  · rw [if_pos hidx]
    refine ⟨_,rfl,fun j hj => ?_⟩
    rw [Nat.shiftRight_eq_div_pow,hvalue _ (hm.lift_lt hj),hfirst hidx j,zero_add]
  · rw [if_neg hidx]
    refine ⟨_,rfl,fun j hj => ?_⟩
    have hlt := hm.lift_lt hj
    have hbound : j >>> m.spec.logLift < 1 <<< (m.codeword.logLen - m.spec.logBatchSize) := by
      rw [hchunks,Nat.shiftRight_eq_div_pow,Nat.shiftLeft_eq,one_mul]
      exact hlt
    simp only [if_pos hbound]
    rw [Nat.shiftRight_eq_div_pow,hvalue _ hlt]

structure Batch (params : FriParams) (ntt : AdditiveNtt F) (members : List (Member F K K')) : Prop where
  nonempty : members ≠ []
  specs : params.inputOracles = members.map Member.spec
  logNOracles : params.logNOracles = Nat.clog 2 members.length
  encoded : ∀ m ∈ members, m.Encoded params ntt

variable {members : List (Member F K K')}

omit [DecidableEq F] in
theorem Batch.early_le (hb : Batch params ntt members) (hm : m ∈ members) :
    m.spec.logEarlyBatchSize ≤ params.maxEarly := by
  refine FriParams.le_greatest (List.mem_map.mpr ⟨m.spec,?_,rfl⟩)
  rw [hb.specs]
  exact List.mem_map_of_mem hm

omit [DecidableEq F] in
theorem Batch.later_le (hb : Batch params ntt members) (hm : m ∈ members) :
    m.spec.logLaterBatchSize ≤ params.maxLater := by
  refine FriParams.le_greatest (List.mem_map.mpr ⟨m.spec,?_,rfl⟩)
  rw [hb.specs]
  exact List.mem_map_of_mem hm

variable {outer : List F}

omit [DecidableEq F] in
theorem Batch.map_entries (hb : Batch params ntt members)
    (ho : outer.length = params.logNOracles) {A : Type} (f : Member F K K' → A) :
    (members.zip (eqIndPartialEvalScalars outer)).map (fun entry => f entry.1) = members.map f := by
  have hlen : members.length ≤ (eqIndPartialEvalScalars outer).length := by
    rw [eqIndPartialEvalScalars_length,ho,hb.logNOracles]
    exact Nat.le_pow_clog (by decide) _
  have hmembers := List.map_fst_zip hlen
  conv_rhs => rw [←hmembers,List.map_map]
  rfl

/-- The codeword of the batch, a symbol at a time. -/
def combined (params : FriParams) (ntt : AdditiveNtt F) (early outer later : List F)
    (members : List (Member F K K')) (j : ℕ) : F :=
  weighted (members.zip (eqIndPartialEvalScalars outer)) fun m =>
    m.folded params ntt early later (j / 2 ^ m.spec.logLift)

theorem foldEntries_run (hb : Batch params ntt members) (he : early.length = params.maxEarly)
    (hl : later.length = params.maxLater) (entries : List (Member F K K' × F))
    (hentries : ∀ entry ∈ entries, entry.1 ∈ members) (idx : ℕ) (values : Memory F)
    (oracles : List (BrakedownOracleProver F K)) (hfirst : idx = 0 → ∀ j, values j = 0) :
    ∃ last, ((entries.map fun entry => (entry.1.folder,entry.2)).zipIdx idx).foldlM
      (BatchBrakedownFolder.foldOne params.rsCode.logLen params.maxEarly params.maxLater early later)
        (values,oracles) = some (last,oracles ++ entries.map fun entry => entry.1.opened) ∧
      ∀ j < 2 ^ params.rsCode.logLen, last j = values j +
        weighted entries fun m => m.folded params ntt early later (j / 2 ^ m.spec.logLift) := by
  induction entries generalizing idx values oracles with
  | nil =>
    refine ⟨values,?_,fun j _ => (add_zero _).symm⟩
    rw [List.map_nil,List.map_nil,List.append_nil]
    rfl
  | cons entry entries ih =>
    have hmem := hentries entry List.mem_cons_self
    obtain ⟨next,hnext,hvalue⟩ := foldOne_run (hb.encoded _ hmem) he hl (hb.early_le hmem) (hb.later_le hmem)
      entry.2 idx values oracles hfirst
    obtain ⟨last,hlast,hsum⟩ := ih (fun e he => hentries e (List.mem_cons_of_mem _ he)) (idx + 1) next
      (oracles ++ [entry.1.opened]) fun hzero => absurd hzero (Nat.succ_ne_zero _)
    refine ⟨last,?_,fun j hj => ?_⟩
    · rw [List.map_cons,List.zipIdx_cons,List.foldlM_cons,hnext]
      rw [List.append_assoc,List.singleton_append] at hlast
      exact hlast
    · rw [hsum j hj,hvalue j hj,add_assoc,weighted,weighted,List.map_cons,List.sum_cons]

theorem fold_run (hb : Batch params ntt members) (he : early.length = params.maxEarly)
    (ho : outer.length = params.logNOracles) (hl : later.length = params.maxLater) :
    ∃ values, (⟨params.rsCode.logLen,members.map Member.folder⟩ : BatchBrakedownFolder F K).fold
      (early ++ outer ++ later) = some (⟨params.rsCode.logLen,values⟩,members.map Member.opened) ∧
      ∀ j < 2 ^ params.rsCode.logLen, values j = combined params ntt early outer later members j := by
  have hearly : greatest ((members.map Member.folder).map ProxTestFolder.logEarlyBatchSize) = params.maxEarly := by
    rw [FriParams.maxEarly,hb.specs,List.map_map,List.map_map]
    rfl
  have hlater : greatest ((members.map Member.folder).map ProxTestFolder.logLaterBatchSize) = params.maxLater := by
    rw [FriParams.maxLater,hb.specs,List.map_map,List.map_map]
    rfl
  have hcount : Nat.clog 2 (members.map Member.folder).length = params.logNOracles := by
    rw [List.length_map,hb.logNOracles]
  have htake : (early ++ outer ++ later).take params.maxEarly = early := by
    rw [List.append_assoc,List.take_left' he]
  have hmid : ((early ++ outer ++ later).drop params.maxEarly).take params.logNOracles = outer := by
    rw [List.append_assoc,List.drop_left' he,List.take_left' ho]
  have hdrop : (early ++ outer ++ later).drop (params.maxEarly + params.logNOracles) = later := by
    refine List.drop_left' ?_
    rw [List.length_append,he,ho]
  have hguard : params.maxEarly + params.logNOracles ≤ (early ++ outer ++ later).length := by
    rw [List.length_append,List.length_append]
    omega
  have hzip : (members.map fun m => m.folder).zip (eqIndPartialEvalScalars outer) =
      (members.zip (eqIndPartialEvalScalars outer)).map fun entry => (entry.1.folder,entry.2) := by
    rw [List.zip_map_left]
    rfl
  have hfirst := hb.map_entries ho fun m => m.opened
  obtain ⟨values,hrun,hvalue⟩ := foldEntries_run hb he hl (members.zip (eqIndPartialEvalScalars outer))
    (fun entry hentry => (List.of_mem_zip hentry).1) 0 (fun _ => 0) [] fun _ _ => rfl
  rw [hfirst,List.nil_append] at hrun
  refine ⟨values,?_,fun j hj => ?_⟩
  · simp only [BatchBrakedownFolder.fold,hearly,hlater,hcount,guard,if_pos hguard,htake,hmid,hdrop,hzip,hrun,
      Option.pure_def,Option.bind_eq_bind,Option.bind_some]
  · rw [hvalue j hj,zero_add]
    rfl

omit [DecidableEq F] in
theorem combined_codeword (hb : Batch params ntt members)
    (he : early.length = params.maxEarly) (ho : outer.length = params.logNOracles)
    (hl : later.length = params.maxLater) (j : ℕ) :
    combined params ntt early outer later members j =
      networkCodeword ntt.twiddle params.rsCode.logDimension params.rsCode.logInvRate 0
        (topFold (early ++ outer ++ later) params.rsCode.logDimension
          (combinedMessage params (members.map Member.message)).scalars) j := by
  have hlen : members.length ≤ 2 ^ outer.length := by
    rw [ho,hb.logNOracles]
    exact Nat.le_pow_clog (by decide) _
  have hmember : ∀ i, members[i]?.elim 0 (fun m => m.folded params ntt early later (j / 2 ^ m.spec.logLift)) =
      networkCodeword ntt.twiddle params.rsCode.logDimension params.rsCode.logInvRate 0
        (memberFold params (members.map Member.message) early later i) j := by
    intro i
    rw [memberFold,hb.specs,List.getElem?_map,List.getElem?_map]
    cases hm : members[i]? with
    | none =>
      rw [Option.elim_none,Option.map_none,Option.map_none,networkCodeword_zero]
      rfl
    | some m => exact (hb.encoded m (List.mem_of_getElem? hm)).lifted j
  have hsum := networkCodeword_sum ntt.twiddle params.rsCode.logDimension params.rsCode.logInvRate 0
    (2 ^ outer.length) (eqTensor outer) fun i => memberFold params (members.map Member.message) early later i
  rw [combined,weighted_tensor members hlen]
  simp only [hmember]
  rw [←congrFun hsum j]
  refine congrFun (networkCodeword_congr _ _ _ _ fun f hf => ?_) j
  rw [topFold_combinedMessage params _ he ho hl hf,ho]

end FirstFold

section Levels

variable (params : FriParams) (ntt : AdditiveNtt F) (messages : List (Buffer F))

/-- The codeword after so many folds of the code: the message has the other variables fixed. -/
def level (challenges : List F) (n : ℕ) : Memory F :=
  networkCodeword ntt.twiddle (params.rsCode.logDimension - n) params.rsCode.logInvRate 0
    (topFold (challenges.take (params.logBatchSize + n)) (params.rsCode.logDimension - n)
      (combinedMessage params messages).scalars)

structure LevelAt (challenges : List F) (n : ℕ) (w : Buffer F) : Prop where
  length : w.logLen = params.rsCode.logDimension - n + params.rsCode.logInvRate
  value : ∀ i < 2 ^ w.logLen, w.scalars i = level params ntt messages challenges n i

/-- The codewords of the rounds that are folded, with the verifier's commitments to them. -/
inductive OpenedAt {K K' : Type} (Committed : K → K' → Buffer F → ℕ → Prop) (challenges : List F) :
    ℕ → List ℕ → List (FriOracleProver F K) → List K' → Prop where
  | nil {n : ℕ} : OpenedAt Committed challenges n [] [] []
  | cons {n arity : ℕ} {arities : List ℕ} {oracle : FriOracleProver F K}
      {oracles : List (FriOracleProver F K)} {c' : K'} {cs' : List K'}
      (hw : LevelAt params ntt messages challenges n oracle.codeword) (hsize : oracle.cosetLogSize = arity)
      (hc : Committed oracle.commitment c' oracle.codeword arity)
      (hrest : OpenedAt Committed challenges (n + arity) arities oracles cs') :
      OpenedAt Committed challenges n (arity :: arities) (oracle :: oracles) (c' :: cs')

variable {params ntt messages} {challenges : List F}

variable {n : ℕ}

theorem level_extend (h : params.logBatchSize + n ≤ challenges.length) (more : List F) :
    level params ntt messages (challenges ++ more) n = level params ntt messages challenges n := by
  rw [level,level,List.take_append_of_le_length h]

theorem LevelAt.extend {w : Buffer F} (hw : LevelAt params ntt messages challenges n w)
    (h : params.logBatchSize + n ≤ challenges.length) (more : List F) :
    LevelAt params ntt messages (challenges ++ more) n w :=
  ⟨hw.length,by rw [level_extend h more]; exact hw.value⟩

theorem level_fold [CharP F 2] {arity : ℕ} (hdim : n + arity ≤ params.rsCode.logDimension)
    (hlen : params.logBatchSize + n + arity ≤ challenges.length) :
    foldRounds ntt (params.rsCode.logDimension - n + params.rsCode.logInvRate)
      ((challenges.drop (params.logBatchSize + n)).take arity) (level params ntt messages challenges n) =
        level params ntt messages challenges (n + arity) := by
  obtain ⟨w,hw⟩ : ∃ w, params.rsCode.logDimension - (n + arity) = w := ⟨_,rfl⟩
  have hwindow : ((challenges.drop (params.logBatchSize + n)).take arity).length = arity := by
    rw [List.length_take,List.length_drop]
    omega
  have hbefore : params.rsCode.logDimension - n = w + arity := by omega
  have hrounds := foldRounds_topFold ntt w params.rsCode.logInvRate
    ((challenges.drop (params.logBatchSize + n)).take arity)
    (topFold (challenges.take (params.logBatchSize + n)) (w + arity)
      (combinedMessage params messages).scalars)
  have happend := topFold_append (challenges.take (params.logBatchSize + n))
    ((challenges.drop (params.logBatchSize + n)).take arity) w (combinedMessage params messages).scalars
  rw [hwindow] at hrounds happend
  rw [level,level,hw,hbefore,hrounds,←happend,←List.take_add,add_assoc]

theorem foldCodeword_run [CharP F 2] {arity : ℕ} {w : Buffer F}
    (hw : LevelAt params ntt messages challenges n w)
    (hdomain : params.rsCode.logLen ≤ ntt.logDomainSize) (hdim : n + arity ≤ params.rsCode.logDimension)
    (hlen : challenges.length = params.logBatchSize + n + arity) :
    ∃ folded, foldCodeword ntt w (challenges.drop (params.logBatchSize + n)) = .ok folded ∧
      LevelAt params ntt messages challenges (n + arity) folded := by
  have hwindow : (challenges.drop (params.logBatchSize + n)).take arity =
      challenges.drop (params.logBatchSize + n) := by
    refine List.take_of_length_le ?_
    rw [List.length_drop]
    omega
  have hcount : (challenges.drop (params.logBatchSize + n)).length = arity := by
    rw [List.length_drop]
    omega
  have hfold : _ = level params ntt messages challenges (n + arity) := level_fold hdim (le_of_eq hlen.symm)
  rw [hwindow,←hw.length] at hfold
  have hsize : arity ≤ w.logLen := by
    rw [hw.length]
    omega
  have hwide : w.logLen ≤ ntt.logDomainSize := by
    rw [ReedSolomonCode.logLen] at hdomain
    rw [hw.length]
    omega
  have hvalues : (List.range (1 <<< (w.logLen - arity))).mapM (fun i => foldChunk ntt w.logLen i
      (coset w.scalars arity i) (challenges.drop (params.logBatchSize + n))) =
        .ok ((List.range (1 <<< (w.logLen - arity))).map (level params ntt messages challenges (n + arity))) := by
    refine CheckedRun.mapM_eq_map fun i hi => ?_
    have hi' : i < 2 ^ (w.logLen - arity) := by
      rw [List.mem_range,Nat.shiftLeft_eq,one_mul] at hi
      exact hi
    rw [←hfold]
    have hcells : ∀ j < 2 ^ (challenges.drop (params.logBatchSize + n)).length,
        w.scalars (i * 2 ^ (challenges.drop (params.logBatchSize + n)).length + j) =
          level params ntt messages challenges n
            (i * 2 ^ (challenges.drop (params.logBatchSize + n)).length + j) := by
      rw [hcount]
      exact fun j hj => hw.value _ (coset_lt hsize hi' hj)
    have hrun := foldChunk_run ntt hcells (by rw [hcount]; exact hsize) hwide
    rw [hcount] at hrun
    exact hrun
  refine ⟨⟨w.logLen - arity,fun i => ((List.range (1 <<< (w.logLen - arity))).map
    (level params ntt messages challenges (n + arity))).getD i 0⟩,?_,?_,?_⟩
  · rw [foldCodeword,hcount,require_true hsize]
    simp only [CheckedRun.ok_bind,hvalues]
    rfl
  · change w.logLen - arity = _
    rw [hw.length]
    omega
  · intro i hi
    have hlt : i < 1 <<< (w.logLen - arity) := by
      rw [Nat.shiftLeft_eq,one_mul]
      exact hi
    simp only [List.getD_eq_getElem?_getD,List.getElem?_map,List.getElem?_range hlt,Option.map_some,
      Option.getD_some]

variable {K K' : Type} {Committed : K → K' → Buffer F → ℕ → Prop}

variable {arities : List ℕ} {oracles : List (FriOracleProver F K)} {cs' : List K'}

theorem OpenedAt.extend
    (h : OpenedAt params ntt messages Committed challenges n arities oracles cs')
    (hlen : params.logBatchSize + n + arities.sum ≤ challenges.length) (more : List F) :
    OpenedAt params ntt messages Committed (challenges ++ more) n arities oracles cs' := by
  induction h with
  | nil => exact .nil
  | cons hw hsize hc _ ih =>
    rw [List.sum_cons] at hlen
    exact .cons (hw.extend (by omega) more) hsize hc (ih (by omega))

theorem OpenedAt.concat {arity : ℕ}
    {oracle : FriOracleProver F K} {c' : K'}
    (h : OpenedAt params ntt messages Committed challenges n arities oracles cs')
    (hw : LevelAt params ntt messages challenges (n + arities.sum) oracle.codeword)
    (hsize : oracle.cosetLogSize = arity) (hc : Committed oracle.commitment c' oracle.codeword arity) :
    OpenedAt params ntt messages Committed challenges n (arities ++ [arity]) (oracles ++ [oracle])
      (cs' ++ [c']) := by
  induction h with
  | nil => exact .cons hw hsize hc .nil
  | cons hw' hsize' hc' _ ih =>
    rw [List.sum_cons,←add_assoc] at hw
    exact .cons hw' hsize' hc' (ih hw)

theorem OpenedAt.lengths
    (h : OpenedAt params ntt messages Committed challenges n arities oracles cs') :
    oracles.length = arities.length ∧ cs'.length = arities.length := by
  induction h with
  | nil => exact ⟨rfl,rfl⟩
  | cons _ _ _ _ ih => exact ⟨congrArg (· + 1) ih.1,congrArg (· + 1) ih.2⟩

end Levels

end Binius64.Fri
