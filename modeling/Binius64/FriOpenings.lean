import Binius64.FriQuery
import Binius64.FriSteps

/-!
# Openings of an honest proximity test

What the verifier computes from the openings of an honest prover.
-/

namespace Binius64.Fri

open Finset Ntt MerkleChannel ReplayedRuns EqualityTensor InplaceEvaluation SubspacePolynomials List

section Twiddles

variable {F : Type} [Field F] [Algebra (ZMod 2) F] [BinaryField F] [DecidableEq F]

variable {ntt : AdditiveNtt F} {code : ReedSolomonCode}

omit [Algebra (ZMod 2) F] [DecidableEq F] in
theorem twiddle_unique {ntt' : AdditiveNtt F} (h : Admits ntt code)
    (h' : Admits ntt' code) {layer block : ℕ} (hlow : code.logInvRate ≤ layer) (hhigh : layer < code.logLen)
    (hblock : block < 2 ^ layer) : ntt.twiddle layer block = ntt'.twiddle layer block := by
  rw [ReedSolomonCode.logLen] at hhigh
  have hdim : code.logDimension - (code.logDimension + code.logInvRate - (layer + 1)) + code.logInvRate =
      layer + 1 := by omega
  have hle : code.logDimension + code.logInvRate - (layer + 1) ≤ code.logDimension := by omega
  have hbelow := (h.descend hle (by omega)).basis
  have hbelow' := (h'.descend hle (by omega)).basis
  have hdomain := h.domain
  have hdomain' := h'.domain
  simp only [ReedSolomonCode.logLen,hdim] at hbelow hbelow' hdomain hdomain'
  rw [ntt.twiddle_eq layer (by omega) block hblock,ntt'.twiddle_eq layer (by omega) block hblock,hbelow,
    hbelow']

omit [Algebra (ZMod 2) F] [DecidableEq F] in
theorem foldRounds_unique {ntt' : AdditiveNtt F} (h : Admits ntt code)
    (h' : Admits ntt' code) (challenges : List F) {logLen chunk : ℕ} {y y' : Memory F}
    (hlow : code.logInvRate + challenges.length ≤ logLen) (hhigh : logLen ≤ code.logLen)
    (hchunk : chunk < 2 ^ (logLen - challenges.length))
    (hcells : ∀ j < 2 ^ challenges.length, y (chunk * 2 ^ challenges.length + j) =
      y' (chunk * 2 ^ challenges.length + j)) :
    foldRounds ntt logLen challenges y chunk = foldRounds ntt' logLen challenges y' chunk := by
  induction challenges generalizing logLen y y' with
  | nil =>
    have hfirst := hcells 0 Nat.one_pos
    rw [length_nil,pow_zero,mul_one,add_zero] at hfirst
    exact hfirst
  | cons challenge challenges ih =>
    rw [length_cons] at hlow hchunk hcells
    have hrest : logLen - (challenges.length + 1) = logLen - 1 - challenges.length := by omega
    rw [hrest] at hchunk
    rw [foldRounds,foldRounds]
    refine ih (by omega) (by omega) hchunk fun j hj => ?_
    have hindex := coset_lt (by omega : challenges.length ≤ logLen - 1) hchunk hj
    obtain ⟨heven,hodd⟩ := coset_round (y := y') hcells hj
    have hcell : ∀ e < 2, y (2 * (chunk * 2 ^ challenges.length + j) + e) =
        y' (2 * (chunk * 2 ^ challenges.length + j) + e) := by
      intro e he
      have hpow : 2 * (chunk * 2 ^ challenges.length + j) + e =
          chunk * 2 ^ (challenges.length + 1) + (2 * j + e) := by ring
      have hlt : 2 ^ (challenges.length + 1) = 2 * 2 ^ challenges.length := pow_succ' 2 _
      rw [hpow]
      exact hcells _ (by omega)
    have hzero := hcell 0 (by omega)
    rw [add_zero] at hzero
    rw [foldRound,foldRound,foldPair,foldPair,hzero,hcell 1 (by omega),
      twiddle_unique h h' (by omega) (by omega) hindex]

theorem generate_admits (h : Admits ntt code) :
    ∃ context : AdditiveNtt F, FriQueryVerifier.generate code.logLen = .ok context ∧
      Admits context code := by
  refine ⟨_,dif_pos ⟨h.degree,h.nonempty,h.unit⟩,?_⟩
  exact ⟨le_refl _,h.degree,h.nonempty,h.unit,rfl⟩

end Twiddles

section Chunks

variable {F : Type}

theorem shift_toNat (idx : BitVec 64) (bits : ℕ) : (idx >>> bits).toNat = idx.toNat / 2 ^ bits := by
  rw [BitVec.toNat_ushiftRight,Nat.shiftRight_eq_div_pow]

theorem chunks_flatten {size : ℕ} (hsize : 0 < size) {blocks : List (List F)}
    (h : ∀ block ∈ blocks, block.length = size) : MerkleTree.chunks size blocks.flatten = blocks := by
  induction blocks with
  | nil => rw [MerkleTree.chunks,flatten_nil,length_nil,Nat.zero_div]; rfl
  | cons block blocks ih =>
    have hblock := h block List.mem_cons_self
    have hrest := ih fun b hb => h b (List.mem_cons_of_mem _ hb)
    have hcount : (block ++ blocks.flatten).length / size = blocks.flatten.length / size + 1 := by
      rw [length_append,hblock,Nat.add_div_left _ hsize]
    have hdrop : ∀ i, (block ++ blocks.flatten).drop ((i + 1) * size) = blocks.flatten.drop (i * size) := by
      intro i
      have hsplit : (i + 1) * size = block.length + i * size := by
        rw [hblock]
        ring
      rw [hsplit,drop_append,drop_eq_nil_of_le (by omega),nil_append,Nat.add_sub_cancel_left]
    rw [MerkleTree.chunks] at hrest
    rw [MerkleTree.chunks,flatten_cons,hcount,range_succ_eq_map,List.map_cons,List.map_map,
      zero_mul,drop_zero,take_left' hblock]
    refine congrArg (block :: ·) (Eq.trans ?_ hrest)
    refine map_congr_left fun i _ => ?_
    rw [Function.comp_apply,Nat.succ_eq_add_one,hdrop]

theorem chunks_openings (w : Buffer F) (k : ℕ) (indices : List (BitVec 64)) :
    MerkleTree.chunks (1 <<< k) (indices.map fun idx => w.chunk k idx.toNat).flatten =
      indices.map fun idx => w.chunk k idx.toNat := by
  have hpos : 0 < 1 <<< k := by
    rw [Nat.shiftLeft_eq,one_mul]
    exact Nat.two_pow_pos k
  refine chunks_flatten hpos fun block hblock => ?_
  obtain ⟨idx,-,rfl⟩ := List.mem_map.mp hblock
  rw [Buffer.chunk,length_map,length_range]

theorem chunks_iterScalars (w : Buffer F) {n : ℕ} (hn : n ≤ w.logLen) :
    MerkleTree.chunks (1 <<< n) w.iterScalars = (List.range (2 ^ (w.logLen - n))).map (w.chunk n) := by
  rw [MerkleTree.chunks,iterScalars_length,Nat.shiftLeft_eq,one_mul,Nat.pow_div hn Nat.two_pos]
  refine map_congr_left fun i hi => ?_
  exact (chunk_eq w hn (List.mem_range.mp hi)).symm

end Chunks

section Runs

variable {F σ τ K K' : Type}

theorem asserting_ok {α : Type} {run : Except AssertFailure α} {a : α} (h : run = .ok a) :
    (asserting run : Reading τ Stop α) = pure a := by
  rw [h]
  rfl

theorem mapM_pure {α β : Type} {f : α → Reading τ Stop β} {g : α → β} {xs : List α}
    (h : ∀ x ∈ xs, f x = pure (g x)) : xs.mapM f = pure (xs.map g) := by
  induction xs with
  | nil => rfl
  | cons x xs ih =>
    rw [mapM_cons,h x List.mem_cons_self,ih fun x' hx => h x' (List.mem_cons_of_mem _ hx),pure_bind,
      pure_bind]
    rfl

theorem mirrors_then {α β γ : Type} {R : Replay σ τ} {T : Prop} {write : Writing σ α}
    {read : Reading τ Stop β} {P : α → β → Prop} {Q : α → γ → Prop} {k : β → Reading τ Stop γ}
    (h : Mirrors R T write read P) (hk : ∀ a b, P a b → ∃ c, k b = pure c ∧ Q a c) :
    Mirrors R T write (read >>= k) Q := by
  have hwrite : write = write >>= pure := (bind_pure write).symm
  rw [hwrite]
  refine h.bind fun a b hab => ?_
  obtain ⟨c,hc,hq⟩ := hk a b hab
  rw [hc]
  exact .pure hq

theorem mirrors_first {α β γ : Type} {R : Replay σ τ} {T : Prop} {write : Writing σ α}
    {read : Reading τ Stop β} {P : α → β → Prop} {Q : γ → β → Prop} {k : α → γ}
    (h : Mirrors R T write read P) (hk : ∀ a b, P a b → Q (k a) b) :
    Mirrors R T (write >>= fun a => pure (k a)) read Q := by
  have hread : read = read >>= pure := (bind_pure read).symm
  rw [hread]
  exact h.bind fun a b hab => .pure (hk a b hab)

theorem selectWord_run {n : ℕ} (f : ℕ → F) (word : BitVec 64) :
    selectWord ((List.range (2 ^ n)).map f) word = .ok (f (word.toNat % 2 ^ n)) := by
  have hlen : ((List.range (2 ^ n)).map f).length = 2 ^ n := by rw [length_map,length_range]
  have hcheck : (List.range (2 ^ n)).map f ≠ [] ∧ ((List.range (2 ^ n)).map f).length.isPowerOfTwo := by
    refine ⟨fun h => ?_,?_⟩
    · rw [h] at hlen
      exact absurd hlen.symm (Nat.two_pow_pos n).ne'
    · rw [hlen]
      exact ⟨n,rfl⟩
  have hlt : word.toNat % 2 ^ n < 2 ^ n := Nat.mod_lt _ (Nat.two_pow_pos n)
  rw [selectWord,require_true hcheck,CheckedRun.ok_bind,hlen,Nat.and_two_pow_sub_one_eq_mod,index,
    getElem?_map,getElem?_range hlt,Option.map_some]

variable [Field F]

theorem valuesOf_chunk (w : Buffer F) (n i : ℕ) : (valuesOf (w.chunk n i)).len = 1 <<< n ∧
    ∀ j < 2 ^ n, (valuesOf (w.chunk n i)).scalars j = w.scalars (i * 2 ^ n + j) := by
  refine ⟨?_,fun j hj => ?_⟩
  · rw [valuesOf,chunk_eq_map,length_map,length_range,Nat.shiftLeft_eq,one_mul]
  · simp only [valuesOf,chunk_eq_map,getD_eq_getElem?_getD,getElem?_map,getElem?_range hj,
      Option.map_some,Option.getD_some]

end Runs

section Batch

variable {F σ τ K K' : Type} [Field F] {R : Replay σ τ} {T : Prop} {P : MerkleIPProverChannel F σ K}
  {V : MerkleIPVerifierChannel F τ K'} {Committed : K → K' → Buffer F → ℕ → Prop}
  {params : FriParams} {ntt : AdditiveNtt F} {members : List (Member F K K')} {early later : List F}

variable {indices : List (BitVec 64)}

theorem member_mirror (hchannel : Mirrored R T P V Committed) (hb : Batch params ntt members)
    (he : early.length = params.maxEarly) (hl : later.length = params.maxLater) {m : Member F K K'}
    (hm : m ∈ members) (hc : Committed m.commitment m.commitment' m.codeword m.spec.logBatchSize)
    (hindices : ∀ idx ∈ indices, idx.toNat < 2 ^ params.rsCode.logLen) :
    Mirrors R T (m.opened.openQueries P indices) ((m.oracle early later).openQueries V indices)
      fun _ values => values = indices.map fun idx =>
        m.folded params ntt early later (idx.toNat / 2 ^ m.spec.logLift) := by
  have hencoded := hb.encoded m hm
  have hearly : m.spec.logEarlyBatchSize ≤ early.length := he ▸ hb.early_le hm
  have hlater : m.spec.logLaterBatchSize ≤ later.length := hl ▸ hb.later_le hm
  have hwindow : (m.oracle early later).challenges.length = m.spec.logBatchSize :=
    window_length hearly hlater
  have hsize : m.codeword.logLen - m.spec.logBatchSize = m.spec.logDim params + params.rsCode.logInvRate := by
    rw [hencoded.length]
    omega
  have hbelow : ∀ idx ∈ indices, idx.toNat / 2 ^ m.spec.logLift <
      2 ^ (m.spec.logDim params + params.rsCode.logInvRate) := fun idx hidx => hencoded.lift_lt (hindices idx hidx)
  have hshifted : ∀ idx ∈ shiftAll indices m.spec.logLift,
      idx.toNat < 2 ^ (m.codeword.logLen - m.spec.logBatchSize) := by
    intro idx hidx
    obtain ⟨idx',hidx',rfl⟩ := List.mem_map.mp hidx
    rw [hsize,shift_toNat]
    exact hbelow idx' hidx'
  refine mirrors_then (hchannel.openings (shiftAll indices m.spec.logLift) hc hshifted) ?_
  rintro _ values rfl
  refine ⟨_,?_,rfl⟩
  rw [hwindow,chunks_openings,shiftAll,List.map_map,mapM_map]
  refine mapM_pure fun idx hidx => asserting_ok ?_
  obtain ⟨hlen,hcells⟩ := valuesOf_chunk m.opened.codeword m.spec.logBatchSize (idx >>> m.spec.logLift).toNat
  rw [Function.comp_apply,evaluateInplaceScalars_run (by rw [hlen,hwindow]),shift_toNat,
    ←hencoded.lanes hearly hlater (hbelow idx hidx)]
  refine congrArg Except.ok (evaluateLoop_congr _ fun j hj => ?_)
  have hj' : j < 2 ^ m.spec.logBatchSize := by
    rw [←hwindow]
    exact hj
  rw [shift_toNat] at hcells
  exact hcells j hj'

theorem openAll_mirror (hchannel : Mirrored R T P V Committed) (hb : Batch params ntt members)
    (hcommitted : ∀ m ∈ members, Committed m.commitment m.commitment' m.codeword m.spec.logBatchSize)
    (he : early.length = params.maxEarly) (hl : later.length = params.maxLater)
    (entries : List (Member F K K' × F)) (hentries : ∀ entry ∈ entries, entry.1 ∈ members)
    (hindices : ∀ idx ∈ indices, idx.toNat < 2 ^ params.rsCode.logLen)
    (acc : BitVec 64 → F) :
    Mirrors R T ((entries.map fun entry => entry.1.opened).mapM fun oracle => oracle.openQueries P indices)
      (BatchBrakedownOracle.openAll V indices
        (entries.map fun entry => (entry.1.oracle early later,entry.2)) (indices.map acc))
      fun _ values => values = indices.map fun idx => acc idx +
        weighted entries fun m => m.folded params ntt early later (idx.toNat / 2 ^ m.spec.logLift) := by
  induction entries generalizing acc with
  | nil =>
    refine .pure (map_congr_left fun idx _ => ?_)
    exact (add_zero _).symm
  | cons entry entries ih =>
    have hm := hentries entry List.mem_cons_self
    rw [List.map_cons,List.map_cons,mapM_cons,BatchBrakedownOracle.openAll]
    refine (member_mirror hchannel hb he hl hm (hcommitted _ hm) hindices).bind ?_
    rintro _ values rfl
    have hadd : List.zipWith (fun acc value => acc + value * entry.2) (indices.map acc)
        (indices.map fun idx => entry.1.folded params ntt early later (idx.toNat / 2 ^ entry.1.spec.logLift)) =
          indices.map fun idx => acc idx +
            entry.1.folded params ntt early later (idx.toNat / 2 ^ entry.1.spec.logLift) * entry.2 := by
      rw [zipWith_map,zipWith_self]
    rw [hadd]
    refine mirrors_first (ih (fun e he => hentries e (List.mem_cons_of_mem _ he)) _) ?_
    rintro _ values rfl
    refine map_congr_left fun idx _ => ?_
    rw [weighted,weighted,List.map_cons,List.sum_cons,mul_comm (entry.1.folded _ _ _ _ _),add_assoc]

theorem batch_mirror (hchannel : Mirrored R T P V Committed) (hb : Batch params ntt members)
    (hcommitted : ∀ m ∈ members, Committed m.commitment m.commitment' m.codeword m.spec.logBatchSize)
    {outer : List F} (he : early.length = params.maxEarly) (ho : outer.length = params.logNOracles)
    (hl : later.length = params.maxLater)
    (hindices : ∀ idx ∈ indices, idx.toNat < 2 ^ params.rsCode.logLen) :
    Mirrors R T ((members.map Member.opened).mapM fun oracle => oracle.openQueries P indices)
      ((⟨members.map fun m => m.oracle early later,outer⟩ : BatchBrakedownOracle F K').openQueries V indices)
      fun _ values => values = indices.map fun idx =>
        combined params ntt early outer later members idx.toNat := by
  have hzip : (members.map fun m => m.oracle early later).zip (eqIndPartialEvalScalars outer) =
      (members.zip (eqIndPartialEvalScalars outer)).map fun entry =>
        (entry.1.oracle early later,entry.2) := by
    rw [zip_map_left]
    rfl
  have hopened := hb.map_entries ho fun m => m.opened
  rw [BatchBrakedownOracle.openQueries,hzip,←hopened]
  refine (openAll_mirror hchannel hb hcommitted he hl _ (fun entry hentry => (of_mem_zip hentry).1)
    hindices fun _ => 0).mono ?_
  rintro _ values rfl
  refine map_congr_left fun idx _ => ?_
  rw [zero_add]
  rfl

end Batch

section Rounds

variable {F σ τ K K' : Type} [Field F] [Algebra (ZMod 2) F] [BinaryField F] [DecidableEq F]
  {R : Replay σ τ} {T : Prop} {P : MerkleIPProverChannel F σ K} {V : MerkleIPVerifierChannel F τ K'}
  {Committed : K → K' → Buffer F → ℕ → Prop} {params : FriParams} {ntt context : AdditiveNtt F}
  {messages : List (Buffer F)} {challenges : List F}

omit [Algebra (ZMod 2) F] [BinaryField F] [DecidableEq F] in
theorem assertZero_self (hchannel : Mirrored R T P V Committed) (a : F) : V.assertZero (a - a) = pure () := by
  rw [sub_self]
  funext u
  exact hchannel.assertZero u

omit [DecidableEq F] in
theorem foldCoset_level (hntt : Admits ntt params.rsCode) (hcontext : Admits context params.rsCode)
    (hword : params.rsCode.logLen < 64) {n arity : ℕ} (hdim : n + arity ≤ params.rsCode.logDimension)
    (hlen : params.logBatchSize + n + arity ≤ challenges.length) {w : Buffer F}
    (hw : LevelAt params ntt messages challenges n w) {chunk : ℕ}
    (hchunk : chunk < 2 ^ (params.rsCode.logLen - n - arity)) :
    foldCoset context (params.rsCode.logLen - n) chunk ((challenges.drop (params.logBatchSize + n)).take arity)
      (valuesOf (w.chunk arity chunk)) = .ok (level params ntt messages challenges (n + arity) chunk) := by
  have hchar : CharP F 2 := charP_two
  have hwindow : ((challenges.drop (params.logBatchSize + n)).take arity).length = arity := by
    rw [length_take,length_drop]
    omega
  have hlogLen : params.rsCode.logLen = params.rsCode.logDimension + params.rsCode.logInvRate := rfl
  have hsize : w.logLen = params.rsCode.logLen - n := by
    rw [hw.length,hlogLen]
    omega
  have hcells : ∀ j < 2 ^ arity, w.scalars (chunk * 2 ^ arity + j) =
      level params ntt messages challenges n (chunk * 2 ^ arity + j) := by
    intro j hj
    refine hw.value _ ?_
    rw [hsize]
    exact coset_lt (by omega) hchunk hj
  have hvalues : ∀ j < 2 ^ ((challenges.drop (params.logBatchSize + n)).take arity).length,
      (valuesOf (w.chunk arity chunk)).scalars j = w.scalars
        (chunk * 2 ^ ((challenges.drop (params.logBatchSize + n)).take arity).length + j) := by
    rw [hwindow]
    exact (valuesOf_chunk w arity chunk).2
  have hdomain := hcontext.domain
  obtain ⟨data,hrun,hdata⟩ := foldCosetRounds_eq context ((challenges.drop (params.logBatchSize + n)).take arity)
    (by rw [hwindow]; omega : _ ≤ params.rsCode.logLen - n) (by omega) (by rw [hwindow]; exact hchunk)
    (by rw [hwindow]; omega) (by omega) hvalues
  have hunique := foldRounds_unique hcontext hntt ((challenges.drop (params.logBatchSize + n)).take arity)
    (by rw [hwindow]; omega : _ ≤ params.rsCode.logLen - n) (by omega) (by rw [hwindow]; exact hchunk)
    (by rw [hwindow]; exact hcells)
  have hfold : _ = level params ntt messages challenges (n + arity) := level_fold hdim hlen
  have hround : params.rsCode.logDimension - n + params.rsCode.logInvRate = params.rsCode.logLen - n := by
    rw [hlogLen]
    omega
  rw [hround] at hfold
  rw [foldCoset,hrun,CheckedRun.ok_bind,hdata,hunique,hfold]
  rfl

variable {indices : List (BitVec 64)}

theorem reduce_mirror (hchannel : Mirrored R T P V Committed) (hntt : Admits ntt params.rsCode)
    (hcontext : Admits context params.rsCode) (hword : params.rsCode.logLen < 64) {n arity : ℕ}
    (hdim : n + arity ≤ params.rsCode.logDimension)
    (hlen : params.logBatchSize + n + arity ≤ challenges.length) {oracle : FriOracleProver F K} {c' : K'}
    (hw : LevelAt params ntt messages challenges n oracle.codeword)
    (hc : Committed oracle.commitment c' oracle.codeword arity)
    (hindices : ∀ idx ∈ indices, idx.toNat < 2 ^ (params.rsCode.logLen - n)) :
    Mirrors R T (oracle.openQueries P (shiftAll indices arity))
      ((⟨(challenges.drop (params.logBatchSize + n)).take arity,c',params.rsCode.logLen - n - arity,context⟩ :
        FriOracle F K').reduceQueries V indices
          (indices.map fun idx => level params ntt messages challenges n idx.toNat))
      fun _ claims => claims = (shiftAll indices arity).map fun idx =>
        level params ntt messages challenges (n + arity) idx.toNat := by
  have hwindow : ((challenges.drop (params.logBatchSize + n)).take arity).length = arity := by
    rw [length_take,length_drop]
    omega
  have hlogLen : params.rsCode.logLen = params.rsCode.logDimension + params.rsCode.logInvRate := rfl
  have hsize : oracle.codeword.logLen = params.rsCode.logLen - n := by
    rw [hw.length,hlogLen]
    omega
  have hbelow : ∀ idx ∈ indices, (idx >>> arity).toNat < 2 ^ (params.rsCode.logLen - n - arity) := by
    intro idx hidx
    have hlt := hindices idx hidx
    have hsplit : params.rsCode.logLen - n = arity + (params.rsCode.logLen - n - arity) := by omega
    rw [hsplit,pow_add] at hlt
    rw [shift_toNat]
    exact Nat.div_lt_of_lt_mul hlt
  have hshifted : ∀ idx ∈ shiftAll indices arity, idx.toNat < 2 ^ (oracle.codeword.logLen - arity) := by
    intro idx hidx
    obtain ⟨idx',hidx',rfl⟩ := List.mem_map.mp hidx
    rw [hsize]
    exact hbelow idx' hidx'
  have hcount : (asserting (require (indices.length =
      (indices.map fun idx => level params ntt messages challenges n idx.toNat).length)) :
        Reading τ Stop Unit) = pure () := by
    refine asserting_ok (require_true ?_)
    rw [length_map]
  rw [FriOracle.reduceQueries,hcount,pure_bind]
  simp only [hwindow]
  refine mirrors_then (hchannel.openings (shiftAll indices arity) hc hshifted) ?_
  rintro _ values rfl
  refine ⟨_,?_,rfl⟩
  have hentries : (((shiftAll indices arity).map fun idx => oracle.codeword.chunk arity idx.toNat).zip
      ((shiftAll indices arity).zip indices)).zip
        (indices.map fun idx => level params ntt messages challenges n idx.toNat) =
      indices.map fun idx : BitVec 64 => ((oracle.codeword.chunk arity (idx >>> arity).toNat,idx >>> arity,idx),
        level params ntt messages challenges n idx.toNat) := by
    rw [shiftAll,List.map_map]
    clear hindices hbelow hshifted hcount
    induction indices with
    | nil => rfl
    | cons idx indices ih =>
      simp only [List.map_cons,zip_cons_cons,ih,Function.comp_apply]
  rw [chunks_openings,hentries,mapM_map,shiftAll,List.map_map]
  refine mapM_pure fun idx hidx => ?_
  have hread : oracle.codeword.scalars ((idx >>> arity).toNat * 2 ^ arity + idx.toNat % 2 ^ arity) =
      level params ntt messages challenges n idx.toNat := by
    have hlt := hindices idx hidx
    rw [shift_toNat,Nat.div_add_mod',hw.value _ (by rw [hsize]; exact hlt)]
  have hdepth : params.rsCode.logLen - n - arity + arity = params.rsCode.logLen - n := by omega
  have hselect := selectWord_run (n := arity)
    (fun j => oracle.codeword.scalars ((idx >>> arity).toNat * 2 ^ arity + j)) idx
  rw [←chunk_eq_map,hread] at hselect
  rw [Function.comp_apply,Function.comp_apply]
  simp only [FriOracle.reduceOne,asserting_ok hselect,pure_bind,assertZero_self hchannel,hwindow,hdepth]
  exact asserting_ok (foldCoset_level hntt hcontext hword hdim hlen hw (hbelow idx hidx))

theorem reduceRounds_mirror (hchannel : Mirrored R T P V Committed) (hntt : Admits ntt params.rsCode)
    (hcontext : Admits context params.rsCode) (hword : params.rsCode.logLen < 64) {n : ℕ}
    {arities : List ℕ} {oracles : List (FriOracleProver F K)} {cs' : List K'}
    (hopened : OpenedAt params ntt messages Committed challenges n arities oracles cs')
    (hdim : n + arities.sum ≤ params.rsCode.logDimension)
    (hlen : params.logBatchSize + n + arities.sum ≤ challenges.length)
    (hindices : ∀ idx ∈ indices, idx.toNat < 2 ^ (params.rsCode.logLen - n)) :
    Mirrors R T (FriQueryProver.proveRounds P oracles indices)
      (FriQueryVerifier.reduceRounds V ((FriQueryVerifier.roundOracles context challenges (cs'.zip arities)
        (params.rsCode.logLen - n) (params.logBatchSize + n)).zip arities) indices
          (indices.map fun idx => level params ntt messages challenges n idx.toNat))
      fun _ r => r.2 = (r.1.map fun idx =>
        level params ntt messages challenges (n + arities.sum) idx.toNat) ∧
          ∀ idx ∈ r.1, idx.toNat < 2 ^ (params.rsCode.logLen - (n + arities.sum)) := by
  induction hopened generalizing indices with
  | nil => exact .pure ⟨rfl,hindices⟩
  | @cons n arity arities oracle oracles c' cs' hw hsize hc _ ih =>
    rw [List.sum_cons] at hdim hlen
    have hshifted : ∀ idx ∈ shiftAll indices arity,
        idx.toNat < 2 ^ (params.rsCode.logLen - (n + arity)) := by
      intro idx hidx
      obtain ⟨idx',hidx',rfl⟩ := List.mem_map.mp hidx
      have hlt := hindices idx' hidx'
      have hlogLen : params.rsCode.logLen = params.rsCode.logDimension + params.rsCode.logInvRate := rfl
      have hsplit : params.rsCode.logLen - n = arity + (params.rsCode.logLen - (n + arity)) := by omega
      rw [hsplit,pow_add] at hlt
      rw [shift_toNat]
      exact Nat.div_lt_of_lt_mul hlt
    have hdepth : params.rsCode.logLen - n - arity = params.rsCode.logLen - (n + arity) := by omega
    have hround : params.logBatchSize + n + arity = params.logBatchSize + (n + arity) := by omega
    rw [zip_cons_cons,FriQueryVerifier.roundOracles,zip_cons_cons,FriQueryVerifier.reduceRounds,
      FriQueryProver.proveRounds,hsize]
    refine (reduce_mirror hchannel hntt hcontext hword (by omega) (by omega) hw hc hindices).bind ?_
    rintro _ claims rfl
    rw [List.sum_cons,←add_assoc,hdepth,hround]
    exact ih (by omega) (by omega) hshifted

omit [BinaryField F] [DecidableEq F] [Algebra (ZMod 2) F] in
theorem level_last (i : ℕ) (hlen : challenges.length = params.logBatchSize + params.rsCode.logDimension) :
    level params ntt messages challenges params.rsCode.logDimension i =
      topFold challenges 0 (combinedMessage params messages).scalars 0 := by
  have hconst : ∀ (t : ℕ → ℕ → F) (m : Memory F), networkCodeword t 0 params.rsCode.logInvRate 0 m i = m 0 := by
    intro t m
    have hend : 0 + params.rsCode.logInvRate ≤ params.rsCode.logInvRate := le_of_eq (zero_add _)
    rw [networkCodeword,ButterflyNetwork.layers_empty t hend]
    rfl
  rw [level,Nat.sub_self,←hlen,take_length,hconst]

theorem terminal_mirror (hchannel : Mirrored R T P V Committed) (hlaid : params.Laid)
    (hntt : Admits ntt params.rsCode) (hword : params.rsCode.logLen < 64) {w : Buffer F} {c : K} {c' : K'}
    (hw : LevelAt params ntt messages challenges params.foldArities.sum w)
    (hc : Committed c c' w params.nFinalChallenges)
    (hlen : challenges.length = params.logBatchSize + params.rsCode.logDimension)
    {self : FriQueryVerifier F K'} (hparams : self.params = params)
    (hcommitment : self.terminalCommitment = c')
    (hfinal : self.finalChallenges = challenges.drop (params.logBatchSize + params.foldArities.sum))
    (hindices : ∀ idx ∈ indices, idx.toNat < 2 ^ (params.rsCode.logLen - params.foldArities.sum)) :
    Mirrors R T (P.sendCommittedVector c w)
      (self.verifyTerminalQueries V (indices.map fun idx =>
        level params ntt messages challenges params.foldArities.sum idx.toNat) indices)
      fun _ value => value = topFold challenges 0 (combinedMessage params messages).scalars 0 := by
  have hsum := hlaid.sum_le
  have hterminal : params.nFinalChallenges = params.rsCode.logDimension - params.foldArities.sum :=
    hlaid.logTerminalDim
  have hlogLen : params.rsCode.logLen = params.rsCode.logDimension + params.rsCode.logInvRate := rfl
  have hsize : w.logLen = params.rsCode.logLen - params.foldArities.sum := by
    rw [hw.length,hlogLen]
    omega
  have hfinalLen : params.nFinalChallenges + params.rsCode.logInvRate =
      params.rsCode.logLen - params.foldArities.sum := by omega
  obtain ⟨context,hgenerate,hcontext⟩ := generate_admits hntt
  rw [FriQueryVerifier.verifyTerminalQueries,hparams,hcommitment,hfinal]
  refine mirrors_then (hchannel.vector hc) ?_
  rintro _ values rfl
  refine ⟨_,?_,rfl⟩
  have hiter : w.iterScalars = (List.range (2 ^ w.logLen)).map w.scalars := by
    rw [Buffer.iterScalars,Nat.shiftLeft_eq,one_mul]
  have hzip : (indices.map fun idx : BitVec 64 => level params ntt messages challenges params.foldArities.sum
      idx.toNat).zip indices = indices.map fun idx : BitVec 64 =>
        (level params ntt messages challenges params.foldArities.sum idx.toNat,idx) := by
    clear hindices
    induction indices with
    | nil => rfl
    | cons idx indices ih => rw [List.map_cons,zip_cons_cons,ih,List.map_cons]
  have hchecks : ((indices.map fun idx : BitVec 64 => level params ntt messages challenges
      params.foldArities.sum idx.toNat).zip indices).mapM
        (FriQueryVerifier.checkEntry V w.iterScalars) = pure (indices.map fun _ => ()) := by
    rw [hzip,mapM_map]
    refine mapM_pure fun idx hidx => ?_
    have hlt := hindices idx hidx
    rw [←hsize] at hlt
    have hselect := selectWord_run (n := w.logLen) w.scalars idx
    rw [←hiter,Nat.mod_eq_of_lt hlt,hw.value _ hlt] at hselect
    rw [Function.comp_apply,FriQueryVerifier.checkEntry]
    simp only [asserting_ok hselect,pure_bind,assertZero_self hchannel]
  have hwindow : (challenges.drop (params.logBatchSize + params.foldArities.sum)).take
      params.nFinalChallenges = challenges.drop (params.logBatchSize + params.foldArities.sum) := by
    refine take_of_length_le ?_
    rw [length_drop]
    omega
  have hchunks := chunks_iterScalars w (by omega : params.nFinalChallenges ≤ w.logLen)
  have hcount : w.logLen - params.nFinalChallenges = params.rsCode.logInvRate := by omega
  rw [hcount] at hchunks
  have hfolds : (MerkleTree.chunks (1 <<< params.nFinalChallenges) w.iterScalars).zipIdx.mapM
      (fun entry : List F × ℕ => (asserting (foldCoset context
        (params.nFinalChallenges + params.rsCode.logInvRate) entry.2
          (challenges.drop (params.logBatchSize + params.foldArities.sum)) (valuesOf entry.1)) :
            Reading τ Stop F)) =
      pure ((List.range (2 ^ params.rsCode.logInvRate)).map fun _ =>
        topFold challenges 0 (combinedMessage params messages).scalars 0) := by
    have hentries : ((List.range (2 ^ params.rsCode.logInvRate)).map
        (w.chunk params.nFinalChallenges)).zipIdx = (List.range (2 ^ params.rsCode.logInvRate)).map fun i =>
          (w.chunk params.nFinalChallenges i,i) := by
      refine ext_getElem (by simp) fun i hi _ => ?_
      simp only [getElem_zipIdx,getElem_map,getElem_range,zero_add]
    rw [hchunks,hentries,mapM_map]
    refine mapM_pure fun i hi => asserting_ok ?_
    have hlt : i < 2 ^ (params.rsCode.logLen - params.foldArities.sum - params.nFinalChallenges) := by
      have hrate : params.rsCode.logLen - params.foldArities.sum - params.nFinalChallenges =
          params.rsCode.logInvRate := by omega
      rw [hrate]
      exact List.mem_range.mp hi
    have hfold := foldCoset_level hntt hcontext hword (by omega : params.foldArities.sum +
      params.nFinalChallenges ≤ params.rsCode.logDimension) (by omega) hw hlt
    have hall : params.foldArities.sum + params.nFinalChallenges = params.rsCode.logDimension := by omega
    rw [hwindow,hall,level_last i hlen] at hfold
    rw [hfinalLen]
    exact hfold
  have hfirst : index ((List.range (2 ^ params.rsCode.logInvRate)).map fun _ =>
      topFold challenges 0 (combinedMessage params messages).scalars 0) 0 =
        .ok (topFold challenges 0 (combinedMessage params messages).scalars 0) := by
    rw [index,getElem?_map,getElem?_range (Nat.two_pow_pos _),Option.map_some]
  have htail : ((List.range (2 ^ params.rsCode.logInvRate)).map fun _ =>
      topFold challenges 0 (combinedMessage params messages).scalars 0).tail.mapM (fun entry =>
        V.assertZero (entry - topFold challenges 0 (combinedMessage params messages).scalars 0)) =
          pure (((List.range (2 ^ params.rsCode.logInvRate)).map fun _ =>
            topFold challenges 0 (combinedMessage params messages).scalars 0).tail.map fun _ => ()) := by
    refine mapM_pure fun entry hentry => ?_
    obtain ⟨-,-,rfl⟩ := List.mem_map.mp (mem_of_mem_tail hentry)
    exact assertZero_self hchannel _
  simp only [hchecks,pure_bind,asserting_ok hgenerate,hfolds,asserting_ok hfirst,htail]

end Rounds

end Binius64.Fri
