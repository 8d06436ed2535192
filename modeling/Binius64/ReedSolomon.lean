import Binius64.NttEvaluation

/-!
# Reed–Solomon codes

Codes over the Gao–Mateer basis of their length.
-/

namespace Binius64.Ntt

open CheckedRun ButterflyNetwork SubspacePolynomials List

structure Buffer (F : Type) where
  logLen : ℕ
  scalars : Memory F

/-- The low bits of a number in the opposite order. -/
def reverseBits (x : ℕ) : ℕ → ℕ
  | 0 => 0
  | bits + 1 => x % 2 * 2 ^ bits + reverseBits (x / 2) bits

/-- Exchange the scalars at two positions. -/
def swap {F : Type} (i j : ℕ) (data : Memory F) : Memory F :=
  Function.update (Function.update data i (data j)) j (data i)

namespace Buffer

variable {F : Type}

/-- Permute a buffer by reversing the bits of every index: each pair is exchanged once. -/
def bitReversePacked (buffer : Buffer F) : Buffer F :=
  ⟨buffer.logLen,(range (1 <<< buffer.logLen)).foldl (fun data i =>
    let iRev := reverseBits i buffer.logLen
    if i < iRev then swap i iRev data else data) buffer.scalars⟩

def repeatExtend (buffer : Buffer F) (logLen : ℕ) : Except AssertFailure (Buffer F) := do
  require (buffer.logLen ≤ logLen)
  return ⟨logLen,fun i => buffer.scalars (i % 2 ^ buffer.logLen)⟩

end Buffer

class BinaryField (F : Type) where
  nBits : ℕ
  traceOneElement : F
  nBits_eq : ∃ k, nBits = 2 ^ k

/-- What an additive transform tells of its domains: the twiddles of a layer are indexed above the
first element of the layer's domain, and the map that vanishes on this element takes a domain to the
one below. -/
structure AdditiveNtt (F : Type) [Field F] extends DomainContext F where
  domain : ℕ → BinarySubspace F
  dim_domain : ∀ i ≤ logDomainSize, (domain i).dim = i
  twiddle_eq : ∀ layer < logDomainSize, ∀ block < 2 ^ layer,
    twiddle layer block = elementAt (domain (layer + 1)).basis.tail block
  domain_eq : ∀ i < logDomainSize, 0 < i →
    normalizeEvals (nextEvals (domain (i + 1)).basis) = .ok (domain i).basis

variable {F : Type} [Field F]

/-- The domain of a dimension, if there is one. -/
def AdditiveNtt.subspace (ntt : AdditiveNtt F) (i : ℕ) : Except AssertFailure (BinarySubspace F) := do
  require (i ≤ ntt.logDomainSize)
  return ntt.domain i

section Codes

variable [BinaryField F] [DecidableEq F]

def gaoMateerBasis (F : Type) [Field F] [BinaryField F] [DecidableEq F] (numBasisElements : ℕ) :
    Except AssertFailure (List F) := do
  require (numBasisElements ≤ BinaryField.nBits F)
  let beta := (range (BinaryField.nBits F - numBasisElements)).foldl
    (fun beta _ => beta ^ 2 + beta) BinaryField.traceOneElement
  require (0 < numBasisElements)
  let basis := (replicate numBasisElements (0 : F)).set (numBasisElements - 1) beta
  let basis := (range' 1 (numBasisElements - 1)).reverse.foldl (fun basis i =>
    basis.set (i - 1) (basis.getD i 0 ^ 2 + basis.getD i 0)) basis
  require (basis.getD 0 0 = 1)
  return basis

structure ReedSolomonCode where
  logDimension : ℕ
  logInvRate : ℕ

namespace ReedSolomonCode

/-- The logarithm of the block length. -/
def logLen (code : ReedSolomonCode) : ℕ := code.logDimension + code.logInvRate

/-- The evaluation domain. -/
def subspace (F : Type) [Field F] [BinaryField F] [DecidableEq F] (code : ReedSolomonCode) :
    Except AssertFailure (BinarySubspace F) := do
  let basis ← gaoMateerBasis F code.logLen
  return ⟨basis.take code.logLen⟩

def encodeBatch (code : ReedSolomonCode) (ntt : AdditiveNtt F) (data : Buffer F)
    (logBatchSize : ℕ) : Except AssertFailure (Buffer F) := do
  let domain ← ntt.subspace code.logLen
  let subspace ← code.subspace F
  require (domain.basis = subspace.basis)
  require (data.logLen = code.logDimension + logBatchSize)
  let logOutputLen := code.logDimension + logBatchSize + code.logInvRate
  let output ← data.bitReversePacked.repeatExtend logOutputLen
  let scalars ← neighborsLastReference ntt.toDomainContext output.logLen code.logInvRate logBatchSize
    output.scalars
  return ⟨output.logLen,scalars⟩

end ReedSolomonCode

end Codes

theorem reverseBits_lt (x n : ℕ) : reverseBits x n < 2 ^ n := by
  induction n generalizing x with
  | zero => exact Nat.one_pos
  | succ n ih =>
    have hbit : x % 2 ≤ 1 := by omega
    have hlow := ih (x / 2)
    have hmul : x % 2 * 2 ^ n ≤ 1 * 2 ^ n := Nat.mul_le_mul_right _ hbit
    rw [reverseBits,pow_succ]
    omega

theorem reverseBits_succ (x n : ℕ) :
    reverseBits x (n + 1) = 2 * reverseBits x n + x / 2 ^ n % 2 := by
  induction n generalizing x with
  | zero => rw [reverseBits,reverseBits,reverseBits,pow_zero,Nat.div_one]; omega
  | succ n ih =>
    have hdiv : x / 2 / 2 ^ n = x / 2 ^ (n + 1) := by rw [Nat.div_div_eq_div_mul,pow_succ']
    rw [reverseBits,ih,reverseBits,hdiv,pow_succ]
    ring

theorem reverseBits_mod (x n : ℕ) : reverseBits (x % 2 ^ n) n = reverseBits x n := by
  induction n generalizing x with
  | zero => rfl
  | succ n ih =>
    have hbit : x % 2 ^ (n + 1) % 2 = x % 2 := Nat.mod_mod_of_dvd x (dvd_pow_self 2 (Nat.succ_ne_zero n))
    have hdiv : x % 2 ^ (n + 1) / 2 = x / 2 % 2 ^ n := by rw [pow_succ',Nat.mod_mul_right_div_self]
    rw [reverseBits,reverseBits,hbit,hdiv,ih]

theorem reverseBits_reverseBits {x n : ℕ} (hx : x < 2 ^ n) : reverseBits (reverseBits x n) n = x := by
  induction n generalizing x with
  | zero =>
    rw [pow_zero] at hx
    rw [reverseBits]
    omega
  | succ n ih =>
    have hhalf : x / 2 < 2 ^ n := by
      rw [pow_succ] at hx
      omega
    have hlow := reverseBits_lt (x / 2) n
    have hinner : reverseBits x (n + 1) % 2 ^ n = reverseBits (x / 2) n := by
      rw [reverseBits,mul_comm,Nat.mul_add_mod,Nat.mod_eq_of_lt hlow]
    have htop : reverseBits x (n + 1) / 2 ^ n % 2 = x % 2 := by
      rw [reverseBits,mul_comm,Nat.mul_add_div (Nat.two_pow_pos n),Nat.div_eq_of_lt hlow,add_zero]
      omega
    rw [reverseBits_succ,htop,←reverseBits_mod,hinner,ih hhalf]
    omega

theorem swaps_apply {F : Type} {σ : ℕ → ℕ} {n : ℕ} (hσ : ∀ i < n, σ i < n) (hinv : ∀ i < n, σ (σ i) = i)
    (data : Memory F) {k : ℕ} (hk : k ≤ n) (i : ℕ) :
    (range k).foldl (fun data i => if i < σ i then swap i (σ i) data else data) data i =
      if i < n ∧ min i (σ i) < k then data (σ i) else data i := by
  induction k generalizing i with
  | zero => simp
  | succ k ih =>
    have hkn : k < n := hk
    have hback := hinv k hkn
    have hlt := hσ k hkn
    have hprev := ih (Nat.le_of_succ_le hk)
    rw [range_succ,foldl_append,foldl_cons,foldl_nil]
    by_cases hpair : k < σ k
    · rw [if_pos hpair,swap]
      by_cases hupper : i = σ k
      · -- the upper place of the pair
        have hdone : i < n ∧ min i (σ i) < k + 1 := by
          rw [hupper,hback]
          omega
        have hopen : ¬(k < n ∧ min k (σ k) < k) := by omega
        rw [if_pos hdone,hupper,Function.update_self,hprev,if_neg hopen,hback]
      · rw [Function.update_of_ne hupper]
        by_cases hlower : i = k
        · -- the lower place of the pair
          have hdone : i < n ∧ min i (σ i) < k + 1 := by omega
          have hopen : ¬(σ k < n ∧ min (σ k) (σ (σ k)) < k) := by
            rw [hback]
            omega
          rw [if_pos hdone,hlower,Function.update_self,hprev,if_neg hopen]
        · rw [Function.update_of_ne hlower,hprev]
          have hother : i < n → min i (σ i) ≠ k := by
            intro hi hmin
            have hσi : σ i = k := by omega
            have hagain := hinv i hi
            rw [hσi] at hagain
            exact hupper hagain.symm
          have hsame : (i < n ∧ min i (σ i) < k) ↔ (i < n ∧ min i (σ i) < k + 1) := by omega
          rw [if_congr hsame rfl rfl]
    · -- a fixed place, or the upper one of a pair that is done
      rw [if_neg hpair,hprev]
      by_cases hfix : i < n ∧ min i (σ i) = k
      · obtain ⟨hi,hmin⟩ := hfix
        have hself : i = k ∨ σ i = k := by omega
        have hagain := hinv i hi
        have hvalue : σ i = i ∨ min i (σ i) < k := by
          rcases hself with hself | hself
          · rw [hself] at hmin ⊢
            omega
          · rw [hself] at hagain
            omega
        rcases hvalue with hvalue | hvalue
        · rw [hvalue]
          split <;> split <;> rfl
        · omega
      · have hsame : (i < n ∧ min i (σ i) < k) ↔ (i < n ∧ min i (σ i) < k + 1) := by omega
        rw [if_congr hsame rfl rfl]

theorem bitReversePacked_apply {F : Type} (buffer : Buffer F) {i : ℕ} (hi : i < 2 ^ buffer.logLen) :
    buffer.bitReversePacked.scalars i = buffer.scalars (reverseBits i buffer.logLen) := by
  have hrev := reverseBits_lt i buffer.logLen
  have hdone : i < 2 ^ buffer.logLen ∧
      min i (reverseBits i buffer.logLen) < 2 ^ buffer.logLen := by omega
  have hall := swaps_apply (σ := fun i => reverseBits i buffer.logLen)
    (fun i _ => reverseBits_lt i buffer.logLen) (fun i hi => reverseBits_reverseBits hi) buffer.scalars
    (le_refl (2 ^ buffer.logLen)) i
  rw [if_pos hdone] at hall
  rw [Buffer.bitReversePacked,Nat.shiftLeft_eq,one_mul]
  exact hall

section Basis

variable [BinaryField F] [DecidableEq F]

def gaoMateerElement (F : Type) [Field F] [BinaryField F] (i : ℕ) : F :=
  (fun beta : F => beta ^ 2 + beta)^[BinaryField.nBits F - 1 - i] BinaryField.traceOneElement

omit [DecidableEq F] in
theorem gaoMateerElement_succ {i : ℕ} (hi : i + 1 < BinaryField.nBits F) :
    gaoMateerElement F i = gaoMateerElement F (i + 1) ^ 2 + gaoMateerElement F (i + 1) := by
  have hstep : BinaryField.nBits F - 1 - i = (BinaryField.nBits F - 1 - (i + 1)) + 1 := by omega
  rw [gaoMateerElement,hstep,Function.iterate_succ_apply']
  rfl

variable {n : ℕ} {ntt : AdditiveNtt F} {code : ReedSolomonCode}

omit [DecidableEq F] in
theorem nextEvals_gaoMateer (hn : n + 1 ≤ BinaryField.nBits F)
    (hunit : gaoMateerElement F 0 = 1) :
    nextEvals ((range (n + 1)).map (gaoMateerElement F)) =
      (range n).map (gaoMateerElement F) := by
  rw [range_succ_eq_map,map_cons,nextEvals,map_map,map_map]
  refine map_congr_left fun i hi => ?_
  rw [mem_range] at hi
  have hstep := gaoMateerElement_succ (F := F) (by omega : i + 1 < BinaryField.nBits F)
  simp only [Function.comp_apply,hunit,hstep]
  ring

omit [DecidableEq F] in
theorem normalizeEvals_gaoMateer (hpos : 0 < n) (hunit : gaoMateerElement F 0 = 1) :
    normalizeEvals ((range n).map (gaoMateerElement F)) =
      .ok ((range n).map (gaoMateerElement F)) := by
  have hfirst : index ((range n).map (gaoMateerElement F)) 0 = .ok 1 := by
    have hget : ((range n).map (gaoMateerElement F))[0]? = some 1 := by
      rw [getElem?_map,getElem?_range hpos,Option.map_some,hunit]
    rw [index,hget]
  rw [normalizeEvals,hfirst,ok_bind,pure_eq_ok,inv_one]
  simp only [mul_one,map_id']

omit [DecidableEq F] in
theorem gaoMateerElement_next (hn : n + 1 ≤ BinaryField.nBits F) (hpos : 0 < n)
    (hunit : gaoMateerElement F 0 = 1) :
    normalizeEvals (nextEvals ((range (n + 1)).map (gaoMateerElement F))) =
      .ok ((range n).map (gaoMateerElement F)) := by
  rw [nextEvals_gaoMateer hn hunit,normalizeEvals_gaoMateer hpos hunit]

omit [DecidableEq F] in
theorem gaoMateer_loop (hn : n ≤ BinaryField.nBits F) {k : ℕ} (hk : k < n) :
    (range' (n - k) k).reverse.foldl (fun (basis : List F) i =>
        basis.set (i - 1) (basis.getD i 0 ^ 2 + basis.getD i 0))
      ((replicate n 0).set (n - 1) (gaoMateerElement F (n - 1))) =
      (range n).map fun i => if n - 1 - k ≤ i then gaoMateerElement F i else 0 := by
  induction k with
  | zero =>
    refine ext_getElem (by simp) fun i hi _ => ?_
    have hin : i < n := by simpa using hi
    simp only [range'_zero,reverse_nil,foldl_nil,getElem_set,
      getElem_replicate,getElem_map,getElem_range]
    by_cases hlast : n - 1 = i
    · rw [if_pos hlast,if_pos (by omega),hlast]
    · rw [if_neg hlast,if_neg (by omega)]
  | succ k ih =>
    have hfirst : n - (k + 1) + 1 = n - k := by omega
    rw [range'_succ,hfirst,reverse_cons,foldl_append,ih (by omega),foldl_cons,
      foldl_nil]
    have hread : ((range n).map fun i =>
        if n - 1 - k ≤ i then gaoMateerElement F i else 0).getD (n - (k + 1)) 0 =
          gaoMateerElement F (n - (k + 1)) := by
      have hin : n - (k + 1) < n := by omega
      rw [getD_eq_getElem _ _ (by simpa using hin),getElem_map,getElem_range,
        if_pos (by omega)]
    rw [hread]
    refine ext_getElem (by simp) fun i hi _ => ?_
    have hin : i < n := by simpa using hi
    simp only [getElem_set,getElem_map,getElem_range]
    by_cases hnew : n - (k + 1) - 1 = i
    · have hbelow : n - (k + 1) = i + 1 := by omega
      rw [if_pos hnew,if_pos (by omega),hbelow]
      exact (gaoMateerElement_succ (by omega)).symm
    · have hsame : n - 1 - k ≤ i ↔ n - 1 - (k + 1) ≤ i := by omega
      rw [if_neg hnew,if_congr hsame rfl rfl]

/-- The transform over the Gao–Mateer basis, which computes its twiddles when they are asked for. -/
def gaoMateerOnTheFly [Algebra (ZMod 2) F] (logDomainSize : ℕ) (hsize : logDomainSize ≤ BinaryField.nBits F)
    (hunit : gaoMateerElement F 0 = 1) : AdditiveNtt F where
  logDomainSize := logDomainSize
  twiddle := fun layer block => elementAt ((range (layer + 1)).map (gaoMateerElement F)).tail block
  iterTwiddles := fun layer logStepBy => (range (1 <<< (layer - logStepBy))).map fun block =>
    elementAt ((range (layer + 1)).map (gaoMateerElement F)).tail (block <<< logStepBy)
  twiddle_xor := by
    intro layer _ a _ b _
    have hchar : CharP F 2 := charP_two
    rw [elementAt_eq,elementAt_eq,elementAt_eq,subsetSum_xor]
  iterTwiddles_eq := fun _ _ _ _ => rfl
  domain := fun i => ⟨(range i).map (gaoMateerElement F)⟩
  dim_domain := by
    intro i _
    rw [BinarySubspace.dim,length_map,length_range]
  twiddle_eq := fun _ _ _ _ => rfl
  domain_eq := fun _ hi hpos => gaoMateerElement_next (hi.trans_le hsize) hpos hunit

theorem gaoMateerBasis_eq (n : ℕ) : gaoMateerBasis F n =
    if n ≤ BinaryField.nBits F ∧ 0 < n ∧ gaoMateerElement F 0 = 1 then
      .ok ((range n).map (gaoMateerElement F)) else .error .failed := by
  by_cases hn : n ≤ BinaryField.nBits F
  · by_cases hpos : 0 < n
    · have hstart : (range (BinaryField.nBits F - n)).foldl (fun (beta : F) _ => beta ^ 2 + beta)
          BinaryField.traceOneElement = gaoMateerElement F (n - 1) := by
        have hlen : BinaryField.nBits F - 1 - (n - 1) = BinaryField.nBits F - n := by omega
        rw [foldl_const,length_range,gaoMateerElement,hlen]
      have hone : n - (n - 1) = 1 := by omega
      have hloop := gaoMateer_loop hn (by omega : n - 1 < n)
      rw [hone] at hloop
      have hall : ((range n).map fun i =>
          if n - 1 - (n - 1) ≤ i then gaoMateerElement F i else 0) =
            (range n).map (gaoMateerElement F) := by
        refine map_congr_left fun i _ => ?_
        rw [Nat.sub_self,if_pos (Nat.zero_le i)]
      have hhead : ((range n).map (gaoMateerElement F)).getD 0 0 = gaoMateerElement F 0 := by
        rw [getD_eq_getElem _ _ (by simpa using hpos),getElem_map,getElem_range]
      rw [hall] at hloop
      rw [gaoMateerBasis,require_true hn]
      simp only [hstart,hloop,hhead]
      rw [require_true hpos]
      by_cases hunit : gaoMateerElement F 0 = 1
      · rw [require_true hunit,if_pos ⟨hn,hpos,hunit⟩]
        rfl
      · rw [require,if_neg hunit,if_neg (fun h => hunit h.2.2)]
        rfl
    · rw [gaoMateerBasis,require_true hn,if_neg (fun h => hpos h.2.1)]
      simp only [require,if_neg hpos]
      rfl
  · rw [gaoMateerBasis,if_neg (fun h => hn h.1),require,if_neg hn]
    rfl

theorem require_eq_ok {p : Prop} [Decidable p] {u : Unit} : require p = .ok u ↔ p := by
  rw [require]
  split
  · exact ⟨fun _ => by assumption,fun _ => rfl⟩
  · exact ⟨fun h => (by cases h),fun h => absurd h (by assumption)⟩

structure Admits (ntt : AdditiveNtt F) (code : ReedSolomonCode) : Prop where
  domain : code.logLen ≤ ntt.logDomainSize
  degree : code.logLen ≤ BinaryField.nBits F
  nonempty : 0 < code.logLen
  unit : gaoMateerElement F 0 = 1
  basis : (ntt.domain code.logLen).basis = (range code.logLen).map (gaoMateerElement F)

omit [DecidableEq F] in
theorem Admits.half {k ρ : ℕ} (h : Admits ntt ⟨k + 1,ρ⟩) (hpos : 0 < k + ρ) :
    Admits ntt ⟨k,ρ⟩ := by
  have hlen : (⟨k + 1,ρ⟩ : ReedSolomonCode).logLen = k + ρ + 1 := Nat.succ_add k ρ
  have hdomain : k + ρ + 1 ≤ ntt.logDomainSize := hlen ▸ h.domain
  have hdegree : k + ρ + 1 ≤ BinaryField.nBits F := hlen ▸ h.degree
  have hbasis := h.basis
  rw [hlen] at hbasis
  have hbelow := ntt.domain_eq (k + ρ) (by omega) hpos
  rw [hbasis,gaoMateerElement_next hdegree hpos h.unit] at hbelow
  have hsame := Except.ok.inj hbelow
  exact ⟨Nat.le_of_succ_le hdomain,Nat.le_of_succ_le hdegree,hpos,h.unit,hsame.symm⟩

omit [DecidableEq F] in
theorem Admits.descend {k ρ : ℕ} (h : Admits ntt ⟨k,ρ⟩) (hn : n ≤ k)
    (hpos : 0 < k - n + ρ) : Admits ntt ⟨k - n,ρ⟩ := by
  induction n with
  | zero => exact h
  | succ n ih =>
    have hprev := ih (by omega) (by omega)
    have hnext : k - n = k - (n + 1) + 1 := by omega
    rw [hnext] at hprev
    exact hprev.half hpos

/-- What the encoder computes: the layers it does not skip, on the message in bit-reversed order. -/
def networkCodeword (t : ℕ → ℕ → F) (k ρ b : ℕ) (m : Memory F) : Memory F :=
  layers t (k + b + ρ) ρ (k + ρ) fun i => m (reverseBits (i % 2 ^ (k + b)) (k + b))

theorem codeSubspace_ok (h : Admits ntt code) :
    code.subspace F = .ok ⟨(range code.logLen).map (gaoMateerElement F)⟩ := by
  have hlen : ((range code.logLen).map (gaoMateerElement F)).length = code.logLen := by simp
  rw [ReedSolomonCode.subspace,gaoMateerBasis_eq,if_pos ⟨h.degree,h.nonempty,h.unit⟩,ok_bind,
    take_of_length_le (le_of_eq hlen)]
  rfl

theorem encodeBatch_run (h : Admits ntt code)
    {data : Buffer F} {b : ℕ} (hlen : data.logLen = code.logDimension + b) :
    ∃ output, code.encodeBatch ntt data b = .ok output ∧
      output.logLen = code.logDimension + b + code.logInvRate ∧
        ∀ i < 2 ^ output.logLen, output.scalars i =
          networkCodeword ntt.twiddle code.logDimension code.logInvRate b data.scalars i := by
  have hcode := h.domain
  rw [ReedSolomonCode.logLen] at hcode
  have hcheck : inputCheck ntt.toDomainContext (code.logDimension + b + code.logInvRate)
      code.logInvRate b = .ok () := by
    rw [inputCheck,require_true (by omega),ok_bind,require_true (by omega)]
  obtain ⟨f,hrun,hf⟩ := neighborsLastReference_performs ntt.toDomainContext hcheck
  have hgrow : data.bitReversePacked.logLen ≤ code.logDimension + b + code.logInvRate := by
    rw [Buffer.bitReversePacked,hlen]
    exact Nat.le_add_right _ _
  refine ⟨⟨code.logDimension + b + code.logInvRate,
    f fun i => data.bitReversePacked.scalars (i % 2 ^ data.bitReversePacked.logLen)⟩,?_,rfl,?_⟩
  · rw [ReedSolomonCode.encodeBatch,AdditiveNtt.subspace,require_true h.domain]
    simp only [ok_bind,pure_bind,codeSubspace_ok h,require_true h.basis,require_true hlen,
      Buffer.repeatExtend,require_true hgrow,hrun]
    rfl
  · intro i hi
    have hlast : code.logDimension + b + code.logInvRate - b =
        code.logDimension + code.logInvRate := by omega
    have hinput : (fun i => data.bitReversePacked.scalars (i % 2 ^ data.bitReversePacked.logLen)) =
        fun i => data.scalars
          (reverseBits (i % 2 ^ (code.logDimension + b)) (code.logDimension + b)) := by
      funext j
      have hj : j % 2 ^ data.logLen < 2 ^ data.logLen := Nat.mod_lt _ (Nat.two_pow_pos _)
      have hread := bitReversePacked_apply data hj
      have hsame : data.bitReversePacked.logLen = data.logLen := rfl
      rw [hsame,hread,hlen]
    have hmem : i ∈ block (code.logDimension + b + code.logInvRate) 0 := Nat.div_eq_of_lt hi
    have hvalue := (hf (fun i => data.bitReversePacked.scalars
      (i % 2 ^ data.bitReversePacked.logLen)) i).1 hmem
    rw [hlast] at hvalue
    rw [networkCodeword,←hinput]
    exact hvalue

theorem encodeBatch_ok {data output : Buffer F} {b : ℕ}
    (h : code.encodeBatch ntt data b = .ok output) :
    Admits ntt code ∧ data.logLen = code.logDimension + b := by
  rw [ReedSolomonCode.encodeBatch,bind_eq_ok] at h
  obtain ⟨domain,hdomain,h⟩ := h
  rw [AdditiveNtt.subspace,bind_eq_ok] at hdomain
  obtain ⟨_,hsize,hdomain⟩ := hdomain
  rw [pure_eq_ok] at hdomain
  rw [bind_eq_ok] at h
  obtain ⟨subspace,hsubspace,h⟩ := h
  rw [ReedSolomonCode.subspace,gaoMateerBasis_eq] at hsubspace
  rw [bind_eq_ok] at h
  obtain ⟨_,hsame,h⟩ := h
  rw [bind_eq_ok] at h
  obtain ⟨_,hlen,_⟩ := h
  rw [require_eq_ok] at hsize hsame hlen
  by_cases hbasis : code.logLen ≤ BinaryField.nBits F ∧ 0 < code.logLen ∧ gaoMateerElement F 0 = 1
  · have hfull : ((range code.logLen).map (gaoMateerElement F)).length = code.logLen := by simp
    rw [if_pos hbasis,ok_bind,pure_eq_ok,take_of_length_le (le_of_eq hfull)] at hsubspace
    rw [←hdomain,←hsubspace] at hsame
    exact ⟨⟨hsize,hbasis.1,hbasis.2.1,hbasis.2.2,hsame⟩,hlen⟩
  · rw [if_neg hbasis] at hsubspace
    cases hsubspace

end Basis

end Binius64.Ntt
