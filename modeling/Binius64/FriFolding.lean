import Binius64.InplaceEvaluation
import Binius64.NttSharing
import Binius64.ReedSolomon

/-!
# Folding cosets of a codeword

Both verifiers fold a coset of a codeword to one scalar.
-/

namespace Binius64.Ntt

open CheckedRun ButterflyNetwork SubspacePolynomials InplaceEvaluation List
open LayerChecks (extrapolateLine)

def coset {F : Type} (scalars : Memory F) (n chunkIndex : ℕ) : Values F :=
  ⟨1 <<< n,fun j => scalars ((chunkIndex <<< n) + j)⟩

/-- Write what a function makes of the cells `2 i` and `2 i + 1` to the cell `i`, one after another. -/
def foldPairs {F : Type} (pair : ℕ → F × F → F) (n : ℕ) (data : Memory F) : Memory F :=
  (range n).foldl (fun data indexOffset => Function.update data indexOffset
    (pair indexOffset (data (indexOffset <<< 1),data ((indexOffset <<< 1) ||| 1)))) data

section Definitions

variable {K F : Type} [Field K] [Field F] [Algebra K F]

def foldPair (ntt : AdditiveNtt K) (round idx : ℕ) (values : F × F) (r : F) : F :=
  let t := ntt.twiddle (round - 1) idx
  let v := values.2 + values.1
  let u := values.1 + v * algebraMap K F t
  extrapolateLine u v r

def foldChunkRounds (ntt : AdditiveNtt K) (chunkIndex : ℕ) :
    (logLen : ℕ) → (challenges : List F) → Memory F → Memory F
  | _, [], values => values
  | logLen, challenge :: challenges, values =>
    let logSize := challenges.length + 1
    foldChunkRounds ntt chunkIndex (logLen - 1) challenges (foldPairs (fun indexOffset pair =>
      foldPair ntt logLen ((chunkIndex <<< (logSize - 1)) ||| indexOffset) pair challenge)
        (1 <<< (logSize - 1)) values)

def foldChunk (ntt : AdditiveNtt K) (logLen chunkIndex : ℕ) (values : Values F)
    (challenges : List F) : Except AssertFailure F := do
  let logSize := challenges.length
  require (logSize ≤ logLen)
  require (logLen ≤ ntt.logDomainSize)
  require (values.len = 1 <<< logSize)
  return foldChunkRounds ntt chunkIndex logLen challenges values.scalars 0

def subsetSumWord (elems : List F) (word : ℕ) : Except AssertFailure F := do
  require (elems.length ≤ 64)
  return ((elems.zipIdx.filter fun entry => (word >>> entry.2) &&& 1 = 1).map Prod.fst).sum

def expandSubsetSums (elems : List F) : Except AssertFailure (List F) := do
  require (elems.length < 64)
  return elems.foldl (fun expanded elem => expanded ++ expanded.map (· + elem)) [0]

def foldCosetRounds (domainContext : AdditiveNtt K) (chunkIndex : ℕ) :
    (logLen : ℕ) → (challenges : List F) → Memory F → Except AssertFailure (Memory F)
  | _, [], values => .ok values
  | logLen, challenge :: challenges, values => do
    let logSize := challenges.length + 1
    let layer := logLen - 1
    let layerSubspace ← domainContext.subspace (layer + 1)
    let twiddleBasis := layerSubspace.basis.tail
    let shift := logSize - 1
    let chunkBasis := (twiddleBasis.drop shift).map (algebraMap K F)
    let chunkTwiddle ← subsetSumWord chunkBasis chunkIndex
    let offsetTwiddles ← expandSubsetSums (twiddleBasis.take shift)
    foldCosetRounds domainContext chunkIndex (logLen - 1) challenges (foldPairs
      (fun indexOffset pair =>
        let twiddle := chunkTwiddle + algebraMap K F (offsetTwiddles.getD indexOffset 0)
        let v := pair.2 + pair.1
        let u := pair.1 + v * twiddle
        extrapolateLine u v challenge) (1 <<< shift) values)

def foldCoset (domainContext : AdditiveNtt K) (logLen chunkIndex : ℕ) (challenges : List F)
    (values : Values F) : Except AssertFailure F := do
  let data ← foldCosetRounds domainContext chunkIndex logLen challenges values.scalars
  return data 0

def foldHighestVarInplace (values : Buffer F) (scalar : F) : Except AssertFailure (Buffer F) := do
  require (0 < values.logLen)
  return ⟨values.logLen - 1,fun i =>
    extrapolateLine (values.scalars i) (values.scalars (i + 1 <<< (values.logLen - 1))) scalar⟩

end Definitions

section Loops

variable {F : Type}

theorem foldPairs_apply (pair : ℕ → F × F → F) (n : ℕ) (data : Memory F) {i : ℕ} (hi : i < n) :
    foldPairs pair n data i = pair i (data (2 * i),data (2 * i + 1)) := by
  have heven : ∀ i, i <<< 1 = 2 * i := fun i => by
    rw [Nat.shiftLeft_eq,pow_one,mul_comm]
  have hodd : ∀ i, i <<< 1 ||| 1 = 2 * i + 1 := fun i => by
    rw [shiftLeft_or (by decide : 1 < 2 ^ 1),pow_one,mul_comm]
  have hloop := updates_apply (f := fun i x => pair i (x (i <<< 1),x ((i <<< 1) ||| 1))) (d := data)
    (fun i x hx => by
      rw [hodd,heven]
      simp only [hx (2 * i) (by omega),hx (2 * i + 1) (by omega)]) n i
  rw [if_pos hi] at hloop
  rw [foldPairs,hloop,hodd,heven]

end Loops

section Rounds

variable {K F : Type} [Field K] [Field F] [Algebra K F]

def foldRound (ntt : AdditiveNtt K) (logLen : ℕ) (r : F) (y : Memory F) : Memory F :=
  fun i => foldPair ntt logLen i (y (2 * i),y (2 * i + 1)) r

def foldRounds (ntt : AdditiveNtt K) : (logLen : ℕ) → (challenges : List F) → Memory F → Memory F
  | _, [], y => y
  | logLen, challenge :: challenges, y =>
    foldRounds ntt (logLen - 1) challenges (foldRound ntt logLen challenge y)

omit [Field F] in
theorem coset_round {y values : Memory F} {n chunk : ℕ}
    (hvalues : ∀ j < 2 ^ (n + 1), values j = y (chunk * 2 ^ (n + 1) + j)) {j : ℕ} (hj : j < 2 ^ n) :
    values (2 * j) = y (2 * (chunk * 2 ^ n + j)) ∧
      values (2 * j + 1) = y (2 * (chunk * 2 ^ n + j) + 1) := by
  have hpow : chunk * 2 ^ (n + 1) = 2 * (chunk * 2 ^ n) := by ring
  have hlt : 2 ^ (n + 1) = 2 * 2 ^ n := pow_succ' 2 n
  refine ⟨?_,?_⟩
  · rw [hvalues _ (by omega),hpow,mul_add]
  · rw [hvalues _ (by omega),hpow,mul_add,add_assoc]

variable (ntt : AdditiveNtt K)

theorem foldChunkRounds_eq (chunk : ℕ) (challenges : List F) (logLen : ℕ)
    {y x : Memory F}
    (hvalues : ∀ j < 2 ^ challenges.length, x j = y (chunk * 2 ^ challenges.length + j)) :
    foldChunkRounds ntt chunk logLen challenges x 0 = foldRounds ntt logLen challenges y chunk := by
  induction challenges generalizing logLen y x with
  | nil =>
    have hfirst := hvalues 0 Nat.one_pos
    rw [length_nil,pow_zero,mul_one,add_zero] at hfirst
    exact hfirst
  | cons challenge challenges ih =>
    rw [foldChunkRounds,foldRounds]
    refine ih (logLen - 1) fun j hj => ?_
    have hlt : j < 1 <<< (challenges.length + 1 - 1) := by
      rw [Nat.add_sub_cancel,Nat.shiftLeft_eq,one_mul]
      exact hj
    obtain ⟨heven,hodd⟩ := coset_round hvalues hj
    rw [foldPairs_apply _ _ _ hlt,heven,hodd,Nat.add_sub_cancel,shiftLeft_or hj,foldRound]

theorem subsetSumWord_eq {elems : List F} {word : ℕ} (h : elems.length ≤ 64) :
    subsetSumWord elems word = .ok (subsetSum elems word) := by
  have hgen : ∀ (es : List F) (n : ℕ), (((es.zipIdx n).filter fun entry =>
      (word >>> entry.2) &&& 1 = 1).map Prod.fst).sum = subsetSum es (word / 2 ^ n) := by
    intro es
    induction es with
    | nil => exact fun _ => rfl
    | cons e es ih =>
      intro n
      have hnext := ih (n + 1)
      rw [pow_succ,←Nat.div_div_eq_div_mul] at hnext
      rw [zipIdx_cons,subsetSum,←hnext,filter_cons,Nat.and_one_is_mod,
        Nat.shiftRight_eq_div_pow]
      by_cases hbit : word / 2 ^ n % 2 = 1
      · rw [if_pos (decide_eq_true hbit),if_pos hbit,map_cons,sum_cons]
      · rw [if_neg (by simpa using hbit),if_neg hbit,zero_add]
  have hall := hgen elems 0
  rw [pow_zero,Nat.div_one] at hall
  rw [subsetSumWord,require_true h,ok_bind,hall]
  rfl

theorem subsetSums_loop (es : List F) :
    es.foldl (fun expanded elem => expanded ++ expanded.map (· + elem)) [0] =
      (range (2 ^ es.length)).map (subsetSum es) := by
  induction es using reverseRecOn with
  | nil => rfl
  | append_singleton es e ih =>
    rw [foldl_append,ih,foldl_cons,foldl_nil,length_append,length_singleton,
      pow_succ,mul_two,range_add,map_append,map_map,map_map]
    congr 1
    · refine map_congr_left fun i hi => ?_
      rw [subsetSum_append,Nat.div_eq_of_lt (mem_range.mp hi),subsetSum_zero,add_zero]
    · refine map_congr_left fun i hi => ?_
      have hlow := subsetSum_mod es (2 ^ es.length + i)
      rw [Nat.add_mod_left,subsetSum_mod] at hlow
      rw [Function.comp_apply,Function.comp_apply,subsetSum_append,←hlow,
        Nat.add_div_left i (Nat.two_pow_pos _),Nat.div_eq_of_lt (mem_range.mp hi),subsetSum,
        if_pos rfl,subsetSum,add_zero]

theorem expandSubsetSums_eq {elems : List F} (h : elems.length < 64) :
    expandSubsetSums elems = .ok ((range (2 ^ elems.length)).map (subsetSum elems)) := by
  rw [expandSubsetSums,require_true h,ok_bind,subsetSums_loop]
  rfl

theorem coset_lt {logLen n chunk j : ℕ} (hn : n ≤ logLen) (hchunk : chunk < 2 ^ (logLen - n))
    (hj : j < 2 ^ n) : chunk * 2 ^ n + j < 2 ^ logLen := by
  have hpow : 2 ^ logLen = 2 ^ (logLen - n) * 2 ^ n := by rw [←pow_add,Nat.sub_add_cancel hn]
  have hle : (chunk + 1) * 2 ^ n ≤ 2 ^ (logLen - n) * 2 ^ n := Nat.mul_le_mul_right _ hchunk
  rw [hpow]
  rw [add_mul,one_mul] at hle
  omega

theorem twiddle_split {layer n chunk j : ℕ} (hl : layer < ntt.logDomainSize)
    (hn : n ≤ layer) (hchunk : chunk < 2 ^ (layer - n)) (hj : j < 2 ^ n) :
    ntt.twiddle layer (chunk * 2 ^ n + j) =
      subsetSum ((ntt.domain (layer + 1)).basis.tail.drop n) chunk +
        subsetSum ((ntt.domain (layer + 1)).basis.tail.take n) j := by
  have hblock := coset_lt hn hchunk hj
  have hdim := ntt.dim_domain (layer + 1) hl
  rw [BinarySubspace.dim] at hdim
  have hlen : n ≤ (ntt.domain (layer + 1)).basis.tail.length := by
    rw [length_tail,hdim]
    omega
  have hmod : (chunk * 2 ^ n + j) % 2 ^ n = j := by
    rw [mul_comm,Nat.mul_add_mod,Nat.mod_eq_of_lt hj]
  have hdiv : (chunk * 2 ^ n + j) / 2 ^ n = chunk := by
    rw [mul_comm,Nat.mul_add_div (Nat.two_pow_pos n),Nat.div_eq_of_lt hj,add_zero]
  rw [ntt.twiddle_eq layer hl _ hblock,elementAt_eq,subsetSum_split _ hlen,hmod,hdiv,add_comm]

theorem foldCosetRounds_eq (challenges : List F) {logLen chunk : ℕ}
    {y x : Memory F} (hlen : challenges.length ≤ logLen) (hdomain : logLen ≤ ntt.logDomainSize)
    (hchunk : chunk < 2 ^ (logLen - challenges.length)) (hsize : challenges.length ≤ 64)
    (hword : logLen - challenges.length ≤ 64)
    (hvalues : ∀ j < 2 ^ challenges.length, x j = y (chunk * 2 ^ challenges.length + j)) :
    ∃ data, foldCosetRounds ntt chunk logLen challenges x = .ok data ∧
      data 0 = foldRounds ntt logLen challenges y chunk := by
  induction challenges generalizing logLen y x with
  | nil =>
    have hfirst := hvalues 0 Nat.one_pos
    rw [length_nil,pow_zero,mul_one,add_zero] at hfirst
    exact ⟨x,rfl,hfirst⟩
  | cons challenge challenges ih =>
    rw [length_cons] at hlen hchunk hsize hword
    have hlayer : logLen - 1 + 1 = logLen := by omega
    have hbelow : logLen - 1 < ntt.logDomainSize := by omega
    have hrest : logLen - (challenges.length + 1) = logLen - 1 - challenges.length := by omega
    rw [hrest] at hchunk hword
    have hdim := ntt.dim_domain logLen hdomain
    rw [BinarySubspace.dim] at hdim
    have hwidth : (((ntt.domain logLen).basis.tail.drop challenges.length).map
        (algebraMap K F)).length ≤ 64 := by
      rw [length_map,length_drop,length_tail,hdim]
      exact hword
    have hcount : ((ntt.domain logLen).basis.tail.take challenges.length).length =
        challenges.length := by
      rw [length_take,length_tail,hdim]
      omega
    rw [foldCosetRounds,foldRounds]
    simp only [hlayer,AdditiveNtt.subspace,require_true hdomain,ok_bind,pure_bind,Nat.add_sub_cancel,
      subsetSumWord_eq hwidth,expandSubsetSums_eq (lt_of_eq_of_lt hcount (by omega : _ < 64)),hcount]
    refine ih (by omega) (by omega) hchunk (by omega) hword fun j hj => ?_
    have hlt : j < 1 <<< challenges.length := by
      rw [Nat.shiftLeft_eq,one_mul]
      exact hj
    obtain ⟨heven,hodd⟩ := coset_round hvalues hj
    have hoffset : ((range (2 ^ challenges.length)).map
        (subsetSum ((ntt.domain logLen).basis.tail.take challenges.length))).getD j 0 =
          subsetSum ((ntt.domain logLen).basis.tail.take challenges.length) j := by
      rw [getD_eq_getElem _ _ (by simpa using hj),getElem_map,getElem_range]
    have htwiddle := twiddle_split ntt hbelow (by omega) hchunk hj
    rw [hlayer] at htwiddle
    rw [foldPairs_apply _ _ _ hlt,heven,hodd,hoffset,foldRound,foldPair,htwiddle,map_add,
      ←subsetSum_map (map_zero (algebraMap K F)) (map_add (algebraMap K F))]

end Rounds

section Lanes

variable {F : Type} [Field F]

variable {e : ℕ}

theorem butterfly_lane (τ : ℕ → F) (s : ℕ) (x : Memory F) (he : e < 2) (i : ℕ) :
    butterfly τ (s + 1) x (2 * i + e) = butterfly τ s (fun j => x (2 * j + e)) i := by
  have hhalf : (2 * i + e) / 2 = i := by omega
  have hbit : ∀ n, (2 * i + e) / 2 ^ (n + 1) = i / 2 ^ n := fun n => by
    rw [pow_succ',←Nat.div_div_eq_div_mul,hhalf]
  have hup : 2 * i + e + 2 ^ (s + 1) = 2 * (i + 2 ^ s) + e := by
    rw [pow_succ']
    omega
  rw [butterfly,butterfly,hbit,hbit,hup]
  by_cases hlow : i / 2 ^ s % 2 = 0
  · rw [if_pos hlow,if_pos hlow]
  · have hle : 2 ^ s ≤ i := pow_le_of_odd (by omega)
    have hdown : 2 * i + e - 2 ^ (s + 1) = 2 * (i - 2 ^ s) + e := by
      rw [pow_succ']
      omega
    rw [if_neg hlow,if_neg hlow,hdown]

variable (t : ℕ → ℕ → F)

theorem layers_lane {n first last : ℕ} (hl : last ≤ n) (x : Memory F)
    (he : e < 2) (i : ℕ) : layers t (n + 1) first last x (2 * i + e) =
      layers t n first last (fun j => x (2 * j + e)) i := by
  obtain ⟨count,hcount⟩ : ∃ count, last - first = count := ⟨_,rfl⟩
  induction count generalizing first x with
  | zero => rw [layers_empty t (by omega),layers_empty t (by omega)]
  | succ count ih =>
    have hlt : first < last := by omega
    have hbit : n + 1 - 1 - first = n - 1 - first + 1 := by omega
    rw [layers_succ t hlt,layers_succ t hlt,ih _ (by omega),hbit]
    congr 1
    funext j
    exact butterfly_lane _ _ x he j

theorem layers_extrapolateLine (n first last : ℕ) (x y : Memory F) (r : F) (i : ℕ) :
    layers t n first last (fun j => extrapolateLine (x j) (y j) r) i =
      extrapolateLine (layers t n first last x i) (layers t n first last y i) r := by
  have hline : (fun j => extrapolateLine (x j) (y j) r) = r • ((-1 : F) • x + y) + x := by
    funext j
    simp only [extrapolateLine,Pi.add_apply,Pi.smul_apply,smul_eq_mul]
    ring
  rw [hline,layers_linear,layers_linear,extrapolateLine]
  simp only [Pi.add_apply,Pi.smul_apply,smul_eq_mul]
  ring

theorem reverseBits_lane (n i : ℕ) (he : e < 2) :
    reverseBits ((2 * i + e) % 2 ^ (n + 1)) (n + 1) = reverseBits (i % 2 ^ n) n + e * 2 ^ n := by
  have hbit : (2 * i + e) % 2 = e := by omega
  have hhalf : (2 * i + e) / 2 = i := by omega
  rw [reverseBits_mod,reverseBits,hbit,hhalf,reverseBits_mod,add_comm]

theorem networkCodeword_lanes (k ρ b : ℕ) (m : Memory F) (r : F) (i : ℕ) :
    extrapolateLine (networkCodeword t k ρ (b + 1) m (2 * i)) (networkCodeword t k ρ (b + 1) m (2 * i + 1))
      r = networkCodeword t k ρ b (foldHighest (k + b) r m) i := by
  have hsize : k + (b + 1) + ρ = k + b + ρ + 1 := by omega
  have hlane : ∀ e < 2, networkCodeword t k ρ (b + 1) m (2 * i + e) =
      layers t (k + b + ρ) ρ (k + ρ)
        (fun j => m (reverseBits (j % 2 ^ (k + b)) (k + b) + e * 2 ^ (k + b))) i := by
    intro e he
    rw [networkCodeword,hsize,layers_lane t (by omega) _ he]
    congr 1
    funext j
    rw [←add_assoc,reverseBits_lane _ _ he]
  have heven := hlane 0 (by decide)
  have hodd := hlane 1 (by decide)
  rw [add_zero] at heven
  rw [heven,hodd,←layers_extrapolateLine,networkCodeword]
  congr 1
  funext j
  rw [foldHighest,zero_mul,add_zero,one_mul]

theorem networkCodeword_last (k ρ : ℕ) (m : Memory F) :
    networkCodeword t (k + 1) ρ 0 m = butterfly (t (k + ρ)) 0 (networkCodeword t k ρ 1 m) := by
  have hsize : k + 1 + 0 + ρ = k + 1 + ρ := rfl
  have hend : k + 1 + ρ = k + ρ + 1 := by omega
  have hbit : k + 1 + ρ - 1 - (k + ρ) = 0 := by omega
  have hlayers := layers_concat t (n := k + 1 + ρ) (by omega : ρ ≤ k + ρ)
    fun i => m (reverseBits (i % 2 ^ (k + 1)) (k + 1))
  rw [hbit] at hlayers
  rw [networkCodeword,networkCodeword,hsize,hend]
  rw [hend] at hlayers
  exact hlayers

theorem foldRound_codeword [CharP F 2] (ntt : AdditiveNtt F) (k ρ : ℕ) (r : F) (m : Memory F) :
    foldRound ntt (k + 1 + ρ) r (networkCodeword ntt.twiddle (k + 1) ρ 0 m) =
      networkCodeword ntt.twiddle k ρ 0 (foldHighest k r m) := by
  funext i
  have hlanes := networkCodeword_lanes ntt.twiddle k ρ 0 m r i
  rw [zero_add] at hlanes
  rw [add_zero] at hlanes
  rw [←hlanes,networkCodeword_last,foldRound,foldPair]
  generalize networkCodeword ntt.twiddle k ρ 1 m = x
  have hround : k + 1 + ρ - 1 = k + ρ := by omega
  have hleft : 2 * i % 2 = 0 := by omega
  have hright : ¬(2 * i + 1) % 2 = 0 := by omega
  have hblock : 2 * i / 2 = i ∧ (2 * i + 1) / 2 = i := by omega
  simp only [butterfly,pow_zero,Nat.div_one,zero_add,pow_one,hleft,hright,if_true,if_false,hblock.1,
    hblock.2,hround,Nat.add_sub_cancel,Algebra.algebraMap_self,RingHom.id_apply]
  -- the two halves of the inverse butterfly
  have hdouble : ∀ a : F, a + a = 0 := CharTwo.add_self_eq_zero
  have hv : x (2 * i + 1) + (x (2 * i) + x (2 * i + 1) * ntt.twiddle (k + ρ) i) +
      (x (2 * i) + x (2 * i + 1) * ntt.twiddle (k + ρ) i) = x (2 * i + 1) := by
    rw [add_assoc,hdouble,add_zero]
  have hu : x (2 * i) + x (2 * i + 1) * ntt.twiddle (k + ρ) i +
      x (2 * i + 1) * ntt.twiddle (k + ρ) i = x (2 * i) := by
    rw [add_assoc,hdouble,add_zero]
  rw [hv,hu]

theorem foldHighestVarInplace_run {message : Buffer F} {h : ℕ} (hlen : message.logLen = h + 1) (r : F) :
    foldHighestVarInplace message r = .ok ⟨h,foldHighest h r message.scalars⟩ := by
  have hpos : 0 < message.logLen := by omega
  rw [foldHighestVarInplace,require_true hpos,hlen,Nat.add_sub_cancel,Nat.shiftLeft_eq,one_mul]
  rfl

theorem foldRounds_codeword [CharP F 2] (ntt : AdditiveNtt F) (ρ : ℕ) (challenges : List F)
    {m : Buffer F} (hle : challenges.length ≤ m.logLen) :
    ∃ folded, challenges.foldlM foldHighestVarInplace m = .ok folded ∧
      folded.logLen = m.logLen - challenges.length ∧
      foldRounds ntt (m.logLen + ρ) challenges
        (networkCodeword ntt.twiddle m.logLen ρ 0 m.scalars) =
          networkCodeword ntt.twiddle folded.logLen ρ 0 folded.scalars := by
  induction challenges generalizing m with
  | nil => exact ⟨m,rfl,rfl,rfl⟩
  | cons challenge challenges ih =>
    rw [length_cons] at hle
    obtain ⟨h,hlen⟩ : ∃ h, m.logLen = h + 1 := ⟨m.logLen - 1,by omega⟩
    have hnext : challenges.length ≤ h := by omega
    obtain ⟨folded,hrun,hfolded,hvalue⟩ :=
      ih (m := ⟨h,foldHighest h challenge m.scalars⟩) hnext
    have hround : h + 1 + ρ - 1 = h + ρ := by omega
    refine ⟨folded,?_,?_,?_⟩
    · rw [foldlM_cons,foldHighestVarInplace_run hlen]
      exact hrun
    · rw [hfolded,hlen,length_cons,Nat.add_sub_add_right]
    · rw [hlen,foldRounds,foldRound_codeword,hround]
      exact hvalue

theorem lanes_codeword (k ρ : ℕ) (point : List F) {m : Buffer F}
    (hlen : m.logLen = k + point.length) :
    ∃ folded, point.foldlM foldHighestVarInplace m = .ok folded ∧ folded.logLen = k ∧
      ∀ i, evaluateLoop point (fun j =>
        networkCodeword t k ρ point.length m.scalars (i * 2 ^ point.length + j)) 0 =
          networkCodeword t k ρ 0 folded.scalars i := by
  induction point generalizing m with
  | nil =>
    refine ⟨m,rfl,hlen,fun i => ?_⟩
    have hone : i * 2 ^ ([] : List F).length + 0 = i := by rw [length_nil,pow_zero,mul_one,add_zero]
    exact congrArg (networkCodeword t k ρ 0 m.scalars) hone
  | cons p point ih =>
    obtain ⟨folded,hrun,hfolded,hvalue⟩ :=
      ih (m := ⟨k + point.length,foldHighest (k + point.length) p m.scalars⟩) rfl
    refine ⟨folded,?_,hfolded,fun i => ?_⟩
    · rw [foldlM_cons,foldHighestVarInplace_run hlen]
      exact hrun
    · have hlane : ∀ j e, i * 2 ^ (point.length + 1) + (2 * j + e) =
          2 * (i * 2 ^ point.length + j) + e := by
        intro j e
        ring
      rw [evaluateLoop_cons,←hvalue,length_cons]
      congr 1
      funext j
      have heven := hlane j 0
      rw [add_zero,add_zero] at heven
      rw [heven,hlane,networkCodeword_lanes]

end Lanes

section Cosets

variable {K F : Type} [Field K] [Field F] [Algebra K F]

omit [Field F] in
theorem coset_apply (y : Memory F) (n chunk j : ℕ) : (coset y n chunk).scalars j = y (chunk * 2 ^ n + j) :=
  congrArg (fun first => y (first + j)) (Nat.shiftLeft_eq chunk n)

theorem foldChunk_run (ntt : AdditiveNtt K) {x y : Memory F} {challenges : List F} {logLen chunk : ℕ}
    (hxy : ∀ j < 2 ^ challenges.length, x (chunk * 2 ^ challenges.length + j) =
      y (chunk * 2 ^ challenges.length + j))
    (hlen : challenges.length ≤ logLen) (hdomain : logLen ≤ ntt.logDomainSize) :
    foldChunk ntt logLen chunk (coset x challenges.length chunk) challenges =
      .ok (foldRounds ntt logLen challenges y chunk) := by
  have hsize : (coset x challenges.length chunk).len = 1 <<< challenges.length := rfl
  have hrounds := foldChunkRounds_eq ntt chunk challenges logLen (y := y)
    (x := (coset x challenges.length chunk).scalars) fun j hj =>
      (coset_apply x _ chunk j).trans (hxy j hj)
  rw [foldChunk,require_true hlen,require_true hdomain,require_true hsize,ok_bind,ok_bind,ok_bind,hrounds]
  rfl

theorem foldCoset_run (ntt : AdditiveNtt K) {x y : Memory F} {challenges : List F} {logLen chunk : ℕ}
    (hxy : ∀ j < 2 ^ challenges.length, x (chunk * 2 ^ challenges.length + j) =
      y (chunk * 2 ^ challenges.length + j))
    (hlen : challenges.length ≤ logLen) (hdomain : logLen ≤ ntt.logDomainSize)
    (hchunk : chunk < 2 ^ (logLen - challenges.length)) (hsize : challenges.length ≤ 64)
    (hword : logLen - challenges.length ≤ 64) :
    foldCoset ntt logLen chunk challenges (coset x challenges.length chunk) =
      .ok (foldRounds ntt logLen challenges y chunk) := by
  obtain ⟨data,hrun,hvalue⟩ := foldCosetRounds_eq ntt challenges (y := y)
    (x := (coset x challenges.length chunk).scalars) hlen hdomain hchunk hsize hword
    fun j hj => (coset_apply x _ chunk j).trans (hxy j hj)
  rw [foldCoset,hrun,ok_bind,hvalue]
  rfl

end Cosets

section Commutes

variable {K : Type} [Field K] [Algebra (ZMod 2) K] [BinaryField K] [DecidableEq K]

/-- Folding the cosets of a codeword gives the codeword of the message with its highest variables fixed in
turn, the two verifiers' folds agree on every vector, and folding the lanes of an interleaved codeword gives
the codeword of the message folded at the same point. -/
theorem folding_commutes (ntt : AdditiveNtt K) :
    (∀ (code : ReedSolomonCode) (message codeword : Buffer K) (challenges : List K),
      code.encodeBatch ntt message 0 = .ok codeword → challenges.length ≤ code.logDimension →
      ∃ folded expected, challenges.foldlM foldHighestVarInplace message = .ok folded ∧
        (if 0 < code.logLen - challenges.length then
          ReedSolomonCode.encodeBatch ⟨code.logDimension - challenges.length,code.logInvRate⟩ ntt folded 0 =
            .ok expected else expected = folded) ∧
        ∀ chunk < 2 ^ (code.logLen - challenges.length),
          foldChunk ntt code.logLen chunk (coset codeword.scalars challenges.length chunk) challenges =
            .ok (expected.scalars chunk) ∧
          (challenges.length ≤ 64 → code.logLen - challenges.length ≤ 64 →
            foldCoset ntt code.logLen chunk challenges (coset codeword.scalars challenges.length chunk) =
              .ok (expected.scalars chunk))) ∧
    (∀ (F : Type) [Field F] [Algebra K F] (vector : Memory F) (challenges : List F) (logLen chunk : ℕ),
      challenges.length ≤ logLen → logLen ≤ ntt.logDomainSize →
      chunk < 2 ^ (logLen - challenges.length) → challenges.length ≤ 64 →
      logLen - challenges.length ≤ 64 → ∃ value,
        foldChunk ntt logLen chunk (coset vector challenges.length chunk) challenges = .ok value ∧
        foldCoset ntt logLen chunk challenges (coset vector challenges.length chunk) = .ok value) ∧
    ∀ (code : ReedSolomonCode) (message codeword : Buffer K) (point : List K),
      code.encodeBatch ntt message point.length = .ok codeword →
      ∃ folded expected, point.foldlM foldHighestVarInplace message = .ok folded ∧
        code.encodeBatch ntt folded 0 = .ok expected ∧ ∀ i < 2 ^ code.logLen,
          evaluateInplaceScalars (coset codeword.scalars point.length i) point =
            .ok (expected.scalars i) := by
  have hchar : CharP K 2 := charP_two
  refine ⟨?_,?_,?_⟩
  · intro code message codeword challenges hencode hle
    obtain ⟨hadmits,hlen⟩ := encodeBatch_ok hencode
    obtain ⟨output,hrun,hsize,hvalues⟩ := encodeBatch_run hadmits hlen
    rw [hencode] at hrun
    cases hrun
    rw [add_zero] at hlen hsize
    have hlog : code.logLen = message.logLen + code.logInvRate := by rw [hlen]; rfl
    obtain ⟨folded,hfold,hfolded,hrounds⟩ := foldRounds_codeword ntt code.logInvRate challenges
      (by omega : challenges.length ≤ message.logLen)
    rw [hlen] at hfolded
    have hlen' : challenges.length ≤ code.logLen := by omega
    have hcells : ∀ chunk < 2 ^ (code.logLen - challenges.length), ∀ j < 2 ^ challenges.length,
        codeword.scalars (chunk * 2 ^ challenges.length + j) = networkCodeword ntt.twiddle
          message.logLen code.logInvRate 0 message.scalars (chunk * 2 ^ challenges.length + j) := by
      intro chunk hchunk j hj
      have hin := coset_lt hlen' hchunk hj
      rw [hlen]
      refine hvalues _ ?_
      rw [hsize]
      exact hin
    have hfolds : ∀ expected : Memory K, (∀ chunk < 2 ^ (code.logLen - challenges.length),
        expected chunk = networkCodeword ntt.twiddle folded.logLen code.logInvRate 0 folded.scalars chunk) →
        ∀ chunk < 2 ^ (code.logLen - challenges.length),
          foldChunk ntt code.logLen chunk (coset codeword.scalars challenges.length chunk) challenges =
            .ok (expected chunk) ∧
          (challenges.length ≤ 64 → code.logLen - challenges.length ≤ 64 →
            foldCoset ntt code.logLen chunk challenges (coset codeword.scalars challenges.length chunk) =
              .ok (expected chunk)) := by
      intro expected hexpected chunk hchunk
      have hsymbol := congrFun hrounds chunk
      rw [←hlog] at hsymbol
      rw [hexpected chunk hchunk,←hsymbol]
      exact ⟨foldChunk_run ntt (hcells chunk hchunk) hlen' hadmits.domain,fun hn hword =>
        foldCoset_run ntt (hcells chunk hchunk) hlen' hadmits.domain hchunk hn hword⟩
    by_cases hshort : 0 < code.logLen - challenges.length
    · have hpos : 0 < code.logDimension - challenges.length + code.logInvRate := by omega
      obtain ⟨expected,hrun,hsmall,hentries⟩ := encodeBatch_run (b := 0) (hadmits.descend hle hpos) hfolded
      refine ⟨folded,expected,hfold,?_,hfolds expected.scalars fun chunk hchunk => ?_⟩
      · rw [if_pos hshort]
        exact hrun
      · rw [hfolded]
        refine hentries chunk ?_
        have hsum : code.logLen - challenges.length =
            code.logDimension - challenges.length + 0 + code.logInvRate := by omega
        rw [hsmall,←hsum]
        exact hchunk
    · have hzero : folded.logLen = 0 ∧ code.logInvRate = 0 := by omega
      refine ⟨folded,folded,hfold,?_,hfolds folded.scalars fun chunk hchunk => ?_⟩
      · rw [if_neg hshort]
      · have hfirst : chunk = 0 := by
          have hone : code.logLen - challenges.length = 0 := by omega
          rw [hone,pow_zero] at hchunk
          omega
        rw [hzero.1,hzero.2,hfirst]
        rfl
  · intro F _ _ vector challenges logLen chunk hlen hdomain hchunk hsize hword
    exact ⟨_,foldChunk_run ntt (y := vector) (fun _ _ => rfl) hlen hdomain,
      foldCoset_run ntt (fun _ _ => rfl) hlen hdomain hchunk hsize hword⟩
  · intro code message codeword point hencode
    obtain ⟨hadmits,hlen⟩ := encodeBatch_ok hencode
    obtain ⟨output,hrun,hsize,hvalues⟩ := encodeBatch_run hadmits hlen
    rw [hencode] at hrun
    cases hrun
    obtain ⟨folded,hfold,hfolded,hlanes⟩ := lanes_codeword ntt.twiddle code.logDimension
      code.logInvRate point hlen
    obtain ⟨expected,hrun,hsmall,hentries⟩ := encodeBatch_run (b := 0) hadmits hfolded
    refine ⟨folded,expected,hfold,hrun,fun i hi => ?_⟩
    have hsum : code.logDimension + point.length + code.logInvRate = code.logLen + point.length := by
      rw [ReedSolomonCode.logLen]
      omega
    have hsymbol : expected.scalars i = networkCodeword ntt.twiddle code.logDimension code.logInvRate 0
        folded.scalars i := by
      refine hentries i ?_
      rw [hsmall]
      exact hi
    have hloop : evaluateLoop point (coset codeword.scalars point.length i).scalars 0 =
        expected.scalars i := by
      rw [hsymbol,←hlanes i]
      refine evaluateLoop_congr point fun j hj => ?_
      rw [coset_apply]
      refine hvalues _ ?_
      rw [hsize,hsum]
      refine coset_lt (Nat.le_add_left _ _) ?_ hj
      rw [Nat.add_sub_cancel]
      exact hi
    have hwidth : (coset codeword.scalars point.length i).len = 1 <<< point.length := rfl
    rw [evaluateInplaceScalars_run hwidth,hloop]

instance : BinaryField Quaternary := ⟨2,Quaternary.root,1,rfl⟩

def twoSymbols : Buffer Quaternary := ⟨1,fun i => if i = 0 then Quaternary.root else Quaternary.conj⟩

/-- The transform over the whole field of four elements. -/
def quaternaryNtt : AdditiveNtt Quaternary := gaoMateerOnTheFly 2 (by decide) (by decide)

/-- A message of two symbols, folded once. -/
theorem folding_commutes_twoSymbols : ∃ codeword folded expected,
    ReedSolomonCode.encodeBatch ⟨1,1⟩ quaternaryNtt twoSymbols 0 = .ok codeword ∧
      [Quaternary.conj].foldlM foldHighestVarInplace twoSymbols = .ok folded ∧
      ReedSolomonCode.encodeBatch ⟨0,1⟩ quaternaryNtt folded 0 = .ok expected ∧
      foldCoset quaternaryNtt 2 1 [Quaternary.conj] (coset codeword.scalars 1 1) =
        .ok (expected.scalars 1) := by
  have hencode : ∃ codeword, ReedSolomonCode.encodeBatch ⟨1,1⟩ quaternaryNtt twoSymbols 0 =
      .ok codeword := ⟨_,rfl⟩
  obtain ⟨codeword,hcodeword⟩ := hencode
  obtain ⟨folded,expected,hfold,hexpected,hchunks⟩ := (folding_commutes quaternaryNtt).1 ⟨1,1⟩ twoSymbols
    codeword [Quaternary.conj] hcodeword (by decide)
  rw [if_pos (by decide)] at hexpected
  exact ⟨codeword,folded,expected,hcodeword,hfold,hexpected,
    (hchunks 1 (by decide)).2 (by decide) (by decide)⟩

end Commutes

end Binius64.Ntt
