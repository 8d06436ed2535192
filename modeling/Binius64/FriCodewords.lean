import Binius64.FriQuery

/-!
# Codewords of batched messages

A codeword whose entries are repeated is that of a longer message that is zero above the shorter
one, and codewords add up like their messages.
-/

namespace Binius64.Fri

open Finset Ntt EqualityTensor InplaceEvaluation ButterflyNetwork
open LayerChecks (extrapolateLine)
open FriParams (greatest)
open List (length_append length_drop length_reverse reverse_append)

variable {F : Type} [Field F]

/-- A message that is zero above so many variables. -/
def place (k : ℕ) (m : Memory F) : Memory F := fun x => if x < 2 ^ k then m x else 0

variable (t : ℕ → ℕ → F)

theorem networkCodeword_congr (k ρ b : ℕ) {m m' : Memory F}
    (h : ∀ x < 2 ^ (k + b), m x = m' x) : networkCodeword t k ρ b m = networkCodeword t k ρ b m' := by
  rw [networkCodeword,networkCodeword]
  congr 1
  funext i
  exact h _ (reverseBits_lt _ _)

theorem networkCodeword_linear (k ρ b : ℕ) (a : F) (m m' : Memory F) :
    networkCodeword t k ρ b (a • m + m') = a • networkCodeword t k ρ b m + networkCodeword t k ρ b m' :=
  layers_linear t _ _ _ a _ _

theorem networkCodeword_zero (k ρ b : ℕ) : networkCodeword t k ρ b 0 = 0 := by
  have hlinear := networkCodeword_linear t k ρ b (-1) 0 0
  have hsame : (-1 : F) • (0 : Memory F) + 0 = 0 := by rw [smul_zero,add_zero]
  rw [hsame,neg_one_smul,neg_add_cancel] at hlinear
  exact hlinear

theorem networkCodeword_sum (k ρ b n : ℕ) (a : ℕ → F) (m : ℕ → Memory F) :
    networkCodeword t k ρ b (fun x => ∑ i ∈ range n, a i * m i x) =
      fun j => ∑ i ∈ range n, a i * networkCodeword t k ρ b (m i) j := by
  induction n with
  | zero =>
    simp only [range_zero,sum_empty]
    exact networkCodeword_zero t k ρ b
  | succ n ih =>
    have hsplit : (fun x => ∑ i ∈ range (n + 1), a i * m i x) =
        a n • m n + fun x => ∑ i ∈ range n, a i * m i x := by
      funext x
      rw [sum_range_succ,add_comm]
      rfl
    rw [hsplit,networkCodeword_linear,ih]
    funext j
    rw [sum_range_succ,add_comm]
    rfl

theorem networkCodeword_double (k ρ : ℕ) {m : Memory F} (h : ∀ x < 2 ^ k, m (x + 2 ^ k) = 0)
    (j : ℕ) : networkCodeword t (k + 1) ρ 0 m j = networkCodeword t k ρ 0 m (j / 2) := by
  have hlow : ∀ i, networkCodeword t k ρ 1 m (2 * i) = networkCodeword t k ρ 0 m i := by
    intro i
    have hlane := networkCodeword_lanes t k ρ 0 m 0 i
    rw [extrapolateLine,mul_zero,add_zero,add_zero] at hlane
    rw [hlane]
    refine congrFun (networkCodeword_congr t k ρ 0 fun x _ => ?_) i
    rw [foldHighest,extrapolateLine,mul_zero,add_zero]
  have hhigh : ∀ i, networkCodeword t k ρ 1 m (2 * i + 1) = 0 := by
    intro i
    have hlane := networkCodeword_lanes t k ρ 0 m 1 i
    rw [extrapolateLine,mul_one,add_sub_cancel,add_zero] at hlane
    have hzero : networkCodeword t k ρ 0 (foldHighest k 1 m) = networkCodeword t k ρ 0 0 := by
      refine networkCodeword_congr t k ρ 0 fun x hx => ?_
      rw [foldHighest,extrapolateLine,mul_one,add_sub_cancel,h x hx]
      rfl
    rw [hlane,hzero,networkCodeword_zero]
    rfl
  rw [networkCodeword_last,butterfly,pow_zero,Nat.div_one]
  obtain ⟨i,hi⟩ : ∃ i, j / 2 = i := ⟨_,rfl⟩
  by_cases heven : j % 2 = 0
  · have hj : j = 2 * i := by omega
    rw [if_pos heven,hi,hj,hlow,hhigh,zero_mul,add_zero]
  · have hj : j = 2 * i + 1 := by omega
    have hback : 2 * i + 1 - 1 = 2 * i := rfl
    rw [if_neg heven,hi,hj,hback,hlow,hhigh,zero_mul,add_zero,zero_add]

theorem networkCodeword_place (k ρ l : ℕ) (m : Memory F) (j : ℕ) :
    networkCodeword t (k + l) ρ 0 (place k m) j = networkCodeword t k ρ 0 m (j / 2 ^ l) := by
  induction l generalizing j with
  | zero =>
    rw [pow_zero,Nat.div_one]
    refine congrFun (networkCodeword_congr t k ρ 0 fun x hx => ?_) j
    exact if_pos hx
  | succ l ih =>
    have hzero : ∀ x < 2 ^ (k + l), place k m (x + 2 ^ (k + l)) = 0 := by
      intro x _
      have hle : 2 ^ k ≤ 2 ^ (k + l) := Nat.pow_le_pow_right (by decide) (Nat.le_add_right k l)
      exact if_neg (by omega)
    rw [←add_assoc,networkCodeword_double t (k + l) ρ hzero,ih,Nat.div_div_eq_div_mul,pow_succ']

variable (point : List F)

/-- A table with its highest variables fixed. -/
def topFold (w : ℕ) (m : Memory F) : Memory F := fun x =>
  ∑ e ∈ range (2 ^ point.length), eqTensor point.reverse e * m (e * 2 ^ w + x)

theorem foldlM_topFold (w : ℕ) (m : Memory F) :
    point.foldlM foldHighestVarInplace ⟨w + point.length,m⟩ = .ok ⟨w,topFold point w m⟩ := by
  induction point generalizing m with
  | nil =>
    have hsame : topFold [] w m = m := by
      funext x
      rw [topFold,List.length_nil,pow_zero,sum_range_one,List.reverse_nil,eqTensor,one_mul,zero_mul,zero_add]
    rw [hsame]
    rfl
  | cons r point ih =>
    have hstep : topFold point w (foldHighest (w + point.length) r m) = topFold (r :: point) w m := by
      funext x
      have hpow : 2 ^ (w + point.length) = 2 ^ point.length * 2 ^ w := by rw [add_comm,pow_add]
      rw [topFold,topFold,List.length_cons,pow_succ,mul_two,sum_range_add,←sum_add_distrib]
      refine sum_congr rfl fun e he => ?_
      have hlt := mem_range.mp he
      have hlow : (r :: point).reverse = point.reverse ++ [r] := List.reverse_cons
      have hlen : point.reverse.length = point.length := length_reverse
      have hupper : eqTensor point.reverse (2 ^ point.length + e) = eqTensor point.reverse e := by
        rw [←eqTensor_mod point.reverse (2 ^ point.length + e),hlen,Nat.add_mod_left,←hlen,eqTensor_mod]
      have hone : (2 ^ point.length + e) / 2 ^ point.length = 1 := by
        rw [Nat.add_div_left _ (Nat.two_pow_pos _),Nat.div_eq_of_lt hlt]
      have hcell : e * 2 ^ w + x + 2 ^ (w + point.length) = (2 ^ point.length + e) * 2 ^ w + x := by
        rw [hpow]
        ring
      rw [hlow,eqTensor_append,eqTensor_append,hlen,Nat.div_eq_of_lt hlt,hone,hupper,foldHighest,
        extrapolateLine,hcell]
      simp only [eqTensor,Nat.zero_mod,if_true,if_neg (by decide : ¬1 % 2 = 0),mul_one]
      ring
    have hlen : w + (r :: point).length = w + point.length + 1 := rfl
    rw [List.foldlM_cons,hlen,foldHighestVarInplace_run rfl,CheckedRun.ok_bind,ih,hstep]

theorem sum_window {q : ℕ} (hq : q ≤ point.length) (g : ℕ → F) :
    ∑ e ∈ range (2 ^ point.length), eqTensor point.reverse e * g (e % 2 ^ q) =
      ∑ e ∈ range (2 ^ q), eqTensor (point.drop (point.length - q)).reverse e * g e := by
  obtain ⟨first,last,hsplit,hlast⟩ : ∃ first last, point = first ++ last ∧ last.length = q := by
    refine ⟨point.take (point.length - q),point.drop (point.length - q),(List.take_append_drop _ _).symm,?_⟩
    rw [length_drop]
    omega
  have hdrop : point.drop (point.length - q) = last := by
    rw [hsplit,length_append,hlast,Nat.add_sub_cancel,List.drop_left]
  have hlen : last.reverse.length = q := by rw [length_reverse,hlast]
  have hsize : 2 ^ point.length = 2 ^ q * 2 ^ first.reverse.length := by
    rw [←pow_add,hsplit,length_append,length_reverse,hlast,add_comm]
  rw [hdrop,hsize,sum_range_mul]
  have hinner : ∀ h ∈ range (2 ^ first.reverse.length), ∑ l ∈ range (2 ^ q),
      eqTensor point.reverse (h * 2 ^ q + l) * g ((h * 2 ^ q + l) % 2 ^ q) =
        eqTensor first.reverse h * ∑ l ∈ range (2 ^ q), eqTensor last.reverse l * g l := by
    intro h _
    rw [mul_sum]
    refine sum_congr rfl fun l hl => ?_
    have hlt := mem_range.mp hl
    rw [hsplit,reverse_append,eqTensor_split _ _ hlen hlt,(split_bits hlt).2]
    ring
  rw [sum_congr rfl hinner,←sum_mul,sum_eqTensor,one_mul]

theorem eqTensor_reverse (i : ℕ) :
    eqTensor point.reverse (reverseBits i point.length) = eqTensor point i := by
  induction point generalizing i with
  | nil => rfl
  | cons r point ih =>
    have hlt := reverseBits_lt (i / 2) point.length
    have hlen : point.reverse.length = point.length := length_reverse
    rw [List.reverse_cons,List.length_cons,reverseBits,eqTensor_split _ _ hlen hlt,ih,eqTensor,eqTensor,
      eqTensor,Nat.mod_mod]
    ring

theorem sum_reverseBits {A : Type} [AddCommMonoid A] (n : ℕ) (g : ℕ → A) :
    ∑ o ∈ range (2 ^ n), g o = ∑ i ∈ range (2 ^ n), g (reverseBits i n) := by
  refine (sum_bij (fun i _ => reverseBits i n) (fun i _ => mem_range.mpr (reverseBits_lt i n)) ?_ ?_
    fun _ _ => rfl).symm
  · intro a ha b hb hab
    have hback := congrArg (reverseBits · n) hab
    simp only [reverseBits_reverseBits (mem_range.mp ha),reverseBits_reverseBits (mem_range.mp hb)] at hback
    exact hback
  · intro o ho
    exact ⟨reverseBits o n,mem_range.mpr (reverseBits_lt o n),reverseBits_reverseBits (mem_range.mp ho)⟩

namespace FriParams

/-- The number of batch challenges before the outer ones. -/
def maxEarly (params : FriParams) : ℕ := greatest (params.inputOracles.map CodewordSpec.logEarlyBatchSize)

/-- The number of batch challenges after the outer ones. -/
def maxLater (params : FriParams) : ℕ := greatest (params.inputOracles.map CodewordSpec.logLaterBatchSize)

theorem le_greatest {ns : List ℕ} {n : ℕ} (h : n ∈ ns) : n ≤ greatest ns := by
  rw [greatest,List.foldl_max_eq_max (List.ne_nil_of_mem h)]
  exact le_max_of_le_right (List.le_max_of_mem h)

end FriParams

def CodewordSpec.window {A : Type} (spec : CodewordSpec) (early later : List A) : List A :=
  early.drop (early.length - spec.logEarlyBatchSize) ++ later.drop (later.length - spec.logLaterBatchSize)

/-- A message in its place among the variables of the batch: it is repeated over the batch variables
that it does not have, and zero above the variables of its own codeword. -/
def memberEntry (logDim : ℕ) (spec : CodewordSpec) (message : Memory F) (e la f : ℕ) : F :=
  place (logDim - spec.logLift) (fun x => message ((e % 2 ^ spec.logEarlyBatchSize *
    2 ^ spec.logLaterBatchSize + la % 2 ^ spec.logLaterBatchSize) * 2 ^ (logDim - spec.logLift) + x)) f

variable (params : FriParams) (messages : List (Buffer F))

/-- The entry of the combined message, by its early, outer and later batch variables and the variables of
the codeword. -/
def combinedEntry (e o la f : ℕ) : F :=
  match params.inputOracles[reverseBits o params.logNOracles]?,
    messages[reverseBits o params.logNOracles]? with
  | some spec,some message => memberEntry params.rsCode.logDimension spec message.scalars e la f
  | _,_ => 0

/-- The combined message: its variables are, from the highest, the early ones, the outer ones, the
later ones and those of the codeword. -/
def combinedMessage : Buffer F :=
  let logDim := params.rsCode.logDimension
  ⟨params.logMsgLen,fun idx => combinedEntry params messages
    (idx / 2 ^ logDim / 2 ^ params.maxLater / 2 ^ params.logNOracles)
    (idx / 2 ^ logDim / 2 ^ params.maxLater % 2 ^ params.logNOracles)
    (idx / 2 ^ logDim % 2 ^ params.maxLater) (idx % 2 ^ logDim)⟩

theorem sum_memberEntry (logDim : ℕ) (spec : CodewordSpec) (message : Memory F) {early later : List F}
    (he : spec.logEarlyBatchSize ≤ early.length) (hl : spec.logLaterBatchSize ≤ later.length) (f : ℕ) :
    ∑ e ∈ range (2 ^ early.length), eqTensor early.reverse e * ∑ la ∈ range (2 ^ later.length),
      eqTensor later.reverse la * memberEntry logDim spec message e la f =
        place (logDim - spec.logLift)
          (topFold (spec.window early later) (logDim - spec.logLift) message) f := by
  simp only [memberEntry,place]
  by_cases hf : f < 2 ^ (logDim - spec.logLift)
  · simp only [if_pos hf]
    have hinner : ∀ e, ∑ la ∈ range (2 ^ later.length), eqTensor later.reverse la *
        message ((e % 2 ^ spec.logEarlyBatchSize * 2 ^ spec.logLaterBatchSize +
          la % 2 ^ spec.logLaterBatchSize) * 2 ^ (logDim - spec.logLift) + f) = _ := fun e =>
      sum_window later hl fun la => message ((e % 2 ^ spec.logEarlyBatchSize *
        2 ^ spec.logLaterBatchSize + la) * 2 ^ (logDim - spec.logLift) + f)
    have houter := sum_window early he fun e => ∑ la ∈ range (2 ^ spec.logLaterBatchSize),
      eqTensor (later.drop (later.length - spec.logLaterBatchSize)).reverse la *
        message ((e * 2 ^ spec.logLaterBatchSize + la) * 2 ^ (logDim - spec.logLift) + f)
    simp only [hinner,houter]
    have hearly : (early.drop (early.length - spec.logEarlyBatchSize)).length = spec.logEarlyBatchSize := by
      rw [length_drop]
      omega
    have hlen : (later.drop (later.length - spec.logLaterBatchSize)).length = spec.logLaterBatchSize := by
      rw [length_drop]
      omega
    have hlater : (later.drop (later.length - spec.logLaterBatchSize)).reverse.length =
        spec.logLaterBatchSize := length_reverse.trans hlen
    have hsize : 2 ^ (spec.window early later).length =
        2 ^ spec.logLaterBatchSize * 2 ^ spec.logEarlyBatchSize := by
      rw [CodewordSpec.window,length_append,hearly,hlen,pow_add,mul_comm]
    rw [topFold,hsize,sum_range_mul]
    refine sum_congr rfl fun e he => ?_
    rw [mul_sum]
    refine sum_congr rfl fun la hla => ?_
    rw [CodewordSpec.window,reverse_append,eqTensor_split _ _ hlater (mem_range.mp hla)]
    ring
  · simp only [if_neg hf,mul_zero,sum_const_zero]

/-- What a message contributes to the first fold. -/
def memberFold (early later : List F) (i : ℕ) : Memory F :=
  match params.inputOracles[i]?,messages[i]? with
  | some spec,some message => place (params.rsCode.logDimension - spec.logLift)
      (topFold (spec.window early later) (params.rsCode.logDimension - spec.logLift) message.scalars)
  | _,_ => 0

theorem topFold_combinedMessage
    {early outer later : List F} (he : early.length = params.maxEarly) (ho : outer.length = params.logNOracles)
    (hl : later.length = params.maxLater) {f : ℕ} (hf : f < 2 ^ params.rsCode.logDimension) :
    topFold (early ++ outer ++ later) params.rsCode.logDimension (combinedMessage params messages).scalars f =
      ∑ i ∈ range (2 ^ params.logNOracles), eqTensor outer i * memberFold params messages early later i f := by
  have hmember : ∀ i < 2 ^ params.logNOracles, ∑ e ∈ range (2 ^ early.length), eqTensor early.reverse e *
      ∑ la ∈ range (2 ^ later.length), eqTensor later.reverse la *
        combinedEntry params messages e (reverseBits i params.logNOracles) la f =
          memberFold params messages early later i f := by
    intro i hi
    simp only [combinedEntry,memberFold,reverseBits_reverseBits hi]
    cases hspec : params.inputOracles[i]? with
    | none => simp only [mul_zero,sum_const_zero,Pi.zero_apply]
    | some spec =>
      have hmem := List.mem_of_getElem? hspec
      cases messages[i]? with
      | none => simp only [mul_zero,sum_const_zero,Pi.zero_apply]
      | some message =>
        refine sum_memberEntry _ spec message.scalars ?_ ?_ f
        · rw [he]
          exact FriParams.le_greatest (List.mem_map_of_mem hmem)
        · rw [hl]
          exact FriParams.le_greatest (List.mem_map_of_mem hmem)
  have hcell : ∀ e o la, o < 2 ^ params.logNOracles → la < 2 ^ params.maxLater →
      (combinedMessage params messages).scalars
        (((e * 2 ^ params.logNOracles + o) * 2 ^ params.maxLater + la) * 2 ^ params.rsCode.logDimension + f) =
          combinedEntry params messages e o la f := by
    intro e o la ho hla
    simp only [combinedMessage,(split_bits hf).1,(split_bits hf).2,(split_bits hla).1,(split_bits hla).2,
      (split_bits ho).1,(split_bits ho).2]
  have hsize : 2 ^ (early ++ outer ++ later).length =
      2 ^ later.length * (2 ^ outer.length * 2 ^ early.length) := by
    rw [length_append,length_append,pow_add,pow_add]
    ring
  have htensor : ∀ e o la, o < 2 ^ outer.length → la < 2 ^ later.length →
      eqTensor (early ++ outer ++ later).reverse ((e * 2 ^ outer.length + o) * 2 ^ later.length + la) =
        eqTensor later.reverse la * (eqTensor outer.reverse o * eqTensor early.reverse e) := by
    intro e o la ho hla
    rw [reverse_append,reverse_append,eqTensor_split _ _ length_reverse hla,
      eqTensor_split _ _ length_reverse ho]
  rw [topFold,hsize,sum_range_mul,sum_range_mul]
  have hterm : ∀ e ∈ range (2 ^ early.length), ∑ o ∈ range (2 ^ outer.length),
      ∑ la ∈ range (2 ^ later.length),
        eqTensor (early ++ outer ++ later).reverse ((e * 2 ^ outer.length + o) * 2 ^ later.length + la) *
          (combinedMessage params messages).scalars
            (((e * 2 ^ outer.length + o) * 2 ^ later.length + la) * 2 ^ params.rsCode.logDimension + f) =
        ∑ i ∈ range (2 ^ outer.length), eqTensor outer i * (eqTensor early.reverse e *
          ∑ la ∈ range (2 ^ later.length), eqTensor later.reverse la *
            combinedEntry params messages e (reverseBits i params.logNOracles) la f) := by
    intro e _
    rw [sum_reverseBits outer.length]
    refine sum_congr rfl fun i hi => ?_
    have hrev := reverseBits_lt i outer.length
    rw [mul_sum,mul_sum]
    refine sum_congr rfl fun la hla => ?_
    have hla' := mem_range.mp hla
    rw [htensor e _ la hrev hla',eqTensor_reverse,ho,hl,hcell e _ la (ho ▸ hrev) (hl ▸ hla')]
    ring
  rw [sum_congr rfl hterm,sum_comm,ho]
  refine sum_congr rfl fun i hi => ?_
  rw [←mul_sum,hmember i (mem_range.mp hi)]

end Binius64.Fri
