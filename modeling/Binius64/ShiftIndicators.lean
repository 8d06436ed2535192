import Binius64.EqualityTensor
import Binius64.ShiftAlgebra

/-!
# Shift indicators

Whether an output bit of a shift reads an input bit at an amount, as a function of three indices,
and its multilinear extension in all of their bits.
-/

namespace Binius64.ShiftIndicators

open Finset CheckedRun EqualityTensor ShiftAlgebra MachineWord
open LayerChecks (extrapolateLine)
open Ntt (AssertFailure require require_true)
open List (append_nil getD_append getD_append_right getD_eq_getElem?_getD getElem?_take
  length_append length_cons length_drop length_replicate length_take nil_append replicate take_left'
  take_zero zip_cons_cons)
open Nat (div_eq_of_lt mod_eq_of_lt mod_lt sub_le)

variable {F : Type} [Field F]

def wordLogBits : ℕ := 6

def halfWordLogBits : ℕ := wordLogBits - 1

section Automaton

variable [DecidableEq F]

/-- One position of the addition: the state without a carry and the one with it. -/
def sumStep (state : F × F) (entry : (F × F) × F) : F × F :=
  let i := entry.1.1
  let j := entry.1.2
  let s := entry.2
  let both := j * s
  let jOnly := j - both
  let sOnly := s - both
  let agree := eqOneVar j s
  (extrapolateLine (agree * state.1 + jOnly * state.2) (jOnly * state.1) i,
    extrapolateLine (sOnly * state.2) (sOnly * state.1 + agree * state.2) i)

/-- The indicators that the sum is the input index, and that it is so after it wraps. -/
def evaluateSumInds (ri rj rs : List F) : F × F := ((ri.zip rj).zip rs).foldl sumStep (1,0)

/-- One position of the addition when only its carry matters. -/
def overflowStep (carry : F) (entry : F × F) : F :=
  let i := entry.1
  let s := entry.2
  extrapolateLine (s * carry) (s + (1 - s) * carry) i

def evaluateOverflowInd (ri rs : List F) : F := (ri.zip rs).foldl overflowStep 0

/-- The four indicators over some bit variables, in variant order. -/
def evaluateVariants (ri rj rs : List F) : F × F × F × F :=
  let (srl,wrapped) := evaluateSumInds ri rj rs
  let (sll,_) := evaluateSumInds rj ri rs
  let signPosition := rj.prod
  let sra := srl + signPosition * evaluateOverflowInd ri rs
  let rotr := srl + wrapped
  (sll,srl,sra,rotr)

/-- The eight shift indicators, in variant order. -/
def evaluateShiftInds (ri rj rs : List F) : Except AssertFailure (List F) := do
  require (ri.length = wordLogBits)
  require (rj.length = wordLogBits)
  require (rs.length = wordLogBits)
  let (sll,srl,sra,rotr) := evaluateVariants ri rj rs
  let (sll32,srl32,sra32,rotr32) := evaluateVariants (ri.take halfWordLogBits) (rj.take halfWordLogBits)
    (rs.take halfWordLogBits)
  let sameHalf := eqOneVar (ri.getD halfWordLogBits 0) (rj.getD halfWordLogBits 0)
  return [sll,srl,sra,rotr,sameHalf * sll32,sameHalf * srl32,sameHalf * sra32,sameHalf * rotr32]

end Automaton

def ind (p : Prop) [Decidable p] : F := if p then 1 else 0

theorem ind_congr {p q : Prop} [Decidable p] [Decidable q] (h : p ↔ q) : (ind p : F) = ind q :=
  if_congr h rfl rfl

theorem ind_of_not {p : Prop} [Decidable p] (h : ¬p) : (ind p : F) = 0 := if_neg h

theorem ind_of {p : Prop} [Decidable p] (h : p) : (ind p : F) = 1 := if_pos h

/-- The multilinear extension of a function of an output index, an input index and an amount. -/
def mle3 (ri rj rs : List F) (f : ℕ → ℕ → ℕ → F) : F :=
  mle ri fun i => mle rj fun j => mle rs fun s => f i j s

theorem mle3_congr {ri rj rs : List F} {f g : ℕ → ℕ → ℕ → F}
    (h : ∀ i < 2 ^ ri.length, ∀ j < 2 ^ rj.length, ∀ s < 2 ^ rs.length, f i j s = g i j s) :
    mle3 ri rj rs f = mle3 ri rj rs g :=
  mle_congr fun i hi => mle_congr fun j hj => mle_congr fun s hs => h i hi j hj s hs

theorem mle3_add (ri rj rs : List F) (f g : ℕ → ℕ → ℕ → F) :
    mle3 ri rj rs (fun i j s => f i j s + g i j s) = mle3 ri rj rs f + mle3 ri rj rs g := by
  simp only [mle3,mle_add]

theorem mle3_cons (a b c : F) (ri rj rs : List F) (f : ℕ → ℕ → ℕ → F) :
    mle3 (a :: ri) (b :: rj) (c :: rs) f = mle3 ri rj rs fun i j s =>
      (1 - a) * ((1 - b) * ((1 - c) * f (2 * i) (2 * j) (2 * s) + c * f (2 * i) (2 * j) (2 * s + 1)) +
        b * ((1 - c) * f (2 * i) (2 * j + 1) (2 * s) + c * f (2 * i) (2 * j + 1) (2 * s + 1))) +
      a * ((1 - b) * ((1 - c) * f (2 * i + 1) (2 * j) (2 * s) + c * f (2 * i + 1) (2 * j) (2 * s + 1)) +
        b * ((1 - c) * f (2 * i + 1) (2 * j + 1) (2 * s) + c * f (2 * i + 1) (2 * j + 1) (2 * s + 1))) := by
  simp only [mle3,mle_cons,mle_add,mle_mul_left]
  ring

theorem overflowStep_bits (y a c : F) (i s m : ℕ) :
    (1 - overflowStep y (a,c)) * ind (m ≤ i + s) + overflowStep y (a,c) * ind (m ≤ i + s + 1) =
      (1 - a) * ((1 - c) * ((1 - y) * ind (2 * m ≤ 2 * i + 2 * s) + y * ind (2 * m ≤ 2 * i + 2 * s + 1)) +
        c * ((1 - y) * ind (2 * m ≤ 2 * i + (2 * s + 1)) + y * ind (2 * m ≤ 2 * i + (2 * s + 1) + 1))) +
      a * ((1 - c) * ((1 - y) * ind (2 * m ≤ 2 * i + 1 + 2 * s) + y * ind (2 * m ≤ 2 * i + 1 + 2 * s + 1)) +
        c * ((1 - y) * ind (2 * m ≤ 2 * i + 1 + (2 * s + 1)) +
          y * ind (2 * m ≤ 2 * i + 1 + (2 * s + 1) + 1))) := by
  have hsame : ∀ p : Prop, ∀ [Decidable p], (p ↔ m ≤ i + s) → (ind p : F) = ind (m ≤ i + s) := fun p _ h =>
    ind_congr h
  have hcarry : ∀ p : Prop, ∀ [Decidable p], (p ↔ m ≤ i + s + 1) → (ind p : F) = ind (m ≤ i + s + 1) :=
    fun p _ h => ind_congr h
  rw [hsame (2 * m ≤ 2 * i + 2 * s) (by omega),hsame (2 * m ≤ 2 * i + 2 * s + 1) (by omega),
    hsame (2 * m ≤ 2 * i + (2 * s + 1)) (by omega),hcarry (2 * m ≤ 2 * i + (2 * s + 1) + 1) (by omega),
    hsame (2 * m ≤ 2 * i + 1 + 2 * s) (by omega),hcarry (2 * m ≤ 2 * i + 1 + 2 * s + 1) (by omega),
    hcarry (2 * m ≤ 2 * i + 1 + (2 * s + 1)) (by omega),hcarry (2 * m ≤ 2 * i + 1 + (2 * s + 1) + 1) (by omega)]
  simp only [overflowStep,extrapolateLine]
  ring

theorem overflowInd_run {ri rs : List F} (hs : rs.length = ri.length) (y : F) :
    (ri.zip rs).foldl overflowStep y = mle ri fun i => mle rs fun s =>
      (1 - y) * ind (2 ^ ri.length ≤ i + s) + y * ind (2 ^ ri.length ≤ i + s + 1) := by
  induction ri generalizing rs y with
  | nil =>
    rw [List.length_eq_zero_iff.mp hs]
    simp [mle_nil,ind]
  | cons a ri ih =>
    cases rs with
    | nil => cases hs
    | cons c rs =>
      have hpow : 2 ^ (a :: ri).length = 2 * 2 ^ ri.length := by rw [length_cons,pow_succ']
      rw [zip_cons_cons,List.foldl_cons,ih (Nat.succ.inj hs),hpow]
      simp only [mle_cons,←mle_mul_left,←mle_add]
      exact mle_congr fun i _ => mle_congr fun s _ => overflowStep_bits y a c i s _

theorem evaluateOverflowInd_eq {ri rs : List F} (hs : rs.length = ri.length) :
    evaluateOverflowInd ri rs = mle ri fun i => mle rs fun s => ind (2 ^ ri.length ≤ i + s) := by
  rw [evaluateOverflowInd,overflowInd_run hs]
  simp only [sub_zero,one_mul,zero_mul,add_zero]

section Addition

variable [DecidableEq F]

theorem sumStep_bits (x y a b c : F) (i J s : ℕ) :
    let entry := ((a,b),c)
    (sumStep (x,y) entry).1 * ind (i + s = J) + (sumStep (x,y) entry).2 * ind (i + s + 1 = J) =
      (1 - a) * ((1 - b) *
          ((1 - c) * (x * ind (2 * i + 2 * s = 2 * J) + y * ind (2 * i + 2 * s + 1 = 2 * J)) +
            c * (x * ind (2 * i + (2 * s + 1) = 2 * J) + y * ind (2 * i + (2 * s + 1) + 1 = 2 * J))) +
        b * ((1 - c) * (x * ind (2 * i + 2 * s = 2 * J + 1) + y * ind (2 * i + 2 * s + 1 = 2 * J + 1)) +
          c * (x * ind (2 * i + (2 * s + 1) = 2 * J + 1) + y * ind (2 * i + (2 * s + 1) + 1 = 2 * J + 1)))) +
      a * ((1 - b) *
          ((1 - c) * (x * ind (2 * i + 1 + 2 * s = 2 * J) + y * ind (2 * i + 1 + 2 * s + 1 = 2 * J)) +
            c * (x * ind (2 * i + 1 + (2 * s + 1) = 2 * J) + y * ind (2 * i + 1 + (2 * s + 1) + 1 = 2 * J))) +
        b * ((1 - c) * (x * ind (2 * i + 1 + 2 * s = 2 * J + 1) + y * ind (2 * i + 1 + 2 * s + 1 = 2 * J + 1)) +
          c * (x * ind (2 * i + 1 + (2 * s + 1) = 2 * J + 1) +
            y * ind (2 * i + 1 + (2 * s + 1) + 1 = 2 * J + 1)))) := by
  intro entry
  have hsame : ∀ p : Prop, ∀ [Decidable p], (p ↔ i + s = J) → (ind p : F) = ind (i + s = J) := fun p _ h =>
    ind_congr h
  have hcarry : ∀ p : Prop, ∀ [Decidable p], (p ↔ i + s + 1 = J) → (ind p : F) = ind (i + s + 1 = J) :=
    fun p _ h => ind_congr h
  rw [hsame (2 * i + 2 * s = 2 * J) (by omega),ind_of_not (by omega : ¬2 * i + 2 * s + 1 = 2 * J),
    ind_of_not (by omega : ¬2 * i + (2 * s + 1) = 2 * J),hcarry (2 * i + (2 * s + 1) + 1 = 2 * J) (by omega),
    ind_of_not (by omega : ¬2 * i + 2 * s = 2 * J + 1),hsame (2 * i + 2 * s + 1 = 2 * J + 1) (by omega),
    hsame (2 * i + (2 * s + 1) = 2 * J + 1) (by omega),
    ind_of_not (by omega : ¬2 * i + (2 * s + 1) + 1 = 2 * J + 1),
    ind_of_not (by omega : ¬2 * i + 1 + 2 * s = 2 * J),hcarry (2 * i + 1 + 2 * s + 1 = 2 * J) (by omega),
    hcarry (2 * i + 1 + (2 * s + 1) = 2 * J) (by omega),
    ind_of_not (by omega : ¬2 * i + 1 + (2 * s + 1) + 1 = 2 * J),
    hsame (2 * i + 1 + 2 * s = 2 * J + 1) (by omega),ind_of_not (by omega : ¬2 * i + 1 + 2 * s + 1 = 2 * J + 1),
    ind_of_not (by omega : ¬2 * i + 1 + (2 * s + 1) = 2 * J + 1),
    hcarry (2 * i + 1 + (2 * s + 1) + 1 = 2 * J + 1) (by omega)]
  simp only [entry,sumStep,extrapolateLine,eqOneVar_eq]
  ring

theorem sumInds_run {ri rj rs : List F} (hj : rj.length = ri.length) (hs : rs.length = ri.length) (x y : F) :
    ((ri.zip rj).zip rs).foldl sumStep (x,y) =
      (mle3 ri rj rs fun i j s => x * ind (i + s = j) + y * ind (i + s + 1 = j),
        mle3 ri rj rs fun i j s =>
          x * ind (i + s = j + 2 ^ ri.length) + y * ind (i + s + 1 = j + 2 ^ ri.length)) := by
  induction ri generalizing rj rs x y with
  | nil =>
    rw [List.length_eq_zero_iff.mp hj,List.length_eq_zero_iff.mp hs]
    simp [mle3,mle_nil,ind]
  | cons a ri ih =>
    cases rj with
    | nil => cases hj
    | cons b rj =>
      cases rs with
      | nil => cases hs
      | cons c rs =>
        rw [zip_cons_cons,zip_cons_cons,List.foldl_cons,ih (Nat.succ.inj hj) (Nat.succ.inj hs),mle3_cons,
          mle3_cons]
        refine Prod.ext (mle3_congr fun i _ j _ s _ => sumStep_bits x y a b c i j s)
          (mle3_congr fun i _ j _ s _ => ?_)
        have hpow : 2 ^ (a :: ri).length = 2 * 2 ^ ri.length := by rw [length_cons,pow_succ']
        have hlow : 2 * j + 2 * 2 ^ ri.length = 2 * (j + 2 ^ ri.length) := by ring
        have hodd : 2 * j + 1 + 2 * 2 ^ ri.length = 2 * (j + 2 ^ ri.length) + 1 := by ring
        rw [hpow,hlow,hodd]
        exact sumStep_bits x y a b c i (j + 2 ^ ri.length) s

theorem evaluateSumInds_eq {ri rj rs : List F} (hj : rj.length = ri.length) (hs : rs.length = ri.length) :
    evaluateSumInds ri rj rs = (mle3 ri rj rs fun i j s => ind (i + s = j),
      mle3 ri rj rs fun i j s => ind (i + s = j + 2 ^ ri.length)) := by
  rw [evaluateSumInds,sumInds_run hj hs]
  simp only [one_mul,zero_mul,add_zero]

end Addition

/-- When an output index of a variant over so many bits reads an input index at an amount. -/
def rule : ShiftVariant → ℕ → ℕ → ℕ → ℕ → Prop
  | .sll,_,i,j,s | .sll32,_,i,j,s => j + s = i
  | .slr,_,i,j,s | .srl32,_,i,j,s => i + s = j
  | .sar,width,i,j,s | .sra32,width,i,j,s => j = min (i + s) (width - 1)
  | .rotr,width,i,j,s | .rotr32,width,i,j,s => j = (i + s) % width

instance (v : ShiftVariant) (width i j s : ℕ) : Decidable (rule v width i j s) := by
  cases v <;> exact inferInstanceAs (Decidable (_ = _))

variable (v : ShiftVariant)

/-- The indicator of a variant, the amount read modulo the width it acts over. -/
def indicator (i j s : ℕ) : F := ind (v.source (s % v.maxAmount) i = some j)

/-- An output bit is a copy of an input bit, whatever the word. -/
def Reads (amount i j : ℕ) : Prop :=
  ∀ w : Word, (v.apply w amount).getLsbD i = w.getLsbD j

variable {amount : ℕ}

theorem reads_iff {v : ShiftVariant} {i j : ℕ} (hamount : amount < v.maxAmount) (hi : i < 64)
    (hj : j < 64) : Reads v amount i j ↔ v.source amount i = some j := by
  constructor
  · intro hreads
    have hbit : ∀ w : Word, readBit w (v.source amount i) = w.getLsbD j := fun w => by
      rw [←apply_bit v w hamount hi]
      exact hreads w
    cases hsource : v.source amount i with
    | none =>
      have hone := hbit (BitVec.allOnes 64)
      rw [hsource,readBit_none,BitVec.getLsbD_allOnes,decide_eq_true hj] at hone
      cases hone
    | some k =>
      have hk := source_lt hi hsource
      have hsingle := hbit (BitVec.twoPow 64 j)
      rw [hsource,readBit_some,BitVec.getLsbD_twoPow,BitVec.getLsbD_twoPow,decide_eq_true hj,decide_eq_true rfl,
        Bool.true_and,Bool.true_and] at hsingle
      rw [of_decide_eq_true hsingle]
  · intro hsource w
    rw [apply_bit v w hamount hi,hsource,readBit_some]

theorem source_iff {i j s : ℕ} (hi : i < 64) (hj : j < 64) :
    v.source (s % v.maxAmount) i = some j ↔ i / v.maxAmount = j / v.maxAmount ∧
      rule v v.maxAmount (i % v.maxAmount) (j % v.maxAmount) (s % v.maxAmount) := by
  cases v <;>
    simp only [ShiftVariant.source,ShiftVariant.maxAmount,ShiftVariant.isHalfWord,if_true,Bool.false_eq_true,
      if_false,Option.ite_none_right_eq_some,Option.some.injEq,rule] <;>
    omega

section Variants

variable [DecidableEq F]

theorem evaluateVariants_eq {ri rj rs : List F} (hj : rj.length = ri.length) (hs : rs.length = ri.length) :
    evaluateVariants ri rj rs = (mle3 ri rj rs fun i j s => ind (rule .sll (2 ^ ri.length) i j s),
      mle3 ri rj rs fun i j s => ind (rule .slr (2 ^ ri.length) i j s),
      mle3 ri rj rs fun i j s => ind (rule .sar (2 ^ ri.length) i j s),
      mle3 ri rj rs fun i j s => ind (rule .rotr (2 ^ ri.length) i j s)) := by
  have hpos := Nat.two_pow_pos ri.length
  rw [evaluateVariants,evaluateSumInds_eq hj hs,evaluateSumInds_eq hj.symm (hs.trans hj.symm),
    evaluateOverflowInd_eq hs]
  refine Prod.ext ?_ (Prod.ext rfl (Prod.ext ?_ ?_))
  · exact mle_comm rj ri fun j i => mle rs fun s => ind (j + s = i)
  · have hsign : rj.prod = mle rj fun j => ind (j = 2 ^ ri.length - 1) := by
      rw [←eqTensor_last,hj]
      exact (mle_single rj (by rw [hj]; omega)).symm
    have hproduct : (rj.prod * mle ri fun i => mle rs fun s => ind (2 ^ ri.length ≤ i + s)) =
        mle3 ri rj rs fun i j s => ind (2 ^ ri.length ≤ i + s) * ind (j = 2 ^ ri.length - 1) := by
      rw [mle3,←mle_mul_left]
      refine mle_congr fun i _ => ?_
      rw [mul_comm,hsign,←mle_mul_left]
      refine mle_congr fun j _ => ?_
      rw [mul_comm,←mle_mul_left]
      exact mle_congr fun s _ => mul_comm _ _
    dsimp only
    rw [hproduct,←mle3_add]
    refine mle3_congr fun i hi j hj' s hs' => ?_
    rw [hj] at hj'
    -- past the top only the last index is read, and below it the sum itself
    by_cases hover : 2 ^ ri.length ≤ i + s
    · rw [ind_of_not (by omega),ind_of hover,zero_add,one_mul]
      exact ind_congr (by rw [rule]; omega)
    · rw [ind_of_not hover,zero_mul,add_zero]
      exact ind_congr (by rw [rule]; omega)
  · dsimp only
    rw [←mle3_add]
    refine mle3_congr fun i hi j hj' s hs' => ?_
    rw [hj] at hj'
    rw [hs] at hs'
    by_cases hover : 2 ^ ri.length ≤ i + s
    · have hmod : (i + s) % 2 ^ ri.length = i + s - 2 ^ ri.length := by
        rw [Nat.mod_eq_sub_mod hover,mod_eq_of_lt (by omega)]
      rw [ind_of_not (by omega),zero_add]
      exact ind_congr (by rw [rule,hmod]; omega)
    · rw [ind_of_not (by omega : ¬i + s = j + 2 ^ ri.length),add_zero]
      exact ind_congr (by rw [rule,mod_eq_of_lt (by omega)]; omega)

theorem mle3_half (a b c : F) {ri rj rs : List F} (hj : rj.length = ri.length) (hs : rs.length = ri.length)
    (f : ℕ → ℕ → ℕ → F) :
    mle3 (ri ++ [a]) (rj ++ [b]) (rs ++ [c]) (fun i j s => ind (i / 2 ^ ri.length = j / 2 ^ ri.length) *
      f (i % 2 ^ ri.length) (j % 2 ^ ri.length) (s % 2 ^ ri.length)) = eqOneVar a b * mle3 ri rj rs f := by
  have hamount : ∀ p : F, ∀ g : ℕ → F, mle (rs ++ [c]) (fun s => p * g (s % 2 ^ ri.length)) = p * mle rs g := by
    intro p g
    have hhigh := mle_high rs c fun _ s => p * g s
    rw [hs] at hhigh
    rw [hhigh,mle_mul_left]
    ring
  have hinput : ∀ (h : ℕ) (g : ℕ → ℕ → F), mle (rj ++ [b]) (fun j => mle (rs ++ [c]) fun s =>
      ind (h = j / 2 ^ ri.length) * g (j % 2 ^ ri.length) (s % 2 ^ ri.length)) =
        ((1 - b) * ind (h = 0) + b * ind (h = 1)) * mle rj fun j => mle rs (g j) := by
    intro h g
    simp only [hamount]
    have hhigh := mle_high rj b fun top j => ind (h = top) * mle rs (g j)
    rw [hj] at hhigh
    rw [hhigh,mle_mul_left,mle_mul_left]
    ring
  rw [mle3]
  simp only [hinput]
  rw [mle_high ri a fun top i => ((1 - b) * ind (top = 0) + b * ind (top = 1)) * mle rj fun j => mle rs (f i j),
    mle_mul_left,mle_mul_left,ind_of rfl,ind_of_not zero_ne_one,ind_of_not one_ne_zero,ind_of rfl,eqOneVar_eq,mle3]
  ring

theorem evaluateShiftInds_run {ri rj rs : List F} (hi : ri.length = 6) (hj : rj.length = 6) (hs : rs.length = 6) :
    ∃ inds, evaluateShiftInds ri rj rs = .ok inds ∧ inds.length = 8 ∧
      ∀ v : ShiftVariant, inds[v.toU8]? = some (mle3 ri rj rs (indicator v)) := by
  have hsplit : ∀ {r : List F}, r.length = 6 → r = r.take 5 ++ [r.getD 5 0] ∧ (r.take 5).length = 5 := by
    intro r hr
    refine ⟨?_,by rw [length_take,hr]; rfl⟩
    have htake := List.take_succ_eq_append_getElem (show 5 < r.length by omega)
    rw [List.take_of_length_le hr.le] at htake
    rw [List.getD_eq_getElem _ _ (by omega)]
    exact htake
  have hpow : ∀ {r : List F}, r.length = 6 → 2 ^ r.length = 64 := fun hr => by rw [hr]; rfl
  obtain ⟨hri,hri5⟩ := hsplit hi
  obtain ⟨hrj,hrj5⟩ := hsplit hj
  obtain ⟨hrs,hrs5⟩ := hsplit hs
  have hfull : ∀ v : ShiftVariant, v.isHalfWord = false →
      (mle3 ri rj rs fun i j s => ind (rule v (2 ^ ri.length) i j s)) = mle3 ri rj rs (indicator v) := by
    intro v hv
    have hmax : v.maxAmount = 64 := by rw [ShiftVariant.maxAmount,hv]; rfl
    refine mle3_congr fun i hi' j hj' s hs' => ind_congr ?_
    rw [hpow hi] at hi' ⊢
    rw [hpow hj] at hj'
    rw [hpow hs] at hs'
    rw [source_iff v hi' hj',hmax,mod_eq_of_lt hi',mod_eq_of_lt hj',mod_eq_of_lt hs',
      div_eq_of_lt hi',div_eq_of_lt hj']
    exact (and_iff_right rfl).symm
  have hhalf : ∀ v : ShiftVariant, v.isHalfWord = true → eqOneVar (ri.getD 5 0) (rj.getD 5 0) *
      (mle3 (ri.take 5) (rj.take 5) (rs.take 5) fun i j s => ind (rule v (2 ^ (ri.take 5).length) i j s)) =
        mle3 ri rj rs (indicator v) := by
    intro v hv
    have hmax : v.maxAmount = 32 := by rw [ShiftVariant.maxAmount,hv]; rfl
    rw [←mle3_half (ri.getD 5 0) (rj.getD 5 0) (rs.getD 5 0) (hrj5.trans hri5.symm) (hrs5.trans hri5.symm),
      ←hri,←hrj,←hrs]
    refine mle3_congr fun i hi' j hj' s _ => ?_
    rw [hpow hi] at hi'
    rw [hpow hj] at hj'
    rw [indicator,ind_congr (source_iff v hi' hj'),hmax,hri5]
    by_cases hsame : i / 32 = j / 32
    · rw [ind_of (show i / 2 ^ 5 = j / 2 ^ 5 from hsame),one_mul]
      exact ind_congr (and_iff_right hsame).symm
    · rw [ind_of_not (show ¬i / 2 ^ 5 = j / 2 ^ 5 from hsame),zero_mul,ind_of_not fun h => hsame h.1]
  have hrun := evaluateVariants_eq (hj.trans hi.symm) (hs.trans hi.symm)
  have hlow := evaluateVariants_eq (hrj5.trans hri5.symm) (hrs5.trans hri5.symm)
  have hword : wordLogBits = 6 := rfl
  have hhalfWord : halfWordLogBits = 5 := rfl
  rw [evaluateShiftInds,hword,hhalfWord,require_true hi,ok_bind,require_true hj,ok_bind,require_true hs,ok_bind,
    hrun,hlow]
  refine ⟨_,rfl,rfl,fun v => ?_⟩
  cases v with
  | sll => exact congrArg some (hfull .sll rfl)
  | slr => exact congrArg some (hfull .slr rfl)
  | sar => exact congrArg some (hfull .sar rfl)
  | rotr => exact congrArg some (hfull .rotr rfl)
  | sll32 => exact congrArg some (hhalf .sll32 rfl)
  | srl32 => exact congrArg some (hhalf .srl32 rfl)
  | sra32 => exact congrArg some (hhalf .sra32 rfl)
  | rotr32 => exact congrArg some (hhalf .rotr32 rfl)

end Variants

/-- Overwrite a slice, which has to be as long as the source. -/
def copyFromSlice (row : List F) (start stop : ℕ) (src : List F) : Except AssertFailure (List F) := do
  require (start ≤ stop ∧ stop ≤ row.length ∧ src.length = stop - start)
  return row.take start ++ src ++ row.drop stop

def fill (row : List F) (start stop : ℕ) (value : F) : Except AssertFailure (List F) :=
  copyFromSlice row start stop (replicate (stop - start) value)

/-- Move the weights down, and leave zeros behind. -/
def sllRow (amount : ℕ) (row psi : List F) : Except AssertFailure (List F) := do
  let width := row.length
  require (amount ≤ width)
  let row ← copyFromSlice row 0 (width - amount) (psi.drop amount)
  fill row (width - amount) width 0

/-- Move the weights up, and leave zeros behind. -/
def srlRow (amount : ℕ) (row psi : List F) : Except AssertFailure (List F) := do
  let width := row.length
  let row ← fill row 0 amount 0
  require (amount ≤ width)
  copyFromSlice row amount width (psi.take (width - amount))

/-- Move the weights up, and pile those that fall off onto the last position. -/
def sarRow (amount : ℕ) (row psi : List F) : Except AssertFailure (List F) := do
  let width := row.length
  let row ← srlRow amount row psi
  require (0 < width)
  return row.modify (width - 1) (· + (psi.drop (width - amount)).sum)

/-- Move the weights up, and wrap around those that fall off. -/
def rotrRow (amount : ℕ) (row psi : List F) : Except AssertFailure (List F) := do
  let width := row.length
  require (amount ≤ width)
  let row ← copyFromSlice row 0 amount (psi.drop (width - amount))
  copyFromSlice row amount width (psi.take (width - amount))

/-- Apply a rule to either half, with the amount modulo the width of a half. -/
def halves (move : ℕ → List F → List F → Except AssertFailure (List F)) (amount : ℕ) (row psi : List F) :
    Except AssertFailure (List F) := do
  let amount := amount % 32
  let low ← move amount (row.take 32) (psi.take 32)
  let high ← move amount (row.drop 32) (psi.drop 32)
  return low ++ high

def moveWeights : ShiftVariant → ℕ → List F → List F → Except AssertFailure (List F)
  | .sll => sllRow
  | .slr => srlRow
  | .sar => sarRow
  | .rotr => rotrRow
  | .sll32 => halves sllRow
  | .srl32 => halves srlRow
  | .sra32 => halves sarRow
  | .rotr32 => halves rotrRow

def shiftOperatorRow (v : ShiftVariant) (amount : ℕ) (row psi : List F) : Except AssertFailure (List F) := do
  require (row.length = 64)
  require (psi.length = 64)
  moveWeights v amount row psi

/-- The row contracts a relation over some positions against the weights, whatever was in it. -/
def Contracts (width : ℕ) (reads : ℕ → ℕ → ℕ → Prop) [∀ i j s, Decidable (reads i j s)]
    (move : ℕ → List F → List F → Except AssertFailure (List F)) : Prop :=
  ∀ (amount : ℕ) (row psi : List F), amount < width → row.length = width → psi.length = width →
    ∃ row', move amount row psi = .ok row' ∧ row'.length = width ∧
      ∀ j < width, row'.getD j 0 = ∑ i ∈ range width, psi.getD i 0 * ind (reads i j amount)

omit [Field F] in
theorem copyFromSlice_run {row src : List F} {start stop : ℕ} (hstart : start ≤ stop) (hstop : stop ≤ row.length)
    (hsrc : src.length = stop - start) :
    copyFromSlice row start stop src = .ok (row.take start ++ src ++ row.drop stop) := by
  rw [copyFromSlice,require_true ⟨hstart,hstop,hsrc⟩]
  rfl

theorem sum_ind {width k : ℕ} {x : ℕ → F} {p : ℕ → Prop} [∀ i, Decidable (p i)] (hk : k < width)
    (hp : ∀ i < width, p i ↔ i = k) : ∑ i ∈ range width, x i * ind (p i) = x k := by
  rw [sum_eq_single_of_mem k (mem_range.mpr hk) fun i hi hik => ?_]
  · rw [ind_of ((hp k hk).mpr rfl),mul_one]
  · rw [ind_of_not fun h => hik ((hp i (mem_range.mp hi)).mp h),mul_zero]

theorem sum_ind_zero {width : ℕ} {x : ℕ → F} {p : ℕ → Prop} [∀ i, Decidable (p i)] (hp : ∀ i < width, ¬p i) :
    ∑ i ∈ range width, x i * ind (p i) = 0 :=
  sum_eq_zero fun i hi => by rw [ind_of_not (hp i (mem_range.mp hi)),mul_zero]

theorem sllRow_run {row psi : List F} (hamount : amount ≤ row.length) (hpsi : psi.length = row.length) :
    sllRow amount row psi = .ok (psi.drop amount ++ replicate amount 0) := by
  have hlen : (psi.drop amount).length = row.length - amount := by rw [length_drop,hpsi]
  have hback : row.length - (row.length - amount) = amount := by omega
  have hall : (psi.drop amount ++ row.drop (row.length - amount)).length = row.length := by
    rw [length_append,hlen,length_drop]
    omega
  have hnil := List.drop_of_length_le hall.le
  rw [sllRow,require_true hamount,ok_bind,copyFromSlice_run (Nat.zero_le _) (sub_le _ _)
    (by rw [hlen,Nat.sub_zero]),ok_bind,fill,take_zero,nil_append,copyFromSlice_run (sub_le _ _)
    hall.ge length_replicate,take_left' hlen,hback,hnil,append_nil]

theorem srlRow_run {row psi : List F} (hamount : amount ≤ row.length) (hpsi : psi.length = row.length) :
    srlRow amount row psi = .ok (replicate amount 0 ++ psi.take (row.length - amount)) := by
  have hlen : (psi.take (row.length - amount)).length = row.length - amount := by
    rw [length_take,hpsi,min_eq_left (sub_le _ _)]
  have hall : (replicate amount (0 : F) ++ row.drop amount).length = row.length := by
    rw [length_append,length_replicate,length_drop]
    omega
  have hnil := List.drop_of_length_le hall.le
  rw [srlRow,fill,copyFromSlice_run (Nat.zero_le _) hamount length_replicate,ok_bind,require_true hamount,
    ok_bind,take_zero,nil_append,Nat.sub_zero,copyFromSlice_run hamount hall.ge hlen,
    take_left' length_replicate,hnil,append_nil]

omit [Field F] in
theorem rotrRow_run {row psi : List F} (hamount : amount ≤ row.length) (hpsi : psi.length = row.length) :
    rotrRow amount row psi = .ok (psi.drop (row.length - amount) ++ psi.take (row.length - amount)) := by
  have hlen : (psi.take (row.length - amount)).length = row.length - amount := by
    rw [length_take,hpsi,min_eq_left (sub_le _ _)]
  have hback : (psi.drop (row.length - amount)).length = amount := by
    rw [length_drop,hpsi]
    omega
  have hall : (psi.drop (row.length - amount) ++ row.drop amount).length = row.length := by
    rw [length_append,hback,length_drop]
    omega
  have hnil := List.drop_of_length_le hall.le
  rw [rotrRow,require_true hamount,ok_bind,copyFromSlice_run (Nat.zero_le _) hamount
    (by rw [hback,Nat.sub_zero]),ok_bind,take_zero,nil_append,copyFromSlice_run hamount hall.ge hlen,
    take_left' hback,hnil,append_nil]

variable (psi : List F) (width : ℕ)

theorem getD_drop (m i : ℕ) : (psi.drop m).getD i 0 = psi.getD (m + i) 0 := by
  rw [getD_eq_getElem?_getD,List.getElem?_drop,getD_eq_getElem?_getD]

theorem contracts_sll : Contracts (F := F) width (rule .sll width) sllRow := by
  intro amount row psi hamount hrow hpsi
  subst hrow
  refine ⟨_,sllRow_run hamount.le hpsi,?_,fun j hj => ?_⟩
  · rw [length_append,length_drop,length_replicate,hpsi]
    omega
  · by_cases hin : j + amount < row.length
    · rw [getD_append _ _ _ _ (by rw [length_drop]; omega),getD_drop,
        sum_ind (p := fun i => rule .sll row.length i j amount) hin fun i _ => eq_comm,add_comm]
    · have hzero : (replicate amount (0 : F)).getD (j - (psi.drop amount).length) 0 = 0 := by
        rw [getD_eq_getElem?_getD,List.getElem?_replicate]
        split <;> rfl
      rw [getD_append_right _ _ _ _ (by rw [length_drop]; omega),hzero,
        sum_ind_zero (p := fun i => rule .sll row.length i j amount) fun i hi h =>
          hin ((show j + amount = i from h) ▸ hi)]

theorem srl_getD {width j : ℕ} (hamount : amount ≤ width) (hj : j < width) : (replicate amount 0 ++ psi.take (width - amount)).getD j 0 =
      ∑ i ∈ range width, psi.getD i 0 * ind (i + amount = j) := by
  by_cases hin : amount ≤ j
  · have htake : (psi.take (width - amount)).getD (j - amount) 0 = psi.getD (j - amount) 0 := by
      rw [getD_eq_getElem?_getD,getElem?_take,if_pos (by omega),←getD_eq_getElem?_getD]
    rw [getD_append_right _ _ _ _ (by rw [length_replicate]; exact hin),length_replicate,htake,
      sum_ind (k := j - amount) (by omega) fun i _ => by omega]
  · have hzero : (replicate amount (0 : F)).getD j 0 = 0 := by
      rw [getD_eq_getElem?_getD,List.getElem?_replicate]
      split <;> rfl
    rw [getD_append _ _ _ _ (by rw [length_replicate]; omega),hzero,
      sum_ind_zero fun i _ h => hin (by omega)]

theorem contracts_srl : Contracts (F := F) width (rule .slr width) srlRow := by
  intro amount row psi hamount hrow hpsi
  subst hrow
  refine ⟨_,srlRow_run hamount.le hpsi,?_,fun j hj => srl_getD psi hamount.le hj⟩
  rw [length_append,length_take,length_replicate,hpsi]
  omega

theorem sum_drop (m : ℕ) :
    (psi.drop m).sum = ∑ i ∈ range psi.length, psi.getD i 0 * ind (m ≤ i) := by
  induction psi generalizing m with
  | nil => rw [List.drop_nil,List.sum_nil,List.length_nil,sum_range_zero]
  | cons a psi ih =>
    rw [length_cons,sum_range_succ']
    cases m with
    | zero =>
      have hrest := ih 0
      rw [List.drop_zero] at hrest ⊢
      rw [List.sum_cons,hrest,add_comm,List.getD_cons_zero,ind_of (Nat.zero_le 0),mul_one]
      refine congrArg (· + a) (sum_congr rfl fun i _ => ?_)
      rw [List.getD_cons_succ,ind_of (Nat.zero_le _),ind_of (Nat.zero_le _)]
    | succ m =>
      rw [List.drop_succ_cons,ih m,ind_of_not (Nat.not_succ_le_zero m),mul_zero,add_zero]
      refine sum_congr rfl fun i _ => ?_
      rw [List.getD_cons_succ,ind_congr Nat.succ_le_succ_iff]

theorem contracts_sar : Contracts (F := F) width (rule .sar width) sarRow := by
  intro amount row psi hamount hrow hpsi
  subst hrow
  have hlen : (replicate amount (0 : F) ++ psi.take (row.length - amount)).length = row.length := by
    rw [length_append,length_take,length_replicate,hpsi]
    omega
  have hrun : sarRow amount row psi = .ok ((replicate amount 0 ++ psi.take (row.length - amount)).modify
      (row.length - 1) (· + (psi.drop (row.length - amount)).sum)) := by
    rw [sarRow,srlRow_run hamount.le hpsi,ok_bind,require_true (Nat.zero_lt_of_lt hamount)]
    rfl
  refine ⟨_,hrun,(List.length_modify ..).trans hlen,fun j hj => ?_⟩
  have hrule : ∀ i < row.length, psi.getD i 0 * ind (rule .sar row.length i j amount) =
      psi.getD i 0 * ind (i + amount = j) +
        psi.getD i 0 * ind (row.length - amount ≤ i) * ind (row.length - 1 = j) := by
    intro i hi
    by_cases hover : row.length ≤ i + amount
    · rw [ind_of_not (by omega : ¬i + amount = j),ind_of (by omega : row.length - amount ≤ i),mul_zero,zero_add,
        mul_one]
      exact congrArg (psi.getD i 0 * ·) (ind_congr (by rw [rule]; omega))
    · rw [ind_of_not (by omega : ¬row.length - amount ≤ i),mul_zero,zero_mul,add_zero]
      exact congrArg (psi.getD i 0 * ·) (ind_congr (by rw [rule]; omega))
  have hmodify : ((replicate amount (0 : F) ++ psi.take (row.length - amount)).modify (row.length - 1)
      (· + (psi.drop (row.length - amount)).sum)).getD j 0 =
        (replicate amount 0 ++ psi.take (row.length - amount)).getD j 0 +
          (psi.drop (row.length - amount)).sum * ind (row.length - 1 = j) := by
    have hj' : j < (replicate amount (0 : F) ++ psi.take (row.length - amount)).length := by rwa [hlen]
    rw [getD_eq_getElem?_getD,List.getElem?_modify,List.getElem?_eq_getElem hj',
      List.getD_eq_getElem _ _ hj',Option.map_eq_map,Option.map_some,Option.getD_some]
    by_cases hlast : row.length - 1 = j
    · rw [if_pos hlast,ind_of hlast,mul_one]
    · rw [if_neg hlast,ind_of_not hlast,mul_zero,add_zero]
  rw [hmodify,srl_getD psi hamount.le hj,sum_drop,hpsi,sum_mul,←sum_add_distrib]
  exact (sum_congr rfl fun i hi => hrule i (mem_range.mp hi)).symm

theorem contracts_rotr : Contracts (F := F) width (rule .rotr width) rotrRow := by
  intro amount row psi hamount hrow hpsi
  subst hrow
  have hback : (psi.drop (row.length - amount)).length = amount := by
    rw [length_drop,hpsi]
    omega
  refine ⟨_,rotrRow_run hamount.le hpsi,?_,fun j hj => ?_⟩
  · rw [length_append,hback,length_take,hpsi]
    omega
  · have hmod : ∀ i < row.length, (i + amount) % row.length =
        if i + amount < row.length then i + amount else i + amount - row.length := fun i hi => by
      split
      case isTrue hlt => exact mod_eq_of_lt hlt
      case isFalse hge => rw [Nat.mod_eq_sub_mod (not_lt.mp hge),mod_eq_of_lt (by omega)]
    by_cases hin : j < amount
    · rw [getD_append _ _ _ _ (by rw [hback]; exact hin),getD_drop,
        sum_ind (k := row.length - amount + j) (by omega) fun i hi => ?_]
      rw [rule,hmod i hi]
      split <;> omega
    · have htake : (psi.take (row.length - amount)).getD (j - amount) 0 = psi.getD (j - amount) 0 := by
        rw [getD_eq_getElem?_getD,getElem?_take,if_pos (by omega),←getD_eq_getElem?_getD]
      rw [getD_append_right _ _ _ _ (by rw [hback]; exact not_lt.mp hin),hback,htake,
        sum_ind (k := j - amount) (by omega) fun i hi => ?_]
      rw [rule,hmod i hi]
      split <;> omega

theorem halves_run {reads : ℕ → ℕ → ℕ → Prop} [∀ i j s, Decidable (reads i j s)]
    {move : ℕ → List F → List F → Except AssertFailure (List F)} (h : Contracts 32 reads move) (amount : ℕ)
    {row psi : List F} (hrow : row.length = 64) (hpsi : psi.length = 64) :
    ∃ row', halves move amount row psi = .ok row' ∧ row'.length = 64 ∧ ∀ j < 64, row'.getD j 0 =
      ∑ i ∈ range 64, psi.getD i 0 * ind (i / 32 = j / 32 ∧ reads (i % 32) (j % 32) (amount % 32)) := by
  have hamount : amount % 32 < 32 := mod_lt _ (by decide)
  obtain ⟨low,hlow,hlowLen,hlowAt⟩ := h (amount % 32) (row.take 32) (psi.take 32) hamount
    (by rw [length_take,hrow]; rfl) (by rw [length_take,hpsi]; rfl)
  obtain ⟨high,hhigh,hhighLen,hhighAt⟩ := h (amount % 32) (row.drop 32) (psi.drop 32) hamount
    (by rw [length_drop,hrow]) (by rw [length_drop,hpsi])
  refine ⟨low ++ high,by rw [halves,hlow,ok_bind,hhigh]; rfl,by rw [length_append,hlowLen,hhighLen],
    fun j hj => ?_⟩
  obtain ⟨part,hpart⟩ : ∃ part : ℕ → F, ∀ t, part t =
      ∑ i ∈ range 32, psi.getD (t * 32 + i) 0 * ind (reads i (j % 32) (amount % 32)) := ⟨_,fun _ => rfl⟩
  have hsum : ∑ i ∈ range 64, psi.getD i 0 * ind (i / 32 = j / 32 ∧ reads (i % 32) (j % 32) (amount % 32)) =
      ∑ t ∈ range 2, ind (t = j / 32) * part t := by
    rw [show 64 = 32 * 2 from rfl,sum_range_mul]
    refine sum_congr rfl fun t _ => ?_
    rw [hpart,mul_sum]
    refine sum_congr rfl fun i hi => ?_
    have hi' := mem_range.mp hi
    have hdiv : (t * 32 + i) / 32 = t := by omega
    have hmod : (t * 32 + i) % 32 = i := by omega
    rw [hdiv,hmod]
    by_cases hsame : t = j / 32
    · rw [ind_of hsame,one_mul,ind_congr (and_iff_right hsame)]
    · rw [ind_of_not hsame,ind_of_not fun hand => hsame hand.1,mul_zero,zero_mul]
  rw [hsum,sum_range_succ,sum_range_one]
  by_cases hlower : j < 32
  · rw [ind_of (by omega : 0 = j / 32),ind_of_not (by omega : ¬1 = j / 32),one_mul,zero_mul,add_zero,hpart,
      getD_append _ _ _ _ (hlowLen ▸ hlower),hlowAt j hlower,mod_eq_of_lt hlower]
    refine sum_congr rfl fun i hi => ?_
    rw [getD_eq_getElem?_getD,getElem?_take,if_pos (mem_range.mp hi),←getD_eq_getElem?_getD,
      Nat.zero_mul,Nat.zero_add]
  · have hmod : j % 32 = j - 32 := by omega
    rw [ind_of_not (by omega : ¬0 = j / 32),ind_of (by omega : 1 = j / 32),zero_mul,one_mul,zero_add,hpart,
      getD_append_right _ _ _ _ (hlowLen ▸ not_lt.mp hlower),hlowLen,hhighAt _ (by omega),hmod]
    refine sum_congr rfl fun i _ => ?_
    rw [getD_drop,Nat.one_mul]

theorem shiftOperatorRow_run (v : ShiftVariant) {row psi : List F} (hamount : amount < 64)
    (hrow : row.length = 64) (hpsi : psi.length = 64) :
    ∃ row', shiftOperatorRow v amount row psi = .ok row' ∧ row'.length = 64 ∧
      ∀ j < 64, row'.getD j 0 = ∑ i ∈ range 64, psi.getD i 0 * indicator v i j amount := by
  have hfull : ∀ {move : ℕ → List F → List F → Except AssertFailure (List F)}, v.isHalfWord = false →
      Contracts 64 (rule v 64) move → ∃ row', move amount row psi = .ok row' ∧ row'.length = 64 ∧
        ∀ j < 64, row'.getD j 0 = ∑ i ∈ range 64, psi.getD i 0 * indicator v i j amount := by
    intro move hv h
    have hmax : v.maxAmount = 64 := by rw [ShiftVariant.maxAmount,hv]; rfl
    obtain ⟨row',hrun,hlen,hat⟩ := h amount row psi hamount hrow hpsi
    refine ⟨row',hrun,hlen,fun j hj => (hat j hj).trans (sum_congr rfl fun i hi => ?_)⟩
    have hi' := mem_range.mp hi
    rw [indicator,ind_congr (source_iff v hi' hj),hmax,mod_eq_of_lt hi',mod_eq_of_lt hj,
      mod_eq_of_lt hamount,div_eq_of_lt hi',div_eq_of_lt hj,ind_congr (and_iff_right rfl)]
  have hhalf : ∀ {move : ℕ → List F → List F → Except AssertFailure (List F)}, v.isHalfWord = true →
      Contracts 32 (rule v 32) move → ∃ row', halves move amount row psi = .ok row' ∧ row'.length = 64 ∧
        ∀ j < 64, row'.getD j 0 = ∑ i ∈ range 64, psi.getD i 0 * indicator v i j amount := by
    intro move hv h
    have hmax : v.maxAmount = 32 := by rw [ShiftVariant.maxAmount,hv]; rfl
    obtain ⟨row',hrun,hlen,hat⟩ := halves_run h amount hrow hpsi
    refine ⟨row',hrun,hlen,fun j hj => (hat j hj).trans (sum_congr rfl fun i hi => ?_)⟩
    rw [indicator,ind_congr (source_iff v (mem_range.mp hi) hj),hmax]
  rw [shiftOperatorRow,require_true hrow,ok_bind,require_true hpsi,ok_bind]
  cases v with
  | sll => exact hfull rfl (contracts_sll 64)
  | slr => exact hfull rfl (contracts_srl 64)
  | sar => exact hfull rfl (contracts_sar 64)
  | rotr => exact hfull rfl (contracts_rotr 64)
  | sll32 => exact hhalf rfl (contracts_sll 32)
  | srl32 => exact hhalf rfl (contracts_srl 32)
  | sra32 => exact hhalf rfl (contracts_sar 32)
  | rotr32 => exact hhalf rfl (contracts_rotr 32)

/-- The indicators over any number of bits, the eight of a word, the bit that a variant's application reads, and
the rows that contract them. -/
theorem shift_indicators_exact [DecidableEq F] :
    (∀ ri rj rs : List F, rj.length = ri.length → rs.length = ri.length →
      evaluateSumInds ri rj rs = (mle3 ri rj rs fun i j s => ind (i + s = j),
        mle3 ri rj rs fun i j s => ind (i + s = j + 2 ^ ri.length)) ∧
      evaluateOverflowInd ri rs = (mle ri fun i => mle rs fun s => ind (2 ^ ri.length ≤ i + s)) ∧
      evaluateVariants ri rj rs = (mle3 ri rj rs fun i j s => ind (j + s = i),
        mle3 ri rj rs fun i j s => ind (i + s = j),
        mle3 ri rj rs fun i j s => ind (j = min (i + s) (2 ^ ri.length - 1)),
        mle3 ri rj rs fun i j s => ind (j = (i + s) % 2 ^ ri.length))) ∧
    (∀ ri rj rs : List F, ri.length = 6 → rj.length = 6 → rs.length = 6 →
      ∃ inds, evaluateShiftInds ri rj rs = .ok inds ∧ inds.length = 8 ∧
        ∀ v : ShiftVariant, inds[v.toU8]? = some (mle3 ri rj rs (indicator v))) ∧
    (∀ (v : ShiftVariant) (i j s : ℕ), i < 64 → j < 64 →
      (Reads v (s % v.maxAmount) i j → (indicator v i j s : F) = 1) ∧
      (¬Reads v (s % v.maxAmount) i j → (indicator v i j s : F) = 0)) ∧
    ∀ (v : ShiftVariant) (amount : ℕ) (row psi : List F), amount < 64 → row.length = 64 → psi.length = 64 →
      ∃ row', shiftOperatorRow v amount row psi = .ok row' ∧ row'.length = 64 ∧
        ∀ j < 64, row'.getD j 0 = ∑ i ∈ range 64, psi.getD i 0 * indicator v i j amount := by
  refine ⟨fun ri rj rs hj hs => ⟨evaluateSumInds_eq hj hs,evaluateOverflowInd_eq hs,evaluateVariants_eq hj hs⟩,
    fun ri rj rs hi hj hs => evaluateShiftInds_run hi hj hs,fun v i j s hi hj => ?_,
    fun v amount row psi hamount hrow hpsi => shiftOperatorRow_run v hamount hrow hpsi⟩
  have hreads := reads_iff (mod_lt s v.maxAmount_pos) hi hj
  exact ⟨fun h => ind_of (hreads.mp h),fun h => ind_of_not fun hsource => h (hreads.mpr hsource)⟩

end Binius64.ShiftIndicators
