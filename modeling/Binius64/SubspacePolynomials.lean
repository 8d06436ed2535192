import Mathlib.Algebra.CharP.Algebra
import Mathlib.Algebra.CharP.Two
import Mathlib.Algebra.Field.ZMod
import Mathlib.Algebra.Polynomial.Eval.Degree
import Mathlib.Data.List.GetD
import Mathlib.Data.Nat.Bitwise
import Mathlib.LinearAlgebra.LinearIndependent.Lemmas
import Mathlib.Tactic.LinearCombination

/-!
# Subspace polynomials

The polynomials that vanish on the subspaces that the first elements of a basis over the field of
two elements span.
-/

namespace Binius64.SubspacePolynomials

open Polynomial List

variable {F : Type} [Field F]

/-- The sum of the elements that the bits of an index select. -/
def subsetSum : List F → ℕ → F
  | [], _ => 0
  | b :: bs, i => (if i % 2 = 1 then b else 0) + subsetSum bs (i / 2)

variable (bs : List F) {k : ℕ}

theorem subsetSum_zero : subsetSum bs 0 = 0 := by
  induction bs with
  | nil => rfl
  | cons b bs ih =>
    rw [subsetSum,Nat.zero_div,ih,Nat.zero_mod,if_neg zero_ne_one,add_zero]

theorem subsetSum_replicate (n i : ℕ) : subsetSum (List.replicate n (0 : F)) i = 0 := by
  induction n generalizing i with
  | zero => rfl
  | succ n ih => rw [List.replicate_succ,subsetSum,ih,ite_self,add_zero]

theorem subsetSum_append (as bs : List F) (i : ℕ) :
    subsetSum (as ++ bs) i = subsetSum as i + subsetSum bs (i / 2 ^ as.length) := by
  induction as generalizing i with
  | nil => rw [nil_append,subsetSum,zero_add,length_nil,pow_zero,Nat.div_one]
  | cons a as ih =>
    rw [List.cons_append,subsetSum,subsetSum,ih,length_cons,pow_succ',←Nat.div_div_eq_div_mul,
      add_assoc]

theorem subsetSum_mod (i : ℕ) : subsetSum bs (i % 2 ^ bs.length) = subsetSum bs i := by
  induction bs generalizing i with
  | nil => rfl
  | cons b bs ih =>
    have hlow : i % 2 ^ (bs.length + 1) % 2 = i % 2 :=
      Nat.mod_mod_of_dvd i (dvd_pow_self 2 (Nat.succ_ne_zero _))
    have hhigh : i % 2 ^ (bs.length + 1) / 2 = i / 2 % 2 ^ bs.length := by
      rw [pow_succ',Nat.mod_mul_right_div_self]
    rw [subsetSum,subsetSum,length_cons,hlow,hhigh,ih]

theorem subsetSum_split (hk : k ≤ bs.length) (i : ℕ) :
    subsetSum bs i = subsetSum (bs.take k) (i % 2 ^ k) + subsetSum (bs.drop k) (i / 2 ^ k) := by
  have hlen : (bs.take k).length = k := length_take_of_le hk
  have hmod := subsetSum_mod (bs.take k) i
  rw [hlen] at hmod
  rw [hmod]
  conv_lhs => rw [←take_append_drop k bs,subsetSum_append,hlen]

theorem subsetSum_map {G : Type} [Field G] {g : F → G} (hzero : g 0 = 0)
    (hadd : ∀ x y, g (x + y) = g x + g y)
    (bs : List F) (i : ℕ) : g (subsetSum bs i) = subsetSum (bs.map g) i := by
  induction bs generalizing i with
  | nil => exact hzero
  | cons b bs ih =>
    rw [subsetSum,hadd,ih,List.map_cons,subsetSum]
    split
    · rfl
    · rw [hzero]

theorem subsetSum_xor [CharP F 2] (i j : ℕ) :
    subsetSum bs (i ^^^ j) = subsetSum bs i + subsetSum bs j := by
  induction bs generalizing i j with
  | nil => exact (add_zero 0).symm
  | cons b bs ih =>
    have hbit : (i ^^^ j) % 2 = (i + j) % 2 := Nat.xor_mod_two_eq
    rw [subsetSum,subsetSum,subsetSum,Nat.xor_div_two,ih,hbit]
    rcases Nat.mod_two_eq_zero_or_one i with hi | hi <;>
      rcases Nat.mod_two_eq_zero_or_one j with hj | hj <;>
      simp only [Nat.add_mod,hi,hj,Nat.reduceAdd,Nat.reduceMod,zero_ne_one,if_true,if_false]
    · ring
    · ring
    · ring
    · have hdouble := CharTwo.add_self_eq_zero b
      linear_combination -hdouble

theorem subsetSum_concat_low (b : F) {i : ℕ} (hi : i < 2 ^ bs.length) :
    subsetSum (bs ++ [b]) i = subsetSum bs i := by
  rw [subsetSum_append,Nat.div_eq_of_lt hi,subsetSum_zero,add_zero]

theorem subsetSum_concat_high (b : F) {i : ℕ} (hi : i < 2 ^ bs.length) :
    subsetSum (bs ++ [b]) (2 ^ bs.length + i) = subsetSum bs i + b := by
  have hmod := subsetSum_mod bs (2 ^ bs.length + i)
  rw [Nat.add_mod_left,subsetSum_mod] at hmod
  rw [subsetSum_append,←hmod,Nat.add_div_left i (Nat.two_pow_pos _),Nat.div_eq_of_lt hi,subsetSum,
    if_pos rfl,subsetSum,add_zero]

/-- The polynomial that vanishes on the span of some elements. -/
noncomputable def vanishing (bs : List F) : F[X] :=
  ∏ i ∈ Finset.range (2 ^ bs.length), (X - C (subsetSum bs i))

theorem eval_vanishing (x : F) :
    (vanishing bs).eval x = ∏ i ∈ Finset.range (2 ^ bs.length), (x - subsetSum bs i) := by
  rw [vanishing,eval_prod]
  simp only [eval_sub,eval_X,eval_C]

theorem eval_vanishing_nil (x : F) : (vanishing []).eval x = x := by
  rw [eval_vanishing,length_nil,pow_zero,Finset.prod_range_one,subsetSum,sub_zero]

theorem eval_vanishing_concat (b x : F) : (vanishing (bs ++ [b])).eval x =
    (vanishing bs).eval x * (vanishing bs).eval (x - b) := by
  rw [eval_vanishing,eval_vanishing,eval_vanishing,length_append,length_singleton,pow_succ,
    mul_two,Finset.prod_range_add]
  congr 1
  · exact Finset.prod_congr rfl fun i hi => by
      rw [subsetSum_concat_low bs b (Finset.mem_range.mp hi)]
  · refine Finset.prod_congr rfl fun i hi => ?_
    rw [subsetSum_concat_high bs b (Finset.mem_range.mp hi)]
    ring

theorem eval_vanishing_subsetSum (i : ℕ) : (vanishing bs).eval (subsetSum bs i) = 0 := by
  rw [eval_vanishing,Finset.prod_eq_zero_iff]
  refine ⟨i % 2 ^ bs.length,Finset.mem_range.mpr (Nat.mod_lt _ (Nat.two_pow_pos _)),?_⟩
  rw [subsetSum_mod,sub_self]

theorem eval_vanishing_zero : (vanishing bs).eval 0 = 0 := by
  have hroot := eval_vanishing_subsetSum bs 0
  rw [subsetSum_zero] at hroot
  exact hroot

section CharTwo

variable [CharP F 2]

theorem eval_vanishing_add (bs : List F) (x y : F) :
    (vanishing bs).eval (x + y) = (vanishing bs).eval x + (vanishing bs).eval y := by
  induction bs using List.reverseRecOn generalizing x y with
  | nil => rw [eval_vanishing_nil,eval_vanishing_nil,eval_vanishing_nil]
  | append_singleton bs b ih =>
    have hcross := CharTwo.add_self_eq_zero ((vanishing bs).eval x * (vanishing bs).eval y)
    rw [eval_vanishing_concat,eval_vanishing_concat,eval_vanishing_concat,CharTwo.sub_eq_add,
      CharTwo.sub_eq_add,CharTwo.sub_eq_add,ih,ih (x + y),ih x y,ih x b,ih y b]
    linear_combination hcross

theorem eval_vanishing_succ (bs : List F) (b x : F) : (vanishing (bs ++ [b])).eval x =
    (vanishing bs).eval x * ((vanishing bs).eval x + (vanishing bs).eval b) := by
  rw [eval_vanishing_concat,CharTwo.sub_eq_add,eval_vanishing_add]

end CharTwo

def element (bs : List F) (k : ℕ) : F := bs.getD k 0

/-- The vanishing polynomial of the first `k` elements, normalised to one at the next. -/
noncomputable def normalized (bs : List F) (k : ℕ) : F[X] :=
  C ((vanishing (bs.take k)).eval (element bs k))⁻¹ * vanishing (bs.take k)

noncomputable def novel (bs : List F) (j : ℕ) : F[X] :=
  ∏ k ∈ Finset.range bs.length, if j.testBit k then normalized bs k else 1

theorem eval_normalized (k : ℕ) (x : F) : (normalized bs k).eval x =
    ((vanishing (bs.take k)).eval (element bs k))⁻¹ * (vanishing (bs.take k)).eval x := by
  rw [normalized,eval_mul,eval_C]

theorem eval_normalized_zero (k : ℕ) : (normalized bs k).eval 0 = 0 := by
  rw [eval_normalized,eval_vanishing_zero,mul_zero]

theorem eval_novel (j : ℕ) (x : F) : (novel bs j).eval x =
    ∏ k ∈ Finset.range bs.length, if j.testBit k then (normalized bs k).eval x else 1 := by
  rw [novel,eval_prod]
  refine Finset.prod_congr rfl fun k _ => ?_
  split
  · rfl
  · exact eval_one

/-- No element is in the span of those before it. -/
def Independent (bs : List F) : Prop :=
  ∀ k < bs.length, (vanishing (bs.take k)).eval (element bs k) ≠ 0

theorem subsetSum_mem_span [Algebra (ZMod 2) F] (i : ℕ) :
    subsetSum bs i ∈ Submodule.span (ZMod 2) {b | b ∈ bs} := by
  induction bs generalizing i with
  | nil => exact Submodule.zero_mem _
  | cons b bs ih =>
    have htail : subsetSum bs (i / 2) ∈ Submodule.span (ZMod 2) {c | c ∈ b :: bs} :=
      Submodule.span_mono (fun c hc => List.mem_cons_of_mem b hc) (ih _)
    refine Submodule.add_mem _ ?_ htail
    split
    · exact Submodule.subset_span List.mem_cons_self
    · exact Submodule.zero_mem _

theorem independent_of_linearIndependent [Algebra (ZMod 2) F] {bs : List F}
    (h : LinearIndependent (ZMod 2) bs.get) : Independent bs := by
  intro k hk hzero
  rw [eval_vanishing,Finset.prod_eq_zero_iff] at hzero
  obtain ⟨i,-,hi⟩ := hzero
  have hsum : bs.get ⟨k,hk⟩ = subsetSum (bs.take k) i := by
    have helement : element bs k = bs.get ⟨k,hk⟩ := by
      rw [element,getD_eq_getElem bs 0 hk]
      rfl
    rw [←helement]
    exact sub_eq_zero.mp hi
  have hspan : bs.get ⟨k,hk⟩ ∈ Submodule.span (ZMod 2) (bs.get '' {j | j.val < k}) := by
    rw [hsum]
    refine Submodule.span_mono ?_ (subsetSum_mem_span _ i)
    intro b hb
    obtain ⟨j,hj,hjb⟩ := mem_iff_getElem.mp hb
    rw [length_take] at hj
    refine ⟨⟨j,by omega⟩,(show j < k by omega),?_⟩
    rw [←hjb,getElem_take]
    rfl
  exact h.notMem_span_image (fun hlt : k < k => lt_irrefl k hlt) hspan

theorem eval_normalized_self {bs : List F} (h : Independent bs) (hk : k < bs.length) :
    (normalized bs k).eval (element bs k) = 1 := by
  rw [eval_normalized,inv_mul_cancel₀ (h k hk)]

theorem take_succ_element (hk : k < bs.length) :
    bs.take (k + 1) = bs.take k ++ [element bs k] := by
  rw [take_succ_eq_append_getElem hk,element,getD_eq_getElem bs 0 hk]

theorem drop_element (hk : k < bs.length) :
    bs.drop k = element bs k :: bs.drop (k + 1) := by
  rw [drop_eq_getElem_cons hk,element,getD_eq_getElem bs 0 hk]

section Normalized

variable [CharP F 2]

theorem eval_normalized_add (bs : List F) (k : ℕ) (x y : F) :
    (normalized bs k).eval (x + y) = (normalized bs k).eval x + (normalized bs k).eval y := by
  rw [eval_normalized,eval_normalized,eval_normalized,eval_vanishing_add,mul_add]

theorem eval_normalized_subsetSum (bs : List F) {k : ℕ} (hk : k ≤ bs.length) (i : ℕ) :
    (normalized bs k).eval (subsetSum bs i) =
      subsetSum ((bs.drop k).map fun b => (normalized bs k).eval b) (i / 2 ^ k) := by
  have hlow : (normalized bs k).eval (subsetSum (bs.take k) (i % 2 ^ k)) = 0 := by
    rw [eval_normalized,eval_vanishing_subsetSum,mul_zero]
  rw [subsetSum_split bs hk i,eval_normalized_add,hlow,zero_add]
  exact subsetSum_map (g := fun b => (normalized bs k).eval b) (eval_normalized_zero bs k)
    (eval_normalized_add bs k) _ _

theorem eval_normalized_succ {bs : List F} (h : Independent bs) {k : ℕ} (hk : k + 1 < bs.length)
    (x : F) : (normalized bs k).eval (element bs (k + 1)) *
        ((normalized bs k).eval (element bs (k + 1)) + 1) ≠ 0 ∧
      (normalized bs (k + 1)).eval x = (normalized bs k).eval x * ((normalized bs k).eval x + 1) *
        ((normalized bs k).eval (element bs (k + 1)) *
          ((normalized bs k).eval (element bs (k + 1)) + 1))⁻¹ := by
  have hk' : k < bs.length := (Nat.lt_succ_self k).trans hk
  have hnext := h (k + 1) hk
  rw [take_succ_element bs hk',eval_vanishing_succ] at hnext
  rw [eval_normalized bs (k + 1),take_succ_element bs hk',eval_vanishing_succ,eval_vanishing_succ,
    eval_normalized,eval_normalized]
  have hone := h k hk'
  generalize (vanishing (bs.take k)).eval (element bs k) = c at hnext hone
  generalize (vanishing (bs.take k)).eval (element bs (k + 1)) = d at hnext
  generalize (vanishing (bs.take k)).eval x = y
  have hd : c⁻¹ * d + 1 = c⁻¹ * (d + c) := by rw [mul_add,inv_mul_cancel₀ hone]
  have hy : c⁻¹ * y + 1 = c⁻¹ * (y + c) := by rw [mul_add,inv_mul_cancel₀ hone]
  have hfactors := mul_ne_zero_iff.mp hnext
  rw [hd,hy]
  refine ⟨?_,?_⟩
  · exact mul_ne_zero (mul_ne_zero (inv_ne_zero hone) hfactors.1)
      (mul_ne_zero (inv_ne_zero hone) hfactors.2)
  · rw [mul_inv,mul_inv,mul_inv,mul_inv,inv_inv]
    have hcancel : c * c⁻¹ = 1 := mul_inv_cancel₀ hone
    linear_combination (-(y * (y + c) * (d⁻¹ * (d + c)⁻¹)) * (1 + c * c⁻¹)) * hcancel

end Normalized

theorem charP_two [Algebra (ZMod 2) F] : CharP F 2 :=
  charP_of_injective_algebraMap (algebraMap (ZMod 2) F).injective 2

end Binius64.SubspacePolynomials
