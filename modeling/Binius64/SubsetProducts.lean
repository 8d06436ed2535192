import Mathlib.Algebra.BigOperators.Group.Finset.Basic
import Mathlib.Data.List.GetD
import Mathlib.Data.Nat.Bitwise

/-!
# Subset products

The products of the factors that the bits of an index select: the entries of the
tensor of pairs whose first parts are one.
-/

namespace Binius64.SubsetProducts

open List

variable {M : Type} [CommMonoid M]

/-- The product of the factors that the bits of an index select. -/
def subsetProduct : List M → ℕ → M
  | [], _ => 1
  | f :: fs, i => (if i % 2 = 1 then f else 1) * subsetProduct fs (i / 2)

variable (fs : List M)

theorem subsetProduct_zero : subsetProduct fs 0 = 1 := by
  induction fs with
  | nil => rfl
  | cons f fs ih => rw [subsetProduct,Nat.zero_div,ih,Nat.zero_mod,if_neg zero_ne_one,mul_one]

theorem subsetProduct_even (f : M) (fs : List M) (j : ℕ) :
    subsetProduct (f :: fs) (2 * j) = subsetProduct fs j := by
  have heven : ¬2 * j % 2 = 1 := by omega
  rw [subsetProduct,if_neg heven,one_mul,Nat.mul_div_cancel_left j Nat.two_pos]

theorem subsetProduct_odd (f : M) (fs : List M) (j : ℕ) :
    subsetProduct (f :: fs) (2 * j + 1) = f * subsetProduct fs j := by
  have hodd : (2 * j + 1) % 2 = 1 := by omega
  have hhalf : (2 * j + 1) / 2 = j := by omega
  rw [subsetProduct,if_pos hodd,hhalf]

theorem subsetProduct_append (fs gs : List M) (i : ℕ) :
    subsetProduct (fs ++ gs) i = subsetProduct fs i * subsetProduct gs (i / 2 ^ fs.length) := by
  induction fs generalizing i with
  | nil => rw [nil_append,subsetProduct,one_mul,length_nil,pow_zero,Nat.div_one]
  | cons f fs ih =>
    rw [cons_append,subsetProduct,subsetProduct,ih,length_cons,pow_succ',
      ←Nat.div_div_eq_div_mul,mul_assoc]

theorem subsetProduct_mod (i : ℕ) :
    subsetProduct fs (i % 2 ^ fs.length) = subsetProduct fs i := by
  induction fs generalizing i with
  | nil => rfl
  | cons f fs ih =>
    have hlow : i % 2 ^ (fs.length + 1) % 2 = i % 2 :=
      Nat.mod_mod_of_dvd i (dvd_pow_self 2 (Nat.succ_ne_zero _))
    have hhigh : i % 2 ^ (fs.length + 1) / 2 = i / 2 % 2 ^ fs.length := by
      rw [pow_succ',Nat.mod_mul_right_div_self]
    rw [subsetProduct,subsetProduct,length_cons,hlow,hhigh,ih]

theorem subsetProduct_low (fs gs : List M) {i : ℕ} (hi : i < 2 ^ fs.length) :
    subsetProduct (fs ++ gs) i = subsetProduct fs i := by
  rw [subsetProduct_append,Nat.div_eq_of_lt hi,subsetProduct_zero,mul_one]

theorem subsetProduct_split (fs gs : List M) {h l : ℕ} (hl : l < 2 ^ fs.length) :
    subsetProduct (fs ++ gs) (h * 2 ^ fs.length + l) = subsetProduct fs l * subsetProduct gs h := by
  have hdiv : (h * 2 ^ fs.length + l) / 2 ^ fs.length = h := by
    rw [mul_comm,Nat.mul_add_div (Nat.two_pow_pos _),Nat.div_eq_of_lt hl,add_zero]
  have hmod : (h * 2 ^ fs.length + l) % 2 ^ fs.length = l := by
    rw [mul_comm,Nat.mul_add_mod,Nat.mod_eq_of_lt hl]
  have hlow : subsetProduct fs (h * 2 ^ fs.length + l) = subsetProduct fs l := by
    rw [←subsetProduct_mod,hmod]
  rw [subsetProduct_append,hdiv,hlow]

theorem subsetProduct_eq_prod (i : ℕ) : subsetProduct fs i =
    ∏ k ∈ Finset.range fs.length, if i.testBit k then fs.getD k 1 else 1 := by
  induction fs generalizing i with
  | nil => rfl
  | cons f fs ih =>
    rw [subsetProduct,length_cons,Finset.prod_range_succ',mul_comm,ih]
    congr 1
    · refine Finset.prod_congr rfl fun k _ => ?_
      rw [Nat.testBit_succ,getD_cons_succ]
    · rw [Nat.testBit_zero,getD_cons_zero]
      simp only [decide_eq_true_eq]

theorem subsetProducts_loop :
    fs.foldl (fun expanded f => expanded ++ expanded.map (· * f)) [1] =
      (List.range (2 ^ fs.length)).map (subsetProduct fs) := by
  induction fs using reverseRecOn with
  | nil => rfl
  | append_singleton fs f ih =>
    rw [foldl_append,ih,foldl_cons,foldl_nil,length_append,length_singleton,
      pow_succ,mul_two,range_add,map_append,map_map,map_map]
    congr 1
    · refine map_congr_left fun i hi => ?_
      rw [subsetProduct_low fs [f] (mem_range.mp hi)]
    · refine map_congr_left fun i hi => ?_
      have hhigh := subsetProduct_split fs [f] (h := 1) (mem_range.mp hi)
      rw [one_mul] at hhigh
      rw [Function.comp_apply,Function.comp_apply,hhigh,subsetProduct,if_pos rfl,subsetProduct,mul_one]

end Binius64.SubsetProducts
