import Binius64.InplaceEvaluation
import Mathlib.Data.List.GetD

/-!
# Tensors of the equality indicator

The values of the equality indicator of a point at the vertices of the cube, each vertex by the
number its coordinates spell, the first of them the lowest bit.
-/

namespace Binius64.EqualityTensor

open Finset InplaceEvaluation
open LayerChecks (extrapolateLine)

variable {F : Type} [Field F]

/-- The expansion of a point, a coordinate at a time: each doubles the length. -/
def eqIndPartialEvalScalars (point : List F) : List F :=
  point.foldl (fun result r => result.map (fun v => v - v * r) ++ result.map (· * r)) [1]

/-- The equality indicator of a point at the vertex of an index. -/
def eqTensor : List F → ℕ → F
  | [],_ => 1
  | r :: rs,i => (if i % 2 = 0 then 1 - r else r) * eqTensor rs (i / 2)

theorem eqTensor_append (as bs : List F) (i : ℕ) :
    eqTensor (as ++ bs) i = eqTensor as i * eqTensor bs (i / 2 ^ as.length) := by
  induction as generalizing i with
  | nil => rw [List.nil_append,eqTensor,one_mul,List.length_nil,pow_zero,Nat.div_one]
  | cons a as ih =>
    rw [List.cons_append,eqTensor,eqTensor,ih,List.length_cons,pow_succ',←Nat.div_div_eq_div_mul,
      mul_assoc]

theorem eqTensor_mod (as : List F) (i : ℕ) : eqTensor as (i % 2 ^ as.length) = eqTensor as i := by
  induction as generalizing i with
  | nil => rfl
  | cons a as ih =>
    have hlow : i % 2 ^ (as.length + 1) % 2 = i % 2 :=
      Nat.mod_mod_of_dvd i (dvd_pow_self 2 (Nat.succ_ne_zero _))
    have hhigh : i % 2 ^ (as.length + 1) / 2 = i / 2 % 2 ^ as.length := by
      rw [pow_succ',Nat.mod_mul_right_div_self]
    rw [eqTensor,eqTensor,List.length_cons,hlow,hhigh,ih]

variable (point : List F)

theorem eqIndPartialEvalScalars_eq : eqIndPartialEvalScalars point =
    (List.range (2 ^ point.length)).map (eqTensor point) := by
  induction point using List.reverseRecOn with
  | nil => rfl
  | append_singleton point r ih =>
    have hstep : eqIndPartialEvalScalars (point ++ [r]) =
        (eqIndPartialEvalScalars point).map (fun v => v - v * r) ++
          (eqIndPartialEvalScalars point).map (· * r) := by
      rw [eqIndPartialEvalScalars,List.foldl_append]
      rfl
    have hlen : 2 ^ (point ++ [r]).length = 2 ^ point.length + 2 ^ point.length := by
      rw [List.length_append,List.length_singleton,pow_succ,mul_two]
    rw [hstep,ih,hlen,List.range_add,List.map_append,List.map_map,List.map_map,List.map_map]
    congr 1
    · refine List.map_congr_left fun i hi => ?_
      rw [Function.comp_apply,eqTensor_append,Nat.div_eq_of_lt (List.mem_range.mp hi),eqTensor,
        Nat.zero_mod,if_pos rfl,eqTensor]
      ring
    · refine List.map_congr_left fun i hi => ?_
      have hhigh : (2 ^ point.length + i) / 2 ^ point.length = 1 := by
        rw [Nat.add_div_left _ (Nat.two_pow_pos _),Nat.div_eq_of_lt (List.mem_range.mp hi)]
      have hlow : eqTensor point (2 ^ point.length + i) = eqTensor point i := by
        rw [←eqTensor_mod point (_ + i),Nat.add_mod_left,eqTensor_mod]
      rw [Function.comp_apply,Function.comp_apply,eqTensor_append,hhigh,hlow,eqTensor,
        if_neg (by decide : ¬1 % 2 = 0),eqTensor,mul_one]

theorem eqIndPartialEvalScalars_length :
    (eqIndPartialEvalScalars point).length = 2 ^ point.length := by
  rw [eqIndPartialEvalScalars_eq,List.length_map,List.length_range]

theorem sum_range_even_odd {A : Type} [AddCommMonoid A] (f : ℕ → A) (n : ℕ) :
    ∑ i ∈ range (2 * n), f i = ∑ i ∈ range n, (f (2 * i) + f (2 * i + 1)) := by
  induction n with
  | zero => rfl
  | succ n ih =>
    rw [mul_add,mul_one,sum_range_succ,sum_range_succ,ih,sum_range_succ,add_assoc]

theorem sum_range_mul {A : Type} [AddCommMonoid A] (f : ℕ → A) (m n : ℕ) :
    ∑ i ∈ range (m * n), f i = ∑ h ∈ range n, ∑ l ∈ range m, f (h * m + l) := by
  induction n with
  | zero => rfl
  | succ n ih =>
    rw [mul_add,mul_one,sum_range_add,ih,sum_range_succ]
    refine congrArg₂ (· + ·) rfl (sum_congr rfl fun l _ => ?_)
    rw [mul_comm m n]

theorem split_bits {n h l : ℕ} (hl : l < 2 ^ n) : (h * 2 ^ n + l) / 2 ^ n = h ∧ (h * 2 ^ n + l) % 2 ^ n = l := by
  refine ⟨?_,?_⟩
  · rw [mul_comm,Nat.mul_add_div (Nat.two_pow_pos n),Nat.div_eq_of_lt hl,add_zero]
  · rw [mul_comm,Nat.mul_add_mod,Nat.mod_eq_of_lt hl]

theorem eqTensor_split (low high : List F) {n h l : ℕ} (hn : low.length = n) (hl : l < 2 ^ n) :
    eqTensor (low ++ high) (h * 2 ^ n + l) = eqTensor low l * eqTensor high h := by
  have hlow : eqTensor low (h * 2 ^ n + l) = eqTensor low l := by
    rw [←eqTensor_mod low (h * 2 ^ n + l),hn,(split_bits hl).2]
  rw [eqTensor_append,hn,(split_bits hl).1,hlow]

variable (r : F)

theorem sum_eqTensor_cons (point : List F) (f : ℕ → F) :
    ∑ i ∈ range (2 ^ (r :: point).length), eqTensor (r :: point) i * f i =
      ∑ j ∈ range (2 ^ point.length), eqTensor point j * ((1 - r) * f (2 * j) + r * f (2 * j + 1)) := by
  rw [List.length_cons,pow_succ',sum_range_even_odd]
  refine sum_congr rfl fun j _ => ?_
  have hodd : (2 * j + 1) / 2 = j := by omega
  rw [eqTensor,eqTensor,Nat.mul_mod_right,if_pos rfl,Nat.mul_div_cancel_left j Nat.two_pos,hodd,
    if_neg (by omega : ¬(2 * j + 1) % 2 = 0)]
  ring

theorem sum_eqTensor : ∑ e ∈ range (2 ^ point.length), eqTensor point e = 1 := by
  induction point with
  | nil => rw [List.length_nil,pow_zero,sum_range_one,eqTensor]
  | cons r point ih =>
    have hcons := sum_eqTensor_cons r point fun _ => 1
    simp only [mul_one,sub_add_cancel] at hcons
    rw [hcons,ih]

theorem sum_zipWith {as bs : List F} {n : ℕ} (ha : as.length = n) (hb : bs.length = n) :
    (List.zipWith (fun a b => b * a) as bs).sum = ∑ i ∈ range n, bs.getD i 0 * as.getD i 0 := by
  induction n generalizing as bs with
  | zero =>
    rw [List.length_eq_zero_iff.mp ha]
    rfl
  | succ n ih =>
    cases as with
    | nil => cases ha
    | cons a as =>
      cases bs with
      | nil => cases hb
      | cons b bs =>
        rw [List.zipWith_cons_cons,List.sum_cons,ih (Nat.succ.inj ha) (Nat.succ.inj hb),sum_range_succ',
          add_comm]
        rfl

theorem evaluateLoop_eq_sum (x : ℕ → F) :
    evaluateLoop point x 0 = ∑ i ∈ range (2 ^ point.length), eqTensor point i * x i := by
  induction point generalizing x with
  | nil =>
    rw [List.length_nil,pow_zero,sum_range_one,eqTensor,one_mul]
    rfl
  | cons r point ih =>
    rw [evaluateLoop_cons,ih,sum_eqTensor_cons]
    refine sum_congr rfl fun i _ => ?_
    rw [extrapolateLine]
    ring

/-- The multilinear extension of a function on the vertices. -/
def mle (point : List F) (f : ℕ → F) : F := ∑ i ∈ range (2 ^ point.length), eqTensor point i * f i

theorem mle_nil (f : ℕ → F) : mle [] f = f 0 := by
  rw [mle,List.length_nil,pow_zero,sum_range_one,eqTensor,one_mul]

theorem mle_cons (point : List F) (f : ℕ → F) :
    mle (r :: point) f = mle point fun i => (1 - r) * f (2 * i) + r * f (2 * i + 1) :=
  sum_eqTensor_cons r point f

theorem mle_congr {point : List F} {f g : ℕ → F} (h : ∀ i < 2 ^ point.length, f i = g i) :
    mle point f = mle point g :=
  sum_congr rfl fun i hi => by rw [h i (mem_range.mp hi)]

theorem mle_add (f g : ℕ → F) : mle point (fun i => f i + g i) = mle point f + mle point g := by
  rw [mle,mle,mle,←sum_add_distrib]
  exact sum_congr rfl fun i _ => mul_add _ _ _

theorem mle_mul_left (c : F) (f : ℕ → F) : mle point (fun i => c * f i) = c * mle point f := by
  rw [mle,mle,mul_sum]
  exact sum_congr rfl fun i _ => mul_left_comm _ _ _

theorem mle_const (c : F) : mle point (fun _ => c) = c := by
  rw [mle,←sum_mul,sum_eqTensor,one_mul]

theorem mle_concat (f : ℕ → F) :
    mle (point ++ [r]) f = (1 - r) * mle point f + r * mle point fun i => f (2 ^ point.length + i) := by
  have hlen : 2 ^ (point ++ [r]).length = 2 ^ point.length + 2 ^ point.length := by
    rw [List.length_append,List.length_singleton,pow_succ,mul_two]
  rw [mle,mle,mle,hlen,sum_range_add,mul_sum,mul_sum]
  refine congrArg₂ (· + ·) (sum_congr rfl fun i hi => ?_) (sum_congr rfl fun i hi => ?_)
  · rw [eqTensor_append,Nat.div_eq_of_lt (mem_range.mp hi),eqTensor,Nat.zero_mod,if_pos rfl,eqTensor]
    ring
  · have hhigh : (2 ^ point.length + i) / 2 ^ point.length = 1 := by
      rw [Nat.add_div_left _ (Nat.two_pow_pos _),Nat.div_eq_of_lt (mem_range.mp hi)]
    have hlow : eqTensor point (2 ^ point.length + i) = eqTensor point i := by
      rw [←eqTensor_mod point (_ + i),Nat.add_mod_left,eqTensor_mod]
    rw [eqTensor_append,hhigh,hlow,eqTensor,if_neg (by decide : ¬1 % 2 = 0),eqTensor]
    ring

theorem mle_comm (as bs : List F) (f : ℕ → ℕ → F) :
    mle as (fun i => mle bs fun j => f i j) = mle bs fun j => mle as fun i => f i j := by
  simp only [mle,mul_sum]
  rw [sum_comm]
  exact sum_congr rfl fun j _ => sum_congr rfl fun i _ => mul_left_comm _ _ _

theorem mle_high (g : ℕ → ℕ → F) :
    mle (point ++ [r]) (fun i => g (i / 2 ^ point.length) (i % 2 ^ point.length)) =
      (1 - r) * mle point (g 0) + r * mle point (g 1) := by
  rw [mle_concat]
  refine congrArg₂ (fun x y => (1 - r) * x + r * y) (mle_congr fun i hi => ?_) (mle_congr fun i hi => ?_)
  · rw [Nat.div_eq_of_lt hi,Nat.mod_eq_of_lt hi]
  · rw [Nat.add_div_left _ (Nat.two_pow_pos _),Nat.div_eq_of_lt hi,Nat.add_mod_left,Nat.mod_eq_of_lt hi]

theorem eqTensor_last : eqTensor point (2 ^ point.length - 1) = point.prod := by
  induction point with
  | nil => rfl
  | cons r point ih =>
    have hpos := Nat.two_pow_pos point.length
    have hodd : (2 ^ (r :: point).length - 1) % 2 = 1 := by
      rw [List.length_cons,pow_succ]
      omega
    have hhalf : (2 ^ (r :: point).length - 1) / 2 = 2 ^ point.length - 1 := by
      rw [List.length_cons,pow_succ]
      omega
    rw [eqTensor,hodd,hhalf,ih,if_neg one_ne_zero,List.prod_cons]

theorem mle_single {k : ℕ} (hk : k < 2 ^ point.length) :
    mle point (fun i => if i = k then 1 else 0) = eqTensor point k := by
  rw [mle,sum_eq_single_of_mem k (mem_range.mpr hk) fun i _ hik => ?_]
  · rw [if_pos rfl,mul_one]
  · rw [if_neg hik,mul_zero]

section Indicator

variable [DecidableEq F]

/-- The equality indicator of one variable; in characteristic two the product vanishes. -/
def eqOneVar (x y : F) : F := if (2 : F) = 0 then x + y + 1 else x * y + (1 - x) * (1 - y)

/-- The equality indicator of two points of one length. -/
def eqInd (x y : List F) : Option F := do
  guard (x.length = y.length)
  return (List.zipWith eqOneVar x y).prod

theorem eqOneVar_eq (x y : F) : eqOneVar x y = x * y + (1 - x) * (1 - y) := by
  rw [eqOneVar]
  split
  · rename_i htwo
    have hdouble : ∀ z : F, z + z = 0 := fun z => by rw [←two_mul,htwo,zero_mul]
    calc x + y + 1 = x + y + 1 + (x * y + x * y) - (x + x) - (y + y) := by
          rw [hdouble,hdouble,hdouble,add_zero,sub_zero,sub_zero]
      _ = x * y + (1 - x) * (1 - y) := by ring
  · rfl

theorem eqOneVar_zero (x : F) : eqOneVar x 0 = 1 - x := by
  rw [eqOneVar_eq]
  ring

theorem eqOneVar_one (x : F) : eqOneVar x 1 = x := by
  rw [eqOneVar_eq]
  ring

theorem eqInd_of_length {x y : List F} (h : x.length = y.length) :
    eqInd x y = some (List.zipWith eqOneVar x y).prod := by
  rw [eqInd,guard,if_pos h]
  rfl

end Indicator

def vertex : ℕ → ℕ → List F
  | 0,_ => []
  | n + 1,i => (if i % 2 = 0 then 0 else 1) :: vertex n (i / 2)

theorem vertex_length (n i : ℕ) : (vertex n i : List F).length = n := by
  induction n generalizing i with
  | zero => rfl
  | succ n ih => rw [vertex,List.length_cons,ih]

theorem evaluateLoop_vertex {n i : ℕ} (hi : i < 2 ^ n) (x : ℕ → F) :
    evaluateLoop (vertex n i) x 0 = x i := by
  induction n generalizing i x with
  | zero =>
    have hzero : i = 0 := by omega
    rw [hzero]
    rfl
  | succ n ih =>
    rw [vertex,evaluateLoop_cons,ih (by omega : i / 2 < 2 ^ n),extrapolateLine]
    rcases Nat.mod_two_eq_zero_or_one i with hbit | hbit
    · have hi2 : 2 * (i / 2) = i := by omega
      rw [if_pos hbit,hi2,mul_zero,add_zero]
    · have hi2 : 2 * (i / 2) + 1 = i := by omega
      rw [hbit,if_neg one_ne_zero,hi2,mul_one,add_sub_cancel]

/-- The polynomial with given values, its variables from a number on. -/
noncomputable def extension : (k n : ℕ) → (ℕ → F) → MvPolynomial ℕ F
  | _,0,x => MvPolynomial.C (x 0)
  | k,n + 1,x => (1 - MvPolynomial.X k) * extension (k + 1) n (fun j => x (2 * j)) +
      MvPolynomial.X k * extension (k + 1) n (fun j => x (2 * j + 1))

theorem eval_extension (p : ℕ → F) (k n : ℕ) (x : ℕ → F) :
    MvPolynomial.eval p (extension k n x) =
      evaluateLoop ((List.range' k n).map p) x 0 := by
  induction n generalizing k x with
  | zero => exact MvPolynomial.eval_C _
  | succ n ih =>
    rw [extension,List.range'_succ,List.map_cons,evaluateLoop_cons,evaluateLoop_extrapolateLine,
      map_add,map_mul,map_mul,map_sub,map_one,MvPolynomial.eval_X,ih,ih,extrapolateLine]
    ring

theorem degreeOf_extension_outside {i k n : ℕ} (h : i < k ∨ k + n ≤ i) (x : ℕ → F) :
    (extension k n x).degreeOf i = 0 := by
  induction n generalizing k x with
  | zero => exact MvPolynomial.degreeOf_C _ _
  | succ n ih =>
    have hx : (MvPolynomial.X k : MvPolynomial ℕ F).degreeOf i = 0 := by
      rw [MvPolynomial.degreeOf_X,if_neg (by omega)]
    have hone : (1 - MvPolynomial.X k : MvPolynomial ℕ F).degreeOf i = 0 := by
      refine Nat.le_zero.mp ((MvPolynomial.degreeOf_sub_le _ _ _).trans ?_)
      rw [MvPolynomial.degreeOf_one,hx,max_self]
    refine Nat.le_zero.mp ((MvPolynomial.degreeOf_add_le _ _ _).trans (max_le ?_ ?_))
    · refine (MvPolynomial.degreeOf_mul_le _ _ _).trans ?_
      rw [hone,ih (by omega)]
    · refine (MvPolynomial.degreeOf_mul_le _ _ _).trans ?_
      rw [hx,ih (by omega)]

theorem degreeOf_extension_le (i k n : ℕ) (x : ℕ → F) : (extension k n x).degreeOf i ≤ 1 := by
  induction n generalizing k x with
  | zero =>
    rw [extension,MvPolynomial.degreeOf_C]
    exact Nat.zero_le 1
  | succ n ih =>
    have hx : (MvPolynomial.X k : MvPolynomial ℕ F).degreeOf i = if i = k then 1 else 0 := by
      rw [MvPolynomial.degreeOf_X]
    have hone : (1 - MvPolynomial.X k : MvPolynomial ℕ F).degreeOf i ≤ if i = k then 1 else 0 := by
      refine (MvPolynomial.degreeOf_sub_le _ _ _).trans ?_
      rw [MvPolynomial.degreeOf_one,hx]
      exact max_le (Nat.zero_le _) le_rfl
    have hrest : ∀ y : ℕ → F, (if i = k then 1 else 0) + (extension (k + 1) n y).degreeOf i ≤ 1 := by
      intro y
      by_cases hik : i = k
      · rw [if_pos hik,degreeOf_extension_outside (by omega)]
      · rw [if_neg hik,zero_add]
        exact ih (k + 1) y
    refine (MvPolynomial.degreeOf_add_le _ _ _).trans (max_le ?_ ?_)
    · exact (MvPolynomial.degreeOf_mul_le _ _ _).trans ((Nat.add_le_add_right hone _).trans (hrest _))
    · refine (MvPolynomial.degreeOf_mul_le _ _ _).trans ?_
      rw [hx]
      exact hrest _

theorem extension_ne_zero {n i : ℕ} (hi : i < 2 ^ n) {x : ℕ → F} (hx : x i ≠ 0) :
    extension 0 n x ≠ 0 := by
  intro hzero
  have hval := eval_extension (fun k => (vertex n i : List F).getD k 0) 0 n x
  have hpoint : (List.range' 0 n).map (fun k => (vertex n i : List F).getD k 0) = vertex n i := by
    refine List.ext_getElem (by rw [List.length_map,List.length_range',vertex_length]) fun k hk hk' => ?_
    rw [List.getElem_map,List.getElem_range',zero_add,one_mul,List.getD_eq_getElem _ _ hk']
  rw [hpoint,evaluateLoop_vertex hi,hzero,map_zero] at hval
  exact hx hval.symm

end Binius64.EqualityTensor
