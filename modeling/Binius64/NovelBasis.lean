import Binius64.ButterflyNetwork
import Binius64.SubsetProducts
import Binius64.SubspacePolynomials

/-!
# Butterfly networks over subspaces

A network whose factors are the values of the normalised subspace polynomials evaluates the
polynomial with given coefficients in the novel basis.
-/

namespace Binius64.NovelBasis

open ButterflyNetwork SubsetProducts SubspacePolynomials Polynomial List

variable {F : Type} [Field F]

def clearBit (s i : ℕ) : ℕ := i - i / 2 ^ s % 2 * 2 ^ s

theorem clearBit_split (s i : ℕ) : clearBit s i = i / 2 ^ (s + 1) * 2 ^ (s + 1) + i % 2 ^ s := by
  have hdiv : i / 2 ^ s * 2 ^ s + i % 2 ^ s = i := Nat.div_add_mod' i (2 ^ s)
  have hbit : i / 2 ^ s / 2 * 2 + i / 2 ^ s % 2 = i / 2 ^ s := Nat.div_add_mod' _ 2
  have hsum : i / 2 ^ (s + 1) * 2 ^ (s + 1) + i / 2 ^ s % 2 * 2 ^ s = i / 2 ^ s * 2 ^ s := by
    rw [div_pow_succ,pow_succ]
    conv_rhs => rw [←hbit]
    ring
  rw [clearBit]
  omega

theorem clearBit_parts (s i : ℕ) : clearBit s i / 2 ^ (s + 1) = i / 2 ^ (s + 1) ∧
    clearBit s i % 2 ^ (s + 1) = i % 2 ^ s ∧ (clearBit s i + 2 ^ s) / 2 ^ (s + 1) = i / 2 ^ (s + 1) ∧
      (clearBit s i + 2 ^ s) % 2 ^ (s + 1) = 2 ^ s + i % 2 ^ s := by
  have hlow : i % 2 ^ s < 2 ^ s := Nat.mod_lt _ (Nat.two_pow_pos s)
  have hdouble : 2 ^ (s + 1) = 2 ^ s + 2 ^ s := by rw [pow_succ,mul_two]
  have hlt : i % 2 ^ s < 2 ^ (s + 1) := by omega
  have hlt' : 2 ^ s + i % 2 ^ s < 2 ^ (s + 1) := by omega
  have hset : clearBit s i + 2 ^ s = 2 ^ (s + 1) * (i / 2 ^ (s + 1)) + (2 ^ s + i % 2 ^ s) := by
    rw [clearBit_split]
    ring
  have hclear : clearBit s i = 2 ^ (s + 1) * (i / 2 ^ (s + 1)) + i % 2 ^ s := by
    rw [clearBit_split,mul_comm]
  rw [hset,hclear]
  refine ⟨?_,?_,?_,?_⟩
  · rw [Nat.mul_add_div (Nat.two_pow_pos _),Nat.div_eq_of_lt hlt,add_zero]
  · rw [Nat.mul_add_mod,Nat.mod_eq_of_lt hlt]
  · rw [Nat.mul_add_div (Nat.two_pow_pos _),Nat.div_eq_of_lt hlt',add_zero]
  · rw [Nat.mul_add_mod,Nat.mod_eq_of_lt hlt']

theorem sum_range_double (f : ℕ → F) (n : ℕ) :
    ∑ i ∈ Finset.range (2 * n), f i = ∑ h ∈ Finset.range n, (f (2 * h) + f (2 * h + 1)) := by
  induction n with
  | zero => rfl
  | succ n ih =>
    rw [mul_add,mul_one,Finset.sum_range_succ,Finset.sum_range_succ,ih,Finset.sum_range_succ,add_assoc]

variable (t : ℕ → ℕ → F)

def bitFactor (n i s : ℕ) : F :=
  (if i / 2 ^ s % 2 = 1 then 1 else 0) + t (n - 1 - s) (i / 2 ^ (s + 1))

theorem butterfly_clearBit (τ : ℕ → F) (s : ℕ) (y : ℕ → F) (i : ℕ) : butterfly τ s y i =
    y (clearBit s i) + y (clearBit s i + 2 ^ s) *
      ((if i / 2 ^ s % 2 = 1 then 1 else 0) + τ (i / 2 ^ (s + 1))) := by
  rw [butterfly,clearBit]
  rcases Nat.mod_two_eq_zero_or_one (i / 2 ^ s) with hbit | hbit
  · rw [hbit,if_pos rfl,if_neg zero_ne_one,zero_mul,Nat.sub_zero,zero_add]
  · have hle := pow_le_of_odd hbit
    rw [hbit,if_neg one_ne_zero,if_pos rfl,one_mul,Nat.sub_add_cancel hle]
    ring

theorem layers_tensor (n : ℕ) (c : ℕ → F) {l : ℕ} (hl : l ≤ n) :
    ∀ i < 2 ^ n, layers t n 0 l c i = ∑ j ∈ Finset.range (2 ^ l),
      c (j * 2 ^ (n - l) + i % 2 ^ (n - l)) *
        subsetProduct ((range' (n - l) l).map (bitFactor t n i)) j := by
  induction l with
  | zero =>
    intro i hi
    rw [layers_empty t (le_refl 0),pow_zero,Finset.sum_range_one,range'_zero,map_nil,
      subsetProduct,mul_one,zero_mul,zero_add,Nat.sub_zero,Nat.mod_eq_of_lt hi]
  | succ l ih =>
    intro i hi
    obtain ⟨s,hs⟩ : ∃ s, n = s + 1 + l := ⟨n - 1 - l,by omega⟩
    have hbefore : n - l = s + 1 := by omega
    have hafter : n - (l + 1) = s := by omega
    have hbit : n - 1 - l = s := by omega
    have hblock : i / 2 ^ (s + 1) < 2 ^ l := by
      rw [Nat.div_lt_iff_lt_mul (Nat.two_pow_pos _),←pow_add,add_comm l,←hs]
      exact hi
    obtain ⟨hdiv,hmod,hdiv',hmod'⟩ := clearBit_parts s i
    have hin : ∀ x, x / 2 ^ (s + 1) = i / 2 ^ (s + 1) → x < 2 ^ n := by
      intro x hx
      rw [hs,pow_add,mul_comm,←Nat.div_lt_iff_lt_mul (Nat.two_pow_pos _),hx]
      exact hblock
    -- a factor above the bit does not see it
    have hsame : ∀ x, x / 2 ^ (s + 1) = i / 2 ^ (s + 1) →
        (range' (s + 1) l).map (bitFactor t n x) = (range' (s + 1) l).map (bitFactor t n i) := by
      intro x hx
      refine map_congr_left fun k hk => ?_
      have hle : s + 1 ≤ k := (mem_range'_1.mp hk).1
      have hhigh : ∀ m, s + 1 ≤ m → x / 2 ^ m = i / 2 ^ m := by
        intro m hm
        rw [div_pow_of_le x hm,div_pow_of_le i hm,hx]
      rw [bitFactor,bitFactor,hhigh k hle,hhigh (k + 1) (by omega)]
    have hself : bitFactor t n i s = (if i / 2 ^ s % 2 = 1 then 1 else 0) + t l (i / 2 ^ (s + 1)) := by
      have hlayer : n - 1 - s = l := by omega
      rw [bitFactor,hlayer]
    rw [layers_concat t (Nat.zero_le l),hbit,butterfly_clearBit,←hself,ih (by omega) _ (hin _ hdiv),
      ih (by omega) _ (hin _ hdiv'),hbefore,hafter,hmod,hmod',hsame _ hdiv,hsame _ hdiv',pow_succ' 2 l,
      sum_range_double,Finset.sum_mul,←Finset.sum_add_distrib,range'_succ,map_cons]
    refine Finset.sum_congr rfl fun j _ => ?_
    have heven : 2 * j * 2 ^ s + i % 2 ^ s = j * 2 ^ (s + 1) + i % 2 ^ s := by ring
    have hodd : (2 * j + 1) * 2 ^ s + i % 2 ^ s = j * 2 ^ (s + 1) + (2 ^ s + i % 2 ^ s) := by ring
    rw [heven,hodd,subsetProduct_even,subsetProduct_odd]
    ring

theorem layers_all (n : ℕ) (c : ℕ → F) {i : ℕ} (hi : i < 2 ^ n) :
    layers t n 0 n c i = ∑ j ∈ Finset.range (2 ^ n),
      c j * subsetProduct ((List.range n).map (bitFactor t n i)) j := by
  rw [layers_tensor t n c (le_refl n) i hi,Nat.sub_self,pow_zero,range_eq_range']
  refine Finset.sum_congr rfl fun j _ => ?_
  rw [mul_one,Nat.mod_one,add_zero]

section Evaluation

variable [CharP F 2] {bs : List F}

theorem bitFactor_normalized (h : Independent bs) {t : ℕ → ℕ → F} {i s : ℕ} (hs : s < bs.length)
    (ht : t (bs.length - 1 - s) (i / 2 ^ (s + 1)) =
      subsetSum ((bs.drop (s + 1)).map fun b => (normalized bs s).eval b) (i / 2 ^ (s + 1))) :
    bitFactor t bs.length i s = (normalized bs s).eval (subsetSum bs i) := by
  rw [bitFactor,ht,eval_normalized_subsetSum bs hs.le,drop_element bs hs,map_cons,subsetSum,
    eval_normalized_self h hs,div_pow_succ]

theorem layers_novel (h : Independent bs) {t : ℕ → ℕ → F}
    (ht : ∀ layer < bs.length, ∀ b < 2 ^ layer, t layer b =
      subsetSum ((bs.drop (bs.length - layer)).map fun c =>
        (normalized bs (bs.length - 1 - layer)).eval c) b) (c : ℕ → F) :
    ∀ i < 2 ^ bs.length, layers t bs.length 0 bs.length c i =
      ∑ j ∈ Finset.range (2 ^ bs.length), c j * (novel bs j).eval (subsetSum bs i) := by
  intro i hi
  rw [layers_all t bs.length c hi]
  refine Finset.sum_congr rfl fun j _ => ?_
  rw [eval_novel,subsetProduct_eq_prod,length_map,length_range]
  refine congrArg (c j * ·) (Finset.prod_congr rfl fun s hs => ?_)
  have hs' := Finset.mem_range.mp hs
  have hlayer : bs.length - 1 - s < bs.length := by omega
  have hblock : i / 2 ^ (s + 1) < 2 ^ (bs.length - 1 - s) := by
    have hsum : bs.length - 1 - s + (s + 1) = bs.length := by omega
    rw [Nat.div_lt_iff_lt_mul (Nat.two_pow_pos _),←pow_add,hsum]
    exact hi
  have hdrop : bs.length - (bs.length - 1 - s) = s + 1 := by omega
  have hbit : bs.length - 1 - (bs.length - 1 - s) = s := by omega
  have hfactor := ht _ hlayer _ hblock
  rw [hdrop,hbit] at hfactor
  rw [getD_eq_getElem _ _ (by simpa using hs'),getElem_map,getElem_range,
    bitFactor_normalized h hs' hfactor]

end Evaluation

end Binius64.NovelBasis
