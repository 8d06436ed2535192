import Binius64.EqualityTensor
import Binius64.GhashRing

/-!
# Prefix sums of the equality indicator

The denominator check of the memory argument needs the sum of the indicator of a point over the
vertices below a bound.
-/

namespace Binius64.VmRamSort

open Finset EqualityTensor GhashField

variable {F : Type} [Field F]

/-- One coordinate of the walk: the sum gathered above the bound and the weight of its path. -/
def eqPrefixStep (r : List F) (m : ℕ) (state : F × F) (i : ℕ) : F × F :=
  let (tail,w) := state
  let mb := m >>> i &&& 1
  (if mb = 0 then tail + w * r.getD i 0 else tail,w * if mb = 1 then r.getD i 0 else 1 - r.getD i 0)

/-- The sum of the indicator over the vertices below a bound. -/
def eqPrefixSum (r : List F) (m : ℕ) : F :=
  let (tail,w) := (List.range r.length).reverse.foldl (eqPrefixStep r m) (0,1)
  1 - (tail + w)

theorem bit_eq (m i : ℕ) : m >>> i &&& 1 = m / 2 ^ i % 2 := by
  rw [Nat.and_one_is_mod,Nat.shiftRight_eq_div_pow]

variable (r : List F)

theorem sum_snoc_low (x : F) {n : ℕ} (hn : n ≤ 2 ^ r.length) :
    ∑ j ∈ range n, eqTensor (r ++ [x]) j = (1 - x) * ∑ j ∈ range n, eqTensor r j := by
  rw [mul_sum]
  refine sum_congr rfl fun j hj => ?_
  have hj' : j < 2 ^ r.length := (mem_range.mp hj).trans_le hn
  have hsplit := eqTensor_split r [x] (h := 0) rfl hj'
  rw [zero_mul,zero_add] at hsplit
  rw [hsplit,eqTensor,eqTensor,Nat.zero_mod,if_pos rfl]
  ring

theorem sum_snoc_high (x : F) {n : ℕ} (hn : n ≤ 2 ^ r.length) :
    ∑ j ∈ range (2 ^ r.length + n), eqTensor (r ++ [x]) j =
      (1 - x) + x * ∑ j ∈ range n, eqTensor r j := by
  rw [sum_range_add,sum_snoc_low r x (Nat.le_refl _),sum_eqTensor,mul_one,mul_sum]
  refine congrArg₂ (· + ·) rfl (sum_congr rfl fun j hj => ?_)
  have hj' : j < 2 ^ r.length := (mem_range.mp hj).trans_le hn
  have hsplit := eqTensor_split r [x] (h := 1) rfl hj'
  rw [one_mul] at hsplit
  rw [hsplit,eqTensor,eqTensor,if_neg (by decide)]
  ring

theorem eqPrefixStep_run (m : ℕ) (tail w : F) :
    (List.range r.length).reverse.foldl (eqPrefixStep r m) (tail,w) =
      (tail + w * (1 - ∑ j ∈ range (m % 2 ^ r.length), eqTensor r j - eqTensor r m),
        w * eqTensor r m) := by
  induction r using List.reverseRecOn generalizing tail w with
  | nil =>
    rw [List.length_nil,pow_zero,Nat.mod_one,range_zero,sum_empty,eqTensor]
    refine Prod.ext ?_ (mul_one w).symm
    change tail = _
    ring
  | append_singleton r x ih =>
    have hlast : (r ++ [x]).getD r.length 0 = x := by
      rw [List.getD_append_right _ _ _ _ (Nat.le_refl _),Nat.sub_self]
      rfl
    have hrest : ∀ state, (List.range r.length).reverse.foldl (eqPrefixStep (r ++ [x]) m) state =
        (List.range r.length).reverse.foldl (eqPrefixStep r m) state := by
      intro state
      refine List.foldl_ext _ _ state fun s i hi => ?_
      have hlt : i < r.length := List.mem_range.mp (List.mem_reverse.mp hi)
      rw [eqPrefixStep,eqPrefixStep,List.getD_append _ _ _ _ hlt]
    have hwalk : (List.range (r ++ [x]).length).reverse = r.length :: (List.range r.length).reverse := by
      rw [List.length_append,List.length_singleton,List.range_succ,List.reverse_append]
      rfl
    have hlow : m % 2 ^ r.length < 2 ^ r.length := Nat.mod_lt m (Nat.two_pow_pos _)
    have hmod : m % 2 ^ (r.length + 1) = 2 ^ r.length * (m / 2 ^ r.length % 2) + m % 2 ^ r.length := by
      rw [pow_succ,Nat.mod_mul,add_comm]
    have htensor : eqTensor (r ++ [x]) m =
        eqTensor r m * if m / 2 ^ r.length % 2 = 0 then 1 - x else x := by
      rw [eqTensor_append,eqTensor,eqTensor,mul_one]
    have hlen : (r ++ [x]).length = r.length + 1 := by rw [List.length_append,List.length_singleton]
    rw [hwalk,List.foldl_cons,hrest,eqPrefixStep,bit_eq,hlast,htensor,hlen,hmod]
    rcases Nat.mod_two_eq_zero_or_one (m / 2 ^ r.length) with hbit | hbit
    · rw [hbit,if_pos rfl,if_neg (by decide),if_pos rfl,ih,mul_zero,zero_add,sum_snoc_low r x hlow.le]
      refine Prod.ext ?_ ?_
      · ring
      · ring
    · rw [hbit,if_neg (by decide),if_pos rfl,if_neg (by decide),ih,mul_one,sum_snoc_high r x hlow.le]
      refine Prod.ext ?_ ?_
      · ring
      · ring

theorem eqPrefixSum_mod (m : ℕ) :
    eqPrefixSum r m = ∑ j ∈ range (m % 2 ^ r.length), eqTensor r j := by
  rw [eqPrefixSum,eqPrefixStep_run]
  ring

theorem eqPrefixSum_full : eqPrefixSum r (2 ^ r.length) = 0 := by
  rw [eqPrefixSum_mod,Nat.mod_self,range_zero,sum_empty]

/-- The answer is the sum below the bound unless the bound is the whole cube. -/
theorem eqPrefixSum_eq_iff (r : List F) {m : ℕ} (hm : m ≤ 2 ^ r.length) :
    eqPrefixSum r m = ∑ j ∈ range m, eqTensor r j ↔ m < 2 ^ r.length := by
  constructor
  · intro h
    refine hm.lt_of_ne fun hfull => ?_
    rw [hfull,eqPrefixSum_full,sum_eqTensor] at h
    exact zero_ne_one h
  · intro h
    rw [eqPrefixSum_mod,Nat.mod_eq_of_lt h]

/-- Three of the four vertices of a square. -/
theorem eqPrefixSum_three : eqPrefixSum [(⟨2⟩ : Ghash128b),⟨3⟩] 3 =
    ∑ j ∈ range 3, eqTensor [(⟨2⟩ : Ghash128b),⟨3⟩] j :=
  (eqPrefixSum_eq_iff [(⟨2⟩ : Ghash128b),⟨3⟩] (by decide)).mpr (by decide)

/-- A memory argument of 1024 rows a side fills its columns of 2048 rows. -/
theorem eqPrefixSum_fullColumns : eqPrefixSum (List.replicate 11 (⟨2⟩ : Ghash128b)) (2 * 1024) ≠
    ∑ j ∈ range (2 * 1024), eqTensor (List.replicate 11 (⟨2⟩ : Ghash128b)) j := by
  have hlen : 2 * 1024 = 2 ^ (List.replicate 11 (⟨2⟩ : Ghash128b)).length := by
    rw [List.length_replicate]
    rfl
  rw [hlen,eqPrefixSum_full,sum_eqTensor]
  exact zero_ne_one

end Binius64.VmRamSort
