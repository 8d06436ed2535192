import Mathlib.Algebra.CharP.Two
import Mathlib.Algebra.Polynomial.Div
import Mathlib.Data.Nat.Bitwise
import Mathlib.Data.Nat.Count
import Mathlib.Data.Int.CardIntervalMod
import Mathlib.Data.ZMod.Basic
import Mathlib.FieldTheory.Finite.Basic

/-!
# Products without carries

The bits of a word are the coefficients of a polynomial over the field of two elements.
-/

namespace Binius64.CarrylessProducts

open Polynomial
open Finset (range mem_range sum_congr)
open BitVec (eq_of_getLsbD_eq getLsbD_of_ge getLsbD_twoPow getLsbD_zero twoPow)

theorem bit_induction {n : ℕ} {P : BitVec n → Prop} (hzero : P 0)
    (hset : ∀ x i, i < n → x.getLsbD i = false → P x → P (x ||| twoPow n i)) (x : BitVec n) : P x := by
  have hbelow : ∀ m x, (∀ k, m ≤ k → BitVec.getLsbD (w := n) x k = false) → P x := by
    intro m
    induction m with
    | zero =>
      intro x hx
      have hx₀ : x = 0 := eq_of_getLsbD_eq fun k _ => by
        rw [hx k (Nat.zero_le k),BitVec.ofNat_eq_ofNat,getLsbD_zero]
      rw [hx₀]
      exact hzero
    | succ m ih =>
      intro x hx
      cases hm : x.getLsbD m with
      | false =>
        refine ih x fun k hk => ?_
        rcases Nat.eq_or_lt_of_le hk with rfl | hlt
        · exact hm
        · exact hx k hlt
      | true =>
        have hlt : m < n := by
          by_contra hge
          rw [getLsbD_of_ge x m (not_lt.mp hge)] at hm
          exact Bool.false_ne_true hm
        set y := x &&& ~~~twoPow n m with hy
        have hbit : ∀ k, y.getLsbD k = (x.getLsbD k && !decide (m = k)) := by
          intro k
          rw [hy,BitVec.getLsbD_and,BitVec.getLsbD_not,getLsbD_twoPow]
          by_cases hk : k < n
          · rw [decide_eq_true hk,decide_eq_true hlt,Bool.true_and,Bool.true_and]
          · rw [getLsbD_of_ge x k (not_lt.mp hk)]
            rfl
        have hsplit : x = y ||| twoPow n m := by
          refine eq_of_getLsbD_eq fun k hk => ?_
          rw [BitVec.getLsbD_or,hbit,getLsbD_twoPow,decide_eq_true hlt,Bool.true_and]
          by_cases hkm : m = k
          · rw [← hkm,hm]
            simp
          · rw [decide_eq_false hkm]
            simp
        have hlow : ∀ k, m ≤ k → y.getLsbD k = false := by
          intro k hk
          rw [hbit]
          rcases Nat.eq_or_lt_of_le hk with rfl | hgt
          · simp
          · rw [hx k hgt]
            rfl
        rw [hsplit]
        exact hset y m hlt (hlow m le_rfl) (ih y hlow)
  exact hbelow n x fun k hk => getLsbD_of_ge x k hk

section Words

variable {n : ℕ}

/-- The bits of a word as natural coefficients. -/
noncomputable def natPoly (x : BitVec n) : ℕ[X] :=
  ∑ i ∈ range n, C (x.getLsbD i).toNat * X ^ i

/-- The polynomial over the field of two elements whose coefficients are the bits of a word. -/
noncomputable def bitPoly (x : BitVec n) : (ZMod 2)[X] := (natPoly x).map (Nat.castRingHom (ZMod 2))

variable (x : BitVec n)

theorem coeff_natPoly (k : ℕ) : (natPoly x).coeff k = (x.getLsbD k).toNat := by
  unfold natPoly
  rw [finsetSum_coeff]
  simp only [coeff_C_mul_X_pow]
  rw [Finset.sum_ite_eq]
  split_ifs with hk
  · rfl
  · rw [getLsbD_of_ge x k (not_lt.mp (mt mem_range.mpr hk))]
    rfl

theorem coeff_bitPoly (k : ℕ) : (bitPoly x).coeff k = ((x.getLsbD k).toNat : ZMod 2) := by
  unfold bitPoly
  rw [coeff_map,coeff_natPoly]
  rfl

theorem natDegree_natPoly_lt (hn : 0 < n) : (natPoly x).natDegree < n := by
  have hle : (natPoly x).natDegree ≤ n - 1 := by
    refine natDegree_le_iff_coeff_eq_zero.mpr fun k hk => ?_
    rw [coeff_natPoly,getLsbD_of_ge x k (by omega)]
    rfl
  omega

theorem degree_bitPoly_lt : (bitPoly x).degree < n := by
  refine (degree_lt_iff_coeff_zero _ _).mpr fun k hk => ?_
  rw [coeff_bitPoly,getLsbD_of_ge x k hk]
  rfl

theorem natDegree_bitPoly_le : (bitPoly x).natDegree ≤ n - 1 := by
  refine natDegree_le_iff_coeff_eq_zero.mpr fun k hk => ?_
  rw [coeff_bitPoly,getLsbD_of_ge x k (by omega)]
  rfl

theorem toNat_cast_injective {b c : Bool} (h : ((b.toNat : ℕ) : ZMod 2) = ((c.toNat : ℕ) : ZMod 2)) : b = c := by
  revert h
  cases b <;> cases c <;> decide

theorem bitPoly_injective : Function.Injective (bitPoly (n := n)) := by
  intro x y h
  refine eq_of_getLsbD_eq fun k _ => toNat_cast_injective ?_
  rw [← coeff_bitPoly,← coeff_bitPoly,h]

@[simp] theorem bitPoly_zero : bitPoly (0 : BitVec n) = 0 := by
  ext k
  rw [coeff_bitPoly,BitVec.ofNat_eq_ofNat,getLsbD_zero,coeff_zero]
  rfl

@[simp] theorem bitPoly_xor (x y : BitVec n) : bitPoly (x ^^^ y) = bitPoly x + bitPoly y := by
  ext k
  rw [coeff_add,coeff_bitPoly,coeff_bitPoly,coeff_bitPoly,BitVec.getLsbD_xor]
  cases x.getLsbD k <;> cases y.getLsbD k <;> decide

theorem eval_natPoly : (natPoly x).eval 2 = x.toNat := by
  have hprefix : ∀ m, ∑ i ∈ range m, (x.getLsbD i).toNat * 2 ^ i = x.toNat % 2 ^ m := by
    intro m
    induction m with
    | zero => rw [Finset.sum_range_zero,pow_zero,Nat.mod_one]
    | succ m ih =>
      rw [Finset.sum_range_succ,ih,Nat.mod_pow_succ,← BitVec.testBit_toNat,Nat.toNat_testBit,Nat.mul_comm]
  have hwhole := hprefix n
  rw [Nat.mod_eq_of_lt x.isLt] at hwhole
  rw [← hwhole]
  unfold natPoly
  rw [eval_finsetSum]
  refine sum_congr rfl fun i _ => ?_
  rw [eval_mul,eval_C,eval_pow,eval_X]

/-- The number of pairs of bits that a column of a product sums. -/
noncomputable def column (x y : BitVec n) (k : ℕ) : ℕ := (natPoly x * natPoly y).coeff k

theorem toNat_mul_eq (x y : BitVec n) (hn : 0 < n) :
    x.toNat * y.toNat = ∑ k ∈ range (2 * n), column x y k * 2 ^ k := by
  have hdegree : (natPoly x * natPoly y).natDegree < 2 * n := by
    have hx := natDegree_natPoly_lt x hn
    have hy := natDegree_natPoly_lt y hn
    have hmul := natDegree_mul_le (p := natPoly x) (q := natPoly y)
    omega
  rw [← eval_natPoly,← eval_natPoly,← eval_mul,eval_eq_sum_range' hdegree]
  rfl

theorem coeff_bitPoly_mul (x y : BitVec n) (k : ℕ) :
    (bitPoly x * bitPoly y).coeff k = (column x y k : ZMod 2) := by
  unfold bitPoly column
  rw [← Polynomial.map_mul,coeff_map]
  rfl

theorem column_eq (x y : BitVec n) (k : ℕ) :
    column x y k = ∑ i ∈ range (k + 1), (x.getLsbD i).toNat * (y.getLsbD (k - i)).toNat := by
  unfold column
  rw [coeff_mul,Finset.Nat.sum_antidiagonal_eq_sum_range_succ_mk]
  refine sum_congr rfl fun i _ => ?_
  rw [coeff_natPoly,coeff_natPoly]

end Words

section Gaps

variable {w k : ℕ} {N : ℕ → ℕ}

theorem sum_gaps_lt (hw : 0 < w) (hzero : ∀ j, j % w ≠ k % w → N j = 0)
    (hlt : ∀ j < k, N j < 2 ^ w) : ∑ j ∈ range k, N j * 2 ^ j < 2 ^ k := by
  induction k using Nat.strong_induction_on with
  | _ k ih =>
    rcases Nat.lt_or_ge k w with hsmall | hlarge
    · have hnone : ∑ j ∈ range k, N j * 2 ^ j = 0 := by
        refine Finset.sum_eq_zero fun j hj => ?_
        have hj' := mem_range.mp hj
        rw [hzero j (by rw [Nat.mod_eq_of_lt (lt_trans hj' hsmall),Nat.mod_eq_of_lt hsmall]; omega),
          Nat.zero_mul]
      rw [hnone]
      exact Nat.two_pow_pos k
    · obtain ⟨m,rfl⟩ : ∃ m, k = m + w := ⟨k - w,by omega⟩
      have hclass : (m + w) % w = m % w := Nat.add_mod_right m w
      have hbelow := ih m (by omega) (fun j hj => hzero j (by rw [hclass]; exact hj))
        fun j hj => hlt j (by omega)
      have hrest : ∑ j ∈ range w, N (m + j) * 2 ^ (m + j) = N m * 2 ^ m := by
        rw [Finset.sum_eq_single_of_mem 0 (mem_range.mpr hw) fun j hj hne => ?_]
        · rfl
        · have hj' := mem_range.mp hj
          rw [hzero (m + j) ?_,Nat.zero_mul]
          rw [hclass]
          intro hmod
          have hdvd : w ∣ j := by
            have hsub := (Nat.modEq_iff_dvd' (Nat.le_add_right m j)).mp hmod.symm
            rwa [Nat.add_sub_cancel_left] at hsub
          exact hne (Nat.eq_zero_of_dvd_of_lt hdvd hj')
      rw [Finset.sum_range_add,hrest]
      have hdigit : N m + 1 ≤ 2 ^ w := hlt m (by omega)
      calc ∑ j ∈ range m, N j * 2 ^ j + N m * 2 ^ m < 2 ^ m + N m * 2 ^ m := by omega
        _ = (N m + 1) * 2 ^ m := by rw [Nat.add_mul,Nat.one_mul,Nat.add_comm]
        _ ≤ 2 ^ w * 2 ^ m := Nat.mul_le_mul_right _ hdigit
        _ = 2 ^ (m + w) := by rw [← pow_add,Nat.add_comm]

theorem testBit_sum {n : ℕ} (hk : k < n) (hbelow : ∑ j ∈ range k, N j * 2 ^ j < 2 ^ k) :
    (∑ j ∈ range n, N j * 2 ^ j).testBit k = (N k).testBit 0 := by
  obtain ⟨m,rfl⟩ : ∃ m, n = k + (m + 1) := ⟨n - k - 1,by omega⟩
  have habove : ∑ j ∈ range (m + 1), N (k + j) * 2 ^ (k + j) =
      2 ^ k * (2 * (∑ j ∈ range m, N (k + (j + 1)) * 2 ^ j) + N k) := by
    rw [Finset.sum_range_succ',Nat.mul_add,← Nat.mul_assoc,Finset.mul_sum,Nat.add_zero,Nat.mul_comm (N k)]
    congr 1
    refine sum_congr rfl fun j _ => ?_
    rw [pow_add,pow_succ]
    ring
  rw [Finset.sum_range_add,habove,Nat.add_comm,Nat.testBit_two_pow_mul_add _ hbelow,if_neg (lt_irrefl k),
    Nat.sub_self,Nat.testBit_zero,Nat.testBit_zero,Nat.mul_add_mod]

end Gaps

section Spaced

variable {n w a b : ℕ} {x y : BitVec n}

/-- The bits of a word stand at the positions of one class. -/
def Spaced (w a : ℕ) (x : BitVec n) : Prop := ∀ i, x.getLsbD i = true → i % w = a % w

theorem column_eq_zero (hx : Spaced w a x) (hy : Spaced w b y) {k : ℕ} (hk : k % w ≠ (a + b) % w) :
    column x y k = 0 := by
  rw [column_eq]
  refine Finset.sum_eq_zero fun i hi => ?_
  cases hxi : x.getLsbD i with
  | false => exact Nat.zero_mul _
  | true =>
    cases hyi : y.getLsbD (k - i) with
    | false => exact Nat.mul_zero _
    | true =>
      have hsum : i + (k - i) = k := by
        have hle := mem_range.mp hi
        omega
      refine absurd ?_ hk
      rw [← hsum,Nat.add_mod,hx i hxi,hy (k - i) hyi,← Nat.add_mod]

theorem column_le (hw : 0 < w) (hx : Spaced w a x) (k : ℕ) :
    column x y k ≤ (k + 1) / w + if a % w < (k + 1) % w then 1 else 0 := by
  rw [column_eq]
  calc ∑ i ∈ range (k + 1), (x.getLsbD i).toNat * (y.getLsbD (k - i)).toNat
      ≤ ∑ i ∈ range (k + 1), if i ≡ a [MOD w] then 1 else 0 := by
        refine Finset.sum_le_sum fun i _ => ?_
        cases hxi : x.getLsbD i with
        | false => exact (Nat.zero_mul _).le.trans (Nat.zero_le _)
        | true =>
          have hclass : i ≡ a [MOD w] := hx i hxi
          rw [if_pos hclass]
          cases y.getLsbD (k - i) <;> decide
    _ = (k + 1).count (· ≡ a [MOD w]) := by
        rw [Finset.sum_boole,Nat.count_eq_card_filter_range]
        rfl
    _ = _ := Nat.count_modEq_card _ hw a

theorem getLsbD_mul_spaced (hw : 0 < w) (hx : Spaced w a x) (hy : Spaced w b y) {k : ℕ} (hk : k < n)
    (hclass : k % w = (a + b) % w) (hfew : k / w < 2 ^ w) :
    (((x * y).getLsbD k).toNat : ZMod 2) = (bitPoly x * bitPoly y).coeff k := by
  have hn : 0 < n := by omega
  have hbelow : ∑ j ∈ range k, column x y j * 2 ^ j < 2 ^ k := by
    refine sum_gaps_lt hw (fun j hj => column_eq_zero hx hy (hclass ▸ hj)) fun j hj => ?_
    by_cases hj' : j % w = k % w
    · have hgap : j / w + 1 ≤ k / w := by
        have hj₀ := Nat.div_add_mod j w
        have hk₀ := Nat.div_add_mod k w
        rw [hj'] at hj₀
        by_contra hlt
        have hle : k / w ≤ j / w := by omega
        have hmul := Nat.mul_le_mul_left w hle
        omega
      have hle := column_le (y := y) hw hx j
      have hceil : (j + 1) / w + (if a % w < (j + 1) % w then 1 else 0) ≤ j / w + 1 := by
        rw [Nat.succ_div]
        split_ifs with hdvd hpos
        · rw [Nat.mod_eq_zero_of_dvd hdvd] at hpos
          exact absurd hpos (Nat.not_lt_zero _)
        · exact le_rfl
        · exact le_rfl
        · exact Nat.le_add_right _ _
      omega
    · rw [column_eq_zero hx hy (hclass ▸ hj')]
      exact Nat.two_pow_pos w
  have hbit : (x * y).getLsbD k = (column x y k).testBit 0 := by
    rw [← testBit_sum (by omega : k < 2 * n) hbelow,← toNat_mul_eq x y hn,← BitVec.testBit_toNat,
      BitVec.toNat_mul,Nat.testBit_mod_two_pow,decide_eq_true hk,Bool.true_and]
  rw [coeff_bitPoly_mul,hbit,Nat.testBit_zero]
  rw [← ZMod.natCast_mod (column x y k) 2]
  rcases Nat.mod_two_eq_zero_or_one (column x y k) with h | h <;> rw [h] <;> rfl

end Spaced

section Halves

variable {n : ℕ}

theorem bitPoly_append (hi lo : BitVec n) : bitPoly (hi ++ lo) = bitPoly lo + X ^ n * bitPoly hi := by
  ext k
  rw [coeff_add,coeff_X_pow_mul',coeff_bitPoly,coeff_bitPoly,BitVec.getLsbD_append]
  by_cases hk : k < n
  · rw [if_pos hk,if_neg (by omega),add_zero]
  · rw [if_neg hk,if_pos (not_lt.mp hk),coeff_bitPoly,getLsbD_of_ge lo k (not_lt.mp hk),Bool.toNat_false,
      Nat.cast_zero,zero_add]

theorem bitPoly_shift (x : BitVec n) {s t : ℕ} (hst : s + t = n) :
    X ^ s * bitPoly x = bitPoly (x <<< s) + X ^ n * bitPoly (x >>> t) := by
  ext k
  rw [coeff_add,coeff_X_pow_mul',coeff_X_pow_mul',coeff_bitPoly,coeff_bitPoly,BitVec.getLsbD_shiftLeft]
  by_cases hk : k < n
  · rw [if_neg (by omega : ¬n ≤ k),add_zero,decide_eq_true hk,Bool.true_and]
    by_cases hsk : s ≤ k
    · rw [if_pos hsk,decide_eq_false (not_lt.mpr hsk),Bool.not_false,Bool.true_and]
    · rw [if_neg hsk,decide_eq_true (not_le.mp hsk)]
      rfl
  · rw [if_pos (by omega : s ≤ k),if_pos (not_lt.mp hk),decide_eq_false hk,coeff_bitPoly,
      BitVec.getLsbD_ushiftRight,show t + (k - n) = k - s by omega]
    change _ = (0 : ZMod 2) + _
    rw [zero_add]

theorem bitPoly_twoPow {s : ℕ} (hs : s < n) : bitPoly (twoPow n s) = X ^ s := by
  ext k
  rw [coeff_bitPoly,coeff_X_pow,getLsbD_twoPow]
  split_ifs with h
  · rw [h,decide_eq_true hs,decide_eq_true rfl]
    rfl
  · rw [decide_eq_false (fun hsk : s = k => h hsk.symm),Bool.and_false]
    rfl

theorem bitPoly_mul_halves {x y lo hi : BitVec n} (hn : 0 < n)
    (hlo : ∀ k < n, ((lo.getLsbD k).toNat : ZMod 2) = (bitPoly x * bitPoly y).coeff k)
    (hhi : ∀ k < n, ((hi.getLsbD k).toNat : ZMod 2) = (bitPoly x.reverse * bitPoly y.reverse).coeff k) :
    bitPoly x * bitPoly y = bitPoly lo + X ^ n * bitPoly (hi.reverse >>> 1) := by
  have hreflect : ∀ z : BitVec n, bitPoly z.reverse = reflect (n - 1) (bitPoly z) := by
    intro z
    ext k
    rw [coeff_reflect,coeff_bitPoly,coeff_bitPoly,BitVec.getLsbD_reverse,BitVec.getMsbD_eq_getLsbD]
    by_cases hk : k < n
    · rw [revAt_le (by omega : k ≤ n - 1),decide_eq_true hk,Bool.true_and]
    · rw [revAt_eq_self_of_lt (by omega : n - 1 < k),decide_eq_false hk,Bool.false_and,
        getLsbD_of_ge z k (not_lt.mp hk)]
  have hback : bitPoly x.reverse * bitPoly y.reverse = reflect (n - 1 + (n - 1)) (bitPoly x * bitPoly y) := by
    rw [hreflect,hreflect,reflect_mul _ _ (natDegree_bitPoly_le x) (natDegree_bitPoly_le y)]
  rw [hback] at hhi
  ext k
  rw [coeff_add,coeff_X_pow_mul',coeff_bitPoly]
  by_cases hk : k < n
  · rw [if_neg (by omega),add_zero,hlo k hk]
  · rw [if_pos (not_lt.mp hk),getLsbD_of_ge lo k (not_lt.mp hk),Bool.toNat_false,Nat.cast_zero,zero_add,
      coeff_bitPoly,BitVec.getLsbD_ushiftRight,BitVec.getLsbD_reverse,BitVec.getMsbD_eq_getLsbD]
    by_cases hin : 1 + (k - n) < n
    · have hrev := hhi (n - 1 - (1 + (k - n))) (by omega)
      rw [coeff_reflect,revAt_le (by omega),
        show n - 1 + (n - 1) - (n - 1 - (1 + (k - n))) = k by omega] at hrev
      rw [decide_eq_true hin,Bool.true_and,hrev]
    · rw [decide_eq_false hin,Bool.false_and,Bool.toNat_false,Nat.cast_zero]
      refine coeff_eq_zero_of_natDegree_lt (lt_of_le_of_lt natDegree_mul_le ?_)
      have hx := natDegree_bitPoly_le x
      have hy := natDegree_bitPoly_le y
      omega

theorem bitPoly_square {m : ℕ} (x : BitVec n) {y : BitVec m}
    (hy : ∀ k, y.getLsbD k = (decide (2 ∣ k) && x.getLsbD (k / 2))) : bitPoly y = bitPoly x ^ 2 := by
  ext k
  rw [← ZMod.expand_card,coeff_expand (by decide),coeff_bitPoly,hy]
  split_ifs with hdvd
  · rw [decide_eq_true hdvd,Bool.true_and,coeff_bitPoly]
  · rw [decide_eq_false hdvd]
    rfl

end Halves

end Binius64.CarrylessProducts
