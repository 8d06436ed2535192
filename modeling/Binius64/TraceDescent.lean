import Mathlib.Algebra.BigOperators.Group.Finset.Basic
import Mathlib.Algebra.CharP.Lemmas
import Mathlib.Algebra.CharP.Two
import Mathlib.Tactic.Abel

/-!
# The descent of the trace

In characteristic two the map that takes `x` to `x ^ 2 + x` is the Frobenius map plus the identity.
-/

namespace Binius64.TraceDescent

variable {R : Type} [CommRing R] [CharP R 2]

/-- One step down. -/
def descent (x : R) : R := x ^ 2 + x

def conjugates (n : ℕ) (x : R) : R := ∑ i ∈ Finset.range n, x ^ 2 ^ i

omit [CharP R 2] in
theorem conjugates_zero (x : R) : conjugates 0 x = 0 := by
  rw [conjugates,Finset.range_zero,Finset.sum_empty]

omit [CharP R 2] in
theorem conjugates_succ (n : ℕ) (x : R) : conjugates (n + 1) x = conjugates n x + x ^ 2 ^ n := by
  rw [conjugates,Finset.sum_range_succ,conjugates]

theorem conjugates_add (m n : ℕ) (x : R) :
    conjugates (m + n) x = conjugates m x + conjugates n x ^ 2 ^ m := by
  induction n with
  | zero => rw [conjugates_zero,zero_pow (Nat.two_pow_pos m).ne',Nat.add_zero,add_zero]
  | succ n ih =>
    have hpow : (x ^ 2 ^ n) ^ 2 ^ m = x ^ 2 ^ (m + n) := by
      rw [←pow_mul,←pow_add,Nat.add_comm n m]
    rw [←Nat.add_assoc,conjugates_succ,ih,conjugates_succ,add_pow_char_pow,hpow,add_assoc]

theorem descent_two_pow (k : ℕ) (x : R) : descent^[2 ^ k] x = x ^ 2 ^ 2 ^ k + x := by
  induction k generalizing x with
  | zero => rfl
  | succ k ih =>
    have hpow : (x ^ 2 ^ 2 ^ k) ^ 2 ^ 2 ^ k = x ^ 2 ^ 2 ^ (k + 1) := by
      rw [←pow_mul,←pow_add,←two_mul,←pow_succ']
    have hdouble := CharTwo.add_self_eq_zero (x ^ 2 ^ 2 ^ k)
    have hsteps : 2 ^ (k + 1) = 2 ^ k + 2 ^ k := by rw [pow_succ,mul_two]
    have htwice : descent^[2 ^ (k + 1)] x = descent^[2 ^ k] (descent^[2 ^ k] x) := by
      rw [hsteps,Function.iterate_add_apply]
    rw [htwice,ih,ih,add_pow_char_pow,hpow]
    calc x ^ 2 ^ 2 ^ (k + 1) + x ^ 2 ^ 2 ^ k + (x ^ 2 ^ 2 ^ k + x)
        = x ^ 2 ^ 2 ^ (k + 1) + x + (x ^ 2 ^ 2 ^ k + x ^ 2 ^ 2 ^ k) := by abel
      _ = x ^ 2 ^ 2 ^ (k + 1) + x := by rw [hdouble,add_zero]

theorem descent_conjugates (k : ℕ) (x : R) : descent^[2 ^ k - 1] x = conjugates (2 ^ k) x := by
  induction k with
  | zero =>
    have hone : conjugates (0 + 1) x = x := by
      rw [conjugates_succ,conjugates_zero,zero_add,pow_zero,pow_one]
    exact hone.symm
  | succ k ih =>
    have hpos := Nat.two_pow_pos k
    have hsteps : 2 ^ (k + 1) - 1 = 2 ^ k + (2 ^ k - 1) := by
      rw [pow_succ]
      omega
    rw [hsteps,Function.iterate_add_apply,ih,descent_two_pow,pow_succ,mul_two,conjugates_add,
      add_comm]

end Binius64.TraceDescent
