import Mathlib.Algebra.CharP.Two
import Mathlib.Algebra.Field.Equiv
import Mathlib.Data.Nat.GCD.Basic
import Mathlib.FieldTheory.Finite.Basic

/-!
# When a ring of characteristic two is a field

Squaring is additive in characteristic two.
-/

namespace Binius64.RabinTest

theorem degree_dvd {K : Type} [Field K] [Fintype K] {d n : ℕ} (hcard : Fintype.card K = 2 ^ d)
    (hfix : ∀ y : K, y ^ 2 ^ n = y) : d ∣ n := by
  obtain ⟨g,hg⟩ := IsCyclic.exists_generator (α := Kˣ)
  have horder : orderOf g = 2 ^ d - 1 := by
    rw [orderOf_eq_card_of_forall_mem_zpowers hg,Nat.card_units,Nat.card_eq_fintype_card,hcard]
  have hone : g ^ (2 ^ n - 1) = 1 := by
    have h : g * g ^ (2 ^ n - 1) = g * 1 := by
      rw [←pow_succ',Nat.sub_add_cancel Nat.one_le_two_pow,mul_one]
      exact Units.ext (hfix g)
    exact mul_left_cancel h
  have hdvd : 2 ^ d - 1 ∣ 2 ^ n - 1 := horder ▸ orderOf_dvd_of_pow_eq_one hone
  have hgcd := Nat.pow_sub_one_gcd_pow_sub_one 2 d n
  rw [Nat.gcd_eq_left hdvd] at hgcd
  have hpow : 2 ^ d = 2 ^ d.gcd n := by
    have hd := Nat.one_le_two_pow (n := d)
    have hg := Nat.one_le_two_pow (n := d.gcd n)
    omega
  exact Nat.gcd_eq_left_iff_dvd.mp (Nat.pow_right_injective (Nat.le_refl 2) hpow).symm

theorem isField_of_squarings {R : Type} [CommRing R] [CharP R 2] [Nontrivial R] [Finite R] {k : ℕ}
    (hcard : Nat.card R = 2 ^ 2 ^ (k + 1)) (hfix : ∀ y : R, y ^ 2 ^ 2 ^ (k + 1) = y) {x v : R}
    (hunit : (x ^ 2 ^ 2 ^ k - x) * v = 1) : IsField R := by
  obtain ⟨m,hm⟩ := Ideal.exists_maximal R
  have hsurj : Function.Surjective (Ideal.Quotient.mk m) := Ideal.Quotient.mk_surjective
  let := Ideal.Quotient.field m
  have := Finite.of_surjective _ hsurj
  let := Fintype.ofFinite (R ⧸ m)
  have htwo : (2 : R ⧸ m) = 0 := by
    rw [←map_ofNat (Ideal.Quotient.mk m) 2,CharTwo.two_eq_zero,map_zero]
  have : CharP (R ⧸ m) 2 := CharTwo.of_one_ne_zero_of_two_eq_zero one_ne_zero htwo
  have hfixK : ∀ y : R ⧸ m, y ^ 2 ^ 2 ^ (k + 1) = y := by
    intro y
    obtain ⟨r,rfl⟩ := hsurj y
    rw [←map_pow,hfix]
  obtain ⟨d,-,hd⟩ := FiniteField.card (R ⧸ m) 2
  obtain ⟨j,hj,hdj⟩ := (Nat.dvd_prime_pow Nat.prime_two).mp (degree_dvd hd hfixK)
  have hjk : j = k + 1 := by
    by_contra hne
    have hsplit : 2 ^ 2 ^ k = Fintype.card (R ⧸ m) ^ 2 ^ (k - j) := by
      rw [hd,hdj,←pow_mul,←pow_add,Nat.add_sub_cancel' (by omega)]
    have hzero : Ideal.Quotient.mk m (x ^ 2 ^ 2 ^ k - x) = 0 := by
      rw [map_sub,map_pow,hsplit,FiniteField.pow_card_pow,sub_self]
    have hone := congrArg (Ideal.Quotient.mk m) hunit
    rw [map_mul,hzero,zero_mul,map_one] at hone
    exact zero_ne_one hone
  have hcardK : Nat.card R = Nat.card (R ⧸ m) := by
    rw [hcard,Nat.card_eq_fintype_card,hd,hdj,hjk]
  have hbij := (Nat.bijective_iff_surjective_and_card _).mpr ⟨hsurj,hcardK⟩
  exact (RingEquiv.ofBijective _ hbij).toMulEquiv.isField (Field.toIsField (R ⧸ m))

end Binius64.RabinTest
