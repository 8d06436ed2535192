import Binius64.BignumAddition

/-!
# The signed product

The signed product of two words from their unsigned product: the high word drops one factor for
each negative other factor, and wraps.
-/

namespace Binius64.SignedProduct

open MachineWord (Word)
open WordGates Bignum

/-- The signed 128-bit product, high word first. -/
def smul64 (a b : Word) : Word × Word :=
  let hiLo := imul a b
  let aSign := sar a 63
  let bSign := sar b 63
  let correctionA := band aSign b
  let correctionB := band bSign a
  let hi := (isubBinBout hiLo.1 correctionA 0).1
  let hi := (isubBinBout hi correctionB 0).1
  (hi,hiLo.2)

theorem band_sar (x y : Word) : band (sar x 63) y = if x.msb then y else 0 := by
  have hsar : sar x 63 = x.sshiftRight 63 := rfl
  apply BitVec.eq_of_getLsbD_eq
  intro i hi
  have hbit : (x.sshiftRight 63).getLsbD i = x.msb := by
    rw [BitVec.getLsbD_sshiftRight,decide_eq_false (by omega)]
    split
    · have hzero : i = 0 := by omega
      rw [hzero,BitVec.msb_eq_getLsbD_last]
      rfl
    · rfl
  rw [hsar,band,BitVec.getLsbD_and,hbit]
  cases x.msb with
  | true => rfl
  | false => simp

variable (a b : Word)

theorem smul64_hi : (smul64 a b).1 = BitVec.ofNat 64 (a.toNat * b.toNat / 2 ^ 64) -
    (if a.msb then b else 0) - (if b.msb then a else 0) := by
  have hp : a.toNat * b.toNat < 2 ^ 64 * 2 ^ 64 := Nat.mul_lt_mul'' a.isLt b.isLt
  have hu : (imul a b).1 = BitVec.ofNat 64 (a.toNat * b.toNat / 2 ^ 64) := by
    apply BitVec.eq_of_toNat_eq
    have hx : a.toNat % 2 ^ 128 = a.toNat := by omega
    have hy : b.toNat % 2 ^ 128 = b.toNat := by omega
    simp only [imul,MachineWord.imul,BitVec.toNat_setWidth,BitVec.toNat_ushiftRight,
      BitVec.toNat_mul,Nat.shiftRight_eq_div_pow,BitVec.toNat_ofNat,hx,hy]
    generalize a.toNat * b.toNat = p at hp ⊢
    omega
  have hzero : (0 : Word) >>> 63 = 0#64 := rfl
  dsimp only [smul64,isubBinBout,MachineWord.isubBinBout]
  rw [band_sar,band_sar,hu,hzero,BitVec.sub_zero,BitVec.sub_zero]

theorem toInt_mul_eq : a.toInt * b.toInt = (a.toNat * b.toNat : ℕ) -
    2 ^ 64 * (if a.msb then (b.toNat : ℤ) else 0) - 2 ^ 64 * (if b.msb then (a.toNat : ℤ) else 0) +
    (if a.msb ∧ b.msb then 2 ^ 128 else 0) := by
  rw [a.toInt_eq_msb_cond,b.toInt_eq_msb_cond]
  cases a.msb <;> cases b.msb <;> push_cast <;>
    simp only [if_true,if_false,and_true,and_false] <;> ring

theorem toInt_mul_bounds : -(2 ^ 126) ≤ a.toInt * b.toInt ∧ a.toInt * b.toInt ≤ 2 ^ 126 := by
  have hx : a.toInt ≤ 2 ^ 63 := a.toInt_lt.le
  have hx' : -2 ^ 63 ≤ a.toInt := a.le_toInt
  have hy : b.toInt ≤ 2 ^ 63 := b.toInt_lt.le
  have hy' : -2 ^ 63 ≤ b.toInt := b.le_toInt
  constructor
  · nlinarith [mul_nonneg (sub_nonneg.mpr hx) (sub_nonneg.mpr hy),
      mul_nonneg (sub_nonneg.mpr hx') (sub_nonneg.mpr hy')]
  · nlinarith [mul_nonneg (sub_nonneg.mpr hx) (sub_nonneg.mpr hy'),
      mul_nonneg (sub_nonneg.mpr hx') (sub_nonneg.mpr hy)]

theorem smul64_exact : ((smul64 a b).1 ++ (smul64 a b).2).toInt = a.toInt * b.toInt := by
  have hlo : (smul64 a b).2.toNat = a.toNat * b.toNat % 2 ^ 64 := by
    simp [smul64,imul,MachineWord.imul]
  have hp : a.toNat * b.toNat < 2 ^ 64 * 2 ^ 64 := Nat.mul_lt_mul'' a.isLt b.isLt
  have ha := a.isLt
  have hb := b.isLt
  obtain ⟨hge,hle⟩ := toInt_mul_bounds a b
  rw [BitVec.toInt_append,if_neg (by decide),hlo,smul64_hi]
  rw [toInt_mul_eq] at hle hge ⊢
  rw [BitVec.toInt_eq_toNat_cond]
  generalize a.toNat * b.toNat = p at *
  generalize a.msb = s at *
  generalize b.msb = t at *
  cases s <;> cases t <;>
    simp only [if_true,if_false,Bool.false_eq_true,and_true,and_false,BitVec.toNat_sub,
      BitVec.toNat_ofNat,BitVec.ofNat_eq_ofNat] at * <;>
    split <;> omega

end Binius64.SignedProduct
