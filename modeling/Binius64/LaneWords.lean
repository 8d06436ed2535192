import Binius64.WordGates

/-!
# 32-bit words in gates

A machine circuit carries a 32-bit word in the low half of a 64-bit one.
-/

namespace Binius64.LaneWords

open MachineWord (Word loHalf hiHalf ofHalves hiHalf_bit ofHalves_halves isMsbTrue iaddCout32
  iadd32CinCout isubBinBout)
open ShiftAlgebra WordGates CarryChain
open BitVec (eq_of_toNat_eq getLsbD_setWidth getLsbD_zero ofBool ofNat_eq_ofNat setWidth_eq
  toNat_and toNat_ofNat toNat_setWidth toNat_sub)

variable (v : BitVec 32)

def ofU32 : Word := v.setWidth 64

@[simp] theorem toNat_ofU32 : (ofU32 v).toNat = v.toNat := by
  rw [ofU32,toNat_setWidth]
  exact Nat.mod_eq_of_lt (v.isLt.trans (by decide))

theorem ofU32_inj {v w : BitVec 32} : ofU32 v = ofU32 w ↔ v = w := by
  constructor
  · intro h
    have hnat := congrArg BitVec.toNat h
    rw [toNat_ofU32,toNat_ofU32] at hnat
    exact eq_of_toNat_eq hnat
  · rintro rfl
    rfl

theorem exists_ofU32 {w : Word} (h : w.toNat < 2 ^ 32) : ∃ v, w = ofU32 v := by
  refine ⟨w.setWidth 32,eq_of_toNat_eq ?_⟩
  rw [toNat_ofU32,toNat_setWidth,Nat.mod_eq_of_lt h]

@[simp] theorem loHalf_ofU32 : loHalf (ofU32 v) = v := by
  rw [loHalf,ofU32,BitVec.setWidth_setWidth_of_le _ (by decide),setWidth_eq]

@[simp] theorem hiHalf_ofU32 : hiHalf (ofU32 v) = 0 := by
  apply BitVec.eq_of_getLsbD_eq
  intro i hi
  rw [hiHalf_bit,ofU32,getLsbD_setWidth,BitVec.getLsbD_of_ge v (32 + i) (by omega),
    Bool.and_false,Bool.and_false,ofNat_eq_ofNat,getLsbD_zero]

theorem ofHalves_zero : ofHalves v 0 = ofU32 v := by
  rw [← hiHalf_ofU32 v]
  conv_lhs => rw [← loHalf_ofU32 v]
  rw [loHalf_ofU32,ofHalves_halves_of v]
where
  ofHalves_halves_of (v : BitVec 32) : ofHalves v (hiHalf (ofU32 v)) = ofU32 v := by
    have h := ofHalves_halves (ofU32 v)
    rwa [loHalf_ofU32] at h

theorem band_mask (w : Word) : band w 0xffffffff = ofU32 (w.setWidth 32) := by
  apply eq_of_toNat_eq
  rw [band,toNat_and,toNat_ofU32,toNat_setWidth]
  exact Nat.and_two_pow_sub_one_eq_mod w.toNat 32

theorem srl32_ofU32 {n : ℕ} (h : n < 32) : srl32 (ofU32 v) n = ofU32 (v >>> n) := by
  change ofHalves (loHalf (ofU32 v) >>> (n % 32)) (hiHalf (ofU32 v) >>> (n % 32)) = _
  rw [loHalf_ofU32,hiHalf_ofU32,Nat.mod_eq_of_lt h,ofNat_eq_ofNat,BitVec.zero_ushiftRight]
  exact ofHalves_zero _

@[simp] theorem iadd32_ofU32 (v w : BitVec 32) : iadd32 (ofU32 v) (ofU32 w) = ofU32 (v + w) := by
  have hcin : ∀ n : ℕ, (((0 : Word) >>> n) &&& 1) = (ofBool false).setWidth 64 := by
    intro n
    rw [lane_cin,ofNat_eq_ofNat,getLsbD_zero]
  rw [iadd32,iaddCout32,iadd32CinCout]
  dsimp only
  rw [hcin 31,hcin 63,lane_sum,lane_sum,loHalf_ofU32,loHalf_ofU32,hiHalf_ofU32,hiHalf_ofU32]
  have hz : (ofBool false).setWidth 32 = 0#32 := rfl
  rw [hz,BitVec.add_zero,BitVec.add_zero,ofNat_eq_ofNat,BitVec.add_zero]
  exact ofHalves_zero _

theorem setWidth_iadd32 (v w : Word) :
    (iadd32 v w).setWidth 32 = v.setWidth 32 + w.setWidth 32 := by
  have hcin : ((0 : Word) >>> 31) &&& 1 = (ofBool false).setWidth 64 := by
    rw [lane_cin,ofNat_eq_ofNat,getLsbD_zero]
  have hz : (ofBool false).setWidth 32 = 0#32 := rfl
  have hlow : ∀ lo hi : BitVec 32, (ofHalves lo hi).setWidth 32 = lo := by
    intro lo hi
    apply BitVec.eq_of_getLsbD_eq
    intro i hi
    rw [ofHalves,getLsbD_setWidth,BitVec.getLsbD_or,getLsbD_setWidth,
      BitVec.getLsbD_shiftLeft,decide_eq_true hi,decide_eq_true (show i < 64 by omega),
      Bool.not_true]
    simp only [Bool.true_and,Bool.and_false,Bool.false_and,Bool.or_false]
  rw [iadd32,iaddCout32,iadd32CinCout]
  dsimp only
  rw [hlow,hcin,lane_sum,hz,BitVec.add_zero]
  rfl

theorem band_isub (v w : Word) :
    band (isub v w) 0xffffffff = ofU32 (v.setWidth 32 - w.setWidth 32) := by
  rw [band_mask,isub,isubBinBout,ofU32_inj]
  dsimp only
  rw [ofNat_eq_ofNat,BitVec.sub_zero]
  apply eq_of_toNat_eq
  rw [toNat_setWidth,toNat_sub,toNat_sub,toNat_setWidth,
    toNat_setWidth]
  omega

theorem toNat_band_srl32 (w : Word) {n k : ℕ} (h : n + k ≤ 32) :
    (band (srl32 w n) (BitVec.ofNat 64 (2 ^ k - 1))).toNat = w.toNat / 2 ^ n % 2 ^ k := by
  have hmask : (BitVec.ofNat 64 (2 ^ k - 1)).toNat = 2 ^ k - 1 := by
    have hpow : 2 ^ k ≤ 2 ^ 32 := Nat.pow_le_pow_right (by decide) (by omega)
    rw [toNat_ofNat,Nat.mod_eq_of_lt (by omega)]
  rw [band,toNat_and,hmask,Nat.and_two_pow_sub_one_eq_mod]
  apply Nat.eq_of_testBit_eq
  intro i
  rw [Nat.testBit_mod_two_pow,Nat.testBit_mod_two_pow,Nat.testBit_div_two_pow]
  by_cases hi : i < k
  · have hsource : ShiftVariant.srl32.source n i = some (i + n) := by
      simp only [ShiftVariant.source,ShiftVariant.maxAmount,ShiftVariant.isHalfWord,if_true]
      rw [Nat.mod_eq_of_lt (show i < 32 by omega),if_pos (by omega),
        Nat.div_eq_of_lt (show i < 32 by omega),Nat.zero_mul,Nat.zero_add]
    have hbit := ShiftAlgebra.apply_bit .srl32 w (show n < 32 by omega) (show i < 64 by omega)
    rw [hsource,readBit_some] at hbit
    rw [decide_eq_true hi,Bool.true_and,Bool.true_and]
    exact hbit
  · rw [decide_eq_false hi,Bool.false_and,Bool.false_and]

theorem band_srl32 (w : Word) {n k : ℕ} (h : n + k ≤ 32) :
    band (srl32 w n) (BitVec.ofNat 64 (2 ^ k - 1)) = (w >>> n) &&& BitVec.ofNat 64 (2 ^ k - 1) := by
  have hpow : 2 ^ k ≤ 2 ^ 32 := Nat.pow_le_pow_right (by decide) (by omega)
  apply eq_of_toNat_eq
  rw [toNat_band_srl32 w h,toNat_and,BitVec.toNat_ushiftRight,Nat.shiftRight_eq_div_pow,
    toNat_ofNat,Nat.mod_eq_of_lt (show 2 ^ k - 1 < 2 ^ 64 by omega),
    Nat.and_two_pow_sub_one_eq_mod]

@[simp] theorem setWidth_ofU32 : (ofU32 v).setWidth 32 = v := by
  rw [ofU32,BitVec.setWidth_setWidth_of_le _ (by decide),setWidth_eq]

end Binius64.LaneWords
