import Binius64.GhashField
import Binius64.RabinTest

/-!
# The ring of the GHASH field

Scaling by `X` is a linear map of the bits, and a product is a sum of its powers applied to the
second factor.
-/

namespace Binius64.GhashField

open MachineWord
open BitVec (eq_of_getLsbD_eq getLsbD_twoPow getLsbD_xor getLsbD_zero ofFin ofNat_eq_ofNat twoPow
  xor_zero)

theorem ghashMulX_xor (x y : BitVec 128) : ghashMulX (x ^^^ y) = ghashMulX x ^^^ ghashMulX y := by
  have hreduce : (if x.msb ^^ y.msb then poly else 0 : BitVec 128) =
      (if x.msb then poly else 0) ^^^ if y.msb then poly else 0 := by
    cases x.msb with
    | false => cases y.msb with
      | false => rfl
      | true => rfl
    | true => cases y.msb with
      | false => rfl
      | true => rfl
  rw [ghashMulX,ghashMulX,ghashMulX,BitVec.shiftLeft_xor_distrib,BitVec.msb_xor,hreduce]
  ac_rfl

theorem ghashMulX_zero : ghashMulX 0 = 0 := by rfl

variable (n : ℕ) (x : BitVec 128)

theorem ghashMulXPow_xor (x y : BitVec 128) :
    ghashMulXPow n (x ^^^ y) = ghashMulXPow n x ^^^ ghashMulXPow n y := by
  induction n with
  | zero => rfl
  | succ n ih => rw [ghashMulXPow,ghashMulXPow,ghashMulXPow,ih,ghashMulX_xor]

theorem ghashMulXPow_zero : ghashMulXPow n 0 = 0 := by
  induction n with
  | zero => rfl
  | succ n ih => rw [ghashMulXPow,ih,ghashMulX_zero]

theorem ghashMulXPow_ghashMulX (x : BitVec 128) :
    ghashMulXPow n (ghashMulX x) = ghashMulX (ghashMulXPow n x) := by
  induction n with
  | zero => rfl
  | succ n ih => rw [ghashMulXPow,ghashMulXPow,ih]

theorem ghashMulXPow_comm (m n : ℕ) (x : BitVec 128) :
    ghashMulXPow m (ghashMulXPow n x) = ghashMulXPow n (ghashMulXPow m x) := by
  induction m with
  | zero => rfl
  | succ m ih => rw [ghashMulXPow,ghashMulXPow,ih,ghashMulXPow_ghashMulX]

theorem term_xor (b : Bool) (n : ℕ) (x y : BitVec 128) :
    (if b then ghashMulXPow n (x ^^^ y) else 0) =
      (if b then ghashMulXPow n x else 0) ^^^ if b then ghashMulXPow n y else 0 := by
  cases b with
  | false => exact xor_zero.symm
  | true => exact ghashMulXPow_xor n x y

theorem ghashMulBelow_xor (x y z : BitVec 128) (n : ℕ) :
    ghashMulBelow x (y ^^^ z) n = ghashMulBelow x y n ^^^ ghashMulBelow x z n := by
  induction n with
  | zero => exact xor_zero.symm
  | succ n ih =>
    rw [ghashMulBelow,ghashMulBelow,ghashMulBelow,ih,term_xor]
    ac_rfl

theorem ghashMulBelow_zero (n : ℕ) : ghashMulBelow x 0 n = 0 := by
  induction n with
  | zero => rfl
  | succ n ih =>
    rw [ghashMulBelow,ih,ghashMulXPow_zero,ite_self]
    rfl

theorem ghashMulBelow_ghashMulXPow (x y : BitVec 128) (m n : ℕ) :
    ghashMulBelow x (ghashMulXPow m y) n = ghashMulXPow m (ghashMulBelow x y n) := by
  induction n with
  | zero => exact (ghashMulXPow_zero m).symm
  | succ n ih =>
    have hterm : (if x.getLsbD n then ghashMulXPow n (ghashMulXPow m y) else 0) =
        ghashMulXPow m (if x.getLsbD n then ghashMulXPow n y else 0) := by
      split
      · exact ghashMulXPow_comm n m y
      · exact (ghashMulXPow_zero m).symm
    rw [ghashMulBelow,ghashMulBelow,ih,hterm,ghashMulXPow_xor]

theorem ghashMulBelow_comm (x y z : BitVec 128) (m n : ℕ) :
    ghashMulBelow x (ghashMulBelow y z m) n = ghashMulBelow y (ghashMulBelow x z n) m := by
  induction n with
  | zero => exact (ghashMulBelow_zero y m).symm
  | succ n ih =>
    have hterm : (if x.getLsbD n then ghashMulXPow n (ghashMulBelow y z m) else 0) =
        ghashMulBelow y (if x.getLsbD n then ghashMulXPow n z else 0) m := by
      split
      · exact (ghashMulBelow_ghashMulXPow y z n m).symm
      · exact (ghashMulBelow_zero y m).symm
    rw [ghashMulBelow,ghashMulBelow,ih,hterm,ghashMulBelow_xor]

theorem ghashMulXPow_one {n : ℕ} (hn : n < 128) : ghashMulXPow n 1 = twoPow 128 n := by
  induction n with
  | zero => rfl
  | succ n ih =>
    have hmsb : (twoPow 128 n).msb = false := by
      rw [BitVec.msb_twoPow]
      simp only [show ¬n = 128 - 1 by omega,decide_false,Bool.and_false]
    rw [ghashMulXPow,ih (by omega),ghashMulX,hmsb]
    refine eq_of_getLsbD_eq fun i hi => ?_
    rw [if_neg Bool.false_ne_true,ofNat_eq_ofNat,xor_zero,BitVec.getLsbD_shiftLeft,
      getLsbD_twoPow,getLsbD_twoPow]
    simp only [hi,hn,show n < 128 by omega,decide_true,Bool.true_and]
    by_cases hi0 : i < 1
    · simp only [hi0,decide_true,Bool.not_true,Bool.false_and,Bool.false_eq,decide_eq_false_iff_not]
      omega
    · simp only [hi0,decide_false,Bool.not_false,Bool.true_and,decide_eq_decide]
      omega

theorem ghashMulBelow_one {n : ℕ} (hn : n ≤ 128) (i : ℕ) :
    (ghashMulBelow x 1 n).getLsbD i = (decide (i < n) && x.getLsbD i) := by
  induction n with
  | zero =>
    rw [ghashMulBelow,ofNat_eq_ofNat,getLsbD_zero]
    simp only [Nat.not_lt_zero,decide_false,Bool.false_and]
  | succ n ih =>
    have hterm : (if x.getLsbD n then ghashMulXPow n 1 else 0 : BitVec 128).getLsbD i =
        (decide (n = i) && x.getLsbD n) := by
      split
      · next hb =>
        rw [ghashMulXPow_one (by omega),getLsbD_twoPow,hb,Bool.and_true]
        simp only [show n < 128 by omega,decide_true,Bool.true_and]
      · next hb =>
        rw [ofNat_eq_ofNat,getLsbD_zero,Bool.eq_false_of_not_eq_true hb,Bool.and_false]
    rw [ghashMulBelow,getLsbD_xor,ih (by omega),hterm]
    rcases Nat.lt_trichotomy i n with h | h | h
    · simp only [h,show i < n + 1 by omega,show ¬n = i by omega,decide_true,decide_false,
        Bool.true_and,Bool.false_and,Bool.xor_false]
    · simp only [h,show ¬n < n by omega,show n < n + 1 by omega,decide_true,decide_false,
        Bool.true_and,Bool.false_and,Bool.false_xor]
    · simp only [show ¬i < n by omega,show ¬i < n + 1 by omega,show ¬n = i by omega,decide_false,
        Bool.false_and,Bool.xor_false]

theorem ghashProduct_unit : ghashProduct x 1 = x := by
  refine eq_of_getLsbD_eq fun i hi => ?_
  rw [ghashProduct,ghashMulBelow_one x (Nat.le_refl 128) i,decide_eq_true hi,Bool.true_and]

theorem ghashProduct_left_comm (x y z : BitVec 128) :
    ghashProduct x (ghashProduct y z) = ghashProduct y (ghashProduct x z) :=
  ghashMulBelow_comm x y z 128 128

theorem ghashProduct_comm (x y : BitVec 128) : ghashProduct x y = ghashProduct y x := by
  have h := ghashProduct_left_comm x y 1
  rw [ghashProduct_unit,ghashProduct_unit] at h
  exact h

theorem ghashProduct_assoc (x y z : BitVec 128) :
    ghashProduct (ghashProduct x y) z = ghashProduct x (ghashProduct y z) := by
  rw [ghashProduct_comm _ z,ghashProduct_left_comm z x y,ghashProduct_comm z y]

theorem ghashProduct_xor (x y z : BitVec 128) :
    ghashProduct x (y ^^^ z) = ghashProduct x y ^^^ ghashProduct x z :=
  ghashMulBelow_xor x y z 128

/-- An element of the field, as its bits. -/
structure Ghash128b where
  value : BitVec 128
deriving DecidableEq

namespace Ghash128b

instance : Zero Ghash128b := ⟨⟨0⟩⟩

instance : One Ghash128b := ⟨⟨1⟩⟩

instance : Add Ghash128b := ⟨fun x y => ⟨x.value ^^^ y.value⟩⟩

instance : Mul Ghash128b := ⟨fun x y => ⟨ghashProduct x.value y.value⟩⟩

/-- Every element is its own negative. -/
instance : Neg Ghash128b := ⟨id⟩

@[simp] theorem add_value (x y : Ghash128b) : (x + y).value = x.value ^^^ y.value := rfl

@[simp] theorem mul_value (x y : Ghash128b) : (x * y).value = ghashProduct x.value y.value := rfl

@[ext] theorem eq_of_value {x y : Ghash128b} (h : x.value = y.value) : x = y := by
  cases x
  cases y
  exact congrArg mk h

instance : CommRing Ghash128b where
  add_assoc x y z := eq_of_value (BitVec.xor_assoc _ _ _)
  zero_add x := eq_of_value BitVec.zero_xor
  add_zero x := eq_of_value xor_zero
  add_comm x y := eq_of_value (BitVec.xor_comm _ _)
  nsmul := nsmulRec
  zsmul := zsmulRec
  neg_add_cancel x := eq_of_value (BitVec.xor_self : x.value ^^^ x.value = 0)
  mul_assoc x y z := eq_of_value (ghashProduct_assoc _ _ _)
  mul_comm x y := eq_of_value (ghashProduct_comm _ _)
  one_mul x := eq_of_value (ghashProduct_one _)
  mul_one x := eq_of_value (ghashProduct_unit _)
  zero_mul x := eq_of_value (ghashProduct_zero x.value)
  mul_zero x := eq_of_value (ghashMulBelow_zero x.value 128)
  left_distrib x y z := eq_of_value (ghashProduct_xor _ _ _)
  right_distrib x y z := by
    refine eq_of_value ?_
    rw [mul_value,add_value,add_value,mul_value,mul_value,ghashProduct_comm,ghashProduct_xor,
      ghashProduct_comm z.value,ghashProduct_comm z.value]

instance : Nontrivial Ghash128b := ⟨⟨0,1,fun h => absurd (congrArg value h) (by decide)⟩⟩

instance : CharP Ghash128b 2 := CharTwo.of_one_ne_zero_of_two_eq_zero one_ne_zero rfl

end Ghash128b

def ofWord (w : Word) : Ghash128b := ⟨w.setWidth 128⟩

def wordsLf (w : Word × Word) : Ghash128b := ⟨ofWords w.1 w.2⟩

/-- The words an element is carried by, the low one first. -/
def lfWords (x : Ghash128b) : Word × Word := (x.value.setWidth 64,(x.value >>> 64).setWidth 64)

@[simp] theorem wordsLf_lfWords (x : Ghash128b) : wordsLf (lfWords x) = x :=
  Ghash128b.eq_of_value (ofWords_split x.value)

@[simp] theorem lfWords_wordsLf (w : Word × Word) : lfWords (wordsLf w) = w :=
  Prod.ext (ofWords_lo w.1 w.2) (ofWords_hi w.1 w.2)

@[simp] theorem wordsLf_low (w : Word) : wordsLf (w,0) = ofWord w :=
  Ghash128b.eq_of_value (ofWords_zero_hi w)

@[simp] theorem ofWord_zero : ofWord 0 = 0 := rfl

theorem wordsLf_one : wordsLf (1,0) = 1 := rfl

theorem wordsLf_zero : wordsLf (0,0) = 0 := rfl

theorem wordsLf_ghashMul (x y : Word × Word) :
    wordsLf (ghashMul x.1 x.2 y.1 y.2) = wordsLf x * wordsLf y :=
  Ghash128b.eq_of_value (ofWords_ghashMul x.1 x.2 y.1 y.2)

theorem wordsLf_xor (x y : Word × Word) :
    wordsLf (x.1 ^^^ y.1,x.2 ^^^ y.2) = wordsLf x + wordsLf y := by
  refine Ghash128b.eq_of_value (eq_of_getLsbD_eq fun i hi => ?_)
  change (ofWords _ _).getLsbD i = (ofWords _ _ ^^^ ofWords _ _).getLsbD i
  simp only [ofWords,getLsbD_xor,BitVec.getLsbD_or,BitVec.getLsbD_setWidth,
    BitVec.getLsbD_shiftLeft,hi,decide_true,Bool.true_and]
  by_cases h : i < 64
  · simp only [h,decide_true,Bool.not_true,Bool.false_and,Bool.or_false]
  · simp only [h,decide_false,Bool.not_false,Bool.true_and,BitVec.getLsbD_of_ge _ i (Nat.not_lt.mp h),
      Bool.false_or]
    have hsub : i - 64 < 128 := by omega
    simp only [hsub,decide_true,Bool.true_and,Bool.xor_false,Bool.false_or]

/-- The product by Horner's rule, the high coefficients of the first factor first. -/
def hornerMul (x y : BitVec 128) : ℕ → BitVec 128 → BitVec 128
  | 0, acc => acc
  | n + 1, acc => hornerMul x y n (ghashMulX acc ^^^ if x.getLsbD n then y else 0)

theorem hornerMul_eq (x y : BitVec 128) (n : ℕ) (acc : BitVec 128) :
    hornerMul x y n acc = ghashMulXPow n acc ^^^ ghashMulBelow x y n := by
  induction n generalizing acc with
  | zero => exact xor_zero.symm
  | succ n ih =>
    have hterm : ghashMulXPow n (if x.getLsbD n then y else 0) =
        if x.getLsbD n then ghashMulXPow n y else 0 := by
      split
      · rfl
      · exact ghashMulXPow_zero n
    rw [hornerMul,ih,ghashMulXPow_xor,ghashMulXPow_ghashMulX,hterm,ghashMulBelow,ghashMulXPow]
    ac_rfl

theorem hornerMul_product (x y : BitVec 128) : hornerMul x y 128 0 = ghashProduct x y := by
  rw [hornerMul_eq,ghashMulXPow_zero]
  exact BitVec.zero_xor

def square (x : BitVec 128) : BitVec 128 := hornerMul x x 128 0

theorem square_half : square^[64] 2 = 0x61651fea6b5832b944e598a795a299f6#128 := by decide +kernel

theorem square_full : square^[64] 0x61651fea6b5832b944e598a795a299f6#128 = 2 := by decide +kernel

theorem unit_half : hornerMul 0x61651fea6b5832b944e598a795a299f4#128
  0x9e4af928ddbc838a41a8cafd2c95b018#128 128 0 = 1 := by decide +kernel

namespace Ghash128b

/-- The bits of an element as a number. -/
def equivFin : Ghash128b ≃ Fin (2 ^ 128) where
  toFun x := x.value.toFin
  invFun n := ⟨ofFin n⟩
  left_inv _ := rfl
  right_inv _ := rfl

instance : Finite Ghash128b := Finite.of_equiv _ equivFin.symm

theorem card_eq : Nat.card Ghash128b = 2 ^ 2 ^ 7 := by
  rw [Nat.card_congr equivFin,Nat.card_fin]
  rfl

/-- The indeterminate. -/
def X : Ghash128b := ⟨2⟩

theorem squarings (n : ℕ) (x : Ghash128b) : x ^ 2 ^ n = ⟨square^[n] x.value⟩ := by
  induction n with
  | zero => rw [pow_zero,pow_one,Function.iterate_zero,id_eq]
  | succ n ih =>
    refine eq_of_value ?_
    rw [pow_succ,pow_mul,ih,pow_two,mul_value,Function.iterate_succ_apply',square,hornerMul_product]

theorem X_half : X ^ 2 ^ 2 ^ 6 = ⟨0x61651fea6b5832b944e598a795a299f6#128⟩ :=
  (squarings 64 X).trans (congrArg mk square_half)

theorem X_full : X ^ 2 ^ 2 ^ 7 = X := by
  have hsplit : 2 ^ 2 ^ 7 = 2 ^ 2 ^ 6 * 2 ^ 2 ^ 6 := by rfl
  rw [hsplit,pow_mul,X_half]
  exact (squarings 64 _).trans (congrArg mk square_full)

theorem X_mul (x : Ghash128b) : X * x = ⟨ghashMulX x.value⟩ := by
  refine eq_of_value ?_
  have hstep := ghashMulBelow_ghashMulXPow x.value 1 1 128
  rw [mul_value,ghashProduct_comm]
  exact hstep.trans (congrArg ghashMulX (ghashProduct_unit x.value))

theorem full (x : Ghash128b) : x ^ 2 ^ 2 ^ 7 = x := by
  have hzero : (0 : Ghash128b) ^ 2 ^ 2 ^ 7 = 0 := zero_pow (by positivity)
  have hpower : ∀ n, (⟨ghashMulXPow n 1⟩ : Ghash128b) ^ 2 ^ 2 ^ 7 = ⟨ghashMulXPow n 1⟩ := by
    intro n
    induction n with
    | zero => exact one_pow _
    | succ n ih =>
      have hstep : (⟨ghashMulXPow (n + 1) 1⟩ : Ghash128b) = X * ⟨ghashMulXPow n 1⟩ := (X_mul _).symm
      rw [hstep,mul_pow,X_full,ih]
  have hbelow : ∀ n, (⟨ghashMulBelow x.value 1 n⟩ : Ghash128b) ^ 2 ^ 2 ^ 7 =
      ⟨ghashMulBelow x.value 1 n⟩ := by
    intro n
    induction n with
    | zero => exact hzero
    | succ n ih =>
      have hterm : (⟨if x.value.getLsbD n then ghashMulXPow n 1 else 0⟩ : Ghash128b) ^ 2 ^ 2 ^ 7 =
          ⟨if x.value.getLsbD n then ghashMulXPow n 1 else 0⟩ := by
        split
        · exact hpower n
        · exact hzero
      have hstep : (⟨ghashMulBelow x.value 1 (n + 1)⟩ : Ghash128b) =
          ⟨ghashMulBelow x.value 1 n⟩ + ⟨if x.value.getLsbD n then ghashMulXPow n 1 else 0⟩ := rfl
      rw [hstep,add_pow_char_pow,ih,hterm]
  have hwhole : (⟨ghashMulBelow x.value 1 128⟩ : Ghash128b) = x := eq_of_value (ghashProduct_unit x.value)
  rw [←hwhole]
  exact hbelow 128

theorem isField : IsField Ghash128b := by
  refine RabinTest.isField_of_squarings (k := 6) card_eq full (x := X)
    (v := ⟨0x9e4af928ddbc838a41a8cafd2c95b018#128⟩) ?_
  rw [X_half]
  exact eq_of_value ((hornerMul_product _ _).symm.trans unit_half)

instance : Field Ghash128b where
  inv x := if x = 0 then 0 else x ^ (2 ^ 128 - 2)
  inv_zero := if_pos rfl
  mul_inv_cancel x hx := by
    obtain ⟨y,hy⟩ := isField.mul_inv_cancel hx
    have hexp : 2 ^ 2 ^ 7 = 2 ^ 128 - 2 + 1 + 1 := by rfl
    have hfull := full x
    rw [hexp,pow_succ] at hfull
    rw [if_neg hx,←pow_succ']
    calc x ^ (2 ^ 128 - 2 + 1) = x ^ (2 ^ 128 - 2 + 1) * x * y := by rw [mul_assoc,hy,mul_one]
      _ = 1 := by rw [hfull,hy]
  nnqsmul := _
  nnqsmul_def := fun _ _ => rfl
  qsmul := _
  qsmul_def := fun _ _ => rfl

end Ghash128b

end Binius64.GhashField
