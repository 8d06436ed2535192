import Binius64.MachineWord

/-!
# The GHASH field product

Multiplication in the binary field of 128-bit elements modulo `X^128 + X^7 + X^2 + X + 1`, as the
value of the schoolbook sum of scaled copies.
-/

namespace Binius64.GhashField

open MachineWord

/-- The reduction polynomial with its leading term left implicit. -/
def poly : BitVec 128 := 0x87

/-- Scale an element by `X`, folding the term pushed to `X^128` back in. -/
def ghashMulX (x : BitVec 128) : BitVec 128 :=
  (x <<< 1) ^^^ (if x.msb then poly else 0)

def ghashMulXPow : ℕ → BitVec 128 → BitVec 128
  | 0, y => y
  | n + 1, y => ghashMulX (ghashMulXPow n y)

/-- The copies of the second factor scaled by the first factor's low terms. -/
def ghashMulBelow (x y : BitVec 128) : ℕ → BitVec 128
  | 0 => 0
  | n + 1 => ghashMulBelow x y n ^^^ (if x.getLsbD n then ghashMulXPow n y else 0)

def ghashProduct (x y : BitVec 128) : BitVec 128 :=
  ghashMulBelow x y 128

def ofWords (lo hi : Word) : BitVec 128 :=
  lo.setWidth 128 ||| (hi.setWidth 128 <<< 64)

/-- The product of two elements carried by word pairs, low word first. -/
def ghashMul (aLo aHi bLo bHi : Word) : Word × Word :=
  let product := ghashProduct (ofWords aLo aHi) (ofWords bLo bHi)
  (product.setWidth 64,(product >>> 64).setWidth 64)

theorem ghashProduct_zero (y : BitVec 128) : ghashProduct 0 y = 0 := by
  have h : ∀ n, ghashMulBelow 0 y n = 0 := by
    intro n
    induction n with
    | zero => rfl
    | succ n ih =>
      rw [ghashMulBelow,ih,BitVec.ofNat_eq_ofNat,BitVec.getLsbD_zero]
      simp only [Bool.false_eq_true,if_false,BitVec.xor_self]
  exact h 128

theorem ghashProduct_one (y : BitVec 128) : ghashProduct 1 y = y := by
  have h : ∀ n, ghashMulBelow 1 y (n + 1) = y := by
    intro n
    induction n with
    | zero => exact BitVec.zero_xor
    | succ n ih =>
      have hb : (1 : BitVec 128).getLsbD (n + 1) = false := by
        rw [BitVec.ofNat_eq_ofNat,BitVec.getLsbD_one]
        simp only [Nat.add_eq_zero_iff,Nat.one_ne_zero,and_false,decide_false,Bool.and_false]
      rw [ghashMulBelow,ih,hb]
      exact BitVec.xor_zero
  exact h 127

theorem ofWords_zero_hi (lo : Word) : ofWords lo 0 = lo.setWidth 128 := by
  simp only [ofWords,BitVec.ofNat_eq_ofNat,BitVec.setWidth_zero,BitVec.zero_shiftLeft,
    BitVec.or_zero]

theorem ofWords_lo (lo hi : Word) : (ofWords lo hi).setWidth 64 = lo := by
  apply BitVec.eq_of_getLsbD_eq
  intro i hi'
  have h128 : i < 128 := by omega
  simp only [ofWords,BitVec.getLsbD_setWidth,BitVec.getLsbD_or,BitVec.getLsbD_shiftLeft,hi',h128,
    decide_true,Bool.true_and,Bool.not_true,Bool.false_and,Bool.or_false]

theorem ofWords_hi (lo hi : Word) : (ofWords lo hi >>> 64).setWidth 64 = hi := by
  apply BitVec.eq_of_getLsbD_eq
  intro i hi'
  have h128 : 64 + i < 128 := by omega
  have h64 : ¬64 + i < 64 := by omega
  have hs : 64 + i - 64 = i := by omega
  have hn : i < 128 := by omega
  have hz : lo.getLsbD (64 + i) = false := BitVec.getLsbD_of_ge _ _ (by omega)
  simp only [ofWords,BitVec.getLsbD_setWidth,BitVec.getLsbD_ushiftRight,BitVec.getLsbD_or,
    BitVec.getLsbD_shiftLeft,hi',h128,h64,hs,hn,hz,decide_true,decide_false,Bool.true_and,
    Bool.not_false,Bool.false_or]

theorem ofWords_inj {lo hi lo' hi' : Word} (h : ofWords lo hi = ofWords lo' hi') :
    lo = lo' ∧ hi = hi' := by
  have hl := congrArg (fun x : BitVec 128 => x.setWidth 64) h
  have hh := congrArg (fun x : BitVec 128 => (x >>> 64).setWidth 64) h
  simp only [ofWords_lo,ofWords_hi] at hl hh
  exact ⟨hl,hh⟩

theorem ofWords_split (x : BitVec 128) :
    ofWords (x.setWidth 64) ((x >>> 64).setWidth 64) = x := by
  apply BitVec.eq_of_getLsbD_eq
  intro i hi
  simp only [ofWords,BitVec.getLsbD_or,BitVec.getLsbD_setWidth,BitVec.getLsbD_shiftLeft,
    BitVec.getLsbD_ushiftRight,hi,decide_true,Bool.true_and]
  by_cases h : i < 64
  · simp only [h,decide_true,Bool.true_and,Bool.not_true,Bool.false_and,Bool.or_false]
  · have h1 : i - 64 < 128 := by omega
    have h2 : i - 64 < 64 := by omega
    have h3 : 64 + (i - 64) = i := by omega
    simp only [h,h1,h2,h3,decide_true,decide_false,Bool.true_and,Bool.false_and,Bool.not_false,
      Bool.false_or]

theorem ofWords_ghashMul (aLo aHi bLo bHi : Word) :
    ofWords (ghashMul aLo aHi bLo bHi).1 (ghashMul aLo aHi bLo bHi).2 =
      ghashProduct (ofWords aLo aHi) (ofWords bLo bHi) :=
  ofWords_split _

end Binius64.GhashField
