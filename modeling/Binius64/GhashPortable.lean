import Binius64.CarrylessProducts
import Binius64.GhashRing

/-!
# The portable arithmetic of the GHASH field

Products of 64-bit lanes by integer multiplications with holes, the 256-bit product of two elements
from three of them, read from both ends, and its reduction.
-/

namespace Binius64.GhashPortable

open Polynomial CarrylessProducts
open GhashField (poly)
open Finset (range mem_range sum_congr)
open BitVec (eq_of_getLsbD_eq getLsbD_and getLsbD_of_ge getLsbD_or getLsbD_reverse getLsbD_setWidth
  getLsbD_twoPow getLsbD_ushiftRight getLsbD_xor getLsbD_zero ofNat_eq_ofNat twoPow)

/-- The product of two words without carries, its low half: the factors are cut into classes of bits
that stand four apart, and the carries of their integer products are masked out. -/
def bmul64 (x y : BitVec 64) : BitVec 64 :=
  let x0 := x &&& 0x1111111111111111
  let x1 := x &&& 0x2222222222222222
  let x2 := x &&& 0x4444444444444444
  let x3 := x &&& 0x8888888888888888
  let y0 := y &&& 0x1111111111111111
  let y1 := y &&& 0x2222222222222222
  let y2 := y &&& 0x4444444444444444
  let y3 := y &&& 0x8888888888888888
  let z0 := x0 * y0 ^^^ x1 * y3 ^^^ x2 * y2 ^^^ x3 * y1
  let z1 := x0 * y1 ^^^ x1 * y0 ^^^ x2 * y3 ^^^ x3 * y2
  let z2 := x0 * y2 ^^^ x1 * y1 ^^^ x2 * y0 ^^^ x3 * y3
  let z3 := x0 * y3 ^^^ x1 * y2 ^^^ x2 * y1 ^^^ x3 * y0
  z0 &&& 0x1111111111111111 ||| z1 &&& 0x2222222222222222 ||| z2 &&& 0x4444444444444444 |||
    z3 &&& 0x8888888888888888

/-- The bits of a word set apart by zeroes. -/
def spreadBits64 (val : BitVec 64) : BitVec 128 :=
  let x := val.setWidth 128
  let x := (x ||| x <<< 32) &&& 0x00000000FFFFFFFF00000000FFFFFFFF
  let x := (x ||| x <<< 16) &&& 0x0000FFFF0000FFFF0000FFFF0000FFFF
  let x := (x ||| x <<< 8) &&& 0x00FF00FF00FF00FF00FF00FF00FF00FF
  let x := (x ||| x <<< 4) &&& 0x0F0F0F0F0F0F0F0F0F0F0F0F0F0F0F0F
  let x := (x ||| x <<< 2) &&& 0x33333333333333333333333333333333
  (x ||| x <<< 1) &&& 0x55555555555555555555555555555555

/-- The halves of an element, the high one first. -/
def splitHiLo64 (x : BitVec 128) : BitVec 64 × BitVec 64 := ((x >>> 64).setWidth 64,x.setWidth 64)

/-- The element of two halves. -/
def joinU64s (high low : BitVec 64) : BitVec 128 := high.setWidth 128 <<< 64 ||| low.setWidth 128

/-- The bits of both halves set apart, the high half first. -/
def spreadBits128 (x : BitVec 128) : BitVec 128 × BitVec 128 :=
  let (hi,lo) := splitHiLo64 x
  (spreadBits64 hi,spreadBits64 lo)

/-- A product before its reduction, in four words. -/
structure WideGhashProduct where
  v0 : BitVec 64
  v1 : BitVec 64
  v2 : BitVec 64
  v3 : BitVec 64
deriving DecidableEq

def ghashMulX (x : BitVec 128) : BitVec 128 :=
  let mask := -(x >>> 127)
  x <<< 1 ^^^ poly &&& mask

/-- The product of two elements before its reduction. -/
def ghashWideMul (x y : BitVec 128) : WideGhashProduct :=
  let (x1,x0) := splitHiLo64 x
  let (y1,y0) := splitHiLo64 y
  let x0r := x0.reverse
  let x1r := x1.reverse
  let x2 := x0 ^^^ x1
  let x2r := x0r ^^^ x1r
  let y0r := y0.reverse
  let y1r := y1.reverse
  let y2 := y0 ^^^ y1
  let y2r := y0r ^^^ y1r
  let z0 := bmul64 y0 x0
  let z1 := bmul64 y1 x1
  let z2 := bmul64 y2 x2
  let z0h := bmul64 y0r x0r
  let z1h := bmul64 y1r x1r
  let z2h := bmul64 y2r x2r
  let z2 := z2 ^^^ (z0 ^^^ z1)
  let z2h := z2h ^^^ (z0h ^^^ z1h)
  let z0h := z0h.reverse >>> 1
  let z1h := z1h.reverse >>> 1
  let z2h := z2h.reverse >>> 1
  ⟨z0,z0h ^^^ z2,z1 ^^^ z2h,z1h⟩

def reduce64 (v0 v1 v2 v3 : BitVec 64) : BitVec 128 :=
  let v1 := v1 ^^^ (v3 ^^^ v3 <<< 1 ^^^ v3 <<< 2 ^^^ v3 <<< 7)
  let v2 := v2 ^^^ (v3 >>> 63 ^^^ v3 >>> 62 ^^^ v3 >>> 57)
  let v0 := v0 ^^^ (v2 ^^^ v2 <<< 1 ^^^ v2 <<< 2 ^^^ v2 <<< 7)
  let v1 := v1 ^^^ (v2 >>> 63 ^^^ v2 >>> 62 ^^^ v2 >>> 57)
  joinU64s v1 v0

namespace WideGhashProduct

variable (self : WideGhashProduct)

def reduce : BitVec 128 := reduce64 self.v0 self.v1 self.v2 self.v3

def mulX : WideGhashProduct :=
  ⟨self.v0 <<< 1,self.v1 <<< 1 ^^^ self.v0 >>> 63,self.v2 <<< 1 ^^^ self.v1 >>> 63,
    self.v3 <<< 1 ^^^ self.v2 >>> 63⟩

def add (self rhs : WideGhashProduct) : WideGhashProduct :=
  ⟨self.v0 ^^^ rhs.v0,self.v1 ^^^ rhs.v1,self.v2 ^^^ rhs.v2,self.v3 ^^^ rhs.v3⟩

def sum (products : List WideGhashProduct) : WideGhashProduct := products.foldl add ⟨0,0,0,0⟩

end WideGhashProduct

/-- The product of two elements. -/
def ghashMul (x y : BitVec 128) : BitVec 128 := (ghashWideMul x y).reduce

def ghashSquare (x : BitVec 128) : BitVec 128 :=
  let (hi,lo) := spreadBits128 x
  let (v3,v2) := splitHiLo64 hi
  let (v1,v0) := splitHiLo64 lo
  reduce64 v0 v1 v2 v3

section Holes

variable (x y : BitVec 64)

/-- The mask of a class of bits. -/
def hole : ℕ → BitVec 64
  | 0 => 0x1111111111111111
  | 1 => 0x2222222222222222
  | 2 => 0x4444444444444444
  | _ => 0x8888888888888888

theorem getLsbD_hole : ∀ a < 4, ∀ k < 64, (hole a).getLsbD k = decide (k % 4 = a) := by decide

theorem spaced_hole {a : ℕ} (ha : a < 4) : Spaced 4 a (x &&& hole a) := by
  intro i hi
  rw [getLsbD_and,Bool.and_eq_true] at hi
  by_cases hlt : i < 64
  · have hclass := hi.2
    rw [getLsbD_hole a ha i hlt,decide_eq_true_eq] at hclass
    rw [hclass,Nat.mod_eq_of_lt ha]
  · rw [getLsbD_of_ge x i (not_lt.mp hlt)] at hi
    exact absurd hi.1 Bool.false_ne_true

theorem bitPoly_holes : bitPoly x = ∑ a ∈ range 4, bitPoly (x &&& hole a) := by
  ext k
  rw [finsetSum_coeff]
  simp only [coeff_bitPoly,getLsbD_and]
  by_cases hk : k < 64
  · have hclass : k % 4 < 4 := Nat.mod_lt k (by decide)
    rw [Finset.sum_eq_single_of_mem (k % 4) (mem_range.mpr hclass) fun a ha hne => ?_]
    · rw [getLsbD_hole _ hclass k hk,decide_eq_true rfl,Bool.and_true]
    · rw [getLsbD_hole a (mem_range.mp ha) k hk,decide_eq_false (Ne.symm hne),Bool.and_false]
      rfl
  · rw [getLsbD_of_ge x k (not_lt.mp hk)]
    exact (Finset.sum_eq_zero fun a _ => rfl).symm

theorem coeff_mul_holes (k : ℕ) : (bitPoly x * bitPoly y).coeff k =
    ∑ a ∈ range 4, (bitPoly (x &&& hole a) * bitPoly (y &&& hole ((k + 4 - a) % 4))).coeff k := by
  rw [bitPoly_holes x,bitPoly_holes y,Finset.sum_mul_sum,finsetSum_coeff]
  refine sum_congr rfl fun a ha => ?_
  have ha' := mem_range.mp ha
  have hclass : (k + 4 - a) % 4 < 4 := Nat.mod_lt _ (by decide)
  rw [finsetSum_coeff]
  refine Finset.sum_eq_single_of_mem _ (mem_range.mpr hclass) fun b hb hne => ?_
  have hb' := mem_range.mp hb
  have hother : k % 4 ≠ (a + b) % 4 := by omega
  rw [coeff_bitPoly_mul,column_eq_zero (spaced_hole x ha') (spaced_hole y hb') hother,Nat.cast_zero]

theorem getLsbD_mul_holes {a b k : ℕ} (ha : a < 4) (hb : b < 4) (hk : k < 64)
    (hclass : k % 4 = (a + b) % 4) :
    ((((x &&& hole a) * (y &&& hole b)).getLsbD k).toNat : ZMod 2) =
      (bitPoly (x &&& hole a) * bitPoly (y &&& hole b)).coeff k :=
  getLsbD_mul_spaced (by decide) (spaced_hole x ha) (spaced_hole y hb) hk hclass (by omega)

theorem cast_xor (b c : Bool) : (((b ^^ c).toNat : ℕ) : ZMod 2) = (b.toNat : ZMod 2) + (c.toNat : ZMod 2) := by
  cases b <;> cases c <;> decide

def classProduct (c : ℕ) : BitVec 64 :=
  (x &&& hole 0) * (y &&& hole c) ^^^ (x &&& hole 1) * (y &&& hole ((c + 3) % 4)) ^^^
    (x &&& hole 2) * (y &&& hole ((c + 2) % 4)) ^^^ (x &&& hole 3) * (y &&& hole ((c + 1) % 4))

theorem getLsbD_classProduct {c k : ℕ} (hk : k < 64) (hclass : k % 4 = c) :
    (((classProduct x y c).getLsbD k).toNat : ZMod 2) = (bitPoly x * bitPoly y).coeff k := by
  have hc : c < 4 := hclass ▸ Nat.mod_lt k (by decide)
  have hmod : ∀ m, m % 4 < 4 := fun m => Nat.mod_lt m (by decide)
  have e0 : (k + 4 - 0) % 4 = c := by omega
  have e1 : (k + 4 - 1) % 4 = (c + 3) % 4 := by omega
  have e2 : (k + 4 - 2) % 4 = (c + 2) % 4 := by omega
  have e3 : (k + 4 - 3) % 4 = (c + 1) % 4 := by omega
  unfold classProduct
  rw [getLsbD_xor,getLsbD_xor,getLsbD_xor,cast_xor,cast_xor,cast_xor,
    getLsbD_mul_holes x y (by decide) hc hk (by omega),
    getLsbD_mul_holes x y (by decide) (hmod _) hk (by omega),
    getLsbD_mul_holes x y (by decide) (hmod _) hk (by omega),
    getLsbD_mul_holes x y (by decide) (hmod _) hk (by omega),coeff_mul_holes x y]
  rw [Finset.sum_range_succ,Finset.sum_range_succ,Finset.sum_range_succ,Finset.sum_range_one,e0,e1,e2,e3]

theorem getLsbD_bmul64 {k : ℕ} (hk : k < 64) :
    (((bmul64 x y).getLsbD k).toNat : ZMod 2) = (bitPoly x * bitPoly y).coeff k := by
  have hsplit : bmul64 x y = (classProduct x y 0 &&& hole 0 ||| classProduct x y 1 &&& hole 1 |||
      classProduct x y 2 &&& hole 2 ||| classProduct x y 3 &&& hole 3) := rfl
  have hmask := fun a (ha : a < 4) => getLsbD_hole a ha k hk
  have hbit : (bmul64 x y).getLsbD k = (classProduct x y (k % 4)).getLsbD k := by
    rw [hsplit]
    simp only [getLsbD_or,getLsbD_and,hmask 0 (by decide),hmask 1 (by decide),
      hmask 2 (by decide),hmask 3 (by decide)]
    have hcases : k % 4 = 0 ∨ k % 4 = 1 ∨ k % 4 = 2 ∨ k % 4 = 3 := by omega
    rcases hcases with h | h | h | h <;> simp [h]
  rw [hbit,getLsbD_classProduct x y hk rfl]

end Holes

variable (v : WideGhashProduct)

noncomputable def WideGhashProduct.widePoly : (ZMod 2)[X] :=
  bitPoly v.v0 + X ^ 64 * bitPoly v.v1 + X ^ 128 * bitPoly v.v2 + X ^ 192 * bitPoly v.v3

/-- The reduction polynomial. -/
noncomputable def modulus : (ZMod 2)[X] := X ^ 128 + X ^ 7 + X ^ 2 + X + 1

theorem two_eq_zero : (2 : (ZMod 2)[X]) = 0 := CharTwo.two_eq_zero

theorem bitPoly_mul_eq (x y : BitVec 64) :
    bitPoly x * bitPoly y = bitPoly (bmul64 x y) + X ^ 64 * bitPoly ((bmul64 x.reverse y.reverse).reverse >>> 1) :=
  bitPoly_mul_halves (by decide) (fun _ hk => getLsbD_bmul64 x y hk) fun _ hk => getLsbD_bmul64 _ _ hk

theorem joinU64s_eq (high low : BitVec 64) : joinU64s high low = high ++ low := by
  refine eq_of_getLsbD_eq fun k hk => ?_
  unfold joinU64s
  rw [getLsbD_or,BitVec.getLsbD_shiftLeft,getLsbD_setWidth,getLsbD_setWidth,
    BitVec.getLsbD_append,decide_eq_true hk]
  by_cases hlow : k < 64
  · rw [if_pos hlow,decide_eq_true hlow]
    rfl
  · rw [if_neg hlow,decide_eq_false hlow,getLsbD_of_ge low k (not_lt.mp hlow),
      decide_eq_true (by omega : k - 64 < 128)]
    simp only [Bool.not_false,Bool.true_and,Bool.and_false,Bool.or_false]

variable (x : BitVec 128)

theorem splitHiLo64_append : (splitHiLo64 x).1 ++ (splitHiLo64 x).2 = x := by
  refine eq_of_getLsbD_eq fun k hk => ?_
  unfold splitHiLo64
  rw [BitVec.getLsbD_append,getLsbD_setWidth,getLsbD_setWidth,getLsbD_ushiftRight]
  by_cases hlow : k < 64
  · rw [if_pos hlow,decide_eq_true hlow,Bool.true_and]
  · rw [if_neg hlow,decide_eq_true (by omega : k - 64 < 64),Bool.true_and,show 64 + (k - 64) = k by omega]

theorem bitPoly_split :
    bitPoly x = bitPoly (splitHiLo64 x).2 + X ^ 64 * bitPoly (splitHiLo64 x).1 := by
  conv_lhs => rw [← splitHiLo64_append x]
  exact bitPoly_append _ _

theorem reverse_xor (x y : BitVec 64) : (x ^^^ y).reverse = x.reverse ^^^ y.reverse := by
  refine eq_of_getLsbD_eq fun k hk => ?_
  rw [getLsbD_xor,getLsbD_reverse,getLsbD_reverse,getLsbD_reverse,
    BitVec.getMsbD_xor]

/-- The high half of a product without carries. -/
def bmulHigh (x y : BitVec 64) : BitVec 64 := (bmul64 x.reverse y.reverse).reverse >>> 1

theorem ghashWideMul_eq (x y : BitVec 128) {x0 x1 y0 y1 : BitVec 64} (hx : splitHiLo64 x = (x1,x0))
    (hy : splitHiLo64 y = (y1,y0)) :
    ghashWideMul x y = ⟨bmul64 y0 x0,
      bmulHigh y0 x0 ^^^ (bmul64 (y0 ^^^ y1) (x0 ^^^ x1) ^^^ (bmul64 y0 x0 ^^^ bmul64 y1 x1)),
      bmul64 y1 x1 ^^^ (bmulHigh (y0 ^^^ y1) (x0 ^^^ x1) ^^^ (bmulHigh y0 x0 ^^^ bmulHigh y1 x1)),
      bmulHigh y1 x1⟩ := by
  unfold ghashWideMul bmulHigh
  rw [hx,hy]
  simp only [reverse_xor,BitVec.ushiftRight_xor_distrib]

theorem widePoly_ghashWideMul (x y : BitVec 128) :
    (ghashWideMul x y).widePoly = bitPoly x * bitPoly y := by
  rcases hx : splitHiLo64 x with ⟨x1,x0⟩
  rcases hy : splitHiLo64 y with ⟨y1,y0⟩
  have h0 : bitPoly y0 * bitPoly x0 = bitPoly (bmul64 y0 x0) + X ^ 64 * bitPoly (bmulHigh y0 x0) :=
    bitPoly_mul_eq y0 x0
  have h1 : bitPoly y1 * bitPoly x1 = bitPoly (bmul64 y1 x1) + X ^ 64 * bitPoly (bmulHigh y1 x1) :=
    bitPoly_mul_eq y1 x1
  have h2 : bitPoly (y0 ^^^ y1) * bitPoly (x0 ^^^ x1) = bitPoly (bmul64 (y0 ^^^ y1) (x0 ^^^ x1)) +
      X ^ 64 * bitPoly (bmulHigh (y0 ^^^ y1) (x0 ^^^ x1)) := bitPoly_mul_eq _ _
  rw [bitPoly_xor,bitPoly_xor] at h2
  rw [bitPoly_split x,bitPoly_split y,hx,hy,ghashWideMul_eq x y hx hy]
  unfold WideGhashProduct.widePoly
  simp only [bitPoly_xor]
  linear_combination -(1 + X ^ 64) * h0 - (X ^ 64 + X ^ 128) * h1 - X ^ 64 * h2 +
    X ^ 64 * (bitPoly y0 * bitPoly x0 + bitPoly y1 * bitPoly x1) * two_eq_zero

/-- The low coefficients of the reduction polynomial. -/
noncomputable def modulusTail : (ZMod 2)[X] := X ^ 7 + X ^ 2 + X + 1

theorem modulus_eq : modulus = X ^ 128 + modulusTail := by
  unfold modulus modulusTail
  ring

theorem degree_modulusTail_lt : modulusTail.degree < (128 : ℕ) := by
  have hle : modulusTail.degree ≤ (7 : ℕ) := by
    unfold modulusTail
    compute_degree
    exact Nat.cast_ofNat.ge
  exact lt_of_le_of_lt hle (Nat.cast_lt.mpr (by decide))

theorem modulus_monic : modulus.Monic := by
  rw [modulus_eq]
  exact monic_X_pow_add degree_modulusTail_lt

theorem degree_modulus : modulus.degree = (128 : ℕ) := by
  have hpower : (X ^ 128 : (ZMod 2)[X]).degree = (128 : ℕ) := by rw [degree_X_pow]
  rw [modulus_eq,degree_add_eq_left_of_degree_lt (by rw [hpower]; exact degree_modulusTail_lt),hpower]

theorem bitPoly_eq_mod {x : BitVec 128} {p : (ZMod 2)[X]} (q : (ZMod 2)[X])
    (h : p = bitPoly x + modulus * q) : bitPoly x = p %ₘ modulus := by
  have hdegree : (bitPoly x).degree < modulus.degree := by
    rw [degree_modulus]
    exact degree_bitPoly_lt x
  have hself := (modByMonic_eq_self_iff modulus_monic).mpr hdegree
  rw [h,add_modByMonic,self_mul_modByMonic modulus_monic,add_zero,hself]

theorem bitPoly_tail (v : BitVec 64) : modulusTail * bitPoly v =
    bitPoly (v ^^^ v <<< 1 ^^^ v <<< 2 ^^^ v <<< 7) + X ^ 64 * bitPoly (v >>> 63 ^^^ v >>> 62 ^^^ v >>> 57) := by
  have h1 : X ^ 1 * bitPoly v = bitPoly (v <<< 1) + X ^ 64 * bitPoly (v >>> 63) := bitPoly_shift v rfl
  have h2 : X ^ 2 * bitPoly v = bitPoly (v <<< 2) + X ^ 64 * bitPoly (v >>> 62) := bitPoly_shift v rfl
  have h7 : X ^ 7 * bitPoly v = bitPoly (v <<< 7) + X ^ 64 * bitPoly (v >>> 57) := bitPoly_shift v rfl
  simp only [bitPoly_xor]
  unfold modulusTail
  linear_combination h1 + h2 + h7

theorem bitPoly_reduce : bitPoly v.reduce = v.widePoly %ₘ modulus := by
  obtain ⟨v0,v1,v2,v3⟩ := v
  have h3 := bitPoly_tail v3
  have h2 := bitPoly_tail (v2 ^^^ (v3 >>> 63 ^^^ v3 >>> 62 ^^^ v3 >>> 57))
  have hsplit := bitPoly_xor v2 (v3 >>> 63 ^^^ v3 >>> 62 ^^^ v3 >>> 57)
  refine bitPoly_eq_mod (X ^ 64 * bitPoly v3 +
    bitPoly (v2 ^^^ (v3 >>> 63 ^^^ v3 >>> 62 ^^^ v3 >>> 57))) ?_
  unfold WideGhashProduct.reduce reduce64 WideGhashProduct.widePoly
  rw [modulus_eq,joinU64s_eq,bitPoly_append]
  dsimp only
  generalize v2 ^^^ (v3 >>> 63 ^^^ v3 >>> 62 ^^^ v3 >>> 57) = v2' at h2 hsplit ⊢
  -- each of the two folds adds what it removes above to the words below
  rw [bitPoly_xor v0,bitPoly_xor (v1 ^^^ _),bitPoly_xor v1]
  linear_combination -h2 - X ^ 64 * h3 - X ^ 128 * hsplit -
    (bitPoly (v2' ^^^ v2' <<< 1 ^^^ v2' <<< 2 ^^^ v2' <<< 7) +
      X ^ 64 * bitPoly (v2' >>> 63 ^^^ v2' >>> 62 ^^^ v2' >>> 57) +
      X ^ 64 * bitPoly (v3 ^^^ v3 <<< 1 ^^^ v3 <<< 2 ^^^ v3 <<< 7) +
      X ^ 128 * bitPoly (v3 >>> 63 ^^^ v3 >>> 62 ^^^ v3 >>> 57)) * two_eq_zero

theorem bitPoly_ghashMul (x y : BitVec 128) : bitPoly (ghashMul x y) = (bitPoly x * bitPoly y) %ₘ modulus := by
  unfold ghashMul
  rw [bitPoly_reduce,widePoly_ghashWideMul]

theorem ushiftRight_last : x >>> 127 = if x.msb then twoPow 128 0 else 0 := by
  refine eq_of_getLsbD_eq fun k hk => ?_
  rw [getLsbD_ushiftRight,BitVec.msb_eq_getLsbD_last]
  rcases Nat.eq_zero_or_pos k with rfl | hpos
  · cases hmsb : x.getLsbD 127 with
    | false => simp
    | true => simp
  · rw [getLsbD_of_ge x (127 + k) (by omega)]
    split_ifs
    · rw [getLsbD_twoPow,decide_eq_false (by omega : ¬0 = k),Bool.and_false]
    · rw [ofNat_eq_ofNat,getLsbD_zero]

theorem ghashMulX_eq : ghashMulX x = GhashField.ghashMulX x := by
  have hmask : -(x >>> 127) = if x.msb then BitVec.allOnes 128 else 0 := by
    rw [ushiftRight_last]
    split_ifs
    · decide
    · decide
  unfold ghashMulX GhashField.ghashMulX
  rw [hmask]
  dsimp only
  split_ifs
  · rw [BitVec.and_allOnes]
  · rw [ofNat_eq_ofNat,BitVec.and_zero]

theorem bitPoly_poly : bitPoly poly = modulusTail := by
  have hpoly : poly = twoPow 128 7 ^^^ twoPow 128 2 ^^^ twoPow 128 1 ^^^
      twoPow 128 0 := by decide
  rw [hpoly,bitPoly_xor,bitPoly_xor,bitPoly_xor,bitPoly_twoPow (by decide),bitPoly_twoPow (by decide),
    bitPoly_twoPow (by decide),bitPoly_twoPow (by decide),pow_one,pow_zero]
  rfl

theorem bitPoly_ghashMulX : bitPoly (ghashMulX x) = (X * bitPoly x) %ₘ modulus := by
  have hshift := bitPoly_shift x (rfl : 1 + 127 = 128)
  rw [ushiftRight_last] at hshift
  rw [ghashMulX_eq]
  unfold GhashField.ghashMulX
  cases hmsb : x.msb with
  | false =>
    refine bitPoly_eq_mod 0 ?_
    rw [hmsb,if_neg Bool.false_ne_true] at hshift
    rw [if_neg Bool.false_ne_true]
    rw [bitPoly_zero] at hshift
    rw [bitPoly_xor,bitPoly_zero]
    linear_combination hshift
  | true =>
    refine bitPoly_eq_mod 1 ?_
    rw [hmsb,if_pos rfl] at hshift
    rw [if_pos rfl]
    rw [bitPoly_twoPow (by decide),pow_zero] at hshift
    rw [bitPoly_xor,bitPoly_poly,modulus_eq]
    linear_combination hshift - modulusTail * two_eq_zero

namespace WideGhashProduct

theorem widePoly_add (v w : WideGhashProduct) : (v.add w).widePoly = v.widePoly + w.widePoly := by
  unfold add widePoly
  simp only [bitPoly_xor]
  ring

theorem widePoly_zero : (⟨0,0,0,0⟩ : WideGhashProduct).widePoly = 0 := by
  unfold widePoly
  simp only [bitPoly_zero,mul_zero,add_zero]

theorem widePoly_sum (products : List WideGhashProduct) :
    (sum products).widePoly = (products.map widePoly).sum := by
  have hfold : ∀ acc : WideGhashProduct,
      (products.foldl add acc).widePoly = acc.widePoly + (products.map widePoly).sum := by
    induction products with
    | nil =>
      intro acc
      exact (add_zero _).symm
    | cons v products ih =>
      intro acc
      rw [List.foldl_cons,ih,widePoly_add,List.map_cons,List.sum_cons,add_assoc]
  unfold sum
  rw [hfold,widePoly_zero,zero_add]

theorem widePoly_mulX {v : WideGhashProduct} (hv : v.widePoly.coeff 255 = 0) :
    v.mulX.widePoly = X * v.widePoly := by
  have hbit : v.v3.getLsbD 63 = false := by
    refine toNat_cast_injective ?_
    unfold widePoly at hv
    simp only [coeff_add,coeff_X_pow_mul',coeff_bitPoly] at hv
    rw [getLsbD_of_ge v.v0 255 (by decide),if_pos (by decide),if_pos (by decide),if_pos (by decide),
      getLsbD_of_ge v.v1 _ (by decide),getLsbD_of_ge v.v2 _ (by decide)] at hv
    rw [Bool.toNat_false,Nat.cast_zero,add_zero,add_zero,zero_add] at hv
    rw [Bool.toNat_false,Nat.cast_zero]
    exact hv
  have htop : v.v3 >>> 63 = 0 := by
    refine eq_of_getLsbD_eq fun k hk => ?_
    rw [getLsbD_ushiftRight,ofNat_eq_ofNat,getLsbD_zero]
    rcases Nat.eq_zero_or_pos k with rfl | hpos
    · exact hbit
    · exact getLsbD_of_ge v.v3 (63 + k) (by omega)
  have h0 := bitPoly_shift v.v0 (rfl : 1 + 63 = 64)
  have h1 := bitPoly_shift v.v1 (rfl : 1 + 63 = 64)
  have h2 := bitPoly_shift v.v2 (rfl : 1 + 63 = 64)
  have h3 := bitPoly_shift v.v3 (rfl : 1 + 63 = 64)
  rw [htop,bitPoly_zero] at h3
  unfold mulX widePoly
  simp only [bitPoly_xor]
  linear_combination -h0 - X ^ 64 * h1 - X ^ 128 * h2 - X ^ 192 * h3

theorem coeff_sum_products (pairs : List (BitVec 128 × BitVec 128)) :
    (sum (pairs.map fun pair => ghashWideMul pair.1 pair.2)).widePoly.coeff 255 = 0 := by
  rw [widePoly_sum]
  induction pairs with
  | nil => exact coeff_zero 255
  | cons pair pairs ih =>
    rw [List.map_cons,List.map_cons,List.sum_cons,coeff_add,ih,add_zero,widePoly_ghashWideMul]
    refine coeff_eq_zero_of_natDegree_lt (lt_of_le_of_lt natDegree_mul_le ?_)
    have hx := natDegree_bitPoly_le pair.1
    have hy := natDegree_bitPoly_le pair.2
    omega

end WideGhashProduct

variable (elems : List (BitVec 128))

def xorSum : BitVec 128 := elems.foldl (· ^^^ ·) 0

theorem bitPoly_xorSum : bitPoly (xorSum elems) = (elems.map bitPoly).sum := by
  have hfold : ∀ acc : BitVec 128,
      bitPoly (elems.foldl (· ^^^ ·) acc) = bitPoly acc + (elems.map bitPoly).sum := by
    induction elems with
    | nil =>
      intro acc
      exact (add_zero _).symm
    | cons x elems ih =>
      intro acc
      rw [List.foldl_cons,ih,bitPoly_xor,List.map_cons,List.sum_cons,add_assoc]
  unfold xorSum
  rw [hfold,bitPoly_zero,zero_add]

variable (pairs : List (BitVec 128 × BitVec 128))

theorem reduce_sum :
    (WideGhashProduct.sum (pairs.map fun pair => ghashWideMul pair.1 pair.2)).reduce =
      xorSum (pairs.map fun pair => ghashMul pair.1 pair.2) := by
  refine bitPoly_injective ?_
  rw [bitPoly_reduce,WideGhashProduct.widePoly_sum,bitPoly_xorSum]
  induction pairs with
  | nil => exact zero_modByMonic modulus
  | cons pair pairs ih =>
    simp only [List.map_cons,List.sum_cons] at ih ⊢
    rw [add_modByMonic,ih,widePoly_ghashWideMul,bitPoly_ghashMul]

theorem mul_mod (p q : (ZMod 2)[X]) : (p * q) %ₘ modulus = (p * (q %ₘ modulus)) %ₘ modulus := by
  have hq := modByMonic_add_div q modulus
  have hsplit : p * q = p * (q %ₘ modulus) + modulus * (p * (q /ₘ modulus)) := by
    conv_lhs => rw [← hq]
    ring
  rw [hsplit,add_modByMonic,self_mul_modByMonic modulus_monic,add_zero]

theorem reduce_mulX_sum :
    (WideGhashProduct.sum (pairs.map fun pair => ghashWideMul pair.1 pair.2)).mulX.reduce =
      ghashMulX (xorSum (pairs.map fun pair => ghashMul pair.1 pair.2)) := by
  refine bitPoly_injective ?_
  rw [bitPoly_reduce,WideGhashProduct.widePoly_mulX (WideGhashProduct.coeff_sum_products pairs),
    bitPoly_ghashMulX,← reduce_sum,bitPoly_reduce,mul_mod]

def spreadStage (s : ℕ) (mask x : BitVec 128) : BitVec 128 := (x ||| x <<< s) &&& mask

theorem spreadStage_or (s : ℕ) (mask x y : BitVec 128) :
    spreadStage s mask (x ||| y) = spreadStage s mask x ||| spreadStage s mask y := by
  refine eq_of_getLsbD_eq fun k hk => ?_
  unfold spreadStage
  simp only [getLsbD_and,getLsbD_or,BitVec.getLsbD_shiftLeft]
  rw [Bool.and_or_distrib_left,← Bool.and_or_distrib_right]
  congr 1
  ac_rfl

theorem spreadBits64_or (x y : BitVec 64) : spreadBits64 (x ||| y) = spreadBits64 x ||| spreadBits64 y := by
  have hwidth : (x ||| y).setWidth 128 = x.setWidth 128 ||| y.setWidth 128 := BitVec.setWidth_or
  have hstages : ∀ z : BitVec 64, spreadBits64 z = spreadStage 1 0x55555555555555555555555555555555
      (spreadStage 2 0x33333333333333333333333333333333 (spreadStage 4 0x0F0F0F0F0F0F0F0F0F0F0F0F0F0F0F0F
        (spreadStage 8 0x00FF00FF00FF00FF00FF00FF00FF00FF (spreadStage 16 0x0000FFFF0000FFFF0000FFFF0000FFFF
          (spreadStage 32 0x00000000FFFFFFFF00000000FFFFFFFF (z.setWidth 128)))))) := fun _ => rfl
  rw [hstages,hstages,hstages,hwidth]
  simp only [spreadStage_or]

theorem spreadBits64_twoPow : ∀ i < 64, spreadBits64 (twoPow 64 i) = twoPow 128 (2 * i) := by
  decide +kernel

theorem getLsbD_spreadBits64 (x : BitVec 64) :
    ∀ k, (spreadBits64 x).getLsbD k = (decide (2 ∣ k) && x.getLsbD (k / 2)) := by
  induction x using bit_induction with
  | hzero =>
    intro k
    have hzero : spreadBits64 0 = 0 := by decide
    rw [hzero,ofNat_eq_ofNat,getLsbD_zero,ofNat_eq_ofNat,getLsbD_zero,Bool.and_false]
  | hset x i hi _ ih =>
    intro k
    rw [spreadBits64_or,spreadBits64_twoPow i hi,getLsbD_or,ih k,getLsbD_or,getLsbD_twoPow,
      getLsbD_twoPow,decide_eq_true hi,decide_eq_true (by omega : 2 * i < 128),Bool.true_and,Bool.true_and,
      Bool.and_or_distrib_left]
    congr 1
    by_cases hk : 2 * i = k
    · rw [decide_eq_true hk,decide_eq_true (by omega : 2 ∣ k),decide_eq_true (by omega : i = k / 2)]
      rfl
    · rw [decide_eq_false hk]
      by_cases hdvd : 2 ∣ k
      · rw [decide_eq_false (by omega : ¬i = k / 2),Bool.and_false]
      · rw [decide_eq_false hdvd]
        rfl

theorem bitPoly_spreadBits64 (x : BitVec 64) : bitPoly (spreadBits64 x) = bitPoly x ^ 2 :=
  bitPoly_square x (getLsbD_spreadBits64 x)

theorem ghashSquare_eq : ghashSquare x = ghashMul x x := by
  refine bitPoly_injective ?_
  rw [bitPoly_ghashMul]
  have hreduce : ghashSquare x = (⟨(splitHiLo64 (spreadBits64 (splitHiLo64 x).2)).2,
      (splitHiLo64 (spreadBits64 (splitHiLo64 x).2)).1,(splitHiLo64 (spreadBits64 (splitHiLo64 x).1)).2,
      (splitHiLo64 (spreadBits64 (splitHiLo64 x).1)).1⟩ : WideGhashProduct).reduce := rfl
  rw [hreduce,bitPoly_reduce]
  have hlow := bitPoly_split (spreadBits64 (splitHiLo64 x).2)
  have hhigh := bitPoly_split (spreadBits64 (splitHiLo64 x).1)
  rw [bitPoly_spreadBits64] at hlow hhigh
  have hx := bitPoly_split x
  unfold WideGhashProduct.widePoly
  congr 1
  rw [hx]
  linear_combination -hlow - X ^ 128 * hhigh -
    X ^ 64 * bitPoly (splitHiLo64 x).2 * bitPoly (splitHiLo64 x).1 * two_eq_zero

theorem bitPoly_ghashProduct (x y : BitVec 128) :
    bitPoly (GhashField.ghashProduct x y) = (bitPoly x * bitPoly y) %ₘ modulus := by
  have hpower : ∀ n, bitPoly (GhashField.ghashMulXPow n y) = (X ^ n * bitPoly y) %ₘ modulus := by
    intro n
    induction n with
    | zero =>
      have hzero : GhashField.ghashMulXPow 0 y = y := rfl
      rw [pow_zero,one_mul,hzero]
      refine bitPoly_eq_mod 0 ?_
      ring
    | succ n ih =>
      have hstep : GhashField.ghashMulXPow (n + 1) y = ghashMulX (GhashField.ghashMulXPow n y) :=
        (ghashMulX_eq _).symm
      rw [hstep,bitPoly_ghashMulX,ih,← mul_mod,pow_succ',mul_assoc]
  have hbelow : ∀ n, bitPoly (GhashField.ghashMulBelow x y n) =
      ((∑ i ∈ range n, C ((x.getLsbD i).toNat : ZMod 2) * X ^ i) * bitPoly y) %ₘ modulus := by
    intro n
    induction n with
    | zero =>
      rw [Finset.sum_range_zero,zero_mul,zero_modByMonic]
      exact bitPoly_zero
    | succ n ih =>
      have hstep : GhashField.ghashMulBelow x y (n + 1) =
        GhashField.ghashMulBelow x y n ^^^ if x.getLsbD n then GhashField.ghashMulXPow n y else 0 := rfl
      rw [hstep,bitPoly_xor,ih,Finset.sum_range_succ,add_mul,add_modByMonic]
      refine congrArg₂ (· + ·) rfl ?_
      cases x.getLsbD n with
      | false =>
        rw [if_neg Bool.false_ne_true,bitPoly_zero,Bool.toNat_false,Nat.cast_zero,C_0,zero_mul,zero_mul,
          zero_modByMonic]
      | true => rw [if_pos rfl,hpower,Bool.toNat_true,Nat.cast_one,C_1,one_mul]
  have hwhole : bitPoly x = ∑ i ∈ range 128, C ((x.getLsbD i).toNat : ZMod 2) * X ^ i := by
    ext k
    simp only [finsetSum_coeff,coeff_C_mul_X_pow,coeff_bitPoly]
    rw [Finset.sum_ite_eq]
    split_ifs with hk
    · rfl
    · rw [getLsbD_of_ge x k (not_lt.mp (mt mem_range.mpr hk))]
      rfl
  rw [hwhole]
  exact hbelow 128

theorem ghashMul_eq (x y : BitVec 128) : ghashMul x y = GhashField.ghashProduct x y :=
  bitPoly_injective (by rw [bitPoly_ghashMul,bitPoly_ghashProduct])

end Binius64.GhashPortable
