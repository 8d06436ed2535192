import Binius64.BignumReduction
import Mathlib.Algebra.Field.ZMod

/-!
# Prime field gadgets

Arithmetic modulo a prime `2 ^ k - c` on limb vectors.
-/

namespace Binius64.Bignum

open MachineWord (Word isMsbTrue isMsbTrue_eq)
open WordGates LimbVectors CheckedRun

/-- Arithmetic modulo a power of two less a subtrahend. -/
structure PseudoMersennePrimeField where
  modulus : BigUint
  modulusPo2 : ℕ
  modulusSubtrahend : BigUint
deriving DecidableEq

namespace PseudoMersennePrimeField

/-- The field of an exponent and the limbs of a subtrahend. -/
def new (modulusPo2 : ℕ) (modulusSubtrahend : List Word) : Gadget PseudoMersennePrimeField := do
  let subtrahend := limbValue modulusSubtrahend
  let po2 := 2 ^ (modulusPo2 % 2 ^ 32)
  ensure (po2 > subtrahend) "2^modulus_po2 - modulus_subtrahend > 0"
  return ⟨.newConstant (po2 - subtrahend),modulusPo2,.newConstant subtrahend⟩

variable (f : PseudoMersennePrimeField)

def limbsLen : ℕ := f.modulus.limbs.length

/-- Field addition. -/
def add (fe1 fe2 : BigUint) : Gadget BigUint := do
  ensure (fe1.limbs.length = f.limbsLen ∧ fe2.limbs.length = f.limbsLen)
    "fe1.limbs.len() == l && fe2.limbs.len() == l"
  let sum ← addWithCarryOut fe1 fe2
  let lt ← biguintLt sum.1 f.modulus
  -- a carry and a comparison that fails exclude each other
  let needReduction := bxor sum.2 (bnot lt)
  let reduced ← subWithBorrowOut sum.1 (f.modulus.zeroUnless needReduction)
  return reduced.1

/-- Field subtraction: addition of the difference from the modulus. -/
def sub (fe1 fe2 : BigUint) : Gadget BigUint := do
  ensure (fe1.limbs.length = f.limbsLen ∧ fe2.limbs.length = f.limbsLen)
    "fe1.limbs.len() == self.limbs_len() && fe2.limbs.len() == self.limbs_len()"
  let fe2AddInv ← Bignum.sub f.modulus fe2
  f.add fe1 fe2AddInv

def reduceProduct (advice : Advice) (product : BigUint) : Gadget BigUint := do
  let hinted ← BigUintDivideHint.call advice product.limbs f.modulus.limbs
  let quotient : BigUint := ⟨hinted.1⟩
  let remainder := (BigUint.mk hinted.2).padLimbsTo f.limbsLen 0
  let lt ← biguintLt remainder f.modulus
  assertTrue "remainder < modulus" lt
  let check ← PseudoMersenneModReduce.new product f.modulusPo2 f.modulusSubtrahend quotient remainder
  check.constrain
  return remainder

def square (advice : Advice) (fe : BigUint) : Gadget BigUint := do
  ensure (fe.limbs.length = f.limbsLen) "fe.limbs.len() == self.limbs_len()"
  let product ← textbookSquare fe
  f.reduceProduct advice product

/-- Field multiplication. -/
def mul (advice : Advice) (fe1 fe2 : BigUint) : Gadget BigUint := do
  ensure (fe1.limbs.length = f.limbsLen ∧ fe2.limbs.length = f.limbsLen)
    "fe1.limbs.len() == self.limbs_len() && fe2.limbs.len() == self.limbs_len()"
  let product ← textbookMul fe1 fe2
  f.reduceProduct advice product

def inverse (advice : Advice) (fe : BigUint) (existsFlag : Word) : Gadget BigUint := do
  ensure (fe.limbs.length = f.limbsLen) "fe.limbs.len() == self.limbs_len()"
  let hinted ← ModInverseHint.call advice fe.limbs f.modulus.limbs
  let quotient : BigUint := ⟨hinted.1⟩
  let inverse := (BigUint.mk hinted.2).padLimbsTo f.limbsLen 0
  let one := (BigUint.newConstant 1).padLimbsTo f.limbsLen 0
  let product ← textbookMul inverse fe
  let lt ← biguintLt inverse f.modulus
  assertTrue "inverse < modulus" lt
  let check ← PseudoMersenneModReduce.new product f.modulusPo2 f.modulusSubtrahend quotient one
  check.constrainCond existsFlag
  return inverse

def div (advice : Advice) (dividend divisor : BigUint) (existsFlag : Word) : Gadget BigUint := do
  ensure (dividend.limbs.length = f.limbsLen ∧ divisor.limbs.length = f.limbsLen)
    "dividend.limbs.len() == self.limbs_len() && divisor.limbs.len() == self.limbs_len()"
  let hinted ← ModDivideHint.call advice dividend.limbs divisor.limbs f.modulus.limbs
  let quotient : BigUint := ⟨hinted.1⟩
  let slope := (BigUint.mk hinted.2).padLimbsTo f.limbsLen 0
  let product ← textbookMul slope divisor
  let lt ← biguintLt slope f.modulus
  assertTrue "slope < modulus" lt
  let check ← PseudoMersenneModReduce.new product f.modulusPo2 f.modulusSubtrahend quotient dividend
  check.constrainCond existsFlag
  return slope

/-- A field element in its one representation. -/
structure Reduced (fe : BigUint) : Prop where
  length : fe.limbs.length = f.limbsLen
  lt : fe.value < f.modulus.value

/-- What the gadgets rely on: a prime that is a power of two at a limb boundary less the subtrahend,
in no more limbs than that power has below it and few enough for the hints. -/
structure Admitted (n p : ℕ) : Prop where
  po2 : f.modulusPo2 = 64 * n
  modulus : f.modulus.value = p
  total : p + f.modulusSubtrahend.value = (2 ^ 64) ^ n
  limbs : f.limbsLen ≤ n
  subtrahend : f.modulusSubtrahend.limbs.length ≤ n
  few : n ≤ 2 ^ 26

variable {f}

theorem admitted_of_new {k c p : ℕ} {limbs : List Word} (hnew : new k limbs = .ok f)
    (hk : 64 ∣ k) (hlimbs : limbValue limbs = c) (hc : 0 < c ∧ c < 2 ^ k) (hp : p = 2 ^ k - c)
    (hmodulus : f.modulus.value = p) : f.Admitted (k / 64) p := by
  unfold new at hnew
  dsimp only at hnew
  obtain ⟨_,hensure,hreturn⟩ := bind_eq_ok.mp hnew
  have hlt := ensure_eq_ok.mp hensure
  rw [hlimbs] at hlt
  rw [pure_eq_ok,hlimbs] at hreturn
  subst hreturn
  have hpow : (2 ^ 64) ^ (k / 64) = 2 ^ k := by rw [←pow_mul,Nat.mul_div_cancel' hk]
  dsimp only at hmodulus
  rw [value_newConstant] at hmodulus
  -- the cut exponent gives the same power only when nothing was cut
  have hsame : 2 ^ (k % 2 ^ 32) = 2 ^ k := by omega
  have hsmall : k % 2 ^ 32 = k := Nat.pow_right_injective (le_refl 2) hsame
  have hk32 : k < 2 ^ 32 := by
    rw [←hsmall]
    exact Nat.mod_lt _ (by decide)
  refine ⟨?_,?_,?_,?_,?_,?_⟩
  · exact (Nat.mul_div_cancel' hk).symm
  · dsimp only
    rw [value_newConstant]
    exact hmodulus
  · dsimp only
    rw [value_newConstant,hpow]
    omega
  · exact length_u64Digits_le (by rw [hpow]; omega)
  · exact length_u64Digits_le (by rw [hpow]; omega)
  · omega

theorem reduce_sum {B p sum carry need diff borrow total : ℕ} (hp : p < B) (hdifflt : diff < B)
    (hcarry : carry ≤ 1) (hborrow : borrow ≤ 1) (htotal : total < 2 * p)
    (hsum : sum + B * carry = total) (hneed : carry = 1 ∨ p ≤ sum → need = 1)
    (hkeep : carry = 0 → sum < p → need = 0) (hdiff : diff + need * p = sum + B * borrow) :
    diff < p ∧ (diff = total ∨ diff + p = total) := by
  obtain rfl | rfl : carry = 0 ∨ carry = 1 := by omega
  · obtain rfl | rfl : borrow = 0 ∨ borrow = 1 := by omega
    · by_cases hlt : sum < p
      · have hzero := hkeep rfl hlt
        subst hzero
        omega
      · have hone := hneed (Or.inr (by omega))
        subst hone
        omega
    · by_cases hlt : sum < p
      · have hzero := hkeep rfl hlt
        subst hzero
        omega
      · have hone := hneed (Or.inr (by omega))
        subst hone
        omega
  · have hone := hneed (Or.inl rfl)
    subst hone
    obtain rfl | rfl : borrow = 0 ∨ borrow = 1 := by omega
    · omega
    · omega

theorem add_total {x y : BigUint} (hx : x.limbs.length = f.limbsLen)
    (hy : y.limbs.length = f.limbsLen) (hlt : x.value + y.value < 2 * f.modulus.value) :
    ∃ r, f.add x y = .ok r ∧ f.Reduced r ∧
      (r.value = x.value + y.value ∨ r.value + f.modulus.value = x.value + y.value) := by
  obtain ⟨sum,carry,hadd,hsumlen,hsum⟩ := addWithCarryOut_value (hx.trans hy.symm)
  have hsumlen' : sum.limbs.length = f.modulus.limbs.length := hsumlen.trans hx
  obtain ⟨lt,hlt',hcompare⟩ := biguintLt_ok hsumlen'
  obtain ⟨need,hneed⟩ : ∃ need, need = bxor carry (bnot lt) := ⟨_,rfl⟩
  obtain ⟨diff,borrow,hsub,hdifflen,hdiff⟩ := subWithBorrowOut_value (a := sum)
    (b := f.modulus.zeroUnless need) (by rw [BigUint.length_zeroUnless]; exact hsumlen')
  have hp := f.modulus.value_lt
  have hdifflt := diff.value_lt
  rw [hdifflen,hsumlen'] at hdifflt
  rw [BigUint.value_zeroUnless,hsumlen'] at hdiff
  rw [show x.limbs.length = f.modulus.limbs.length from hx] at hsum
  have hlow : flag carry = 1 → isMsbTrue lt = true := by
    intro hcarry
    rw [hcarry,Nat.mul_one] at hsum
    exact hcompare.mpr (by omega)
  have hflag : flag need = if isMsbTrue carry = true ∨ ¬isMsbTrue lt = true then 1 else 0 := by
    rw [hneed]
    unfold flag at *
    rw [isMsbTrue_bxor,isMsbTrue_bnot]
    cases hc : isMsbTrue carry with
    | true =>
      rw [hlow (by rw [hc]; rfl)]
      rfl
    | false =>
      cases isMsbTrue lt with
      | true => rfl
      | false => rfl
  have hset : flag carry = 1 ↔ isMsbTrue carry = true := by
    unfold flag
    cases isMsbTrue carry with
    | true => decide
    | false => decide
  have hone : flag carry = 1 ∨ f.modulus.value ≤ sum.value → flag need = 1 := by
    intro hcase
    apply hflag.trans (if_pos (hcase.imp hset.mp _))
    intro hle hltset
    exact Nat.not_lt.mpr hle (hcompare.mp hltset)
  have hzero : flag carry = 0 → sum.value < f.modulus.value → flag need = 0 := by
    intro hcarry hsumlow
    apply hflag.trans (if_neg _)
    rintro (hcase | hcase)
    · exact absurd (hset.mpr hcase) (by omega)
    · exact hcase (hcompare.mpr hsumlow)
  obtain ⟨hreduced,hvalue⟩ :=
    reduce_sum hp hdifflt (flag_le carry) (flag_le borrow) hlt hsum hone hzero hdiff
  refine ⟨diff,?_,⟨hdifflen.trans hsumlen',hreduced⟩,hvalue⟩
  unfold add
  rw [ensure_ok ⟨hx,hy⟩,ok_bind,hadd,ok_bind]
  dsimp only
  rw [hlt',ok_bind,←hneed,hsub]
  rfl

theorem cast_sum {r p total : ℕ} (h : r = total ∨ r + p = total) : (r : ZMod p) = total := by
  cases h with
  | inl h => rw [h]
  | inr h => rw [←h,Nat.cast_add,ZMod.natCast_self,add_zero]

section Admitted

variable {n p : ℕ}

variable {x : BigUint}

theorem add_exact (h : f.Admitted n p) {y : BigUint} (hx : f.Reduced x) (hy : f.Reduced y) :
    ∃ r, f.add x y = .ok r ∧ f.Reduced r ∧ (r.value : ZMod p) = x.value + y.value := by
  have hxlt := hx.lt
  have hylt := hy.lt
  obtain ⟨r,hrun,hreduced,hvalue⟩ := add_total hx.length hy.length (by omega)
  rw [h.modulus] at hvalue
  refine ⟨r,hrun,hreduced,?_⟩
  rw [cast_sum hvalue,Nat.cast_add]

theorem sub_exact (h : f.Admitted n p) {y : BigUint} (hx : f.Reduced x) (hy : f.Reduced y) :
    ∃ r, f.sub x y = .ok r ∧ f.Reduced r ∧ (r.value : ZMod p) = x.value - y.value := by
  have hxlt := hx.lt
  have hylt := hy.lt
  obtain ⟨diff,hsub,hlen,hdiff⟩ := sub_ok (a := f.modulus) (b := y) hy.length.symm hylt.le
  obtain ⟨r,hrun,hreduced,hvalue⟩ := add_total (f := f) hx.length (y := diff) hlen (by omega)
  rw [h.modulus] at hvalue hdiff
  refine ⟨r,?_,hreduced,?_⟩
  · unfold PseudoMersennePrimeField.sub
    rw [ensure_ok ⟨hx.length,hy.length⟩,ok_bind,hsub,ok_bind,hrun]
  · have hcast : (diff.value : ZMod p) + y.value = 0 := by
      rw [←Nat.cast_add,hdiff,ZMod.natCast_self]
    rw [cast_sum hvalue,Nat.cast_add,eq_neg_of_add_eq_zero_left hcast,sub_eq_add_neg]

theorem equation_iff {a q r c p K : ℕ} (h : p + c = K) :
    a + q * c = r + K * q ↔ a = q * p + r := by
  have hexpand : K * q = q * p + q * c := by
    rw [←h]
    ring
  rw [hexpand]
  omega

theorem high_le {a q r p c K : ℕ} (h : p + c = K) (hr : r < K) (ha : a = q * p + r) :
    a / K ≤ q := by
  have hle : q * p ≤ q * K := Nat.mul_le_mul_left _ (by omega)
  rw [←Nat.lt_succ_iff]
  apply Nat.div_lt_of_lt_mul
  rw [Nat.mul_succ,Nat.mul_comm K q]
  omega

variable {a q r : BigUint}

theorem eq_of_check (h : f.Admitted n p) (hr : r.limbs.length ≤ n)
    (ha : a.limbs.length ≤ n + q.limbs.length) {check : PseudoMersenneModReduce}
    (hnew : PseudoMersenneModReduce.new a f.modulusPo2 f.modulusSubtrahend q r = .ok check)
    {cond : Word} (hcheck : check.constrainCond cond = .ok ()) (hcond : isMsbTrue cond = true) :
    a.value = q.value * p + r.value := by
  rw [h.po2] at hnew
  have hle := PseudoMersenneModReduce.le_of_new ha hnew
  obtain ⟨check',hrun,hlen,hsides⟩ := PseudoMersenneModReduce.new_ok h.subtrahend hr ha hle
  obtain rfl : check = check' := Except.ok.inj (hnew.symm.trans hrun)
  have heq := (BigUint.assertEqCond_eq_ok hlen).mp hcheck hcond
  exact (equation_iff h.total).mp (hsides.mp heq)

theorem eq_of_constrain (h : f.Admitted n p) (hr : r.limbs.length ≤ n)
    (ha : a.limbs.length ≤ n + q.limbs.length) {check : PseudoMersenneModReduce}
    (hnew : PseudoMersenneModReduce.new a f.modulusPo2 f.modulusSubtrahend q r = .ok check)
    (hcheck : check.constrain = .ok ()) : a.value = q.value * p + r.value := by
  rw [h.po2] at hnew
  have hle := PseudoMersenneModReduce.le_of_new ha hnew
  obtain ⟨check',hrun,hlen,hsides⟩ := PseudoMersenneModReduce.new_ok h.subtrahend hr ha hle
  obtain rfl : check = check' := Except.ok.inj (hnew.symm.trans hrun)
  exact (equation_iff h.total).mp (hsides.mp ((BigUint.assertEq_eq_ok hlen).mp hcheck))

theorem check_ok (h : f.Admitted n p) (hr : r.limbs.length ≤ n)
    (ha : a.limbs.length ≤ n + q.limbs.length) {cond : Word}
    (hle : a.value / (2 ^ 64) ^ n ≤ q.value)
    (heq : isMsbTrue cond = true → a.value = q.value * p + r.value) :
    ∃ check, PseudoMersenneModReduce.new a f.modulusPo2 f.modulusSubtrahend q r = .ok check ∧
      check.constrainCond cond = .ok () := by
  obtain ⟨check,hrun,hlen,hsides⟩ := PseudoMersenneModReduce.new_ok h.subtrahend hr ha hle
  rw [←h.po2] at hrun
  refine ⟨check,hrun,(BigUint.assertEqCond_eq_ok hlen).mpr fun hcond => ?_⟩
  exact hsides.mpr ((equation_iff h.total).mpr (heq hcond))

theorem constrain_ok (h : f.Admitted n p) (hr : r.limbs.length ≤ n)
    (ha : a.limbs.length ≤ n + q.limbs.length) (heq : a.value = q.value * p + r.value) :
    ∃ check, PseudoMersenneModReduce.new a f.modulusPo2 f.modulusSubtrahend q r = .ok check ∧
      check.constrain = .ok () := by
  have hrlt := r.value_lt
  have hmono := Nat.pow_le_pow_right (show 0 < 2 ^ 64 by decide) hr
  obtain ⟨check,hrun,hlen,hsides⟩ := PseudoMersenneModReduce.new_ok h.subtrahend hr ha
    (high_le h.total (by omega) heq)
  rw [←h.po2] at hrun
  exact ⟨check,hrun,(BigUint.assertEq_eq_ok hlen).mpr (hsides.mpr ((equation_iff h.total).mpr heq))⟩

theorem pad_same {b : BigUint} {m : ℕ} (hb : b.limbs.length = m) : b.padLimbsTo m 0 = b := by
  unfold BigUint.padLimbsTo
  rw [hb,Nat.sub_self,List.replicate_zero,List.append_nil]

variable {advice : Advice} {result : BigUint} {existsFlag : Word}

theorem reduceProduct_sound (h : f.Admitted n p) {product : BigUint}
    (hproduct : product.limbs.length = f.limbsLen + f.limbsLen)
    (hrun : f.reduceProduct advice product = .ok result) :
    f.Reduced result ∧ (result.value : ZMod p) = product.value := by
  have hfew := h.few
  have hlimbs := h.limbs
  unfold limbsLen at hproduct hlimbs
  obtain ⟨qs,rs,hcall,hqs,hrs,-⟩ := BigUintDivideHint.call_ok advice product.limbs f.modulus.limbs
    (by unfold maxHintField; omega)
  have hpad : (BigUint.mk rs).padLimbsTo f.limbsLen 0 = ⟨rs⟩ := pad_same hrs
  obtain ⟨lt,hlt,hcompare⟩ := biguintLt_ok (a := ⟨rs⟩) (b := f.modulus) hrs
  unfold reduceProduct at hrun
  rw [hcall,ok_bind] at hrun
  dsimp only at hrun
  rw [hpad,hlt,ok_bind] at hrun
  obtain ⟨_,hassert,hrun⟩ := bind_eq_ok.mp hrun
  obtain ⟨check,hnew,hrun⟩ := bind_eq_ok.mp hrun
  obtain ⟨_,hcheck,hreturn⟩ := bind_eq_ok.mp hrun
  rw [pure_eq_ok] at hreturn
  subst hreturn
  have hbelow := hcompare.mp (assertTrue_eq_ok.mp hassert)
  have heq := eq_of_constrain h (q := ⟨qs⟩) (show rs.length ≤ n by omega)
    (show product.limbs.length ≤ n + qs.length by omega) hnew hcheck
  refine ⟨⟨hrs,hbelow⟩,?_⟩
  rw [heq,Nat.cast_add,Nat.cast_mul,ZMod.natCast_self,mul_zero,zero_add]

theorem reduceProduct_complete (h : f.Admitted n p) (hp : 0 < p)
    (hadvice : advice.Follows BigUintDivideHint.execute) {product : BigUint}
    (hproduct : product.limbs.length = f.limbsLen + f.limbsLen) :
    ∃ result, f.reduceProduct advice product = .ok result := by
  have hfew := h.few
  have hlimbs := h.limbs
  have hmodulus := h.modulus
  unfold limbsLen at hproduct hlimbs
  obtain ⟨qs,rs,hcall,hqs,hrs,hhonest⟩ := BigUintDivideHint.call_ok advice product.limbs f.modulus.limbs
    (by unfold maxHintField; omega)
  obtain ⟨hquotient,hremainder⟩ := hhonest hadvice
  have hdivision : BigUintDivideHint.quotientRemainder (limbValue product.limbs)
      (limbValue f.modulus.limbs) = (product.value / p,product.value % p) := by
    unfold BigUintDivideHint.quotientRemainder
    rw [show limbValue f.modulus.limbs = p from hmodulus,if_pos (Nat.ne_of_gt hp)]
    rfl
  rw [hdivision] at hquotient hremainder
  have hrem : product.value % p < p := Nat.mod_lt _ hp
  have hq : (BigUint.mk qs).value = product.value / p := by
    unfold BigUint.value
    rw [hquotient]
    exact limbValue_fitLimbs ((Nat.div_le_self _ _).trans_lt product.value_lt)
  have hr : (BigUint.mk rs).value = product.value % p := by
    unfold BigUint.value
    rw [hremainder]
    exact limbValue_fitLimbs (hrem.trans (hmodulus ▸ f.modulus.value_lt))
  have hpad : (BigUint.mk rs).padLimbsTo f.limbsLen 0 = ⟨rs⟩ := pad_same hrs
  obtain ⟨lt,hlt,hcompare⟩ := biguintLt_ok (a := ⟨rs⟩) (b := f.modulus) hrs
  obtain ⟨check,hnew,hcheck⟩ := constrain_ok h (a := product) (q := ⟨qs⟩) (r := ⟨rs⟩)
    (show rs.length ≤ n by omega) (show product.limbs.length ≤ n + qs.length by omega)
    (by rw [hq,hr,Nat.mul_comm,Nat.div_add_mod])
  refine ⟨⟨rs⟩,?_⟩
  unfold reduceProduct
  rw [hcall,ok_bind]
  dsimp only
  rw [hpad,hlt,ok_bind,assertTrue_eq_ok.mpr (hcompare.mpr (by rw [hr,hmodulus]; exact hrem)),ok_bind,
    hnew,ok_bind,hcheck]
  rfl

theorem mul_sound (h : f.Admitted n p) {y : BigUint} (hx : f.Reduced x)
    (hy : f.Reduced y) (hrun : f.mul advice x y = .ok result) :
    f.Reduced result ∧ (result.value : ZMod p) = x.value * y.value := by
  obtain ⟨product,hmul,hlen,hvalue⟩ := textbookMul_ok x y
  rw [hx.length,hy.length] at hlen
  unfold mul at hrun
  rw [ensure_ok ⟨hx.length,hy.length⟩,ok_bind,hmul,ok_bind] at hrun
  have hsound := reduceProduct_sound h hlen hrun
  rw [hvalue,Nat.cast_mul] at hsound
  exact hsound

theorem mul_complete (h : f.Admitted n p) (hp : 0 < p)
    (hadvice : advice.Follows BigUintDivideHint.execute) {y : BigUint} (hx : f.Reduced x)
    (hy : f.Reduced y) : ∃ result, f.mul advice x y = .ok result := by
  obtain ⟨product,hmul,hlen,-⟩ := textbookMul_ok x y
  rw [hx.length,hy.length] at hlen
  obtain ⟨result,hrun⟩ := reduceProduct_complete h hp hadvice hlen
  refine ⟨result,?_⟩
  unfold mul
  rw [ensure_ok ⟨hx.length,hy.length⟩,ok_bind,hmul,ok_bind,hrun]

theorem square_eq_mul (advice : Advice) (hx : f.Reduced x) :
    f.square advice x = f.mul advice x x := by
  unfold square mul
  rw [ensure_ok hx.length,ensure_ok ⟨hx.length,hx.length⟩,textbookSquare_eq]

theorem one_padded (hlen : 0 < f.limbsLen) :
    ((BigUint.newConstant 1).padLimbsTo f.limbsLen 0).limbs.length = f.limbsLen ∧
    ((BigUint.newConstant 1).padLimbsTo f.limbsLen 0).value = 1 := by
  have hone : (BigUint.newConstant 1).limbs.length ≤ 1 := length_u64Digits_le (by decide)
  rw [BigUint.length_padLimbsTo,BigUint.value_padLimbsTo,value_newConstant]
  exact ⟨by omega,rfl⟩

theorem limbsLen_pos (h : f.Admitted n p) (hp : 0 < p) : 0 < f.limbsLen := by
  have hlt := f.modulus.value_lt
  rw [h.modulus] at hlt
  by_contra hnone
  have hzero : f.modulus.limbs.length = 0 := Nat.eq_zero_of_not_pos hnone
  rw [hzero,pow_zero] at hlt
  omega

theorem inverse_sound (h : f.Admitted n p) (hp : 0 < p)
    (hx : f.Reduced x) (hrun : f.inverse advice x existsFlag = .ok result) :
    f.Reduced result ∧
    (isMsbTrue existsFlag = true → (result.value : ZMod p) * x.value = 1) := by
  have hfew := h.few
  have hlimbs := h.limbs
  have hxlen := hx.length
  obtain ⟨honelen,hone⟩ := one_padded (limbsLen_pos h hp)
  unfold limbsLen at hlimbs hxlen
  obtain ⟨qs,is,hcall,hqs,his,-⟩ := ModInverseHint.call_ok ModularInverse.search advice x.limbs
    f.modulus.limbs (by unfold maxHintField; omega)
  have hpad : (BigUint.mk is).padLimbsTo f.limbsLen 0 = ⟨is⟩ := pad_same his
  obtain ⟨product,hmul,hlen,hvalue⟩ := textbookMul_ok ⟨is⟩ x
  obtain ⟨lt,hlt,hcompare⟩ := biguintLt_ok (a := ⟨is⟩) (b := f.modulus) his
  unfold inverse at hrun
  rw [ensure_ok hx.length,ok_bind,hcall,ok_bind] at hrun
  dsimp only at hrun
  rw [hpad,hmul,ok_bind,hlt,ok_bind] at hrun
  obtain ⟨_,hassert,hrun⟩ := bind_eq_ok.mp hrun
  obtain ⟨check,hnew,hrun⟩ := bind_eq_ok.mp hrun
  obtain ⟨_,hcheck,hreturn⟩ := bind_eq_ok.mp hrun
  rw [pure_eq_ok] at hreturn
  subst hreturn
  refine ⟨⟨his,hcompare.mp (assertTrue_eq_ok.mp hassert)⟩,fun hexists => ?_⟩
  have heq := eq_of_check h (q := ⟨qs⟩) (honelen.trans_le h.limbs)
    (show product.limbs.length ≤ n + qs.length by rw [hlen]; dsimp only; omega) hnew hcheck hexists
  rw [hvalue,hone] at heq
  rw [←Nat.cast_mul,heq,Nat.cast_add,Nat.cast_mul,ZMod.natCast_self,mul_zero,zero_add,Nat.cast_one]

variable (num : ModularInverse)

theorem inverse_complete (h : f.Admitted n p) (hp : p.Prime)
    (hadvice : advice.Follows (ModInverseHint.execute num))
    (hx : f.Reduced x) (hexists : isMsbTrue existsFlag = true → x.value ≠ 0) :
    ∃ result, f.inverse advice x existsFlag = .ok result := by
  have hfew := h.few
  have hlimbs := h.limbs
  have hmodulus := h.modulus
  have hxlen := hx.length
  have hxlt := hx.lt
  have hplt := f.modulus.value_lt
  obtain ⟨honelen,hone⟩ := one_padded (limbsLen_pos h hp.pos)
  unfold limbsLen at hlimbs hxlen
  rw [hmodulus] at hxlt hplt
  obtain ⟨qs,is,hcall,hqs,his,hhonest⟩ := ModInverseHint.call_ok num advice x.limbs f.modulus.limbs
    (by unfold maxHintField; omega)
  obtain ⟨hqlt,hilt,hzero,hunit⟩ := ModInverseHint.quotientInverse_spec num hp hxlt
  have hsame : ModInverseHint.quotientInverse num (limbValue x.limbs) (limbValue f.modulus.limbs) =
      ModInverseHint.quotientInverse num x.value p := by
    rw [show limbValue f.modulus.limbs = p from hmodulus]
    rfl
  rw [hsame] at hhonest
  obtain ⟨hquotient,hinverse⟩ := hhonest hadvice (hqlt.trans hplt) (hilt.trans hplt)
  have hq : (BigUint.mk qs).value = (ModInverseHint.quotientInverse num x.value p).1 := by
    unfold BigUint.value
    rw [hquotient]
    exact limbValue_fitLimbs (hqlt.trans hplt)
  have hi : (BigUint.mk is).value = (ModInverseHint.quotientInverse num x.value p).2 := by
    unfold BigUint.value
    rw [hinverse]
    exact limbValue_fitLimbs (hilt.trans hplt)
  have hpad : (BigUint.mk is).padLimbsTo f.limbsLen 0 = ⟨is⟩ := pad_same his
  obtain ⟨product,hmul,hlen,hvalue⟩ := textbookMul_ok ⟨is⟩ x
  obtain ⟨lt,hlt,hcompare⟩ := biguintLt_ok (a := ⟨is⟩) (b := f.modulus) his
  have hbelow : (BigUint.mk is).value < f.modulus.value := by
    rw [hi,hmodulus]
    exact hilt
  have hle : product.value / (2 ^ 64) ^ n ≤ (BigUint.mk qs).value := by
    by_cases hx0 : x.value = 0
    · rw [hvalue,hx0,Nat.mul_zero,Nat.zero_div]
      exact Nat.zero_le _
    · apply high_le h.total (r := 1) (by have htotal := h.total; have htwo := hp.two_le; omega)
      rw [hvalue,hi,hq,hunit hx0]
  have heq : isMsbTrue existsFlag = true → product.value = (BigUint.mk qs).value * p +
      ((BigUint.newConstant 1).padLimbsTo f.limbsLen 0).value := by
    intro hflag
    rw [hvalue,hi,hq,hone,hunit (hexists hflag)]
  obtain ⟨check,hnew,hcheck⟩ := check_ok h (honelen.trans_le h.limbs)
    (show product.limbs.length ≤ n + qs.length by rw [hlen]; dsimp only; omega) hle heq
  refine ⟨⟨is⟩,?_⟩
  unfold inverse
  rw [ensure_ok hx.length,ok_bind,hcall,ok_bind]
  dsimp only
  rw [hpad,hmul,ok_bind,hlt,ok_bind,assertTrue_eq_ok.mpr (hcompare.mpr hbelow),ok_bind,hnew,ok_bind,
    hcheck]
  rfl

theorem div_sound (h : f.Admitted n p) {y : BigUint}
    (hx : f.Reduced x) (hy : f.Reduced y) (hrun : f.div advice x y existsFlag = .ok result) :
    f.Reduced result ∧
    (isMsbTrue existsFlag = true → (result.value : ZMod p) * y.value = x.value) := by
  have hfew := h.few
  have hlimbs := h.limbs
  have hxlen := hx.length
  have hylen := hy.length
  unfold limbsLen at hlimbs hxlen hylen
  obtain ⟨qs,ss,hcall,hqs,hss,-⟩ := ModDivideHint.call_ok ModularInverse.search advice x.limbs
    y.limbs f.modulus.limbs (by unfold maxHintField; omega)
  have hpad : (BigUint.mk ss).padLimbsTo f.limbsLen 0 = ⟨ss⟩ := pad_same hss
  obtain ⟨product,hmul,hlen,hvalue⟩ := textbookMul_ok ⟨ss⟩ y
  obtain ⟨lt,hlt,hcompare⟩ := biguintLt_ok (a := ⟨ss⟩) (b := f.modulus) hss
  unfold div at hrun
  rw [ensure_ok ⟨hx.length,hy.length⟩,ok_bind,hcall,ok_bind] at hrun
  dsimp only at hrun
  rw [hpad,hmul,ok_bind,hlt,ok_bind] at hrun
  obtain ⟨_,hassert,hrun⟩ := bind_eq_ok.mp hrun
  obtain ⟨check,hnew,hrun⟩ := bind_eq_ok.mp hrun
  obtain ⟨_,hcheck,hreturn⟩ := bind_eq_ok.mp hrun
  rw [pure_eq_ok] at hreturn
  subst hreturn
  refine ⟨⟨hss,hcompare.mp (assertTrue_eq_ok.mp hassert)⟩,fun hexists => ?_⟩
  have heq := eq_of_check h (q := ⟨qs⟩) (hx.length.trans_le h.limbs)
    (show product.limbs.length ≤ n + qs.length by rw [hlen]; dsimp only; omega) hnew hcheck hexists
  rw [hvalue] at heq
  rw [←Nat.cast_mul,heq,Nat.cast_add,Nat.cast_mul,ZMod.natCast_self,mul_zero,zero_add]

theorem div_complete (h : f.Admitted n p) (hp : p.Prime)
    (hadvice : advice.Follows (ModDivideHint.execute num)) {y : BigUint}
    (hx : f.Reduced x) (hy : f.Reduced y) (hexists : isMsbTrue existsFlag = true → y.value ≠ 0) :
    ∃ result, f.div advice x y existsFlag = .ok result := by
  have hfew := h.few
  have hlimbs := h.limbs
  have hmodulus := h.modulus
  have hxlen := hx.length
  have hylen := hy.length
  have hxlt := hx.lt
  have hylt := hy.lt
  have hplt := f.modulus.value_lt
  have hxK := x.value_lt
  unfold limbsLen at hlimbs hxlen hylen
  rw [hmodulus] at hxlt hylt hplt
  obtain ⟨qs,ss,hcall,hqs,hss,hhonest⟩ := ModDivideHint.call_ok num advice x.limbs y.limbs
    f.modulus.limbs (by unfold maxHintField; omega)
  obtain ⟨hqlt,hslt,hzero,hunit⟩ := ModDivideHint.quotientSlope_spec num hp hxlt hylt
  have hsame : ModDivideHint.quotientSlope num (limbValue x.limbs) (limbValue y.limbs)
      (limbValue f.modulus.limbs) = ModDivideHint.quotientSlope num x.value y.value p := by
    rw [show limbValue f.modulus.limbs = p from hmodulus]
    rfl
  rw [hsame] at hhonest
  obtain ⟨hquotient,hslope⟩ := hhonest hadvice
  have hq : (BigUint.mk qs).value = (ModDivideHint.quotientSlope num x.value y.value p).1 := by
    unfold BigUint.value
    rw [hquotient]
    exact limbValue_fitLimbs (hqlt.trans hplt)
  have hs : (BigUint.mk ss).value = (ModDivideHint.quotientSlope num x.value y.value p).2 := by
    unfold BigUint.value
    rw [hslope]
    exact limbValue_fitLimbs (hslt.trans hplt)
  have hpad : (BigUint.mk ss).padLimbsTo f.limbsLen 0 = ⟨ss⟩ := pad_same hss
  obtain ⟨product,hmul,hlen,hvalue⟩ := textbookMul_ok ⟨ss⟩ y
  obtain ⟨lt,hlt,hcompare⟩ := biguintLt_ok (a := ⟨ss⟩) (b := f.modulus) hss
  have hbelow : (BigUint.mk ss).value < f.modulus.value := by
    rw [hs,hmodulus]
    exact hslt
  have hle : product.value / (2 ^ 64) ^ n ≤ (BigUint.mk qs).value := by
    by_cases hy0 : y.value = 0
    · rw [hvalue,hy0,Nat.mul_zero,Nat.zero_div]
      exact Nat.zero_le _
    · apply high_le h.total (r := x.value) (by have htotal := h.total; omega)
      rw [hvalue,hs,hq,hunit hy0]
  have heq : isMsbTrue existsFlag = true →
      product.value = (BigUint.mk qs).value * p + x.value := by
    intro hflag
    rw [hvalue,hs,hq,hunit (hexists hflag)]
  obtain ⟨check,hnew,hcheck⟩ := check_ok h (hx.length.trans_le h.limbs)
    (show product.limbs.length ≤ n + qs.length by rw [hlen]; dsimp only; omega) hle heq
  refine ⟨⟨ss⟩,?_⟩
  unfold div
  rw [ensure_ok ⟨hx.length,hy.length⟩,ok_bind,hcall,ok_bind]
  dsimp only
  rw [hpad,hmul,ok_bind,hlt,ok_bind,assertTrue_eq_ok.mpr (hcompare.mpr hbelow),ok_bind,hnew,ok_bind,
    hcheck]
  rfl

end Admitted

/-- For every prime `2 ^ k - c` with `k` a multiple of 64 that the constructor builds and all
reduced operands: whatever words the hints are given, a run of a gadget that meets its constraints
returns the reduced field element, for an inverse or a quotient when it is flagged to exist; under
honest advice every constraint is met, as long as an inverse of zero or a division by zero is not
flagged to exist. -/
theorem gadgets_exact {k c p : ℕ} {limbs : List Word} (hp : p.Prime) (hk : 64 ∣ k)
    (hlimbs : limbValue limbs = c) (hc : 0 < c ∧ c < 2 ^ k) (hpk : p = 2 ^ k - c)
    (hnew : new k limbs = .ok f) (hadmits : f.modulus.value = p) {x y : BigUint}
    (hx : f.Reduced x) (hy : f.Reduced y) (existsFlag : Word) :
    (∃ r, f.add x y = .ok r ∧ f.Reduced r ∧ (r.value : ZMod p) = x.value + y.value) ∧
    (∃ r, f.sub x y = .ok r ∧ f.Reduced r ∧ (r.value : ZMod p) = x.value - y.value) ∧
    (∀ advice r, f.mul advice x y = .ok r →
      f.Reduced r ∧ (r.value : ZMod p) = x.value * y.value) ∧
    (∀ advice r, f.square advice x = .ok r →
      f.Reduced r ∧ (r.value : ZMod p) = x.value * x.value) ∧
    (∀ advice r, f.inverse advice x existsFlag = .ok r →
      f.Reduced r ∧ (isMsbTrue existsFlag = true →
        (r.value : ZMod p) * x.value = 1 ∧ (r.value : ZMod p) = (x.value : ZMod p)⁻¹)) ∧
    (∀ advice r, f.div advice x y existsFlag = .ok r →
      f.Reduced r ∧ (isMsbTrue existsFlag = true →
        (r.value : ZMod p) * y.value = x.value ∧
        (y.value ≠ 0 → (r.value : ZMod p) = x.value * (y.value : ZMod p)⁻¹))) ∧
    (∀ advice : Advice, advice.Follows BigUintDivideHint.execute →
      (∃ r, f.mul advice x y = .ok r) ∧ ∃ r, f.square advice x = .ok r) ∧
    (∀ (num : ModularInverse) (advice : Advice), advice.Follows (ModInverseHint.execute num) →
      (isMsbTrue existsFlag = true → x.value ≠ 0) →
        ∃ r, f.inverse advice x existsFlag = .ok r) ∧
    (∀ (num : ModularInverse) (advice : Advice), advice.Follows (ModDivideHint.execute num) →
      (isMsbTrue existsFlag = true → y.value ≠ 0) →
        ∃ r, f.div advice x y existsFlag = .ok r) := by
  have : Fact p.Prime := ⟨hp⟩
  have h := admitted_of_new hnew hk hlimbs hc hpk hadmits
  refine ⟨add_exact h hx hy,sub_exact h hx hy,?_,?_,?_,?_,?_,?_,?_⟩
  · intro advice r hrun
    exact mul_sound h hx hy hrun
  · intro advice r hrun
    rw [square_eq_mul advice hx] at hrun
    exact mul_sound h hx hx hrun
  · intro advice r hrun
    obtain ⟨hreduced,hvalue⟩ := inverse_sound h hp.pos hx hrun
    exact ⟨hreduced,fun hflag => ⟨hvalue hflag,eq_inv_of_mul_eq_one_left (hvalue hflag)⟩⟩
  · intro advice r hrun
    obtain ⟨hreduced,hvalue⟩ := div_sound h hx hy hrun
    refine ⟨hreduced,fun hflag => ⟨hvalue hflag,fun hne => ?_⟩⟩
    -- a reduced divisor that is not zero is a unit
    have hunit : (y.value : ZMod p) ≠ 0 := by
      rw [Ne,ZMod.natCast_eq_zero_iff]
      intro hdvd
      have hle := Nat.le_of_dvd (Nat.pos_of_ne_zero hne) hdvd
      have hlt := hy.lt
      omega
    rw [←hvalue hflag,mul_assoc,mul_inv_cancel₀ hunit,mul_one]
  · intro advice hadvice
    refine ⟨mul_complete h hp.pos hadvice hx hy,?_⟩
    rw [square_eq_mul advice hx]
    exact mul_complete h hp.pos hadvice hx hx
  · intro num advice hadvice hexists
    exact inverse_complete num h hp hadvice hx hexists
  · intro num advice hadvice hexists
    exact div_complete num h hp hadvice hx hy hexists

/-- Two divided by one modulo three, in one limb, under honest advice. -/
theorem gadgets_exact_three :
    ∃ f, new 64 [18446744073709551613] = .ok f ∧ ∃ x y, f.Reduced x ∧ f.Reduced y ∧
      ∃ r, f.div (Advice.honest (ModDivideHint.execute ModularInverse.search)) x y
        MachineWord.allOne = .ok r := by
  have hlimbs : limbValue [(18446744073709551613 : Word)] = 18446744073709551613 := by decide
  have hnew : new 64 [18446744073709551613] =
      .ok ⟨BigUint.newConstant 3,64,BigUint.newConstant 18446744073709551613⟩ := by
    unfold new
    rw [hlimbs]
    dsimp only
    rw [ensure_ok (by decide)]
    rfl
  have hlen : limbsLen ⟨BigUint.newConstant 3,64,BigUint.newConstant 18446744073709551613⟩ = 1 := by
    unfold limbsLen BigUint.newConstant u64Digits
    rw [Nat.digits_of_lt _ 3 (by decide) (by decide)]
    rfl
  have hreduced : ∀ w : Word, w.toNat < 3 →
      Reduced ⟨BigUint.newConstant 3,64,BigUint.newConstant 18446744073709551613⟩ ⟨[w]⟩ := by
    intro w hw
    refine ⟨hlen.symm,?_⟩
    dsimp only
    rw [value_newConstant,BigUint.value,limbValue_cons,limbValue_nil]
    omega
  refine ⟨_,hnew,⟨[2]⟩,⟨[1]⟩,hreduced 2 (by decide),hreduced 1 (by decide),?_⟩
  exact (gadgets_exact Nat.prime_three ⟨1,rfl⟩ hlimbs ⟨by decide,by decide⟩ (by decide) hnew
    (value_newConstant 3) (hreduced 2 (by decide)) (hreduced 1 (by decide))
    MachineWord.allOne).2.2.2.2.2.2.2.2 ModularInverse.search _ (Advice.honest_follows _)
    fun _ => by decide

end PseudoMersennePrimeField

end Binius64.Bignum
