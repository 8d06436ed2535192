import Binius64.BignumProducts
import Mathlib.Data.List.GetD
import Mathlib.Data.Nat.Prime.Basic

/-!
# Modular reduction of big integers

The comparison of limb vectors, their limb-wise equality assertions, and the check that a dividend
is a quotient times `2 ^ k - c` plus a remainder, made without a product by the modulus.
-/

namespace Binius64.Bignum

open MachineWord (Word isMsbTrue isMsbTrue_eq)
open WordGates LimbVectors CheckedRun List

/-- The comparison from the lowest limb on: a higher limb overrules the result of the lower ones. -/
def ltLimbs : List Word → List Word → Word → Word
  | a::as, b::bs, result => ltLimbs as bs (bxor (icmpUlt a b) (band (icmpEq a b) result))
  | _, _, result => result

/-- Less-than of vectors of one length. -/
def biguintLt (a b : BigUint) : Gadget Word := do
  ensure (a.limbs.length = b.limbs.length) "biguint_lt: inputs must have the same number of limbs"
  return ltLimbs a.limbs b.limbs 0

theorem isMsbTrue_bxor (x y : Word) : isMsbTrue (bxor x y) = (isMsbTrue x ^^ isMsbTrue y) := by
  simp only [isMsbTrue_eq,bxor,BitVec.getLsbD_xor]

theorem isMsbTrue_ltLimbs {as bs : List Word} (h : as.length = bs.length) (result : Word) :
    isMsbTrue (ltLimbs as bs result) = true ↔
      limbValue as < limbValue bs ∨ limbValue as = limbValue bs ∧ isMsbTrue result = true := by
  induction as generalizing bs result with
  | nil =>
    rw [length_eq_zero_iff.mp h.symm]
    unfold ltLimbs
    simp
  | cons a as ih =>
    cases bs with
    | nil => cases h
    | cons b bs =>
      have ha := a.isLt
      have hb := b.isLt
      -- only one of the limb's two flags can be set
      have hflag : isMsbTrue (bxor (icmpUlt a b) (band (icmpEq a b) result)) = true ↔
          a.toNat < b.toNat ∨ a.toNat = b.toNat ∧ isMsbTrue result = true := by
        rw [isMsbTrue_bxor,isMsbTrue_band,isMsbTrue_icmpUlt,isMsbTrue_icmpEq]
        by_cases heq : a = b
        · subst heq
          simp
        · have hne : ¬a.toNat = b.toNat := fun hnat => heq (BitVec.eq_of_toNat_eq hnat)
          simp [heq,hne]
      unfold ltLimbs
      rw [ih (Nat.succ.inj h),hflag,limbValue_cons,limbValue_cons]
      cases isMsbTrue result with
      | true =>
        simp only [and_true]
        omega
      | false =>
        simp only [Bool.false_eq_true,and_false,or_false]
        omega

theorem biguintLt_ok {a b : BigUint} (h : a.limbs.length = b.limbs.length) :
    ∃ lt, biguintLt a b = .ok lt ∧ (isMsbTrue lt = true ↔ a.value < b.value) := by
  refine ⟨ltLimbs a.limbs b.limbs 0,?_,?_⟩
  · unfold biguintLt
    rw [ensure_ok h]
    rfl
  · have hfalse : isMsbTrue 0 = false := rfl
    rw [isMsbTrue_ltLimbs h,hfalse]
    unfold BigUint.value
    simp

def assertLimbs (baseName : String) (cond : Word) : ℕ → List Word → List Word → Gadget Unit
  | i, a::as, b::bs => do
    assertEqCond s!"{baseName}[{i}]" a b cond
    assertLimbs baseName cond (i + 1) as bs
  | _, _, _ => .ok ()

/-- Asserts that two integers of one length are equal. -/
def assertEqLimbs (baseName : String) : ℕ → List Word → List Word → Gadget Unit
  | i, a::as, b::bs => do
    assertEq s!"{baseName}[{i}]" a b
    assertEqLimbs baseName (i + 1) as bs
  | _, _, _ => .ok ()

namespace BigUint

/-- Asserts that two integers of one length are equal. -/
def assertEq (name : String) (a b : BigUint) : Gadget Unit := do
  ensure (a.limbs.length = b.limbs.length)
    "biguint assert_eq: inputs must have the same number of limbs"
  assertEqLimbs name 0 a.limbs b.limbs

/-- Asserts that two integers of one length are equal when the condition holds. -/
def assertEqCond (name : String) (a b : BigUint) (cond : Word) : Gadget Unit := do
  ensure (a.limbs.length = b.limbs.length)
    "biguint assert_eq_cond: inputs must have the same number of limbs"
  assertLimbs name cond 0 a.limbs b.limbs

end BigUint

theorem assertLimbs_eq_ok (baseName : String) (cond : Word) (i : ℕ) {as bs : List Word}
    (h : as.length = bs.length) :
    assertLimbs baseName cond i as bs = .ok () ↔ (isMsbTrue cond = true → as = bs) := by
  induction as generalizing i bs with
  | nil =>
    rw [length_eq_zero_iff.mp h.symm]
    exact ⟨fun _ _ => rfl,fun _ => rfl⟩
  | cons a as ih =>
    cases bs with
    | nil => cases h
    | cons b bs =>
      unfold assertLimbs
      rw [bind_eq_ok]
      constructor
      · rintro ⟨_,hhead,htail⟩ hcond
        rw [assertEqCond_eq_ok.mp hhead hcond,(ih (i + 1) (Nat.succ.inj h)).mp htail hcond]
      · intro heq
        refine ⟨(),assertEqCond_eq_ok.mpr fun hcond => (cons.inj (heq hcond)).1,?_⟩
        exact (ih (i + 1) (Nat.succ.inj h)).mpr fun hcond => (cons.inj (heq hcond)).2

theorem assertEqLimbs_eq_ok (baseName : String) (i : ℕ) {as bs : List Word}
    (h : as.length = bs.length) : assertEqLimbs baseName i as bs = .ok () ↔ as = bs := by
  induction as generalizing i bs with
  | nil =>
    rw [length_eq_zero_iff.mp h.symm]
    exact ⟨fun _ => rfl,fun _ => rfl⟩
  | cons a as ih =>
    cases bs with
    | nil => cases h
    | cons b bs =>
      unfold assertEqLimbs
      rw [bind_eq_ok,cons.injEq]
      constructor
      · rintro ⟨_,hhead,htail⟩
        exact ⟨assertEq_eq_ok.mp hhead,(ih (i + 1) (Nat.succ.inj h)).mp htail⟩
      · rintro ⟨hhead,htail⟩
        exact ⟨(),assertEq_eq_ok.mpr hhead,(ih (i + 1) (Nat.succ.inj h)).mpr htail⟩

namespace BigUint

theorem value_inj {a b : BigUint} (h : a.limbs.length = b.limbs.length) :
    a.limbs = b.limbs ↔ a.value = b.value :=
  ⟨fun hlimbs => congrArg limbValue hlimbs,limbValue_inj h⟩

theorem assertEq_eq_ok {name : String} {a b : BigUint} (h : a.limbs.length = b.limbs.length) :
    BigUint.assertEq name a b = .ok () ↔ a.value = b.value := by
  unfold BigUint.assertEq
  rw [ensure_ok h,ok_bind,assertEqLimbs_eq_ok name 0 h,value_inj h]

theorem assertEqCond_eq_ok {name : String} {a b : BigUint} {cond : Word}
    (h : a.limbs.length = b.limbs.length) :
    BigUint.assertEqCond name a b cond = .ok () ↔ (isMsbTrue cond = true → a.value = b.value) := by
  unfold BigUint.assertEqCond
  rw [ensure_ok h,ok_bind,assertLimbs_eq_ok name cond 0 h,value_inj h]

end BigUint

/-- The limbs of a number without zeros at the top. -/
def u64Digits (n : ℕ) : List Word := (Nat.digits (2 ^ 64) n).map (BitVec.ofNat 64)

def BigUint.newConstant (n : ℕ) : BigUint := ⟨u64Digits n⟩

theorem limbValue_u64Digits (n : ℕ) : limbValue (u64Digits n) = n := by
  unfold limbValue u64Digits
  rw [map_map]
  have hsame : (Nat.digits (2 ^ 64) n).map (BitVec.toNat ∘ BitVec.ofNat 64) =
      Nat.digits (2 ^ 64) n := by
    refine (map_congr_left fun d hd => ?_).trans (map_id _)
    exact Nat.mod_eq_of_lt (Nat.digits_lt_base (by decide) hd)
  rw [hsame,Nat.ofDigits_digits]

theorem length_u64Digits_le {n m : ℕ} (h : n < (2 ^ 64) ^ m) : (u64Digits n).length ≤ m := by
  unfold u64Digits
  rw [length_map]
  exact (Nat.digits_length_le_iff (by decide) n).mpr h

@[simp] theorem value_newConstant (n : ℕ) : (BigUint.newConstant n).value = n :=
  limbValue_u64Digits n

/-- The limbs of a number on so many outputs: those past the end are dropped, missing ones are
zero. -/
def fitLimbs (m n : ℕ) : List Word :=
  (u64Digits n).take m ++ replicate (m - (u64Digits n).length) 0

@[simp] theorem length_fitLimbs (m n : ℕ) : (fitLimbs m n).length = m := by
  unfold fitLimbs
  rw [length_append,length_take,length_replicate]
  omega

theorem limbValue_fitLimbs {m n : ℕ} (h : n < (2 ^ 64) ^ m) : limbValue (fitLimbs m n) = n := by
  unfold fitLimbs
  rw [take_of_length_le (length_u64Digits_le h),limbValue_append,limbValue_replicate_zero,
    Nat.mul_zero,Nat.add_zero,limbValue_u64Digits]

/-- The words a prover puts on the outputs of a hint, by the dimensions and inputs it is called
with. -/
abbrev Advice := List ℕ → List Word → ℕ → Word

/-- The most a hint instruction can name. -/
def maxHintField : ℕ := 2 ^ 32 - 1

def callHint (advice : Advice) (nIn nOut : ℕ) (dimensions : List ℕ) (inputs : List Word) :
    Gadget (List Word) := do
  ensure (nIn ≤ maxHintField ∧ nOut ≤ maxHintField ∧ dimensions.length ≤ maxHintField ∧
    dimensions.all (· ≤ maxHintField)) "call_hint: shape the witness bytecode cannot encode"
  ensure (inputs.length = nIn) "call_hint: input arity mismatch"
  return (range nOut).map (advice dimensions inputs)

/-- The advice is what a computation returns wherever it returns. -/
def Advice.Follows (advice : Advice) (execute : List ℕ → List Word → Gadget (List Word)) : Prop :=
  ∀ dimensions inputs outputs, execute dimensions inputs = .ok outputs →
    (range outputs.length).map (advice dimensions inputs) = outputs

/-- The advice that is what a computation returns, and zero where it does not return. -/
def Advice.honest (execute : List ℕ → List Word → Gadget (List Word)) : Advice :=
  fun dimensions inputs i =>
    match execute dimensions inputs with
    | .ok outputs => outputs.getD i 0
    | .error _ => 0

theorem Advice.honest_follows (execute : List ℕ → List Word → Gadget (List Word)) :
    (Advice.honest execute).Follows execute := by
  intro dimensions inputs outputs hrun
  apply ext_getElem
  · rw [length_map,length_range]
  · intro i _ hi
    rw [getElem_map,getElem_range]
    unfold Advice.honest
    rw [hrun]
    exact getD_eq_getElem _ _ hi

theorem callHint_ok (advice : Advice) (nIn nOut : ℕ) (dimensions : List ℕ) (inputs : List Word)
    (hin : nIn ≤ maxHintField) (hout : nOut ≤ maxHintField)
    (hlen : dimensions.length ≤ maxHintField) (hall : ∀ d ∈ dimensions, d ≤ maxHintField)
    (harity : inputs.length = nIn) :
    ∃ outputs, callHint advice nIn nOut dimensions inputs = .ok outputs ∧
      outputs.length = nOut ∧
      ∀ execute honest, advice.Follows execute → execute dimensions inputs = .ok honest →
        honest.length = nOut → outputs = honest := by
  refine ⟨(range nOut).map (advice dimensions inputs),?_,?_,?_⟩
  · unfold callHint
    rw [ensure_ok ⟨hin,hout,hlen,all_eq_true.mpr fun d hd => decide_eq_true (hall d hd)⟩,
      ok_bind,ensure_ok harity]
    rfl
  · rw [length_map,length_range]
  · intro execute honest hfollows hrun hhonest
    rw [←hhonest]
    exact hfollows dimensions inputs honest hrun

namespace BigUintDivideHint

def quotientRemainder (dividend divisor : ℕ) : ℕ × ℕ :=
  if divisor ≠ 0 then (dividend / divisor,dividend % divisor) else (0,0)

/-- The limbs of quotient and remainder. -/
def execute (dimensions : List ℕ) (inputs : List Word) : Gadget (List Word) :=
  match dimensions with
  | [nDividend,nDivisor] =>
    let result := quotientRemainder (limbValue (inputs.take nDividend))
      (limbValue (inputs.drop nDividend))
    .ok (fitLimbs nDividend result.1 ++ fitLimbs nDivisor result.2)
  | _ => throw (.panic "BigUintDivide requires 2 dimensions")

/-- Calls the hint; returns the limbs of the quotient and of the remainder. -/
def call (advice : Advice) (dividend divisor : List Word) : Gadget (List Word × List Word) := do
  let out ← callHint advice (dividend.length + divisor.length) (dividend.length + divisor.length)
    [dividend.length,divisor.length] (dividend ++ divisor)
  return (out.take dividend.length,out.drop dividend.length)

theorem call_ok (advice : Advice) (dividend divisor : List Word)
    (hfew : dividend.length + divisor.length ≤ maxHintField) :
    ∃ quotient remainder, call advice dividend divisor = .ok (quotient,remainder) ∧
      quotient.length = dividend.length ∧ remainder.length = divisor.length ∧
      (advice.Follows execute →
        quotient = fitLimbs dividend.length
          (quotientRemainder (limbValue dividend) (limbValue divisor)).1 ∧
        remainder = fitLimbs divisor.length
          (quotientRemainder (limbValue dividend) (limbValue divisor)).2) := by
  obtain ⟨out,hcall,hlen,hhonest⟩ := callHint_ok advice (dividend.length + divisor.length)
    (dividend.length + divisor.length) [dividend.length,divisor.length] (dividend ++ divisor) hfew hfew
    (show 2 ≤ maxHintField by decide) (by simp; omega) length_append
  refine ⟨out.take dividend.length,out.drop dividend.length,?_,?_,?_,?_⟩
  · unfold call
    rw [hcall]
    rfl
  · rw [length_take]
    omega
  · rw [length_drop]
    omega
  · intro hfollows
    have hrun : execute [dividend.length,divisor.length] (dividend ++ divisor) =
        .ok (fitLimbs dividend.length
          (quotientRemainder (limbValue dividend) (limbValue divisor)).1 ++
          fitLimbs divisor.length
            (quotientRemainder (limbValue dividend) (limbValue divisor)).2) := by
      unfold execute
      dsimp only
      rw [take_left,drop_left]
    rw [hhonest execute _ hfollows hrun (by rw [length_append,length_fitLimbs,length_fitLimbs])]
    exact ⟨take_left' (length_fitLimbs _ _),drop_left' (length_fitLimbs _ _)⟩

end BigUintDivideHint

structure ModularInverse where
  modinv : ℕ → ℕ → Option ℕ
  modinv_coprime : ∀ a m, 1 < m → a.Coprime m → ∃ i, modinv a m = some i ∧ i < m ∧ a * i % m = 1
  modinv_none : ∀ a m, 1 < m → ¬a.Coprime m → modinv a m = none

def ModularInverse.search : ModularInverse where
  modinv a m := (range m).find? fun i => a * i % m = 1
  modinv_coprime a m hm h := by
    obtain ⟨i,hi,hinv⟩ := Nat.exists_mul_mod_eq_one_of_coprime h hm
    have hex : ((range m).find? fun i => decide (a * i % m = 1)).isSome := by
      rw [find?_isSome]
      exact ⟨i,mem_range.mpr hi,decide_eq_true hinv⟩
    obtain ⟨j,hj⟩ := Option.isSome_iff_exists.mp hex
    have hprop := find?_some hj
    exact ⟨j,hj,mem_range.mp (mem_of_find?_eq_some hj),of_decide_eq_true hprop⟩
  modinv_none a m hm h := by
    rw [find?_eq_none]
    intro i _ hinv
    apply h
    have hone : a * i ≡ 1 [MOD m] := by
      unfold Nat.ModEq
      rw [of_decide_eq_true hinv,Nat.mod_eq_of_lt hm]
    exact Nat.coprime_of_mul_modEq_one i hone

namespace ModInverseHint

variable (num : ModularInverse)

/-- The inverse of the base and the quotient of its product with the base; zeros for a base without
inverse. -/
def quotientInverse (base modulus : ℕ) : ℕ × ℕ :=
  match num.modinv base modulus with
  | some inverse => ((base * inverse - 1) / modulus,inverse)
  | none => (0,0)

/-- Puts the limbs of a number on outputs that must be enough for them. -/
def fillLimbs (m n : ℕ) : Gadget (List Word) := do
  ensure ((u64Digits n).length ≤ m) "index out of bounds"
  return fitLimbs m n

/-- The limbs of quotient and inverse. -/
def execute (dimensions : List ℕ) (inputs : List Word) : Gadget (List Word) :=
  match dimensions with
  | [nBase,nMod] => do
    let result := quotientInverse num (limbValue (inputs.take nBase))
      (limbValue (inputs.drop nBase))
    let quotientWords ← fillLimbs nMod result.1
    let inverseWords ← fillLimbs nMod result.2
    return quotientWords ++ inverseWords
  | _ => throw (.panic "ModInverse requires 2 dimensions")

/-- Calls the hint; returns the limbs of the quotient and of the inverse. -/
def call (advice : Advice) (base modulus : List Word) : Gadget (List Word × List Word) := do
  let out ← callHint advice (base.length + modulus.length) (2 * modulus.length)
    [base.length,modulus.length] (base ++ modulus)
  return (out.take modulus.length,out.drop modulus.length)

variable {num}

theorem fillLimbs_ok {m n : ℕ} (h : n < (2 ^ 64) ^ m) : fillLimbs m n = .ok (fitLimbs m n) := by
  unfold fillLimbs
  rw [ensure_ok (length_u64Digits_le h)]
  rfl

theorem call_ok (num : ModularInverse) (advice : Advice) (base modulus : List Word)
    (hfew : base.length + 2 * modulus.length ≤ maxHintField) :
    ∃ quotient inverse, call advice base modulus = .ok (quotient,inverse) ∧
      quotient.length = modulus.length ∧ inverse.length = modulus.length ∧
      (advice.Follows (execute num) →
        (quotientInverse num (limbValue base) (limbValue modulus)).1 <
          (2 ^ 64) ^ modulus.length →
        (quotientInverse num (limbValue base) (limbValue modulus)).2 <
          (2 ^ 64) ^ modulus.length →
        quotient = fitLimbs modulus.length
          (quotientInverse num (limbValue base) (limbValue modulus)).1 ∧
        inverse = fitLimbs modulus.length
          (quotientInverse num (limbValue base) (limbValue modulus)).2) := by
  obtain ⟨out,hcall,hlen,hhonest⟩ := callHint_ok advice (base.length + modulus.length)
    (2 * modulus.length) [base.length,modulus.length] (base ++ modulus) (by omega) (by omega)
    (show 2 ≤ maxHintField by decide) (by simp; omega) length_append
  refine ⟨out.take modulus.length,out.drop modulus.length,?_,?_,?_,?_⟩
  · unfold call
    rw [hcall]
    rfl
  · rw [length_take]
    omega
  · rw [length_drop]
    omega
  · intro hfollows hquotient hinverse
    have hrun : execute num [base.length,modulus.length] (base ++ modulus) =
        .ok (fitLimbs modulus.length
          (quotientInverse num (limbValue base) (limbValue modulus)).1 ++
          fitLimbs modulus.length
            (quotientInverse num (limbValue base) (limbValue modulus)).2) := by
      unfold execute
      dsimp only
      rw [take_left,drop_left,fillLimbs_ok hquotient,ok_bind,fillLimbs_ok hinverse]
      rfl
    rw [hhonest _ _ hfollows hrun (by
      rw [length_append,length_fitLimbs,length_fitLimbs]
      omega)]
    exact ⟨take_left' (length_fitLimbs _ _),drop_left' (length_fitLimbs _ _)⟩

theorem quotientInverse_spec (num : ModularInverse) {base p : ℕ} (hp : p.Prime) (hlt : base < p) :
    (quotientInverse num base p).1 < p ∧ (quotientInverse num base p).2 < p ∧
    (base = 0 → quotientInverse num base p = (0,0)) ∧
    (base ≠ 0 → (quotientInverse num base p).2 * base = (quotientInverse num base p).1 * p + 1) := by
  by_cases hzero : base = 0
  · have hnone : num.modinv base p = none := by
      apply num.modinv_none _ _ hp.one_lt
      rw [hzero,Nat.coprime_zero_left]
      exact hp.ne_one
    have hvalue : quotientInverse num base p = (0,0) := by
      unfold quotientInverse
      rw [hnone]
    rw [hvalue]
    exact ⟨hp.pos,hp.pos,fun _ => rfl,fun hne => absurd hzero hne⟩
  · have hcoprime := (Nat.coprime_of_lt_prime hzero hlt hp).symm
    obtain ⟨i,hsome,hi,hinv⟩ := num.modinv_coprime base p hp.one_lt hcoprime
    have hvalue : quotientInverse num base p = ((base * i - 1) / p,i) := by
      unfold quotientInverse
      rw [hsome]
    have hdivision := Nat.div_add_mod (base * i) p
    rw [hinv] at hdivision
    have hquotient : (base * i - 1) / p = base * i / p := by
      rw [←hdivision,Nat.add_sub_cancel,Nat.mul_div_cancel_left _ hp.pos,hdivision]
    have hsmall : base * i / p < p := Nat.div_lt_of_lt_mul (Nat.mul_lt_mul'' hlt hi)
    rw [hvalue,hquotient]
    dsimp only
    refine ⟨hsmall,hi,fun h => absurd h hzero,fun _ => ?_⟩
    rw [Nat.mul_comm i,Nat.mul_comm _ p]
    exact hdivision.symm

end ModInverseHint

namespace ModDivideHint

variable (num : ModularInverse)

/-- The quotient modulo the modulus and the quotient of its product with the divisor; zeros for a divisor
without inverse. -/
def quotientSlope (dividend divisor modulus : ℕ) : ℕ × ℕ :=
  match num.modinv divisor modulus with
  | some inverse =>
    let slope := dividend * inverse % modulus
    let numerator := slope * divisor
    (if numerator ≥ dividend then (numerator - dividend) / modulus else 0,slope)
  | none => (0,0)

/-- The limbs of quotient and slope. -/
def execute (dimensions : List ℕ) (inputs : List Word) : Gadget (List Word) :=
  match dimensions with
  | [nDividend,nDivisor,nMod] =>
    let result := quotientSlope num (limbValue (inputs.take nDividend))
      (limbValue ((inputs.drop nDividend).take nDivisor))
      (limbValue (inputs.drop (nDividend + nDivisor)))
    .ok (fitLimbs nMod result.1 ++ fitLimbs nMod result.2)
  | _ => throw (.panic "ModDivide requires 3 dimensions")

/-- Calls the hint; returns the limbs of the quotient and of the slope. -/
def call (advice : Advice) (dividend divisor modulus : List Word) :
    Gadget (List Word × List Word) := do
  let out ← callHint advice (dividend.length + divisor.length + modulus.length) (2 * modulus.length)
    [dividend.length,divisor.length,modulus.length] (dividend ++ divisor ++ modulus)
  return (out.take modulus.length,out.drop modulus.length)

theorem call_ok (advice : Advice) (dividend divisor modulus : List Word)
    (hfew : dividend.length + divisor.length + 2 * modulus.length ≤ maxHintField) :
    ∃ quotient slope, call advice dividend divisor modulus = .ok (quotient,slope) ∧
      quotient.length = modulus.length ∧ slope.length = modulus.length ∧
      (advice.Follows (execute num) →
        quotient = fitLimbs modulus.length
          (quotientSlope num (limbValue dividend) (limbValue divisor) (limbValue modulus)).1 ∧
        slope = fitLimbs modulus.length
          (quotientSlope num (limbValue dividend) (limbValue divisor) (limbValue modulus)).2) := by
  have hmodulus : (dividend ++ divisor ++ modulus).drop (dividend.length + divisor.length) =
      modulus := by rw [←length_append,drop_left]
  obtain ⟨out,hcall,hlen,hhonest⟩ := callHint_ok advice
    (dividend.length + divisor.length + modulus.length) (2 * modulus.length)
    [dividend.length,divisor.length,modulus.length] (dividend ++ divisor ++ modulus) (by omega)
    (by omega) (show 3 ≤ maxHintField by decide) (by simp; omega)
    (by rw [length_append,length_append])
  refine ⟨out.take modulus.length,out.drop modulus.length,?_,?_,?_,?_⟩
  · unfold call
    rw [hcall]
    rfl
  · rw [length_take]
    omega
  · rw [length_drop]
    omega
  · intro hfollows
    have hrun : execute num [dividend.length,divisor.length,modulus.length]
        (dividend ++ divisor ++ modulus) =
        .ok (fitLimbs modulus.length
          (quotientSlope num (limbValue dividend) (limbValue divisor) (limbValue modulus)).1 ++
          fitLimbs modulus.length
            (quotientSlope num (limbValue dividend) (limbValue divisor)
              (limbValue modulus)).2) := by
      unfold execute
      dsimp only
      rw [hmodulus,append_assoc,take_left,drop_left,take_left]
    rw [hhonest _ _ hfollows hrun (by
      rw [length_append,length_fitLimbs,length_fitLimbs]
      omega)]
    exact ⟨take_left' (length_fitLimbs _ _),drop_left' (length_fitLimbs _ _)⟩

theorem quotientSlope_spec {dividend divisor p : ℕ} (hp : p.Prime) (hdividend : dividend < p)
    (hdivisor : divisor < p) :
    (quotientSlope num dividend divisor p).1 < p ∧ (quotientSlope num dividend divisor p).2 < p ∧
    (divisor = 0 → quotientSlope num dividend divisor p = (0,0)) ∧
    (divisor ≠ 0 → (quotientSlope num dividend divisor p).2 * divisor =
      (quotientSlope num dividend divisor p).1 * p + dividend) := by
  by_cases hzero : divisor = 0
  · have hnone : num.modinv divisor p = none := by
      apply num.modinv_none _ _ hp.one_lt
      rw [hzero,Nat.coprime_zero_left]
      exact hp.ne_one
    have hvalue : quotientSlope num dividend divisor p = (0,0) := by
      unfold quotientSlope
      rw [hnone]
    rw [hvalue]
    exact ⟨hp.pos,hp.pos,fun _ => rfl,fun hne => absurd hzero hne⟩
  · have hcoprime := (Nat.coprime_of_lt_prime hzero hdivisor hp).symm
    obtain ⟨i,hsome,hi,hinv⟩ := num.modinv_coprime divisor p hp.one_lt hcoprime
    obtain ⟨slope,hslope⟩ : ∃ slope, slope = dividend * i % p := ⟨_,rfl⟩
    have hslopelt : slope < p := hslope ▸ Nat.mod_lt _ hp.pos
    -- the product with the divisor leaves the dividend
    have hmod : slope * divisor % p = dividend := by
      have hstep : slope * divisor ≡ dividend * i * divisor [MOD p] := by
        rw [hslope]
        exact (Nat.mod_modEq _ _).mul_right _
      have hone : divisor * i ≡ 1 [MOD p] := by
        unfold Nat.ModEq
        rw [hinv,Nat.mod_eq_of_lt hp.one_lt]
      have hwhole : dividend * i * divisor ≡ dividend * 1 [MOD p] := by
        rw [Nat.mul_assoc,Nat.mul_comm i]
        exact hone.mul_left _
      have htotal := hstep.trans hwhole
      unfold Nat.ModEq at htotal
      rw [htotal,Nat.mul_one,Nat.mod_eq_of_lt hdividend]
    have hdivision := Nat.div_add_mod (slope * divisor) p
    rw [hmod] at hdivision
    have hge : slope * divisor ≥ dividend := by
      rw [←hdivision]
      exact Nat.le_add_left _ _
    have hquotient : (slope * divisor - dividend) / p = slope * divisor / p := by
      rw [←hdivision,Nat.add_sub_cancel,Nat.mul_div_cancel_left _ hp.pos,hdivision]
    have hvalue : quotientSlope num dividend divisor p = (slope * divisor / p,slope) := by
      unfold quotientSlope
      rw [hsome]
      dsimp only
      rw [←hslope,if_pos hge,hquotient]
    have hsmall : slope * divisor / p < p := Nat.div_lt_of_lt_mul (Nat.mul_lt_mul'' hslopelt hdivisor)
    rw [hvalue]
    dsimp only
    refine ⟨hsmall,hslopelt,fun h => absurd h hzero,fun _ => ?_⟩
    rw [Nat.mul_comm _ p]
    exact hdivision.symm

end ModDivideHint

structure PseudoMersenneModReduce where
  /-- The low part of the dividend plus the quotient times the subtrahend. -/
  lhs : BigUint
  /-- The remainder plus the rest of the quotient at the power of two. -/
  rhs : BigUint
deriving DecidableEq

namespace PseudoMersenneModReduce

def new (a : BigUint) (modulusPo2 : ℕ) (modulusSubtrahend quotient remainder : BigUint) :
    Gadget PseudoMersenneModReduce := do
  ensure (64 ∣ modulusPo2) "modulus_po2.is_multiple_of(Word::BITS)"
  ensure (modulusSubtrahend.limbs.length * 64 ≤ modulusPo2)
    "modulus_subtrahend.limbs.len() * Word::BITS <= modulus_po2"
  ensure (remainder.limbs.length * 64 ≤ modulusPo2)
    "remainder.limbs.len() * Word::BITS <= modulus_po2"
  let nLoLimbs := modulusPo2 / 64
  let aParts ← (a.padLimbsTo nLoLimbs 0).splitAtLimbs nLoLimbs
  let rhsHi ← sub quotient (aParts.2.padLimbsTo quotient.limbs.length 0)
  let rhs := (remainder.padLimbsTo nLoLimbs 0).concatLimbs rhsHi
  let quotientModulusSubtrahend ← textbookMul quotient modulusSubtrahend
  let lhsRhsLen := max (max rhs.limbs.length (quotientModulusSubtrahend.limbs.length + 1))
    (aParts.1.limbs.length + 1)
  let lhs ← add (aParts.1.padLimbsTo lhsRhsLen 0)
    (quotientModulusSubtrahend.padLimbsTo lhsRhsLen 0)
  return ⟨lhs,rhs.padLimbsTo lhsRhsLen 0⟩

/-- The two sides are equal. -/
def constrain (check : PseudoMersenneModReduce) : Gadget Unit :=
  BigUint.assertEq "modreduce_pseudo_mersenne" check.lhs check.rhs

/-- The two sides are equal when the condition holds. -/
def constrainCond (check : PseudoMersenneModReduce) (cond : Word) : Gadget Unit :=
  BigUint.assertEqCond "modred_pseudo_mersenne" check.lhs check.rhs cond

section Check

variable {n : ℕ} {a modulusSubtrahend quotient remainder : BigUint}

theorem split_padded (a : BigUint) (n : ℕ) :
    ∃ lo hi, (a.padLimbsTo n 0).splitAtLimbs n = .ok (lo,hi) ∧ lo.limbs.length = n ∧
      hi.limbs.length = a.limbs.length - n ∧ lo.value = a.value % (2 ^ 64) ^ n ∧
      hi.value = a.value / (2 ^ 64) ^ n := by
  have hcut : n ≤ (a.padLimbsTo n 0).limbs.length := by
    rw [BigUint.length_padLimbsTo]
    exact Nat.le_max_right _ _
  refine ⟨_,_,BigUint.splitAtLimbs_ok _ hcut,length_take_of_le hcut,?_,?_,?_⟩
  · rw [length_drop,BigUint.length_padLimbsTo]
    omega
  · rw [BigUint.value_take _ hcut,BigUint.value_padLimbsTo]
  · rw [BigUint.value_drop _ hcut,BigUint.value_padLimbsTo]

theorem lhs_fits {lo product l : ℕ} {m : ℕ} (hlo : lo < (2 ^ 64) ^ n) (hproduct : product < (2 ^ 64) ^ m)
    (hl : m + 1 ≤ l) (hnl : n + 1 ≤ l) : lo + product < (2 ^ 64) ^ l := by
  obtain ⟨j,rfl⟩ : ∃ j, l = j + 1 := ⟨l - 1,by omega⟩
  have hpos : 0 < 2 ^ 64 := by decide
  have hn := Nat.pow_le_pow_right hpos (show n ≤ j by omega)
  have hm := Nat.pow_le_pow_right hpos (show m ≤ j by omega)
  rw [pow_succ (2 ^ 64)]
  omega

theorem sides_iff {a K q c r d : ℕ} (h : d + a / K = q) :
    a % K + q * c = r + K * d ↔ a + q * c = r + K * q := by
  have hdivision := Nat.mod_add_div a K
  have hright : K * q = K * d + K * (a / K) := by rw [←h,Nat.mul_add]
  constructor
  · intro hsides
    linarith
  · intro hsides
    linarith

theorem new_ok (hsub : modulusSubtrahend.limbs.length ≤ n) (hrem : remainder.limbs.length ≤ n)
    (ha : a.limbs.length ≤ n + quotient.limbs.length)
    (hle : a.value / (2 ^ 64) ^ n ≤ quotient.value) :
    ∃ check, new a (64 * n) modulusSubtrahend quotient remainder = .ok check ∧
      check.lhs.limbs.length = check.rhs.limbs.length ∧
      (check.lhs.value = check.rhs.value ↔
        a.value + quotient.value * modulusSubtrahend.value =
          remainder.value + (2 ^ 64) ^ n * quotient.value) := by
  obtain ⟨lo,hi,hsplit,hlolen,hhilen,hlo,hhi⟩ := split_padded a n
  have hpadlen : quotient.limbs.length = (hi.padLimbsTo quotient.limbs.length 0).limbs.length := by
    rw [BigUint.length_padLimbsTo,hhilen]
    omega
  obtain ⟨rhsHi,hsubrun,hrhsHilen,hrhsHi⟩ := sub_ok hpadlen
    (by rw [BigUint.value_padLimbsTo,hhi]; exact hle)
  rw [BigUint.value_padLimbsTo,hhi] at hrhsHi
  obtain ⟨product,hmul,hproductlen,hproduct⟩ := textbookMul_ok quotient modulusSubtrahend
  obtain ⟨rhs,hrhs⟩ : ∃ rhs, rhs = (remainder.padLimbsTo n 0).concatLimbs rhsHi := ⟨_,rfl⟩
  obtain ⟨l,hl⟩ : ∃ l, l = max (max rhs.limbs.length (product.limbs.length + 1))
    (lo.limbs.length + 1) := ⟨_,rfl⟩
  have hlolt := lo.value_lt
  have hproductlt := product.value_lt
  rw [hlolen] at hlolt
  obtain ⟨lhs,hadd,hlhslen,hlhs⟩ := add_ok (a := lo.padLimbsTo l 0) (b := product.padLimbsTo l 0)
    (by rw [BigUint.length_padLimbsTo,BigUint.length_padLimbsTo]; omega)
    (by
      rw [BigUint.value_padLimbsTo,BigUint.value_padLimbsTo,BigUint.length_padLimbsTo,
        show max lo.limbs.length l = l by omega]
      exact lhs_fits hlolt hproductlt (by omega) (by omega))
  rw [BigUint.value_padLimbsTo,BigUint.value_padLimbsTo] at hlhs
  rw [BigUint.length_padLimbsTo] at hlhslen
  have hremlen : (remainder.padLimbsTo n 0).limbs.length = n := by
    rw [BigUint.length_padLimbsTo]
    omega
  have hrhsvalue : rhs.value = remainder.value + (2 ^ 64) ^ n * rhsHi.value := by
    rw [hrhs,BigUint.value_concatLimbs,BigUint.value_padLimbsTo,hremlen]
  refine ⟨⟨lhs,rhs.padLimbsTo l 0⟩,?_,?_,?_⟩
  · unfold new
    dsimp only
    rw [ensure_ok (Nat.dvd_mul_right 64 n),ok_bind,ensure_ok (by omega),ok_bind,ensure_ok (by omega),
      ok_bind,Nat.mul_div_cancel_left n (by decide),hsplit,ok_bind,hsubrun,ok_bind,hmul,ok_bind,←hrhs,
      ←hl,hadd]
    rfl
  · dsimp only
    rw [BigUint.length_padLimbsTo]
    omega
  · rw [BigUint.value_padLimbsTo,hrhsvalue,hlhs,hlo,hproduct]
    exact sides_iff hrhsHi

theorem le_of_new {check : PseudoMersenneModReduce}
    (ha : a.limbs.length ≤ n + quotient.limbs.length)
    (h : new a (64 * n) modulusSubtrahend quotient remainder = .ok check) :
    a.value / (2 ^ 64) ^ n ≤ quotient.value := by
  obtain ⟨lo,hi,hsplit,-,hhilen,-,hhi⟩ := split_padded a n
  have hpadlen : quotient.limbs.length = (hi.padLimbsTo quotient.limbs.length 0).limbs.length := by
    rw [BigUint.length_padLimbsTo,hhilen]
    omega
  unfold new at h
  dsimp only at h
  obtain ⟨_,-,h⟩ := bind_eq_ok.mp h
  obtain ⟨_,-,h⟩ := bind_eq_ok.mp h
  obtain ⟨_,-,h⟩ := bind_eq_ok.mp h
  rw [Nat.mul_div_cancel_left n (by decide),hsplit,ok_bind] at h
  obtain ⟨rhsHi,hsubrun,-⟩ := bind_eq_ok.mp h
  have hdiff := ((sub_eq_ok hpadlen).mp hsubrun).2
  rw [BigUint.value_padLimbsTo,hhi] at hdiff
  omega

end Check

end PseudoMersenneModReduce

end Binius64.Bignum
