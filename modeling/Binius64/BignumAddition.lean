import Binius64.LimbVectors
import Binius64.CheckedRun
import Binius64.WordGates

/-!
# Addition and subtraction of big integers

A gadget read off its wires returns the words it computes, or stops.
-/

namespace Binius64.Bignum

open MachineWord (Word isMsbTrue isMsbTrue_eq)
open WordGates LimbVectors CheckedRun CarryChain EvalForm List

inductive Failure where
  /-- An assertion of the code that builds it. -/
  | panic (message : String)
  /-- A constraint that the words do not meet. -/
  | assertion (name : String) (detail : AssertionDetail)
deriving DecidableEq

abbrev Gadget := Except Failure

/-- A builder assertion. -/
def ensure (p : Prop) [Decidable p] (message : String) : Gadget Unit :=
  if p then .ok () else .error (.panic message)

def assertEq (name : String) (x y : Word) : Gadget Unit :=
  if x = y then .ok () else .error (.assertion name (.notEqual x y))

def assertEqCond (name : String) (x y cond : Word) : Gadget Unit :=
  if isMsbTrue cond && x ≠ y then .error (.assertion name (.conditional x y)) else .ok ()

def assertZero (name : String) (x : Word) : Gadget Unit :=
  if x = 0 then .ok () else .error (.assertion name (.notZero x))

def assertFalse (name : String) (x : Word) : Gadget Unit :=
  if isMsbTrue x then .error (.assertion name (.msbTrue x)) else .ok ()

def assertTrue (name : String) (x : Word) : Gadget Unit :=
  if isMsbTrue x then .ok () else .error (.assertion name (.msbFalse x))

theorem ensure_ok {p : Prop} [Decidable p] (h : p) (message : String) :
    ensure p message = .ok () := if_pos h

theorem ensure_eq_ok {p : Prop} [Decidable p] {message : String} :
    ensure p message = .ok () ↔ p := by
  unfold ensure
  split
  · simp_all
  · simp_all

variable {name : String} {x : Word}

theorem assertEq_eq_ok {y : Word} :
    assertEq name x y = .ok () ↔ x = y := by
  unfold assertEq
  split
  · simp_all
  · simp_all

theorem assertEqCond_eq_ok {y cond : Word} :
    assertEqCond name x y cond = .ok () ↔ (isMsbTrue cond = true → x = y) := by
  unfold assertEqCond
  split
  · simp_all
  · simp_all

theorem assertZero_eq_ok :
    assertZero name x = .ok () ↔ x = 0 := by
  unfold assertZero
  split
  · simp_all
  · simp_all

theorem assertFalse_eq_ok :
    assertFalse name x = .ok () ↔ isMsbTrue x = false := by
  unfold assertFalse
  split
  · simp_all
  · simp_all

theorem assertTrue_eq_ok :
    assertTrue name x = .ok () ↔ isMsbTrue x = true := by
  unfold assertTrue
  split
  · simp_all
  · simp_all

/-- Addition with the carry in read from the top bit of a word; returns sum and carries out. -/
def iaddCinCout (x y cin : Word) : Word × Word := MachineWord.iaddCinCout x y (cin >>> 63)

/-- Subtraction with the borrow in read from the top bit of a word; returns difference and
borrows out. -/
def isubBinBout (x y bin : Word) : Word × Word := MachineWord.isubBinBout x y (bin >>> 63)

/-- One for a condition that holds. -/
def flag (w : Word) : ℕ := (isMsbTrue w).toNat

theorem flag_le (w : Word) : flag w ≤ 1 := Bool.toNat_le _

@[simp] theorem flag_zero : flag 0 = 0 := rfl

theorem flag_eq_zero {w : Word} : flag w = 0 ↔ isMsbTrue w = false := by
  unfold flag
  cases isMsbTrue w with
  | true => decide
  | false => decide

theorem toNat_shr_top (w : Word) : (shr w 63).toNat = flag w := by
  have hshr : shr w 63 = (BitVec.ofBool (isMsbTrue w)).setWidth 64 := by
    rw [isMsbTrue_eq]
    exact msb_toBottom w
  unfold flag
  rw [hshr]
  cases isMsbTrue w with
  | true => rfl
  | false => rfl

theorem iaddCinCout_value (x y cin : Word) :
    (iaddCinCout x y cin).1.toNat + 2 ^ 64 * flag (iaddCinCout x y cin).2 =
      x.toNat + y.toNat + flag cin := by
  have hadd := adder_add x y (isMsbTrue cin)
  have htop : cin >>> 63 = (BitVec.ofBool (isMsbTrue cin)).setWidth 64 := by
    rw [isMsbTrue_eq]
    exact msb_toBottom cin
  have hcarry := hadd.carryOut_bit (show 63 < 64 by omega)
  have hx := x.isLt
  have hy := y.isLt
  have hc : (isMsbTrue cin).toNat ≤ 1 := Bool.toNat_le _
  have hcin : ((BitVec.ofBool (isMsbTrue cin)).setWidth 64).toNat = (isMsbTrue cin).toNat := by
    cases isMsbTrue cin with
    | true => rfl
    | false => rfl
  rw [←BitVec.carry_succ,BitVec.carry,Nat.mod_eq_of_lt (show x.toNat < 2 ^ (63 + 1) from hx),
    Nat.mod_eq_of_lt (show y.toNat < 2 ^ (63 + 1) from hy)] at hcarry
  unfold iaddCinCout MachineWord.iaddCinCout flag
  rw [htop]
  dsimp only
  rw [isMsbTrue_eq (MachineWord.carryOut _ _ _),hcarry,BitVec.toNat_add,BitVec.toNat_add,hcin]
  by_cases hover : x.toNat + y.toNat + (isMsbTrue cin).toNat ≥ 2 ^ (63 + 1)
  · rw [decide_eq_true hover,Bool.toNat_true]
    omega
  · rw [decide_eq_false hover,Bool.toNat_false]
    omega

theorem isubBinBout_value (x y bin : Word) :
    (isubBinBout x y bin).1.toNat + y.toNat + flag bin =
      x.toNat + 2 ^ 64 * flag (isubBinBout x y bin).2 := by
  have hadd := iaddCinCout_value (~~~x) y bin
  have hx := x.isLt
  have hlt := (MachineWord.iaddCinCout (~~~x) y (bin >>> 63)).1.isLt
  unfold iaddCinCout at hadd
  rw [BitVec.toNat_not] at hadd
  rw [isubBinBout,isubBinBout_eq]
  dsimp only
  rw [BitVec.toNat_not]
  omega

theorem imul_value (x y : Word) :
    (imul x y).2.toNat + 2 ^ 64 * (imul x y).1.toNat = x.toNat * y.toNat := by
  have hx := x.isLt
  have hy := y.isLt
  have hlt : x.toNat * y.toNat < 2 ^ 64 * 2 ^ 64 := Nat.mul_lt_mul'' hx hy
  have hprod : (x.setWidth 128 * y.setWidth 128).toNat = x.toNat * y.toNat := by
    rw [BitVec.toNat_mul,BitVec.toNat_setWidth,BitVec.toNat_setWidth,
      Nat.mod_eq_of_lt (hx.trans (by decide)),Nat.mod_eq_of_lt (hy.trans (by decide))]
    exact Nat.mod_eq_of_lt hlt
  unfold imul MachineWord.imul
  dsimp only
  rw [BitVec.toNat_setWidth,BitVec.toNat_setWidth,BitVec.toNat_ushiftRight,hprod,
    Nat.shiftRight_eq_div_pow,Nat.mod_eq_of_lt (Nat.div_lt_of_lt_mul hlt),Nat.mod_add_div]

/-- An unsigned integer in 64-bit limbs, least significant first. -/
structure BigUint where
  limbs : List Word
deriving DecidableEq

namespace BigUint

/-- The integer. -/
def value (a : BigUint) : ℕ := limbValue a.limbs

def zeroUnless (a : BigUint) (cond : Word) : BigUint := ⟨a.limbs.map fun limb => select cond limb 0⟩

def padLimbsTo (a : BigUint) (newLimbsLen : ℕ) (paddingValue : Word) : BigUint :=
  ⟨a.limbs ++ replicate (newLimbsLen - a.limbs.length) paddingValue⟩

def zeroExtend (a : BigUint) (newLimbsLen : ℕ) : BigUint := a.padLimbsTo newLimbsLen 0

def splitAtLimbs (a : BigUint) (atLimbs : ℕ) : Gadget (BigUint × BigUint) := do
  ensure (atLimbs ≤ a.limbs.length) "split_off: position past the end"
  return (⟨a.limbs.take atLimbs⟩,⟨a.limbs.drop atLimbs⟩)

/-- Puts the limbs of another integer on top. -/
def concatLimbs (a hi : BigUint) : BigUint := ⟨a.limbs ++ hi.limbs⟩

variable (a : BigUint) {n : ℕ}

theorem value_lt : a.value < (2 ^ 64) ^ a.limbs.length := limbValue_lt a.limbs

theorem eq_of_value {a b : BigUint} (hlen : a.limbs.length = b.limbs.length)
    (h : a.value = b.value) : a = b := congrArg BigUint.mk (limbValue_inj hlen h)

@[simp] theorem length_zeroUnless (a : BigUint) (cond : Word) :
    (a.zeroUnless cond).limbs.length = a.limbs.length := length_map _

theorem value_zeroUnless (cond : Word) :
    (a.zeroUnless cond).value = flag cond * a.value := by
  unfold value zeroUnless
  dsimp only
  induction a.limbs with
  | nil => exact (Nat.mul_zero _).symm
  | cons limb limbs ih =>
    have hhead : (select cond limb 0).toNat = flag cond * limb.toNat := by
      unfold select flag
      cases isMsbTrue cond with
      | true => exact (Nat.one_mul _).symm
      | false => exact (Nat.zero_mul _).symm
    rw [map_cons,limbValue_cons,limbValue_cons,ih,hhead]
    ring

@[simp] theorem length_padLimbsTo (a : BigUint) (n : ℕ) (w : Word) :
    (a.padLimbsTo n w).limbs.length = max a.limbs.length n := by
  unfold padLimbsTo
  rw [length_append,length_replicate]
  omega

@[simp] theorem value_padLimbsTo (a : BigUint) (n : ℕ) : (a.padLimbsTo n 0).value = a.value := by
  unfold value padLimbsTo
  rw [limbValue_append,limbValue_replicate_zero,Nat.mul_zero,Nat.add_zero]

theorem value_drop (h : n ≤ a.limbs.length) :
    (BigUint.mk (a.limbs.drop n)).value = a.value / (2 ^ 64) ^ n := limbValue_drop a.limbs h

theorem value_take (h : n ≤ a.limbs.length) :
    (BigUint.mk (a.limbs.take n)).value = a.value % (2 ^ 64) ^ n := limbValue_take a.limbs h

theorem splitAtLimbs_ok (h : n ≤ a.limbs.length) :
    a.splitAtLimbs n = .ok (⟨a.limbs.take n⟩,⟨a.limbs.drop n⟩) := by
  unfold splitAtLimbs
  rw [ensure_ok h]
  rfl

theorem value_concatLimbs (a hi : BigUint) :
    (a.concatLimbs hi).value = a.value + (2 ^ 64) ^ a.limbs.length * hi.value :=
  limbValue_append a.limbs hi.limbs

@[simp] theorem length_concatLimbs (a hi : BigUint) :
    (a.concatLimbs hi).limbs.length = a.limbs.length + hi.limbs.length := length_append

end BigUint

/-- One column of words per limb position. -/
abbrev LimbStacks := List (List Word)

def carryTotal (carries : List Word) : ℕ := (carries.map flag).sum

/-- Adds up one column, its top word apart from the rest, top first. -/
def addColumn : Word → List Word → List Word → List Word → Word × List Word × List Word
  | x, [], carries, newCarries => (x,carries,newCarries)
  | x, y::rest, carries, newCarries =>
    let sumCout := iaddCinCout x y (carries.headD 0)
    addColumn sumCout.1 rest carries.tail (sumCout.2::newCarries)

@[simp] theorem carryTotal_nil : carryTotal [] = 0 := rfl

@[simp] theorem carryTotal_cons (carry : Word) (carries : List Word) :
    carryTotal (carry::carries) = flag carry + carryTotal carries := by
  unfold carryTotal
  rw [map_cons,sum_cons]

theorem carryTotal_reverse (carries : List Word) :
    carryTotal carries.reverse = carryTotal carries := by
  unfold carryTotal
  rw [map_reverse,sum_reverse]

theorem addColumn_value (x : Word) (rest carries newCarries : List Word) :
    (addColumn x rest carries newCarries).2.1 = carries.drop rest.length ∧
    (addColumn x rest carries newCarries).2.2.length = newCarries.length + rest.length ∧
    (addColumn x rest carries newCarries).1.toNat +
        2 ^ 64 * carryTotal (addColumn x rest carries newCarries).2.2 +
        carryTotal (addColumn x rest carries newCarries).2.1 =
      x.toNat + columnSum rest + carryTotal carries + 2 ^ 64 * carryTotal newCarries := by
  induction rest generalizing x carries newCarries with
  | nil =>
    refine ⟨rfl,rfl,?_⟩
    unfold addColumn
    dsimp only
    rw [columnSum_nil]
    omega
  | cons y rest ih =>
    have hstep := iaddCinCout_value x y (carries.headD 0)
    have hcarries : carryTotal carries = flag (carries.headD 0) + carryTotal carries.tail := by
      cases carries with
      | nil => rfl
      | cons carry carries => exact carryTotal_cons carry carries
    obtain ⟨hleft,hlen,hvalue⟩ := ih (iaddCinCout x y (carries.headD 0)).1 carries.tail
      ((iaddCinCout x y (carries.headD 0)).2::newCarries)
    unfold addColumn
    dsimp only
    refine ⟨?_,?_,?_⟩
    · rw [hleft,drop_tail,length_cons]
    · rw [hlen,length_cons,length_cons]
      omega
    · rw [hvalue,carryTotal_cons,columnSum_cons,hcarries]
      omega

/-- The columns from the lowest on, with the carries that come in. -/
def addColumns : LimbStacks → List Word → Gadget (List Word × List Word)
  | [], carries => .ok ([],carries.reverse)
  | limbStack::limbStacks, carries => do
    -- the stack is resized so that every carry finds an addition
    let padded := limbStack ++ replicate (carries.length + 1 - limbStack.length) 0
    match padded.reverse with
    | [] => throw (.panic "index out of bounds")
    | x::rest =>
      let column := addColumn x rest carries []
      ensure column.2.1.isEmpty "carries.is_empty()"
      let above ← addColumns limbStacks column.2.2
      return (column.1::above.1,above.2)

/-- The carries that leave the last column when so many enter the first. -/
def carryCount : LimbStacks → ℕ → ℕ
  | [], k => k
  | limbStack::limbStacks, k => carryCount limbStacks (max limbStack.length (k + 1) - 1)

variable (limbStacks : LimbStacks)

theorem addColumns_value (carries : List Word) :
    ∃ sums carryOuts, addColumns limbStacks carries = .ok (sums,carryOuts) ∧
      sums.length = limbStacks.length ∧ carryOuts.length = carryCount limbStacks carries.length ∧
      limbValue sums + (2 ^ 64) ^ limbStacks.length * carryTotal carryOuts =
        columnsValue limbStacks + carryTotal carries := by
  induction limbStacks generalizing carries with
  | nil =>
    refine ⟨[],carries.reverse,rfl,rfl,length_reverse,?_⟩
    rw [carryTotal_reverse,limbValue_nil,columnsValue_nil,length_nil,pow_zero,Nat.one_mul]
  | cons limbStack limbStacks ih =>
    have hsum : columnSum (limbStack ++
        replicate (carries.length + 1 - limbStack.length) 0).reverse = columnSum limbStack := by
      rw [columnSum_reverse,columnSum_append,columnSum_replicate_zero,Nat.add_zero]
    have hlen : (limbStack ++ replicate (carries.length + 1 - limbStack.length)
        (0 : Word)).reverse.length = max limbStack.length (carries.length + 1) := by
      rw [length_reverse,length_append,length_replicate]
      omega
    unfold addColumns
    dsimp only
    -- the padded stack, its top first, is never empty
    cases hrev : (limbStack ++ replicate (carries.length + 1 - limbStack.length)
        (0 : Word)).reverse with
    | nil =>
      rw [hrev,length_nil] at hlen
      omega
    | cons x rest =>
      rw [hrev,columnSum_cons] at hsum
      rw [hrev,length_cons] at hlen
      obtain ⟨hleft,hnew,hvalue⟩ := addColumn_value x rest carries []
      have hused : (addColumn x rest carries []).2.1 = [] := by
        rw [hleft,drop_eq_nil_iff]
        omega
      obtain ⟨sums,carryOuts,hrun,hsums,houts,htotal⟩ := ih (addColumn x rest carries []).2.2
      rw [hused,carryTotal_nil] at hvalue
      rw [hnew,length_nil] at houts
      refine ⟨(addColumn x rest carries []).1::sums,carryOuts,?_,?_,?_,?_⟩
      · dsimp only
        rw [hused,ensure_ok isEmpty_nil,ok_bind,hrun]
        rfl
      · rw [length_cons,length_cons,hsums]
      · rw [houts,carryCount]
        congr 1
        omega
      · rw [limbValue_cons,columnsValue_cons,length_cons,pow_succ' (2 ^ 64),←hsum]
        calc (addColumn x rest carries []).1.toNat + 2 ^ 64 * limbValue sums +
              2 ^ 64 * (2 ^ 64) ^ limbStacks.length * carryTotal carryOuts
            = (addColumn x rest carries []).1.toNat + 2 ^ 64 *
                (limbValue sums + (2 ^ 64) ^ limbStacks.length * carryTotal carryOuts) := by ring
          _ = (addColumn x rest carries []).1.toNat + 2 ^ 64 * (columnsValue limbStacks +
                carryTotal (addColumn x rest carries []).2.2) := by rw [htotal]
          _ = x.toNat + columnSum rest + 2 ^ 64 * columnsValue limbStacks +
                carryTotal carries := by omega

/-- Multi-operand addition, with the carries out of the last column. -/
def computeStackAddsWithCarryOuts (limbStacks : LimbStacks) : Gadget (BigUint × List Word) := do
  let sums ← addColumns limbStacks []
  return (⟨sums.1⟩,sums.2)

theorem computeStackAddsWithCarryOuts_value :
    ∃ sum carryOuts, computeStackAddsWithCarryOuts limbStacks = .ok (sum,carryOuts) ∧
      sum.limbs.length = limbStacks.length ∧ carryOuts.length = carryCount limbStacks 0 ∧
      sum.value + (2 ^ 64) ^ limbStacks.length * carryTotal carryOuts = columnsValue limbStacks := by
  obtain ⟨sums,carryOuts,hrun,hlen,hcount,hvalue⟩ := addColumns_value limbStacks []
  refine ⟨⟨sums⟩,carryOuts,?_,hlen,hcount,hvalue⟩
  unfold computeStackAddsWithCarryOuts
  rw [hrun]
  rfl

def assertNoCarries : ℕ → List Word → Gadget Unit
  | _, [] => .ok ()
  | i, carryOut::carryOuts => do
    assertFalse s!"compute_stack_adds_carry_zero_{i}" carryOut
    assertNoCarries (i + 1) carryOuts

theorem assertNoCarries_ok (i : ℕ) {carryOuts : List Word} (h : carryTotal carryOuts = 0) :
    assertNoCarries i carryOuts = .ok () := by
  induction carryOuts generalizing i with
  | nil => rfl
  | cons carryOut carryOuts ih =>
    rw [carryTotal_cons,Nat.add_eq_zero_iff] at h
    unfold assertNoCarries
    rw [assertFalse_eq_ok.mpr (flag_eq_zero.mp h.1),ok_bind]
    exact ih (i + 1) h.2

/-- Multi-operand addition whose result fits. -/
def computeStackAdds (limbStacks : LimbStacks) : Gadget BigUint := do
  let sums ← computeStackAddsWithCarryOuts limbStacks
  assertNoCarries 0 sums.2
  return sums.1

theorem computeStackAdds_ok
    (h : columnsValue limbStacks < (2 ^ 64) ^ limbStacks.length) :
    ∃ sum, computeStackAdds limbStacks = .ok sum ∧ sum.limbs.length = limbStacks.length ∧
      sum.value = columnsValue limbStacks := by
  obtain ⟨sum,carryOuts,hrun,hlen,-,hvalue⟩ := computeStackAddsWithCarryOuts_value limbStacks
  have hnone : carryTotal carryOuts = 0 := by
    by_contra hsome
    have hscaled := Nat.le_mul_of_pos_right ((2 ^ 64) ^ limbStacks.length)
      (Nat.pos_of_ne_zero hsome)
    omega
  rw [hnone,Nat.mul_zero,Nat.add_zero] at hvalue
  refine ⟨sum,?_,hlen,hvalue⟩
  unfold computeStackAdds
  rw [hrun,ok_bind,assertNoCarries_ok 0 hnone]
  rfl

/-- Two addends, column by column. -/
def pairStacks (a b : BigUint) : LimbStacks := zipWith (fun x y => [x,y]) a.limbs b.limbs

theorem length_pairStacks {a b : BigUint} (h : a.limbs.length = b.limbs.length) :
    (pairStacks a b).length = a.limbs.length := by
  unfold pairStacks
  rw [length_zipWith]
  omega

theorem pairStacks_value {a b : BigUint} (h : a.limbs.length = b.limbs.length) :
    columnsValue (pairStacks a b) = a.value + b.value := by
  obtain ⟨xs⟩ := a
  obtain ⟨ys⟩ := b
  unfold pairStacks BigUint.value
  dsimp only at *
  induction xs generalizing ys with
  | nil =>
    rw [length_eq_zero_iff.mp h.symm]
    rfl
  | cons x xs ih =>
    cases ys with
    | nil => cases h
    | cons y ys =>
      rw [zipWith_cons_cons,columnsValue_cons,ih ys (Nat.succ.inj h),limbValue_cons,
        limbValue_cons,columnSum_cons,columnSum_cons,columnSum_nil]
      ring

theorem carryCount_pairStacks {a b : BigUint} (h : a.limbs.length = b.limbs.length) :
    carryCount (pairStacks a b) 0 = if a.limbs.isEmpty then 0 else 1 := by
  have hone : ∀ xs ys : List Word,
      carryCount (zipWith (fun x y => [x,y]) xs ys) 1 = 1 := by
    intro xs
    induction xs with
    | nil => exact fun _ => rfl
    | cons x xs ih =>
      intro ys
      cases ys with
      | nil => rfl
      | cons y ys => exact ih ys
  obtain ⟨xs⟩ := a
  obtain ⟨ys⟩ := b
  cases xs with
  | nil => rfl
  | cons x xs =>
    cases ys with
    | nil => cases h
    | cons y ys => exact hone xs ys

def addWithCarryOut (a b : BigUint) : Gadget (BigUint × Word) := do
  ensure (a.limbs.length = b.limbs.length)
    "add_with_carry_out: inputs must have the same number of limbs"
  let sums ← computeStackAddsWithCarryOuts (pairStacks a b)
  ensure (sums.2.length = if a.limbs.isEmpty then 0 else 1) "one carry out"
  return (sums.1,sums.2.headD 0)

theorem addWithCarryOut_value {a b : BigUint} (h : a.limbs.length = b.limbs.length) :
    ∃ sum carry, addWithCarryOut a b = .ok (sum,carry) ∧ sum.limbs.length = a.limbs.length ∧
      sum.value + (2 ^ 64) ^ a.limbs.length * flag carry = a.value + b.value := by
  obtain ⟨sum,carryOuts,hrun,hlen,hcount,hvalue⟩ :=
    computeStackAddsWithCarryOuts_value (pairStacks a b)
  rw [carryCount_pairStacks h] at hcount
  rw [pairStacks_value h,length_pairStacks h] at hvalue
  rw [length_pairStacks h] at hlen
  have htotal : carryTotal carryOuts = flag (carryOuts.headD 0) := by
    cases carryOuts with
    | nil => rfl
    | cons carry rest =>
      -- there is at most one carry
      have hrest : rest = [] := by
        rw [←length_eq_zero_iff]
        rw [length_cons] at hcount
        split at hcount
        · omega
        · omega
      rw [hrest,carryTotal_cons,carryTotal_nil,Nat.add_zero]
      rfl
  rw [htotal] at hvalue
  refine ⟨sum,carryOuts.headD 0,?_,hlen,hvalue⟩
  unfold addWithCarryOut
  rw [ensure_ok h,ok_bind,hrun,ok_bind,ensure_ok hcount]
  rfl

/-- Addition whose result fits. -/
def add (a b : BigUint) : Gadget BigUint := do
  let sum ← addWithCarryOut a b
  assertFalse "add_carry_out_zero" sum.2
  return sum.1

theorem add_ok {a b : BigUint} (h : a.limbs.length = b.limbs.length)
    (hfit : a.value + b.value < (2 ^ 64) ^ a.limbs.length) :
    ∃ sum, add a b = .ok sum ∧ sum.limbs.length = a.limbs.length ∧
      sum.value = a.value + b.value := by
  obtain ⟨sum,carry,hrun,hlen,hvalue⟩ := addWithCarryOut_value h
  have hnone : flag carry = 0 := by
    by_contra hsome
    have hscaled := Nat.le_mul_of_pos_right ((2 ^ 64) ^ a.limbs.length) (Nat.pos_of_ne_zero hsome)
    omega
  rw [hnone,Nat.mul_zero,Nat.add_zero] at hvalue
  refine ⟨sum,?_,hlen,hvalue⟩
  unfold add
  rw [hrun,ok_bind,assertFalse_eq_ok.mpr (flag_eq_zero.mp hnone)]
  rfl

def subLimbs : List Word → List Word → Word → List Word × Word
  | x::xs, y::ys, borrowIn =>
    let diff := isubBinBout x y borrowIn
    let above := subLimbs xs ys diff.2
    (diff.1::above.1,above.2)
  | _, _, borrowIn => ([],borrowIn)

theorem subLimbs_value {xs ys : List Word} (h : xs.length = ys.length) (borrowIn : Word) :
    (subLimbs xs ys borrowIn).1.length = xs.length ∧
    limbValue (subLimbs xs ys borrowIn).1 + limbValue ys + flag borrowIn =
      limbValue xs + (2 ^ 64) ^ xs.length * flag (subLimbs xs ys borrowIn).2 := by
  induction xs generalizing ys borrowIn with
  | nil =>
    rw [length_eq_zero_iff.mp h.symm]
    unfold subLimbs
    refine ⟨rfl,?_⟩
    rw [length_nil,pow_zero,limbValue_nil,Nat.one_mul]
  | cons x xs ih =>
    cases ys with
    | nil => cases h
    | cons y ys =>
      have hstep := isubBinBout_value x y borrowIn
      obtain ⟨hlen,hvalue⟩ := ih (Nat.succ.inj h) (isubBinBout x y borrowIn).2
      unfold subLimbs
      dsimp only
      refine ⟨congrArg Nat.succ hlen,?_⟩
      rw [limbValue_cons,limbValue_cons,limbValue_cons,length_cons,
        pow_succ' (2 ^ 64),Nat.mul_assoc]
      omega

/-- Subtraction modulo the weight past the last limb, with the final borrow. -/
def subWithBorrowOut (a b : BigUint) : Gadget (BigUint × Word) := do
  ensure (a.limbs.length = b.limbs.length) "sub: inputs must have the same number of limbs"
  let diff := subLimbs a.limbs b.limbs 0
  return (⟨diff.1⟩,diff.2)

theorem subWithBorrowOut_value {a b : BigUint} (h : a.limbs.length = b.limbs.length) :
    ∃ diff borrow, subWithBorrowOut a b = .ok (diff,borrow) ∧
      diff.limbs.length = a.limbs.length ∧
      diff.value + b.value = a.value + (2 ^ 64) ^ a.limbs.length * flag borrow := by
  obtain ⟨hlen,hvalue⟩ := subLimbs_value h 0
  rw [flag_zero,Nat.add_zero] at hvalue
  refine ⟨⟨(subLimbs a.limbs b.limbs 0).1⟩,(subLimbs a.limbs b.limbs 0).2,?_,hlen,hvalue⟩
  unfold subWithBorrowOut
  rw [ensure_ok h]
  rfl

/-- Subtraction that must not underflow. -/
def sub (a b : BigUint) : Gadget BigUint := do
  let diff ← subWithBorrowOut a b
  assertEq "sub_borrow_out" (shr diff.2 63) 0
  return diff.1

theorem shr_top_eq_zero {w : Word} : shr w 63 = 0 ↔ isMsbTrue w = false := by
  rw [←flag_eq_zero,←toNat_shr_top,←BitVec.toNat_inj]
  rfl

theorem sub_eq_ok {a b diff : BigUint} (h : a.limbs.length = b.limbs.length) :
    sub a b = .ok diff ↔
      diff.limbs.length = a.limbs.length ∧ diff.value + b.value = a.value := by
  obtain ⟨wrapped,borrow,hrun,hlen,hvalue⟩ := subWithBorrowOut_value h
  have hwrapped := wrapped.value_lt
  have hb := b.value_lt
  have ha := a.value_lt
  have hpow := Nat.two_pow_pos 64
  unfold sub
  rw [hrun,ok_bind]
  by_cases hborrow : isMsbTrue borrow = false
  · rw [flag_eq_zero.mpr hborrow,Nat.mul_zero,Nat.add_zero] at hvalue
    rw [assertEq_eq_ok.mpr (shr_top_eq_zero.mpr hborrow),ok_bind,pure_eq_ok]
    dsimp only
    constructor
    · rintro rfl
      exact ⟨hlen,hvalue⟩
    · rintro ⟨hdifflen,hdiff⟩
      exact BigUint.eq_of_value (hlen.trans hdifflen.symm) (by omega)
  · -- a borrow raises the minuend past every sum of the subtrahend and a vector of this length
    have hone : flag borrow = 1 := by
      unfold flag
      rw [Bool.not_eq_false] at hborrow
      rw [hborrow]
      rfl
    rw [hone,Nat.mul_one] at hvalue
    rw [hlen] at hwrapped
    constructor
    · intro hok
      obtain ⟨_,hassert,-⟩ := bind_eq_ok.mp hok
      exact absurd (shr_top_eq_zero.mp (assertEq_eq_ok.mp hassert)) hborrow
    · rintro ⟨-,hdiff⟩
      omega

theorem sub_ok {a b : BigUint} (h : a.limbs.length = b.limbs.length) (hle : b.value ≤ a.value) :
    ∃ diff, sub a b = .ok diff ∧ diff.limbs.length = a.limbs.length ∧
      diff.value + b.value = a.value := by
  obtain ⟨diff,borrow,hrun,hlen,hvalue⟩ := subWithBorrowOut_value h
  have hdiff := diff.value_lt
  rw [hlen] at hdiff
  have hnone : flag borrow = 0 := by
    have hle1 := flag_le borrow
    by_contra hsome
    have hone : flag borrow = 1 := by omega
    rw [hone,Nat.mul_one] at hvalue
    omega
  rw [hnone,Nat.mul_zero,Nat.add_zero] at hvalue
  exact ⟨diff,(sub_eq_ok h).mpr ⟨hlen,hvalue⟩,hlen,hvalue⟩

end Binius64.Bignum
