import Binius64.GateConstraints

/-!
# Gates as word functions

A circuit read off its wires: each builder method as the function its gate computes, with an
assertion as the proposition it states.
-/

namespace Binius64.WordGates

open MachineWord ShiftAlgebra CarryChain

/-- Bitwise AND. -/
def band (x y : Word) : Word := x &&& y

/-- Bitwise OR. -/
def bor (x y : Word) : Word := x ||| y

/-- Bitwise exclusive or. -/
def bxor (x y : Word) : Word := x ^^^ y

variable (x : Word)

/-- Bitwise complement, as an exclusive or with the all-one constant. -/
def bnot : Word := bxor x allOne

def select (cond t f : Word) : Word := if isMsbTrue cond then t else f

/-- Two independent 32-bit additions. -/
def iadd32 (x y : Word) : Word := (iaddCout32 x y).1

/-- 64-bit addition, without its carries. -/
def iadd (x y : Word) : Word := (iaddCinCout x y 0).1

/-- 64-bit subtraction with a zero borrow, without its borrows. -/
def isub (x y : Word) : Word := (isubBinBout x y 0).1

/-- Unsigned comparison: the carries out of adding to the complement. -/
def icmpUlt (x y : Word) : Word := (iaddCinCout (x ^^^ allOne) y 0).2

/-- Equality comparison. -/
def icmpEq (x y : Word) : Word := (iaddCinCout allOne (x ^^^ y) 0).2 ^^^ msbOne

variable (n : ℕ)

def shl : Word := ShiftVariant.sll.apply x n

def shr : Word := ShiftVariant.slr.apply x n

def sar : Word := ShiftVariant.sar.apply x n

def sll32 : Word := ShiftVariant.sll32.apply x n

/-- Logical right shift of both halves. -/
def srl32 : Word := ShiftVariant.srl32.apply x n

/-- The 64-bit product, high word first. -/
def imul (x y : Word) : Word × Word := MachineWord.imul x y

@[simp] theorem isMsbTrue_band (x y : Word) :
    isMsbTrue (band x y) = (isMsbTrue x && isMsbTrue y) := by
  simp only [isMsbTrue_eq,band,BitVec.getLsbD_and]

@[simp] theorem isMsbTrue_bor (x y : Word) :
    isMsbTrue (bor x y) = (isMsbTrue x || isMsbTrue y) := by
  simp only [isMsbTrue_eq,bor,BitVec.getLsbD_or]

@[simp] theorem isMsbTrue_bnot : isMsbTrue (bnot x) = !isMsbTrue x := by
  simp only [isMsbTrue_eq,bnot,bxor,allOne,BitVec.getLsbD_xor,BitVec.getLsbD_allOnes]
  exact Bool.xor_true _

@[simp] theorem isMsbTrue_icmpEq (x y : Word) : isMsbTrue (icmpEq x y) = decide (x = y) := by
  have htop : msbOne.getLsbD 63 = true := rfl
  have hcarry := allOne_carry_msb (x ^^^ y)
  rw [isMsbTrue_eq] at hcarry
  rw [isMsbTrue_eq,icmpEq,BitVec.getLsbD_xor,hcarry,htop,Bool.xor_true,← decide_not]
  have hiff : ¬x ^^^ y ≠ 0 ↔ x = y := by
    rw [not_ne_iff]
    exact BitVec.xor_eq_zero_iff
  exact decide_eq_decide.mpr hiff

@[simp] theorem isMsbTrue_icmpUlt (x y : Word) :
    isMsbTrue (icmpUlt x y) = decide (x.toNat < y.toNat) := by
  have hadd := adder_add (x ^^^ allOne) y false
  have hz : (BitVec.ofBool false).setWidth 64 = (0 : Word) := rfl
  rw [hz] at hadd
  have hcarry := hadd.carryOut_bit (show 63 < 64 by omega)
  have hnot : (x ^^^ allOne).toNat = 2 ^ 64 - 1 - x.toNat := by
    rw [allOne,BitVec.xor_allOnes,BitVec.toNat_not]
  have hx := x.isLt
  have hy := y.isLt
  rw [isMsbTrue_eq,icmpUlt,iaddCinCout]
  dsimp only
  rw [hcarry,← BitVec.carry_succ,BitVec.carry,hnot]
  refine decide_eq_decide.mpr ?_
  rw [Nat.mod_eq_of_lt (show y.toNat < 2 ^ (63 + 1) from hy),
    Nat.mod_eq_of_lt (show 2 ^ 64 - 1 - x.toNat < 2 ^ (63 + 1) by omega),Bool.toNat_false]
  omega

theorem select_of_true {cond : Word} (h : isMsbTrue cond = true) (t f : Word) :
    select cond t f = t := by
  rw [select,h,if_pos rfl]

theorem select_of_false {cond : Word} (h : isMsbTrue cond = false) (t f : Word) :
    select cond t f = f := by
  rw [select,h,if_neg Bool.false_ne_true]

theorem select_one_zero_eq_zero {cond : Word} : select cond 1 0 = 0 ↔ isMsbTrue cond = false := by
  rw [select]
  cases isMsbTrue cond with
  | true => decide
  | false => decide

end Binius64.WordGates
