import Mathlib.Data.BitVec
import Mathlib.Tactic.Linarith

/-!
# Machine words

The 64-bit word every value, constraint and gate is stated over, with the word operations of the
core crate.
-/

namespace Binius64.MachineWord

abbrev Word := BitVec 64

/-- The canonical representation of true: only the top bit is set. -/
def msbOne : Word := 0x8000000000000000

def allOne : Word := BitVec.allOnes 64

variable (w : Word)

def isMsbTrue : Bool :=
  (w &&& msbOne) != 0

def isMsbFalse : Bool :=
  !isMsbTrue w

def loHalf : BitVec 32 :=
  w.setWidth 32

def hiHalf : BitVec 32 :=
  (w >>> 32).setWidth 32

def ofHalves (lo hi : BitVec 32) : Word :=
  lo.setWidth 64 ||| (hi.setWidth 64 <<< 32)

def carryOut (lhs rhs sum : Word) : Word :=
  (lhs &&& rhs) ||| ((lhs ^^^ rhs) &&& ~~~sum)

def borrowOut (lhs rhs diff : Word) : Word :=
  (~~~lhs &&& rhs) ||| (~~~(lhs ^^^ rhs) &&& diff)

/-- 64-bit addition with a carry in; returns the sum and the carries out. -/
def iaddCinCout (lhs rhs cin : Word) : Word × Word :=
  let sum := lhs + rhs + cin
  (sum,carryOut lhs rhs sum)

/-- Independent 32-bit additions on the two halves. -/
def iadd32CinCout (lhs rhs cin : Word) : Word × Word :=
  let cinLo := (cin >>> 31) &&& 1
  let cinHi := (cin >>> 63) &&& 1
  let loSum := (loHalf lhs).setWidth 64 + (loHalf rhs).setWidth 64 + cinLo
  let hiSum := (hiHalf lhs).setWidth 64 + (hiHalf rhs).setWidth 64 + cinHi
  let sum := ofHalves (loSum.setWidth 32) (hiSum.setWidth 32)
  (sum,carryOut lhs rhs sum)

/-- Independent 32-bit additions without a carry in. -/
def iaddCout32 (lhs rhs : Word) : Word × Word :=
  iadd32CinCout lhs rhs 0

/-- 64-bit subtraction with a borrow in; returns the difference and the borrows out. -/
def isubBinBout (lhs rhs bin : Word) : Word × Word :=
  let diff := lhs - rhs - bin
  (diff,borrowOut lhs rhs diff)

/-- The unsigned 128-bit product, high word first. -/
def imul (lhs rhs : Word) : Word × Word :=
  let result := lhs.setWidth 128 * rhs.setWidth 128
  ((result >>> 64).setWidth 64,result.setWidth 64)

variable (n : ℕ)

/-- Arithmetic right shift. -/
def sar : Word :=
  w.sshiftRight n

/-- Right rotation. -/
def rotr : Word :=
  w.rotateRight n

/-- Left shift of each 32-bit half by the low five bits of the amount. -/
def sll32 : Word :=
  ofHalves (loHalf w <<< (n % 32)) (hiHalf w <<< (n % 32))

/-- Logical right shift of each 32-bit half. -/
def srl32 : Word :=
  ofHalves (loHalf w >>> (n % 32)) (hiHalf w >>> (n % 32))

/-- Arithmetic right shift of each 32-bit half. -/
def sra32 : Word :=
  ofHalves ((loHalf w).sshiftRight (n % 32)) ((hiHalf w).sshiftRight (n % 32))

/-- Right rotation of each 32-bit half. -/
def rotr32 : Word :=
  ofHalves ((loHalf w).rotateRight (n % 32)) ((hiHalf w).rotateRight (n % 32))

@[simp] theorem loHalf_bit (i : ℕ) : (loHalf w).getLsbD i = (decide (i < 32) && w.getLsbD i) := by
  simp only [loHalf,BitVec.getLsbD_setWidth]

@[simp] theorem hiHalf_bit (i : ℕ) : (hiHalf w).getLsbD i = (decide (i < 32) && w.getLsbD (32 + i)) := by
  simp only [hiHalf,BitVec.getLsbD_setWidth,BitVec.getLsbD_ushiftRight]

theorem ofHalves_bit (lo hi : BitVec 32) {i : ℕ} (h : i < 64) :
    (ofHalves lo hi).getLsbD i = if i < 32 then lo.getLsbD i else hi.getLsbD (i - 32) := by
  simp only [ofHalves,BitVec.getLsbD_or,BitVec.getLsbD_setWidth,BitVec.getLsbD_shiftLeft,h,
    decide_true,Bool.true_and]
  by_cases hi32 : i < 32
  · simp [hi32]
  · have hlo : lo.getLsbD i = false := BitVec.getLsbD_of_ge _ _ (by omega)
    have hlt : i - 32 < 64 := by omega
    simp [hi32,hlo,hlt]

theorem ofHalves_halves : ofHalves (loHalf w) (hiHalf w) = w := by
  apply BitVec.eq_of_getLsbD_eq
  intro i hi
  rw [ofHalves_bit _ _ hi,loHalf_bit,hiHalf_bit]
  by_cases h : i < 32
  · simp only [h,if_true,decide_true,Bool.true_and]
  · have hlt : i - 32 < 32 := by omega
    have he : 32 + (i - 32) = i := by omega
    simp only [h,if_false,hlt,decide_true,Bool.true_and,he]

theorem msbOne_bit {i : ℕ} (h : i < 64) : msbOne.getLsbD i = decide (i = 63) := by
  have hm : ∀ i : Fin 64, msbOne.getLsbD i = decide (i.val = 63) := by decide
  exact hm ⟨i,h⟩

theorem isMsbTrue_eq : isMsbTrue w = w.getLsbD 63 := by
  have hmask : w &&& msbOne = 0 ↔ w.getLsbD 63 = false := by
    constructor
    · intro h
      have hbit := congrArg (fun v : Word => v.getLsbD 63) h
      simpa only [BitVec.getLsbD_and,msbOne_bit (show 63 < 64 by omega),decide_true,
        Bool.and_true,BitVec.ofNat_eq_ofNat,BitVec.getLsbD_zero] using hbit
    · intro h
      apply BitVec.eq_of_getLsbD_eq
      intro i hi
      rw [BitVec.getLsbD_and,msbOne_bit hi]
      by_cases he : i = 63
      · subst he
        rw [h]
        rfl
      · simp only [he,decide_false,Bool.and_false,BitVec.ofNat_eq_ofNat,BitVec.getLsbD_zero]
  cases hb : w.getLsbD 63 with
  | true =>
    have hne : w &&& msbOne ≠ 0 := fun h => by
      rw [hmask,hb] at h
      cases h
    exact bne_iff_ne.mpr hne
  | false =>
    have hz := hmask.mpr hb
    rw [isMsbTrue,hz]
    rfl

end Binius64.MachineWord
