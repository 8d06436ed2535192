import Mathlib.Data.BitVec
import Mathlib.Data.Nat.Digits.Lemmas

/-!
# Limb vectors and columns of limbs

A number spelled by words of one width, least significant first, and a number spelled by columns
that each hold several words of the same weight.
-/

namespace Binius64.LimbVectors

open List

variable {w : ℕ}

def limbValue (limbs : List (BitVec w)) : ℕ := Nat.ofDigits (2 ^ w) (limbs.map BitVec.toNat)

variable (column : List (BitVec w))

def columnSum : ℕ := (column.map BitVec.toNat).sum

variable (columns : List (List (BitVec w)))

def columnsValue : ℕ :=
  Nat.ofDigits (2 ^ w) (columns.map columnSum)

@[simp] theorem limbValue_nil : limbValue ([] : List (BitVec w)) = 0 := rfl

@[simp] theorem limbValue_cons (limb : BitVec w) (limbs : List (BitVec w)) :
    limbValue (limb::limbs) = limb.toNat + 2 ^ w * limbValue limbs := by
  unfold limbValue
  rw [map_cons,Nat.ofDigits_cons]

theorem limbValue_append (lo hi : List (BitVec w)) :
    limbValue (lo ++ hi) = limbValue lo + (2 ^ w) ^ lo.length * limbValue hi := by
  unfold limbValue
  rw [map_append,Nat.ofDigits_append,length_map]

@[simp] theorem limbValue_replicate_zero (n : ℕ) : limbValue (replicate n (0 : BitVec w)) = 0 := by
  induction n with
  | zero => rfl
  | succ n ih =>
    rw [replicate_succ,limbValue_cons,ih,Nat.mul_zero,Nat.add_zero]
    exact BitVec.toNat_zero

variable (limbs : List (BitVec w)) {n : ℕ}

theorem limbValue_lt : limbValue limbs < (2 ^ w) ^ limbs.length := by
  induction limbs with
  | nil => exact Nat.one_pos
  | cons limb limbs ih =>
    have hlimb := limb.isLt
    have hscaled : 2 ^ w * (limbValue limbs + 1) ≤ 2 ^ w * (2 ^ w) ^ limbs.length :=
      Nat.mul_le_mul_left _ ih
    rw [limbValue_cons,length_cons,Nat.pow_succ']
    rw [Nat.mul_add,Nat.mul_one] at hscaled
    omega

theorem limbValue_take_drop (h : n ≤ limbs.length) :
    limbValue (limbs.take n) + (2 ^ w) ^ n * limbValue (limbs.drop n) = limbValue limbs := by
  have happend := limbValue_append (limbs.take n) (limbs.drop n)
  rw [take_append_drop,length_take_of_le h] at happend
  exact happend.symm

theorem limbValue_drop (h : n ≤ limbs.length) :
    limbValue (limbs.drop n) = limbValue limbs / (2 ^ w) ^ n := by
  have hlow := limbValue_lt (limbs.take n)
  rw [length_take_of_le h] at hlow
  rw [←limbValue_take_drop limbs h,Nat.add_mul_div_left _ _ (Nat.zero_lt_of_lt hlow),
    Nat.div_eq_of_lt hlow,Nat.zero_add]

theorem limbValue_take (h : n ≤ limbs.length) :
    limbValue (limbs.take n) = limbValue limbs % (2 ^ w) ^ n := by
  have hlow := limbValue_lt (limbs.take n)
  rw [length_take_of_le h] at hlow
  rw [←limbValue_take_drop limbs h,Nat.add_mul_mod_self_left,Nat.mod_eq_of_lt hlow]

theorem limbValue_inj {a b : List (BitVec w)} (hlen : a.length = b.length)
    (h : limbValue a = limbValue b) : a = b := by
  induction a generalizing b with
  | nil => exact (length_eq_zero_iff.mp hlen.symm).symm
  | cons x a ih =>
    cases b with
    | nil => cases hlen
    | cons y b =>
      have hx := x.isLt
      have hy := y.isLt
      rw [limbValue_cons,limbValue_cons] at h
      have hlow := congrArg (· % 2 ^ w) h
      have hhigh := congrArg (· / 2 ^ w) h
      simp only [Nat.add_mul_mod_self_left,Nat.mod_eq_of_lt hx,Nat.mod_eq_of_lt hy] at hlow
      simp only [Nat.add_mul_div_left _ _ (Nat.two_pow_pos w),Nat.div_eq_of_lt hx,
        Nat.div_eq_of_lt hy,Nat.zero_add] at hhigh
      rw [BitVec.eq_of_toNat_eq hlow,ih (Nat.succ.inj hlen) hhigh]

@[simp] theorem columnSum_nil : columnSum ([] : List (BitVec w)) = 0 := rfl

@[simp] theorem columnSum_cons (limb : BitVec w) (column : List (BitVec w)) :
    columnSum (limb::column) = limb.toNat + columnSum column := by
  unfold columnSum
  rw [map_cons,sum_cons]

theorem columnSum_append (a b : List (BitVec w)) :
    columnSum (a ++ b) = columnSum a + columnSum b := by
  unfold columnSum
  rw [map_append,sum_append]

@[simp] theorem columnSum_replicate_zero (n : ℕ) :
    columnSum (replicate n (0 : BitVec w)) = 0 := by
  induction n with
  | zero => rfl
  | succ n ih =>
    rw [replicate_succ,columnSum_cons,ih,Nat.add_zero]
    exact BitVec.toNat_zero

theorem columnSum_reverse : columnSum column.reverse = columnSum column := by
  unfold columnSum
  rw [map_reverse,sum_reverse]

@[simp] theorem columnsValue_nil : columnsValue ([] : List (List (BitVec w))) = 0 := rfl

@[simp] theorem columnsValue_cons :
    columnsValue (column::columns) = columnSum column + 2 ^ w * columnsValue columns := by
  unfold columnsValue
  rw [map_cons,Nat.ofDigits_cons]

theorem columnsValue_append (lo hi : List (List (BitVec w))) :
    columnsValue (lo ++ hi) = columnsValue lo + (2 ^ w) ^ lo.length * columnsValue hi := by
  unfold columnsValue
  rw [map_append,Nat.ofDigits_append,length_map]

@[simp] theorem columnsValue_replicate_nil (n : ℕ) :
    columnsValue (replicate n ([] : List (BitVec w))) = 0 := by
  induction n with
  | zero => rfl
  | succ n ih => rw [replicate_succ,columnsValue_cons,ih,columnSum_nil,Nat.mul_zero]

theorem columnsValue_modify {k : ℕ} (h : k < columns.length) (limb : BitVec w) :
    columnsValue (columns.modify k (· ++ [limb])) = columnsValue columns + (2 ^ w) ^ k * limb.toNat := by
  induction columns generalizing k with
  | nil => cases h
  | cons column columns ih =>
    cases k with
    | zero =>
      rw [modify_zero_cons,columnsValue_cons,columnsValue_cons,columnSum_append,
        columnSum_cons,columnSum_nil]
      ring
    | succ k =>
      rw [modify_succ_cons,columnsValue_cons,columnsValue_cons,
        ih (Nat.lt_of_succ_lt_succ h)]
      ring

end Binius64.LimbVectors
