import Mathlib.Algebra.CharP.Two
import Mathlib.Data.Nat.Bitwise
import Mathlib.Tactic.Ring

/-!
# Ripple carry over bits

Numbers as lists of bits, the lowest first.
-/

namespace Binius64.RippleCarry

open List

def bitsVal : List Bool → ℕ
  | [] => 0
  | b :: bs => b.toNat + 2 * bitsVal bs

def lowBits : ℕ → ℕ → List Bool
  | 0,_ => []
  | n + 1,x => decide (x % 2 = 1) :: lowBits n (x / 2)

@[simp] theorem lowBits_length (n x : ℕ) : (lowBits n x).length = n := by
  induction n generalizing x with
  | zero => rfl
  | succ n ih => rw [lowBits,length_cons,ih]

variable (bs : List Bool)

theorem bitsVal_lt : bitsVal bs < 2 ^ bs.length := by
  induction bs with
  | nil => exact Nat.one_pos
  | cons b bs ih =>
    have hb := b.toNat_le
    rw [bitsVal,length_cons,pow_succ]
    omega

theorem lowBits_bitsVal (k : ℕ) : lowBits bs.length (bitsVal bs + 2 ^ bs.length * k) = bs := by
  induction bs with
  | nil => rfl
  | cons b bs ih =>
    have hsplit : bitsVal (b :: bs) + 2 ^ (b :: bs).length * k =
        b.toNat + 2 * (bitsVal bs + 2 ^ bs.length * k) := by
      rw [bitsVal,length_cons,pow_succ]
      ring
    have hb := b.toNat_le
    have hlow : (b.toNat + 2 * (bitsVal bs + 2 ^ bs.length * k)) % 2 = b.toNat := by omega
    have hhigh : (b.toNat + 2 * (bitsVal bs + 2 ^ bs.length * k)) / 2 =
        bitsVal bs + 2 ^ bs.length * k := by omega
    rw [hsplit,length_cons,lowBits,hlow,hhigh,ih]
    refine congrArg (· :: bs) ?_
    cases b with
    | false => rfl
    | true => rfl

theorem bitsVal_lowBits (n x : ℕ) : bitsVal (lowBits n x) = x % 2 ^ n := by
  induction n generalizing x with
  | zero => rw [lowBits,bitsVal,pow_zero,Nat.mod_one]
  | succ n ih =>
    have hbit : (decide (x % 2 = 1)).toNat = x % 2 := by
      rcases Nat.mod_two_eq_zero_or_one x with h | h
      · rw [h]
        rfl
      · rw [h]
        rfl
    rw [lowBits,bitsVal,ih,hbit,pow_succ',Nat.mod_mul]

theorem lowBits_mod (n x : ℕ) : lowBits n (x % 2 ^ n) = lowBits n x := by
  have h := lowBits_bitsVal (lowBits n x) 0
  rw [mul_zero,add_zero,bitsVal_lowBits,lowBits_length] at h
  exact h

theorem lowBits_getElem {n i : ℕ} (x : ℕ) (hi : i < (lowBits n x).length) :
    (lowBits n x)[i] = x.testBit i := by
  induction n generalizing x i with
  | zero => cases hi
  | succ n ih =>
    cases i with
    | zero => exact (Nat.testBit_zero x).symm
    | succ i =>
      rw [Nat.testBit_succ]
      exact ih (x / 2) (Nat.lt_of_succ_lt_succ hi)

theorem testBit_bitsVal (i : ℕ) : (bitsVal bs).testBit i = bs.getD i false := by
  induction bs generalizing i with
  | nil => exact Nat.zero_testBit i
  | cons b bs ih =>
    have hb := b.toNat_le
    cases i with
    | zero =>
      have hlow : (b.toNat + 2 * bitsVal bs) % 2 = b.toNat := by omega
      rw [bitsVal,Nat.testBit_zero,hlow]
      cases b with
      | false => rfl
      | true => rfl
    | succ i =>
      have hhigh : (b.toNat + 2 * bitsVal bs) / 2 = bitsVal bs := by omega
      rw [bitsVal,Nat.testBit_succ,hhigh,ih,getD_cons_succ]

/-- The exclusive sum of three bits and their majority. -/
def fullAdder (x y c : Bool) : Bool × Bool := (x ^^ y ^^ c,x && y || x && c || y && c)

theorem fullAdder_val (x y c : Bool) :
    (fullAdder x y c).1.toNat + 2 * (fullAdder x y c).2.toNat = x.toNat + y.toNat + c.toNat := by
  cases x <;> cases y <;> cases c <;> rfl

/-- A chain of full adders: the digits and the last carry. -/
def ripple : List (Bool × Bool) → Bool → List Bool × Bool
  | [],c => ([],c)
  | (x,y) :: rest,c =>
    let digit := fullAdder x y c
    let (out,last) := ripple rest digit.2
    (digit.1 :: out,last)

variable (xys : List (Bool × Bool))

theorem ripple_length (c : Bool) : (ripple xys c).1.length = xys.length := by
  induction xys generalizing c with
  | nil => rfl
  | cons xy xys ih =>
    rw [ripple,length_cons,length_cons,ih]

theorem ripple_val (c : Bool) : bitsVal (ripple xys c).1 + 2 ^ xys.length * (ripple xys c).2.toNat =
      bitsVal (xys.map Prod.fst) + bitsVal (xys.map Prod.snd) + c.toNat := by
  induction xys generalizing c with
  | nil =>
    rw [ripple,map_nil,map_nil,bitsVal,length_nil,pow_zero,one_mul]
  | cons xy xys ih =>
    have hdigit := fullAdder_val xy.1 xy.2 c
    have hrest := ih (fullAdder xy.1 xy.2 c).2
    rw [ripple,map_cons,map_cons,bitsVal,bitsVal,bitsVal,length_cons,pow_succ']
    dsimp only
    rw [mul_assoc]
    omega

theorem ripple_zip {xs ys : List Bool} (h : xs.length = ys.length) (c : Bool) :
    bitsVal (ripple (xs.zip ys) c).1 + 2 ^ xs.length * (ripple (xs.zip ys) c).2.toNat =
      bitsVal xs + bitsVal ys + c.toNat := by
  have hval := ripple_val (xs.zip ys) c
  rw [map_fst_zip h.le,map_snd_zip h.ge,length_zip,←h,min_self] at hval
  exact hval

theorem ripple_digits {xs ys : List Bool} (h : xs.length = ys.length) (c : Bool) :
    (ripple (xs.zip ys) c).1 = lowBits xs.length (bitsVal xs + bitsVal ys + c.toNat) := by
  have hlen : (ripple (xs.zip ys) c).1.length = xs.length := by
    rw [ripple_length,length_zip,←h,min_self]
  rw [←ripple_zip h c,←hlen]
  exact (lowBits_bitsVal _ _).symm

theorem ripple_carry {xs ys : List Bool} (h : xs.length = ys.length) (c : Bool) :
    (ripple (xs.zip ys) c).2 = decide (2 ^ xs.length ≤ bitsVal xs + bitsVal ys + c.toNat) := by
  have hval := ripple_zip h c
  have hlen : (ripple (xs.zip ys) c).1.length = xs.length := by
    rw [ripple_length,length_zip,←h,min_self]
  have hlt := bitsVal_lt (ripple (xs.zip ys) c).1
  rw [hlen] at hlt
  cases hc : (ripple (xs.zip ys) c).2 with
  | false =>
    rw [hc,Bool.toNat_false,mul_zero,add_zero] at hval
    exact (decide_eq_false (by omega)).symm
  | true =>
    rw [hc,Bool.toNat_true,mul_one] at hval
    exact (decide_eq_true (by omega)).symm

variable {R : Type} [CommRing R]

def bit (b : Bool) : R := if b then 1 else 0

theorem bit_sum [CharP R 2] (x y c : Bool) :
    (bit x : R) + bit y + bit c = bit (fullAdder x y c).1 := by
  have htwo : (1 : R) + 1 = 0 := CharTwo.add_self_eq_zero 1
  cases x <;> cases y <;> cases c <;> simp [bit,fullAdder,htwo]

theorem bit_carry [CharP R 2] (x y c : Bool) :
    (bit x : R) * bit y + bit x * bit c + bit y * bit c = bit (fullAdder x y c).2 := by
  have htwo : (1 : R) + 1 = 0 := CharTwo.add_self_eq_zero 1
  cases x <;> cases y <;> cases c <;> simp [bit,fullAdder,htwo]

theorem bit_mul (x y : Bool) : (bit x : R) * bit y = bit (x && y) := by
  cases x <;> cases y <;> simp [bit]

theorem map_bit_decide [DecidableEq R] [Nontrivial R] {vs : List R} (h : ∀ v ∈ vs, v = 0 ∨ v = 1) :
    (vs.map fun v => decide (v = 1)).map bit = vs := by
  rw [map_map]
  refine (map_congr_left fun v hv => ?_).trans (map_id vs)
  rcases h v hv with h0 | h1
  · rw [Function.comp_apply,h0,decide_eq_false zero_ne_one]
    rfl
  · rw [Function.comp_apply,h1,decide_eq_true rfl]
    rfl

end Binius64.RippleCarry
