import Mathlib.Data.BitVec
import Mathlib.Tactic.Ring

/-!
# Bytes of words

The bytes of a word, lowest first.
-/

namespace Binius64.WordBytes

open List

variable {w : ℕ}

abbrev Byte := BitVec 8

variable (v : BitVec w)

/-- The byte of a word at a position, zero past its end. -/
def byteAt (k : ℕ) : Byte := (v >>> (8 * k)).setWidth 8

/-- The word made of the first bytes of a sequence. -/
def ofBytes (w : ℕ) (f : ℕ → Byte) : ℕ → BitVec w
  | 0 => 0
  | n + 1 => ofBytes w f n ||| (f n).setWidth w <<< (8 * n)

theorem byteAt_bit (k i : ℕ) : (byteAt v k).getLsbD i = (decide (i < 8) && v.getLsbD (8 * k + i)) := by
  rw [byteAt,BitVec.getLsbD_setWidth,BitVec.getLsbD_ushiftRight]

theorem eq_of_byteAt {n : ℕ} (hw : w ≤ 8 * n) {u v : BitVec w}
    (h : ∀ k < n, byteAt u k = byteAt v k) : u = v := by
  apply BitVec.eq_of_getLsbD_eq
  intro i hi
  have hbyte := congrArg (fun b : Byte => b.getLsbD (i % 8)) (h (i / 8) (by omega))
  have hlt : i % 8 < 8 := Nat.mod_lt i (by decide)
  simp only [byteAt_bit,hlt,decide_true,Bool.true_and,Nat.div_add_mod] at hbyte
  exact hbyte

@[simp] theorem byteAt_zero (k : ℕ) : byteAt (0 : BitVec w) k = 0 := by
  unfold byteAt
  simp

theorem byteAt_and (u v : BitVec w) (k : ℕ) : byteAt (u &&& v) k = byteAt u k &&& byteAt v k := by
  rw [byteAt,BitVec.ushiftRight_and_distrib,BitVec.setWidth_and]
  rfl

theorem byteAt_xor (u v : BitVec w) (k : ℕ) : byteAt (u ^^^ v) k = byteAt u k ^^^ byteAt v k := by
  rw [byteAt,BitVec.ushiftRight_xor_distrib,BitVec.setWidth_xor]
  rfl

theorem byteAt_or (u v : BitVec w) (k : ℕ) : byteAt (u ||| v) k = byteAt u k ||| byteAt v k := by
  rw [byteAt,BitVec.ushiftRight_or_distrib,BitVec.setWidth_or]
  rfl

theorem byteAt_ushiftRight (s k : ℕ) : byteAt (v >>> (8 * s)) k = byteAt v (s + k) := by
  rw [byteAt,byteAt,Nat.mul_add,BitVec.shiftRight_add]

theorem byteAt_shiftLeft (s : ℕ) {k : ℕ} (h : 8 * k + 8 ≤ w) :
    byteAt (v <<< (8 * s)) k = if k < s then 0 else byteAt v (k - s) := by
  apply BitVec.eq_of_getLsbD_eq
  intro i hi
  have hin : 8 * k + i < w := by omega
  rw [byteAt_bit,BitVec.getLsbD_shiftLeft,decide_eq_true hi,decide_eq_true hin,Bool.true_and,Bool.true_and]
  by_cases hlt : k < s
  · have hbelow : 8 * k + i < 8 * s := by omega
    rw [if_pos hlt,decide_eq_true hbelow]
    simp
  · have hnot : ¬8 * k + i < 8 * s := by omega
    have hpos : 8 * k + i - 8 * s = 8 * (k - s) + i := by omega
    rw [if_neg hlt,decide_eq_false hnot,hpos,byteAt_bit,decide_eq_true hi]
    rfl

theorem byteAt_setWidth {w' : ℕ} {k : ℕ} (h : 8 * k + 8 ≤ w') :
    byteAt (v.setWidth w') k = byteAt v k := by
  apply BitVec.eq_of_getLsbD_eq
  intro i hi
  have hin : 8 * k + i < w' := by omega
  rw [byteAt_bit,byteAt_bit,BitVec.getLsbD_setWidth,decide_eq_true hin,Bool.true_and]

theorem byteAt_ofBytes (f : ℕ → Byte) {k : ℕ} (h : 8 * k + 8 ≤ w) (n : ℕ) :
    byteAt (ofBytes w f n) k = if k < n then f k else 0 := by
  induction n with
  | zero => exact byteAt_zero k
  | succ n ih =>
    have hbyte : byteAt ((f n).setWidth w <<< (8 * n)) k = if k = n then f n else 0 := by
      rw [byteAt_shiftLeft _ n h]
      by_cases hlt : k < n
      · rw [if_pos hlt,if_neg (by omega)]
      · rw [if_neg hlt,byteAt_setWidth _ (by omega)]
        by_cases heq : k = n
        · rw [if_pos heq,heq,Nat.sub_self]
          exact BitVec.setWidth_eq (f n)
        · have hpast : (f n) >>> (8 * (k - n)) = 0 := BitVec.ushiftRight_eq_zero (by omega)
          rw [if_neg heq,byteAt,hpast]
          rfl
    rw [ofBytes,byteAt_or,ih,hbyte]
    rcases Nat.lt_trichotomy k n with hlt | heq | hgt
    · rw [if_pos hlt,if_neg (by omega),if_pos (by omega)]
      simp
    · rw [if_neg (by omega),if_pos heq,if_pos (by omega),heq]
      simp
    · rw [if_neg (by omega),if_neg (by omega),if_neg (by omega)]
      simp

variable (bytes : List Byte)

/-- The number that bytes spell, highest first. -/
def beValue : ℕ := bytes.foldl (fun acc b => acc * 256 + b.toNat) 0

theorem foldl_beValue (acc : ℕ) :
    bytes.foldl (fun acc b => acc * 256 + b.toNat) acc = acc * 256 ^ bytes.length + beValue bytes := by
  induction bytes generalizing acc with
  | nil => exact (Nat.mul_one acc).symm
  | cons b bytes ih =>
    have hcons : beValue (b :: bytes) = b.toNat * 256 ^ bytes.length + beValue bytes := by
      rw [beValue,foldl_cons,Nat.zero_mul,Nat.zero_add,ih]
    rw [foldl_cons,ih,hcons,length_cons,pow_succ']
    ring

theorem beValue_append (hi lo : List Byte) :
    beValue (hi ++ lo) = beValue hi * 256 ^ lo.length + beValue lo := by
  rw [beValue,foldl_append]
  exact foldl_beValue lo _

theorem beValue_singleton (b : Byte) : beValue [b] = b.toNat := by
  rw [beValue,foldl_cons,Nat.zero_mul,Nat.zero_add,foldl_nil]

theorem beValue_lt : beValue bytes < 256 ^ bytes.length := by
  induction bytes with
  | nil => exact Nat.one_pos
  | cons b bytes ih =>
    have hscaled := Nat.mul_le_mul_right (256 ^ bytes.length) (show b.toNat + 1 ≤ 256 from b.isLt)
    rw [Nat.succ_mul] at hscaled
    rw [← singleton_append,beValue_append,beValue_singleton,singleton_append,length_cons,pow_succ']
    omega

variable (x : BitVec w)

/-- The first bytes of a word, highest first. -/
def beBytes (n : ℕ) : List Byte := (range n).map fun k => byteAt x (n - 1 - k)

@[simp] theorem length_beBytes (n : ℕ) : (beBytes x n).length = n := by
  rw [beBytes,length_map,length_range]

theorem toNat_byteAt (k : ℕ) : (byteAt x k).toNat = x.toNat / 256 ^ k % 256 := by
  rw [byteAt,BitVec.toNat_setWidth,BitVec.toNat_ushiftRight,Nat.shiftRight_eq_div_pow,pow_mul]
  rfl

theorem beValue_beBytes (n : ℕ) : beValue (beBytes x n) = x.toNat % 256 ^ n := by
  induction n with
  | zero => exact (Nat.mod_one _).symm
  | succ n ih =>
    have hhead : beBytes x (n + 1) = [byteAt x n] ++ beBytes x n := by
      rw [beBytes,range_succ_eq_map,map_cons,map_map]
      refine congrArg _ (map_congr_left fun k _ => ?_)
      exact congrArg (byteAt x) (by omega)
    rw [hhead,beValue_append,beValue_singleton,toNat_byteAt,ih,length_beBytes,Nat.mod_pow_succ,Nat.mul_comm,Nat.add_comm]

end Binius64.WordBytes
