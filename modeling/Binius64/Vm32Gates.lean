import Binius64.LaneWords

/-!
# Gate helpers of the 32-bit machine

The circuit of the 32-bit machine selects a register, a memory version or an arithmetic result
by an index word through a tree of single-bit selections, shifts by an amount word through five
conditional shifts, and reads signs and comparisons through the top bit of a word.
-/

namespace Binius64.Vm32

open MachineWord (Word allOne isMsbTrue isMsbTrue_eq)
open WordGates List

/-- One level of the selection tree: of each pair the right one when the bit is set; a lone last
entry is kept. -/
def muxLevel (selBit : Word) : List Word → List Word
  | [] => []
  | [p] => [p]
  | l::r::rest => select selBit r l::muxLevel selBit rest

def numSelBits (n : ℕ) : ℕ := if n = 0 then 0 else Nat.log2 n + 1

/-- The entry at the index in the low bits of the selector. -/
def mux (inputs : List Word) (sel : Word) : Word :=
  if inputs.isEmpty then 0
  else ((range (numSelBits (inputs.length - 1))).foldl
    (fun level bit => muxLevel (shl sel (63 - bit)) level) inputs).headD 0

/-- Selection among eight words by the low three bits. -/
def mux8 (inputs : List Word) (sel : Word) : Word := mux inputs sel

theorem isMsbTrue_shl (w : Word) {n : ℕ} (h : n ≤ 63) :
    isMsbTrue (shl w (63 - n)) = w.getLsbD n := by
  have hshl : shl w (63 - n) = w <<< (63 - n) := rfl
  rw [isMsbTrue_eq,hshl,BitVec.getLsbD_shiftLeft]
  have hge : ¬63 < 63 - n := by omega
  rw [decide_eq_false hge,Nat.sub_sub_self h]
  rfl

theorem length_muxLevel (selBit : Word) {level : List Word} {m : ℕ} (h : level.length = 2 * m) :
    (muxLevel selBit level).length = m := by
  induction level using muxLevel.induct generalizing m with
  | case1 =>
    rw [length_nil] at h
    rw [muxLevel,length_nil]
    omega
  | case2 p =>
    rw [length_singleton] at h
    omega
  | case3 l r rest ih =>
    rw [length_cons,length_cons] at h
    rw [muxLevel,length_cons,ih (m := m - 1) (by omega)]
    omega

theorem getElem?_muxLevel (selBit : Word) {level : List Word} {m : ℕ} (h : level.length = 2 * m)
    (i : ℕ) : (muxLevel selBit level)[i]? = level[2 * i + (isMsbTrue selBit).toNat]? := by
  induction level using muxLevel.induct generalizing m i with
  | case1 => rfl
  | case2 p =>
    rw [length_singleton] at h
    omega
  | case3 l r rest ih =>
    rw [length_cons,length_cons] at h
    rw [muxLevel]
    cases i with
    | zero =>
      rw [getElem?_cons_zero,select]
      cases isMsbTrue selBit with
      | true => rfl
      | false => rfl
    | succ i =>
      have hidx : 2 * (i + 1) + (isMsbTrue selBit).toNat = 2 * i + (isMsbTrue selBit).toNat + 1 + 1 := by
        omega
      rw [getElem?_cons_succ,hidx,getElem?_cons_succ,getElem?_cons_succ]
      exact ih (m := m - 1) (by omega) i

theorem muxLevels_head (sel : Word) (k : ℕ) : ∀ (j : ℕ) (level : List Word),
    level.length = 2 ^ k → j + k ≤ 64 →
    ((range' j k).foldl (fun level bit => muxLevel (shl sel (63 - bit)) level) level)[0]? =
      level[sel.toNat / 2 ^ j % 2 ^ k]? := by
  induction k with
  | zero =>
    intro j level _ _
    rw [range'_zero,foldl_nil,pow_zero,Nat.mod_one]
  | succ k ih =>
    intro j level hlen hj
    rw [pow_succ,Nat.mul_comm] at hlen
    have hhalf : sel.toNat / 2 ^ (j + 1) = sel.toNat / 2 ^ j / 2 := by
      rw [pow_succ,Nat.div_div_eq_div_mul]
    have hbit : (sel.getLsbD j).toNat = sel.toNat / 2 ^ j % 2 := by
      rw [BitVec.getLsbD,Nat.testBit_eq_decide_div_mod_eq]
      rcases Nat.mod_two_eq_zero_or_one (sel.toNat / 2 ^ j) with hz | hz
      · rw [hz]
        rfl
      · rw [hz]
        rfl
    have hmod := Nat.mod_mul_right_div_self (sel.toNat / 2 ^ j) 2 (2 ^ k)
    have hlow := Nat.mod_mul_right_mod (sel.toNat / 2 ^ j) 2 (2 ^ k)
    rw [range'_succ,foldl_cons,ih (j + 1) _ (length_muxLevel _ hlen) (by omega),
      getElem?_muxLevel _ hlen,isMsbTrue_shl sel (by omega),hbit,hhalf]
    have hidx : 2 * (sel.toNat / 2 ^ j / 2 % 2 ^ k) + sel.toNat / 2 ^ j % 2 =
        sel.toNat / 2 ^ j % 2 ^ (k + 1) := by
      rw [pow_succ,Nat.mul_comm (2 ^ k),←hmod,←hlow]
      exact Nat.div_add_mod _ 2
    rw [hidx]

theorem mux_eq {inputs : List Word} {k : ℕ} (hlen : inputs.length = 2 ^ k) (hk : k ≤ 64)
    (sel : Word) : inputs[sel.toNat % 2 ^ k]? = some (mux inputs sel) := by
  have hbits : numSelBits (2 ^ k - 1) = k := by
    rw [numSelBits]
    cases k with
    | zero => rfl
    | succ k =>
      have hpos := Nat.two_pow_pos k
      have hlog : Nat.log2 (2 ^ (k + 1) - 1) = k := by
        rw [Nat.log2_eq_iff (by rw [pow_succ]; omega),pow_succ]
        omega
      rw [if_neg (by rw [pow_succ]; omega),hlog]
  have hne : inputs.isEmpty = false := by
    rw [isEmpty_eq_false_iff]
    rintro rfl
    have hpos := Nat.two_pow_pos k
    rw [length_nil] at hlen
    omega
  have hhead := muxLevels_head sel k 0 inputs hlen (by omega)
  rw [pow_zero,Nat.div_one] at hhead
  have hlt : sel.toNat % 2 ^ k < inputs.length := by
    rw [hlen]
    exact Nat.mod_lt _ (Nat.two_pow_pos k)
  rw [getElem?_eq_getElem hlt] at hhead
  rw [mux,hne,if_neg Bool.false_ne_true,hlen,hbits,range_eq_range',
    headD_eq_head?_getD,head?_eq_getElem?,hhead,Option.getD_some,
    getElem?_eq_getElem hlt]

def shiftStages : List (ℕ × ℕ) := [(0,1),(1,2),(2,4),(3,8),(4,16)]

/-- Left shift by the low five bits of the amount. -/
def shlVar (v shamt : Word) : Word :=
  shiftStages.foldl (fun (x : Word) (stage : ℕ × ℕ) => select (shl shamt (63 - stage.1)) (sll32 x stage.2) x) v

/-- Logical right shift by the low five bits of the amount. -/
def shrVar (v shamt : Word) : Word :=
  shiftStages.foldl (fun (x : Word) (stage : ℕ × ℕ) => select (shl shamt (63 - stage.1)) (srl32 x stage.2) x) v

/-- Arithmetic right shift by the low five bits of the amount; each stage fills with the sign it
finds. -/
def sarVar (v shamt : Word) : Word :=
  shiftStages.foldl (fun (x : Word) (stage : ℕ × ℕ) =>
    let mask := (allOne <<< (32 - stage.2)) &&& 0xffffffff
    let fill := select (shl x 32) mask 0
    select (shl shamt (63 - stage.1)) (bor (srl32 x stage.2) fill) x) v

/-- The low bits as a signed number in the 32-bit lane. -/
def sextW (raw : Word) (bits : ℕ) : Word :=
  band (sar (shl raw (64 - bits)) (64 - bits)) 0xffffffff

def bool01 (cond : Word) : Word := select cond 1 0

def sltSigned (a b : Word) : Word := bool01 (icmpUlt (bxor a 0x80000000) (bxor b 0x80000000))

def sltUnsigned (a b : Word) : Word := bool01 (icmpUlt a b)

end Binius64.Vm32
