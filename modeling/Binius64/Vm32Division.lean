import Binius64.Vm32Circuit

/-!
# Division by advice

The circuit divides by checking a quotient the prover supplies.
-/

namespace Binius64.Vm32

open MachineWord (Word allOne isMsbTrue isMsbTrue_eq)
open WordGates LaneWords
open BitVec (allOnes eq_of_toNat_eq getLsbD_setWidth getLsbD_xor intMin toNat_inj toNat_mul
  toNat_setWidth toNat_sub toNat_udiv)

theorem remainder_lt_iff {x y q : ℕ} (hx : x < 2 ^ 32) (hy : 0 < y) (hylt : y < 2 ^ 32) :
    (x + 2 ^ 32 - q * y % 2 ^ 32) % 2 ^ 32 < y ↔ ∃ k, q = (x + k * 2 ^ 32) / y := by
  constructor
  · intro hlt
    have hmod := Nat.mod_lt (q * y) (Nat.two_pow_pos 32)
    refine ⟨(q * y + (x + 2 ^ 32 - q * y % 2 ^ 32) % 2 ^ 32) / 2 ^ 32,?_⟩
    have hsum : x + (q * y + (x + 2 ^ 32 - q * y % 2 ^ 32) % 2 ^ 32) / 2 ^ 32 * 2 ^ 32 =
        q * y + (x + 2 ^ 32 - q * y % 2 ^ 32) % 2 ^ 32 := by
      omega
    rw [hsum,Nat.mul_comm q y,Nat.mul_add_div hy]
    rw [Nat.mul_comm q y] at hlt
    rw [Nat.div_eq_of_lt hlt,Nat.add_zero]
  · rintro ⟨k,hk⟩
    have hdiv := Nat.div_add_mod (x + k * 2 ^ 32) y
    have hrem := Nat.mod_lt (x + k * 2 ^ 32) hy
    rw [←hk,Nat.mul_comm y q] at hdiv
    have hvalue : (x + 2 ^ 32 - q * y % 2 ^ 32) % 2 ^ 32 = (x + k * 2 ^ 32) % y := by
      omega
    rw [hvalue]
    exact hrem

theorem imul_hi_eq_zero (q y : Word) : (imul q y).1 = 0 ↔ q.toNat * y.toNat < 2 ^ 64 := by
  have hq := q.isLt
  have hy := y.isLt
  have hprod : (q.setWidth 128 * y.setWidth 128).toNat = q.toNat * y.toNat := by
    rw [toNat_mul,toNat_setWidth,toNat_setWidth,
      Nat.mod_eq_of_lt (hq.trans (by decide)),Nat.mod_eq_of_lt (hy.trans (by decide))]
    apply Nat.mod_eq_of_lt
    calc q.toNat * y.toNat < 2 ^ 64 * 2 ^ 64 := Nat.mul_lt_mul'' hq hy
      _ = 2 ^ 128 := by decide
  have hlt : q.toNat * y.toNat < 2 ^ 64 * 2 ^ 64 := Nat.mul_lt_mul'' hq hy
  rw [imul,MachineWord.imul,←toNat_inj]
  dsimp only
  rw [toNat_setWidth,BitVec.toNat_ushiftRight,hprod,Nat.shiftRight_eq_div_pow,
    BitVec.ofNat_eq_ofNat,BitVec.toNat_ofNat,Nat.zero_mod,
    Nat.mod_eq_of_lt (Nat.div_lt_of_lt_mul hlt),Nat.div_eq_zero_iff]
  omega

theorem setWidth_imul (q y : Word) :
    (imul q y).2.setWidth 32 = q.setWidth 32 * y.setWidth 32 := by
  apply eq_of_toNat_eq
  rw [imul,MachineWord.imul]
  dsimp only
  rw [toNat_setWidth,toNat_setWidth,toNat_mul,toNat_mul,
    toNat_setWidth,toNat_setWidth,toNat_setWidth,toNat_setWidth,
    Nat.mod_mod_of_dvd _ (show 2 ^ 64 ∣ 2 ^ 128 by decide),
    Nat.mod_mod_of_dvd _ (show 2 ^ 32 ∣ 2 ^ 64 by decide),←Nat.mul_mod,
    Nat.mod_eq_of_lt (q.isLt.trans (by decide)),Nat.mod_eq_of_lt (y.isLt.trans (by decide))]

theorem neg32_eq (v : Word) : neg32 v = ofU32 (-v.setWidth 32) := by
  have hnot : (bnot v).setWidth 32 = ~~~v.setWidth 32 := by
    apply BitVec.eq_of_getLsbD_eq
    intro i hi
    rw [bnot,bxor,allOne,getLsbD_setWidth,getLsbD_xor,BitVec.getLsbD_allOnes,
      BitVec.getLsbD_not,getLsbD_setWidth,decide_eq_true hi,
      decide_eq_true (show i < 64 by omega),Bool.xor_true,Bool.true_and,Bool.true_and,Bool.true_and]
  have hone : (1 : Word).setWidth 32 = 1#32 := rfl
  rw [neg32,band_mask,setWidth_iadd32,hnot,hone,BitVec.neg_eq_not_add]

theorem isMsbTrue_sign (v : BitVec 32) : isMsbTrue (sign (ofU32 v)) = v.msb := by
  have hbit : (band (srl32 (ofU32 v) 31) 1).getLsbD 0 = v.msb := by
    rw [srl32_ofU32 v (by decide),band,BitVec.getLsbD_and,ofU32,getLsbD_setWidth,
      BitVec.getLsbD_ushiftRight,BitVec.msb_eq_getLsbD_last]
    simp
  rw [sign,←hbit]
  exact isMsbTrue_shl (n := 0) _ (by decide)

theorem abs32_ofU32 (v : BitVec 32) : abs32 (ofU32 v) = ofU32 v.abs := by
  rw [abs32,select,isMsbTrue_sign,neg32_eq,setWidth_ofU32,BitVec.abs_eq]
  cases v.msb with
  | true => rfl
  | false => rfl

theorem remainder_ofU32 (x y : BitVec 32) (q : Word) :
    remainder (ofU32 x) (ofU32 y) q = ofU32 (x - q.setWidth 32 * y) := by
  rw [remainder,band_isub,setWidth_ofU32,band_mask,setWidth_ofU32,setWidth_imul,setWidth_ofU32]

theorem toNat_sub_mul (x y : BitVec 32) (q : Word) :
    (x - q.setWidth 32 * y).toNat = (x.toNat + 2 ^ 32 - q.toNat * y.toNat % 2 ^ 32) % 2 ^ 32 := by
  have hmul : (q.setWidth 32 * y).toNat = q.toNat * y.toNat % 2 ^ 32 := by
    rw [toNat_mul,toNat_setWidth,Nat.mod_mul_mod]
  have hlt := (q.setWidth 32 * y).isLt
  rw [toNat_sub,hmul] at *
  omega

theorem ofU32_eq_zero {v : BitVec 32} : ofU32 v = 0 ↔ v = 0 := by
  have hz : (0 : Word) = ofU32 0 := rfl
  rw [hz,ofU32_inj]

theorem quotientOk_zero (x : BitVec 32) (q : Word) :
    isMsbTrue (quotientOk (ofU32 x) (ofU32 0) q) = true ↔ q = ofU32 (allOnes 32) := by
  have hzero : isMsbTrue (icmpEq (ofU32 0) 0) = true := by
    rw [isMsbTrue_icmpEq]
    rfl
  rw [quotientOk,select_of_true hzero,isMsbTrue_icmpEq,decide_eq_true_eq]
  rfl

theorem quotientOk_iff (x : BitVec 32) {y : BitVec 32} (hy : y ≠ 0) (q : Word) :
    isMsbTrue (quotientOk (ofU32 x) (ofU32 y) q) = true ↔
      q.toNat * y.toNat < 2 ^ 64 ∧ ∃ k, q.toNat = (x.toNat + k * 2 ^ 32) / y.toNat := by
  have hzero : isMsbTrue (icmpEq (ofU32 y) 0) = false := by
    rw [isMsbTrue_icmpEq,decide_eq_false]
    rwa [ofU32_eq_zero]
  have hpos : 0 < y.toNat := Nat.pos_of_ne_zero fun h => hy (eq_of_toNat_eq h)
  rw [quotientOk,select_of_false hzero,isMsbTrue_band,isMsbTrue_icmpEq,isMsbTrue_icmpUlt,
    remainder_ofU32,toNat_ofU32,toNat_ofU32,toNat_sub_mul,Bool.and_eq_true,decide_eq_true_eq,
    decide_eq_true_eq,imul_hi_eq_zero,toNat_ofU32,remainder_lt_iff x.isLt hpos y.isLt]

/-- The instructions the division constraint guards. -/
inductive DivOp where
  | div
  | divu
  | rem
  | remu
deriving DecidableEq

namespace DivOp

def funct3 : DivOp → Word
  | div => 0x4
  | divu => 0x5
  | rem => 0x6
  | remu => 0x7

def signed : DivOp → Bool
  | div | rem => true
  | divu | remu => false

/-- The number an operand contributes to the division. -/
def magnitude (op : DivOp) (v : BitVec 32) : BitVec 32 := if op.signed then v.abs else v

def quotient (op : DivOp) (x y : BitVec 32) : BitVec 32 :=
  if y = 0 then allOnes 32 else op.magnitude x / op.magnitude y

def result (op : DivOp) (x y : BitVec 32) : BitVec 32 :=
  match op with
  | div => if y = 0 then allOnes 32 else BitVec.ofInt 32 (x.toInt.tdiv y.toInt)
  | divu => if y = 0 then allOnes 32 else BitVec.ofNat 32 (x.toNat / y.toNat)
  | rem => if y = 0 then x else BitVec.ofInt 32 (x.toInt.tmod y.toInt)
  | remu => if y = 0 then x else BitVec.ofNat 32 (x.toNat % y.toNat)

end DivOp

structure Decodes (inst : Word) (op : DivOp) : Prop where
  opcode : opcode inst = opOp
  funct7 : funct7 inst = 1
  funct3 : funct3 inst = op.funct3

/-- The quotient the interpreter takes as advice: of the signed absolute values, or of the values
as they are. -/
def divAdvice (funct3 : Word) (x y : BitVec 32) : BitVec 32 :=
  let ax := x.abs
  let ay := y.abs
  if funct3 = 0x4 then
    if ay = 0 then allOnes 32 else BitVec.ofInt 32 (ax.toInt.tdiv ay.toInt)
  else if funct3 = 0x5 then
    if y = 0 then allOnes 32 else x / y
  else if funct3 = 0x6 then
    if ay = 0 then allOnes 32 else BitVec.ofInt 32 (ax.toInt.tdiv ay.toInt)
  else if funct3 = 0x7 then
    if y = 0 then allOnes 32 else x / y
  else 0

/-- The advice the interpreter records for a cycle. -/
def mQ (inst : Word) (x y : BitVec 32) : BitVec 32 :=
  let fields := fnRv32 inst
  if fields.opcode = opOp then
    if fields.funct7 = 0x01 then divAdvice fields.funct3 x y else 0
  else 0

theorem Decodes.mQ_eq {inst : Word} {op : DivOp} (h : Decodes inst op) (x y : BitVec 32) :
    mQ inst x y = divAdvice op.funct3 x y := by
  rw [mQ,fnRv32_eq]
  dsimp only
  rw [h.opcode,h.funct7,h.funct3,if_pos rfl,if_pos rfl]

section Instruction

variable {inst : Word} {op : DivOp} (x y : BitVec 32) (q : Word)

theorem mAssert_iff (h : Decodes inst op) : MAssert inst (ofU32 x) (ofU32 y) q ↔
    isMsbTrue (quotientOk (ofU32 (op.magnitude x)) (ofU32 (op.magnitude y)) q) = true := by
  have hfamily : isDivFamily01 inst = 1 := by
    have hguard : isMsbTrue (band (isMExt inst) (icmpUlt 3 (funct3 inst))) = true := by
      rw [isMExt,isRisc,eqOpcode,isMsbTrue_band,isMsbTrue_band,isMsbTrue_icmpEq,isMsbTrue_icmpEq,
        isMsbTrue_icmpUlt,h.opcode,h.funct7,h.funct3]
      cases op with
      | div => rfl
      | divu => rfl
      | rem => rfl
      | remu => rfl
    rw [isDivFamily01,bool01,select_of_true hguard]
  have hbad : ∀ ok : Word, band 1 (select ok 0 1) = 0 ↔ isMsbTrue ok = true := by
    intro ok
    rw [select]
    cases isMsbTrue ok with
    | true => decide
    | false => decide
  have hsigned : isMsbTrue (isSignedM inst) = op.signed := by
    rw [isSignedM,isMsbTrue_icmpEq,h.funct3]
    cases op with
    | div => rfl
    | divu => rfl
    | rem => rfl
    | remu => rfl
  rw [MAssert,hfamily,mBad,DivOp.magnitude,DivOp.magnitude]
  cases hop : op.signed with
  | true =>
    rw [hop] at hsigned
    rw [select_of_true hsigned,hbad,sOk,abs32_ofU32,abs32_ofU32,if_pos rfl,if_pos rfl]
  | false =>
    rw [hop] at hsigned
    rw [select_of_false hsigned,hbad,unsOk,if_neg Bool.false_ne_true,if_neg Bool.false_ne_true]

/-- What the candidate of a division instruction computes from the advice. -/
def DivOp.value (op : DivOp) (x y q : Word) : Word :=
  match op with
  | .div => divV x y q
  | .divu => q
  | .rem => remV x y q
  | .remu => remainder x y q

theorem wb_division (h : Decodes inst op) (pc ldVal x y : Word) :
    wb inst pc x y ldVal q = if rd inst = 0 then 0 else op.value x y q := by
  have hrisc : isMsbTrue (isRisc inst) = true := by
    rw [isRisc,eqOpcode,isMsbTrue_icmpEq,h.opcode]
    rfl
  have himm : isMsbTrue (isImm inst) = false := by
    rw [isImm,eqOpcode,isMsbTrue_icmpEq,h.opcode]
    rfl
  have hext : isMsbTrue (band (isRisc inst) (isMExt inst)) = true := by
    rw [isMExt,isMsbTrue_band,isMsbTrue_band,hrisc,isMsbTrue_icmpEq,h.funct7]
    rfl
  have hres : mRes inst x y q = op.value x y q := by
    have hmux := @mux_eq [mulLo x y,0,0,0,divV x y q,q,remV x y q,remainder x y q] 3 rfl
      (by decide) (funct3 inst)
    rw [h.funct3] at hmux
    rw [mRes,mux8,h.funct3]
    cases op with
    | div => exact (Option.some.inj hmux).symm
    | divu => exact (Option.some.inj hmux).symm
    | rem => exact (Option.some.inj hmux).symm
    | remu => exact (Option.some.inj hmux).symm
  rw [wb,select,isMsbTrue_icmpEq,aluSum,select_of_false himm,select_of_true hext,hres]
  simp only [decide_eq_true_eq]

end Instruction

theorem ofInt_tdiv (x y : BitVec 32) : BitVec.ofInt 32 (x.toInt.tdiv y.toInt) = x.sdiv y := by
  apply BitVec.eq_of_toInt_eq
  rw [BitVec.toInt_ofInt,BitVec.toInt_sdiv]

theorem ofInt_tmod (x y : BitVec 32) : BitVec.ofInt 32 (x.toInt.tmod y.toInt) = x.srem y := by
  rw [←BitVec.toInt_srem,BitVec.ofInt_toInt]

theorem sdiv_eq_abs (x y : BitVec 32) :
    x.sdiv y = if x.msb = y.msb then x.abs / y.abs else -(x.abs / y.abs) := by
  rw [BitVec.sdiv_eq,BitVec.abs_eq,BitVec.abs_eq]
  cases x.msb with
  | true => cases y.msb <;> rfl
  | false => cases y.msb <;> rfl

theorem srem_eq_abs (x y : BitVec 32) :
    x.srem y = if x.msb then -(x.abs % y.abs) else x.abs % y.abs := by
  rw [BitVec.srem_eq,BitVec.abs_eq,BitVec.abs_eq]
  cases x.msb with
  | true => cases y.msb <;> rfl
  | false => cases y.msb <;> rfl

theorem sub_div_mul (x y : BitVec 32) : x - x / y * y = x % y := by
  have hdiv := Nat.div_add_mod' x.toNat y.toNat
  have hx := x.isLt
  apply eq_of_toNat_eq
  rw [toNat_sub,toNat_mul,toNat_udiv,BitVec.toNat_umod,
    Nat.mod_eq_of_lt (show x.toNat / y.toNat * y.toNat < 2 ^ 32 by omega)]
  omega

theorem value_quotient (op : DivOp) (x y : BitVec 32) :
    op.value (ofU32 x) (ofU32 y) (ofU32 (op.quotient x y)) = ofU32 (op.result x y) := by
  have hzero : isMsbTrue (icmpEq (ofU32 y) 0) = decide (y = 0) := by
    rw [isMsbTrue_icmpEq]
    exact decide_eq_decide.mpr ofU32_eq_zero
  rw [DivOp.quotient]
  by_cases hy : y = 0
  · rw [if_pos hy]
    rw [hy] at hzero ⊢
    cases op with
    | div =>
      rw [DivOp.value,divV,select_of_true hzero]
      rfl
    | divu => rfl
    | rem =>
      rw [DivOp.value,remV,select_of_true hzero]
      rfl
    | remu =>
      have hmul : (ofU32 (allOnes 32)).setWidth 32 * 0 = 0#32 := BitVec.mul_zero
      rw [DivOp.value,remainder_ofU32,hmul,BitVec.sub_zero]
      rfl
  · rw [decide_eq_false hy] at hzero
    rw [if_neg hy]
    cases op with
    | div =>
      rw [DivOp.value,divV,select_of_false hzero,select,neg32_eq,setWidth_ofU32,DivOp.result,
        if_neg hy,ofInt_tdiv,sdiv_eq_abs]
      have hsigns : isMsbTrue (bxor (sign (ofU32 x)) (sign (ofU32 y))) = (x.msb ^^ y.msb) := by
        rw [isMsbTrue_eq,bxor,getLsbD_xor,←isMsbTrue_eq,←isMsbTrue_eq,isMsbTrue_sign,
          isMsbTrue_sign]
      rw [hsigns]
      cases x.msb with
      | true => cases y.msb <;> rfl
      | false => cases y.msb <;> rfl
    | divu =>
      have hudiv : BitVec.ofNat 32 (x.toNat / y.toNat) = x / y := BitVec.udiv_def.symm
      rw [DivOp.value,DivOp.result,if_neg hy,hudiv]
      rfl
    | rem =>
      rw [DivOp.value,remV,select_of_false hzero,abs32_ofU32,abs32_ofU32,remainder_ofU32,
        setWidth_ofU32,neg32_eq,setWidth_ofU32,select,isMsbTrue_sign,DivOp.result,if_neg hy,
        ofInt_tmod,srem_eq_abs]
      have hsub : x.abs - DivOp.magnitude .rem x / DivOp.magnitude .rem y * y.abs =
          x.abs % y.abs := sub_div_mul x.abs y.abs
      rw [hsub]
      cases x.msb with
      | true => rfl
      | false => rfl
    | remu =>
      have hsub : x - DivOp.magnitude .remu x / DivOp.magnitude .remu y * y = x % y :=
        sub_div_mul x y
      have humod : BitVec.ofNat 32 (x.toNat % y.toNat) = x % y := BitVec.umod_def.symm
      rw [DivOp.value,remainder_ofU32,setWidth_ofU32,DivOp.result,if_neg hy,hsub,humod]

theorem abs_eq_zero {v : BitVec 32} : v.abs = 0 ↔ v = 0 := by
  rw [BitVec.abs_eq]
  cases v.msb with
  | true => exact BitVec.neg_eq_zero_iff
  | false => exact Iff.rfl

theorem msb_abs_eq (v : BitVec 32) : v.abs.msb = decide (v = intMin 32) := by
  rw [BitVec.msb_abs]
  simp

theorem signed_advice (x y : BitVec 32) : BitVec.ofInt 32 (x.abs.toInt.tdiv y.abs.toInt) =
    if x = intMin 32 ∧ y ≠ intMin 32 then -(x.abs / y.abs) else x.abs / y.abs := by
  have habs : ∀ v : BitVec 32, v.abs.abs = v.abs := by
    intro v
    rw [BitVec.abs_eq v.abs,msb_abs_eq]
    by_cases hv : v = intMin 32
    · rw [hv]
      rfl
    · rw [decide_eq_false hv,if_neg Bool.false_ne_true]
  rw [ofInt_tdiv,sdiv_eq_abs,habs,habs,msb_abs_eq,msb_abs_eq]
  by_cases hx : x = intMin 32
  · by_cases hy : y = intMin 32
    · rw [hx,hy]
      rfl
    · rw [decide_eq_true hx,decide_eq_false hy,if_neg Bool.noConfusion,if_pos ⟨hx,hy⟩]
  · by_cases hy : y = intMin 32
    · -- The divisor's magnitude is above every other: both sides are zero.
      have hlt : x.abs.toNat < 2 ^ 31 := by
        have hmsb := msb_abs_eq x
        rw [decide_eq_false hx,BitVec.msb_eq_false_iff_two_mul_lt] at hmsb
        omega
      have hzero : x.abs / y.abs = 0 := by
        apply eq_of_toNat_eq
        rw [toNat_udiv,hy]
        exact Nat.div_eq_of_lt hlt
      have hneg : -(0 : BitVec 32) = 0 := rfl
      rw [hzero,hneg,ite_self,ite_self]
    · have hnot : ¬(x = intMin 32 ∧ y ≠ intMin 32) := fun h => hx h.1
      rw [decide_eq_false hx,decide_eq_false hy,if_pos rfl,if_neg hnot]

theorem divAdvice_eq (op : DivOp) (x : BitVec 32) {y : BitVec 32} (hy : y ≠ 0) :
    divAdvice op.funct3 x y = if op.signed = true ∧ x = intMin 32 ∧ y ≠ intMin 32 then
      -op.quotient x y else op.quotient x y := by
  have hsigned : divAdvice DivOp.div.funct3 x y = if y.abs = 0 then allOnes 32 else
      BitVec.ofInt 32 (x.abs.toInt.tdiv y.abs.toInt) := rfl
  have hunsigned : divAdvice DivOp.divu.funct3 x y = if y = 0 then allOnes 32 else x / y := rfl
  have habs : y.abs ≠ 0 := fun h => hy (abs_eq_zero.mp h)
  rw [if_neg habs,signed_advice] at hsigned
  rw [if_neg hy] at hunsigned
  have hrem : divAdvice DivOp.rem.funct3 x y = divAdvice DivOp.div.funct3 x y := rfl
  have hremu : divAdvice DivOp.remu.funct3 x y = divAdvice DivOp.divu.funct3 x y := rfl
  rw [DivOp.quotient,if_neg hy]
  cases op with
  | div => simpa [DivOp.signed,DivOp.magnitude] using hsigned
  | divu => simpa [DivOp.signed,DivOp.magnitude] using hunsigned
  | rem => simpa [DivOp.signed,DivOp.magnitude] using hrem.trans hsigned
  | remu => simpa [DivOp.signed,DivOp.magnitude] using hremu.trans hunsigned

namespace DivOp

/-- The advice is the quotient of the dividend raised by a multiple of the 32-bit lane, and its
product with the divisor fits a 64-bit word. -/
def Raised (op : DivOp) (x y : BitVec 32) (q : Word) : Prop :=
  ∃ k, 0 < k ∧ q.toNat = ((op.magnitude x).toNat + k * 2 ^ 32) / (op.magnitude y).toNat ∧
    q.toNat * (op.magnitude y).toNat < 2 ^ 64

def LeastDividend (op : DivOp) (x y : BitVec 32) : Prop :=
  op.signed = true ∧ x = intMin 32 ∧ ¬(op.magnitude y).toNat ∣ 2 ^ 31

theorem magnitude_ne_zero (op : DivOp) {y : BitVec 32} (hy : y ≠ 0) : op.magnitude y ≠ 0 := by
  rw [magnitude]
  split
  · exact fun h => hy (abs_eq_zero.mp h)
  · exact hy

end DivOp

section Constraint

variable {inst : Word} {op : DivOp} {x y : BitVec 32} {q : Word}

theorem mAssert_zero (h : Decodes inst op) (x : BitVec 32) (q : Word) :
    MAssert inst (ofU32 x) (ofU32 0) q ↔ q = ofU32 (op.quotient x 0) := by
  have hmag : op.magnitude 0 = 0 := by
    rw [DivOp.magnitude]
    split <;> rfl
  rw [mAssert_iff x 0 q h,hmag,quotientOk_zero,DivOp.quotient,if_pos rfl]

theorem mAssert_iff_raised (h : Decodes inst op) (hy : y ≠ 0) :
    MAssert inst (ofU32 x) (ofU32 y) q ↔ q = ofU32 (op.quotient x y) ∨ op.Raised x y q := by
  have hmag := op.magnitude_ne_zero hy
  have hquot : q = ofU32 (op.quotient x y) ↔
      q.toNat = (op.magnitude x).toNat / (op.magnitude y).toNat := by
    rw [DivOp.quotient,if_neg hy,←toNat_inj,toNat_ofU32,toNat_udiv]
  rw [mAssert_iff x y q h,quotientOk_iff _ hmag,hquot]
  constructor
  · rintro ⟨hfits,k,hk⟩
    rcases Nat.eq_zero_or_pos k with hzero | hpos
    · rw [hzero,Nat.zero_mul,Nat.add_zero] at hk
      exact Or.inl hk
    · exact Or.inr ⟨k,hpos,hk,hfits⟩
  · rintro (hfirst | ⟨k,_,hk,hfits⟩)
    · have hle := Nat.div_mul_le_self (op.magnitude x).toNat (op.magnitude y).toNat
      have hx := (op.magnitude x).isLt
      refine ⟨?_,0,?_⟩
      · rw [hfirst]
        omega
      · rw [Nat.zero_mul,Nat.add_zero]
        exact hfirst
    · exact ⟨hfits,k,hk⟩

theorem raised_ne (hy : y ≠ 0) (hr : op.Raised x y q) : q ≠ ofU32 (op.quotient x y) := by
  obtain ⟨k,hk,hq,_⟩ := hr
  have hmag := op.magnitude_ne_zero hy
  have hpos : 0 < (op.magnitude y).toNat :=
    Nat.pos_of_ne_zero fun h => hmag (eq_of_toNat_eq h)
  have hlt := (op.magnitude y).isLt
  have hnext : (op.magnitude x).toNat / (op.magnitude y).toNat + 1 ≤ q.toNat := by
    rw [hq,←Nat.add_div_right _ hpos]
    exact Nat.div_le_div_right (by omega)
  rw [DivOp.quotient,if_neg hy]
  intro h
  rw [h,toNat_ofU32,toNat_udiv] at hnext
  omega

theorem mAssert_mQ (h : Decodes inst op) (x : BitVec 32) (hy : y ≠ 0) :
    MAssert inst (ofU32 x) (ofU32 y) (ofU32 (mQ inst x y)) ↔ ¬op.LeastDividend x y := by
  by_cases hneg : op.signed = true ∧ x = intMin 32 ∧ y ≠ intMin 32
  · obtain ⟨hsigned,rfl,hmin⟩ := hneg
    have hmag := op.magnitude_ne_zero hy
    have hy31 : (op.magnitude y).toNat < 2 ^ 31 := by
      have hmsb := msb_abs_eq y
      rw [decide_eq_false hmin,BitVec.msb_eq_false_iff_two_mul_lt] at hmsb
      rw [DivOp.magnitude,if_pos hsigned]
      omega
    have hx31 : (op.magnitude (intMin 32)).toNat = 2 ^ 31 := by
      rw [DivOp.magnitude,if_pos hsigned]
      rfl
    have hpos : 0 < (op.magnitude y).toNat :=
      Nat.pos_of_ne_zero fun h => hmag (eq_of_toNat_eq h)
    have hdiv := Nat.div_add_mod' (2 ^ 31) (op.magnitude y).toNat
    have hrem := Nat.mod_lt (2 ^ 31) hpos
    have hone : 0 < 2 ^ 31 / (op.magnitude y).toNat := Nat.div_pos hy31.le hpos
    have hle : 2 ^ 31 / (op.magnitude y).toNat ≤ 2 ^ 31 := Nat.div_le_self _ _
    have hadvice : (mQ inst (intMin 32) y).toNat =
        2 ^ 32 - 2 ^ 31 / (op.magnitude y).toNat := by
      rw [h.mQ_eq,divAdvice_eq op _ hy,if_pos ⟨hsigned,rfl,hmin⟩,DivOp.quotient,if_neg hy,BitVec.toNat_neg,
        toNat_udiv,hx31]
      exact Nat.mod_eq_of_lt (by omega)
    have hleast : op.LeastDividend (intMin 32) y ↔ ¬2 ^ 31 % (op.magnitude y).toNat = 0 := by
      rw [DivOp.LeastDividend,Nat.dvd_iff_mod_eq_zero]
      exact ⟨fun h => h.2.2,fun h => ⟨hsigned,rfl,h⟩⟩
    rw [mAssert_iff _ _ _ h,quotientOk_iff _ hmag,
      ←remainder_lt_iff (op.magnitude (intMin 32)).isLt hpos (op.magnitude y).isLt,hleast,
      toNat_ofU32,hadvice,hx31,Nat.sub_mul]
    omega
  · have hquot : ofU32 (mQ inst x y) = ofU32 (op.quotient x y) := by
      rw [h.mQ_eq,divAdvice_eq op x hy,if_neg hneg]
    have hnot : ¬op.LeastDividend x y := by
      rintro ⟨hsigned,hx,hdvd⟩
      have hmin : y = intMin 32 := by
        by_contra hmin
        exact hneg ⟨hsigned,hx,hmin⟩
      rw [hmin,DivOp.magnitude,if_pos hsigned] at hdvd
      exact hdvd (dvd_refl _)
    rw [mAssert_iff_raised h hy]
    exact ⟨fun _ => hnot,fun _ => Or.inl hquot⟩

theorem mQ_zero (h : Decodes inst op) (x : BitVec 32) : mQ inst x 0 = op.quotient x 0 := by
  rw [h.mQ_eq]
  cases op with
  | div => rfl
  | divu => rfl
  | rem => rfl
  | remu => rfl

end Constraint

/-- Division by advice works: the constraint determines the advice, the word written back is the
prescribed result, and the recorded advice passes. -/
structure Verified (inst : Word) (op : DivOp) (x y : BitVec 32) (pc ldVal q : Word) : Prop where
  unique : MAssert inst (ofU32 x) (ofU32 y) q ↔ q = ofU32 (op.quotient x y)
  /-- The word written back is the result; register zero stays zero. -/
  result : MAssert inst (ofU32 x) (ofU32 y) q → wb inst pc (ofU32 x) (ofU32 y) ldVal q =
    if rd inst = 0 then 0 else ofU32 (op.result x y)
  recorded : MAssert inst (ofU32 x) (ofU32 y) (ofU32 (mQ inst x y))

/-- Division by advice works exactly when the divisor is zero, or the advice is no quotient of a
raised dividend and the dividend is not the least number under a divisor that leaves a rest. -/
theorem division_exact {inst : Word} {op : DivOp} (h : Decodes inst op) (x y : BitVec 32)
    (pc ldVal q : Word) : Verified inst op x y pc ldVal q ↔
      y = 0 ∨ (¬op.Raised x y q ∧ ¬op.LeastDividend x y) := by
  have hresult : q = ofU32 (op.quotient x y) → wb inst pc (ofU32 x) (ofU32 y) ldVal q =
      if rd inst = 0 then 0 else ofU32 (op.result x y) := by
    intro hq
    rw [wb_division q h,hq,value_quotient]
  by_cases hy : y = 0
  · subst hy
    have hzero := mAssert_zero h x
    refine ⟨fun _ => Or.inl rfl,fun _ => ⟨hzero q,fun hm => hresult ((hzero q).mp hm),?_⟩⟩
    rw [hzero,mQ_zero h]
  · have hiff := @mAssert_iff_raised inst op x y q h hy
    constructor
    · intro hv
      refine Or.inr ⟨fun hr => ?_,(mAssert_mQ h x hy).mp hv.recorded⟩
      exact raised_ne hy hr (hv.unique.mp (hiff.mpr (Or.inr hr)))
    · rintro (hzero | ⟨hraised,hleast⟩)
      · exact absurd hzero hy
      · have hunique : MAssert inst (ofU32 x) (ofU32 y) q ↔ q = ofU32 (op.quotient x y) := by
          rw [hiff]
          exact or_iff_left hraised
        exact ⟨hunique,fun hm => hresult (hunique.mp hm),(mAssert_mQ h x hy).mpr hleast⟩

def encR (funct7 rs2 rs1 funct3 rd opcode : Word) : Word :=
  opcode ||| (rd <<< 7) ||| (funct3 <<< 12) ||| (rs1 <<< 15) ||| (rs2 <<< 20) ||| (funct7 <<< 25)

/-- Seven over two with the advice three. -/
theorem division_exact_three : Verified (encR 1 2 1 0x5 3 opOp) .divu 7 2 0 0 3 :=
  (division_exact ⟨by decide,by decide,by decide⟩ 7 2 0 0 3).mpr (Or.inr ⟨by
    rintro ⟨k,hk,hq,_⟩
    have hvalue : 3 = (7 + k * 2 ^ 32) / 2 := hq
    omega,fun h => Bool.false_ne_true h.1⟩)

/-- Seven over two with the quotient of the dividend raised once: the constraint passes, and the
word written back is above the dividend. -/
theorem division_fails : ¬Verified (encR 1 2 1 0x5 3 opOp) .divu 7 2 0 0 0x80000003 := by
  intro h
  have hpasses : MAssert (encR 1 2 1 0x5 3 opOp) (ofU32 7) (ofU32 2) 0x80000003 := by decide
  exact absurd (h.unique.mp hpasses) (by decide)

end Binius64.Vm32
