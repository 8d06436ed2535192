import Binius64.Vm32Gates

/-!
# One cycle of the 32-bit machine's circuit

The wires of a cycle as functions of the instruction word, the register values read, the loaded word
and the advice.
-/

namespace Binius64.Vm32

open MachineWord (Word allOne isMsbTrue isMsbTrue_eq)
open WordGates LaneWords

/-- The number of registers. -/
def nReg : ℕ := 32

/-- The number of memory words. -/
def nRam : ℕ := 64

/-- The first program counter. -/
def pcStart : Word := 0x00

/-- The program counter of the last cycle. -/
def haltAddr : Word := 0xc4

/-- The versions a register or memory word has in its log. -/
def verMax : ℕ := 128

def opLui : Word := 0x37
def opAuipc : Word := 0x17
def opJal : Word := 0x6f
def opJalr : Word := 0x67
def opBranch : Word := 0x63
def opLoad : Word := 0x03
def opStore : Word := 0x23
def opOpimm : Word := 0x13
def opOp : Word := 0x33

def f3Sb : Word := 0x0
def f3Sh : Word := 0x1

section Decode

variable (inst : Word)

def opcode : Word := band inst 0x7f
def rd : Word := band (srl32 inst 7) 0x1f
def rs1 : Word := band (srl32 inst 15) 0x1f
def rs2 : Word := band (srl32 inst 20) 0x1f
def funct3 : Word := band (srl32 inst 12) 0x7
def funct7 : Word := band (srl32 inst 25) 0x7f

structure Fields where
  opcode : Word
  rd : Word
  rs1 : Word
  rs2 : Word
  funct3 : Word
  funct7 : Word
deriving DecidableEq

def fnRv32 : Fields where
  opcode := inst &&& 0x7f
  rd := (inst >>> 7) &&& 0x1f
  rs1 := (inst >>> 15) &&& 0x1f
  rs2 := (inst >>> 20) &&& 0x1f
  funct3 := (inst >>> 12) &&& 0x7
  funct7 := (inst >>> 25) &&& 0x7f

theorem fnRv32_eq : fnRv32 inst =
    ⟨opcode inst,rd inst,rs1 inst,rs2 inst,funct3 inst,funct7 inst⟩ := by
  have hrd := band_srl32 inst (show 7 + 5 ≤ 32 by decide)
  have hrs1 := band_srl32 inst (show 15 + 5 ≤ 32 by decide)
  have hrs2 := band_srl32 inst (show 20 + 5 ≤ 32 by decide)
  have hfunct3 := band_srl32 inst (show 12 + 3 ≤ 32 by decide)
  have hfunct7 := band_srl32 inst (show 25 + 7 ≤ 32 by decide)
  rw [fnRv32,Fields.mk.injEq]
  exact ⟨rfl,hrd.symm,hrs1.symm,hrs2.symm,hfunct3.symm,hfunct7.symm⟩

/-- The signed offset of loads, of immediate arithmetic and of indirect jumps. -/
def immI : Word := sextW (band (srl32 inst 20) 0xfff) 12

/-- The signed offset of stores. -/
def immS : Word :=
  sextW (bor (sll32 (band (srl32 inst 25) 0x7f) 5) (band (srl32 inst 7) 0x1f)) 12

/-- The upper immediate in place. -/
def immUVal : Word := sll32 (band (srl32 inst 12) 0xfffff) 12

/-- The signed offset of branches. -/
def immB : Word :=
  sextW (bor (bor (bor (sll32 (band (srl32 inst 31) 1) 12) (sll32 (band (srl32 inst 7) 1) 11))
    (sll32 (band (srl32 inst 25) 0x3f) 5)) (sll32 (band (srl32 inst 8) 0x0f) 1)) 13

/-- The signed offset of jumps. -/
def immJ : Word :=
  sextW (bor (bor (bor (sll32 (band (srl32 inst 31) 1) 20) (sll32 (band (srl32 inst 12) 0xff) 12))
    (sll32 (band (srl32 inst 20) 1) 11)) (sll32 (band (srl32 inst 21) 0x3ff) 1)) 21

def eqOpcode (c : Word) : Word := icmpEq (opcode inst) c
def isRisc : Word := eqOpcode inst opOp
def isImm : Word := eqOpcode inst opOpimm
def isLui : Word := eqOpcode inst opLui
def isAuipc : Word := eqOpcode inst opAuipc
def isJal : Word := eqOpcode inst opJal
def isJalr : Word := eqOpcode inst opJalr
def isBranch : Word := eqOpcode inst opBranch

/-- Memory instructions whose third function field is 3, 6 or 7 do nothing. -/
def f3Invalid : Word :=
  bor (icmpEq (band (funct3 inst) 3) 3) (icmpEq (funct3 inst) 6)

def f3Valid : Word := bnot (f3Invalid inst)
def cIsLoad : Word := band (eqOpcode inst opLoad) (f3Valid inst)
def cIsStore : Word := band (eqOpcode inst opStore) (f3Valid inst)
def isByteLoad : Word := band (cIsLoad inst) (bnot (icmpEq (funct3 inst) 0x2))
def isByteStore : Word := band (cIsStore inst) (bnot (icmpEq (funct3 inst) 0x2))
def isMExt : Word := band (isRisc inst) (icmpEq (funct7 inst) 1)

def isAluWrite : Word :=
  bor (bor (bor (bor (bor (bor (isImm inst) (isRisc inst)) (isLui inst)) (isAuipc inst))
    (isJal inst)) (isJalr inst)) (cIsLoad inst)

def effLoad : Word := bor (cIsLoad inst) (isByteStore inst)

def isDivFamily01 : Word := bool01 (band (isMExt inst) (icmpUlt 3 (funct3 inst)))

end Decode

section Address

variable (inst rs1v : Word)

def ldByteAddr : Word := iadd32 rs1v (immI inst)

def ldAddrW : Word :=
  select (isByteLoad inst) (band (srl32 (ldByteAddr inst rs1v) 2) 0x3f)
    (band (iadd32 rs1v (immI inst)) 0x3f)

def stByteAddr : Word := iadd32 rs1v (immS inst)

/-- The word a store writes; in other cycles the word index of the load offset. -/
def stAddrW : Word :=
  select (isByteStore inst) (band (srl32 (stByteAddr inst rs1v) 2) 0x3f)
    (band (select (cIsStore inst) (iadd32 rs1v (immS inst)) (iadd32 rs1v (immI inst))) 0x3f)

def effLdAddr : Word :=
  select (isByteStore inst) (stAddrW inst rs1v) (ldAddrW inst rs1v)

end Address

section Arithmetic

variable (inst rs1v rs2v : Word)

def bop : Word := select (isRisc inst) rs2v (immI inst)

def shamt : Word := select (isRisc inst) (band rs2v 0x1f) (band (srl32 inst 20) 0x1f)

def isSub : Word :=
  band (band (icmpEq (opcode inst) opOp) (icmpEq (funct3 inst) 0x0)) (shl (funct7 inst) 58)

def isSra : Word := band (icmpEq (funct3 inst) 0x5) (shl (funct7 inst) 58)

/-- The candidates of the third function field. -/
def alu8 : List Word :=
  [select (isSub inst) (band (isub rs1v rs2v) 0xffffffff) (iadd32 rs1v (bop inst rs2v)),
    shlVar rs1v (shamt inst rs2v),
    sltSigned rs1v (bop inst rs2v),
    sltUnsigned rs1v (bop inst rs2v),
    bxor rs1v (bop inst rs2v),
    select (isSra inst) (sarVar rs1v (shamt inst rs2v)) (shrVar rs1v (shamt inst rs2v)),
    bor rs1v (bop inst rs2v),
    band rs1v (bop inst rs2v)]

def aluCore : Word := mux8 (alu8 inst rs1v rs2v) (funct3 inst)

end Arithmetic

section Division

/-- Negation in the 32-bit lane. -/
def neg32 (v : Word) : Word := band (iadd32 (bnot v) 1) 0xffffffff

/-- The sign of a 32-bit value as a top bit. -/
def sign (v : Word) : Word := shl (band (srl32 v 31) 1) 63

/-- The absolute value of a 32-bit value. -/
def abs32 (v : Word) : Word := select (sign v) (neg32 v) v

/-- What is left of the dividend, modulo the lane. -/
def remainder (x y q : Word) : Word :=
  band (isub x (band (imul q y).2 0xffffffff)) 0xffffffff

/-- The check of an advice quotient: the product has no high word and the remainder is below the
divisor; a zero divisor asks for the all-ones quotient. -/
def quotientOk (x y q : Word) : Word :=
  select (icmpEq y 0) (icmpEq q 0xffffffff)
    (band (icmpEq (imul q y).1 0) (icmpUlt (remainder x y q) y))

variable (inst x32 y32 q : Word)

def unsOk : Word := quotientOk x32 y32 q
def sOk : Word := quotientOk (abs32 x32) (abs32 y32) q

def isSignedM : Word := icmpEq (band (funct3 inst) 1) 0

def mBad : Word :=
  select (isSignedM inst) (select (sOk x32 y32 q) 0 1) (select (unsOk x32 y32 q) 0 1)

def divV : Word :=
  select (icmpEq y32 0) 0xffffffff (select (bxor (sign x32) (sign y32)) (neg32 q) q)

def remV : Word :=
  select (icmpEq y32 0) x32
    (select (sign x32) (neg32 (remainder (abs32 x32) (abs32 y32) q))
      (remainder (abs32 x32) (abs32 y32) q))

def mulLo : Word := band (imul x32 y32).2 0xffffffff

def mRes : Word :=
  mux8 [mulLo x32 y32,0,0,0,divV x32 y32 q,q,remV x32 y32 q,remainder x32 y32 q] (funct3 inst)

/-- The division constraint of a cycle. -/
def MAssert : Prop := band (isDivFamily01 inst) (mBad inst x32 y32 q) = 0

instance : Decidable (MAssert inst x32 y32 q) := inferInstanceAs (Decidable (_ = _))

end Division

section Memory

variable (inst rs1v rs2v ldVal : Word)

def isHalfLoad : Word := icmpEq (band (funct3 inst) 1) 1
def isSignedLoad : Word := icmpEq (srl32 (funct3 inst) 2) 0
def ldOff : Word := band (ldByteAddr inst rs1v) 3
def byteRaw : Word := band (shrVar ldVal (sll32 (ldOff inst rs1v) 3)) 0xff

def halfRaw : Word :=
  band (shrVar ldVal (sll32 (band (srl32 (ldOff inst rs1v) 1) 1) 4)) 0xffff

def loadExtracted : Word :=
  select (isSignedLoad inst)
    (select (isHalfLoad inst) (sextW (halfRaw inst rs1v ldVal) 16)
      (sextW (byteRaw inst rs1v ldVal) 8))
    (select (isHalfLoad inst) (halfRaw inst rs1v ldVal) (byteRaw inst rs1v ldVal))

def loadWb : Word := select (isByteLoad inst) (loadExtracted inst rs1v ldVal) ldVal

def lhMisaligned : Word :=
  band (band (bool01 (isByteLoad inst)) (bool01 (isHalfLoad inst)))
    (select (icmpEq (band (ldByteAddr inst rs1v) 1) 1) 1 0)

def shMisaligned : Word :=
  band (band (bool01 (isByteStore inst)) (bool01 (icmpEq (funct3 inst) f3Sh)))
    (select (icmpEq (band (stByteAddr inst rs1v) 1) 1) 1 0)

def sbShift : Word := sll32 (band (stByteAddr inst rs1v) 3) 3

def sbMerged : Word :=
  bor (band ldVal (bnot (shlVar 0xff (sbShift inst rs1v))))
    (shlVar (band rs2v 0xff) (sbShift inst rs1v))

def shShift : Word :=
  sll32 (band (srl32 (band (stByteAddr inst rs1v) 3) 1) 1) 4

def shMerged : Word :=
  bor (band ldVal (bnot (shlVar 0xffff (shShift inst rs1v))))
    (shlVar (band rs2v 0xffff) (shShift inst rs1v))

def stored : Word :=
  select (isByteStore inst)
    (select (icmpEq (funct3 inst) f3Sb) (sbMerged inst rs1v rs2v ldVal)
      (shMerged inst rs1v rs2v ldVal)) rs2v

end Memory

section WriteBack

variable (inst pc rs1v rs2v ldVal q : Word)

def aluSum : Word :=
  select (isImm inst) (aluCore inst rs1v rs2v)
    (select (band (isRisc inst) (isMExt inst)) (mRes inst rs1v rs2v q)
    (select (isRisc inst) (aluCore inst rs1v rs2v)
    (select (cIsLoad inst) (loadWb inst rs1v ldVal)
    (select (isLui inst) (immUVal inst)
    (select (isAuipc inst) (iadd32 pc (immUVal inst))
    (select (isJal inst) (iadd32 pc 4)
    (select (isJalr inst) (iadd32 pc 4) 0)))))))

/-- The value written back; register zero stays zero. -/
def wb : Word := select (icmpEq (rd inst) 0) 0 (aluSum inst pc rs1v rs2v ldVal q)

def branchTaken : Word :=
  let cBeq := icmpEq rs1v rs2v
  let cBlt := icmpUlt (bxor rs1v 0x80000000) (bxor rs2v 0x80000000)
  let cBltu := icmpUlt rs1v rs2v
  mux8 [cBeq,bnot cBeq,0,0,cBlt,bnot cBlt,cBltu,bnot cBltu] (funct3 inst)

def nextPc : Word :=
  select (isJal inst) (iadd32 pc (immJ inst))
    (select (isJalr inst) (band (iadd32 rs1v (immI inst)) 0xfffffffe)
    (select (isBranch inst)
      (select (branchTaken inst rs1v rs2v) (iadd32 pc (immB inst)) (iadd32 pc 4))
      (iadd32 pc 4)))

end WriteBack

/-- The wires carried from a cycle to the next. -/
@[ext]
structure Chains where
  prevPc : Word
  curReg : List Word
  curVer : List Word
  cRamVer : List Word
deriving DecidableEq

/-- The wires before the first cycle. -/
def Chains.start : Chains where
  prevPc := pcStart
  curReg := List.replicate nReg 0
  curVer := List.replicate nReg 0
  cRamVer := List.replicate nRam 0

structure CycleInout where
  inst : Word
  pc : Word
  rd1Reg : Word
  rd1Ver : Word
  rd1Val : Word
  rd2Reg : Word
  rd2Ver : Word
  rd2Val : Word
  wrReg : Word
  wrVer : Word
  wrVal : Word
  wrIswrite : Word
  ldAddr : Word
  ldVer : Word
  ldVal : Word
  isLoad : Word
  stAddr : Word
  stVer : Word
  stVal : Word
  isStore : Word
  mQ : Word
deriving DecidableEq

namespace Chains

variable (s : Chains) (c : CycleInout)

def rs1v (inst : Word) : Word := mux s.curReg (rs1 inst)
def rs2v (inst : Word) : Word := mux s.curReg (rs2 inst)
def rs1Ver (inst : Word) : Word := mux s.curVer (rs1 inst)
def rs2Ver (inst : Word) : Word := mux s.curVer (rs2 inst)
def effLdAddr (inst : Word) : Word := Vm32.effLdAddr inst (s.rs1v inst)
def stAddrW (inst : Word) : Word := Vm32.stAddrW inst (s.rs1v inst)
def readRamVer (inst : Word) : Word := mux s.cRamVer (s.effLdAddr inst)
def storeNewVer (inst : Word) : Word := iadd (mux s.cRamVer (s.stAddrW inst)) 1

def wb : Word := Vm32.wb c.inst s.prevPc (s.rs1v c.inst) (s.rs2v c.inst) c.ldVal c.mQ

/-- The wires after the cycle. -/
def next : Chains where
  prevPc := nextPc c.inst s.prevPc (s.rs1v c.inst) (s.rs2v c.inst)
  curReg := s.curReg.mapIdx fun r v =>
    select (band (icmpEq (rd c.inst) (BitVec.ofNat 64 r)) (isAluWrite c.inst)) (s.wb c) v
  curVer := s.curVer.mapIdx fun r v =>
    select (band (icmpEq (rd c.inst) (BitVec.ofNat 64 r)) (isAluWrite c.inst)) (iadd v 1) v
  cRamVer := s.cRamVer.mapIdx fun a v =>
    select (band (cIsStore c.inst) (icmpEq (s.stAddrW c.inst) (BitVec.ofNat 64 a))) (iadd v 1) v

/-- The version of the destination register after the cycle. -/
def rdVerNow : Word := mux (s.next c).curVer (rd c.inst)

end Chains

structure CycleAsserts (s : Chains) (c : CycleInout) : Prop where
  pc : c.pc = s.prevPc
  mAssert : MAssert c.inst (s.rs1v c.inst) (s.rs2v c.inst) c.mQ
  lhAlign : lhMisaligned c.inst (s.rs1v c.inst) = 0
  shAlign : shMisaligned c.inst (s.rs1v c.inst) = 0
  verBound : band (select (isAluWrite c.inst) 1 0)
    (bool01 (icmpUlt (BitVec.ofNat 64 (verMax - 1)) (s.rdVerNow c))) = 0
  rd1Reg : c.rd1Reg = rs1 c.inst
  rd1Ver : c.rd1Ver = s.rs1Ver c.inst
  rd1Val : c.rd1Val = s.rs1v c.inst
  rd2Reg : c.rd2Reg = rs2 c.inst
  rd2Ver : c.rd2Ver = s.rs2Ver c.inst
  rd2Val : c.rd2Val = s.rs2v c.inst
  wrReg : c.wrReg = rd c.inst
  wrVer : c.wrVer = s.rdVerNow c
  wrVal : c.wrVal = s.wb c
  wrIswrite : c.wrIswrite = select (isAluWrite c.inst) 1 0
  ldAddr : c.ldAddr = s.effLdAddr c.inst
  ldVer : c.ldVer = s.readRamVer c.inst
  ldValRange : band c.ldVal 0xffffffff00000000 = 0
  isLoad : c.isLoad = select (effLoad c.inst) 1 0
  stAddr : c.stAddr = s.stAddrW c.inst
  stVer : c.stVer = s.storeNewVer c.inst
  stVal : c.stVal = stored c.inst (s.rs1v c.inst) (s.rs2v c.inst) c.ldVal
  isStore : c.isStore = select (cIsStore c.inst) 1 0

/-- The public wires of a run. -/
structure Inout where
  cycles : List CycleInout
  initRegs : List Word
  finalRegs : List Word
  finVer : List Word
deriving DecidableEq

def CyclesHold (s : Chains) : List CycleInout → Prop
  | [] => True
  | c::cs => CycleAsserts s c ∧ CyclesHold (s.next c) cs

def chainsAfter (s : Chains) (cs : List CycleInout) : Chains := cs.foldl Chains.next s

/-- The assertions of the whole circuit. -/
structure Accepts (io : Inout) : Prop where
  cycles : CyclesHold Chains.start io.cycles
  finalPcHalt : io.cycles.getLast?.map CycleInout.pc = some haltAddr
  initRegs : io.initRegs = List.replicate nReg 0
  finalRegs : io.finalRegs = (chainsAfter Chains.start io.cycles).curReg
  finVer : io.finVer = (chainsAfter Chains.start io.cycles).cRamVer

end Binius64.Vm32
