import Binius64.ByteCodec
import Binius64.EvalForm

/-!
# The evaluation bytecode

The bytes the builder emits for the instructions of an evaluation form, and the executor that
decodes them again while it runs.
-/

namespace Binius64.Bytecode

open MachineWord ShiftAlgebra ValueVector ByteCodec EvalForm List

inductive EvalOpcode where
  | band
  | bor
  | bxor
  | select
  /-- Exclusive or of any number of registers. -/
  | bxorMulti
  | fax
  /-- Shift or rotation by a fixed amount. -/
  | shift
  /-- 64-bit addition with carries. -/
  | iaddCinCout
  /-- Carries of a 64-bit addition. -/
  | iaddCarry
  /-- 64-bit subtraction with borrows. -/
  | isubBinBout
  | imul
  /-- Product in the GHASH field. -/
  | bmul
  /-- Two 32-bit additions with carries. -/
  | iadd32CinCout
  | iadd32Cout
  /-- Assertion that two registers agree. -/
  | assertEq
  /-- Assertion that two registers agree under a condition. -/
  | assertEqCond
  /-- Assertion that a register is zero. -/
  | assertZero
  /-- Assertion that a register is not zero. -/
  | assertNonZero
  /-- Assertion that a top bit is clear. -/
  | assertFalse
  /-- Assertion that a top bit is set. -/
  | assertTrue
  /-- Call of a registered hint. -/
  | hint
deriving DecidableEq

namespace EvalOpcode

def toByte : EvalOpcode → UInt8
  | band => 0x01
  | bor => 0x02
  | bxor => 0x03
  | select => 0x05
  | bxorMulti => 0x06
  | fax => 0x07
  | shift => 0x10
  | iaddCinCout => 0x21
  | iaddCarry => 0x22
  | isubBinBout => 0x23
  | imul => 0x30
  | bmul => 0x31
  | iadd32CinCout => 0x40
  | iadd32Cout => 0x46
  | assertEq => 0x60
  | assertEqCond => 0x61
  | assertZero => 0x62
  | assertNonZero => 0x63
  | assertFalse => 0x64
  | assertTrue => 0x65
  | hint => 0x80

def fromByte (byte : UInt8) : Option EvalOpcode :=
  match byte.toNat with
  | 0x01 => some band
  | 0x02 => some bor
  | 0x03 => some bxor
  | 0x05 => some select
  | 0x06 => some bxorMulti
  | 0x07 => some fax
  | 0x10 => some shift
  | 0x21 => some iaddCinCout
  | 0x22 => some iaddCarry
  | 0x23 => some isubBinBout
  | 0x30 => some imul
  | 0x31 => some bmul
  | 0x40 => some iadd32CinCout
  | 0x46 => some iadd32Cout
  | 0x60 => some assertEq
  | 0x61 => some assertEqCond
  | 0x62 => some assertZero
  | 0x63 => some assertNonZero
  | 0x64 => some assertFalse
  | 0x65 => some assertTrue
  | 0x80 => some hint
  | _ => none

@[simp] theorem fromByte_toByte (opcode : EvalOpcode) : fromByte opcode.toByte = some opcode := by
  cases opcode <;> rfl

end EvalOpcode

/-- The largest number a hint instruction's counts and dimensions can each carry. -/
def maxHintField : ℕ := 2 ^ 32 - 1

/-- Four little-endian bytes of a number, cut to them as a cast to `u32` cuts it. -/
def emitU32 (val : ℕ) : List UInt8 := leBytes 4 val

/-- The registers of an instruction, one after the other. -/
def emitRegs (regs : List Reg) : List UInt8 := regs.flatMap emitU32

def emitOpcode (opcode : EvalOpcode) (regs : List Reg) : List UInt8 :=
  opcode.toByte :: emitRegs regs

/-- The bytes of an instruction. -/
def emitInsn : EvalInsn → List UInt8
  | .band dst src1 src2 => emitOpcode .band [dst,src1,src2]
  | .bor dst src1 src2 => emitOpcode .bor [dst,src1,src2]
  | .bxor dst src1 src2 => emitOpcode .bxor [dst,src1,src2]
  | .bxorMulti dst srcs => emitOpcode .bxorMulti [dst] ++ emitU32 srcs.length ++ emitRegs srcs
  | .fax dst src1 src2 src3 => emitOpcode .fax [dst,src1,src2,src3]
  | .select dst cond t f => emitOpcode .select [dst,cond,t,f]
  | .shift dst src variant amount =>
    emitOpcode .shift [dst,src] ++ [UInt8.ofNat variant.toU8,UInt8.ofNat amount]
  | .iaddCinCout dstSum dstCout src1 src2 cin =>
    emitOpcode .iaddCinCout [dstSum,dstCout,src1,src2,cin]
  | .iaddCarry dstCout src1 src2 => emitOpcode .iaddCarry [dstCout,src1,src2]
  | .isubBinBout dstDiff dstBout src1 src2 bin =>
    emitOpcode .isubBinBout [dstDiff,dstBout,src1,src2,bin]
  | .imul dstHi dstLo src1 src2 => emitOpcode .imul [dstHi,dstLo,src1,src2]
  | .bmul dstLo dstHi aLo aHi bLo bHi => emitOpcode .bmul [dstLo,dstHi,aLo,aHi,bLo,bHi]
  | .iadd32CinCout dstSum dstCout src1 src2 cin =>
    emitOpcode .iadd32CinCout [dstSum,dstCout,src1,src2,cin]
  | .iadd32Cout dstSum dstCout src1 src2 => emitOpcode .iadd32Cout [dstSum,dstCout,src1,src2]
  | .assertEq src1 src2 path => emitOpcode .assertEq [src1,src2] ++ emitU32 path
  | .assertEqCond cond src1 src2 path =>
    emitOpcode .assertEqCond [cond,src1,src2] ++ emitU32 path
  | .assertZero src path => emitOpcode .assertZero [src] ++ emitU32 path
  | .assertNonZero src path => emitOpcode .assertNonZero [src] ++ emitU32 path
  | .assertFalse src path => emitOpcode .assertFalse [src] ++ emitU32 path
  | .assertTrue src path => emitOpcode .assertTrue [src] ++ emitU32 path
  | .hint id dimensions inputs outputs =>
    emitOpcode .hint [] ++ emitU32 id ++ emitU32 dimensions.length ++
      dimensions.flatMap emitU32 ++ emitU32 inputs.length ++ emitU32 outputs.length ++
      emitRegs inputs ++ emitRegs outputs

def emitProgram (insns : List EvalInsn) : List UInt8 := insns.flatMap emitInsn

/-- Why a run of the bytecode stops. -/
inductive Fault where
  | unknownOpcode (byte : UInt8)
  /-- A read past the end of the bytecode. -/
  | pastEnd
  /-- A byte that is no shift variant. -/
  | shiftVariant
  | exec (panic : Panic)
  /-- The bound on the number of instructions ran out. -/
  | outOfFuel
deriving DecidableEq

/-- A read at the cursor, which is held as the bytes still ahead of it. -/
abbrev Reader := Decoder Fault

namespace Reader

def readU8 : Reader UInt8
  | [] => .error .pastEnd
  | byte :: ahead => .ok (byte,ahead)

def readBytes (n : ℕ) : Reader (List UInt8) := fun ahead =>
  if n ≤ ahead.length then .ok (ahead.take n,ahead.drop n) else .error .pastEnd

/-- Read four little-endian bytes. -/
def readU32 : Reader ℕ := do
  let bytes ← readBytes 4
  return ofLeBytes bytes

def readReg : Reader Reg := readU32

def readPathSpec : Reader PathSpec := readU32

def readOpcode : Reader EvalOpcode := do
  let byte ← readU8
  match EvalOpcode.fromByte byte with
  | some opcode => return opcode
  | none => throw (.unknownOpcode byte)

def readVariant : Reader ShiftVariant := do
  let byte ← readU8
  match ShiftVariant.fromU8 byte.toNat with
  | some variant => return variant
  | none => throw .shiftVariant

def readOperands : EvalOpcode → Reader EvalInsn
  | .band => do return .band (← readReg) (← readReg) (← readReg)
  | .bor => do return .bor (← readReg) (← readReg) (← readReg)
  | .bxor => do return .bxor (← readReg) (← readReg) (← readReg)
  | .select => do return .select (← readReg) (← readReg) (← readReg) (← readReg)
  | .bxorMulti => do
    let dst ← readReg
    let n ← readU32
    return .bxorMulti dst (← readMany readReg n)
  | .fax => do return .fax (← readReg) (← readReg) (← readReg) (← readReg)
  | .shift => do
    let dst ← readReg
    let src ← readReg
    let variant ← readVariant
    let amount ← readU8
    return .shift dst src variant amount.toNat
  | .iaddCinCout => do
    return .iaddCinCout (← readReg) (← readReg) (← readReg) (← readReg) (← readReg)
  | .iaddCarry => do return .iaddCarry (← readReg) (← readReg) (← readReg)
  | .isubBinBout => do
    return .isubBinBout (← readReg) (← readReg) (← readReg) (← readReg) (← readReg)
  | .imul => do return .imul (← readReg) (← readReg) (← readReg) (← readReg)
  | .bmul => do
    return .bmul (← readReg) (← readReg) (← readReg) (← readReg) (← readReg) (← readReg)
  | .iadd32CinCout => do
    return .iadd32CinCout (← readReg) (← readReg) (← readReg) (← readReg) (← readReg)
  | .iadd32Cout => do return .iadd32Cout (← readReg) (← readReg) (← readReg) (← readReg)
  | .assertEq => do return .assertEq (← readReg) (← readReg) (← readPathSpec)
  | .assertEqCond => do
    return .assertEqCond (← readReg) (← readReg) (← readReg) (← readPathSpec)
  | .assertZero => do return .assertZero (← readReg) (← readPathSpec)
  | .assertNonZero => do return .assertNonZero (← readReg) (← readPathSpec)
  | .assertFalse => do return .assertFalse (← readReg) (← readPathSpec)
  | .assertTrue => do return .assertTrue (← readReg) (← readPathSpec)
  | .hint => do
    let hintId ← readU32
    let nDimensions ← readU32
    let dimensions ← readMany readU32 nDimensions
    let nInputs ← readU32
    let nOutputs ← readU32
    let inputs ← readMany readReg nInputs
    let outputs ← readMany readReg nOutputs
    return .hint hintId dimensions inputs outputs

def readInsn : Reader EvalInsn := do
  let opcode ← readOpcode
  readOperands opcode

end Reader

namespace Executor

variable {σ : Type}

/-- Read and execute instructions until the cursor is at the end. -/
def loop (exec : EvalInsn → σ → Checked σ) : ℕ → List UInt8 → σ → Except Fault σ
  | _, [], s => .ok s
  | 0, _ :: _, _ => .error .outOfFuel
  | fuel + 1, byte :: ahead, s => do
    let (insn,ahead) ← Reader.readInsn (byte :: ahead)
    let s ← (exec insn s).mapError .exec
    loop exec fuel ahead s

/-- Run a program, whatever executing an instruction does. -/
def runWith (exec : EvalInsn → σ → Checked σ) (bytecode : List UInt8) (s : σ) : Except Fault σ :=
  loop exec bytecode.length bytecode s

def run {C : Type} [EvalContext C] (hints : HintRegistry) (bytecode : List UInt8) (ctx : C) :
    Except Fault C :=
  runWith (fun insn ctx => (insn.effect hints).execEach ctx) bytecode ctx

end Executor

/-- The values a four-byte field holds. -/
def u32Bound : ℕ := 2 ^ 32

/-- The numbers an instruction carries in four bytes each: registers, paths, and the identifier and
the guarded counts and dimensions of a hint. -/
def fields : EvalInsn → List ℕ
  | .band dst src1 src2 | .bor dst src1 src2 | .bxor dst src1 src2 => [dst,src1,src2]
  | .bxorMulti dst srcs => dst :: srcs
  | .fax dst src1 src2 src3 => [dst,src1,src2,src3]
  | .select dst cond t f => [dst,cond,t,f]
  | .shift dst src _ _ => [dst,src]
  | .iaddCinCout dstSum dstCout src1 src2 cin => [dstSum,dstCout,src1,src2,cin]
  | .iaddCarry dstCout src1 src2 => [dstCout,src1,src2]
  | .isubBinBout dstDiff dstBout src1 src2 bin => [dstDiff,dstBout,src1,src2,bin]
  | .imul dstHi dstLo src1 src2 => [dstHi,dstLo,src1,src2]
  | .bmul dstLo dstHi aLo aHi bLo bHi => [dstLo,dstHi,aLo,aHi,bLo,bHi]
  | .iadd32CinCout dstSum dstCout src1 src2 cin => [dstSum,dstCout,src1,src2,cin]
  | .iadd32Cout dstSum dstCout src1 src2 => [dstSum,dstCout,src1,src2]
  | .assertEq src1 src2 path => [src1,src2,path]
  | .assertEqCond cond src1 src2 path => [cond,src1,src2,path]
  | .assertZero src path | .assertNonZero src path | .assertFalse src path
  | .assertTrue src path => [src,path]
  | .hint id dimensions inputs outputs =>
    [id,dimensions.length,inputs.length,outputs.length] ++ dimensions ++ inputs ++ outputs

/-- The numbers of an instruction fit the fields that carry them, the count of a multi-way exclusive
or apart. -/
structure Typed (insn : EvalInsn) : Prop where
  fields_lt : ∀ n ∈ fields insn, n < u32Bound
  amount_lt : ∀ dst src variant amount, insn = .shift dst src variant amount → amount < 256

def CountFits (insn : EvalInsn) : Prop :=
  ∀ dst srcs, insn = .bxorMulti dst srcs → srcs.length < u32Bound

namespace Reader

variable {α : Type}

theorem readU32_emit {n : ℕ} (h : n < u32Bound) (rest : List UInt8) :
    readU32 (emitU32 n ++ rest) = .ok (n,rest) := by
  have hlen : (emitU32 n).length = 4 := leBytes_length 4 n
  have hread : readBytes 4 (emitU32 n ++ rest) = .ok (emitU32 n,rest) := by
    unfold readBytes
    rw [if_pos (by rw [length_append,hlen]; omega),take_left' hlen,drop_left' hlen]
  have hval : ofLeBytes (emitU32 n) = n := ofLeBytes_leBytes h
  simp only [readU32,bind,StateT.bind,hread,Except.bind,hval]
  rfl

theorem readU32_bind {n : ℕ} (h : n < u32Bound) (k : ℕ → Reader α) (rest : List UInt8) :
    (readU32 >>= k) (emitU32 n ++ rest) = k n rest := by
  simp only [bind,StateT.bind,readU32_emit h,Except.bind]

theorem readReg_bind {n : ℕ} (h : n < u32Bound) (k : Reg → Reader α) (rest : List UInt8) :
    (readReg >>= k) (emitU32 n ++ rest) = k n rest :=
  readU32_bind h k rest

theorem readPathSpec_bind {n : ℕ} (h : n < u32Bound) (k : PathSpec → Reader α)
    (rest : List UInt8) : (readPathSpec >>= k) (emitU32 n ++ rest) = k n rest :=
  readU32_bind h k rest

theorem readMany_emit (ns : List ℕ) (rest : List UInt8) : (∀ n ∈ ns, n < u32Bound) →
    readMany readU32 ns.length (ns.flatMap emitU32 ++ rest) = .ok (ns,rest) := by
  induction ns with
  | nil => exact fun _ => rfl
  | cons n ns ih =>
    intro h
    rw [forall_mem_cons] at h
    rw [length_cons,readMany,flatMap_cons,append_assoc,readU32_bind h.1]
    simp only [bind,StateT.bind,ih h.2,Except.bind]
    rfl

theorem readMany_bind {ns : List ℕ} (hns : ∀ n ∈ ns, n < u32Bound) (k : List ℕ → Reader α)
    (rest : List UInt8) :
    (readMany readU32 ns.length >>= k) (ns.flatMap emitU32 ++ rest) = k ns rest := by
  simp only [bind,StateT.bind,readMany_emit ns rest hns,Except.bind]

theorem readInsn_opcode (opcode : EvalOpcode) (rest : List UInt8) :
    readInsn (opcode.toByte :: rest) = readOperands opcode rest := by
  simp only [readInsn,readOpcode,readU8,bind,StateT.bind,Except.bind,
    EvalOpcode.fromByte_toByte]
  rfl

theorem readVariant_bind (variant : ShiftVariant) (amount : ℕ)
    (k : ShiftVariant → UInt8 → Reader α) (rest : List UInt8) :
    (readVariant >>= fun variant => readU8 >>= k variant)
      (UInt8.ofNat variant.toU8 :: UInt8.ofNat amount :: rest) =
        k variant (UInt8.ofNat amount) rest := by
  have hbyte : (UInt8.ofNat variant.toU8).toNat = variant.toU8 := by
    rw [UInt8.toNat_ofNat',Nat.mod_eq_of_lt (ShiftVariant.toU8_lt variant)]
  simp only [readVariant,readU8,bind,StateT.bind,Except.bind,hbyte,ShiftVariant.fromU8_toU8]
  rfl

theorem readInsn_emit {insn : EvalInsn} (ht : Typed insn) (hc : CountFits insn)
    (rest : List UInt8) : readInsn (emitInsn insn ++ rest) = .ok (insn,rest) := by
  obtain ⟨hfields,hamount⟩ := ht
  cases insn with
  | bxorMulti dst srcs =>
    have hn : srcs.length < u32Bound := hc dst srcs rfl
    simp only [fields,forall_mem_cons] at hfields
    simp only [emitInsn,emitOpcode,emitRegs,flatMap_cons,flatMap_nil,append_nil,
      cons_append,append_assoc,readInsn_opcode,readOperands,readReg_bind hfields.1,
      readU32_bind hn]
    exact readMany_bind hfields.2 _ rest
  | shift dst src variant amount =>
    have ha := hamount dst src variant amount rfl
    have hbyte : (UInt8.ofNat amount).toNat = amount := by
      rw [UInt8.toNat_ofNat',Nat.mod_eq_of_lt ha]
    simp only [fields,forall_mem_cons] at hfields
    simp only [emitInsn,emitOpcode,emitRegs,flatMap_cons,flatMap_nil,append_nil,
      cons_append,append_assoc,nil_append,readInsn_opcode,readOperands,
      readReg_bind hfields.1,readReg_bind hfields.2.1]
    rw [readVariant_bind variant amount,hbyte]
    rfl
  | hint id dimensions inputs outputs =>
    simp only [fields,cons_append,nil_append,forall_mem_cons,
      forall_mem_append] at hfields
    obtain ⟨hid,hnd,hni,hno,⟨hd,hi⟩,ho⟩ := hfields
    simp only [emitInsn,emitOpcode,emitRegs,flatMap_nil,cons_append,nil_append,
      append_assoc,readInsn_opcode,readOperands,readU32_bind hid,readU32_bind hnd,
      readMany_bind hd,readU32_bind hni,readU32_bind hno]
    exact (readMany_bind hi _ _).trans (readMany_bind ho _ rest)
  | band | bor | bxor | fax | select | iaddCinCout | iaddCarry | isubBinBout | imul | bmul
  | iadd32CinCout | iadd32Cout | assertEq | assertEqCond | assertZero | assertNonZero
  | assertFalse | assertTrue =>
    simp only [fields,forall_mem_cons,not_mem_nil,false_implies,implies_true,
      and_true] at hfields
    simp only [emitInsn,emitOpcode,emitRegs,flatMap_cons,flatMap_nil,append_nil,
      cons_append,append_assoc,readInsn_opcode,readOperands,readReg_bind,
      readPathSpec_bind,hfields]
    rfl

theorem readInsn_countFits : Yields CountFits readInsn := by
  have hU32 : Yields (· < u32Bound) readU32 := by
    intro input n rest h
    unfold readU32 readBytes at h
    simp only [bind,StateT.bind] at h
    split at h
    · rename_i hlen
      cases h
      have hlt := ofLeBytes_lt (input.take 4)
      rwa [length_take,Nat.min_eq_left hlen] at hlt
    · cases h
  refine Yields.any fun opcode => ?_
  cases opcode with
  | bxorMulti =>
    refine Yields.any fun dst => hU32.bind fun n hn => ?_
    refine Yields.bind (P := fun srcs : List ℕ => srcs.length = n)
      (fun _ _ _ h => readMany_length h) fun srcs hlen => Yields.pure fun _ _ heq => ?_
    cases heq
    rwa [hlen]
  | _ =>
    repeat' refine Yields.any fun _ => ?_
    exact Yields.pure nofun

end Reader

theorem emitInsn_ne_nil (insn : EvalInsn) : emitInsn insn ≠ [] := by
  cases insn <;> exact cons_ne_nil _ _

theorem length_le_emitProgram (insns : List EvalInsn) :
    insns.length ≤ (emitProgram insns).length := by
  induction insns with
  | nil => exact Nat.zero_le _
  | cons insn rest ih =>
    have hpos := length_pos_iff.mpr (emitInsn_ne_nil insn)
    rw [emitProgram] at ih ⊢
    rw [flatMap_cons,length_append,length_cons]
    omega

namespace Executor

variable {σ : Type} {exec : EvalInsn → σ → Checked σ}

theorem loop_succ {ahead : List UInt8} (h : ahead ≠ []) (fuel : ℕ) (s : σ) :
    loop exec (fuel + 1) ahead s = (Reader.readInsn ahead >>= fun read =>
      ((exec read.1 s).mapError .exec >>= fun s => loop exec fuel read.2 s)) := by
  cases ahead with
  | nil => exact absurd rfl h
  | cons byte ahead => rfl

theorem loop_emit (insns : List EvalInsn) : ∀ {fuel : ℕ} {s : σ},
    (∀ insn ∈ insns, Typed insn ∧ CountFits insn) → insns.length ≤ fuel →
      loop exec fuel (emitProgram insns) s =
        (insns.foldlM (fun s insn => exec insn s) s).mapError .exec := by
  induction insns with
  | nil =>
    intro fuel s _ _
    cases fuel <;> rfl
  | cons insn rest ih =>
    intro fuel s h hfuel
    rw [forall_mem_cons] at h
    obtain ⟨fuel,rfl⟩ : ∃ n, fuel = n + 1 := ⟨fuel - 1,by rw [length_cons] at hfuel; omega⟩
    have hcons : emitProgram (insn :: rest) = emitInsn insn ++ emitProgram rest := rfl
    have hne : emitInsn insn ++ emitProgram rest ≠ [] :=
      append_ne_nil_of_left_ne_nil (emitInsn_ne_nil insn) _
    rw [hcons,loop_succ hne,Reader.readInsn_emit h.1.1 h.1.2,foldlM_cons]
    change ((exec insn s).mapError .exec >>= fun s => loop exec fuel (emitProgram rest) s) = _
    cases exec insn s with
    | error panic => rfl
    | ok s => exact ih h.2 (Nat.le_of_succ_le_succ hfuel)

def Executes (bytecode : List UInt8) (insns : List EvalInsn) : Prop :=
  ∀ (σ : Type) (exec : EvalInsn → σ → Checked σ) (s : σ),
    runWith exec bytecode s = (insns.foldlM (fun s insn => exec insn s) s).mapError .exec

/-- Executing by keeping the instruction. -/
def trace (insn : EvalInsn) (log : List EvalInsn) : Checked (List EvalInsn) := return log ++ [insn]

theorem foldlM_trace (insns log : List EvalInsn) :
    insns.foldlM (fun log insn => trace insn log) log = .ok (log ++ insns) := by
  induction insns generalizing log with
  | nil => rw [append_nil]; rfl
  | cons insn rest ih =>
    rw [foldlM_cons]
    change rest.foldlM (fun log insn => trace insn log) (log ++ [insn]) = _
    rw [ih,append_assoc]
    rfl

theorem loop_trace_countFits (fuel : ℕ) : ∀ {ahead : List UInt8} {log after : List EvalInsn},
    (∀ insn ∈ log, CountFits insn) → loop trace fuel ahead log = .ok after →
      ∀ insn ∈ after, CountFits insn := by
  induction fuel with
  | zero =>
    intro ahead log after hlog h
    cases ahead with
    | nil =>
      cases h
      exact hlog
    | cons byte ahead => cases h
  | succ fuel ih =>
    intro ahead log after hlog h
    by_cases hnil : ahead = []
    · rw [hnil] at h
      cases h
      exact hlog
    rw [loop_succ hnil] at h
    cases hread : Reader.readInsn ahead with
    | error e =>
      rw [hread] at h
      cases h
    | ok read =>
      rw [hread] at h
      refine ih (forall_mem_append.mpr ⟨hlog,?_⟩) h
      exact forall_mem_singleton.mpr
        (Reader.readInsn_countFits ahead read.1 read.2 hread)

theorem executes_iff {insns : List EvalInsn} (ht : ∀ insn ∈ insns, Typed insn) :
    Executes (emitProgram insns) insns ↔ ∀ insn ∈ insns, CountFits insn := by
  constructor
  · intro h
    have htrace := h (List EvalInsn) trace []
    rw [foldlM_trace] at htrace
    exact loop_trace_countFits _ (fun _ hm => absurd hm not_mem_nil) htrace
  · intro h σ exec s
    exact loop_emit insns (fun insn hi => ⟨ht insn hi,h insn hi⟩) (length_le_emitProgram insns)

end Executor

theorem Executor.runWith_wide {σ : Type} {exec : EvalInsn → σ → Checked σ} {dst : Reg}
    {front back : List Reg} (hdst : dst < u32Bound) (hfront : ∀ src ∈ front, src < u32Bound)
    (hcut : (front ++ 0 :: back).length % u32Bound = front.length) (s : σ) :
    runWith exec (emitProgram [.bxorMulti dst (front ++ 0 :: back)]) s =
      ((exec (.bxorMulti dst front) s).mapError .exec >>= fun _ => .error (.unknownOpcode 0)) := by
  have hlt : front.length < u32Bound := hcut ▸ Nat.mod_lt _ (by decide)
  have hcount : emitU32 (front ++ 0 :: back).length = emitU32 front.length := by
    rw [←hcut]
    exact (leBytes_mod 4 _).symm
  have hbytes : emitProgram [.bxorMulti dst (front ++ 0 :: back)] =
      EvalOpcode.bxorMulti.toByte :: (emitU32 dst ++ (emitU32 front.length ++
        (front.flatMap emitU32 ++ (0 :: ([0,0,0] ++ emitRegs back))))) := by
    have hzero : emitU32 0 = [0,0,0,0] := rfl
    simp only [emitProgram,emitInsn,emitOpcode,emitRegs,hcount,
      flatMap_cons,flatMap_nil,append_nil,flatMap_append,hzero,
      cons_append,nil_append,append_assoc]
  have hfirst : Reader.readInsn (emitProgram [.bxorMulti dst (front ++ 0 :: back)]) =
      .ok (.bxorMulti dst front,0 :: ([0,0,0] ++ emitRegs back)) := by
    rw [hbytes,Reader.readInsn_opcode,Reader.readOperands,Reader.readReg_bind hdst,
      Reader.readU32_bind hlt]
    exact Reader.readMany_bind hfront _ _
  obtain ⟨n,hn⟩ : ∃ n, (emitProgram [.bxorMulti dst (front ++ 0 :: back)]).length = n + 2 := by
    refine Nat.exists_eq_add_of_le' ?_
    rw [hbytes,length_cons,length_append,emitU32,leBytes_length]
    omega
  rw [runWith,hn,loop_succ (by rw [hbytes]; exact cons_ne_nil _ _),hfirst]
  change ((exec (.bxorMulti dst front) s).mapError .exec >>= fun s => loop exec (n + 1) _ s) = _
  cases exec (.bxorMulti dst front) s with
  | error panic => rfl
  | ok s => rfl

end Binius64.Bytecode
