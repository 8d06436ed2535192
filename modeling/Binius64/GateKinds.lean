import Binius64.GateGraph
import Binius64.Lowering

/-!
# The gate kinds

What each kind of gate constrains and how it evaluates, under the kind's own name, and the folding
of a gate whose inputs are all constant.
-/

namespace Binius64.GateKinds

open MachineWord ShiftAlgebra GhashField ValueVector WireConstraints Lowering EvalForm GateGraph

variable (gate : GateData) (cb : ConstraintBuilder) (reg : Wire → Reg)

namespace Band

def constrain : Checked ConstraintBuilder := do
  let [x,y] := gate.inputs | throw .gateArity
  let [z] := gate.outputs | throw .gateArity
  -- x ∧ y = z
  return cb.and [.wire x] [.wire y] [.wire z]

def emit : Checked (List EvalInsn) := do
  let [x,y] := gate.inputs | throw .gateArity
  let [z] := gate.outputs | throw .gateArity
  return [.band (reg z) (reg x) (reg y)]

end Band

namespace Bxor

def constrain : Checked ConstraintBuilder := do
  let [x,y] := gate.inputs | throw .gateArity
  let [z] := gate.outputs | throw .gateArity
  -- x ⊕ y = z
  return cb.linear [.wire x,.wire y] z

def emit : Checked (List EvalInsn) := do
  let [x,y] := gate.inputs | throw .gateArity
  let [z] := gate.outputs | throw .gateArity
  return [.bxor (reg z) (reg x) (reg y)]

end Bxor

namespace BxorMulti

def constrain : Checked ConstraintBuilder := do
  let [z] := gate.outputs | throw .gateArity
  -- x0 ⊕ x1 ⊕ ... ⊕ xn = z
  return cb.linear (gate.inputs.map .wire) z

def emit : Checked (List EvalInsn) := do
  let [z] := gate.outputs | throw .gateArity
  return [.bxorMulti (reg z) (gate.inputs.map reg)]

end BxorMulti

namespace Bor

def constrain : Checked ConstraintBuilder := do
  let [x,y] := gate.inputs | throw .gateArity
  let [z] := gate.outputs | throw .gateArity
  -- x ∧ y = x ⊕ y ⊕ z
  return cb.and [.wire x] [.wire y] [.wire x,.wire y,.wire z]

def emit : Checked (List EvalInsn) := do
  let [x,y] := gate.inputs | throw .gateArity
  let [z] := gate.outputs | throw .gateArity
  return [.bor (reg z) (reg x) (reg y)]

end Bor

namespace Fax

def constrain : Checked ConstraintBuilder := do
  let [x,y,w] := gate.inputs | throw .gateArity
  let [z] := gate.outputs | throw .gateArity
  -- x ∧ y = z ⊕ w, which is z = (x ∧ y) ⊕ w rearranged
  return cb.and [.wire x] [.wire y] [.wire z,.wire w]

def emit : Checked (List EvalInsn) := do
  let [x,y,w] := gate.inputs | throw .gateArity
  let [z] := gate.outputs | throw .gateArity
  return [.fax (reg z) (reg x) (reg y) (reg w)]

end Fax

namespace Select

def constrain : Checked ConstraintBuilder := do
  let [cond,t,f] := gate.inputs | throw .gateArity
  let [out] := gate.outputs | throw .gateArity
  -- (cond >> 63) · (t ⊕ f) = out ⊕ f in the GHASH field, every high word empty
  return cb.bmul [Expr.srl cond 63] [] [.wire t,.wire f] [] [.wire out,.wire f] []

def emit : Checked (List EvalInsn) := do
  let [cond,t,f] := gate.inputs | throw .gateArity
  let [out] := gate.outputs | throw .gateArity
  return [.select (reg out) (reg cond) (reg t) (reg f)]

end Select

namespace IaddCinCout

def constrain : Checked ConstraintBuilder := do
  let [a,b,cin] := gate.inputs | throw .gateArity
  let [sum,cout] := gate.outputs | throw .gateArity
  let coutSll1 := Expr.sll cout 1
  let cinMsb := Expr.srl cin 63
  -- Carry propagation, then the sum as a definition.
  let cb := cb.and [.wire a,coutSll1,cinMsb] [.wire b,coutSll1,cinMsb]
    [.wire cout,coutSll1,cinMsb]
  return cb.linear [.wire a,.wire b,coutSll1,cinMsb] sum

def emit : Checked (List EvalInsn) := do
  let [a,b,cin] := gate.inputs | throw .gateArity
  let [sum,cout] := gate.outputs | throw .gateArity
  return [.iaddCinCout (reg sum) (reg cout) (reg a) (reg b) (reg cin)]

end IaddCinCout

namespace Iadd32

def constrain : Checked ConstraintBuilder := do
  let [x,y] := gate.inputs | throw .gateArity
  let [z,cout] := gate.outputs | throw .gateArity
  let coutShifted := Expr.sll32 cout 1
  let cb := cb.and [.wire x,coutShifted] [.wire y,coutShifted] [.wire cout,coutShifted]
  return cb.linear [.wire x,.wire y,coutShifted] z

def emit : Checked (List EvalInsn) := do
  let [a,b] := gate.inputs | throw .gateArity
  let [sum,cout] := gate.outputs | throw .gateArity
  return [.iadd32Cout (reg sum) (reg cout) (reg a) (reg b)]

end Iadd32

namespace Iadd32CinCout

def constrain : Checked ConstraintBuilder := do
  let [x,y,cin] := gate.inputs | throw .gateArity
  let [z,cout] := gate.outputs | throw .gateArity
  let coutShifted := Expr.sll32 cout 1
  let cinBit := Expr.srl32 cin 31
  let cb := cb.and [.wire x,coutShifted,cinBit] [.wire y,coutShifted,cinBit]
    [.wire cout,coutShifted,cinBit]
  return cb.linear [.wire x,.wire y,coutShifted,cinBit] z

def emit : Checked (List EvalInsn) := do
  let [a,b,cin] := gate.inputs | throw .gateArity
  let [sum,cout] := gate.outputs | throw .gateArity
  return [.iadd32CinCout (reg sum) (reg cout) (reg a) (reg b) (reg cin)]

end Iadd32CinCout

namespace IsubBinBout

def constrain : Checked ConstraintBuilder := do
  let [allOneWire] := gate.constants | throw .gateArity
  let [a,b,bin] := gate.inputs | throw .gateArity
  let [diff,bout] := gate.outputs | throw .gateArity
  let boutSll1 := Expr.sll bout 1
  let binMsb := Expr.srl bin 63
  -- Borrow propagation, with the left operand complemented.
  let cb := cb.and [.wire allOneWire,.wire a,boutSll1,binMsb] [.wire b,boutSll1,binMsb]
    [.wire bout,boutSll1,binMsb]
  return cb.linear [.wire a,.wire b,boutSll1,binMsb] diff

def emit : Checked (List EvalInsn) := do
  let [a,b,bin] := gate.inputs | throw .gateArity
  let [diff,bout] := gate.outputs | throw .gateArity
  return [.isubBinBout (reg diff) (reg bout) (reg a) (reg b) (reg bin)]

end IsubBinBout

namespace Imul

def constrain : Checked ConstraintBuilder := do
  let [x,y] := gate.inputs | throw .gateArity
  let [hi,lo] := gate.outputs | throw .gateArity
  -- x * y = (hi << 64) | lo
  return cb.imul [.wire x] [.wire y] [.wire hi] [.wire lo]

def emit : Checked (List EvalInsn) := do
  let [x,y] := gate.inputs | throw .gateArity
  let [hi,lo] := gate.outputs | throw .gateArity
  return [.imul (reg hi) (reg lo) (reg x) (reg y)]

end Imul

namespace Bmul

def constrain : Checked ConstraintBuilder := do
  let [aLo,aHi,bLo,bHi] := gate.inputs | throw .gateArity
  let [cLo,cHi] := gate.outputs | throw .gateArity
  return cb.bmul [.wire aLo] [.wire aHi] [.wire bLo] [.wire bHi] [.wire cLo] [.wire cHi]

def emit : Checked (List EvalInsn) := do
  let [aLo,aHi,bLo,bHi] := gate.inputs | throw .gateArity
  let [cLo,cHi] := gate.outputs | throw .gateArity
  return [.bmul (reg cLo) (reg cHi) (reg aLo) (reg aHi) (reg bLo) (reg bHi)]

end Bmul

namespace Shift

/-- Decode the variant immediate, whose low byte is the discriminant. -/
def variantOf (imm : ℕ) : Checked ShiftVariant :=
  match ShiftVariant.fromU8 (imm % 256) with
  | some variant => return variant
  | none => throw .shiftVariant

def shiftedTerm (variant : ShiftVariant) (x : Wire) (n : ℕ) : WireExprTerm :=
  if n = 0 then .wire x
  else
    match variant with
    | .sll => Expr.sll x n
    | .slr => Expr.srl x n
    | .sar => Expr.sar x n
    | .rotr => Expr.rotr x n
    | .sll32 => Expr.sll32 x n
    | .srl32 => Expr.srl32 x n
    | .sra32 => Expr.sra32 x n
    | .rotr32 => Expr.rotr32 x n

def constrain : Checked ConstraintBuilder := do
  let [x] := gate.inputs | throw .gateArity
  let [z] := gate.outputs | throw .gateArity
  let [variant,n] := gate.immediates | throw .gateArity
  let variant ← variantOf variant
  return cb.linear [shiftedTerm variant x n] z

def emit : Checked (List EvalInsn) := do
  let [x] := gate.inputs | throw .gateArity
  let [z] := gate.outputs | throw .gateArity
  let [variant,n] := gate.immediates | throw .gateArity
  let variant ← variantOf variant
  return [.shift (reg z) (reg x) variant (n % 256)]

end Shift

namespace IcmpUlt

def constrain : Checked ConstraintBuilder := do
  let [allOneWire] := gate.constants | throw .gateArity
  let [x,y] := gate.inputs | throw .gateArity
  let [bout] := gate.outputs | throw .gateArity
  -- The carries of ¬x + y.
  return cb.and [.wire x,.wire allOneWire,Expr.sll bout 1] [.wire y,Expr.sll bout 1]
    [.wire bout,Expr.sll bout 1]

def emit : Checked (List EvalInsn) := do
  let [allOneWire] := gate.constants | throw .gateArity
  let [x,y] := gate.inputs | throw .gateArity
  let [bout] := gate.outputs | throw .gateArity
  let [negatedX] := gate.scratch | throw .gateArity
  return [.bxor (reg negatedX) (reg x) (reg allOneWire),
    .iaddCarry (reg bout) (reg negatedX) (reg y)]

end IcmpUlt

namespace IcmpEq

def constrain : Checked ConstraintBuilder := do
  let [allOneWire,msbOneWire] := gate.constants | throw .gateArity
  let [x,y] := gate.inputs | throw .gateArity
  let [out] := gate.outputs | throw .gateArity
  let cin := Expr.sll out 1
  -- The carries of all-1 + (x ⊕ y), whose top bit the output holds inverted.
  return cb.and [.wire x,.wire y,cin] [.wire allOneWire,cin] [cin,.wire out,.wire msbOneWire]

def emit : Checked (List EvalInsn) := do
  let [allOneWire,msbOneWire] := gate.constants | throw .gateArity
  let [x,y] := gate.inputs | throw .gateArity
  let [out] := gate.outputs | throw .gateArity
  let [cout] := gate.aux | throw .gateArity
  let [diff] := gate.scratch | throw .gateArity
  return [.bxor (reg diff) (reg x) (reg y),
    .iaddCarry (reg cout) (reg allOneWire) (reg diff),
    .bxor (reg out) (reg cout) (reg msbOneWire)]

end IcmpEq

namespace AssertEq

def constrain : Checked ConstraintBuilder := do
  let [x,y] := gate.inputs | throw .gateArity
  return cb.zero [.wire x,.wire y]

def emit : Checked (List EvalInsn) := do
  let [x,y] := gate.inputs | throw .gateArity
  return [.assertEq (reg x) (reg y) gate.path]

end AssertEq

namespace AssertZero

def constrain : Checked ConstraintBuilder := do
  let [x] := gate.inputs | throw .gateArity
  return cb.zero [.wire x]

def emit : Checked (List EvalInsn) := do
  let [x] := gate.inputs | throw .gateArity
  return [.assertZero (reg x) gate.path]

end AssertZero

namespace AssertNonZero

def constrain : Checked ConstraintBuilder := do
  let [allOneWire] := gate.constants | throw .gateArity
  let [x] := gate.inputs | throw .gateArity
  let [cout] := gate.aux | throw .gateArity
  let cin := Expr.sll cout 1
  -- The carries of all-1 + x, then that the top one is set.
  let cb := cb.and [.wire x,cin] [.wire allOneWire,cin] [cin,.wire cout]
  return cb.zero [Expr.sar cout 63,.wire allOneWire]

def emit : Checked (List EvalInsn) := do
  let [allOneWire] := gate.constants | throw .gateArity
  let [x] := gate.inputs | throw .gateArity
  let [cout] := gate.aux | throw .gateArity
  return [.iaddCarry (reg cout) (reg allOneWire) (reg x),.assertNonZero (reg cout) gate.path]

end AssertNonZero

namespace AssertFalse

def constrain : Checked ConstraintBuilder := do
  let [x] := gate.inputs | throw .gateArity
  return cb.zero [Expr.sar x 63]

def emit : Checked (List EvalInsn) := do
  let [x] := gate.inputs | throw .gateArity
  return [.assertFalse (reg x) gate.path]

end AssertFalse

namespace AssertTrue

def constrain : Checked ConstraintBuilder := do
  let [allOneWire] := gate.constants | throw .gateArity
  let [x] := gate.inputs | throw .gateArity
  return cb.zero [Expr.sar x 63,.wire allOneWire]

def emit : Checked (List EvalInsn) := do
  let [x] := gate.inputs | throw .gateArity
  return [.assertTrue (reg x) gate.path]

end AssertTrue

namespace AssertEqCond

def constrain : Checked ConstraintBuilder := do
  let [x,y,cond] := gate.inputs | throw .gateArity
  -- (x ⊕ y) ∧ (cond ~>> 63) = 0
  return cb.and [.wire x,.wire y] [Expr.sar cond 63] []

def emit : Checked (List EvalInsn) := do
  let [x,y,cond] := gate.inputs | throw .gateArity
  return [.assertEqCond (reg cond) (reg x) (reg y) gate.path]

end AssertEqCond

def Opcode.constrain : Opcode → GateData → ConstraintBuilder → Checked ConstraintBuilder
  | .band => Band.constrain
  | .bxor => Bxor.constrain
  | .bxorMulti => BxorMulti.constrain
  | .bor => Bor.constrain
  | .fax => Fax.constrain
  | .select => Select.constrain
  | .iaddCinCout => IaddCinCout.constrain
  | .iadd32 => Iadd32.constrain
  | .iadd32CinCout => Iadd32CinCout.constrain
  | .isubBinBout => IsubBinBout.constrain
  | .imul => Imul.constrain
  | .bmul => Bmul.constrain
  | .shift => Shift.constrain
  | .icmpUlt => IcmpUlt.constrain
  | .icmpEq => IcmpEq.constrain
  | .assertEq => AssertEq.constrain
  | .assertZero => AssertZero.constrain
  | .assertNonZero => AssertNonZero.constrain
  | .assertFalse => AssertFalse.constrain
  | .assertTrue => AssertTrue.constrain
  | .assertEqCond => AssertEqCond.constrain

def Opcode.emit : Opcode → GateData → (Wire → Reg) → Checked (List EvalInsn)
  | .band => Band.emit
  | .bxor => Bxor.emit
  | .bxorMulti => BxorMulti.emit
  | .bor => Bor.emit
  | .fax => Fax.emit
  | .select => Select.emit
  | .iaddCinCout => IaddCinCout.emit
  | .iadd32 => Iadd32.emit
  | .iadd32CinCout => Iadd32CinCout.emit
  | .isubBinBout => IsubBinBout.emit
  | .imul => Imul.emit
  | .bmul => Bmul.emit
  | .shift => Shift.emit
  | .icmpUlt => IcmpUlt.emit
  | .icmpEq => IcmpEq.emit
  | .assertEq => AssertEq.emit
  | .assertZero => AssertZero.emit
  | .assertNonZero => AssertNonZero.emit
  | .assertFalse => AssertFalse.emit
  | .assertTrue => AssertTrue.emit
  | .assertEqCond => AssertEqCond.emit

/-- Append the constraints a gate contributes. A hint contributes none. -/
def constrain : Checked ConstraintBuilder :=
  match gate.body with
  | .op opcode => Opcode.constrain opcode gate cb
  | .hint _ => return cb

/-- The instructions that derive a gate's outputs. -/
def emitBytecode : Checked (List EvalInsn) :=
  match gate.body with
  | .op opcode => Opcode.emit opcode gate reg
  | .hint id => return [.hint id gate.dimensions (gate.inputs.map reg) (gate.outputs.map reg)]

/-- Fold a gate of an opcode over the words of its inputs; the words of its
outputs, or the violation of an assertion. -/
def evaluateOpcode (constants : List Word) : Opcode → Checked (Except AssertionDetail (List Word))
  | .band => do
    let [x,y] := constants | throw .gateArity
    return .ok [x &&& y]
  | .bor => do
    let [x,y] := constants | throw .gateArity
    return .ok [x ||| y]
  | .bxor => do
    let [x,y] := constants | throw .gateArity
    return .ok [x ^^^ y]
  | .bxorMulti => return .ok [constants.foldl (· ^^^ ·) 0]
  | .fax => do
    let [x,y,w] := constants | throw .gateArity
    return .ok [(x &&& y) ^^^ w]
  | .select => do
    let [cond,t,f] := constants | throw .gateArity
    return .ok [if isMsbTrue cond then t else f]
  | .shift => do
    let [x] := constants | throw .gateArity
    let [variant,n] := gate.immediates | throw .gateArity
    let variant ← Shift.variantOf variant
    return .ok [variant.apply x n]
  | .iaddCinCout => do
    let [a,b,cin] := constants | throw .gateArity
    let (sum,cout) := iaddCinCout a b (cin >>> 63)
    return .ok [sum,cout]
  | .iadd32 => do
    let [a,b] := constants | throw .gateArity
    let (sum,cout) := iaddCout32 a b
    return .ok [sum,cout]
  | .iadd32CinCout => do
    let [a,b,cin] := constants | throw .gateArity
    let (sum,cout) := iadd32CinCout a b cin
    return .ok [sum,cout]
  | .isubBinBout => do
    let [a,b,bin] := constants | throw .gateArity
    let (diff,bout) := isubBinBout a b (bin >>> 63)
    return .ok [diff,bout]
  | .imul => do
    let [x,y] := constants | throw .gateArity
    let (hi,lo) := imul x y
    return .ok [hi,lo]
  | .bmul => do
    let [aLo,aHi,bLo,bHi] := constants | throw .gateArity
    let (cLo,cHi) := ghashMul aLo aHi bLo bHi
    return .ok [cLo,cHi]
  | .icmpUlt => do
    let [x,y] := constants | throw .gateArity
    return .ok [(iaddCinCout (x ^^^ allOne) y 0).2]
  | .icmpEq => do
    let [x,y] := constants | throw .gateArity
    return .ok [(iaddCinCout allOne (x ^^^ y) 0).2 ^^^ msbOne]
  | .assertEq => do
    let [x,y] := constants | throw .gateArity
    return if x ≠ y then .error (.notEqual x y) else .ok []
  | .assertEqCond => do
    let [x,y,cond] := constants | throw .gateArity
    return if isMsbTrue cond ∧ x ≠ y then .error (.conditional x y) else .ok []
  | .assertZero => do
    let [x] := constants | throw .gateArity
    return if x ≠ 0 then .error (.notZero x) else .ok []
  | .assertNonZero => do
    let [x] := constants | throw .gateArity
    return if x = 0 then .error (.zero x) else .ok []
  | .assertFalse => do
    let [x] := constants | throw .gateArity
    return if isMsbTrue x then .error (.msbTrue x) else .ok []
  | .assertTrue => do
    let [x] := constants | throw .gateArity
    return if isMsbFalse x then .error (.msbFalse x) else .ok []

def evaluateGateConstants (hints : HintRegistry) (gate : GateData) (constants : List Word) :
    Checked (Except AssertionDetail (List Word)) :=
  match gate.body with
  | .op opcode => evaluateOpcode gate constants opcode
  | .hint id => return .ok ((hints id).execute gate.dimensions constants)

end Binius64.GateKinds
