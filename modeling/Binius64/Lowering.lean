import Binius64.WireConstraints

/-!
# Lowering to the constraint system

The operand expressions gates are written with, the wires a builder mentions, and the lowering of
wire-level constraints to value indices.
-/

namespace Binius64.Lowering

open MachineWord ValueVector ConstraintSystem WireConstraints

namespace Expr

variable (w : Wire) (n : ℕ)

def sll : WireExprTerm := .shifted w ⟨.sll,n⟩

def sll32 : WireExprTerm := .shifted w ⟨.sll32,n⟩

/-- Logically right-shift the whole word. -/
def srl : WireExprTerm := .shifted w ⟨.slr,n⟩

/-- Logically right-shift each 32-bit lane. -/
def srl32 : WireExprTerm := .shifted w ⟨.srl32,n⟩

/-- Arithmetically right-shift the whole word. -/
def sar : WireExprTerm := .shifted w ⟨.sar,n⟩

/-- Arithmetically right-shift each 32-bit lane. -/
def sra32 : WireExprTerm := .shifted w ⟨.sra32,n⟩

/-- Rotate the whole word right. -/
def rotr : WireExprTerm := .shifted w ⟨.rotr,n⟩

/-- Rotate each 32-bit lane right. -/
def rotr32 : WireExprTerm := .shifted w ⟨.rotr32,n⟩

end Expr

/-- What lowering and the dropping of terms need of a constraint of the system. -/
class OperandConstraint (C : Type) extends HasOperands C where
  Holds : WordSource → C → Prop
  mapOperands : (Operand → Operand) → C → C
  operands_mapOperands : ∀ f c, (operands (mapOperands f c)).map Prod.fst =
    ((operands c).map Prod.fst).map f
  holds_congr : ∀ (source : WordSource) (c d : C),
    ((operands c).map Prod.fst).map (evalOperand source) =
      ((operands d).map Prod.fst).map (evalOperand source) → (Holds source c ↔ Holds source d)

instance : OperandConstraint ZeroConstraint where
  Holds source c := c.Holds source
  mapOperands f c := ⟨f c.val⟩
  operands_mapOperands _ _ := rfl
  holds_congr source c d h := by
    simp only [HasOperands.operands,List.map_cons,List.map_nil,List.cons.injEq] at h
    rw [ZeroConstraint.Holds,ZeroConstraint.Holds,h.1]

instance : OperandConstraint AndConstraint where
  Holds source c := c.Holds source
  mapOperands f c := ⟨f c.a,f c.b,f c.c⟩
  operands_mapOperands _ _ := rfl
  holds_congr source c d h := by
    simp only [HasOperands.operands,List.map_cons,List.map_nil,List.cons.injEq] at h
    rw [AndConstraint.Holds,AndConstraint.Holds,h.1,h.2.1,h.2.2.1]

instance : OperandConstraint ImulConstraint where
  Holds source c := c.Holds source
  mapOperands f c := ⟨f c.a,f c.b,f c.lo,f c.hi⟩
  operands_mapOperands _ _ := rfl
  holds_congr source c d h := by
    simp only [HasOperands.operands,List.map_cons,List.map_nil,List.cons.injEq] at h
    rw [ImulConstraint.Holds,ImulConstraint.Holds,h.1,h.2.1,h.2.2.1,h.2.2.2.1]

instance : OperandConstraint BmulConstraint where
  Holds source c := c.Holds source
  mapOperands f c := ⟨f c.aLo,f c.aHi,f c.bLo,f c.bHi,f c.cLo,f c.cHi⟩
  operands_mapOperands _ _ := rfl
  holds_congr source c d h := by
    simp only [HasOperands.operands,List.map_cons,List.map_nil,List.cons.injEq] at h
    rw [BmulConstraint.Holds,BmulConstraint.Holds,h.1,h.2.1,h.2.2.1,h.2.2.2.1,h.2.2.2.2.1,
      h.2.2.2.2.2.1]

class Lowers (C D : Type) [WireConstraint C] [OperandConstraint D] where
  intoConstraint : (Wire → ValueIndex) → C → D
  operands_intoConstraint : ∀ mapping c, (HasOperands.operands (intoConstraint mapping c)).map
    Prod.fst = (WireConstraint.operands c).map (intoValueIndices mapping)
  intoConstraint_holds : ∀ (source : WordSource) (mapping : Wire → ValueIndex) (c : C),
    OperandConstraint.Holds source (intoConstraint mapping c) ↔
      WireConstraint.Holds (fun w => source (mapping w)) c

instance : Lowers WireAndConstraint AndConstraint where
  intoConstraint mapping c :=
    ⟨intoValueIndices mapping c.a,intoValueIndices mapping c.b,intoValueIndices mapping c.c⟩
  operands_intoConstraint _ _ := rfl
  intoConstraint_holds source mapping c := by
    simp only [OperandConstraint.Holds,AndConstraint.Holds,evalOperand_intoValueIndices]
    rfl

instance : Lowers WireImulConstraint ImulConstraint where
  intoConstraint mapping c :=
    ⟨intoValueIndices mapping c.a,intoValueIndices mapping c.b,intoValueIndices mapping c.lo,
      intoValueIndices mapping c.hi⟩
  operands_intoConstraint _ _ := rfl
  intoConstraint_holds source mapping c := by
    simp only [OperandConstraint.Holds,ImulConstraint.Holds,evalOperand_intoValueIndices]
    rfl

instance : Lowers WireBmulConstraint BmulConstraint where
  intoConstraint mapping c :=
    ⟨intoValueIndices mapping c.aLo,intoValueIndices mapping c.aHi,
      intoValueIndices mapping c.bLo,intoValueIndices mapping c.bHi,
      intoValueIndices mapping c.cLo,intoValueIndices mapping c.cHi⟩
  operands_intoConstraint _ _ := rfl
  intoConstraint_holds source mapping c := by
    simp only [OperandConstraint.Holds,BmulConstraint.Holds,evalOperand_intoValueIndices]
    rfl

instance : Lowers WireZeroConstraint ZeroConstraint where
  intoConstraint mapping c := ⟨intoValueIndices mapping c.val⟩
  operands_intoConstraint _ _ := rfl
  intoConstraint_holds source mapping c := by
    simp only [OperandConstraint.Holds,ZeroConstraint.Holds,evalOperand_intoValueIndices]
    rfl

def intoZeroConstraint (mapping : Wire → ValueIndex) (c : WireLinearConstraint) :
    ZeroConstraint :=
  ⟨intoValueIndices mapping c.rhs ++ [.plain (mapping c.dst)]⟩

structure LoweredConstraints where
  zero : List ZeroConstraint
  and : List AndConstraint
  imul : List ImulConstraint
  bmul : List BmulConstraint

def build (cb : ConstraintBuilder) (mapping : Wire → ValueIndex) : LoweredConstraints where
  zero := cb.linearConstraints.map (intoZeroConstraint mapping) ++
    cb.zeroConstraints.map (Lowers.intoConstraint mapping)
  and := cb.andConstraints.map (Lowers.intoConstraint mapping)
  imul := cb.imulConstraints.map (Lowers.intoConstraint mapping)
  bmul := cb.bmulConstraints.map (Lowers.intoConstraint mapping)

/-- Drop the terms that read a constant equal to zero. -/
def retainNonzero (constants : List Word) (operand : Operand) : Operand :=
  operand.filter fun t =>
    t.valueIndex.segment ≠ .constant ∨ constants[t.valueIndex.index]? ≠ some 0

namespace LoweredConstraints

def mapOperands (f : Operand → Operand) (l : LoweredConstraints) : LoweredConstraints where
  zero := l.zero.map (OperandConstraint.mapOperands f)
  and := l.and.map (OperandConstraint.mapOperands f)
  imul := l.imul.map (OperandConstraint.mapOperands f)
  bmul := l.bmul.map (OperandConstraint.mapOperands f)

end LoweredConstraints

end Binius64.Lowering
