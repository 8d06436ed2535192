import Binius64.ConstraintSystem

/-!
# Wire-level constraints

Operands and constraints over wires, as the gates emit them and gate fusion rewrites them, and their
lowering to value indices.
-/

namespace Binius64.WireConstraints

open MachineWord ShiftAlgebra ValueVector ConstraintSystem GhashField List

abbrev Wire := ℕ

/-- The shifts folded into one term, innermost first. -/
structure ShiftSeq where
  inner : Shift
  outer : Shift
deriving DecidableEq

namespace ShiftSeq

def apply (seq : ShiftSeq) (w : Word) : Word :=
  seq.outer.apply (seq.inner.apply w)

structure InRange (seq : ShiftSeq) : Prop where
  inner : seq.inner.InRange
  outer : seq.outer.InRange

theorem apply_xor {seq : ShiftSeq} (h : seq.InRange) (v w : Word) :
    seq.apply (v ^^^ w) = seq.apply v ^^^ seq.apply w := by
  rw [apply,Shift.apply_xor h.inner,Shift.apply_xor h.outer]
  rfl

theorem apply_zero {seq : ShiftSeq} (h : seq.InRange) : seq.apply 0 = 0 := by
  rw [apply,Shift.apply_zero h.inner,Shift.apply_zero h.outer]

/-- A sequence validation accepts: canonical shifts, a lone shift inner, and no
pair that collapses. -/
structure Canonical (seq : ShiftSeq) : Prop extends InRange seq where
  innerCanonical : seq.inner.isCanonical = true
  outerCanonical : seq.outer.isCanonical = true
  loneInner : seq.inner.isIdentity = true → seq.outer.isIdentity = true
  irreducible : seq.outer.isIdentity = false → compose seq.inner seq.outer = .pair

end ShiftSeq

/-- A single wire term of an operand, tagged with the shifts to apply to it. -/
structure ShiftedWire where
  wire : Wire
  shiftSeq : ShiftSeq
deriving DecidableEq

abbrev Assignment := Wire → Word

namespace ShiftedWire

/-- A term carrying one shift, which the canonical form places in the inner slot. -/
def single (wire : Wire) (shift : Shift) : ShiftedWire := ⟨wire,shift,.identity⟩

/-- The one shift a term carries, refused when the outer slot is in use. -/
def soleShift (t : ShiftedWire) : Option Shift :=
  if t.shiftSeq.outer.isIdentity then some t.shiftSeq.inner else none

def eval (σ : Assignment) (t : ShiftedWire) : Word :=
  t.shiftSeq.apply (σ t.wire)

def toShiftedValueIndex (mapping : Wire → ValueIndex) (t : ShiftedWire) : ShiftedValueIndex :=
  ⟨mapping t.wire,t.shiftSeq.inner,t.shiftSeq.outer⟩

end ShiftedWire

abbrev WireOperand := List ShiftedWire

variable (σ : Assignment)

def evalWires (operand : WireOperand) : Word :=
  operand.foldr (fun t acc => t.eval σ ^^^ acc) 0

@[simp] theorem evalWires_nil : evalWires σ [] = 0 := rfl

@[simp] theorem evalWires_cons (t : ShiftedWire) (rest : WireOperand) :
    evalWires σ (t :: rest) = t.eval σ ^^^ evalWires σ rest := rfl

@[simp] theorem evalWires_append (first second : WireOperand) :
    evalWires σ (first ++ second) = evalWires σ first ^^^ evalWires σ second := by
  induction first with
  | nil => simp only [nil_append,evalWires_nil,BitVec.ofNat_eq_ofNat,BitVec.zero_xor]
  | cons t rest ih => rw [cons_append,evalWires_cons,evalWires_cons,ih,BitVec.xor_assoc]

theorem evalWires_congr {σ τ : Assignment} {operand : WireOperand}
    (h : ∀ t ∈ operand, σ t.wire = τ t.wire) : evalWires σ operand = evalWires τ operand := by
  induction operand with
  | nil => rfl
  | cons t rest ih =>
    rw [forall_mem_cons] at h
    rw [evalWires_cons,evalWires_cons,ih h.2,ShiftedWire.eval,ShiftedWire.eval,h.1]

/-- What folding one more shift inside a shift sequence comes to. -/
inductive PushInner where
  /-- The sequence with the shift folded in. -/
  | seq (seq : ShiftSeq)
  /-- The shifts clear every bit between them. -/
  | zero
  /-- The shift would need a third slot. -/
  | overBudget
deriving DecidableEq

def lone (shift : Shift) : ShiftSeq :=
  if shift.isIdentity then ⟨.identity,.identity⟩ else ⟨shift,.identity⟩

/-- Merge a folded inner shift outward when the two slots have come within reach. -/
def pushOutward (inner outer : Shift) : PushInner :=
  match compose inner outer with
  | .single collapsed => .seq (lone collapsed)
  | .zero => .zero
  | .pair => .seq ⟨inner,outer⟩

/-- Fold a shift into a sequence as the new innermost shift, as greedily as the
shifts compose. -/
def pushInner (seq : ShiftSeq) (shift : Shift) (slots : ℕ) : PushInner :=
  match compose shift seq.inner with
  | .single merged => pushOutward merged seq.outer
  -- Clearing the inner word leaves the outer shift nothing to carry.
  | .zero => .zero
  | .pair => if 2 ≤ slots ∧ seq.outer.isIdentity then .seq ⟨shift,seq.inner⟩ else .overBudget

variable {shift : Shift}

theorem lone_apply (h : shift.InRange) :
    (lone shift).InRange ∧ ∀ w, (lone shift).apply w = shift.apply w := by
  unfold lone
  by_cases hi : shift.isIdentity = true
  · rw [if_pos hi]
    refine ⟨⟨Shift.identity_inRange,Shift.identity_inRange⟩,fun w => ?_⟩
    rw [ShiftSeq.apply,Shift.apply_of_isIdentity hi,Shift.identity_apply,Shift.identity_apply]
  · rw [if_neg hi]
    refine ⟨⟨h,Shift.identity_inRange⟩,fun w => ?_⟩
    rw [ShiftSeq.apply,Shift.identity_apply]

/-- What a fold denotes: a sequence acting as both, or a word that vanishes. -/
def PushInner.Denotes (result : PushInner) (seq : ShiftSeq) (shift : Shift) : Prop :=
  match result with
  | .seq out => out.InRange ∧ ∀ w, out.apply w = seq.apply (shift.apply w)
  | .zero => ∀ w, seq.apply (shift.apply w) = 0
  | .overBudget => True

theorem pushOutward_denotes {inner outer : Shift} (hi : inner.InRange) (ho : outer.InRange) :
    match pushOutward inner outer with
    | .seq out => out.InRange ∧ ∀ w, out.apply w = outer.apply (inner.apply w)
    | .zero => ∀ w, outer.apply (inner.apply w) = 0
    | .overBudget => True := by
  unfold pushOutward
  cases hc : compose inner outer with
  | single collapsed =>
    have hs := compose_single hi ho hc
    have hl := lone_apply hs.1
    exact ⟨hl.1,fun w => (hl.2 w).trans (hs.2 w)⟩
  | zero => exact fun w => compose_zero hi ho hc w
  | pair => exact ⟨⟨hi,ho⟩,fun w => rfl⟩

theorem pushInner_denotes {seq : ShiftSeq} (hq : seq.InRange)
    (hs : shift.InRange) (slots : ℕ) : (pushInner seq shift slots).Denotes seq shift := by
  unfold pushInner
  cases hc : compose shift seq.inner with
  | single merged =>
    have hm := compose_single hs hq.inner hc
    have ho := pushOutward_denotes hm.1 hq.outer
    dsimp only
    cases hp : pushOutward merged seq.outer with
    | seq out =>
      rw [hp] at ho
      refine ⟨ho.1,fun w => ?_⟩
      rw [ho.2,hm.2,ShiftSeq.apply]
    | zero =>
      rw [hp] at ho
      intro w
      rw [ShiftSeq.apply,← hm.2,ho]
    | overBudget => trivial
  | zero =>
    intro w
    rw [ShiftSeq.apply,compose_zero hs hq.inner hc,Shift.apply_zero hq.outer]
  | pair =>
    dsimp only
    by_cases hb : 2 ≤ slots ∧ seq.outer.isIdentity = true
    · rw [if_pos hb]
      refine ⟨⟨hs,hq.inner⟩,fun w => ?_⟩
      rw [ShiftSeq.apply,ShiftSeq.apply,Shift.apply_of_isIdentity hb.2]
    · rw [if_neg hb]
      trivial

theorem compose_pair {inner outer : Shift} (h : compose inner outer = .pair) :
    inner.isIdentity = false ∧ outer.isIdentity = false := by
  constructor
  · cases hi : inner.isIdentity with
    | false => rfl
    | true => rw [compose,if_pos hi] at h; cases h
  · cases ho : outer.isIdentity with
    | false => rfl
    | true =>
      rw [compose,ho] at h
      split at h <;> cases h

theorem canonical_of_pair {inner outer : Shift} (hi : inner.InRange) (ho : outer.InRange)
    (hic : inner.isCanonical = true) (hoc : outer.isCanonical = true)
    (h : compose inner outer = .pair) : (⟨inner,outer⟩ : ShiftSeq).Canonical := by
  have hne := compose_pair h
  refine ⟨⟨hi,ho⟩,hic,hoc,fun hid => ?_,fun _ => h⟩
  rw [hne.1] at hid
  cases hid

theorem lone_canonical (h : shift.InRange) : (lone shift).Canonical := by
  have hr := (lone_apply h).1
  unfold lone at hr ⊢
  split at hr
  · rename_i hi
    rw [if_pos hi]
    exact ⟨hr,rfl,rfl,fun _ => rfl,nofun⟩
  · rename_i hi
    rw [if_neg hi]
    refine ⟨hr,?_,rfl,fun _ => rfl,nofun⟩
    rw [Shift.isCanonical,Bool.not_eq_true _ |>.mp hi]
    rfl

theorem pushInner_canonical {seq out : ShiftSeq} (hq : seq.Canonical)
    (hs : shift.InRange) (hsc : shift.isCanonical = true) {slots : ℕ}
    (h : pushInner seq shift slots = .seq out) : out.Canonical := by
  unfold pushInner at h
  cases hc : compose shift seq.inner with
  | single merged =>
    have hm := compose_single hs hq.inner hc
    have hmc := compose_canonical hsc hq.innerCanonical hc
    simp only [hc,pushOutward] at h
    cases ho : compose merged seq.outer with
    | single collapsed =>
      simp only [ho,PushInner.seq.injEq] at h
      rw [← h]
      exact lone_canonical (compose_single hm.1 hq.outer ho).1
    | zero =>
      simp only [ho,reduceCtorEq] at h
    | pair =>
      simp only [ho,PushInner.seq.injEq] at h
      rw [← h]
      exact canonical_of_pair hm.1 hq.outer hmc hq.outerCanonical ho
  | zero =>
    simp only [hc,reduceCtorEq] at h
  | pair =>
    simp only [hc] at h
    split at h
    · rw [PushInner.seq.injEq] at h
      rw [← h]
      exact canonical_of_pair hs hq.inner hsc hq.innerCanonical hc
    · cases h

inductive WireExprTerm where
  | wire (w : Wire)
  /-- The wire with a shift folded in. -/
  | shifted (w : Wire) (shift : Shift)

def WireExprTerm.toShiftedWire : WireExprTerm → ShiftedWire
  | wire w => .single w .identity
  | shifted w shift => .single w shift

/-- An operand under construction. -/
abbrev WireExpr := List WireExprTerm

def WireExpr.intoOperand (e : WireExpr) : WireOperand :=
  e.map WireExprTerm.toShiftedWire

structure WireAndConstraint where
  a : WireOperand
  b : WireOperand
  c : WireOperand
deriving DecidableEq

/-- `A * B = (HI << 64) | LO` over wires. -/
structure WireImulConstraint where
  a : WireOperand
  b : WireOperand
  hi : WireOperand
  lo : WireOperand
deriving DecidableEq

/-- `A * B = C` in the GHASH field over wires, each element a pair of limbs. -/
structure WireBmulConstraint where
  aLo : WireOperand
  aHi : WireOperand
  bLo : WireOperand
  bHi : WireOperand
  cLo : WireOperand
  cHi : WireOperand
deriving DecidableEq

structure WireZeroConstraint where
  val : WireOperand
deriving DecidableEq

/-- `RHS = DST`: the definition of one wire as an exclusive or. -/
structure WireLinearConstraint where
  rhs : WireOperand
  dst : Wire
deriving DecidableEq

def intoValueIndices (mapping : Wire → ValueIndex) (operand : WireOperand) : Operand :=
  operand.map (ShiftedWire.toShiftedValueIndex mapping)

theorem evalOperand_intoValueIndices (source : WordSource) (mapping : Wire → ValueIndex)
    (operand : WireOperand) :
    evalOperand source (intoValueIndices mapping operand) =
      evalWires (fun w => source (mapping w)) operand := by
  induction operand with
  | nil => rfl
  | cons t rest ih =>
    rw [intoValueIndices] at ih ⊢
    rw [map_cons,evalOperand_cons,evalWires_cons,ih]
    rfl

/-- What gate fusion and lowering need of a constraint that defines no wire. -/
class WireConstraint (C : Type) where
  operands : C → List WireOperand
  Holds : Assignment → C → Prop
  holds_congr : ∀ (σ τ : Assignment) (c d : C),
    (operands c).map (evalWires σ) = (operands d).map (evalWires τ) → (Holds σ c ↔ Holds τ d)

instance : WireConstraint WireAndConstraint where
  operands c := [c.a,c.b,c.c]
  Holds σ c := evalWires σ c.a &&& evalWires σ c.b = evalWires σ c.c
  holds_congr := by
    intro σ τ c d h
    simp only [map_cons,map_nil,cons.injEq,and_true] at h
    rw [h.1,h.2.1,h.2.2]

instance : WireConstraint WireImulConstraint where
  operands c := [c.a,c.b,c.lo,c.hi]
  Holds σ c := imul (evalWires σ c.a) (evalWires σ c.b) = (evalWires σ c.hi,evalWires σ c.lo)
  holds_congr := by
    intro σ τ c d h
    simp only [map_cons,map_nil,cons.injEq,and_true] at h
    rw [h.1,h.2.1,h.2.2.1,h.2.2.2]

instance : WireConstraint WireBmulConstraint where
  operands c := [c.aLo,c.aHi,c.bLo,c.bHi,c.cLo,c.cHi]
  Holds σ c :=
    ghashProduct (ofWords (evalWires σ c.aLo) (evalWires σ c.aHi))
        (ofWords (evalWires σ c.bLo) (evalWires σ c.bHi)) =
      ofWords (evalWires σ c.cLo) (evalWires σ c.cHi)
  holds_congr := by
    intro σ τ c d h
    simp only [map_cons,map_nil,cons.injEq,and_true] at h
    rw [h.1,h.2.1,h.2.2.1,h.2.2.2.1,h.2.2.2.2.1,h.2.2.2.2.2]

instance : WireConstraint WireZeroConstraint where
  operands c := [c.val]
  Holds σ c := evalWires σ c.val = 0
  holds_congr := by
    intro σ τ c d h
    simp only [map_cons,map_nil,cons.injEq,and_true] at h
    rw [h]

def WireLinearConstraint.Holds (lin : WireLinearConstraint) : Prop :=
  evalWires σ lin.rhs = σ lin.dst

/-- The constraints a circuit emits, one list per shape. -/
structure ConstraintBuilder where
  andConstraints : List WireAndConstraint
  imulConstraints : List WireImulConstraint
  bmulConstraints : List WireBmulConstraint
  linearConstraints : List WireLinearConstraint
  zeroConstraints : List WireZeroConstraint
deriving DecidableEq

namespace ConstraintBuilder

def new : ConstraintBuilder := ⟨[],[],[],[],[]⟩

variable (cb : ConstraintBuilder)

def and (a b c : WireExpr) : ConstraintBuilder :=
  {cb with andConstraints :=
    cb.andConstraints ++ [⟨a.intoOperand,b.intoOperand,c.intoOperand⟩]}

def imul (a b hi lo : WireExpr) : ConstraintBuilder :=
  {cb with imulConstraints :=
    cb.imulConstraints ++ [⟨a.intoOperand,b.intoOperand,hi.intoOperand,lo.intoOperand⟩]}

def bmul (aLo aHi bLo bHi cLo cHi : WireExpr) : ConstraintBuilder :=
  {cb with bmulConstraints :=
    cb.bmulConstraints ++ [⟨aLo.intoOperand,aHi.intoOperand,bLo.intoOperand,bHi.intoOperand,
      cLo.intoOperand,cHi.intoOperand⟩]}

def linear (rhs : WireExpr) (dst : Wire) : ConstraintBuilder :=
  {cb with linearConstraints := cb.linearConstraints ++ [⟨rhs.intoOperand,dst⟩]}

def zero (val : WireExpr) : ConstraintBuilder :=
  {cb with zeroConstraints := cb.zeroConstraints ++ [⟨val.intoOperand⟩]}

structure Holds (σ : Assignment) (cb : ConstraintBuilder) : Prop where
  and : ∀ c ∈ cb.andConstraints, WireConstraint.Holds σ c
  imul : ∀ c ∈ cb.imulConstraints, WireConstraint.Holds σ c
  bmul : ∀ c ∈ cb.bmulConstraints, WireConstraint.Holds σ c
  linear : ∀ lin ∈ cb.linearConstraints, lin.Holds σ
  zero : ∀ c ∈ cb.zeroConstraints, WireConstraint.Holds σ c

def linearDsts : List Wire :=
  cb.linearConstraints.map (·.dst)

def rootOperands : List WireOperand :=
  cb.andConstraints.flatMap WireConstraint.operands ++
    cb.imulConstraints.flatMap WireConstraint.operands ++
    cb.bmulConstraints.flatMap WireConstraint.operands ++
    cb.zeroConstraints.flatMap WireConstraint.operands

theorem mem_rootOperands {cb : ConstraintBuilder} {operand : WireOperand} :
    operand ∈ cb.rootOperands ↔
      (∃ c ∈ cb.andConstraints, operand ∈ WireConstraint.operands c) ∨
      (∃ c ∈ cb.imulConstraints, operand ∈ WireConstraint.operands c) ∨
      (∃ c ∈ cb.bmulConstraints, operand ∈ WireConstraint.operands c) ∨
      ∃ c ∈ cb.zeroConstraints, operand ∈ WireConstraint.operands c := by
  simp only [rootOperands,mem_append,mem_flatMap,or_assoc]

def operands : List WireOperand :=
  cb.rootOperands ++ cb.linearConstraints.map (·.rhs)

end ConstraintBuilder

end Binius64.WireConstraints
