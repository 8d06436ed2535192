import Binius64.ValueVector
import Binius64.GhashField

/-!
# Constraint systems

Shifted terms, operands, the four constraint kinds, structural validation and the reference
verifier.
-/

namespace Binius64.ConstraintSystem

open MachineWord ShiftAlgebra ValueVector GhashField List

/-- One term of an operand: a value and the two shifts applied to it, inner first. -/
structure ShiftedValueIndex where
  valueIndex : ValueIndex
  inner : Shift
  outer : Shift
deriving DecidableEq

namespace ShiftedValueIndex

def single (v : ValueIndex) (s : Shift) : ShiftedValueIndex := ⟨v,s,.identity⟩

def plain (v : ValueIndex) : ShiftedValueIndex := single v .identity

variable (t : ShiftedValueIndex)

/-- Whether the term leaves its word untouched. -/
def isUnshifted : Bool := t.inner.isIdentity

/-- Whether the term needs both shift slots. -/
def isDoublyShifted : Bool := !t.outer.isIdentity

def eval (source : WordSource) (t : ShiftedValueIndex) : Word :=
  t.outer.apply (t.inner.apply (source t.valueIndex))

end ShiftedValueIndex

abbrev Operand := List ShiftedValueIndex

def evalOperand (source : WordSource) (operand : Operand) : Word :=
  operand.foldl (fun acc t => acc ^^^ t.eval source) 0

def applyChecked (s : Shift) (w : Word) : Checked Word :=
  if s.InRange then .ok (s.apply w) else .error .shiftOutOfWidth

def evalTermChecked (values : ValueVec) (t : ShiftedValueIndex) : Checked Word := do
  let w ← values.read t.valueIndex
  let w ← applyChecked t.inner w
  applyChecked t.outer w

def evalOperandChecked (values : ValueVec) (operand : Operand) : Checked Word :=
  operand.foldlM (fun acc t => do
    let w ← evalTermChecked values t
    return acc ^^^ w) 0

inductive ConstraintKind where
  | zero
  /-- A bitwise conjunction constraint. -/
  | and
  /-- An integer product constraint. -/
  | imul
  /-- A field product constraint. -/
  | bmul
deriving DecidableEq

/-- `VAL = 0`. -/
structure ZeroConstraint where
  val : Operand
deriving DecidableEq

/-- `A & B = C`. -/
structure AndConstraint where
  a : Operand
  b : Operand
  c : Operand
deriving DecidableEq

/-- `A * B = (HI << 64) | LO` over the integers. -/
structure ImulConstraint where
  a : Operand
  b : Operand
  lo : Operand
  hi : Operand
deriving DecidableEq

/-- `A * B = C` in the GHASH field, each element a word pair. -/
structure BmulConstraint where
  aLo : Operand
  aHi : Operand
  bLo : Operand
  bHi : Operand
  cLo : Operand
  cHi : Operand
deriving DecidableEq

/-- The operands of a constraint with their names, in storage order. -/
class HasOperands (C : Type) where
  kind : ConstraintKind
  operands : C → List (Operand × String)

instance : HasOperands ZeroConstraint where
  kind := .zero
  operands c := [(c.val,"val")]

instance : HasOperands AndConstraint where
  kind := .and
  operands c := [(c.a,"a"),(c.b,"b"),(c.c,"c")]

instance : HasOperands ImulConstraint where
  kind := .imul
  operands c := [(c.a,"a"),(c.b,"b"),(c.lo,"lo"),(c.hi,"hi")]

instance : HasOperands BmulConstraint where
  kind := .bmul
  operands c := [(c.aLo,"a_lo"),(c.aHi,"a_hi"),(c.bLo,"b_lo"),(c.bHi,"b_hi"),(c.cLo,"c_lo"),
    (c.cHi,"c_hi")]

/-- The system of equations a value vector must satisfy. -/
structure System where
  constants : List Word
  nInout : ℕ
  nPrivate : ℕ
  zeroConstraints : List ZeroConstraint
  andConstraints : List AndConstraint
  imulConstraints : List ImulConstraint
  bmulConstraints : List BmulConstraint
deriving DecidableEq

inductive OperandFault where
  /-- An identity spelled with another variant. -/
  | nonCanonicalShift
  /-- An amount the variant cannot represent. -/
  | shiftAmountTooLarge (shiftAmount maxAmount : ℕ)
  /-- A lone shift in the outer slot. -/
  | nonCanonicalShiftSequence
  /-- A shift pair that merges or clears the word. -/
  | collapsibleShiftSequence (composition : Composition)
  /-- A reference to a scratch word. -/
  | scratchValueIndex
  /-- An index past its segment. -/
  | outOfRangeValueIndex (segment : ValueSegment) (valueIndex segmentLen : ℕ)
deriving DecidableEq

/-- Structural errors of a constraint system or of an M4 system. -/
inductive ConstraintSystemError where
  /-- A declared segment exceeds the policy limit. -/
  | segmentTooLarge (segment : ValueSegment) (len : ℕ)
  /-- A constraint operand is malformed. -/
  | constraintOperand (kind : ConstraintKind) (constraintIndex : ℕ) (operandName : String)
      (source : OperandFault)
  /-- A chip call operand is malformed. -/
  | chipCallOperand (callIndex operandIndex : ℕ) (source : OperandFault)
  /-- A call names a chip that does not exist. -/
  | outOfRangeChipId (chipIndex : Option ℕ) (chipId nChips : ℕ)
  /-- A call passes the wrong number of operands. -/
  | wrongCallArity (chipIndex : Option ℕ) (callIndex chipId arity nInout : ℕ)
  /-- A chip calls itself or an earlier chip. -/
  | callOutOfOrder (chipIndex callee : ℕ)
  /-- A call names another first instance than the call graph gives it. -/
  | wrongCallInstance (chipIndex : Option ℕ) (callIndex firstInstance expected : ℕ)
  /-- A chip declares another active count than its calls claim. -/
  | wrongActiveInstanceCount (chipId declared actual : ℕ)
  /-- The invocations reaching a chip overflow a `usize`. -/
  | tooManyInstances (chipId : ℕ)
deriving DecidableEq

/-- The arithmetic by which a single constraint fails. -/
inductive ConstraintViolation where
  /-- The operand holds a nonzero word. -/
  | zero (val : Word)
  /-- The conjunction differs from its claim on the residue bits. -/
  | and (a b c residue : Word)
  /-- The integer product differs from the claimed word pair. -/
  | imul (a b lo hi expectedLo expectedHi : Word)
  /-- The field product differs from the claimed element. -/
  | bmul (a b c expected : BitVec 128)
deriving DecidableEq

/-- Reason a value vector fails to satisfy a constraint system. -/
inductive VerificationError where
  /-- A declared constant opens to another word. -/
  | constantMismatch (valueIndex : ℕ) (expected actual : Word)
  /-- A constraint does not hold, numbered within its own kind. -/
  | unsatisfied (constraintIndex : ℕ) (source : ConstraintViolation)
deriving DecidableEq

/-- The maximum number of values accepted in the inout or private segment. -/
def maxValuesPerSegment : ℕ := 2 ^ 26

namespace System

def nConst (cs : System) : ℕ := cs.constants.length

def nPublicValues (cs : System) : ℕ := cs.nConst + cs.nInout

def valueVecLen (cs : System) : ℕ := cs.nPublicValues + cs.nPrivate

/-- The number of values a segment holds; no constraint may name a scratch word. -/
def segmentLen (cs : System) : ValueSegment → ℕ
  | .constant => cs.nConst
  | .inOut => cs.nInout
  | .priv => cs.nPrivate
  | .scratch => 0

def wordOffset (cs : System) (index : ValueIndex) : ℕ :=
  (match index.segment with
    | .constant => 0
    | .inOut => cs.nConst
    | .priv => cs.nPublicValues
    | .scratch => cs.valueVecLen) + index.index

def valueVecFromData (cs : System) (inout privateWords : List Word) : ValueVec :=
  ValueVec.newFromData cs.nConst (cs.constants ++ inout) privateWords

end System

def shiftFault (s : Shift) : Option OperandFault :=
  if s.isCanonical = false then some .nonCanonicalShift
  else if s.variant.maxAmount ≤ s.amount then
    some (.shiftAmountTooLarge s.amount s.variant.maxAmount)
  else none

variable (t : ShiftedValueIndex)

/-- The way a sequence of two shifts is malformed. -/
def sequenceFault : Option OperandFault :=
  if t.isUnshifted && t.isDoublyShifted then some .nonCanonicalShiftSequence
  else if t.isDoublyShifted && compose t.inner t.outer != .pair then
    some (.collapsibleShiftSequence (compose t.inner t.outer))
  else none

/-- The way the value a term names is out of reach. -/
def indexFault (cs : System) (v : ValueIndex) : Option OperandFault :=
  if v.segment.isReferenceable = false then some .scratchValueIndex
  else if cs.segmentLen v.segment ≤ v.index then
    some (.outOfRangeValueIndex v.segment v.index (cs.segmentLen v.segment))
  else none

def termFault (cs : System) (t : ShiftedValueIndex) : Option OperandFault :=
  (shiftFault t.inner).or ((shiftFault t.outer).or
    ((sequenceFault t).or (indexFault cs t.valueIndex)))

/-- The first way a term of an operand is malformed. -/
def operandFault (cs : System) (operand : Operand) : Option OperandFault :=
  operand.findSome? (termFault cs)

def validateOperands (cs : System) (kind : ConstraintKind) (constraintIndex : ℕ) :
    List (Operand × String) → Except ConstraintSystemError Unit
  | [] => .ok ()
  | (operand,name) :: rest =>
    match operandFault cs operand with
    | some source => .error (.constraintOperand kind constraintIndex name source)
    | none => validateOperands cs kind constraintIndex rest

def validateConstraints (cs : System) {C : Type} [HasOperands C] :
    ℕ → List C → Except ConstraintSystemError Unit
  | _, [] => .ok ()
  | i, c :: rest =>
    match validateOperands cs (HasOperands.kind C) i (HasOperands.operands c) with
    | .error e => .error e
    | .ok () => validateConstraints cs (i + 1) rest

def validateSegment (cs : System) (segment : ValueSegment) : Except ConstraintSystemError Unit :=
  if maxValuesPerSegment < cs.segmentLen segment then
    .error (.segmentTooLarge segment (cs.segmentLen segment))
  else .ok ()

def System.validate (cs : System) : Except ConstraintSystemError Unit := do
  validateSegment cs .inOut
  validateSegment cs .priv
  validateConstraints cs 0 cs.zeroConstraints
  validateConstraints cs 0 cs.andConstraints
  validateConstraints cs 0 cs.imulConstraints
  validateConstraints cs 0 cs.bmulConstraints

/-- Check that the operand vanishes. -/
def ZeroConstraint.verify (values : ValueVec) (c : ZeroConstraint) :
    Checked (Except ConstraintViolation Unit) := do
  let val ← evalOperandChecked values c.val
  return if val ≠ 0 then .error (.zero val) else .ok ()

/-- Check that the conjunction of the first two operands equals the third. -/
def AndConstraint.verify (values : ValueVec) (c : AndConstraint) :
    Checked (Except ConstraintViolation Unit) := do
  let a ← evalOperandChecked values c.a
  let b ← evalOperandChecked values c.b
  let c ← evalOperandChecked values c.c
  let residue := (a &&& b) ^^^ c
  return if residue ≠ 0 then .error (.and a b c residue) else .ok ()

/-- Check that the integer product equals the claimed word pair. -/
def ImulConstraint.verify (values : ValueVec) (c : ImulConstraint) :
    Checked (Except ConstraintViolation Unit) := do
  let a ← evalOperandChecked values c.a
  let b ← evalOperandChecked values c.b
  let lo ← evalOperandChecked values c.lo
  let hi ← evalOperandChecked values c.hi
  let expected := imul a b
  return if lo ≠ expected.2 ∨ hi ≠ expected.1 then
    .error (.imul a b lo hi expected.2 expected.1) else .ok ()

def evalElement (values : ValueVec) (lo hi : Operand) : Checked (BitVec 128) := do
  let lo ← evalOperandChecked values lo
  let hi ← evalOperandChecked values hi
  return ofWords lo hi

/-- Check that the field product equals the claimed element. -/
def BmulConstraint.verify (values : ValueVec) (c : BmulConstraint) :
    Checked (Except ConstraintViolation Unit) := do
  let a ← evalElement values c.aLo c.aHi
  let b ← evalElement values c.bLo c.bHi
  let c ← evalElement values c.cLo c.cHi
  let expected := ghashProduct a b
  return if c ≠ expected then .error (.bmul a b c expected) else .ok ()

/-- Check that the vector opens the declared constants to their words. -/
def verifyConstants (values : ValueVec) :
    ℕ → List Word → Checked (Except VerificationError Unit)
  | _, [] => .ok (.ok ())
  | i, constant :: rest => do
    let index ← ValueIndex.new .constant (i % 2 ^ 32)
    let actual ← values.read index
    if actual ≠ constant then
      return .error (.constantMismatch (i % 2 ^ 32) constant actual)
    else verifyConstants values (i + 1) rest

/-- Check every constraint of one kind, numbering them from the given position. -/
def verifyAll {C : Type} (check : C → Checked (Except ConstraintViolation Unit)) :
    ℕ → List C → Checked (Except VerificationError Unit)
  | _, [] => .ok (.ok ())
  | i, c :: rest => do
    match ← check c with
    | .error source => return .error (.unsatisfied i source)
    | .ok () => verifyAll check (i + 1) rest

def andThen {ε : Type} (first second : Checked (Except ε Unit)) : Checked (Except ε Unit) := do
  match ← first with
  | .error e => return .error e
  | .ok () => second

/-- Check that a value vector satisfies the system: constants first, then every
constraint in kind order. -/
def System.verify (cs : System) (values : ValueVec) : Checked (Except VerificationError Unit) :=
  andThen (verifyConstants values 0 cs.constants) <|
  andThen (verifyAll (ZeroConstraint.verify values) 0 cs.zeroConstraints) <|
  andThen (verifyAll (AndConstraint.verify values) 0 cs.andConstraints) <|
  andThen (verifyAll (ImulConstraint.verify values) 0 cs.imulConstraints) <|
  verifyAll (BmulConstraint.verify values) 0 cs.bmulConstraints

structure WellFormedTerm (cs : System) (t : ShiftedValueIndex) : Prop where
  innerCanonical : t.inner.isCanonical = true
  outerCanonical : t.outer.isCanonical = true
  innerInRange : t.inner.InRange
  outerInRange : t.outer.InRange
  loneInner : t.inner.isIdentity = true → t.outer.isIdentity = true
  irreducible : t.outer.isIdentity = false → compose t.inner t.outer = .pair
  referenceable : t.valueIndex.segment.isReferenceable = true
  inSegment : t.valueIndex.index < cs.segmentLen t.valueIndex.segment

theorem shiftFault_eq_none (s : Shift) :
    shiftFault s = none ↔ s.isCanonical = true ∧ s.InRange := by
  unfold shiftFault Shift.InRange
  cases s.isCanonical with
  | false => simp only [if_true,reduceCtorEq,Bool.false_eq_true,false_and]
  | true =>
    simp only [Bool.true_eq_false,if_false,true_and]
    by_cases h : s.variant.maxAmount ≤ s.amount
    · simp only [h,if_true,reduceCtorEq,false_iff]
      omega
    · simp only [h,if_false,true_iff]
      omega

theorem sequenceFault_eq_none :
    sequenceFault t = none ↔ (t.inner.isIdentity = true → t.outer.isIdentity = true) ∧
      (t.outer.isIdentity = false → compose t.inner t.outer = .pair) := by
  unfold sequenceFault ShiftedValueIndex.isUnshifted ShiftedValueIndex.isDoublyShifted
  cases t.inner.isIdentity <;> cases t.outer.isIdentity <;>
    simp [bne_iff_ne]

variable (cs : System) {C ε : Type} {values : ValueVec} {x : Checked (Except ε Unit)}

theorem indexFault_eq_none (v : ValueIndex) :
    indexFault cs v = none ↔
      v.segment.isReferenceable = true ∧ v.index < cs.segmentLen v.segment := by
  unfold indexFault
  cases v.segment.isReferenceable with
  | false => simp only [if_true,reduceCtorEq,Bool.false_eq_true,false_and]
  | true =>
    simp only [Bool.true_eq_false,if_false,true_and]
    by_cases h : cs.segmentLen v.segment ≤ v.index
    · simp only [h,if_true,reduceCtorEq,false_iff]
      omega
    · simp only [h,if_false,true_iff]
      omega

theorem termFault_eq_none : termFault cs t = none ↔ WellFormedTerm cs t := by
  simp only [termFault,Option.or_eq_none_iff,shiftFault_eq_none,sequenceFault_eq_none,
    indexFault_eq_none]
  constructor
  · rintro ⟨⟨hic,hir⟩,⟨hoc,hor⟩,⟨hl,hp⟩,hs,hi⟩
    exact ⟨hic,hoc,hir,hor,hl,hp,hs,hi⟩
  · intro h
    exact ⟨⟨h.innerCanonical,h.innerInRange⟩,⟨h.outerCanonical,h.outerInRange⟩,
      ⟨h.loneInner,h.irreducible⟩,h.referenceable,h.inSegment⟩

theorem operandFault_eq_none (operand : Operand) :
    operandFault cs operand = none ↔ ∀ t ∈ operand, WellFormedTerm cs t := by
  simp only [operandFault,findSome?_eq_none_iff,termFault_eq_none]

theorem validateOperands_ok (kind : ConstraintKind) (i : ℕ)
    (operands : List (Operand × String)) :
    validateOperands cs kind i operands = .ok () ↔
      ∀ operand ∈ operands.map Prod.fst, ∀ t ∈ operand, WellFormedTerm cs t := by
  induction operands with
  | nil => simp only [validateOperands,map_nil,not_mem_nil,false_implies,implies_true]
  | cons pair rest ih =>
    obtain ⟨operand,name⟩ := pair
    simp only [validateOperands,map_cons,forall_mem_cons,← operandFault_eq_none]
    simp only [← operandFault_eq_none] at ih
    cases operandFault cs operand with
    | none => simp only [ih,true_and]
    | some source => simp only [reduceCtorEq,false_and]

def operandsOf {C : Type} [HasOperands C] (constraints : List C) : List Operand :=
  constraints.flatMap fun c => (HasOperands.operands c).map Prod.fst

theorem validateConstraints_ok [HasOperands C] (constraints : List C)
    (i : ℕ) :
    validateConstraints cs i constraints = .ok () ↔
      ∀ operand ∈ operandsOf constraints, ∀ t ∈ operand, WellFormedTerm cs t := by
  induction constraints generalizing i with
  | nil =>
    simp only [validateConstraints,operandsOf,flatMap_nil,not_mem_nil,false_implies,
      implies_true]
  | cons c rest ih =>
    have hc := validateOperands_ok cs (HasOperands.kind C) i (HasOperands.operands c)
    simp only [validateConstraints,operandsOf,flatMap_cons,forall_mem_append] at ih ⊢
    rw [← hc]
    cases h : validateOperands cs (HasOperands.kind C) i (HasOperands.operands c) with
    | error e => simp only [reduceCtorEq,false_and]
    | ok u => simp only [ih,true_and]

def System.operands (cs : System) : List Operand :=
  operandsOf cs.zeroConstraints ++ (operandsOf cs.andConstraints ++
    (operandsOf cs.imulConstraints ++ operandsOf cs.bmulConstraints))

theorem check_bind_ok (x y : Except ε Unit) :
    (x >>= fun _ => y) = .ok () ↔ x = .ok () ∧ y = .ok () := by
  cases x with
  | error e => simp only [bind,Except.bind,reduceCtorEq,false_and]
  | ok u => simp only [bind,Except.bind,true_and]

theorem validateSegment_ok (segment : ValueSegment) :
    validateSegment cs segment = .ok () ↔ cs.segmentLen segment ≤ maxValuesPerSegment := by
  unfold validateSegment
  by_cases h : maxValuesPerSegment < cs.segmentLen segment
  · simp only [h,if_true,reduceCtorEq,false_iff]
    omega
  · simp only [h,if_false,true_iff]
    omega

theorem validate_eq_ok :
    cs.validate = .ok () ↔
      cs.nInout ≤ maxValuesPerSegment ∧ cs.nPrivate ≤ maxValuesPerSegment ∧
        ∀ operand ∈ cs.operands, ∀ t ∈ operand, WellFormedTerm cs t := by
  simp only [System.validate,check_bind_ok,validateSegment_ok,validateConstraints_ok,
    System.operands,forall_mem_append,System.segmentLen]

/-- A vector built for the system's layout with the expected lengths. -/
structure BuiltFor (cs : System) (values : ValueVec) : Prop where
  nConst : values.nConst = cs.nConst
  nPublicValues : values.nPublicValues = cs.nPublicValues
  nPrivate : values.nPrivate = cs.nPrivate
  size_le : values.size ≤ values.data.length

theorem valueVecFromData_builtFor {cs : System} {inout privateWords : List Word}
    (hi : inout.length = cs.nInout) (hp : privateWords.length = cs.nPrivate) :
    BuiltFor cs (cs.valueVecFromData inout privateWords) where
  nConst := rfl
  nPublicValues := by
    simp only [System.valueVecFromData,ValueVec.newFromData,length_append,hi,
      System.nPublicValues,System.nConst]
  nPrivate := hp
  size_le := (ValueVec.newFromData_size _ _ _).ge

theorem wordOffset_lt {cs : System} (h : BuiltFor cs values)
    {v : ValueIndex} (hr : v.segment.isReferenceable = true)
    (hi : v.index < cs.segmentLen v.segment) :
    values.wordOffset v < values.data.length := by
  have hs := h.size_le
  have hp : cs.nPublicValues = cs.nConst + cs.nInout := rfl
  simp only [ValueVec.size,h.nPublicValues,h.nPrivate] at hs
  simp only [ValueVec.wordOffset,h.nConst,h.nPublicValues]
  cases hseg : v.segment with
  | scratch =>
    rw [hseg] at hr
    cases hr
  | constant | inOut | priv =>
    simp only [hseg,System.segmentLen] at hi
    dsimp only
    omega

theorem evalTermChecked_ok {cs : System} (h : BuiltFor cs values)
    {t : ShiftedValueIndex} (ht : WellFormedTerm cs t) :
    evalTermChecked values t = .ok (t.eval values.word) := by
  have hread := ValueVec.read_ok (wordOffset_lt h ht.referenceable ht.inSegment)
  simp only [evalTermChecked,hread,applyChecked,ht.innerInRange,ht.outerInRange,if_true,bind,
    Except.bind,ShiftedValueIndex.eval]

theorem evalOperandChecked_ok {cs : System} (h : BuiltFor cs values)
    {operand : Operand} (ho : ∀ t ∈ operand, WellFormedTerm cs t) :
    evalOperandChecked values operand = .ok (evalOperand values.word operand) := by
  have hacc : ∀ acc, operand.foldlM (fun acc t => do
      let w ← evalTermChecked values t
      return acc ^^^ w) acc =
      Except.ok (operand.foldl (fun acc t => acc ^^^ t.eval values.word) acc) := by
    induction operand with
    | nil => intro acc; rfl
    | cons t rest ih =>
      intro acc
      rw [forall_mem_cons] at ho
      rw [foldlM_cons,evalTermChecked_ok h ho.1,foldl_cons]
      exact ih ho.2 _
  exact hacc 0

@[simp] theorem evalOperand_cons (source : WordSource) (t : ShiftedValueIndex)
    (rest : Operand) :
    evalOperand source (t :: rest) = t.eval source ^^^ evalOperand source rest := by
  have hacc : ∀ (operand : Operand) (acc : Word),
      operand.foldl (fun acc t => acc ^^^ t.eval source) acc =
        acc ^^^ operand.foldl (fun acc t => acc ^^^ t.eval source) 0 := by
    intro operand
    induction operand with
    | nil => intro acc; exact BitVec.xor_zero.symm
    | cons t rest ih =>
      intro acc
      simp only [foldl_cons]
      rw [ih (acc ^^^ _),ih (0 ^^^ _),BitVec.ofNat_eq_ofNat,BitVec.zero_xor,BitVec.xor_assoc]
  rw [evalOperand,foldl_cons,hacc,BitVec.ofNat_eq_ofNat,BitVec.zero_xor]
  rfl

namespace ZeroConstraint

/-- The operand vanishes. -/
def Holds (source : WordSource) (c : ZeroConstraint) : Prop :=
  evalOperand source c.val = 0

end ZeroConstraint

namespace AndConstraint

/-- The conjunction of the first two operands is the third. -/
def Holds (source : WordSource) (c : AndConstraint) : Prop :=
  evalOperand source c.a &&& evalOperand source c.b = evalOperand source c.c

end AndConstraint

namespace ImulConstraint

/-- The integer product is the claimed word pair, high word first. -/
def Holds (source : WordSource) (c : ImulConstraint) : Prop :=
  imul (evalOperand source c.a) (evalOperand source c.b) =
    (evalOperand source c.hi,evalOperand source c.lo)

end ImulConstraint

namespace BmulConstraint

/-- The field product is the claimed element. -/
def Holds (source : WordSource) (c : BmulConstraint) : Prop :=
  ghashProduct (ofWords (evalOperand source c.aLo) (evalOperand source c.aHi))
      (ofWords (evalOperand source c.bLo) (evalOperand source c.bHi)) =
    ofWords (evalOperand source c.cLo) (evalOperand source c.cHi)

end BmulConstraint

/-- The vector opens the constants and satisfies every constraint. -/
structure Satisfies (cs : System) (values : ValueVec) : Prop where
  constants : ∀ i c, cs.constants[i]? = some c → values.wordAt i = c
  zero : ∀ c ∈ cs.zeroConstraints, c.Holds values.word
  and : ∀ c ∈ cs.andConstraints, c.Holds values.word
  imul : ∀ c ∈ cs.imulConstraints, c.Holds values.word
  bmul : ∀ c ∈ cs.bmulConstraints, c.Holds values.word

/-- A check that does not fail at the machine level and passes exactly on a condition. -/
def Decides {ε : Type} (x : Checked (Except ε Unit)) (P : Prop) : Prop :=
  ∃ r, x = .ok r ∧ (r = .ok () ↔ P)

theorem decides_andThen {y : Checked (Except ε Unit)} {P Q : Prop}
    (hx : Decides x P) (hy : Decides y Q) : Decides (andThen x y) (P ∧ Q) := by
  obtain ⟨r,rfl,hr⟩ := hx
  cases r with
  | error e =>
    refine ⟨.error e,rfl,?_⟩
    simp only [reduceCtorEq,false_iff] at hr ⊢
    exact fun h => hr h.1
  | ok u =>
    obtain ⟨s,rfl,hs⟩ := hy
    exact ⟨s,rfl,fun h => ⟨hr.mp rfl,hs.mp h⟩,fun h => hs.mpr h.2⟩

theorem decides_verifyAll {check : C → Checked (Except ConstraintViolation Unit)}
    {P : C → Prop} (constraints : List C) (h : ∀ c ∈ constraints, Decides (check c) (P c))
    (i : ℕ) : Decides (verifyAll check i constraints) (∀ c ∈ constraints, P c) := by
  induction constraints generalizing i with
  | nil =>
    exact ⟨.ok (),rfl,by simp only [not_mem_nil,false_implies,implies_true]⟩
  | cons c rest ih =>
    rw [forall_mem_cons] at h
    obtain ⟨r,hr,hP⟩ := h.1
    simp only [verifyAll,hr,bind,Except.bind,forall_mem_cons]
    cases r with
    | error e =>
      refine ⟨_,rfl,?_⟩
      simp only [reduceCtorEq,false_iff] at hP ⊢
      exact fun hc => hP hc.1
    | ok u =>
      obtain ⟨s,hs,hQ⟩ := ih h.2 (i + 1)
      exact ⟨s,hs,fun h => ⟨hP.mp rfl,hQ.mp h⟩,fun h => hQ.mpr h.2⟩

/-- The only machine-level failure left is refusing to name a constant past the
index capacity: no word is read out of range and no shift leaves its width. -/
def ReadsInRange {α : Type} (x : Checked α) : Prop :=
  ∀ p, x = .error p → p = .valueIndexOutOfRange

theorem readsInRange_ok {α : Type} (a : α) : ReadsInRange (.ok a : Checked α) := nofun

theorem readsInRange_of_decides {P : Prop}
    (h : Decides x P) : ReadsInRange x := by
  obtain ⟨r,rfl,hr⟩ := h
  exact readsInRange_ok r

theorem readsInRange_andThen {y : Checked (Except ε Unit)}
    (hx : ReadsInRange x) (hy : ReadsInRange y) : ReadsInRange (andThen x y) := by
  cases x with
  | error p =>
    intro q h
    cases h
    exact hx p rfl
  | ok r =>
    cases r with
    | error e => exact readsInRange_ok _
    | ok u => exact hy

section Built

variable {cs : System} {values : ValueVec} (h : BuiltFor cs values)
include h

theorem ZeroConstraint.verify_decides {c : ZeroConstraint}
    (hc : ∀ operand ∈ (HasOperands.operands c).map Prod.fst, ∀ t ∈ operand, WellFormedTerm cs t) :
    Decides (c.verify values) (c.Holds values.word) := by
  simp only [HasOperands.operands,map_cons,map_nil,forall_mem_cons] at hc
  refine ⟨_,by simp only [ZeroConstraint.verify,evalOperandChecked_ok h hc.1]; rfl,?_⟩
  simp only [ZeroConstraint.Holds]
  split
  · rename_i hne
    simp only [reduceCtorEq,false_iff]
    exact hne
  · rename_i he
    simp only [true_iff]
    exact not_not.mp he

theorem AndConstraint.verify_decides {c : AndConstraint}
    (hc : ∀ operand ∈ (HasOperands.operands c).map Prod.fst, ∀ t ∈ operand, WellFormedTerm cs t) :
    Decides (c.verify values) (c.Holds values.word) := by
  simp only [HasOperands.operands,map_cons,map_nil,forall_mem_cons] at hc
  refine ⟨_,by simp only [AndConstraint.verify,evalOperandChecked_ok h hc.1,
    evalOperandChecked_ok h hc.2.1,evalOperandChecked_ok h hc.2.2.1]; rfl,?_⟩
  simp only [AndConstraint.Holds]
  split
  · rename_i hne
    simp only [reduceCtorEq,false_iff]
    exact fun he => hne (by rw [he,BitVec.xor_self]; rfl)
  · rename_i he
    simp only [true_iff]
    exact BitVec.xor_eq_zero_iff.mp (not_not.mp he)

theorem ImulConstraint.verify_decides {c : ImulConstraint}
    (hc : ∀ operand ∈ (HasOperands.operands c).map Prod.fst, ∀ t ∈ operand, WellFormedTerm cs t) :
    Decides (c.verify values) (c.Holds values.word) := by
  simp only [HasOperands.operands,map_cons,map_nil,forall_mem_cons] at hc
  refine ⟨_,by simp only [ImulConstraint.verify,evalOperandChecked_ok h hc.1,
    evalOperandChecked_ok h hc.2.1,evalOperandChecked_ok h hc.2.2.1,
    evalOperandChecked_ok h hc.2.2.2.1]; rfl,?_⟩
  simp only [ImulConstraint.Holds,Prod.ext_iff]
  split
  · rename_i hne
    simp only [reduceCtorEq,false_iff]
    rintro ⟨hhi,hlo⟩
    rcases hne with hne | hne
    · exact hne hlo.symm
    · exact hne hhi.symm
  · rename_i he
    simp only [true_iff]
    rw [not_or,not_not,not_not] at he
    exact ⟨he.2.symm,he.1.symm⟩

theorem BmulConstraint.verify_decides {c : BmulConstraint}
    (hc : ∀ operand ∈ (HasOperands.operands c).map Prod.fst, ∀ t ∈ operand, WellFormedTerm cs t) :
    Decides (c.verify values) (c.Holds values.word) := by
  simp only [HasOperands.operands,map_cons,map_nil,forall_mem_cons] at hc
  obtain ⟨h1,h2,h3,h4,h5,h6,-⟩ := hc
  refine ⟨_,by simp only [BmulConstraint.verify,evalElement,evalOperandChecked_ok h h1,
    evalOperandChecked_ok h h2,evalOperandChecked_ok h h3,evalOperandChecked_ok h h4,
    evalOperandChecked_ok h h5,evalOperandChecked_ok h h6]; rfl,?_⟩
  simp only [BmulConstraint.Holds]
  split
  · rename_i hne
    simp only [reduceCtorEq,false_iff]
    exact fun he => hne he.symm
  · rename_i he
    simp only [true_iff]
    exact (not_not.mp he).symm

variable (constants : List Word)

theorem verifyConstants_readsInRange {i : ℕ}
    (hi : i + constants.length = cs.nConst) (hcap : i ≤ segmentCapacity) :
    ReadsInRange (verifyConstants values i constants) := by
  induction constants generalizing i with
  | nil => exact readsInRange_ok _
  | cons constant rest ih =>
    rw [length_cons] at hi
    by_cases hlt : i < segmentCapacity
    · have hmod : i % 2 ^ 32 = i := Nat.mod_eq_of_lt (by simp only [segmentCapacity] at hlt; omega)
      have hread : values.read ⟨.constant,i,hlt⟩ = .ok (values.word ⟨.constant,i,hlt⟩) := by
        refine ValueVec.read_ok (wordOffset_lt h rfl ?_)
        simp only [System.segmentLen]
        omega
      simp only [verifyConstants,hmod,ValueIndex.new_ok hlt,bind,Except.bind,hread]
      split
      · exact readsInRange_ok _
      · exact ih (by omega) (by omega)
    · have he : i = segmentCapacity := by omega
      subst he
      have hmod : segmentCapacity % 2 ^ 32 = segmentCapacity := by decide
      simp only [verifyConstants,hmod,ValueIndex.new,Nat.lt_irrefl,dite_false,bind,Except.bind]
      intro p h
      cases h
      rfl

theorem verifyConstants_decides {i : ℕ}
    (hi : i + constants.length = cs.nConst) (hcap : cs.nConst ≤ segmentCapacity) :
    Decides (verifyConstants values i constants)
      (∀ j c, constants[j]? = some c → values.wordAt (i + j) = c) := by
  induction constants generalizing i with
  | nil => exact ⟨.ok (),rfl,by simp only [getElem?_nil,reduceCtorEq,false_implies,implies_true]⟩
  | cons constant rest ih =>
    rw [length_cons] at hi
    have hlt : i < segmentCapacity := by omega
    have hmod : i % 2 ^ 32 = i := Nat.mod_eq_of_lt (by simp only [segmentCapacity] at hlt; omega)
    have hread : values.read ⟨.constant,i,hlt⟩ = .ok (values.wordAt i) := by
      have hr := ValueVec.read_ok (wordOffset_lt h (v := ⟨.constant,i,hlt⟩) rfl
        (by simp only [System.segmentLen]; omega))
      simpa only [ValueVec.word,ValueVec.wordOffset,Nat.zero_add] using hr
    simp only [verifyConstants,hmod,ValueIndex.new_ok hlt,bind,Except.bind,hread]
    by_cases hw : values.wordAt i = constant
    · obtain ⟨r,hr,hP⟩ := ih (i := i + 1) (by omega)
      simp only [hw,ne_eq,not_true_eq_false,if_false]
      refine ⟨r,hr,hP.trans ⟨fun hall j c hj => ?_,fun hall j c hj => ?_⟩⟩
      · cases j with
        | zero =>
          cases hj
          exact hw
        | succ j =>
          rw [← Nat.add_assoc,Nat.add_right_comm]
          exact hall j c hj
      · rw [Nat.add_right_comm,Nat.add_assoc]
        exact hall (j + 1) c hj
    · simp only [ne_eq,hw,not_false_eq_true,if_true]
      refine ⟨_,rfl,?_⟩
      simp only [reduceCtorEq,false_iff]
      exact fun hall => hw (hall 0 constant rfl)

end Built

theorem operands_of_mem [HasOperands C] {constraints : List C} {c : C}
    (hc : c ∈ constraints) {P : Operand → Prop} (h : ∀ operand ∈ operandsOf constraints, P operand) :
    ∀ operand ∈ (HasOperands.operands c).map Prod.fst, P operand :=
  fun operand ho => h operand (mem_flatMap.mpr ⟨c,hc,ho⟩)

theorem verifyConstraints_decides {cs : System}
    (hv : ∀ operand ∈ cs.operands, ∀ t ∈ operand, WellFormedTerm cs t)
    (h : BuiltFor cs values) :
    Decides (andThen (verifyAll (ZeroConstraint.verify values) 0 cs.zeroConstraints) <|
        andThen (verifyAll (AndConstraint.verify values) 0 cs.andConstraints) <|
        andThen (verifyAll (ImulConstraint.verify values) 0 cs.imulConstraints) <|
        verifyAll (BmulConstraint.verify values) 0 cs.bmulConstraints)
      ((∀ c ∈ cs.zeroConstraints, c.Holds values.word) ∧
        (∀ c ∈ cs.andConstraints, c.Holds values.word) ∧
        (∀ c ∈ cs.imulConstraints, c.Holds values.word) ∧
        ∀ c ∈ cs.bmulConstraints, c.Holds values.word) := by
  simp only [System.operands,forall_mem_append] at hv
  obtain ⟨hz,ha,hi,hb⟩ := hv
  refine decides_andThen ?_ (decides_andThen ?_ (decides_andThen ?_ ?_))
  · exact decides_verifyAll _ (fun c hc => ZeroConstraint.verify_decides h (operands_of_mem hc hz)) 0
  · exact decides_verifyAll _ (fun c hc => AndConstraint.verify_decides h (operands_of_mem hc ha)) 0
  · exact decides_verifyAll _ (fun c hc => ImulConstraint.verify_decides h (operands_of_mem hc hi)) 0
  · exact decides_verifyAll _ (fun c hc => BmulConstraint.verify_decides h (operands_of_mem hc hb)) 0

theorem verify_decides {cs : System}
    (hv : ∀ operand ∈ cs.operands, ∀ t ∈ operand, WellFormedTerm cs t)
    (h : BuiltFor cs values) (hcap : cs.nConst ≤ segmentCapacity) :
    Decides (cs.verify values) (Satisfies cs values) := by
  have hc := verifyConstants_decides h cs.constants (i := 0) (by rw [Nat.zero_add]; rfl) hcap
  obtain ⟨r,hr,hP⟩ := decides_andThen hc (verifyConstraints_decides hv h)
  refine ⟨r,hr,hP.trans ⟨fun ⟨hk,hz,ha,hi,hb⟩ => ⟨fun j c hj => ?_,hz,ha,hi,hb⟩,fun hs => ?_⟩⟩
  · have hk' := hk j c hj
    rw [Nat.zero_add] at hk'
    exact hk'
  · refine ⟨fun j c hj => ?_,hs.zero,hs.and,hs.imul,hs.bmul⟩
    rw [Nat.zero_add]
    exact hs.constants j c hj

/-- On a validated system, evaluation of every operand is total and the verifier
neither reads past the vector nor shifts outside a width; below the index
capacity it does not fail at the machine level at all. -/
theorem verify_total {cs : System} {values : ValueVec} (hv : cs.validate = .ok ())
    (h : BuiltFor cs values) :
    (∀ operand ∈ cs.operands, ∃ w, evalOperandChecked values operand = .ok w) ∧
      ReadsInRange (cs.verify values) ∧
      (cs.nConst ≤ segmentCapacity → ∃ r, cs.verify values = .ok r) := by
  have hw := ((validate_eq_ok cs).mp hv).2.2
  refine ⟨fun operand ho => ⟨_,evalOperandChecked_ok h (hw operand ho)⟩,?_,fun hcap => ?_⟩
  · exact readsInRange_andThen
      (verifyConstants_readsInRange h cs.constants (by rw [Nat.zero_add]; rfl) (Nat.zero_le _))
      (readsInRange_of_decides (verifyConstraints_decides hw h))
  · obtain ⟨r,hr,hP⟩ := verify_decides hw h hcap
    exact ⟨r,hr⟩

/-- A system over one constant, one inout and one private word: the inout word
masked by the constant is the private word's cleared low bits. -/
def maskSystem : System where
  constants := [0xfffffffffffffff8]
  nInout := 1
  nPrivate := 1
  zeroConstraints := []
  andConstraints :=
    [⟨[.plain ⟨.inOut,0,zero_lt_segmentCapacity⟩],[.plain ⟨.constant,0,zero_lt_segmentCapacity⟩],
      [⟨⟨.priv,0,zero_lt_segmentCapacity⟩,⟨.slr,3⟩,⟨.sll,3⟩⟩]⟩]
  imulConstraints := []
  bmulConstraints := []

/-- The verifier is total on the masking system. -/
theorem verify_total_mask :
    (∀ operand ∈ maskSystem.operands, ∃ w,
        evalOperandChecked (maskSystem.valueVecFromData [13] [15]) operand = .ok w) ∧
      ReadsInRange (maskSystem.verify (maskSystem.valueVecFromData [13] [15])) ∧
      (maskSystem.nConst ≤ segmentCapacity →
        ∃ r, maskSystem.verify (maskSystem.valueVecFromData [13] [15]) = .ok r) :=
  verify_total (by decide) (valueVecFromData_builtFor rfl rfl)

end Binius64.ConstraintSystem
