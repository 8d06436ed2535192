import Binius64.ConstraintSystem
import Binius64.TwiddleContexts

/-!
# The wiring tensor

The references that the constraints make to the values.
-/

namespace Binius64.ConstraintSystem

open Ntt ValueVector ShiftAlgebra List

inductive InoutSegment where
  /-- The verifier knows the inout values. -/
  | shared
  /-- The inout values are committed with the private ones. -/
  | hidden
deriving DecidableEq

/-- The number of bits that index so many entries. -/
def log2CeilUsize (n : ℕ) : ℕ := Nat.clog 2 n

/-- The number of variables that so many constraints span, if there are any. -/
def logRows (n : ℕ) : Option ℕ := if n = 0 then none else some (log2CeilUsize n)

namespace System

variable (cs : System)

def offsetInout : ℕ := cs.nConst

def nPublicWords : InoutSegment → ℕ
  | .shared => cs.nPublicValues
  | .hidden => cs.nConst

variable (inout : InoutSegment)

/-- The number of variables the public segment spans. -/
def logPublicWords : ℕ := log2CeilUsize (cs.nPublicWords inout)

def nHiddenWords : InoutSegment → ℕ
  | .shared => cs.nPrivate
  | .hidden => cs.nInout + cs.nPrivate

/-- The number of variables the hidden segment spans. -/
def logWitnessWords : ℕ := log2CeilUsize (cs.nHiddenWords inout)

/-- The number of variables of a word index: those of the wider segment. -/
def logSegmentWords : ℕ :=
  if cs.logPublicWords inout > cs.logWitnessWords inout then cs.logPublicWords inout
  else cs.logWitnessWords inout

def logZeroConstraints : Option ℕ := logRows cs.zeroConstraints.length

def logAndConstraints : Option ℕ := logRows cs.andConstraints.length

def logImulConstraints : Option ℕ := logRows cs.imulConstraints.length

def logBmulConstraints : Option ℕ := logRows cs.bmulConstraints.length

end System

def storageOrder {C : Type} [HasOperands C] (c : C) : List Operand := (HasOperands.operands c).map Prod.fst

def System.operations (cs : System) : List (List (List Operand)) :=
  [cs.zeroConstraints.map storageOrder,cs.andConstraints.map storageOrder,
    cs.imulConstraints.map storageOrder,cs.bmulConstraints.map storageOrder]

/-- The base-2 logarithm of the operand axis. -/
def logMaxArity : ℕ := 3

def logOperationCount : ℕ := 2

def logShiftVariantCount : ℕ := 3

def logWordBits : ℕ := 6

def logShiftCount : ℕ := logShiftVariantCount + logWordBits

def shiftCount : ℕ := 1 <<< logShiftCount

end Binius64.ConstraintSystem

namespace Binius64.ShiftAlgebra.Shift

open Ntt

def index (s : Shift) : Except AssertFailure ℕ := do
  require (s.amount < 64)
  return s.variant.toU8 * 64 + s.amount

/-- The number of a shift whose amount is below the width of a word. -/
def spelling (s : Shift) : ℕ := s.variant.toU8 * 64 + s.amount

theorem index_run {s : Shift} (h : s.amount < 64) : s.index = .ok s.spelling := by
  rw [index,require_true h]
  rfl

theorem amount_lt_of_index {s : Shift} {idx : ℕ} (h : s.index = .ok idx) : s.amount < 64 := by
  by_contra hamount
  rw [index,require,if_neg hamount] at h
  cases h

theorem spelling_lt {s : Shift} (h : s.amount < 64) : s.spelling < 512 := by
  have hvariant : s.variant.toU8 < 8 := by
    cases s.variant <;> decide
  rw [spelling]
  omega

end Binius64.ShiftAlgebra.Shift

namespace Binius64.ConstraintSystem

open Ntt ValueVector ShiftAlgebra

structure WiringEntry where
  constraint : ℕ
  operand : ℕ
  innerShift : ℕ
  outerShift : ℕ
  value : ValueIndex
deriving DecidableEq

structure OperationEvalFn where
  constraints : List (List Operand)

namespace OperationEvalFn

variable (op : OperationEvalFn)

/-- The terms of the constraints, each with its constraint and its operand position. -/
def terms : List (ℕ × ℕ × ShiftedValueIndex) :=
  op.constraints.zipIdx.flatMap fun row => row.1.zipIdx.flatMap fun operand =>
    operand.1.map fun svi => (row.2,operand.2,svi)

/-- The nonzeros of the wiring tensor, in constraint order. -/
def entries : Except AssertFailure (List WiringEntry) :=
  op.terms.mapM fun term => do
    let inner ← term.2.2.inner.index
    let outer ← term.2.2.outer.index
    return ⟨term.1,term.2.1,inner,outer,term.2.2.valueIndex⟩

theorem mem_terms {op : OperationEvalFn} {x : ℕ × ℕ × ShiftedValueIndex} :
    x ∈ op.terms ↔ ∃ row, op.constraints[x.1]? = some row ∧ ∃ operand, row[x.2.1]? = some operand ∧
      x.2.2 ∈ operand := by
  obtain ⟨c,o,svi⟩ := x
  simp only [terms,List.mem_flatMap,List.mem_map,Prod.exists,Prod.mk.injEq,List.mem_zipIdx_iff_getElem?]
  constructor
  · rintro ⟨row,_,hrow,operand,_,hoperand,_,hsvi,rfl,rfl,rfl⟩
    exact ⟨row,hrow,operand,hoperand,hsvi⟩
  · rintro ⟨row,hrow,operand,hoperand,hsvi⟩
    exact ⟨row,c,hrow,operand,o,hoperand,svi,hsvi,rfl,rfl,rfl⟩

end OperationEvalFn

/-- A term whose shifts have a number and whose value is in its segment. -/
structure InReach (cs : System) (t : ShiftedValueIndex) : Prop where
  inner : t.inner.amount < 64
  outer : t.outer.amount < 64
  referenceable : t.valueIndex.segment.isReferenceable = true
  inSegment : t.valueIndex.index < cs.segmentLen t.valueIndex.segment

variable (cs : System)

/-- Every term of the system is in reach. -/
def System.Referenced : Prop :=
  ∀ rows ∈ cs.operations, ∀ row ∈ rows, ∀ operand ∈ row, ∀ t ∈ operand, InReach cs t

theorem System.referenced_iff :
    cs.Referenced ↔ ∀ rows ∈ cs.operations, ∀ x ∈ OperationEvalFn.terms ⟨rows⟩, InReach cs x.2.2 := by
  constructor
  · intro h rows hrows x hx
    obtain ⟨row,hrow,operand,hoperand,hsvi⟩ := OperationEvalFn.mem_terms.mp hx
    exact h rows hrows row (List.mem_of_getElem? hrow) operand (List.mem_of_getElem? hoperand) x.2.2 hsvi
  · intro h rows hrows row hrow operand hoperand t ht
    obtain ⟨c,hc⟩ := List.mem_iff_getElem?.mp hrow
    obtain ⟨o,ho⟩ := List.mem_iff_getElem?.mp hoperand
    exact h rows hrows (c,o,t) (OperationEvalFn.mem_terms.mpr ⟨row,hc,operand,ho,ht⟩)

theorem System.arity_lt {rows : List (List Operand)} (hrows : rows ∈ cs.operations)
    {row : List Operand} (hrow : row ∈ rows) : row.length < 2 ^ logMaxArity := by
  simp only [System.operations,List.mem_cons,List.not_mem_nil,or_false] at hrows
  rcases hrows with rfl | rfl | rfl | rfl <;>
  · obtain ⟨c,-,rfl⟩ := List.mem_map.mp hrow
    simp [storageOrder,HasOperands.operands,logMaxArity]

theorem System.operand_lt {cs : System} {rows : List (List Operand)} (hrows : rows ∈ cs.operations)
    {x : ℕ × ℕ × ShiftedValueIndex} (hx : x ∈ OperationEvalFn.terms ⟨rows⟩) : x.2.1 < 2 ^ logMaxArity := by
  obtain ⟨row,hrow,operand,hoperand,-⟩ := OperationEvalFn.mem_terms.mp hx
  have hlt : x.2.1 < row.length := (List.getElem?_eq_some_iff.mp hoperand).1
  exact hlt.trans (cs.arity_lt hrows (List.mem_of_getElem? hrow))

variable (inout : InoutSegment)

/-- The address of a word in the two padded segments: the public one, and the hidden one above it. -/
def System.addressAt (offset : ℕ) : ℕ :=
  if offset < cs.nPublicWords inout then offset
  else 2 ^ cs.logSegmentWords inout + (offset - cs.nPublicWords inout)

def System.paddedAddress (v : ValueIndex) : ℕ :=
  cs.addressAt inout (cs.wordOffset v)

variable (logConstraints : ℕ)

def WiringEntry.address (entry : WiringEntry) : ℕ :=
  (((cs.paddedAddress inout entry.value * 2 ^ logShiftCount + entry.outerShift) * 2 ^ logShiftCount +
    entry.innerShift) * 2 ^ logMaxArity + entry.operand) * 2 ^ logConstraints + entry.constraint

def wiringTensor {F : Type} [Zero F] [One F] (entries : List WiringEntry) (address : ℕ) : F :=
  if entries.countP (fun entry => entry.address cs inout logConstraints = address) % 2 = 1 then 1 else 0

end Binius64.ConstraintSystem
