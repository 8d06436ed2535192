import Binius64.WiringEvaluation

/-!
# Wiring claims

The evaluation of the wiring of a constraint system at a flat input.
-/

namespace Binius64.ConstraintSystem

open Ntt CheckedRun PackedFolding PackedExpansion EqualityTensor List

variable {F : Type}

/-- How the flat input splits back into its sections. -/
structure WiringEvalShape where
  inout : InoutSegment
  rXPrimeLens : List ℕ
  rSLen : ℕ
  rVLen : ℕ
  rYLen : ℕ
deriving DecidableEq

def operationCount : ℕ := 1 <<< logOperationCount

def System.logConstraints (cs : System) : List ℕ :=
  [cs.logZeroConstraints,cs.logAndConstraints,cs.logImulConstraints,cs.logBmulConstraints].map (·.getD 0)

def System.wiringShape (cs : System) (inout : InoutSegment) : WiringEvalShape :=
  ⟨inout,cs.logConstraints,logWordBits,logShiftVariantCount,cs.logSegmentWords inout⟩

def WiringEvalShape.inputLen (shape : WiringEvalShape) : ℕ :=
  logOperationCount + logMaxArity + shape.rXPrimeLens.sum + 2 * (shape.rSLen + shape.rVLen) + shape.rYLen + 1

/-- The sections of the flat input above the operation batch. -/
structure WiringSections (F : Type) where
  operandBatch : List F
  rXPrime : List (List F)
  rSInner : List F
  rVInner : List F
  rSOuter : List F
  rVOuter : List F
  rY : List F
  rSegment : F

def takeRun (vals : List F) (off len : ℕ) : Except AssertFailure (List F × ℕ) := do
  let run ← slice vals off (off + len)
  return (run,off + len)

def takeRuns (vals : List F) : List ℕ → ℕ → Except AssertFailure (List (List F) × ℕ)
  | [],off => return ([],off)
  | len :: lens,off => do
    let (run,off) ← takeRun vals off len
    let (runs,off) ← takeRuns vals lens off
    return (run :: runs,off)

/-- Split the flat input into its sections, in the order they were concatenated. -/
def readSections (shape : WiringEvalShape) (vals : List F) : Except AssertFailure (WiringSections F) := do
  let (operandBatch,off) ← takeRun vals logOperationCount logMaxArity
  let (rXPrime,off) ← takeRuns vals shape.rXPrimeLens off
  let (rSInner,off) ← takeRun vals off shape.rSLen
  let (rVInner,off) ← takeRun vals off shape.rVLen
  let (rSOuter,off) ← takeRun vals off shape.rSLen
  let (rVOuter,off) ← takeRun vals off shape.rVLen
  let (rY,off) ← takeRun vals off shape.rYLen
  let rSegment ← index vals off
  return ⟨operandBatch,rXPrime,rSInner,rVInner,rSOuter,rVOuter,rY,rSegment⟩

section Sections

/-- What stands at an offset of a list, to its end. -/
def RestAt (vals : List F) (off : ℕ) (rest : List F) : Prop := ∃ done, vals = done ++ rest ∧ done.length = off

theorem slice_middle {α : Type} {done run rest : List α} {start stop : ℕ} (hstart : done.length = start)
    (hstop : start + run.length = stop) : slice (done ++ (run ++ rest)) start stop = .ok run := by
  have hle : start ≤ stop ∧ stop ≤ (done ++ (run ++ rest)).length := by
    rw [length_append,length_append]
    omega
  have hrun : ((done ++ (run ++ rest)).take stop).drop start = run := by
    rw [←hstop,←hstart,take_length_add_append,take_left,drop_left]
  rw [slice,require_true hle,ok_bind,hrun]
  rfl

theorem takeRun_run {vals run rest : List F} {off len : ℕ} (h : RestAt vals off (run ++ rest))
    (hlen : run.length = len) :
    takeRun vals off len = .ok (run,off + len) ∧ RestAt vals (off + len) rest := by
  obtain ⟨done,rfl,hdone⟩ := h
  refine ⟨?_,done ++ run,(append_assoc _ _ _).symm,by rw [length_append,hdone,hlen]⟩
  rw [takeRun,slice_middle hdone (by rw [hlen]),ok_bind]
  rfl

theorem takeRuns_run {vals rest : List F} {runs : List (List F)} {off : ℕ}
    (h : RestAt vals off (runs.flatten ++ rest)) :
    takeRuns vals (runs.map length) off = .ok (runs,off + (runs.map length).sum) ∧
      RestAt vals (off + (runs.map length).sum) rest := by
  induction runs generalizing off with
  | nil => exact ⟨rfl,h⟩
  | cons run runs ih =>
    rw [flatten_cons,append_assoc] at h
    obtain ⟨hrun,hrest⟩ := takeRun_run h rfl
    obtain ⟨hruns,hlast⟩ := ih hrest
    rw [map_cons,sum_cons,←Nat.add_assoc]
    refine ⟨?_,hlast⟩
    rw [takeRuns,hrun,ok_bind]
    dsimp only
    rw [hruns]
    rfl

namespace WiringSections

/-- The runs of a point above the operand axis. -/
def above (s : WiringSections F) : List F :=
  s.rSInner ++ (s.rVInner ++ (s.rSOuter ++ (s.rVOuter ++ (s.rY ++ [s.rSegment]))))

def flat (s : WiringSections F) : List F := s.operandBatch ++ (s.rXPrime.flatten ++ s.above)

structure Fits (s : WiringSections F) (shape : WiringEvalShape) : Prop where
  operandBatch : s.operandBatch.length = logMaxArity
  rXPrime : s.rXPrime.map length = shape.rXPrimeLens
  rSInner : s.rSInner.length = shape.rSLen
  rVInner : s.rVInner.length = shape.rVLen
  rSOuter : s.rSOuter.length = shape.rSLen
  rVOuter : s.rVOuter.length = shape.rVLen
  rY : s.rY.length = shape.rYLen

end WiringSections

variable {s : WiringSections F} {shape : WiringEvalShape} {batch : List F}

theorem readSections_run (hbatch : batch.length = logOperationCount) (h : s.Fits shape) :
    readSections shape (batch ++ s.flat) = .ok s := by
  have hstart : RestAt (batch ++ s.flat) logOperationCount s.flat := ⟨batch,rfl,hbatch⟩
  obtain ⟨hoperand,hrest⟩ := takeRun_run hstart h.operandBatch
  obtain ⟨hconstraints,hrest⟩ := takeRuns_run hrest
  rw [h.rXPrime] at hconstraints hrest
  obtain ⟨hsInner,hrest⟩ := takeRun_run hrest h.rSInner
  obtain ⟨hvInner,hrest⟩ := takeRun_run hrest h.rVInner
  obtain ⟨hsOuter,hrest⟩ := takeRun_run hrest h.rSOuter
  obtain ⟨hvOuter,hrest⟩ := takeRun_run hrest h.rVOuter
  obtain ⟨hy,done,hdone,hoff⟩ := takeRun_run hrest h.rY
  have hsegment : (batch ++ s.flat)[done.length]? = some s.rSegment := by
    rw [hdone,getElem?_append_right (le_refl _),Nat.sub_self]
    rfl
  rw [readSections,hoperand,ok_bind]
  dsimp only
  rw [hconstraints,ok_bind]
  dsimp only
  rw [hsInner,ok_bind]
  dsimp only
  rw [hvInner,ok_bind]
  dsimp only
  rw [hsOuter,ok_bind]
  dsimp only
  rw [hvOuter,ok_bind]
  dsimp only
  rw [hy,ok_bind]
  dsimp only
  rw [←hoff,index,hsegment]
  rfl

theorem exists_split {l : List F} {m n : ℕ} (h : l.length = m + n) :
    ∃ as bs : List F, l = as ++ bs ∧ as.length = m ∧ bs.length = n :=
  ⟨l.take m,l.drop m,(take_append_drop m l).symm,by rw [length_take]; omega,
    by rw [length_drop]; omega⟩

theorem exists_runs {lens : List ℕ} {l : List F} {n : ℕ} (h : l.length = lens.sum + n) :
    ∃ (runs : List (List F)) (rest : List F),
      l = runs.flatten ++ rest ∧ runs.map length = lens ∧ rest.length = n := by
  induction lens generalizing l with
  | nil => exact ⟨[],l,rfl,rfl,by rwa [sum_nil,Nat.zero_add] at h⟩
  | cons len lens ih =>
    rw [sum_cons,Nat.add_assoc] at h
    obtain ⟨run,others,rfl,hrun,hothers⟩ := exists_split h
    obtain ⟨runs,rest,rfl,hruns,hrest⟩ := ih hothers
    exact ⟨run :: runs,rest,by rw [flatten_cons,append_assoc],by rw [map_cons,hrun,hruns],hrest⟩

theorem exists_sections {vals : List F} (h : vals.length = shape.inputLen) :
    ∃ (batch : List F) (s : WiringSections F), batch.length = logOperationCount ∧ s.Fits shape ∧
      vals = batch ++ s.flat := by
  have hlen : vals.length = logOperationCount + (logMaxArity + (shape.rXPrimeLens.sum + (shape.rSLen +
      (shape.rVLen + (shape.rSLen + (shape.rVLen + (shape.rYLen + 1))))))) := by
    rw [h,WiringEvalShape.inputLen]
    ring
  obtain ⟨batch,rest,rfl,hbatch,hrest⟩ := exists_split hlen
  obtain ⟨operandBatch,rest,rfl,hoperand,hrest⟩ := exists_split hrest
  obtain ⟨rXPrime,rest,rfl,hconstraints,hrest⟩ := exists_runs hrest
  obtain ⟨rSInner,rest,rfl,hsInner,hrest⟩ := exists_split hrest
  obtain ⟨rVInner,rest,rfl,hvInner,hrest⟩ := exists_split hrest
  obtain ⟨rSOuter,rest,rfl,hsOuter,hrest⟩ := exists_split hrest
  obtain ⟨rVOuter,rest,rfl,hvOuter,hrest⟩ := exists_split hrest
  obtain ⟨rY,rest,rfl,hy,hrest⟩ := exists_split hrest
  obtain ⟨rSegment,rfl⟩ := length_eq_one_iff.mp hrest
  exact ⟨batch,⟨operandBatch,rXPrime,rSInner,rVInner,rSOuter,rVOuter,rY,rSegment⟩,hbatch,
    ⟨hoperand,hconstraints,hsInner,hvInner,hsOuter,hvOuter,hy⟩,rfl⟩

end Sections

variable [Field F]

/-- The weight tables built from the flat input. -/
structure WiringInputs (F : Type) where
  /-- Each operation's table of the constraint axis; empty without constraints. -/
  constraintTables : List (List F)
  /-- The table of the inner spelling paired with the operand position. -/
  operandInnerShiftScalars : List F
  outerShiftScalars : List F
  publicTensor : List F
  hiddenTensor : List F

variable (point : List F)

def eqIndZero : F := (point.map fun y => (Hypercube.oneCube.basis y).1).prod

/-- The weight of each operation, read off the leading section. -/
def operationScales (vals : List F) : Except AssertFailure (List F) := do
  let weights := PackedExpansion.eqIndPartialEvalScalars .oneCube (← slice vals 0 logOperationCount)
  (range operationCount).mapM (index weights)

variable (inputs : WiringInputs F)

/-- The word-index tensor cut into one run a value segment; the padding between them is dropped. -/
def WiringInputs.valueTensor (cs : System) : InoutSegment → Except AssertFailure (List (List F))
  | .shared => do
    let constants ← slice inputs.publicTensor 0 cs.nConst
    let inout ← slice inputs.publicTensor cs.offsetInout (cs.offsetInout + cs.nInout)
    let priv ← slice inputs.hiddenTensor 0 cs.nPrivate
    return [constants,inout,priv]
  | .hidden => do
    let constants ← slice inputs.publicTensor 0 cs.nConst
    let inout ← slice inputs.hiddenTensor 0 cs.nInout
    let priv ← slice inputs.hiddenTensor cs.nInout (cs.nInout + cs.nPrivate)
    return [constants,inout,priv]

/-- The tables that all operations share, with the constraint table of one of them. -/
def WiringInputs.operationWeights (value : List (List F)) (constraint : List F) : WiringWeights F :=
  ⟨constraint,inputs.operandInnerShiftScalars,inputs.outerShiftScalars,value⟩

structure WiringEvalFn where
  constraintSystem : System
  shape : WiringEvalShape

structure OperationShare (F : Type) where
  eval : F
  /-- The axis runs: constraint, operand, inner shift, outer shift, word, segment. -/
  point : List F
  /-- The weight of the evaluation in the claim it was batched into. -/
  weight : F

def scalarExpand (scale : F) : Except AssertFailure (List F) :=
  return scaledEqIndPartialEvalScalars .oneCube point scale

/-- The expansion that the native evaluation uses, in words of one element. -/
def packedExpand (scale : F) : Except AssertFailure (List F) := do
  let buffer ← scaledEqIndPartialEvalInto (w := 0) .oneCube point scale (packedWords 0 point.length)
  return buffer.words.map (·.get 0)

namespace WiringEvalFn

variable [DecidableEq F] (f : WiringEvalFn)

variable (vals : List F)

def wiringWeights (scaledExpand : List F → F → Except AssertFailure (List F))
    (operationScales : List F) : Except AssertFailure (WiringInputs F) := do
  require (f.shape.rXPrimeLens = f.constraintSystem.logConstraints)
  let s ← readSections f.shape vals
  let logPublicWords := f.constraintSystem.logPublicWords f.shape.inout
  let padding ← slice s.rY logPublicWords s.rY.length
  -- the public segment is a prefix of the low half, zero on the coordinates it does not use
  let publicScale := Hypercube.oneCube.eqOneVar s.rSegment 0 * eqIndZero padding
  let publicTensor ← scaledExpand (← slice s.rY 0 logPublicWords) publicScale
  let hiddenTensor ← scaledExpand s.rY s.rSegment
  let operandInnerShiftScalars :=
    PackedExpansion.eqIndPartialEvalScalars .oneCube (s.operandBatch ++ s.rSInner ++ s.rVInner)
  let outerShiftScalars := PackedExpansion.eqIndPartialEvalScalars .oneCube (s.rSOuter ++ s.rVOuter)
  require (outerShiftScalars.length = shiftCount)
  let constraintTables ← (range operationCount).mapM fun operation => do
    if (← index f.constraintSystem.operations operation).length = 0 then return []
    scaledExpand (← index s.rXPrime operation) (← index operationScales operation)
  return ⟨constraintTables,operandInnerShiftScalars,outerShiftScalars,publicTensor,hiddenTensor⟩

def operationEvals (inputs : WiringInputs F) (eval : OperationEvalFn → WiringWeights F → Except AssertFailure F) :
    Except AssertFailure (List F) := do
  let value ← inputs.valueTensor f.constraintSystem f.shape.inout
  (range operationCount).mapM fun operation => do
    let constraints ← index f.constraintSystem.operations operation
    eval ⟨constraints⟩ (inputs.operationWeights value (← index inputs.constraintTables operation))

/-- The evaluation at a flat input. -/
def call : Except AssertFailure F := do
  let inputs ← f.wiringWeights vals scalarExpand (← operationScales vals)
  return (← f.operationEvals inputs OperationEvalFn.call).sum

/-- The evaluation with packed expansions and deferred reductions. -/
def callNative (mul : WideMul 0 F) (vals : List F) : Except AssertFailure F := do
  let inputs ← f.wiringWeights vals packedExpand (← operationScales vals)
  return (← f.operationEvals inputs (OperationEvalFn.callNative mul)).sum

/-- The claim taken apart into one claim an operation. -/
def splitByOperation : Except AssertFailure (List (OperationShare F)) := do
  -- seeded with one, so that an evaluation is the operation's own
  let inputs ← f.wiringWeights vals scalarExpand (replicate operationCount 1)
  let evals ← f.operationEvals inputs OperationEvalFn.call
  let operandBatch ← slice vals logOperationCount (logOperationCount + logMaxArity)
  let (rXPrime,off) ← takeRuns vals f.shape.rXPrimeLens (logOperationCount + logMaxArity)
  let aboveConstraints ← slice vals off vals.length
  let scales ← operationScales vals
  (range operationCount).mapM fun operation => do
    return ⟨← index evals operation,(← index rXPrime operation) ++ operandBatch ++ aboveConstraints,
      ← index scales operation⟩

end WiringEvalFn

end Binius64.ConstraintSystem
