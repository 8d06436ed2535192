import Binius64.CheckedSums
import Binius64.PackedFolding
import Binius64.WiringTensor

/-!
# Evaluating a wiring tensor

The sum over the entries of a wiring tensor of one weight an axis, in three ways: entry by
entry, grouped by constraint, and grouped with the reductions deferred.
-/

namespace Binius64.ConstraintSystem

open Ntt ValueVector CheckedRun PackedFolding List

variable {F : Type} [Field F]

structure WiringWeights (F : Type) where
  constraint : List F
  /-- One entry an inner spelling paired with an operand position, the operand innermost. -/
  innerOperand : List F
  outer : List F
  value : List (List F)

namespace WiringWeights

def axes (weights : WiringWeights F) (operand innerShift outerShift : ℕ) (value : ValueIndex) :
    Except AssertFailure F := do
  let innerOperand ← index weights.innerOperand ((innerShift <<< logMaxArity) ||| operand)
  let outer ← index weights.outer outerShift
  let run ← index weights.value value.segment.tag
  let word ← index run value.index
  return innerOperand * outer * word

def term (weights : WiringWeights F) (operand : ℕ) (svi : ShiftedValueIndex) : Except AssertFailure F := do
  let inner ← svi.inner.index
  let outer ← svi.outer.index
  weights.axes operand inner outer svi.valueIndex

def constraintEval (weights : WiringWeights F) (row : List Operand) : Except AssertFailure F :=
  row.zipIdx.foldlM (fun eval operand =>
    operand.1.foldlM (fun eval svi => do return eval + (← weights.term operand.2 svi)) eval) 0

end WiringWeights

namespace OperationEvalFn

/-- The same sum grouped by constraint; the walk stops at the last real constraint. -/
def call (op : OperationEvalFn) (weights : WiringWeights F) : Except AssertFailure F :=
  (op.constraints.zip weights.constraint).foldlM
    (fun eval row => do return eval + (← weights.constraintEval row.1) * row.2) 0

/-- The same sum with one product a constraint that is not reduced before the end. -/
def callNative (mul : WideMul 0 F) (op : OperationEvalFn) (weights : WiringWeights F) : Except AssertFailure F := do
  let products ← (op.constraints.zip weights.constraint).mapM fun row => do
    return mul.wideMul (.broadcast (← weights.constraintEval row.1)) (.broadcast row.2)
  return (mul.reduce products.sum).get 0

end OperationEvalFn

theorem index_getElem {α : Type} {xs : List α} {i : ℕ} (hi : i < xs.length) : index xs i = .ok xs[i] := by
  rw [index,getElem?_eq_getElem hi]

theorem lt_of_index {α : Type} {xs : List α} {i : ℕ} {x : α} (h : index xs i = .ok x) : i < xs.length := by
  by_contra hi
  rw [index,getElem?_eq_none (Nat.le_of_not_lt hi)] at h
  cases h

theorem zip_eq_zipIdx {rows : List (List Operand)} {table : List F} (h : rows.length ≤ table.length) :
    rows.zip table = rows.zipIdx.map fun row => (row.1,table.getD row.2 0) := by
  refine ext_getElem ?_ fun i hi hi' => ?_
  · rw [length_zip,length_map,length_zipIdx,Nat.min_eq_left h]
  · rw [length_zip] at hi
    rw [getElem_zip,getElem_map,getElem_zipIdx,Nat.zero_add,
      getD_eq_getElem _ _ (by omega)]

theorem mem_zip {rows : List (List Operand)} {table : List F} (h : rows.length ≤ table.length) {c : ℕ}
    {row : List Operand} (hrow : rows[c]? = some row) : (row,table.getD c 0) ∈ rows.zip table := by
  have hmem : (row,c) ∈ rows.zipIdx := mem_zipIdx_iff_getElem?.mpr hrow
  rw [zip_eq_zipIdx h]
  exact mem_map_of_mem hmem

section Terms

variable {op : OperationEvalFn} {weights : WiringWeights F} {g : ℕ × ShiftedValueIndex → F}

def OperationEvalFn.termSum (op : OperationEvalFn) (constraint : List F) (g : ℕ × ShiftedValueIndex → F) : F :=
  (op.terms.map fun x => constraint.getD x.1 0 * g x.2).sum

def rowSum (g : ℕ × ShiftedValueIndex → F) (row : List Operand) : F :=
  (row.zipIdx.map fun operand => (operand.1.map fun svi => g (operand.2,svi)).sum).sum

theorem OperationEvalFn.termSum_rows (op : OperationEvalFn) (constraint : List F)
    (g : ℕ × ShiftedValueIndex → F) : op.termSum constraint g =
      (op.constraints.zipIdx.map fun row => rowSum g row.1 * constraint.getD row.2 0).sum := by
  rw [termSum,terms,map_flatMap,flatMap_def,sum_flatten,map_map]
  refine congrArg sum (map_congr_left fun row _ => ?_)
  rw [Function.comp_apply,map_flatMap,flatMap_def,sum_flatten,map_map,rowSum,mul_comm,
    ←sum_map_mul_left]
  refine congrArg sum (map_congr_left fun operand _ => ?_)
  rw [Function.comp_apply,map_map,←sum_map_mul_left]
  rfl

theorem WiringWeights.constraintEval_ok {row : List Operand} {c : ℕ} (hrow : op.constraints[c]? = some row)
    (h : ∀ x ∈ op.terms, weights.term x.2.1 x.2.2 = .ok (g x.2)) :
    weights.constraintEval row = .ok (rowSum g row) := by
  rw [constraintEval,rowSum,foldlM_sum (g := fun operand => (operand.1.map fun svi => g (operand.2,svi)).sum),
    zero_add]
  intro operand hoperand a
  refine foldlM_sum (fun svi hsvi a => ?_) a
  rw [h (c,operand.2,svi) (OperationEvalFn.mem_terms.mpr
    ⟨row,hrow,operand.1,mem_zipIdx_iff_getElem?.mp hoperand,hsvi⟩),ok_bind]
  rfl

theorem WiringWeights.constraintEval_stop {row : List Operand} {x : ℕ × ℕ × ShiftedValueIndex}
    (hoperand : ∃ operand, row[x.2.1]? = some operand ∧ x.2.2 ∈ operand)
    (hx : weights.term x.2.1 x.2.2 = .error .failed) : ∃ e, weights.constraintEval row = .error e := by
  obtain ⟨operand,hget,hsvi⟩ := hoperand
  have hmem : (operand,x.2.1) ∈ row.zipIdx := mem_zipIdx_iff_getElem?.mpr hget
  refine foldlM_stop hmem (fun eval => ?_) 0
  refine foldlM_stop hsvi (fun eval => ⟨.failed,?_⟩) eval
  rw [hx]
  rfl

namespace OperationEvalFn

theorem call_ok (hlen : op.constraints.length ≤ weights.constraint.length)
    (h : ∀ x ∈ op.terms, weights.term x.2.1 x.2.2 = .ok (g x.2)) :
    op.call weights = .ok (op.termSum weights.constraint g) := by
  rw [call,zip_eq_zipIdx hlen,termSum_rows,foldlM_map,
    foldlM_sum (g := fun row => rowSum g row.1 * weights.constraint.getD row.2 0),zero_add]
  intro row hrow eval
  rw [WiringWeights.constraintEval_ok (mem_zipIdx_iff_getElem?.mp hrow) h,ok_bind]
  rfl

variable (mul : WideMul 0 F)

theorem reduce_wideSum {α : Type} (xs : List α) (u v : α → F) :
    (mul.reduce (xs.map fun x => mul.wideMul (.broadcast (u x)) (.broadcast (v x))).sum).get 0 =
      (xs.map fun x => u x * v x).sum := by
  induction xs with
  | nil =>
    rw [map_nil,map_nil,sum_nil,sum_nil,map_zero]
    rfl
  | cons x xs ih =>
    rw [map_cons,map_cons,sum_cons,sum_cons,map_add,mul.reduce_wideMul,
      get_add _ _ (Nat.two_pow_pos 0),ih,get_mul _ _ (Nat.two_pow_pos 0)]
    rfl

theorem callNative_ok (hlen : op.constraints.length ≤ weights.constraint.length)
    (h : ∀ x ∈ op.terms, weights.term x.2.1 x.2.2 = .ok (g x.2)) :
    op.callNative mul weights = .ok (op.termSum weights.constraint g) := by
  have hproducts : (op.constraints.zip weights.constraint).mapM (fun row => do
      return mul.wideMul (.broadcast (← weights.constraintEval row.1)) (.broadcast row.2)) =
      .ok ((op.constraints.zip weights.constraint).map fun row =>
        mul.wideMul (.broadcast (rowSum g row.1)) (.broadcast row.2)) := by
    refine mapM_eq_map fun row hrow => ?_
    rw [zip_eq_zipIdx hlen,mem_map] at hrow
    obtain ⟨entry,hentry,rfl⟩ := hrow
    rw [WiringWeights.constraintEval_ok (mem_zipIdx_iff_getElem?.mp hentry) h]
    rfl
  rw [callNative,hproducts,ok_bind,reduce_wideSum,zip_eq_zipIdx hlen,map_map,termSum_rows]
  rfl

theorem call_stop (hlen : op.constraints.length ≤ weights.constraint.length) {x : ℕ × ℕ × ShiftedValueIndex}
    (hterm : x ∈ op.terms) (hx : weights.term x.2.1 x.2.2 = .error .failed) :
    op.call weights = .error .failed := by
  obtain ⟨row,hrow,hoperand⟩ := mem_terms.mp hterm
  obtain ⟨e,he⟩ := WiringWeights.constraintEval_stop hoperand hx
  obtain ⟨e',he'⟩ := foldlM_stop (mem_zip hlen hrow) (f := fun eval (row : List Operand × F) => do
    return eval + (← weights.constraintEval row.1) * row.2) (fun eval => ⟨e,by rw [he]; rfl⟩) 0
  cases e'
  exact he'

theorem callNative_stop (hlen : op.constraints.length ≤ weights.constraint.length)
    {x : ℕ × ℕ × ShiftedValueIndex} (hterm : x ∈ op.terms)
    (hx : weights.term x.2.1 x.2.2 = .error .failed) : op.callNative mul weights = .error .failed := by
  obtain ⟨row,hrow,hoperand⟩ := mem_terms.mp hterm
  obtain ⟨e,he⟩ := WiringWeights.constraintEval_stop hoperand hx
  obtain ⟨e',he'⟩ := mapM_stop (mem_zip hlen hrow) (f := fun row => do
    return mul.wideMul (.broadcast (← weights.constraintEval row.1)) (.broadcast row.2))
    (e := e) (by rw [he]; rfl)
  rw [callNative,he']
  cases e'
  rfl

end OperationEvalFn

end Terms

end Binius64.ConstraintSystem
