import Binius64.LayerChecks
import Binius64.NttBlocks
import Binius64.SplitCoordinates

/-!
# Evaluation in place

A multilinear given by its values is evaluated by fixing one variable after another, the upper half
of the buffer folded into the lower.
-/

namespace Binius64.InplaceEvaluation

open Ntt SplitCoordinates List
open LayerChecks (extrapolateLine)

variable {F : Type}

/-- A slice of scalars. -/
structure Values (F : Type) where
  len : ℕ
  scalars : Memory F

section Evaluation

variable [Field F]

def evaluateLoop (point : List F) (evals : Memory F) : Memory F :=
  point.zipIdx.reverse.foldl (fun evals entry =>
    let halfLen := 1 <<< entry.2
    (range halfLen).foldl (fun evals j =>
      Function.update evals j (evals j + entry.1 * (evals (j + halfLen) - evals j))) evals) evals

def evaluateInplaceScalars (evals : Values F) (point : List F) : Except AssertFailure F := do
  require (evals.len = 1 <<< point.length)
  return evaluateLoop point evals.scalars 0

theorem evaluateInplaceScalars_run {evals : Values F} {point : List F}
    (h : evals.len = 1 <<< point.length) :
    evaluateInplaceScalars evals point = .ok (evaluateLoop point evals.scalars 0) := by
  rw [evaluateInplaceScalars,require_true h]
  rfl

end Evaluation

theorem updates_apply {f : ℕ → Memory F → F} {d : Memory F}
    (hf : ∀ i (x : Memory F), (∀ j, i ≤ j → x j = d j) → f i x = f i d) (n j : ℕ) :
    (range n).foldl (fun data i => Function.update data i (f i data)) d j =
      if j < n then f j d else d j := by
  induction n generalizing j with
  | zero => rfl
  | succ n ih =>
    rw [range_succ,foldl_append,foldl_cons,foldl_nil]
    have hlater : ∀ j, n ≤ j →
        (range n).foldl (fun data i => Function.update data i (f i data)) d j = d j := by
      intro j hj
      rw [ih,if_neg (not_lt.mpr hj)]
    by_cases hjn : j = n
    · rw [hjn,Function.update_self,if_pos (Nat.lt_succ_self n)]
      exact hf n _ hlater
    · have hsame : j < n ↔ j < n + 1 := by omega
      rw [Function.update_of_ne hjn,ih,if_congr hsame rfl rfl]

variable [Field F]

/-- Fix the variable at a bit of the index. -/
def foldHighest (h : ℕ) (r : F) (m : Memory F) : Memory F :=
  fun i => extrapolateLine (m i) (m (i + 2 ^ h)) r

variable (point : List F)

theorem evaluateLoop_concat (q : F) (evals : Memory F) :
    evaluateLoop (point ++ [q]) evals = evaluateLoop point fun j =>
      if j < 2 ^ point.length then foldHighest point.length q evals j else evals j := by
  have hstep : ∀ j, (range (1 <<< point.length)).foldl (fun evals j =>
      Function.update evals j (evals j + q * (evals (j + 1 <<< point.length) - evals j))) evals j =
        if j < 2 ^ point.length then foldHighest point.length q evals j else evals j := by
    intro j
    have hloop := updates_apply (f := fun j x => x j + q * (x (j + 1 <<< point.length) - x j))
      (d := evals) (fun i x hx => by rw [hx i (le_refl i),hx _ (Nat.le_add_right i _)])
      (1 <<< point.length) j
    rw [hloop,Nat.shiftLeft_eq,one_mul]
    simp only [foldHighest,extrapolateLine,mul_comm]
  rw [evaluateLoop,zipIdx_append,reverse_append,foldl_append,zero_add]
  exact congrArg (evaluateLoop point) (funext hstep)

theorem evaluateLoop_congr {x y : Memory F} (h : ∀ j < 2 ^ point.length, x j = y j) :
    evaluateLoop point x 0 = evaluateLoop point y 0 := by
  induction point using reverseRecOn generalizing x y with
  | nil => exact h 0 Nat.one_pos
  | append_singleton point q ih =>
    rw [length_append,length_singleton,pow_succ,mul_two] at h
    rw [evaluateLoop_concat,evaluateLoop_concat]
    refine ih fun j hj => ?_
    rw [if_pos hj,if_pos hj,foldHighest,foldHighest,h j (by omega),h _ (by omega)]

theorem evaluateLoop_cons (p : F) (point : List F) (x : Memory F) : evaluateLoop (p :: point) x 0 =
    evaluateLoop point (fun j => extrapolateLine (x (2 * j)) (x (2 * j + 1)) p) 0 := by
  induction point using reverseRecOn generalizing x with
  | nil => exact congrFun (evaluateLoop_concat [] p x) 0
  | append_singleton point q ih =>
    rw [←cons_append,evaluateLoop_concat,ih,evaluateLoop_concat]
    refine evaluateLoop_congr point fun j hj => ?_
    have heven : 2 * j < 2 ^ (p :: point).length := by
      rw [length_cons,pow_succ']
      omega
    have hodd : 2 * j + 1 < 2 ^ (p :: point).length := by
      rw [length_cons,pow_succ']
      omega
    have hupper : 2 * j + 2 ^ (p :: point).length = 2 * (j + 2 ^ point.length) := by
      rw [length_cons,pow_succ']
      omega
    rw [if_pos heven,if_pos hodd,if_pos hj]
    simp only [foldHighest,add_right_comm _ 1,hupper,extrapolateLine]
    ring

theorem evaluateLoop_extrapolateLine (x y : Memory F) (p : F) :
    evaluateLoop point (fun j => extrapolateLine (x j) (y j) p) 0 =
      extrapolateLine (evaluateLoop point x 0) (evaluateLoop point y 0) p := by
  induction point generalizing x y with
  | nil => rfl
  | cons q point ih =>
    rw [evaluateLoop_cons,evaluateLoop_cons,evaluateLoop_cons,←ih]
    congr 1
    funext j
    simp only [extrapolateLine]
    ring

end Binius64.InplaceEvaluation
