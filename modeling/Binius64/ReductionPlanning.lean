import Mathlib.Algebra.GroupWithZero.Nat
import Mathlib.Data.List.MinMax
import Mathlib.Order.Lattice.Nat

/-!
# Plans of successive reductions

A size is reduced step by step, each step and the size that is left at the end having a cost.
-/

namespace Binius64.ReductionPlanning

open List

section Plans

variable (step : ℕ → ℕ → ℕ) (terminal : ℕ → ℕ)

/-- The cost of reducing a size by some amounts in turn and ending there. -/
def planCost : ℕ → List ℕ → ℕ
  | n,[] => terminal n
  | n,a :: rest => step n a + planCost (n - a) rest

/-- The amounts by which a size is reduced. -/
structure Plan (n : ℕ) where
  amounts : List ℕ
  sum_le : amounts.sum ≤ n

noncomputable def leastCost (n : ℕ) : ℕ := sInf {c | ∃ plan : Plan n, planCost step terminal n plan.amounts = c}

def Plan.stop (n : ℕ) : Plan n := ⟨[],Nat.zero_le n⟩

def Plan.after {n a : ℕ} (ha : a ≤ n) (plan : Plan (n - a)) : Plan n :=
  ⟨a :: plan.amounts,by
    have hsum := plan.sum_le
    rw [sum_cons]
    omega⟩

variable {step terminal} {n : ℕ}

end Plans

section Scans

variable {α : Type}

/-- A function falls along the first part of a list and rises along the rest. -/
def Unimodal (f : α → ℕ) (xs : List α) : Prop :=
  ∃ falling rising, xs = falling ++ rising ∧ falling.Pairwise (fun x y => f y ≤ f x) ∧
    rising.Pairwise (fun x y => f x ≤ f y)

variable {f : α → ℕ} {xs : List α}

theorem Unimodal.tail {x : α} (h : Unimodal f (x :: xs)) : Unimodal f xs := by
  obtain ⟨falling,rising,hxs,hfall,hrise⟩ := h
  cases falling with
  | nil =>
    rw [nil_append] at hxs
    rw [← hxs] at hrise
    exact ⟨[],xs,rfl,List.Pairwise.nil,(pairwise_cons.mp hrise).2⟩
  | cons y falling =>
    rw [cons_append] at hxs
    exact ⟨falling,rising,(cons.inj hxs).2,(pairwise_cons.mp hfall).2,hrise⟩

theorem Unimodal.congr {g : α → ℕ} (h : Unimodal f xs) (hfg : ∀ x ∈ xs, f x = g x) :
    Unimodal g xs := by
  obtain ⟨falling,rising,rfl,hfall,hrise⟩ := h
  refine ⟨falling,rising,rfl,?_,?_⟩
  · refine hfall.imp_of_mem fun {a b} ha hb hab => ?_
    rw [← hfg a (mem_append_left _ ha),← hfg b (mem_append_left _ hb)]
    exact hab
  · refine hrise.imp_of_mem fun {a b} ha hb hab => ?_
    rw [← hfg a (mem_append_right _ ha),← hfg b (mem_append_right _ hb)]
    exact hab

/-- The last of the values that have not risen, from a first one on. -/
def scan (f : α → ℕ) : α → List α → α
  | x,[] => x
  | x,y :: ys => if f y ≤ f x then scan f y ys else x

end Scans

section Tables

variable (step : ℕ → ℕ → ℕ) (terminal : ℕ → ℕ)

/-- A first step, or none, accounts for the cost of a size. -/
def Justified (cost : ℕ → ℕ) (n : ℕ) : Option ℕ → Prop
  | none => cost n = terminal n
  | some a => 0 < a ∧ a ≤ n ∧ cost n = step n a + cost (n - a)

/-- Up to a size, the cost of a plan by its first step falls and then rises, the rest of the plan being
the best one. -/
def QuasiConvex (n : ℕ) : Prop :=
  ∀ i ≤ n, Unimodal (fun a => step i a + leastCost step terminal (i - a)) (range' 1 i)

variable {step terminal}

theorem QuasiConvex.mono {m n : ℕ} (h : QuasiConvex step terminal n) (hm : m ≤ n) :
    QuasiConvex step terminal m := fun i hi => h i (le_trans hi hm)

end Tables

end Binius64.ReductionPlanning
