import Binius64.CheckedRun
import Mathlib.Algebra.BigOperators.Group.List.Basic

/-!
# Sums over runs that may stop

A loop that adds one result an element: it returns the sum when every element has a
result, and it stops when one does not.
-/

namespace Binius64.CheckedRun

variable {ε α β σ : Type}

theorem foldlM_stop {f : σ → α → Except ε σ} {xs : List α} {x : α} (hx : x ∈ xs)
    (h : ∀ s, ∃ e, f s x = .error e) (s : σ) : ∃ e, xs.foldlM f s = .error e := by
  induction xs generalizing s with
  | nil => cases hx
  | cons y xs ih =>
    rw [List.foldlM_cons]
    cases hy : f s y with
    | error e => exact ⟨e,rfl⟩
    | ok s' =>
      rcases List.mem_cons.mp hx with rfl | hx
      · obtain ⟨e,he⟩ := h s
        rw [hy] at he
        cases he
      · exact ih hx s'

theorem mapM_stop {f : α → Except ε β} {xs : List α} {x : α} (hx : x ∈ xs) {e : ε} (h : f x = .error e) :
    ∃ e, xs.mapM f = .error e := by
  cases hrun : xs.mapM f with
  | error e => exact ⟨e,rfl⟩
  | ok ys =>
    obtain ⟨y,-,hy⟩ := (mapM_mem hrun).1 x hx
    rw [h] at hy
    cases hy

section Sums

variable {A : Type} [AddMonoid A]

theorem foldlM_sum {step : A → α → Except ε A} {g : α → A} {xs : List α}
    (h : ∀ x ∈ xs, ∀ a, step a x = .ok (a + g x)) (a : A) :
    xs.foldlM step a = .ok (a + (xs.map g).sum) := by
  induction xs generalizing a with
  | nil =>
    rw [List.map_nil,List.sum_nil,add_zero]
    rfl
  | cons x xs ih =>
    rw [List.foldlM_cons,h x List.mem_cons_self,ok_bind,ih fun y hy => h y (List.mem_cons_of_mem _ hy),
      List.map_cons,List.sum_cons,add_assoc]

end Sums

end Binius64.CheckedRun
