import Mathlib.Data.List.Flatten
import Mathlib.Data.List.GetD
import Mathlib.Algebra.Order.Group.Nat

/-!
# Runs laid end to end

Runs of cells, numbered from zero and laid one behind the other: where each starts, and the run and
the place in it of every cell.
-/

namespace Binius64.RunLayout

open List

variable {α : Type} {cells : ℕ → List α} {len : ℕ → ℕ}

def start (len : ℕ → ℕ) : ℕ → ℕ
  | 0 => 0
  | n + 1 => start len n + len n

theorem start_mono (len : ℕ → ℕ) {i j : ℕ} (h : i ≤ j) : start len i ≤ start len j := by
  induction h with
  | refl => exact Nat.le_refl _
  | step _ ih => exact ih.trans (Nat.le_add_right _ _)

theorem start_le_add {m : ℕ} (h : ∀ i, len i ≤ m) (i k : ℕ) : start len (i + k) ≤ start len i + k * m := by
  induction k with
  | zero => rw [Nat.zero_mul]; rfl
  | succ k ih =>
    have hk := h (i + k)
    rw [← Nat.add_assoc,start,Nat.succ_mul]
    omega

theorem start_sub_add {d : ℕ → ℕ} {m : ℕ} (h : ∀ i, d i ≤ m) (n : ℕ) :
    start (fun i => m - d i) n + start d n = n * m := by
  induction n with
  | zero => rw [start,start,Nat.zero_mul]
  | succ n ih =>
    have hn := h n
    rw [start,start,Nat.succ_mul]
    omega

def flat (cells : ℕ → List α) (n : ℕ) : List α := (range n).flatMap cells

theorem flat_succ (n : ℕ) : flat cells (n + 1) = flat cells n ++ cells n := by
  unfold flat
  rw [range_succ,flatMap_append,flatMap_singleton]

theorem flatMap_getD {β : Type} {f : β → List α} {m : ℕ} (h : ∀ b, (f b).length = m) {bs : List β}
    {k r : ℕ} (hk : k < bs.length) (hr : r < m) (d : α) :
    (bs.flatMap f).getD (k * m + r) d = (f bs[k]).getD r d := by
  induction bs generalizing k with
  | nil => cases hk
  | cons b bs ih =>
    rw [flatMap_cons]
    cases k with
    | zero => rw [Nat.zero_mul,Nat.zero_add,getD_append _ _ _ _ (by rw [h]; exact hr)]; rfl
    | succ k =>
      have hpos : (k + 1) * m + r - (f b).length = k * m + r := by
        rw [h,Nat.succ_mul]
        omega
      rw [getD_append_right _ _ _ _ (by rw [h,Nat.succ_mul]; omega),hpos,
        ih (Nat.lt_of_succ_lt_succ hk)]
      rfl

theorem length_flatMap {β : Type} {f : β → List α} {m : ℕ} (h : ∀ b, (f b).length = m) (bs : List β) :
    (bs.flatMap f).length = bs.length * m := by
  induction bs with
  | nil => rw [flatMap_nil,length_nil,length_nil,Nat.zero_mul]
  | cons b bs ih => rw [flatMap_cons,length_append,ih,h,length_cons,Nat.succ_mul,Nat.add_comm]

variable (hlen : ∀ i, (cells i).length = len i)
include hlen

theorem length_flat (n : ℕ) : (flat cells n).length = start len n := by
  induction n with
  | zero => rfl
  | succ n ih => rw [flat_succ,length_append,ih,hlen,start]

theorem flat_getD {n i s : ℕ} (hi : i < n) (hs : s < len i) (d : α) :
    (flat cells n).getD (start len i + s) d = (cells i).getD s d := by
  induction n with
  | zero => cases hi
  | succ n ih =>
    rw [flat_succ]
    by_cases hlast : i = n
    · rw [hlast,getD_append_right _ _ _ _ (by rw [length_flat hlen]; omega),length_flat hlen,
        Nat.add_sub_cancel_left]
    · have hlt : i < n := by omega
      have hend := start_mono len (Nat.succ_le_of_lt hlt)
      rw [start] at hend
      rw [getD_append _ _ _ _ (by rw [length_flat hlen]; omega),ih hlt]

omit hlen in
theorem exists_run {n x : ℕ} (hx : x < start len n) : ∃ i < n, ∃ s < len i, x = start len i + s := by
  induction n with
  | zero => cases hx
  | succ n ih =>
    by_cases hlow : x < start len n
    · obtain ⟨i,hi,s,hs,heq⟩ := ih hlow
      exact ⟨i,by omega,s,hs,heq⟩
    · rw [start] at hx
      exact ⟨n,by omega,x - start len n,by omega,by omega⟩

end Binius64.RunLayout
