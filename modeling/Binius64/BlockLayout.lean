import Mathlib.Data.List.Flatten
import Mathlib.Data.List.GetD
import Mathlib.Data.List.Nodup
import Mathlib.Data.List.Perm.Basic
import Mathlib.Data.Nat.Log
import Mathlib.Algebra.BigOperators.Group.List.Basic
import Mathlib.Algebra.Order.BigOperators.Group.List
import Mathlib.Tactic.Linarith

/-!
# Blocks laid end to end

Blocks whose lengths are powers of two, laid out from the largest to the smallest.
-/

namespace Binius64.BlockLayout

open List

variable {ι : Type} (size : ι → ℕ)

def total (blocks : List ι) : ℕ := (blocks.map fun i => 2 ^ size i).sum

@[simp] theorem total_cons (i : ι) (blocks : List ι) :
    total size (i :: blocks) = 2 ^ size i + total size blocks := sum_cons

/-- The least power of two that the blocks fit in. -/
def logCover (blocks : List ι) : ℕ := Nat.clog 2 (total size blocks)

variable (blocks : List ι)

theorem total_le_cover : total size blocks ≤ 2 ^ logCover size blocks :=
  Nat.le_pow_clog Nat.one_lt_two _

theorem flatMap_length {α : Type} {cells : ι → List α} {order : List ι}
    (hcells : ∀ i ∈ order, (cells i).length = 2 ^ size i) :
    (order.flatMap cells).length = total size order := by
  rw [length_flatMap,total]
  exact congrArg sum (map_congr_left hcells)

/-- The blocks from the largest to the smallest; those of one length keep their order. -/
def largestFirst (blocks : List ι) : List ι := blocks.mergeSort fun i j => decide (size j ≤ size i)

theorem largestFirst_perm : (largestFirst size blocks).Perm blocks :=
  mergeSort_perm _ _

theorem mem_largestFirst {blocks : List ι} {i : ι} : i ∈ largestFirst size blocks ↔ i ∈ blocks :=
  mem_mergeSort

theorem total_largestFirst :
    total size (largestFirst size blocks) = total size blocks :=
  ((largestFirst_perm size blocks).map _).sum_eq

theorem largestFirst_sorted :
    (largestFirst size blocks).Pairwise fun i j => size j ≤ size i := by
  have hsorted : (largestFirst size blocks).Pairwise fun i j => decide (size j ≤ size i) = true := by
    refine pairwise_mergeSort (fun a b c hab hbc => ?_) (fun a b => ?_) blocks
    · exact decide_eq_true ((of_decide_eq_true hbc).trans (of_decide_eq_true hab))
    · rw [Bool.or_eq_true,decide_eq_true_eq,decide_eq_true_eq]
      exact le_total _ _
  exact hsorted.imp fun h => of_decide_eq_true h

theorem map_largestFirst {κ : Type} {size' : κ → ℕ} (name : ι → κ) {blocks : List ι}
    (hsize : ∀ i ∈ blocks, size' (name i) = size i) :
    largestFirst size' (blocks.map name) = (largestFirst size blocks).map name := by
  refine (map_mergeSort fun i hi j hj => ?_).symm
  rw [hsize i hi,hsize j hj]

section Start

variable [DecidableEq ι]

def start (order : List ι) (i : ι) : ℕ := total size (order.takeWhile fun j => decide (j ≠ i))

theorem start_cons_self (i : ι) (order : List ι) : start size (i :: order) i = 0 := by
  rw [start,takeWhile_cons_of_neg (by simp)]
  rfl

variable {i : ι} {order : List ι}

theorem start_cons_of_ne {j : ι} (h : j ≠ i) (order : List ι) :
    start size (j :: order) i = 2 ^ size j + start size order i := by
  rw [start,takeWhile_cons_of_pos (by simpa using h),total_cons]
  rfl

theorem start_append {before after : List ι} (hi : i ∉ before) :
    start size (before ++ i :: after) i = total size before := by
  induction before with
  | nil => exact start_cons_self size i after
  | cons j before ih =>
    obtain ⟨hji,hbefore⟩ := not_or.mp (fun h => hi (mem_cons.mpr h))
    rw [cons_append,start_cons_of_ne size (fun h => hji h.symm),ih hbefore,total_cons]

theorem dvd_start (hsorted : order.Pairwise fun i j => size j ≤ size i)
    (hi : i ∈ order) : 2 ^ size i ∣ start size order i := by
  induction order with
  | nil => cases hi
  | cons j order ih =>
    obtain ⟨hfirst,hlater⟩ := pairwise_cons.mp hsorted
    by_cases hij : j = i
    · rw [hij,start_cons_self]
      exact dvd_zero _
    · have hmem : i ∈ order := (mem_cons.mp hi).resolve_left fun h => hij h.symm
      rw [start_cons_of_ne size hij]
      exact Nat.dvd_add (pow_dvd_pow 2 (hfirst i hmem)) (ih hlater hmem)

theorem start_add_le_total (hi : i ∈ order) :
    start size order i + 2 ^ size i ≤ total size order := by
  induction order with
  | nil => cases hi
  | cons j order ih =>
    rw [total_cons]
    by_cases hij : j = i
    · rw [hij,start_cons_self,zero_add]
      exact Nat.le_add_right _ _
    · have hmem : i ∈ order := (mem_cons.mp hi).resolve_left fun h => hij h.symm
      have hrest := ih hmem
      rw [start_cons_of_ne size hij]
      omega

theorem start_disjoint {j : ι} (hi : i ∈ order) (hj : j ∈ order) (hij : i ≠ j) :
    start size order i + 2 ^ size i ≤ start size order j ∨
      start size order j + 2 ^ size j ≤ start size order i := by
  induction order with
  | nil => cases hi
  | cons k order ih =>
    by_cases hki : k = i
    · left
      have hkj : k ≠ j := fun h => hij (hki.symm.trans h)
      rw [hki,start_cons_self,start_cons_of_ne size (hki ▸ hkj),zero_add]
      exact Nat.le_add_right _ _
    · by_cases hkj : k = j
      · right
        rw [hkj,start_cons_self,start_cons_of_ne size (hkj ▸ hki),zero_add]
        exact Nat.le_add_right _ _
      · have hmemi : i ∈ order := (mem_cons.mp hi).resolve_left fun h => hki h.symm
        have hmemj : j ∈ order := (mem_cons.mp hj).resolve_left fun h => hkj h.symm
        rw [start_cons_of_ne size hki,start_cons_of_ne size hkj]
        rcases ih hmemi hmemj with h | h
        · exact Or.inl (by omega)
        · exact Or.inr (by omega)

theorem exists_block (hnodup : order.Nodup) {x : ℕ} (hx : x < total size order) :
    ∃ i ∈ order, start size order i ≤ x ∧ x < start size order i + 2 ^ size i := by
  induction order generalizing x with
  | nil => cases hx
  | cons j order ih =>
    rw [total_cons] at hx
    obtain ⟨hfirst,hlater⟩ := nodup_cons.mp hnodup
    by_cases hlow : x < 2 ^ size j
    · refine ⟨j,mem_cons_self,?_,?_⟩
      · rw [start_cons_self]
        exact Nat.zero_le x
      · rw [start_cons_self,zero_add]
        exact hlow
    · obtain ⟨i,hi,hle,hlt⟩ := ih hlater (x := x - 2 ^ size j) (by omega)
      have hji : j ≠ i := fun h => hfirst (h ▸ hi)
      refine ⟨i,mem_cons_of_mem j hi,?_,?_⟩
      · rw [start_cons_of_ne size hji]
        omega
      · rw [start_cons_of_ne size hji]
        omega

theorem getD_flatMap {α : Type} {cells : ι → List α}
    (hcells : ∀ i ∈ order, (cells i).length = 2 ^ size i) (hi : i ∈ order) {k : ℕ}
    (hk : k < 2 ^ size i) (d : α) :
    (order.flatMap cells).getD (start size order i + k) d = (cells i).getD k d := by
  induction order with
  | nil => cases hi
  | cons j order ih =>
    obtain ⟨hj,horder⟩ := forall_mem_cons.mp hcells
    rw [flatMap_cons]
    by_cases hji : j = i
    · rw [hji] at hj ⊢
      rw [start_cons_self,zero_add,getD_append _ _ _ _ (by rw [hj]; exact hk)]
    · have hmem : i ∈ order := (mem_cons.mp hi).resolve_left fun h => hji h.symm
      have hpast : (cells j).length ≤ start size (j :: order) i + k := by
        rw [start_cons_of_ne size hji,hj]
        omega
      have hback : start size (j :: order) i + k - (cells j).length = start size order i + k := by
        rw [start_cons_of_ne size hji,hj]
        omega
      rw [getD_append_right _ _ _ _ hpast,hback,ih horder hmem]

theorem start_map {κ : Type} [DecidableEq κ] {size : ι → ℕ} {size' : κ → ℕ} {name : ι → κ}
    (hname : Function.Injective name) (hsize : ∀ i ∈ order, size' (name i) = size i)
    (i : ι) : start size' (order.map name) (name i) = start size order i := by
  induction order with
  | nil => rfl
  | cons j order ih =>
    obtain ⟨hj,horder⟩ := forall_mem_cons.mp hsize
    rw [map_cons]
    by_cases hji : j = i
    · rw [hji,start_cons_self,start_cons_self]
    · rw [start_cons_of_ne size' (hname.ne hji),start_cons_of_ne size hji,hj,ih horder]

end Start

end Binius64.BlockLayout
