import Binius64.NttBlocks
import Mathlib.Algebra.BigOperators.Ring.Finset
import Mathlib.Algebra.CharP.Two
import Mathlib.Tactic.LinearCombination

/-!
# The inverse and the transpose

The inverse and the transposed transform run the layers of the forward one from the last to the
first.
-/

namespace Binius64.Ntt

open Footprints ButterflyNetwork List

variable {F : Type} [Field F] {τ : ℕ → F} {s : ℕ}

def inverseButterfly (twiddle : F) (idx0 idx1 : ℕ) (data : Memory F) : Memory F :=
  let v := data idx1 + data idx0
  let u := data idx0 + v * twiddle
  Function.update (Function.update data idx0 u) idx1 v

def transposeButterfly (twiddle : F) (idx0 idx1 : ℕ) (data : Memory F) : Memory F :=
  let u := data idx0 + data idx1
  let v := data idx1 + u * twiddle
  Function.update (Function.update data idx0 u) idx1 v

def backwardTransform (butterfly : F → ℕ → ℕ → Memory F → Memory F) (domainContext : DomainContext F)
    (logD skipEarly skipLate : ℕ) (data : Memory F) : Except AssertFailure (Memory F) := do
  inputCheck domainContext logD skipEarly skipLate
  return (List.range' skipEarly (logD - skipLate - skipEarly)).reverse.foldl (fun data layer =>
    layerOver butterfly domainContext logD layer data) data

def inverseTransform (domainContext : DomainContext F) : ℕ → ℕ → ℕ → Memory F →
    Except AssertFailure (Memory F) := backwardTransform inverseButterfly domainContext

def transposeTransform (domainContext : DomainContext F) : ℕ → ℕ → ℕ → Memory F →
    Except AssertFailure (Memory F) := backwardTransform transposeButterfly domainContext

theorem inverseButterfly_eq : (inverseButterfly : F → ℕ → ℕ → Memory F → Memory F) =
    pairAt (fun u v t => u + (v + u) * t) (fun u v _ => v + u) := rfl

theorem transposeButterfly_eq : (transposeButterfly : F → ℕ → ℕ → Memory F → Memory F) =
    pairAt (fun u v _ => u + v) (fun u v t => v + (u + v) * t) := rfl

theorem inverseLayer_undoes [CharP F 2] (domainContext : DomainContext F) {logD layer : ℕ}
    (hl : layer < logD) (data : Memory F) :
    layerOver inverseButterfly domainContext logD layer (referenceLayer domainContext logD layer data) =
      data := by
  have hforward := referenceLayer_computes domainContext hl
  have hback : Computes
      (layerOver (pairAt (fun u v t => u + (v + u) * t) fun u v _ => v + u) domainContext logD layer)
      (pairLayer (fun u v t => u + (v + u) * t) (fun u v _ => v + u) (domainContext.twiddle layer)
        (logD - 1 - layer)) (block logD 0) := layerOver_computes domainContext hl
  rw [inverseButterfly_eq]
  funext i
  by_cases hi : i ∈ block logD 0
  · rw [(hback _ i).1 hi]
    obtain ⟨hup,hdown⟩ := block_partner (by omega : logD - 1 - layer < logD) hi
    have hread : ∀ j ∈ block logD 0, referenceLayer domainContext logD layer data j =
        butterfly (domainContext.twiddle layer) (logD - 1 - layer) data j :=
      fun j hj => (hforward data j).1 hj
    generalize logD - 1 - layer = s at hup hdown hread
    rw [pairLayer]
    rcases Nat.mod_two_eq_zero_or_one (i / 2 ^ s) with hbit | hbit
    · have hu := CharTwo.add_self_eq_zero (butterfly (domainContext.twiddle layer) s data i)
      have hv := CharTwo.add_self_eq_zero
        (data (i + 2 ^ s) * domainContext.twiddle layer (i / 2 ^ (s + 1)))
      rw [if_pos hbit,hread _ hi,hread _ (hup hbit),butterfly_high hbit]
      rw [butterfly_low hbit] at hu ⊢
      linear_combination hu * domainContext.twiddle layer (i / 2 ^ (s + 1)) + hv
    · have hle := pow_le_of_odd hbit
      obtain ⟨hlow,-⟩ := lane_sub_div hbit
      have hhigh := butterfly_high (τ := domainContext.twiddle layer) (x := data) hlow
      rw [Nat.sub_add_cancel hle] at hhigh
      have hzero : i / 2 ^ s % 2 ≠ 0 := by
        rw [hbit]
        exact one_ne_zero
      have hu := CharTwo.add_self_eq_zero
        (butterfly (domainContext.twiddle layer) s data (i - 2 ^ s))
      rw [if_neg hzero,hread _ hi,hread _ (hdown hbit),hhigh]
      linear_combination hu
  · rw [(hback _ i).2 hi,(hforward _ i).2 hi]

theorem mem_block_zero {n i : ℕ} : i ∈ block n 0 ↔ i < 2 ^ n := by
  rw [block,Set.mem_ofPred_eq]
  exact Nat.div_eq_zero_iff_lt (Nat.two_pow_pos n)

theorem transposeLayer_adjoint (domainContext : DomainContext F) {logD layer : ℕ} (hl : layer < logD)
    (a m : Memory F) :
    ∑ i ∈ Finset.range (2 ^ logD), layerOver transposeButterfly domainContext logD layer a i * m i =
      ∑ i ∈ Finset.range (2 ^ logD), a i * referenceLayer domainContext logD layer m i := by
  have hforward := referenceLayer_computes domainContext hl
  have hback : Computes
      (layerOver (pairAt (fun u v _ => u + v) fun u v t => v + (u + v) * t) domainContext logD layer)
      (pairLayer (fun u v _ => u + v) (fun u v t => v + (u + v) * t) (domainContext.twiddle layer)
        (logD - 1 - layer)) (block logD 0) := layerOver_computes domainContext hl
  rw [transposeButterfly_eq]
  have hlt : logD - 1 - layer < logD := by omega
  generalize logD - 1 - layer = s at hforward hback hlt
  rw [←sub_eq_zero,←Finset.sum_sub_distrib]
  have hpartner : ∀ i ∈ Finset.range (2 ^ logD), (i / 2 ^ s % 2 = 0 → i + 2 ^ s ∈ block logD 0) ∧
      (i / 2 ^ s % 2 = 1 → i - 2 ^ s ∈ block logD 0) := fun i hi =>
    block_partner hlt (mem_block_zero.mpr (Finset.mem_range.mp hi))
  have hpair : ∀ i ∈ block logD 0, i / 2 ^ s % 2 = 0 →
      layerOver (pairAt (fun u v _ => u + v) fun u v t => v + (u + v) * t) domainContext logD layer a i *
          m i - a i * referenceLayer domainContext logD layer m i +
        (layerOver (pairAt (fun u v _ => u + v) fun u v t => v + (u + v) * t) domainContext logD layer a
          (i + 2 ^ s) * m (i + 2 ^ s) -
            a (i + 2 ^ s) * referenceLayer domainContext logD layer m (i + 2 ^ s)) = 0 := by
    intro i hi hbit
    have hup := (block_partner hlt hi).1 hbit
    rw [(hback a i).1 hi,(hback a _).1 hup,(hforward m i).1 hi,(hforward m _).1 hup,pairLayer_low hbit,
      pairLayer_high hbit,butterfly_high hbit,butterfly_low hbit]
    ring
  refine Finset.sum_involution (fun i _ => if i / 2 ^ s % 2 = 0 then i + 2 ^ s else i - 2 ^ s)
    (fun i hi => ?_) (fun i hi _ => ?_) (fun i hi => ?_) fun i hi => ?_
  · rcases Nat.mod_two_eq_zero_or_one (i / 2 ^ s) with hbit | hbit
    · simp only [hbit,if_true]
      exact hpair i (mem_block_zero.mpr (Finset.mem_range.mp hi)) hbit
    · have hlow := hpair (i - 2 ^ s) ((hpartner i hi).2 hbit) (lane_sub_div hbit).1
      rw [Nat.sub_add_cancel (pow_le_of_odd hbit),add_comm] at hlow
      simp only [hbit,one_ne_zero,if_false]
      exact hlow
  · have hpos := Nat.two_pow_pos s
    rcases Nat.mod_two_eq_zero_or_one (i / 2 ^ s) with hbit | hbit
    · simp only [hbit,if_true]
      omega
    · have hle := pow_le_of_odd hbit
      simp only [hbit,one_ne_zero,if_false]
      omega
  · rw [Finset.mem_range,←mem_block_zero]
    rcases Nat.mod_two_eq_zero_or_one (i / 2 ^ s) with hbit | hbit
    · simp only [hbit,if_true]
      exact (hpartner i hi).1 hbit
    · simp only [hbit,one_ne_zero,if_false]
      exact (hpartner i hi).2 hbit
  · rcases Nat.mod_two_eq_zero_or_one (i / 2 ^ s) with hbit | hbit
    · simp only [hbit,if_true,(lane_add_div hbit).1,one_ne_zero,if_false,Nat.add_sub_cancel]
    · simp only [hbit,one_ne_zero,if_false,(lane_sub_div hbit).1,if_true,
        Nat.sub_add_cancel (pow_le_of_odd hbit)]

theorem foldl_reverse_undoes {σ : Type} {step back : σ → ℕ → σ} (ls : List ℕ)
    (h : ∀ l ∈ ls, ∀ x, back (step x l) l = x) (x : σ) :
    ls.reverse.foldl back (ls.foldl step x) = x := by
  induction ls generalizing x with
  | nil => rfl
  | cons l ls ih =>
    have hrest := ih (fun k hk => h k (mem_cons_of_mem l hk)) (step x l)
    rw [foldl_cons,reverse_cons,foldl_append,hrest]
    exact h l mem_cons_self x

theorem foldl_reverse_adjoint {step back : Memory F → ℕ → Memory F} {n : ℕ} (ls : List ℕ)
    (h : ∀ l ∈ ls, ∀ a m, ∑ i ∈ Finset.range n, back a l i * m i =
      ∑ i ∈ Finset.range n, a i * step m l i) (a m : Memory F) :
    ∑ i ∈ Finset.range n, ls.reverse.foldl back a i * m i =
      ∑ i ∈ Finset.range n, a i * ls.foldl step m i := by
  induction ls generalizing m with
  | nil => rfl
  | cons l ls ih =>
    have hrest := ih (fun k hk => h k (mem_cons_of_mem l hk)) (step m l)
    rw [foldl_cons,reverse_cons,foldl_append,←hrest]
    exact h l mem_cons_self _ m

variable (domainContext : DomainContext F) {logD skipEarly skipLate : ℕ}

theorem inverseTransform_undoes [CharP F 2]
    (hcheck : inputCheck domainContext logD skipEarly skipLate = .ok ()) (data : Memory F) :
    ∃ result, neighborsLastReference domainContext logD skipEarly skipLate data = .ok result ∧
      inverseTransform domainContext logD skipEarly skipLate result = .ok data := by
  refine ⟨_,by rw [neighborsLastReference,hcheck]; rfl,?_⟩
  rw [inverseTransform,backwardTransform,hcheck]
  refine congrArg Except.ok ?_
  refine foldl_reverse_undoes _ (fun layer hl x => ?_) data
  rw [mem_range'_1] at hl
  exact inverseLayer_undoes domainContext (by omega) x

theorem transposeTransform_adjoint
    (hcheck : inputCheck domainContext logD skipEarly skipLate = .ok ()) (a m : Memory F) :
    ∃ transposed forward, transposeTransform domainContext logD skipEarly skipLate a = .ok transposed ∧
      neighborsLastReference domainContext logD skipEarly skipLate m = .ok forward ∧
        ∑ i ∈ Finset.range (2 ^ logD), transposed i * m i =
          ∑ i ∈ Finset.range (2 ^ logD), a i * forward i := by
  refine ⟨_,_,by rw [transposeTransform,backwardTransform,hcheck]; rfl,
    by rw [neighborsLastReference,hcheck]; rfl,?_⟩
  refine foldl_reverse_adjoint _ (fun layer hl b x => ?_) a m
  rw [mem_range'_1] at hl
  exact transposeLayer_adjoint domainContext (by omega) b x

end Binius64.Ntt
