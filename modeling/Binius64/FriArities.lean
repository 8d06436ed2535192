import Binius64.CheckedRun
import Binius64.DomainContexts
import Binius64.FriParams
import Binius64.MerkleTree
import Binius64.ReductionPlanning

/-!
# The choice of the fold arities

For every size of a message up to the greatest one, a table keeps the least number of bytes with
which it can be reduced, and the first arity that attains it.
-/

namespace Binius64.Fri

open Ntt CheckedRun ReductionPlanning List
open MerkleTree (optimalVerifyLayer)

/-- A difference that must not be negative. -/
def checkedSub (a b : ℕ) : Except AssertFailure ℕ := do
  require (b ≤ a)
  return a - b

theorem checkedSub_eq {a b : ℕ} (h : b ≤ a) : checkedSub a b = .ok (a - b) := by
  unfold checkedSub
  rw [require_true h]
  rfl

structure BinaryMerkleTreeScheme where
  digestSize : ℕ

/-- The bytes of the openings of some leaves against a layer of digests. -/
def BinaryMerkleTreeScheme.proofSize (scheme : BinaryMerkleTreeScheme) (len nQueries layerDepth : ℕ) :
    Except AssertFailure ℕ := do
  require len.isPowerOfTwo
  let logLen := len.log2
  require (layerDepth ≤ logLen)
  return ((logLen - layerDepth) * nQueries + (1 <<< layerDepth)) * scheme.digestSize

section Scan

variable {α : Type}

end Scan

structure ReductionOptimizerEntry where
  proofSize : ℕ
  arity : Option ℕ
deriving DecidableEq

/-- The sizes that the search depends on. -/
structure ReductionOptimizer where
  byteSize : ℕ
  merkleScheme : BinaryMerkleTreeScheme
  nTestQueries : ℕ

namespace ReductionOptimizer

variable (self : ReductionOptimizer)

end ReductionOptimizer

namespace AritySelectionStrategy

end AritySelectionStrategy

theorem BinaryMerkleTreeScheme.proofSize_eq (scheme : BinaryMerkleTreeScheme) (nQueries : ℕ)
    {k layerDepth : ℕ} (h : layerDepth ≤ k) :
    scheme.proofSize (1 <<< k) nQueries layerDepth =
      .ok (((k - layerDepth) * nQueries + 2 ^ layerDepth) * scheme.digestSize) := by
  have hlen : 1 <<< k = 2 ^ k := Nat.one_shiftLeft k
  have hpower : (1 <<< k).isPowerOfTwo := ⟨k,hlen⟩
  have hlog : (1 <<< k).log2 = k := by rw [hlen,Nat.log2_two_pow]
  unfold BinaryMerkleTreeScheme.proofSize
  rw [require_true hpower,ok_bind]
  simp only [hlog]
  rw [require_true h,ok_bind,Nat.one_shiftLeft]
  rfl

theorem optimalVerifyLayer_le (nQueries treeDepth : ℕ) : optimalVerifyLayer nQueries treeDepth ≤ treeDepth :=
  Nat.min_le_right _ _

section Scan

variable {α : Type} {f : α → Except AssertFailure ℕ} {g : α → ℕ}

end Scan

namespace ReductionOptimizer

variable (self : ReductionOptimizer) (logInvRate : ℕ)

def layerReductionSize (logCodeLen arity : ℕ) : ℕ :=
  let logNCosets := logCodeLen - arity
  let layer := optimalVerifyLayer self.nTestQueries logNCosets
  self.byteSize * 2 ^ arity * self.nTestQueries +
    ((logNCosets - layer) * self.nTestQueries + 2 ^ layer) * self.merkleScheme.digestSize

def foldSize (i arity : ℕ) : ℕ := self.layerReductionSize (i + logInvRate) arity

def terminalSize (i : ℕ) : ℕ := self.byteSize * 2 ^ (i + logInvRate)

variable {self logInvRate}

def sizeAt (minSizes : List ReductionOptimizerEntry) (i : ℕ) : ℕ :=
  (minSizes[i]?.map ReductionOptimizerEntry.proofSize).getD 0

def arityAt (minSizes : List ReductionOptimizerEntry) (i : ℕ) : Option ℕ :=
  minSizes[i]?.bind ReductionOptimizerEntry.arity

/-- A table whose entries account for their sizes, and have the least ones where the scan finds
them. -/
structure Tabulates (optimizer : ReductionOptimizer) (logInvRate : ℕ)
    (minSizes : List ReductionOptimizerEntry) : Prop where
  justified : ∀ i < minSizes.length, Justified (optimizer.foldSize logInvRate)
    (optimizer.terminalSize logInvRate) (sizeAt minSizes) i (arityAt minSizes i)
  least : ∀ i < minSizes.length,
    QuasiConvex (optimizer.foldSize logInvRate) (optimizer.terminalSize logInvRate) i →
    sizeAt minSizes i = leastCost (optimizer.foldSize logInvRate) (optimizer.terminalSize logInvRate) i

variable {minSizes : List ReductionOptimizerEntry} {i : ℕ}

theorem justified_congr {minSizes' : List ReductionOptimizerEntry}
    (h : ∀ j ≤ i, minSizes'[j]? = minSizes[j]?)
    (hjust : Justified (self.foldSize logInvRate) (self.terminalSize logInvRate) (sizeAt minSizes) i
      (arityAt minSizes i)) :
    Justified (self.foldSize logInvRate) (self.terminalSize logInvRate) (sizeAt minSizes') i
      (arityAt minSizes' i) := by
  have harity : arityAt minSizes' i = arityAt minSizes i := by unfold arityAt; rw [h i le_rfl]
  have hsize : ∀ j ≤ i, sizeAt minSizes' j = sizeAt minSizes j := by
    intro j hj
    unfold sizeAt
    rw [h j hj]
  rw [harity]
  cases hfirst : arityAt minSizes i with
  | none =>
    rw [hfirst] at hjust
    exact (hsize i le_rfl).trans hjust
  | some a =>
    rw [hfirst] at hjust
    obtain ⟨hpos,hle,hcost⟩ := hjust
    exact ⟨hpos,hle,by rw [hsize i le_rfl,hsize (i - a) (Nat.sub_le _ _)]; exact hcost⟩

theorem Tabulates.take (h : Tabulates self logInvRate minSizes)
    (n : ℕ) : Tabulates self logInvRate (minSizes.take n) := by
  have hlen : ∀ i, i < (minSizes.take n).length → i < n ∧ i < minSizes.length := fun i hi => by
    rw [length_take] at hi
    omega
  have hget : ∀ i < n, (minSizes.take n)[i]? = minSizes[i]? := fun i hi => getElem?_take_of_lt hi
  constructor
  · intro i hi
    exact justified_congr (fun j hj => hget j (lt_of_le_of_lt hj (hlen i hi).1)) (h.justified i (hlen i hi).2)
  · intro i hi hquasi
    have hsize : sizeAt (minSizes.take n) i = sizeAt minSizes i := by
      unfold sizeAt
      rw [hget i (hlen i hi).1]
    rw [hsize]
    exact h.least i (hlen i hi).2 hquasi

theorem Tabulates.extend
    (h : Tabulates self logInvRate minSizes) {entry : ReductionOptimizerEntry}
    (hjust : Justified (self.foldSize logInvRate) (self.terminalSize logInvRate)
      (sizeAt (minSizes ++ [entry])) minSizes.length entry.arity)
    (hleast : QuasiConvex (self.foldSize logInvRate) (self.terminalSize logInvRate) minSizes.length →
      entry.proofSize =
        leastCost (self.foldSize logInvRate) (self.terminalSize logInvRate) minSizes.length) :
    Tabulates self logInvRate (minSizes ++ [entry]) := by
  have hold : ∀ j < minSizes.length, (minSizes ++ [entry])[j]? = minSizes[j]? :=
    fun j hj => getElem?_append_left hj
  have hnew : (minSizes ++ [entry])[minSizes.length]? = some entry := getElem?_concat_length
  have hcases : ∀ i < (minSizes ++ [entry]).length, i < minSizes.length ∨ i = minSizes.length := by
    intro i hi
    rw [length_append,length_singleton] at hi
    omega
  constructor
  · intro i hi
    rcases hcases i hi with hlt | rfl
    · exact justified_congr (fun j hj => hold j (lt_of_le_of_lt hj hlt)) (h.justified i hlt)
    · have harity : arityAt (minSizes ++ [entry]) minSizes.length = entry.arity := by
        unfold arityAt
        rw [hnew,Option.bind_some]
      rw [harity]
      exact hjust
  · intro i hi hquasi
    rcases hcases i hi with hlt | rfl
    · have hsize : sizeAt (minSizes ++ [entry]) i = sizeAt minSizes i := by
        unfold sizeAt
        rw [hold i hlt]
      rw [hsize]
      exact h.least i hlt hquasi
    · have hsize : sizeAt (minSizes ++ [entry]) minSizes.length = entry.proofSize := by
        unfold sizeAt
        rw [hnew]
        rfl
      rw [hsize]
      exact hleast hquasi

end ReductionOptimizer

namespace AritySelectionStrategy

end AritySelectionStrategy

end Binius64.Fri
