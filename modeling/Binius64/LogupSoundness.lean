import Binius64.CheckedRun
import Binius64.LogupStar

/-!
# Soundness of the logUp* reduction

What the reduction certifies about the committed tables, indexes and pushforwards behind its claims.
-/

namespace Binius64.LogupStar

open CheckedRun RoundSoundness SumcheckVerify LayerChecks SplitCoordinates InplaceEvaluation List

/-- A looker with its index column, given by its values on the cube. -/
structure LookerWitness (F : Type) where
  claim : LookerClaim F
  index : List F → F

/-- A table with its lookers, its entries and its pushforward, given by their values on the cube. -/
structure TableWitness (F : Type) where
  nVars : ℕ
  lookers : List (LookerWitness F)
  table : List F → F
  pushforward : List F → F

section Witnesses

variable {F : Type}

def LookerWitness.nVars (l : LookerWitness F) : ℕ := l.claim.evalPoint.length

/-- The public part. -/
def TableWitness.lookup (w : TableWitness F) : TableLookup F := ⟨w.nVars,w.lookers.map (·.claim)⟩

variable [Field F]

variable [Algebra (ZMod 2) F] [BinaryExtension F]

end Witnesses

section Fractions

variable {F : Type} [Field F]

end Fractions

section Rebuild

variable {F : Type} [Field F]

omit [Field F] in
theorem suffix_length {n : ℕ} {point : List F} (h : n ≤ point.length) : (suffix n point).length = n := by
  rw [suffix,length_drop]
  omega

theorem le_greatest {ns : List ℕ} {n : ℕ} (h : n ∈ ns) : n ≤ greatest ns := by
  rw [greatest,foldl_max_eq_max (ne_nil_of_mem h)]
  exact le_max_of_le_right (le_max_of_mem h)

section Basis

variable [Algebra (ZMod 2) F] [BinaryExtension F]

variable {node : List F}

end Basis

end Rebuild

section Run

variable {F : Type}

variable {α : Type} {ch ch' : Channel F}

variable [Field F]

variable [DecidableEq F]

variable [Algebra (ZMod 2) F] [BinaryExtension F]

variable (tables : List (TableLookup F))

end Run

section Errors

variable {F : Type} [Field F]

variable {n : ℕ} {v : List F}

variable [Algebra (ZMod 2) F] [BinaryExtension F]

variable {gamma : F} {w : TableWitness F}

def bitOf [DecidableEq F] (b : F) : ZMod 2 := if b = 0 then 0 else 1

end Errors

section Soundness

variable {F : Type} [Field F] [DecidableEq F] [Algebra (ZMod 2) F] [BinaryExtension F]

omit [DecidableEq F] [BinaryExtension F] [Algebra (ZMod 2) F] in
omit [Field F] in
theorem resize_getD {xs : List F} {n : ℕ} (h : xs.length ≤ n) (a : F) {i : ℕ} (hi : i < n) (b : F) :
    (resize xs n a).getD i b = xs.getD i a := by
  rw [resize,take_of_length_le h]
  by_cases hlt : i < xs.length
  · rw [getD_append _ _ _ _ hlt,getD_eq_getElem _ _ hlt,getD_eq_getElem _ _ hlt]
  · rw [getD_append_right _ _ _ _ (not_lt.mp hlt),getD_eq_default _ _ (not_lt.mp hlt),
      getD_eq_getElem _ _ (by rw [length_replicate]; omega),getElem_replicate]

instance : BinaryExtension (ZMod 2) where
  basis := [1]
  independent := by
    have hone : LinearIndependent (ZMod 2) fun _ : Fin 1 => (1 : ZMod 2) :=
      LinearIndependent.of_subsingleton 0 one_ne_zero
    have hget : ([1] : List (ZMod 2)).get = fun _ : Fin 1 => 1 := by decide
    exact hget ▸ hone

end Soundness

end Binius64.LogupStar
