import Binius64.RoundSoundness
import Mathlib.FieldTheory.RatFunc.AsPolynomial
import Mathlib.RingTheory.SimpleRing.Principal

/-!
# Functions built coordinate by coordinate

A function that is linear in every coordinate is a line, along its first coordinate, between two
functions of the others.
-/

namespace Binius64.SplitCoordinates

open Polynomial RoundSoundness List

variable {F : Type} [Field F]

/-- The line along the first coordinate between two functions of the others. -/
noncomputable def consLine (P Q : CoordPoly F 1) : CoordPoly F 1 where
  eval
    | [] => 0
    | z :: rest => (1 - z) * P.eval rest + z * Q.eval rest
  along
    | [],post => C (P.eval post) + C (Q.eval post - P.eval post) * X
    | z :: pre,post => C (1 - z) * P.along pre post + C z * Q.along pre post
  along_eval pre post x := by
    cases pre with
    | nil =>
      simp only [nil_append,eval_add,eval_mul,eval_C,eval_X]
      ring
    | cons z pre =>
      simp only [cons_append,eval_add,eval_mul,eval_C,P.along_eval,
        Q.along_eval]
  along_degree pre post := by
    cases pre with
    | nil =>
      refine (natDegree_add_le _ _).trans (max_le ?_ ?_)
      · rw [natDegree_C]
        exact Nat.zero_le 1
      · exact (natDegree_C_mul_le _ _).trans natDegree_X_le
    | cons z pre =>
      refine (natDegree_add_le _ _).trans (max_le ?_ ?_)
      · exact (natDegree_C_mul_le _ _).trans (P.along_degree pre post)
      · exact (natDegree_C_mul_le _ _).trans (Q.along_degree pre post)

/-- The function that the first coordinates select, the lowest bit first. -/
noncomputable def select : ℕ → (ℕ → CoordPoly F 1) → CoordPoly F 1
  | 0, P => P 0
  | k + 1, P => consLine (select k fun j => P (2 * j)) (select k fun j => P (2 * j + 1))

end Binius64.SplitCoordinates
