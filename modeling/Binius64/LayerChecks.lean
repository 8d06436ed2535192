import Mathlib.Algebra.Field.ZMod
import Binius64.SumcheckVerify

/-!
# Layered product and fraction checks

The verifiers that reduce a product, or a sum of fractions, over the last coordinates of a
multilinear function to one value of it.
-/

namespace Binius64.LayerChecks

open Polynomial RoundSoundness SumcheckVerify

variable {F : Type} [Field F]

/-- The value at a coordinate of the line through two values. -/
def extrapolateLine (x0 x1 z : F) : F := x0 + (x1 - x0) * z

noncomputable def linePoly (x0 x1 : F) : F[X] := C x0 + C (x1 - x0) * X

theorem linePoly_eval (x0 x1 z : F) : (linePoly x0 x1).eval z = extrapolateLine x0 x1 z := by
  rw [linePoly,extrapolateLine,eval_add,eval_mul,eval_C,eval_C,eval_X]

theorem linePoly_degree (x0 x1 : F) : (linePoly x0 x1).natDegree ≤ 1 := by
  refine (natDegree_add_le _ _).trans (max_le (by rw [natDegree_C]; omega) ?_)
  exact (natDegree_C_mul_le _ _).trans natDegree_X_le

theorem linePoly_inj {x0 x1 y0 y1 : F} (h : linePoly x0 x1 = linePoly y0 y1) : x0 = y0 ∧ x1 = y1 := by
  have h0 := congrArg (eval 0) h
  have h1 := congrArg (eval 1) h
  rw [linePoly_eval,linePoly_eval] at h0 h1
  simp only [extrapolateLine,mul_zero,add_zero,mul_one,add_sub_cancel] at h0 h1
  exact ⟨h0,h1⟩

theorem eval_line (Q : CoordPoly F 1) (pre : List F) (z : F) :
    Q.eval (pre ++ [z]) = extrapolateLine (Q.eval (pre ++ [0])) (Q.eval (pre ++ [1])) z := by
  rw [Q.eval_linear pre [] z,extrapolateLine]
  ring

structure MultilinearEvalClaim (F : Type) where
  eval : F
  point : List F

/-- A claim about the values of a numerator and a denominator at one point. -/
structure FracAddEvalClaim (F : Type) where
  numEval : F
  denEval : F
  point : List F

section Verifiers

variable [DecidableEq F]

structure ProdLayer (F : Type) where
  eval0 : F
  eval1 : F
  r : F
  challenges : List F

def prodcheckLayer (claim : MultilinearEvalClaim F) : ChannelM F (ProdLayer F) := do
  let out ← mlecheckVerify claim.point 2 claim.eval
  let eval0 ← recvOne
  let eval1 ← recvOne
  assertZero (eval0 * eval1 - out.eval)
  let r ← sample
  return ⟨eval0,eval1,r,out.challenges.reverse⟩

def ProdLayer.next (layer : ProdLayer F) : MultilinearEvalClaim F :=
  ⟨extrapolateLine layer.eval0 layer.eval1 layer.r,layer.challenges ++ [layer.r]⟩

def prodcheckVerify : ℕ → MultilinearEvalClaim F → ChannelM F (MultilinearEvalClaim F)
  | 0,claim => return claim
  | k + 1,claim => do
    let layer ← prodcheckLayer claim
    prodcheckVerify k layer.next

/-- Batch claims under a coefficient, then run their MLE-check. -/
def batchVerifyMle (point : List F) (degree : ℕ) (evals : List F) :
    ChannelM F (F × SumcheckOutput F) := do
  let batchCoeff ← sample
  let eval := evaluateUnivariate evals batchCoeff
  let out ← mlecheckVerify point degree eval
  return (batchCoeff,out)

structure FracLayer (F : Type) where
  batchCoeff : F
  num0 : F
  num1 : F
  den0 : F
  den1 : F
  r : F
  challenges : List F

def fracaddcheckLayer (claim : FracAddEvalClaim F) : ChannelM F (FracLayer F) := do
  let (batchCoeff,out) ← batchVerifyMle claim.point 2 [claim.numEval,claim.denEval]
  let num0 ← recvOne
  let num1 ← recvOne
  let den0 ← recvOne
  let den1 ← recvOne
  let numeratorEval := num0 * den1 + num1 * den0
  let denominatorEval := den0 * den1
  let batchedEval := numeratorEval + denominatorEval * batchCoeff
  assertZero (batchedEval - out.eval)
  let r ← sample
  return ⟨batchCoeff,num0,num1,den0,den1,r,out.challenges.reverse⟩

def FracLayer.next (layer : FracLayer F) : FracAddEvalClaim F :=
  ⟨extrapolateLine layer.num0 layer.num1 layer.r,extrapolateLine layer.den0 layer.den1 layer.r,
    layer.challenges ++ [layer.r]⟩

def fracaddcheckVerify : ℕ → FracAddEvalClaim F → ChannelM F (FracAddEvalClaim F)
  | 0,claim => return claim
  | k + 1,claim => do
    let layer ← fracaddcheckLayer claim
    fracaddcheckVerify k layer.next

/-- The product over the Boolean values of the last coordinates. -/
def cubeProd (g : List F → F) : ℕ → List F → F
  | 0,x => g x
  | k + 1,x => cubeProd g k (x ++ [0]) * cubeProd g k (x ++ [1])

/-- The sum of two fractions, numerator and denominator. -/
def fracAdd (a b : F × F) : F × F := (a.1 * b.2 + b.1 * a.2,a.2 * b.2)

/-- The sum of the fractions at the Boolean values of the last coordinates. -/
def cubeFrac (num den : List F → F) : ℕ → List F → F × F
  | 0,x => (num x,den x)
  | k + 1,x => fracAdd (cubeFrac num den k (x ++ [0])) (cubeFrac num den k (x ++ [1]))

noncomputable def halvesProduct (Q : CoordPoly F 1) : CoordPoly F 2 :=
  (Q.fixLast 0).mul (Q.fixLast 1)

noncomputable def prodLayer (Q : CoordPoly F 1) : CoordPoly F 1 := mle (halvesProduct Q).eval

noncomputable def halvesNum (N D : CoordPoly F 1) : CoordPoly F 2 :=
  ((N.fixLast 0).mul (D.fixLast 1)).add ((N.fixLast 1).mul (D.fixLast 0))

noncomputable def halvesBatched (N D : CoordPoly F 1) (batchCoeff : F) : CoordPoly F 2 :=
  (halvesNum N D).add ((halvesProduct D).scale batchCoeff)

noncomputable def fracLayer (Q : CoordPoly F 1 × CoordPoly F 1) :
    CoordPoly F 1 × CoordPoly F 1 :=
  (mle (halvesNum Q.1 Q.2).eval,mle (halvesProduct Q.2).eval)

variable {x : List F} (f : CoordPoly F 1) (Q : CoordPoly F 1 × CoordPoly F 1)

omit [DecidableEq F] in
theorem isBit_append (hx : ∀ b ∈ x, IsBit b) {b : F} (hb : IsBit b) :
    ∀ a ∈ x ++ [b], IsBit a := by
  intro a ha
  rcases List.mem_append.mp ha with ha | ha
  · exact hx a ha
  · exact List.mem_singleton.mp ha ▸ hb

omit [DecidableEq F] in
theorem prodLayers_bits (k : ℕ) (hx : ∀ b ∈ x, IsBit b) :
    (prodLayer^[k] f).eval x = cubeProd f.eval k x := by
  induction k generalizing x with
  | zero => rfl
  | succ k ih =>
    have h0 := ih (isBit_append hx (.inl rfl))
    have h1 := ih (isBit_append hx (.inr rfl))
    rw [Function.iterate_succ_apply',prodLayer,mle_eval_bits _ hx,cubeProd,←h0,←h1]
    rfl

omit [DecidableEq F] in
theorem fracLayers_bits (k : ℕ)
    (hx : ∀ b ∈ x, IsBit b) :
    ((fracLayer^[k] Q).1.eval x,(fracLayer^[k] Q).2.eval x) = cubeFrac Q.1.eval Q.2.eval k x := by
  induction k generalizing x with
  | zero => rfl
  | succ k ih =>
    have h0 := ih (isBit_append hx (.inl rfl))
    have h1 := ih (isBit_append hx (.inr rfl))
    rw [Function.iterate_succ_apply',fracLayer]
    simp only
    rw [mle_eval_bits _ hx,mle_eval_bits _ hx,cubeFrac,←h0,←h1]
    rfl

omit [DecidableEq F] in
theorem prodLayers_eval (k : ℕ) (point : List F) :
    (prodLayer^[k] f).eval point =
      ((cube point.length).map fun v => eqInd v point * cubeProd f.eval k v).sum := by
  have hsum := weightedSum_eq (cubeProd f.eval k) point []
  simp only [List.append_nil] at hsum
  have hext := (prodLayer^[k] f).weightedSum_eval point []
  rw [List.append_nil] at hext
  rw [←hsum,←hext]
  exact weightedSum_congr (by simp) fun v _ hv => prodLayers_bits f k hv

omit [DecidableEq F] in
theorem fracLayers_eval (k : ℕ) (point : List F) :
    (fracLayer^[k] Q).1.eval point = ((cube point.length).map fun v =>
        eqInd v point * (cubeFrac Q.1.eval Q.2.eval k v).1).sum ∧
      (fracLayer^[k] Q).2.eval point = ((cube point.length).map fun v =>
        eqInd v point * (cubeFrac Q.1.eval Q.2.eval k v).2).sum := by
  have hnum := weightedSum_eq (fun v => (cubeFrac Q.1.eval Q.2.eval k v).1) point []
  have hden := weightedSum_eq (fun v => (cubeFrac Q.1.eval Q.2.eval k v).2) point []
  simp only [List.append_nil] at hnum hden
  have hext1 := (fracLayer^[k] Q).1.weightedSum_eval point []
  have hext2 := (fracLayer^[k] Q).2.weightedSum_eval point []
  rw [List.append_nil] at hext1 hext2
  constructor
  · rw [←hnum,←hext1]
    exact weightedSum_congr (by simp) fun v _ hv => congrArg Prod.fst (fracLayers_bits Q k hv)
  · rw [←hden,←hext2]
    exact weightedSum_congr (by simp) fun v _ hv => congrArg Prod.snd (fracLayers_bits Q k hv)

/-- Some challenge of a product check is a root of a non-zero difference: of a round polynomial,
of degree at most two, or of a line. -/
def ProdcheckCaught (f : CoordPoly F 1) : ℕ → MultilinearEvalClaim F → Channel F → Prop
  | 0,_,_ => False
  | k + 1,claim,ch =>
    let Q := prodLayer^[k] f
    SomeRoundCaught 2 (mlecheckRounds claim.point 2 claim.eval ch)
        (mlecheckRoundPoly (halvesProduct Q) claim.point) ∨
      ∃ layer ch', prodcheckLayer claim ch = .ok (layer,ch') ∧
        (Caught 1 (linePoly layer.eval0 layer.eval1)
            (linePoly (Q.eval (layer.challenges ++ [0])) (Q.eval (layer.challenges ++ [1])))
            layer.r ∨
          ProdcheckCaught f k layer.next ch')

/-- Some challenge of a fraction check is a root of a non-zero difference: the batching
coefficient of a linear one, a round challenge of one of degree at most two, or the final
challenge of a line. -/
def FracaddcheckCaught (Q : CoordPoly F 1 × CoordPoly F 1) :
    ℕ → FracAddEvalClaim F → Channel F → Prop
  | 0,_,_ => False
  | k + 1,claim,ch =>
    let N := (fracLayer^[k] Q).1
    let D := (fracLayer^[k] Q).2
    let truth := fracLayer (N,D)
    let batchCoeff := ch.challenges 0
    let sampled : Channel F := { ch with challenges := fun i => ch.challenges (i + 1) }
    Caught 1 (toPoly [claim.numEval,claim.denEval])
        (toPoly [truth.1.eval claim.point,truth.2.eval claim.point]) batchCoeff ∨
      SomeRoundCaught 2 (mlecheckRounds claim.point 2
          (evaluateUnivariate [claim.numEval,claim.denEval] batchCoeff) sampled)
        (mlecheckRoundPoly (halvesBatched N D batchCoeff) claim.point) ∨
      ∃ layer ch', fracaddcheckLayer claim ch = .ok (layer,ch') ∧
        (Caught 1 (linePoly layer.num0 layer.num1)
            (linePoly (N.eval (layer.challenges ++ [0])) (N.eval (layer.challenges ++ [1])))
            layer.r ∨
          Caught 1 (linePoly layer.den0 layer.den1)
            (linePoly (D.eval (layer.challenges ++ [0])) (D.eval (layer.challenges ++ [1])))
            layer.r ∨
          FracaddcheckCaught Q k layer.next ch')

theorem prodcheckLayer_ok {claim : MultilinearEvalClaim F} {ch ch' : Channel F}
    {layer : ProdLayer F} (h : prodcheckLayer claim ch = .ok (layer,ch')) :
    ∃ out ch₁, mlecheckVerify claim.point 2 claim.eval ch = .ok (out,ch₁) ∧
      layer.challenges = out.challenges.reverse ∧ layer.eval0 * layer.eval1 = out.eval := by
  rw [prodcheckLayer] at h
  simp only [bind,StateT.bind,Except.bind,state_pure] at h
  cases hm : mlecheckVerify claim.point 2 claim.eval ch with
  | error e =>
    rw [hm] at h
    cases h
  | ok ran =>
    obtain ⟨out,ch₁⟩ := ran
    rw [hm] at h
    simp only at h
    cases h0 : recvOne ch₁ with
    | error e =>
      rw [h0] at h
      cases h
    | ok r0 =>
      rw [h0] at h
      simp only at h
      cases h1 : recvOne r0.2 with
      | error e =>
        rw [h1] at h
        cases h
      | ok r1 =>
        rw [h1] at h
        simp only [assertZero,sample] at h
        by_cases hz : r0.1 * r1.1 - out.eval = 0
        · rw [if_pos hz] at h
          cases h
          exact ⟨out,ch₁,rfl,rfl,sub_eq_zero.mp hz⟩
        · rw [if_neg hz] at h
          cases h

theorem fracaddcheckLayer_ok {claim : FracAddEvalClaim F} {ch ch' : Channel F}
    {layer : FracLayer F} (h : fracaddcheckLayer claim ch = .ok (layer,ch')) :
    ∃ out ch₁, mlecheckVerify claim.point 2
        (evaluateUnivariate [claim.numEval,claim.denEval] (ch.challenges 0))
        { ch with challenges := fun i => ch.challenges (i + 1) } = .ok (out,ch₁) ∧
      layer.batchCoeff = ch.challenges 0 ∧ layer.challenges = out.challenges.reverse ∧
      layer.num0 * layer.den1 + layer.num1 * layer.den0 +
        layer.den0 * layer.den1 * layer.batchCoeff = out.eval := by
  rw [fracaddcheckLayer] at h
  simp only [batchVerifyMle,sample,bind,StateT.bind,Except.bind,state_pure] at h
  cases hm : mlecheckVerify claim.point 2
      (evaluateUnivariate [claim.numEval,claim.denEval] (ch.challenges 0))
      { ch with challenges := fun i => ch.challenges (i + 1) } with
  | error e =>
    rw [hm] at h
    cases h
  | ok ran =>
    obtain ⟨out,ch₁⟩ := ran
    rw [hm] at h
    simp only at h
    cases h0 : recvOne ch₁ with
    | error e =>
      rw [h0] at h
      cases h
    | ok r0 =>
      rw [h0] at h
      simp only at h
      cases h1 : recvOne r0.2 with
      | error e =>
        rw [h1] at h
        cases h
      | ok r1 =>
        rw [h1] at h
        simp only at h
        cases h2 : recvOne r1.2 with
        | error e =>
          rw [h2] at h
          cases h
        | ok r2 =>
          rw [h2] at h
          simp only at h
          cases h3 : recvOne r2.2 with
          | error e =>
            rw [h3] at h
            cases h
          | ok r3 =>
            rw [h3] at h
            simp only [assertZero] at h
            by_cases hz : r0.1 * r3.1 + r1.1 * r2.1 + r2.1 * r3.1 * ch.challenges 0 - out.eval = 0
            · rw [if_pos hz] at h
              cases h
              exact ⟨out,ch₁,rfl,rfl,rfl,sub_eq_zero.mp hz⟩
            · rw [if_neg hz] at h
              cases h

omit [DecidableEq F] in
theorem line_caught (Q : CoordPoly F 1) {pre : List F} {x0 x1 r : F}
    (hne : ¬(x0 = Q.eval (pre ++ [0]) ∧ x1 = Q.eval (pre ++ [1]))) :
    Caught 1 (linePoly x0 x1) (linePoly (Q.eval (pre ++ [0])) (Q.eval (pre ++ [1]))) r ∨
      extrapolateLine x0 x1 r ≠ Q.eval (pre ++ [r]) := by
  by_cases hr : (linePoly x0 x1).eval r =
      (linePoly (Q.eval (pre ++ [0])) (Q.eval (pre ++ [1]))).eval r
  · exact .inl (Caught.of_eval (linePoly_degree _ _) (linePoly_degree _ _)
      (fun heq => hne (linePoly_inj heq)) hr)
  · rw [linePoly_eval,linePoly_eval,←eval_line] at hr
    exact .inr hr

theorem prodcheck_caught {k : ℕ} {claim out : MultilinearEvalClaim F}
    {ch ch' : Channel F} (h : prodcheckVerify k claim ch = .ok (out,ch'))
    (hc : claim.eval ≠ (prodLayer^[k] f).eval claim.point) (hv : out.eval = f.eval out.point) :
    ProdcheckCaught f k claim ch := by
  induction k generalizing claim ch with
  | zero =>
    cases h
    exact absurd hv hc
  | succ k ih =>
    rw [prodcheckVerify] at h
    simp only [bind,StateT.bind,Except.bind] at h
    cases hl : prodcheckLayer claim ch with
    | error e =>
      rw [hl] at h
      cases h
    | ok ran =>
      obtain ⟨layer,ch₁⟩ := ran
      rw [hl] at h
      simp only at h
      obtain ⟨mle_out,ch₂,hmle,hch,hmul⟩ := prodcheckLayer_ok hl
      rw [ProdcheckCaught]
      by_cases hfinal : mle_out.eval =
          (halvesProduct (prodLayer^[k] f)).eval mle_out.challenges.reverse
      · -- the MLE-check itself ends at the true product of the halves
        left
        rw [Function.iterate_succ_apply'] at hc
        exact mlecheck_caught _ hmle hc hfinal
      · right
        refine ⟨layer,ch₁,hl,?_⟩
        rw [←hch,←hmul] at hfinal
        have hne : ¬(layer.eval0 = (prodLayer^[k] f).eval (layer.challenges ++ [0]) ∧
            layer.eval1 = (prodLayer^[k] f).eval (layer.challenges ++ [1])) :=
          fun heq => hfinal (by rw [heq.1,heq.2]; rfl)
        exact (line_caught _ hne).imp id fun hnext => ih h hnext

theorem fracaddcheck_caught {k : ℕ}
    {claim out : FracAddEvalClaim F} {ch ch' : Channel F}
    (h : fracaddcheckVerify k claim ch = .ok (out,ch'))
    (hc : ¬(claim.numEval = (fracLayer^[k] Q).1.eval claim.point ∧
      claim.denEval = (fracLayer^[k] Q).2.eval claim.point))
    (hv : out.numEval = Q.1.eval out.point ∧ out.denEval = Q.2.eval out.point) :
    FracaddcheckCaught Q k claim ch := by
  induction k generalizing claim ch with
  | zero =>
    cases h
    exact absurd hv hc
  | succ k ih =>
    rw [fracaddcheckVerify] at h
    simp only [bind,StateT.bind,Except.bind] at h
    cases hl : fracaddcheckLayer claim ch with
    | error e =>
      rw [hl] at h
      cases h
    | ok ran =>
      obtain ⟨layer,ch₁⟩ := ran
      rw [hl] at h
      simp only at h
      obtain ⟨mle_out,ch₂,hmle,hb,hch,hsum⟩ := fracaddcheckLayer_ok hl
      rw [Function.iterate_succ_apply'] at hc
      rw [FracaddcheckCaught]
      generalize hN : (fracLayer^[k] Q).1 = N at hc
      generalize hD : (fracLayer^[k] Q).2 = D at hc
      have hpair : fracLayer^[k] Q = (N,D) := by rw [←hN,←hD]
      rw [hpair] at hc
      by_cases hbatch : (toPoly [claim.numEval,claim.denEval]).eval (ch.challenges 0) =
          (toPoly [(fracLayer (N,D)).1.eval claim.point,
            (fracLayer (N,D)).2.eval claim.point]).eval (ch.challenges 0)
      · left
        refine Caught.of_eval (toPoly_degree (by simp)) (toPoly_degree (by simp)) ?_ hbatch
        intro heq
        have h0 := congrArg (coeff · 0) heq
        have h1 := congrArg (coeff · 1) heq
        simp only [toPoly,mul_zero,add_zero,coeff_add,coeff_C_zero,mul_coeff_zero,coeff_X_zero,
          zero_mul,coeff_X_mul,coeff_C_succ,zero_add] at h0 h1
        exact hc ⟨h0,h1⟩
      · right
        have hfalse : evaluateUnivariate [claim.numEval,claim.denEval] (ch.challenges 0) ≠
            weightedSum (halvesBatched N D (ch.challenges 0)).eval (eqWeights claim.point) [] := by
          rw [evaluateUnivariate_eq]
          intro heq
          apply hbatch
          rw [heq]
          have hlin := weightedSum_add_mul (halvesNum N D).eval (halvesProduct D).eval
            (ch.challenges 0) (eqWeights claim.point) []
          refine hlin.trans ?_
          simp only [toPoly,mul_zero,add_zero,eval_add,eval_mul,eval_C,eval_X]
          rfl
        by_cases hfinal : mle_out.eval =
            (halvesBatched N D (ch.challenges 0)).eval mle_out.challenges.reverse
        · exact .inl (mlecheck_caught _ hmle hfalse hfinal)
        · right
          refine ⟨layer,ch₁,hl,?_⟩
          rw [←hch,←hsum,hb] at hfinal
          by_cases hnum : layer.num0 = N.eval (layer.challenges ++ [0]) ∧
              layer.num1 = N.eval (layer.challenges ++ [1])
          · have hden : ¬(layer.den0 = D.eval (layer.challenges ++ [0]) ∧
                layer.den1 = D.eval (layer.challenges ++ [1])) := by
              intro heq
              apply hfinal
              rw [hnum.1,hnum.2,heq.1,heq.2,mul_comm _ (ch.challenges 0)]
              rfl
            rcases line_caught (r := layer.r) D hden with hcaught | hnext
            · exact .inr (.inl hcaught)
            · refine .inr (.inr (ih h ?_ ))
              rw [hpair]
              exact fun heq => hnext heq.2
          · rcases line_caught (r := layer.r) N hnum with hcaught | hnext
            · exact .inl hcaught
            · refine .inr (.inr (ih h ?_ ))
              rw [hpair]
              exact fun heq => hnext heq.1

/-- A false initial claim that ends at a true value met a challenge that is a root of a non-zero
difference of bounded degree: in a sumcheck of degree at least one, in an MLE-check, and in the
layered product and fraction checks. -/
theorem reductions_sound :
    (∀ (nVars d : ℕ) (P : MvPolynomial ℕ F) (hP : ∀ i, P.degreeOf i ≤ d) (sum : F)
      (ch ch' : Channel F) (out : SumcheckOutput F), 1 ≤ d →
      sumcheckVerify nVars d sum ch = .ok (out,ch') →
      sum ≠ ((cube nVars).map fun v => evalAt P v).sum →
      out.eval = evalAt P out.challenges.reverse →
      SomeRoundCaught d (sumcheckRounds nVars d sum ch)
        (sumcheckRoundPoly (CoordPoly.ofMv P hP) nVars)) ∧
    (∀ (point : List F) (d : ℕ) (P : MvPolynomial ℕ F) (hP : ∀ i, P.degreeOf i ≤ d) (eval : F)
      (ch ch' : Channel F) (out : SumcheckOutput F),
      mlecheckVerify point d eval ch = .ok (out,ch') →
      eval ≠ ((cube point.length).map fun v => eqInd v point * evalAt P v).sum →
      out.eval = evalAt P out.challenges.reverse →
      SomeRoundCaught d (mlecheckRounds point d eval ch)
        (mlecheckRoundPoly (CoordPoly.ofMv P hP) point)) ∧
    (∀ (k : ℕ) (f : MvPolynomial ℕ F) (hf : ∀ i, f.degreeOf i ≤ 1)
      (claim out : MultilinearEvalClaim F) (ch ch' : Channel F),
      prodcheckVerify k claim ch = .ok (out,ch') →
      claim.eval ≠ ((cube claim.point.length).map fun v =>
        eqInd v claim.point * cubeProd (evalAt f) k v).sum →
      out.eval = evalAt f out.point →
      ProdcheckCaught (CoordPoly.ofMv f hf) k claim ch) ∧
    (∀ (k : ℕ) (num den : MvPolynomial ℕ F) (hn : ∀ i, num.degreeOf i ≤ 1)
      (hd : ∀ i, den.degreeOf i ≤ 1) (claim out : FracAddEvalClaim F) (ch ch' : Channel F),
      fracaddcheckVerify k claim ch = .ok (out,ch') →
      ¬(claim.numEval = ((cube claim.point.length).map fun v =>
          eqInd v claim.point * (cubeFrac (evalAt num) (evalAt den) k v).1).sum ∧
        claim.denEval = ((cube claim.point.length).map fun v =>
          eqInd v claim.point * (cubeFrac (evalAt num) (evalAt den) k v).2).sum) →
      out.numEval = evalAt num out.point ∧ out.denEval = evalAt den out.point →
      FracaddcheckCaught (CoordPoly.ofMv num hn,CoordPoly.ofMv den hd) k claim ch) := by
  refine ⟨?_,?_,?_,?_⟩
  · intro nVars d P hP sum ch ch' out hd h hc hv
    exact sumcheck_caught hd (CoordPoly.ofMv P hP) h hc hv
  · intro point d P hP eval ch ch' out h hc hv
    refine mlecheck_caught (CoordPoly.ofMv P hP) h ?_ hv
    rw [weightedSum_eq]
    simp only [List.append_nil]
    exact hc
  · intro k f hf claim out ch ch' h hc hv
    refine prodcheck_caught (CoordPoly.ofMv f hf) h ?_ hv
    rw [prodLayers_eval]
    exact hc
  · intro k num den hn hd claim out ch ch' h hc hv
    refine fracaddcheck_caught (CoordPoly.ofMv num hn,CoordPoly.ofMv den hd) h ?_ hv
    have heval := fracLayers_eval (CoordPoly.ofMv num hn,CoordPoly.ofMv den hd) k claim.point
    rw [heval.1,heval.2]
    exact hc

end Verifiers

def constChannel (messages : List F) (challenge : F) : Channel F := ⟨messages,fun _ => challenge⟩

noncomputable def firstCoordinate : MvPolynomial ℕ (ZMod 2) := MvPolynomial.X 0

theorem firstCoordinate_degree (i : ℕ) : firstCoordinate.degreeOf i ≤ 1 := by
  rw [firstCoordinate,MvPolynomial.degreeOf_X]
  split
  · exact le_rfl
  · exact Nat.zero_le 1

theorem one_degree (i : ℕ) : (1 : MvPolynomial ℕ (ZMod 2)).degreeOf i ≤ 1 := by
  rw [MvPolynomial.degreeOf_one]
  exact Nat.zero_le 1

/-- A false sum, a false extension, a false product and a false fraction sum of the first coordinate
each pass, and each is caught. -/
theorem reductions_sound_two :
    SomeRoundCaught 1 (sumcheckRounds 1 1 (0 : ZMod 2) (constChannel [0] 0))
        (sumcheckRoundPoly (CoordPoly.ofMv firstCoordinate firstCoordinate_degree) 1) ∧
      SomeRoundCaught 1 (mlecheckRounds [0] 1 (1 : ZMod 2) (constChannel [0] 1))
        (mlecheckRoundPoly (CoordPoly.ofMv firstCoordinate firstCoordinate_degree) [0]) ∧
      ProdcheckCaught (CoordPoly.ofMv firstCoordinate firstCoordinate_degree) 1 ⟨1,[]⟩
        (constChannel [1,1] 1) ∧
      FracaddcheckCaught (CoordPoly.ofMv firstCoordinate firstCoordinate_degree,
          CoordPoly.ofMv 1 one_degree) 1 ⟨0,1,[]⟩ (constChannel [0,0,1,1] 0) := by
  obtain ⟨hsum,hmle,hprod,hfrac⟩ := reductions_sound (F := ZMod 2)
  refine ⟨hsum 1 1 _ _ 0 (constChannel [0] 0) (constChannel [] 0) ⟨0,[0]⟩ le_rfl rfl ?_ ?_,
    hmle [0] 1 _ _ 1 (constChannel [0] 1) (constChannel [] 1) ⟨1,[1]⟩ rfl ?_ ?_,
    hprod 1 _ _ ⟨1,[]⟩ ⟨1,[1]⟩ (constChannel [1,1] 1) (constChannel [] 1) rfl ?_ ?_,
    hfrac 1 _ _ _ _ ⟨0,1,[]⟩ ⟨0,1,[0]⟩ (constChannel [0,0,1,1] 0) (constChannel [] 0) rfl ?_ ?_⟩
  all_goals simp [firstCoordinate,cube,evalAt,eqInd,cubeProd,cubeFrac,fracAdd]

/-- With degree bound zero nothing is received and the recovered polynomial is the claim itself: the
constant one, whose true sum over one coordinate is zero, passes as one with no round caught. -/
theorem sumcheck_degreeZero_uncaught :
    ¬∀ (nVars d : ℕ) (P : MvPolynomial ℕ (ZMod 2)) (hP : ∀ i, P.degreeOf i ≤ d) (sum : ZMod 2)
      (ch ch' : Channel (ZMod 2)) (out : SumcheckOutput (ZMod 2)),
      sumcheckVerify nVars d sum ch = .ok (out,ch') →
      sum ≠ ((cube nVars).map fun v => evalAt P v).sum →
      out.eval = evalAt P out.challenges.reverse →
      SomeRoundCaught d (sumcheckRounds nVars d sum ch)
        (sumcheckRoundPoly (CoordPoly.ofMv P hP) nVars) := by
  intro h
  obtain ⟨i,round,hi,hne,-⟩ := h 1 0 1 (fun i => by rw [MvPolynomial.degreeOf_one]) 1
    (constChannel [] 0) (constChannel [] 0) ⟨1,[0]⟩ rfl (by simp [cube,evalAt]) (by simp [evalAt])
  have hrounds : sumcheckRounds 1 0 (1 : ZMod 2) (constChannel [] 0) = [([1],0)] := rfl
  rw [hrounds] at hi
  cases i with
  | zero =>
    cases hi
    apply hne
    simp [toPoly,sumcheckRoundPoly,roundPoly,CoordPoly.ofMv,evalAt]
  | succ i => simp at hi

end Binius64.LayerChecks
