import Binius64.RoundSoundness

/-!
# Sumcheck and MLE-check verification

The verifier's channel hands over prover messages and challenges in order.
-/

namespace Binius64.SumcheckVerify

open Polynomial RoundSoundness List

variable {F : Type} [Field F]

/-- The ways a verification stops. -/
inductive Error where
  /-- The proof holds too few elements. -/
  | proofEmpty
  /-- An asserted value is not zero. -/
  | invalidAssert
deriving DecidableEq

/-- What the verifier still has before it: the prover's messages, and challenges without end. -/
structure Channel (F : Type) where
  messages : List F
  challenges : ℕ → F

abbrev ChannelM (F α : Type) := StateT (Channel F) (Except Error) α

/-- Receive one element. -/
def recvOne : ChannelM F F := fun ch =>
  match ch.messages with
  | [] => .error .proofEmpty
  | m :: rest => .ok (m,{ ch with messages := rest })

/-- Receive a number of elements. -/
def recvMany : ℕ → ChannelM F (List F)
  | 0 => return []
  | n + 1 => do
    let m ← recvOne
    let rest ← recvMany n
    return m :: rest

def sample : ChannelM F F := fun ch =>
  .ok (ch.challenges 0,{ ch with challenges := fun i => ch.challenges (i + 1) })

def assertZero [DecidableEq F] (val : F) : ChannelM F Unit := fun ch =>
  if val = 0 then .ok ((),ch) else .error .invalidAssert

/-- Evaluate a polynomial given by its coefficients, low degree first. -/
def evaluateUnivariate (coeffs : List F) (x : F) : F :=
  match coeffs.reverse with
  | [] => 0
  | highest :: rest => rest.foldl (fun acc coeff => acc * x + coeff) highest

/-- Append the top coefficient that makes the values at zero and one add up to the claim. -/
def recoverTop (coeffs : List F) (sum : F) : List F :=
  coeffs ++ [sum - coeffs.headD 0 - coeffs.sum]

/-- Put in front the constant coefficient that makes the line through the values at zero and one
take the claim at a coordinate. -/
def recoverConstant (coeffs : List F) (eval alpha : F) : List F :=
  (eval - alpha * coeffs.sum) :: coeffs

structure SumcheckOutput (F : Type) where
  eval : F
  challenges : List F

variable (degree : ℕ) (recover : List F → F → List F)

/-- One round: receive, sample, recover, evaluate. -/
def verifyRound (state : F × List F) : ChannelM F (F × List F) := do
  let coeffs ← recvMany degree
  let challenge ← sample
  let roundCoeffs := recover coeffs state.1
  return (evaluateUnivariate roundCoeffs challenge,state.2 ++ [challenge])

/-- Reduce a claim about the sum over the cube to the value at the challenges. -/
def sumcheckVerify (nVars degree : ℕ) (sum : F) : ChannelM F (SumcheckOutput F) := do
  let (eval,challenges) ←
    (range nVars).foldlM (fun state _ => verifyRound degree recoverTop state) (sum,[])
  return ⟨eval,challenges⟩

/-- Reduce a claim about the extension at a point to the value at the challenges. -/
def mlecheckVerify (point : List F) (degree : ℕ) (eval : F) : ChannelM F (SumcheckOutput F) := do
  let (eval,challenges) ← point.reverse.foldlM
    (fun state z => verifyRound degree (fun coeffs eval => recoverConstant coeffs eval z) state)
    (eval,[])
  return ⟨eval,challenges⟩

noncomputable def toPoly : List F → F[X]
  | [] => 0
  | c :: cs => C c + X * toPoly cs

def recoveredRounds (degree : ℕ) :
    List (List F → F → List F) → F → Channel F → List (List F × F)
  | [],_,_ => []
  | recover :: rest,claim,ch =>
    match (do let coeffs ← recvMany degree; let challenge ← sample; return (coeffs,challenge) :
        ChannelM F (List F × F)) ch with
    | .error _ => []
    | .ok ((coeffs,challenge),ch) =>
      let roundCoeffs := recover coeffs claim
      (roundCoeffs,challenge) ::
        recoveredRounds degree rest (evaluateUnivariate roundCoeffs challenge) ch

def sumcheckRounds (nVars degree : ℕ) (sum : F) (ch : Channel F) : List (List F × F) :=
  recoveredRounds degree (replicate nVars recoverTop) sum ch

def mlecheckRounds (point : List F) (degree : ℕ) (eval : F) (ch : Channel F) :
    List (List F × F) :=
  recoveredRounds degree
    (point.reverse.map fun z coeffs eval => recoverConstant coeffs eval z) eval ch

noncomputable def toRound (round : List F × F) : Round F := ⟨toPoly round.1,round.2⟩

variable (coeffs : List F) {d : ℕ}

theorem state_pure {σ ε α : Type} (a : α) (s : σ) : (pure a : StateT σ (Except ε) α) s = .ok (a,s) := rfl

theorem toPoly_eval_append (c x : F) :
    (toPoly (coeffs ++ [c])).eval x = (toPoly coeffs).eval x + c * x ^ coeffs.length := by
  induction coeffs with
  | nil => simp [toPoly]
  | cons a coeffs ih =>
    rw [cons_append,toPoly,toPoly,eval_add,eval_add,eval_mul,
      eval_mul,ih,eval_X,length_cons]
    ring

theorem evaluateUnivariate_eq (x : F) :
    evaluateUnivariate coeffs x = (toPoly coeffs).eval x := by
  have hfold (front : List F) : ∀ acc, front.reverse.foldl (fun acc coeff => acc * x + coeff) acc =
      acc * x ^ front.length + (toPoly front).eval x := by
    induction front with
    | nil => simp [toPoly]
    | cons a front ih =>
      intro acc
      rw [reverse_cons,foldl_append,ih,toPoly]
      simp only [foldl_cons,foldl_nil,length_cons,eval_add,eval_C,
        eval_mul,eval_X]
      ring
  rcases eq_nil_or_concat coeffs with rfl | ⟨front,highest,rfl⟩
  · simp [evaluateUnivariate,toPoly]
  · rw [concat_eq_append,evaluateUnivariate,reverse_append,reverse_singleton,
      singleton_append]
    simp only
    rw [hfold,toPoly_eval_append]
    ring

theorem toPoly_degree {coeffs : List F} (h : coeffs.length ≤ d + 1) :
    (toPoly coeffs).natDegree ≤ d := by
  induction coeffs generalizing d with
  | nil => simp [toPoly]
  | cons a coeffs ih =>
    rw [length_cons] at h
    rw [toPoly]
    refine (natDegree_add_le _ _).trans (max_le (by rw [natDegree_C]; omega) ?_)
    cases coeffs with
    | nil => simp [toPoly]
    | cons b coeffs =>
      rw [length_cons] at h
      obtain ⟨d,rfl⟩ : ∃ e, d = e + 1 := ⟨d - 1,by omega⟩
      refine natDegree_mul_le.trans ?_
      have hrec := ih (d := d) (by rw [length_cons]; omega)
      rw [natDegree_X]
      omega

theorem toPoly_eval_zero : (toPoly coeffs).eval 0 = coeffs.headD 0 := by
  cases coeffs with
  | nil => simp [toPoly]
  | cons a coeffs => simp [toPoly]

theorem toPoly_eval_one : (toPoly coeffs).eval 1 = coeffs.sum := by
  induction coeffs with
  | nil => simp [toPoly]
  | cons a coeffs ih => simp [toPoly,ih]

/-- A recovery completes a received polynomial to one that agrees with the running claim at its
weighted endpoints. -/
def Recovers (w : F × F) : Prop :=
  ∀ coeffs claim, coeffs.length = degree →
    w.1 * (toPoly (recover coeffs claim)).eval 0 + w.2 * (toPoly (recover coeffs claim)).eval 1 =
        claim ∧
      (toPoly (recover coeffs claim)).natDegree ≤ degree

theorem recoverTop_recovers {degree : ℕ} (h : 1 ≤ degree) :
    Recovers degree (recoverTop (F := F)) (1,1) := by
  intro coeffs claim hl
  constructor
  · cases coeffs with
    | nil =>
      rw [length_nil] at hl
      omega
    | cons a coeffs =>
      rw [toPoly_eval_zero,toPoly_eval_one,recoverTop,sum_append,sum_singleton,
        cons_append,headD_cons,headD_cons]
      ring
  · exact toPoly_degree (by rw [recoverTop,length_append,length_singleton,hl])

theorem recoverConstant_recovers (z : F) :
    Recovers degree (fun coeffs eval => recoverConstant coeffs eval z) (1 - z,z) := by
  intro coeffs claim hl
  constructor
  · simp only [toPoly_eval_zero,toPoly_eval_one,recoverConstant,headD_cons,sum_cons]
    ring
  · exact toPoly_degree (by simp only [recoverConstant,length_cons,hl]; exact le_rfl)

omit [Field F] in
theorem recvMany_length {n : ℕ} {ch ch' : Channel F} {ms : List F}
    (h : recvMany n ch = .ok (ms,ch')) : ms.length = n := by
  induction n generalizing ch ms with
  | zero =>
    cases h
    rfl
  | succ n ih =>
    simp only [recvMany,bind,StateT.bind,Except.bind] at h
    cases h1 : recvOne ch with
    | error e =>
      rw [h1] at h
      cases h
    | ok r =>
      rw [h1] at h
      simp only at h
      cases h2 : recvMany n r.2 with
      | error e =>
        rw [h2] at h
        cases h
      | ok s =>
        rw [h2] at h
        cases h
        rw [length_cons,ih h2]

omit [Field F] in
theorem recvMany_run (ms rest : List F) (cs : ℕ → F) :
    recvMany ms.length ⟨ms ++ rest,cs⟩ = .ok (ms,⟨rest,cs⟩) := by
  induction ms with
  | nil => rfl
  | cons m ms ih =>
    simp only [recvMany,recvOne,length_cons,cons_append,bind,StateT.bind,Except.bind,ih]
    rfl

theorem rounds_follow {degree : ℕ} {recovers : List (List F → F → List F)} {ws : List (F × F)}
    (hr : List.Forall₂ (Recovers degree) recovers ws) {claim value : F}
    {prior challenges : List F} {ch ch' : Channel F}
    (h : recovers.foldlM (fun state recover => verifyRound degree recover state) (claim,prior) ch =
      .ok ((value,challenges),ch')) :
    Follows degree ws claim ((recoveredRounds degree recovers claim ch).map toRound) value ∧
      challenges = prior ++ (recoveredRounds degree recovers claim ch).map Prod.snd := by
  induction hr generalizing claim prior ch with
  | nil =>
    cases h
    exact ⟨rfl,(append_nil _).symm⟩
  | cons hrec hrest ih =>
    rename_i recover w recovers ws
    rw [foldlM_cons] at h
    simp only [verifyRound,bind,StateT.bind,Except.bind,state_pure] at h
    rw [recoveredRounds]
    simp only [bind,StateT.bind,Except.bind,state_pure]
    cases hm : recvMany degree ch with
    | error e =>
      rw [hm] at h
      cases h
    | ok received =>
      obtain ⟨coeffs,ch₁⟩ := received
      rw [hm] at h
      simp only [sample] at h ⊢
      obtain ⟨hend,hdeg⟩ := hrec coeffs claim (recvMany_length hm)
      obtain ⟨hf,hc⟩ := ih h
      refine ⟨⟨hend,hdeg,?_⟩,?_⟩
      · rw [toRound,←evaluateUnivariate_eq]
        exact hf
      · rw [hc,map_cons,append_assoc,singleton_append]

/-- The polynomial an honest prover of a sumcheck sends after the given challenges: the sum over
the coordinates below, the free one, and the challenges bound so far. -/
noncomputable def sumcheckRoundPoly {d : ℕ} (P : CoordPoly F d) (nVars : ℕ) (prior : List F) :
    F[X] :=
  roundPoly P (replicate (nVars - (prior.length + 1)) (1,1)) [] prior.reverse

/-- The polynomial an honest prover of an MLE-check sends: the same sum against the equality
indicator with the coordinates below. -/
noncomputable def mlecheckRoundPoly {d : ℕ} (P : CoordPoly F d) (point : List F)
    (prior : List F) : F[X] :=
  roundPoly P ((eqWeights point).drop (prior.length + 1)) [] prior.reverse

/-- Some challenge of a run is a root of the non-zero difference between the recovered and the
true round polynomial. -/
def SomeRoundCaught (d : ℕ) (rounds : List (List F × F)) (expected : List F → F[X]) : Prop :=
  ∃ i round, rounds[i]? = some round ∧
    Caught d (toPoly round.1) (expected ((rounds.take i).map Prod.snd)) round.2

theorem someRoundCaught_of_follows {P : CoordPoly F d} {ws : List (F × F)}
    {claim value : F} {rounds : List (List F × F)} {expected : List F → F[X]}
    (h : Follows d ws claim (rounds.map toRound) value) (hc : claim ≠ weightedSum P.eval ws [])
    (hv : value = P.eval (rounds.map Prod.snd).reverse)
    (he : ∀ prior, prior.length < rounds.length →
      expected prior = roundPoly P (ws.drop (prior.length + 1)) [] prior.reverse) :
    SomeRoundCaught d rounds expected := by
  have hsnd (l : List (List F × F)) :
      (l.map toRound).map Round.challenge = l.map Prod.snd := by
    rw [map_map]
    rfl
  obtain ⟨i,round,hi,hcaught⟩ := h.exists_caught hc (by rw [hsnd,append_nil]; exact hv)
  rw [getElem?_map] at hi
  obtain ⟨found,hfound,rfl⟩ := Option.map_eq_some_iff.mp hi
  have hlt : i < rounds.length := (List.getElem?_eq_some_iff.mp hfound).1
  refine ⟨i,found,hfound,?_⟩
  have hlen : ((rounds.take i).map Prod.snd).length = i := by
    rw [length_map,length_take]
    omega
  rw [he _ (by rw [hlen]; exact hlt),hlen]
  rw [←map_take,hsnd,append_nil] at hcaught
  exact hcaught

theorem forall₂_replicate {α β : Type} {R : α → β → Prop} {a : α} {b : β} (h : R a b) (n : ℕ) :
    List.Forall₂ R (replicate n a) (replicate n b) := by
  induction n with
  | zero => exact .nil
  | succ n ih => exact .cons h ih

theorem sumcheck_caught {nVars : ℕ} (hd : 1 ≤ d) (P : CoordPoly F d) {sum : F}
    {ch ch' : Channel F} {out : SumcheckOutput F}
    (h : sumcheckVerify nVars d sum ch = .ok (out,ch'))
    (hc : sum ≠ ((cube nVars).map P.eval).sum) (hv : out.eval = P.eval out.challenges.reverse) :
    SomeRoundCaught d (sumcheckRounds nVars d sum ch) (sumcheckRoundPoly P nVars) := by
  have hloop : (range nVars).foldlM
      (fun state _ => verifyRound d recoverTop state) (sum,[]) ch =
        (replicate nVars recoverTop).foldlM
          (fun state recover => verifyRound d recover state) (sum,[]) ch := by
    have hmap : replicate nVars (recoverTop (F := F)) =
        (range nVars).map fun _ => recoverTop := by
      rw [map_const',length_range]
    rw [hmap,foldlM_map]
  rw [sumcheckVerify] at h
  simp only [bind,StateT.bind,Except.bind,state_pure] at h
  rw [hloop] at h
  cases hrun : (replicate nVars recoverTop).foldlM
      (fun state recover => verifyRound d recover state) (sum,[]) ch with
  | error e =>
    rw [hrun] at h
    cases h
  | ok ran =>
    obtain ⟨⟨value,challenges⟩,ch₁⟩ := ran
    rw [hrun] at h
    cases h
    obtain ⟨hf,hch⟩ := rounds_follow (forall₂_replicate (recoverTop_recovers hd) nVars) hrun
    rw [nil_append] at hch
    apply someRoundCaught_of_follows (P := P) hf
    · rw [weightedSum_unit]
      simpa only [append_nil] using hc
    · rw [←sumcheckRounds,sumcheckRounds,←hch]
      exact hv
    · intro prior _
      rw [sumcheckRoundPoly,drop_replicate]

theorem mlecheck_caught (P : CoordPoly F d) {point : List F} {eval : F}
    {ch ch' : Channel F} {out : SumcheckOutput F}
    (h : mlecheckVerify point d eval ch = .ok (out,ch'))
    (hc : eval ≠ weightedSum P.eval (eqWeights point) [])
    (hv : out.eval = P.eval out.challenges.reverse) :
    SomeRoundCaught d (mlecheckRounds point d eval ch) (mlecheckRoundPoly P point) := by
  rw [mlecheckVerify] at h
  simp only [bind,StateT.bind,Except.bind,state_pure] at h
  have hloop : point.reverse.foldlM
      (fun state z => verifyRound d (fun coeffs eval => recoverConstant coeffs eval z) state)
      (eval,[]) ch =
        (point.reverse.map fun z coeffs eval => recoverConstant coeffs eval z).foldlM
          (fun state recover => verifyRound d recover state) (eval,[]) ch := by
    rw [foldlM_map]
  rw [hloop] at h
  cases hrun : (point.reverse.map fun z coeffs eval => recoverConstant coeffs eval z).foldlM
      (fun state recover => verifyRound d recover state) (eval,[]) ch with
  | error e =>
    rw [hrun] at h
    cases h
  | ok ran =>
    obtain ⟨⟨value,challenges⟩,ch₁⟩ := ran
    rw [hrun] at h
    cases h
    have hrec : List.Forall₂ (Recovers d)
        (point.reverse.map fun z coeffs eval => recoverConstant coeffs eval z)
        (eqWeights point) := by
      rw [eqWeights]
      induction point.reverse with
      | nil => exact .nil
      | cons z zs ih => exact .cons (recoverConstant_recovers d z) ih
    obtain ⟨hf,hch⟩ := rounds_follow hrec hrun
    rw [nil_append] at hch
    apply someRoundCaught_of_follows (P := P) hf hc
    · rw [←hch]
      exact hv
    · intro prior _
      rfl

end Binius64.SumcheckVerify
