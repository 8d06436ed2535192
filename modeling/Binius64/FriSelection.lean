import Binius64.FriArities
import Binius64.FriSteps

/-!
# The choice of the parameters

The dimension of the first folded codeword, the batch sizes of the oracles and the arities of the
folds are chosen together by the number of bytes.
-/

namespace Binius64.Fri

open Ntt CheckedRun ReductionPlanning List
open MerkleTree (optimalVerifyLayer)
open FriParams (greatest)
open OracleChannel (OracleSpec)

/-- The length of what an oracle commits to, and the batch size where it is fixed. -/
abbrev Committed := ℕ × Option ℕ

def committedOf (oracle : OracleSpec) : Committed :=
  (oracle.logMsgLen + oracle.isZk.toNat,if oracle.isZk then some 1 else none)

namespace FriParams

variable (rsCode : ReedSolomonCode)

/-- Construct parameters, whose conditions are asserted. -/
def newBatchChecked (oracles : List CodewordSpec) (foldArities : List ℕ)
    (nTestQueries : ℕ) : Except AssertFailure FriParams :=
  match newBatch rsCode oracles foldArities nTestQueries with
  | some params => .ok params
  | none => .error .failed

/-- The parameters of one codeword. -/
def new (logBatchSize : ℕ) (foldArities : List ℕ) (nTestQueries : ℕ) :
    Except AssertFailure FriParams :=
  newBatchChecked rsCode [⟨0,0,logBatchSize⟩] foldArities nTestQueries

end FriParams

/-- Add the bytes of the openings of one codeword: those of the Merkle branches and those of the
cosets. -/
def openSizes (byteSize : ℕ) (vcs : BinaryMerkleTreeScheme) (nTestQueries : ℕ) (sizes : ℕ × ℕ)
    (logNCosets arity : ℕ) : Except AssertFailure (ℕ × ℕ) := do
  let layerDepth := optimalVerifyLayer nTestQueries logNCosets
  let merkleSize ← vcs.proofSize (1 <<< logNCosets) nTestQueries layerDepth
  return (sizes.1 + merkleSize,sizes.2 + nTestQueries * (1 <<< arity) * byteSize)

def proofSize (byteSize : ℕ) (params : FriParams) (vcs : BinaryMerkleTreeScheme) :
    Except AssertFailure ℕ := do
  let commitmentMsgSize := (params.inputOracles.length + params.nOracles) * vcs.digestSize
  let logTerminalDim := params.nFinalChallenges
  let logInvRate := params.rsCode.logInvRate
  let terminateCodewordSize := (1 <<< (logTerminalDim + logInvRate)) * byteSize
  let logDim := params.rsCode.logDimension
  let sizes ← params.inputOracles.foldlM (fun sizes spec => do
    openSizes byteSize vcs params.nTestQueries sizes ((← checkedSub logDim spec.logLift) + logInvRate)
      spec.logBatchSize) (0,0)
  let (_,sizes) ← params.foldArities.foldlM (fun (logNCosets,sizes) arity => do
    let logNCosets ← checkedSub logNCosets arity
    return (logNCosets,← openSizes byteSize vcs params.nTestQueries sizes logNCosets arity))
    (params.indexBits,sizes)
  return commitmentMsgSize + terminateCodewordSize + sizes.1 + sizes.2

section Size

variable (optimizer : ReductionOptimizer)

def oracleSize (params : FriParams) (spec : CodewordSpec) : ℕ :=
  optimizer.layerReductionSize
    (params.rsCode.logDimension - spec.logLift + params.rsCode.logInvRate + spec.logBatchSize)
    spec.logBatchSize

theorem openSizes_run (sizes : ℕ × ℕ) (logNCosets arity : ℕ) :
    ∃ sizes', openSizes optimizer.byteSize optimizer.merkleScheme optimizer.nTestQueries sizes logNCosets arity =
        .ok sizes' ∧
      sizes'.1 + sizes'.2 = sizes.1 + sizes.2 + optimizer.layerReductionSize (logNCosets + arity) arity := by
  unfold openSizes
  simp only []
  rw [optimizer.merkleScheme.proofSize_eq _ (optimalVerifyLayer_le _ _),ok_bind]
  refine ⟨_,rfl,?_⟩
  unfold ReductionOptimizer.layerReductionSize
  simp only [Nat.add_sub_cancel,Nat.one_shiftLeft]
  ring

theorem oracleSizes_run {params : FriParams} {specs : List CodewordSpec}
    (hlift : ∀ spec ∈ specs, spec.logLift ≤ params.rsCode.logDimension) (sizes : ℕ × ℕ) :
    ∃ sizes', specs.foldlM (fun sizes spec => do
        openSizes optimizer.byteSize optimizer.merkleScheme optimizer.nTestQueries sizes
          ((← checkedSub params.rsCode.logDimension spec.logLift) + params.rsCode.logInvRate)
          spec.logBatchSize) sizes = .ok sizes' ∧
      sizes'.1 + sizes'.2 = sizes.1 + sizes.2 + (specs.map (oracleSize optimizer params)).sum := by
  induction specs generalizing sizes with
  | nil => exact ⟨sizes,rfl,rfl⟩
  | cons spec specs ih =>
    obtain ⟨sizes',hopen,hsum⟩ := openSizes_run optimizer sizes
      (params.rsCode.logDimension - spec.logLift + params.rsCode.logInvRate) spec.logBatchSize
    obtain ⟨sizes'',hrun,hrest⟩ := ih (fun s hs => hlift s (mem_cons_of_mem _ hs)) sizes'
    refine ⟨sizes'',?_,?_⟩
    · rw [foldlM_cons,checkedSub_eq (hlift spec mem_cons_self),ok_bind,hopen,ok_bind]
      exact hrun
    · rw [hrest,hsum,map_cons,sum_cons,add_assoc]
      rfl

theorem foldSizes_run (logInvRate : ℕ) {arities : List ℕ} {dim : ℕ} (hsum : arities.sum ≤ dim)
    (sizes : ℕ × ℕ) :
    ∃ logNCosets sizes', arities.foldlM (fun (logNCosets,sizes) arity => do
        let logNCosets ← checkedSub logNCosets arity
        return (logNCosets,← openSizes optimizer.byteSize optimizer.merkleScheme optimizer.nTestQueries sizes
          logNCosets arity)) (dim + logInvRate,sizes) = .ok (logNCosets,sizes') ∧
      sizes'.1 + sizes'.2 + optimizer.terminalSize logInvRate (dim - arities.sum) = sizes.1 + sizes.2 +
        planCost (optimizer.foldSize logInvRate) (optimizer.terminalSize logInvRate) dim arities := by
  induction arities generalizing dim sizes with
  | nil => exact ⟨dim + logInvRate,sizes,rfl,rfl⟩
  | cons arity arities ih =>
    rw [sum_cons] at hsum
    have hle : arity ≤ dim + logInvRate := by omega
    have hsub : dim + logInvRate - arity = dim - arity + logInvRate := by omega
    obtain ⟨sizes',hopen,hfirst⟩ := openSizes_run optimizer sizes
      (dim - arity + logInvRate) arity
    obtain ⟨logNCosets,sizes'',hrun,hrest⟩ := ih (show arities.sum ≤ dim - arity by omega) sizes'
    have hlen : dim - arity + logInvRate + arity = dim + logInvRate := by omega
    refine ⟨logNCosets,sizes'',?_,?_⟩
    · simp only [foldlM_cons,checkedSub_eq hle,ok_bind,hsub,hopen]
      exact hrun
    · rw [hlen] at hfirst
      rw [sum_cons,← Nat.sub_sub,hrest,hfirst,add_assoc]
      rfl

variable {optimizer}

theorem proofSize_eq {params : FriParams} (hlaid : params.Laid)
    (hlift : ∀ spec ∈ params.inputOracles, spec.logLift ≤ params.rsCode.logDimension)
    (hqueries : params.nTestQueries = optimizer.nTestQueries) :
    proofSize optimizer.byteSize params optimizer.merkleScheme =
      .ok ((params.inputOracles.length + params.nOracles) * optimizer.merkleScheme.digestSize +
        ((params.inputOracles.map (oracleSize optimizer params)).sum +
          planCost (optimizer.foldSize params.rsCode.logInvRate)
            (optimizer.terminalSize params.rsCode.logInvRate) params.rsCode.logDimension
            params.foldArities)) := by
  obtain ⟨sizes,horacles,hfirst⟩ := oracleSizes_run optimizer hlift (0,0)
  obtain ⟨logNCosets,sizes',hfolds,hrest⟩ := foldSizes_run optimizer params.rsCode.logInvRate
    hlaid.sum_le sizes
  have hterminal : (1 <<< (params.nFinalChallenges + params.rsCode.logInvRate)) * optimizer.byteSize =
      optimizer.terminalSize params.rsCode.logInvRate
        (params.rsCode.logDimension - params.foldArities.sum) := by
    rw [FriParams.nFinalChallenges,hlaid.logTerminalDim,Nat.one_shiftLeft,Nat.mul_comm]
    rfl
  unfold proofSize
  simp only [hqueries]
  rw [horacles,ok_bind]
  change Except.bind (foldlM _ (params.rsCode.logDimension + params.rsCode.logInvRate,sizes) _) _ = _
  have hbind : ∀ {α β : Type} (x : Except AssertFailure α) (f : α → Except AssertFailure β),
      Except.bind x f = x >>= f := fun _ _ => rfl
  rw [hbind,hfolds,ok_bind]
  simp only [hterminal]
  change Except.ok _ = _
  congr 1
  omega

end Size

section Choice

variable {committed : List Committed} {optimizer : ReductionOptimizer} {logInvRate : ℕ}

end Choice

end Binius64.Fri
