import Binius64.FriSelection

/-!
# The parameters of a batch of oracles

What the chosen parameters owe to the oracles: lifts and batch sizes that fit every
oracle, a round for every variable of the batch, and the size of a proof.
-/

namespace Binius64.Fri

open Ntt CheckedRun ReductionPlanning List
open FriParams (greatest)
open OracleChannel (OracleSpec)
open Function (comp_apply)

/-- The layout of a codeword fits the oracle that it commits to: the codeword is lifted to the
dimension, and its length and batch size are those of the oracle. -/
structure CodewordSpec.Fits (logDimension : ℕ) (oracle : OracleSpec) (spec : CodewordSpec) : Prop where
  lift_le : spec.logLift ≤ logDimension
  committed_eq : (committedOf oracle).1 = logDimension - spec.logLift + spec.logBatchSize
  batch_le : spec.logBatchSize ≤ (committedOf oracle).1
  early_eq : spec.logEarlyBatchSize = oracle.isZk.toNat

structure FriParams.Selected (params : FriParams) (oracles : List OracleSpec) (logInvRate nTestQueries : ℕ) :
    Prop where
  logInvRate_eq : params.rsCode.logInvRate = logInvRate
  nTestQueries_eq : params.nTestQueries = nTestQueries
  logDimension_eq : params.rsCode.logDimension = params.logTerminalDim + params.foldArities.sum
  fits : List.Forall₂ (CodewordSpec.Fits params.rsCode.logDimension) oracles params.inputOracles
  /-- There is a round for every variable of the longest message, one for the masks, and one for every
  bit of the number of an oracle. -/
  nFoldRounds_eq : params.nFoldRounds = greatest (oracles.map OracleSpec.logMsgLen) +
    (oracles.any OracleSpec.isZk).toNat + Nat.clog 2 oracles.length

section Layout

variable {oracles : List OracleSpec} {reducedLogDim : ℕ} {oracle : OracleSpec}

theorem committedOf_bare (h : oracle.isZk = false) : committedOf oracle = (oracle.logMsgLen,none) := by
  unfold committedOf
  rw [h]
  rfl

end Layout

theorem FriParams.newBatchChecked_run {rsCode : ReedSolomonCode} {oracles : List CodewordSpec}
    {foldArities : List ℕ} (nTestQueries : ℕ) (hne : oracles ≠ []) (hsum : foldArities.sum ≤ rsCode.logDimension) :
    ∃ params, newBatchChecked rsCode oracles foldArities nTestQueries = .ok params ∧ params.Laid ∧
      params.rsCode = rsCode ∧ params.inputOracles = oracles ∧ params.foldArities = foldArities ∧
      params.nTestQueries = nTestQueries := by
  cases hnew : newBatch rsCode oracles foldArities nTestQueries with
  | none =>
    simp only [newBatch,guard,if_pos hne,if_pos hsum] at hnew
    cases hnew
  | some params =>
    obtain ⟨hlaid,hcode,horacles,harities⟩ := newBatch_laid hnew
    have hqueries : params.nTestQueries = nTestQueries := by
      simp only [newBatch,guard,if_pos hne,if_pos hsum] at hnew
      cases hnew
      rfl
    refine ⟨params,?_,hlaid,hcode,horacles,harities,hqueries⟩
    unfold newBatchChecked
    rw [hnew]

theorem FriParams.Laid.logDimension_eq {params : FriParams} (h : params.Laid) :
    params.rsCode.logDimension = params.logTerminalDim + params.foldArities.sum := by
  rw [h.logTerminalDim,Nat.sub_add_cancel h.sum_le]

variable {arities : List ℕ}

theorem FriParams.new_run {logMsgLen logBatchSize : ℕ} (logInvRate nTestQueries : ℕ)
    (hbatch : logBatchSize ≤ logMsgLen) (hsum : arities.sum ≤ logMsgLen - logBatchSize) :
    ∃ params, (do
        let logDim ← checkedSub logMsgLen logBatchSize
        new ⟨logDim,logInvRate⟩ logBatchSize arities nTestQueries) = .ok params ∧
      params.Selected [⟨logMsgLen,false⟩] logInvRate nTestQueries := by
  have hcode : arities.sum ≤ (⟨logMsgLen - logBatchSize,logInvRate⟩ : ReedSolomonCode).logDimension := hsum
  obtain ⟨params,hnew,hlaid,hcode,horacles,harities,hqueries⟩ := newBatchChecked_run nTestQueries
    (cons_ne_nil ⟨0,0,logBatchSize⟩ []) hcode
  have hdim : params.rsCode.logDimension = logMsgLen - logBatchSize := by rw [hcode]
  have hrate : params.rsCode.logInvRate = logInvRate := by rw [hcode]
  refine ⟨params,?_,hrate,hqueries,hlaid.logDimension_eq,?_,?_⟩
  · rw [checkedSub_eq hbatch,ok_bind]
    exact hnew
  · rw [horacles]
    refine List.Forall₂.cons ⟨Nat.zero_le _,?_,?_,rfl⟩ List.Forall₂.nil
    · rw [hdim,committedOf_bare rfl]
      simp only [CodewordSpec.logBatchSize]
      omega
    · rw [committedOf_bare rfl]
      simp only [CodewordSpec.logBatchSize]
      omega
  · rw [nFoldRounds,hlaid.maxLogMsgLen,hlaid.logNOracles,maxEarly,maxLater,horacles,hdim]
    simp only [greatest,map_cons,map_nil,foldl_cons,foldl_nil,any_cons,any_nil,
      Bool.or_false,Bool.toNat_false,length_singleton]
    omega

end Binius64.Fri
