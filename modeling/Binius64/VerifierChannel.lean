import Binius64.LogupStar

/-!
# Verifiers over a channel

A verifier that uses a channel stops at a failed precondition or where the channel stops.
-/

namespace Binius64.VerifierChannel

open Ntt SumcheckVerify
open LogupStar (sampleMany)

variable {F α : Type}

/-- The ways a verifier stops. -/
inductive Error where
  | precondition
  | channel (error : SumcheckVerify.Error)
deriving DecidableEq

abbrev VerifierM (F α : Type) := StateT (Channel F) (Except Error) α

def onChannel (run : ChannelM F α) : VerifierM F α := fun ch =>
  (run ch).mapError Error.channel

def asserting (run : Except AssertFailure α) : VerifierM F α := fun ch =>
  (run.mapError fun _ => Error.precondition).map fun a => (a,ch)

theorem sampleMany_run (n : ℕ) (messages : List F) (challenges : ℕ → F) :
    sampleMany n ⟨messages,challenges⟩ =
      .ok ((List.range n).map challenges,⟨messages,fun i => challenges (i + n)⟩) := by
  induction n generalizing challenges with
  | zero => rfl
  | succ n ih =>
    have hrest := ih fun i => challenges (i + 1)
    rw [sampleMany,List.range_succ_eq_map,List.map_cons,List.map_map]
    simp only [bind,StateT.bind,Except.bind,sample,hrest]
    rfl

end Binius64.VerifierChannel
