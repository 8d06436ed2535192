import Binius64.CheckedRun
import Mathlib.Data.List.Forall2

/-!
# Replayed runs

A writer leaves a record and a reader goes through it later.
-/

namespace Binius64.ReplayedRuns

abbrev Writing (σ α : Type) := StateT σ Option α

abbrev Reading (τ ε α : Type) := StateT τ (Except ε) α

/-- How the states of a reader follow those of a writer. -/
structure Replay (σ τ : Type) where
  Leads : σ → σ → Prop
  /-- The reader is where the writer was at the first state, the writer being at the second in the
  end. -/
  At : σ → σ → τ → Prop
  refl : ∀ s, Leads s s
  trans : ∀ {s t u}, Leads s t → Leads t u → Leads s u

variable {σ τ ε α β γ δ : Type} {R : Replay σ τ} {T : Prop}

/-- The reader returns what the writer's record holds: whatever the writer does next, the reader's run
starts where the writer's did and ends where it ended. -/
def Mirrors (R : Replay σ τ) (T : Prop) (write : Writing σ α) (read : Reading τ ε β) (P : α → β → Prop) :
    Prop :=
  ∀ s, (T → ∃ r, write s = some r) ∧ ∀ a s', write s = some (a,s') → R.Leads s s' ∧ ∃ b, P a b ∧
    ∀ f u, R.Leads s' f → R.At s f u → ∃ u', read u = .ok (b,u') ∧ R.At s' f u'

namespace Mirrors

variable {write : Writing σ α} {read : Reading τ ε β} {P P' : α → β → Prop}

theorem pure {a : α} {b : β} (h : P a b) : Mirrors R T (pure a) (pure b : Reading τ ε β) P := by
  intro s
  refine ⟨fun _ => ⟨_,rfl⟩,fun a' s' hrun => ?_⟩
  cases hrun
  exact ⟨R.refl s,b,h,fun f u _ hat => ⟨u,rfl,hat⟩⟩

theorem mono (h : Mirrors R T write read P) (hP : ∀ a b, P a b → P' a b) :
    Mirrors R T write read P' := by
  intro s
  obtain ⟨hreturns,hsteps⟩ := h s
  refine ⟨hreturns,fun a s' hrun => ?_⟩
  obtain ⟨hleads,b,hb,hread⟩ := hsteps a s' hrun
  exact ⟨hleads,b,hP a b hb,hread⟩

theorem bind {k : α → Writing σ γ} {k' : β → Reading τ ε δ} {Q : γ → δ → Prop}
    (h : Mirrors R T write read P) (hk : ∀ a b, P a b → Mirrors R T (k a) (k' b) Q) :
    Mirrors R T (write >>= k) (read >>= k') Q := by
  intro s
  obtain ⟨hreturns,hsteps⟩ := h s
  refine ⟨fun ht => ?_,fun c s₂ hrun => ?_⟩
  · obtain ⟨⟨a,s₁⟩,ha⟩ := hreturns ht
    obtain ⟨-,b,hb,-⟩ := hsteps a s₁ ha
    obtain ⟨r,hr⟩ := (hk a b hb s₁).1 ht
    exact ⟨r,Option.bind_eq_some_iff.mpr ⟨_,ha,hr⟩⟩
  · obtain ⟨⟨a,s₁⟩,ha,hc⟩ := Option.bind_eq_some_iff.mp hrun
    obtain ⟨hfirst,b,hb,hread⟩ := hsteps a s₁ ha
    obtain ⟨hlast,d,hd,hread'⟩ := (hk a b hb s₁).2 c s₂ hc
    refine ⟨R.trans hfirst hlast,d,hd,fun f u hf hat => ?_⟩
    obtain ⟨u₁,hu₁,hat₁⟩ := hread f u (R.trans hlast hf) hat
    obtain ⟨u₂,hu₂,hat₂⟩ := hread' f u₁ hf hat₁
    exact ⟨u₂,CheckedRun.state_bind_eq_ok.mpr ⟨b,u₁,hu₁,hu₂⟩,hat₂⟩

theorem mapM {f : α → Writing σ γ} {g : β → Reading τ ε δ} {Q : γ → δ → Prop} {xs : List α} {ys : List β}
    (h : List.Forall₂ (fun x y => Mirrors R T (f x) (g y) Q) xs ys) :
    Mirrors R T (xs.mapM f) (ys.mapM g) (List.Forall₂ Q) := by
  induction h with
  | nil =>
    rw [List.mapM_nil,List.mapM_nil]
    exact pure .nil
  | cons hfirst _ ih =>
    rw [List.mapM_cons,List.mapM_cons]
    exact hfirst.bind fun a b hab => ih.bind fun as bs habs => pure (.cons hab habs)

theorem run (h : Mirrors R T write read P) {s s' : σ} {a : α} {u : τ} (hrun : write s = some (a,s'))
    (hat : R.At s s' u) : ∃ b u', read u = .ok (b,u') ∧ P a b ∧ R.At s' s' u' := by
  obtain ⟨-,b,hb,hread⟩ := (h s).2 a s' hrun
  obtain ⟨u',hu,hat'⟩ := hread s' u (R.refl s') hat
  exact ⟨b,u',hu,hb,hat'⟩

end Mirrors

end Binius64.ReplayedRuns
