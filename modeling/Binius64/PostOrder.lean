import Mathlib.Data.Finset.Card

/-!
# Depth-first postorders

A finite directed graph as its list of arcs, the order in which a depth-first search emits finished
nodes, and the induction rule a pass over such an order is proved by.
-/

namespace Binius64.PostOrder

open List

variable {α : Type}

def Reaches (arcs : List (α × α)) : α → α → Prop :=
  Relation.ReflTransGen fun a b => (a,b) ∈ arcs

/-- No node reaches itself along at least one arc. -/
def Acyclic (arcs : List (α × α)) : Prop :=
  ∀ a, ¬Relation.TransGen (fun a b => (a,b) ∈ arcs) a a

def Ranks (arcs : List (α × α)) (rank : α → ℕ) : Prop :=
  ∀ a b, (a,b) ∈ arcs → rank b < rank a

variable {arcs : List (α × α)}

theorem Ranks.acyclic {rank : α → ℕ} (h : Ranks arcs rank) :
    Acyclic arcs := by
  have hlt : ∀ a b, Relation.TransGen (fun a b => (a,b) ∈ arcs) a b → rank b < rank a := by
    intro a b hab
    induction hab with
    | single hab => exact h _ _ hab
    | tail _ hbc ih => exact (h _ _ hbc).trans ih
  intro a ha
  exact Nat.lt_irrefl _ (hlt a a ha)

theorem Ranks.le_of_reaches {rank : α → ℕ} (h : Ranks arcs rank) {a b : α}
    (hab : Reaches arcs a b) : rank b ≤ rank a := by
  induction hab with
  | refl => exact Nat.le_refl _
  | tail _ hbc ih => exact (h _ _ hbc).le.trans ih

section Rank

variable [DecidableEq α]

open Classical in
/-- The number of arc tails reachable from a node. -/
noncomputable def reachCount (arcs : List (α × α)) (a : α) : ℕ :=
  ((arcs.map Prod.fst).toFinset.filter fun b => Reaches arcs a b).card

theorem reachCount_le (arcs : List (α × α)) (a : α) : reachCount arcs a ≤ arcs.length := by
  classical
  have hf := Finset.card_filter_le (arcs.map Prod.fst).toFinset fun b => Reaches arcs a b
  have hl := toFinset_card_le (arcs.map Prod.fst)
  rw [length_map] at hl
  exact hf.trans hl

theorem Acyclic.ranks_reachCount {arcs : List (α × α)} (h : Acyclic arcs) :
    Ranks arcs (reachCount arcs) := by
  classical
  intro a b hab
  apply Finset.card_lt_card
  rw [Finset.ssubset_iff_of_subset]
  · refine ⟨a,?_,?_⟩
    · rw [Finset.mem_filter,mem_toFinset]
      exact ⟨mem_map.mpr ⟨(a,b),hab,rfl⟩,.refl⟩
    · intro ha
      have hba : Reaches arcs b a := (Finset.mem_filter.mp ha).2
      exact h a (Relation.TransGen.head' hab hba)
  · intro c hc
    rw [Finset.mem_filter] at hc ⊢
    exact ⟨hc.1,Relation.ReflTransGen.head hab hc.2⟩

end Rank

/-- A list in which no node repeats and every node follows all its successors. -/
structure Finished (arcs : List (α × α)) (order : List α) : Prop where
  nodup : order.Nodup
  after : ∀ pre a post, order = pre ++ a :: post → ∀ b, (a,b) ∈ arcs → b ∈ pre

theorem Finished.nil (arcs : List (α × α)) : Finished arcs [] := by
  refine ⟨nodup_nil,?_⟩
  intro pre a post h
  cases pre <;> cases h

variable {order : List α}

theorem Finished.concat {a : α} (h : Finished arcs order)
    (ha : a ∉ order) (hs : ∀ b, (a,b) ∈ arcs → b ∈ order) : Finished arcs (order ++ [a]) := by
  constructor
  · rw [nodup_append]
    refine ⟨h.nodup,nodup_singleton a,?_⟩
    intro x hx y hy hxy
    rw [mem_singleton] at hy
    exact ha (hy ▸ hxy ▸ hx)
  · intro pre c post heq
    rcases eq_nil_or_concat post with rfl | ⟨init,z,rfl⟩
    · have hp := append_inj' heq rfl
      have hc : a = c := by simpa using hp.2
      subst hc
      rw [← hp.1]
      exact hs
    · have hp : order ++ [a] = (pre ++ c :: init) ++ [z] := by simpa using heq
      exact h.after pre c init (append_inj' hp rfl).1

/-- The order in which a depth-first search from the sources emits finished nodes. -/
structure IsPostOrder (arcs : List (α × α)) (sources order : List α) : Prop
    extends Finished arcs order where
  mem_iff : ∀ a, a ∈ order ↔ ∃ s ∈ sources, Reaches arcs s a

theorem Finished.closed (h : Finished arcs order) {a b : α}
    (ha : a ∈ order) (hab : Reaches arcs a b) : b ∈ order := by
  induction hab with
  | refl => exact ha
  | tail _ hbc ih =>
    obtain ⟨pre,post,heq⟩ := append_of_mem ih
    rw [heq]
    exact mem_append_left _ (h.after pre _ post heq _ hbc)

theorem Finished.foldlM_invariant {σ ε : Type}
    (h : Finished arcs order) (Inv : List α → σ → Prop) {step : σ → α → Except ε σ} {s : σ}
    (init : Inv [] s)
    (visit : ∀ pre a s, Inv pre s → a ∈ order → a ∉ pre → (∀ b, (a,b) ∈ arcs → b ∈ pre) →
      ∃ next, step s a = .ok next ∧ Inv (pre ++ [a]) next) :
    ∃ next, order.foldlM step s = .ok next ∧ Inv order next := by
  -- The induction runs over the visited prefix, kept as an explicit split of the order.
  have hrun : ∀ rest pre s, order = pre ++ rest → Inv pre s →
      ∃ next, rest.foldlM step s = .ok next ∧ Inv order next := by
    intro rest
    induction rest with
    | nil =>
      intro pre s heq hs
      rw [append_nil] at heq
      exact ⟨s,rfl,heq ▸ hs⟩
    | cons a rest ih =>
      intro pre s heq hs
      have hmem : a ∈ order := by rw [heq]; simp
      have hnew : a ∉ pre := by
        have hn := h.nodup
        rw [heq,nodup_append] at hn
        exact fun ha => hn.2.2 a ha a (mem_cons_self) rfl
      obtain ⟨next,hstep,hnext⟩ := visit pre a s hs hmem hnew (h.after pre a rest heq)
      obtain ⟨t,hfold,ht⟩ := ih (pre ++ [a]) next (by rw [heq]; simp) hnext
      refine ⟨t,?_,ht⟩
      rw [foldlM_cons,hstep]
      exact hfold
  exact hrun order [] s rfl init

/-- A depth-first traversal with its documented behaviour: nodes are emitted
after their successors, starting from the sources in turn. -/
structure Traversal (α : Type) where
  visit : List (α × α) → List α → List α
  /-- On an acyclic graph the emitted nodes are a postorder of what the sources reach. -/
  postOrder : ∀ arcs sources, Acyclic arcs → IsPostOrder arcs sources (visit arcs sources)

structure Emits (arcs : List (α × α)) (starts order order' : List α) : Prop where
  finished : Finished arcs order'
  mono : ∀ a ∈ order, a ∈ order'
  emitted : ∀ a ∈ starts, a ∈ order'
  reached : ∀ a ∈ order', a ∈ order ∨ ∃ s ∈ starts, Reaches arcs s a

theorem emits_foldl (f : List α → α → List α) (starts : List α)
    (hf : ∀ a ∈ starts, ∀ order, Finished arcs order → Emits arcs [a] order (f order a)) :
    ∀ order, Finished arcs order → Emits arcs starts order (starts.foldl f order) := by
  induction starts with
  | nil =>
    intro order h
    exact ⟨h,fun _ ha => ha,nofun,fun _ ha => .inl ha⟩
  | cons a rest ih =>
    intro order h
    have hhead := hf a mem_cons_self order h
    have htail := ih (fun b hb => hf b (mem_cons_of_mem a hb)) _ hhead.finished
    rw [foldl_cons]
    constructor
    · exact htail.finished
    · intro b hb
      exact htail.mono b (hhead.mono b hb)
    · intro b hb
      rcases mem_cons.mp hb with rfl | hb
      · exact htail.mono b (hhead.emitted b (mem_singleton_self b))
      · exact htail.emitted b hb
    · intro b hb
      rcases htail.reached b hb with hb | ⟨s,hs,hr⟩
      · rcases hhead.reached b hb with hb | ⟨s,hs,hr⟩
        · exact .inl hb
        · rw [mem_singleton] at hs
          exact .inr ⟨a,mem_cons_self,hs ▸ hr⟩
      · exact .inr ⟨s,mem_cons_of_mem a hs,hr⟩

section DepthFirst

variable [DecidableEq α]

/-- The successors of a node, newest arc first. -/
def successors (arcs : List (α × α)) (a : α) : List α :=
  ((arcs.filter fun arc => arc.1 = a).map Prod.snd).reverse

@[simp] theorem mem_successors {arcs : List (α × α)} {a b : α} :
    b ∈ successors arcs a ↔ (a,b) ∈ arcs := by
  simp [successors]

/-- Emit a node after everything it reaches, unless it was emitted before. -/
def finish (arcs : List (α × α)) : ℕ → List α → α → List α
  | 0, order, _ => order
  | fuel + 1, order, a =>
    if a ∈ order then order else (successors arcs a).foldl (finish arcs fuel) order ++ [a]

theorem finish_emits {arcs : List (α × α)} {rank : α → ℕ} (hr : Ranks arcs rank) (fuel : ℕ) :
    ∀ a, rank a < fuel → ∀ order, Finished arcs order → Emits arcs [a] order (finish arcs fuel order a) := by
  induction fuel with
  | zero => exact fun a ha => absurd ha (Nat.not_lt_zero _)
  | succ fuel ih =>
    intro a ha order h
    unfold finish
    by_cases hmem : a ∈ order
    · rw [if_pos hmem]
      refine ⟨h,fun _ hb => hb,?_,fun _ hb => .inl hb⟩
      intro b hb
      rw [mem_singleton] at hb
      exact hb ▸ hmem
    · rw [if_neg hmem]
      have hsucc := emits_foldl (finish arcs fuel) (successors arcs a)
        (fun b hb => ih b (by have := hr a b (mem_successors.mp hb); omega)) order h
      -- The node itself cannot be among what its successors emitted: their ranks are lower.
      have hnew : a ∉ (successors arcs a).foldl (finish arcs fuel) order := by
        intro hin
        rcases hsucc.reached a hin with hin | ⟨b,hb,hba⟩
        · exact hmem hin
        · have hlt := hr a b (mem_successors.mp hb)
          have hle := hr.le_of_reaches hba
          omega
      constructor
      · exact hsucc.finished.concat hnew fun b hb => hsucc.emitted b (mem_successors.mpr hb)
      · intro b hb
        exact mem_append_left _ (hsucc.mono b hb)
      · intro b hb
        exact mem_append_right _ hb
      · intro b hb
        rcases mem_append.mp hb with hb | hb
        · rcases hsucc.reached b hb with hb | ⟨s,hs,hsb⟩
          · exact .inl hb
          · exact .inr ⟨a,mem_singleton_self a,.head (mem_successors.mp hs) hsb⟩
        · rw [mem_singleton] at hb
          exact .inr ⟨a,mem_singleton_self a,hb ▸ .refl⟩

def depthFirst : Traversal α where
  visit arcs sources := sources.foldl (finish arcs (arcs.length + 1)) []
  postOrder := by
    intro arcs sources hac
    have hfuel : ∀ a, reachCount arcs a < arcs.length + 1 := fun a =>
      Nat.lt_succ_of_le (reachCount_le arcs a)
    have hem := emits_foldl (finish arcs (arcs.length + 1)) sources
      (fun a _ => finish_emits hac.ranks_reachCount (arcs.length + 1) a (hfuel a)) []
      (Finished.nil arcs)
    refine ⟨hem.finished,fun a => ⟨fun ha => ?_,fun ha => ?_⟩⟩
    · exact (hem.reached a ha).resolve_left (not_mem_nil)
    · obtain ⟨s,hs,hsa⟩ := ha
      exact hem.finished.closed (hem.emitted s hs) hsa

end DepthFirst

end Binius64.PostOrder
