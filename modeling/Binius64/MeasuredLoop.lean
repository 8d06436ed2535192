import Mathlib.Data.List.Nodup
import Mathlib.Data.List.Perm.Subperm

/-!
# Loops that a measure bounds

A loop repeats a step until the step gives a result.
-/

namespace Binius64.MeasuredLoop

open List

section Loops

variable {S R : Type} {step : S → S ⊕ R}

/-- Repeat a step until it gives a result, at most so many times. -/
def loop (step : S → S ⊕ R) : ℕ → S → Option R
  | 0, _ => none
  | steps + 1, s =>
    match step s with
    | .inl s' => loop step steps s'
    | .inr r => some r

/-- A step that goes on keeps the invariant and lowers the measure; one that ends gives a result as asked. -/
def Progress (inv : S → Prop) (post : R → Prop) (measure : S → ℕ) (s : S) : S ⊕ R → Prop
  | .inl s' => inv s' ∧ measure s' < measure s
  | .inr r => post r

theorem loop_ends {inv : S → Prop} {post : R → Prop} {measure : S → ℕ}
    (hstep : ∀ s, inv s → Progress inv post measure s (step s)) {s : S} (hs : inv s) :
    ∃ r, post r ∧ ∀ steps, measure s < steps → loop step steps s = some r := by
  obtain ⟨bound,hbound⟩ : ∃ bound, measure s < bound := ⟨_,Nat.lt_succ_self _⟩
  induction bound generalizing s with
  | zero => exact absurd hbound (Nat.not_lt_zero _)
  | succ bound ih =>
    have hprogress := hstep s hs
    cases hnext : step s with
    | inl s' =>
      rw [hnext] at hprogress
      obtain ⟨hinv,hlower⟩ := hprogress
      obtain ⟨r,hr,hall⟩ := ih hinv (by omega)
      refine ⟨r,hr,fun steps hsteps => ?_⟩
      obtain ⟨rest,rfl⟩ := Nat.exists_eq_add_of_lt (Nat.zero_lt_of_lt hsteps)
      rw [Nat.zero_add,loop,hnext]
      exact hall rest (by omega)
    | inr r =>
      rw [hnext] at hprogress
      refine ⟨r,hprogress,fun steps hsteps => ?_⟩
      obtain ⟨rest,rfl⟩ := Nat.exists_eq_add_of_lt (Nat.zero_lt_of_lt hsteps)
      rw [Nat.zero_add,loop,hnext]

end Loops

section Search

variable {A : Type} [DecidableEq A]

/-- The marked nodes, and those among them whose successors are still to be marked. -/
structure Search (A : Type) where
  marked : List A
  work : List A

namespace Search

/-- Mark a node, and put it on the work list if it was not marked. -/
def mark (s : Search A) (a : A) : Search A :=
  if a ∈ s.marked then s else ⟨a :: s.marked,a :: s.work⟩

def step (succs : A → List A) (s : Search A) : Search A ⊕ List A :=
  match s.work with
  | [] => .inr s.marked
  | a :: work => .inl ((succs a).foldl mark ⟨s.marked,work⟩)

/-- Some of the marked nodes are to be done, and all are nodes of the graph, each marked once. -/
structure Within (nodes : List A) (s : Search A) : Prop where
  marked : ∀ a ∈ s.work, a ∈ s.marked
  nodes : ∀ a ∈ s.marked, a ∈ nodes
  nodup : s.marked.Nodup

/-- How many nodes there are to do, those that are not marked yet included. -/
def left (nodes : List A) (s : Search A) : ℕ := s.work.length + (nodes.length - s.marked.length)

/-- What marking some nodes changes. -/
structure Marks (s s' : Search A) (as : List A) : Prop where
  marked : ∀ a, a ∈ s'.marked ↔ a ∈ s.marked ∨ a ∈ as
  work : ∀ a, a ∈ s'.work ↔ a ∈ s.work ∨ a ∈ as ∧ a ∉ s.marked

variable {nodes : List A} {s : Search A}

theorem mark_marks (s : Search A) (a : A) : Marks s (s.mark a) [a] := by
  by_cases ha : a ∈ s.marked
  · rw [mark,if_pos ha]
    refine ⟨fun b => ?_,fun b => ?_⟩
    · rw [mem_singleton]
      exact ⟨.inl,fun h => h.elim id fun hb => hb ▸ ha⟩
    · rw [mem_singleton]
      exact ⟨.inl,fun h => h.elim id fun hb => absurd (hb.1 ▸ ha) hb.2⟩
  · rw [mark,if_neg ha]
    refine ⟨fun b => ?_,fun b => ?_⟩
    · rw [mem_cons,mem_singleton,or_comm]
    · rw [mem_cons,mem_singleton]
      refine ⟨fun h => h.elim (fun hb => .inr ⟨hb,hb ▸ ha⟩) .inl,fun h => h.elim .inr fun hb => .inl hb.1⟩

theorem Within.mark (h : Within nodes s) {a : A} (ha : a ∈ nodes) :
    Within nodes (s.mark a) ∧ left nodes (s.mark a) = left nodes s := by
  by_cases hmem : a ∈ s.marked
  · rw [Search.mark,if_pos hmem]
    exact ⟨h,rfl⟩
  · have hnodup : (a :: s.marked).Nodup := nodup_cons.mpr ⟨hmem,h.nodup⟩
    have hall : ∀ b ∈ a :: s.marked, b ∈ nodes := forall_mem_cons.mpr ⟨ha,h.nodes⟩
    have hroom : (a :: s.marked).length ≤ nodes.length := (subperm_of_subset hnodup hall).length_le
    rw [Search.mark,if_neg hmem]
    refine ⟨⟨fun b hb => ?_,hall,hnodup⟩,?_⟩
    · exact (mem_cons.mp hb).elim (fun hb => mem_cons.mpr (.inl hb)) fun hb =>
        mem_cons_of_mem a (h.marked b hb)
    · rw [length_cons] at hroom
      rw [left,left,length_cons,length_cons]
      omega

theorem Within.foldl_mark (h : Within nodes s) {as : List A} (has : ∀ a ∈ as, a ∈ nodes) :
    Within nodes (as.foldl Search.mark s) ∧ left nodes (as.foldl Search.mark s) = left nodes s ∧
      Marks s (as.foldl Search.mark s) as := by
  induction as generalizing s with
  | nil => exact ⟨h,rfl,⟨fun a => by simp,fun a => by simp⟩⟩
  | cons a as ih =>
    rw [forall_mem_cons] at has
    obtain ⟨hone,hleft⟩ := h.mark has.1
    obtain ⟨hrest,hsame,hmarks⟩ := ih hone has.2
    have hfirst := mark_marks s a
    rw [foldl_cons]
    refine ⟨hrest,hsame.trans hleft,⟨fun b => ?_,fun b => ?_⟩⟩
    · rw [hmarks.marked,hfirst.marked,mem_singleton,mem_cons,or_assoc]
    · rw [hmarks.work,hfirst.work,hfirst.marked,mem_singleton,mem_cons]
      by_cases hb : b = a
      · subst hb
        tauto
      · tauto

variable {succs : A → List A} {roots : List A}

/-- What holds all along a search: the marked nodes are reached, the roots and the successors of the
nodes that are done are marked. -/
structure Sound (succs : A → List A) (nodes roots : List A) (s : Search A) : Prop
    extends Within nodes s where
  reached : ∀ a ∈ s.marked, ∃ root ∈ roots, Relation.ReflTransGen (fun x y => y ∈ succs x) root a
  roots : ∀ root ∈ roots, root ∈ s.marked
  done : ∀ a ∈ s.marked, a ∉ s.work → ∀ b ∈ succs a, b ∈ s.marked

theorem search_ends (hsuccs : ∀ a ∈ nodes, ∀ b ∈ succs a, b ∈ nodes) (hroots : ∀ root ∈ roots, root ∈ nodes) :
    ∃ marked : List A, (∀ a, a ∈ marked ↔
        ∃ root ∈ roots, Relation.ReflTransGen (fun x y => y ∈ succs x) root a) ∧
      ∀ steps, nodes.length < steps → loop (step succs) steps (roots.foldl mark ⟨[],[]⟩) = some marked := by
  have hempty : Within nodes (⟨[],[]⟩ : Search A) := ⟨nofun,nofun,nodup_nil⟩
  obtain ⟨hwithin,hleft,hmarks⟩ := hempty.foldl_mark hroots
  have hstart : Sound succs nodes roots (roots.foldl mark ⟨[],[]⟩) := by
    refine ⟨hwithin,fun a ha => ?_,fun root hroot => ?_,fun a ha hdone => ?_⟩
    · have hroot := ((hmarks.marked a).mp ha).resolve_left not_mem_nil
      exact ⟨a,hroot,.refl⟩
    · exact (hmarks.marked root).mpr (.inr hroot)
    · have hroot := ((hmarks.marked a).mp ha).resolve_left not_mem_nil
      exact absurd ((hmarks.work a).mpr (.inr ⟨hroot,not_mem_nil⟩)) hdone
  have hstep : ∀ s, Sound succs nodes roots s → Progress (Sound succs nodes roots)
      (fun marked => ∀ a, a ∈ marked ↔
        ∃ root ∈ roots, Relation.ReflTransGen (fun x y => y ∈ succs x) root a)
      (left nodes) s (step succs s) := by
    intro s hs
    rw [step]
    cases hwork : s.work with
    | nil =>
      -- nothing is to be done, so the marked nodes are closed
      refine fun a => ⟨hs.reached a,?_⟩
      rintro ⟨root,hroot,hpath⟩
      have hroot' := hs.roots root hroot
      clear hroot
      induction hpath with
      | refl => exact hroot'
      | tail _ hnext ih => exact hs.done _ ih (by rw [hwork]; exact not_mem_nil) _ hnext
    | cons a work =>
      have ha : a ∈ s.marked := hs.marked a (hwork ▸ mem_cons_self)
      have hrest : Within nodes ⟨s.marked,work⟩ :=
        ⟨fun b hb => hs.marked b (hwork ▸ mem_cons_of_mem a hb),hs.nodes,hs.nodup⟩
      obtain ⟨hwithin',hleft',hmarks'⟩ := hrest.foldl_mark (hsuccs a (hs.nodes a ha))
      refine ⟨⟨hwithin',fun b hb => ?_,fun root hroot => ?_,fun b hb hdone c hc => ?_⟩,?_⟩
      · rcases (hmarks'.marked b).mp hb with hb | hb
        · exact hs.reached b hb
        · obtain ⟨root,hroot,hpath⟩ := hs.reached a ha
          exact ⟨root,hroot,hpath.tail hb⟩
      · exact (hmarks'.marked root).mpr (.inl (hs.roots root hroot))
      · rw [hmarks'.work,not_or] at hdone
        have hold : b ∈ s.marked := by
          rcases (hmarks'.marked b).mp hb with hb | hb
          · exact hb
          · exact by_contra fun hnew => hdone.2 ⟨hb,hnew⟩
        refine (hmarks'.marked c).mpr ?_
        by_cases hba : b = a
        · exact .inr (hba ▸ hc)
        · refine .inl (hs.done b hold (fun hbwork => ?_) c hc)
          rw [hwork] at hbwork
          exact (mem_cons.mp hbwork).elim hba hdone.1
      · rw [hleft',left,left,hwork,length_cons]
        exact Nat.add_lt_add_right (Nat.lt_succ_self work.length) _
  obtain ⟨marked,hmarked,hsteps⟩ := loop_ends hstep hstart
  refine ⟨marked,hmarked,fun steps hlt => hsteps steps ?_⟩
  have hall : left nodes (⟨[],[]⟩ : Search A) = nodes.length := Nat.zero_add _
  rw [hleft,hall]
  exact hlt

end Search

end Search

section Worklist

variable {A : Type} [DecidableEq A]

/-- Entries to be done in the order they came, each at most once, with the set of those that are on it. -/
structure Worklist (A : Type) where
  queue : List A
  marked : List A

namespace Worklist

def empty : Worklist A := ⟨[],[]⟩

/-- Put an entry at the end unless it is on the list. -/
def push (q : Worklist A) (a : A) : Worklist A :=
  if a ∈ q.marked then q else ⟨q.queue ++ [a],a :: q.marked⟩

/-- What is left when the first entry is taken off. -/
def rest (q : Worklist A) (a : A) (queue : List A) : Worklist A := ⟨queue,q.marked.filter (· ≠ a)⟩

/-- The set holds the entries, and these are some nodes, each once. -/
structure Within (nodes : List A) (q : Worklist A) : Prop where
  marked : ∀ a, a ∈ q.marked ↔ a ∈ q.queue
  nodes : ∀ a ∈ q.queue, a ∈ nodes
  nodup : q.queue.Nodup

variable {nodes : List A} {q : Worklist A}

omit [DecidableEq A] in
theorem within_empty : Within nodes (empty : Worklist A) := ⟨fun _ => Iff.rfl,nofun,nodup_nil⟩

namespace Within

theorem push (h : Within nodes q) {a : A} (ha : a ∈ nodes) : Within nodes (q.push a) := by
  rw [Worklist.push]
  split
  · exact h
  case isFalse hnew =>
    rw [h.marked] at hnew
    refine ⟨fun b => ?_,fun b hb => ?_,nodup_append.mpr ⟨h.nodup,nodup_singleton a,?_⟩⟩
    · rw [mem_cons,mem_append,mem_singleton,h.marked,or_comm]
    · rcases mem_append.mp hb with hb | hb
      · exact h.nodes b hb
      · exact mem_singleton.mp hb ▸ ha
    · intro b hb c hc hbc
      exact hnew (mem_singleton.mp hc ▸ hbc ▸ hb)

theorem foldl_push (h : Within nodes q) {as : List A} (has : ∀ a ∈ as, a ∈ nodes) :
    Within nodes (as.foldl Worklist.push q) := by
  induction as generalizing q with
  | nil => exact h
  | cons a as ih =>
    rw [forall_mem_cons] at has
    exact ih (h.push has.1) has.2

theorem rest (h : Within nodes q) {a : A} {queue : List A} (hq : q.queue = a :: queue) :
    Within nodes (q.rest a queue) := by
  have hnodup := h.nodup
  have hnodes := h.nodes
  rw [hq] at hnodup hnodes
  obtain ⟨hnew,hnodup⟩ := nodup_cons.mp hnodup
  refine ⟨fun b => ?_,fun b hb => hnodes b (mem_cons_of_mem a hb),hnodup⟩
  rw [Worklist.rest,mem_filter,h.marked,hq,mem_cons,decide_eq_true_eq]
  refine ⟨fun hb => hb.1.resolve_left hb.2,fun hb => ⟨.inr hb,fun hba => hnew (hba ▸ hb)⟩⟩

omit [DecidableEq A] in
theorem length_le (h : Within nodes q) : q.queue.length ≤ nodes.length :=
  (h.nodup.subperm h.nodes).length_le

end Within

end Worklist

end Worklist

end Binius64.MeasuredLoop
