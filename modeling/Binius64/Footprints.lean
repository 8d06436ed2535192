import Mathlib.Data.List.Basic
import Mathlib.Data.Set.Lattice
import Mathlib.Order.CompletePartialOrder

/-!
# Updates and the cells they touch

An update of a memory may be described by a larger transformation that it carries out on some of the
cells.
-/

namespace Binius64.Footprints

open List

variable {ι α κ : Type}

/-- The update writes what the transformation would on the given cells, and nothing elsewhere. -/
def Computes (f G : (ι → α) → ι → α) (cells : Set ι) : Prop :=
  ∀ x i, (i ∈ cells → f x i = G x i) ∧ (i ∉ cells → f x i = x i)

/-- What the transformation writes on the cells depends on these cells alone. -/
def Closed (G : (ι → α) → ι → α) (cells : Set ι) : Prop :=
  ∀ x y, (∀ i ∈ cells, x i = y i) → ∀ i ∈ cells, G x i = G y i

/-- The update reads and writes the given cells only. -/
def Local (f : (ι → α) → ι → α) (cells : Set ι) : Prop :=
  (∀ x, ∀ i ∉ cells, f x i = x i) ∧ Closed f cells

variable {f g G H : (ι → α) → ι → α} {R S : Set ι}

theorem Computes.local (h : Computes f G R) (hc : Closed G R) : Local f R := by
  refine ⟨fun x i hi => (h x i).2 hi,fun x y hxy i hi => ?_⟩
  rw [(h x i).1 hi,(h y i).1 hi]
  exact hc x y hxy i hi

theorem Computes.eq (hf : Computes f G R) (hg : Computes g G R) : f = g := by
  funext x i
  by_cases hi : i ∈ R
  · rw [(hf x i).1 hi,(hg x i).1 hi]
  · rw [(hf x i).2 hi,(hg x i).2 hi]

theorem Computes.congr (h : Computes f G R) (hG : ∀ x, ∀ i ∈ R, G x i = H x i) : Computes f H R :=
  fun x i => ⟨fun hi => ((h x i).1 hi).trans (hG x i hi),(h x i).2⟩

theorem Computes.id_empty : Computes (fun x => x) G (∅ : Set ι) :=
  fun _ _ => ⟨fun hi => hi.elim,fun _ => rfl⟩

theorem Computes.comp (hf : Computes f G R) (hg : Computes g H R) (hH : Closed H R) :
    Computes (fun x => g (f x)) (fun x => H (G x)) R := by
  intro x i
  refine ⟨fun hi => ?_,fun hi => ?_⟩
  · have hsame : ∀ j ∈ R, f x j = G x j := fun j hj => (hf x j).1 hj
    exact ((hg (f x) i).1 hi).trans (hH (f x) (G x) hsame i hi)
  · exact ((hg (f x) i).2 hi).trans ((hf x i).2 hi)

theorem Computes.union (hf : Computes f G R) (hg : Computes g G S) (hd : Disjoint R S)
    (hS : Closed G S) : Computes (fun x => g (f x)) G (R ∪ S) := by
  intro x i
  have hout : ∀ j ∈ S, j ∉ R := fun j hj hR => Set.disjoint_left.mp hd hR hj
  refine ⟨fun hi => ?_,fun hi => ?_⟩
  · by_cases hiS : i ∈ S
    · have hsame : ∀ j ∈ S, f x j = x j := fun j hj => (hf x j).2 (hout j hj)
      exact ((hg (f x) i).1 hiS).trans (hS (f x) x hsame i hiS)
    · exact ((hg (f x) i).2 hiS).trans ((hf x i).1 (hi.resolve_right hiS))
  · have hiS : i ∉ S := fun h => hi (Or.inr h)
    exact ((hg (f x) i).2 hiS).trans ((hf x i).2 fun h => hi (Or.inl h))

theorem Closed.comp (hG : Closed G R) (hH : Closed H R) : Closed (fun x => H (G x)) R :=
  fun x y hxy => hH (G x) (G y) (hG x y hxy)

theorem Closed.iUnion {cells : κ → Set ι} {ks : List κ} (h : ∀ k ∈ ks, Closed G (cells k)) :
    Closed G {i | ∃ k ∈ ks, i ∈ cells k} := by
  rintro x y hxy i ⟨k,hk,hi⟩
  exact h k hk x y (fun j hj => hxy j ⟨k,hk,hj⟩) i hi

theorem Closed.of_map {σ : ι → ι} (h : ∀ i ∈ R, σ i ∈ R) :
    Closed (fun (x : ι → α) i => x (σ i)) R := fun _ _ hxy i hi => hxy _ (h i hi)

section Loops

variable {F : κ → (ι → α) → ι → α} (cells : κ → Set ι) {ks : List κ}

theorem Computes.foldl (h : ∀ k ∈ ks, Computes (F k) G (cells k))
    (hc : ∀ k ∈ ks, Closed G (cells k))
    (hd : ks.Pairwise fun k l => Disjoint (cells k) (cells l)) :
    Computes (fun x => ks.foldl (fun y k => F k y) x) G {i | ∃ k ∈ ks, i ∈ cells k} := by
  induction ks with
  | nil =>
    have hnone : {i | ∃ k ∈ ([] : List κ), i ∈ cells k} = (∅ : Set ι) := by
      ext i
      simp
    rw [hnone]
    exact Computes.id_empty
  | cons k ks ih =>
    obtain ⟨hhead,htail⟩ := pairwise_cons.mp hd
    have hrest := ih (fun l hl => h l (mem_cons_of_mem _ hl))
      (fun l hl => hc l (mem_cons_of_mem _ hl)) htail
    have hdisj : Disjoint (cells k) {i | ∃ l ∈ ks, i ∈ cells l} := by
      rw [Set.disjoint_left]
      rintro i hi ⟨l,hl,hil⟩
      exact Set.disjoint_left.mp (hhead l hl) hi hil
    have hclosed : Closed G {i | ∃ l ∈ ks, i ∈ cells l} :=
      Closed.iUnion fun l hl => hc l (mem_cons_of_mem _ hl)
    have hboth := (h k mem_cons_self).union hrest hdisj hclosed
    have hcells : cells k ∪ {i | ∃ l ∈ ks, i ∈ cells l} = {i | ∃ l ∈ k :: ks, i ∈ cells l} := by
      ext i
      simp
    rw [hcells] at hboth
    exact hboth

theorem Computes.foldl_key (R : Set ι) (key : ι → κ) (hn : ks.Nodup)
    (h : ∀ k ∈ ks, Computes (F k) G {i | i ∈ R ∧ key i = k})
    (hc : ∀ k ∈ ks, Closed G {i | i ∈ R ∧ key i = k}) (hall : ∀ i ∈ R, key i ∈ ks) :
    Computes (fun x => ks.foldl (fun y k => F k y) x) G R := by
  have hd : ks.Pairwise fun k l => Disjoint {i | i ∈ R ∧ key i = k} {i | i ∈ R ∧ key i = l} := by
    refine hn.imp fun hne => ?_
    rw [Set.disjoint_left]
    rintro i ⟨-,hk⟩ ⟨-,hl⟩
    exact hne (hk.symm.trans hl)
  have hloop := Computes.foldl _ h hc hd
  have hcells : {i | ∃ k ∈ ks, i ∈ {i | i ∈ R ∧ key i = k}} = R := by
    ext i
    exact ⟨fun ⟨_,_,hi,_⟩ => hi,fun hi => ⟨key i,hall i hi,hi,rfl⟩⟩
  rw [hcells] at hloop
  exact hloop

theorem Computes.foldl_perm {ls : List κ} (hp : ls.Perm ks)
    (h : ∀ k ∈ ks, Computes (F k) G (cells k)) (hc : ∀ k ∈ ks, Closed G (cells k))
    (hd : ks.Pairwise fun k l => Disjoint (cells k) (cells l)) :
    Computes (fun x => ls.foldl (fun y k => F k y) x) G {i | ∃ k ∈ ks, i ∈ cells k} := by
  have hd' : ls.Pairwise fun k l => Disjoint (cells k) (cells l) :=
    (hp.pairwise_iff fun hkl => hkl.symm).mpr hd
  have hloop := Computes.foldl cells (fun k hk => h k (hp.mem_iff.mp hk))
    (fun k hk => hc k (hp.mem_iff.mp hk)) hd'
  have hcells : {i | ∃ k ∈ ls, i ∈ cells k} = {i | ∃ k ∈ ks, i ∈ cells k} := by
    ext i
    exact exists_congr fun k => and_congr_left fun _ => hp.mem_iff
  rw [hcells] at hloop
  exact hloop

theorem Closed.foldl {K : κ → (ι → α) → ι → α} (hc : ∀ k ∈ ks, Closed (K k) R) :
    Closed (fun x => ks.foldl (fun y k => K k y) x) R := by
  induction ks with
  | nil => exact fun x y hxy => hxy
  | cons l ks ih =>
    exact Closed.comp (hc l mem_cons_self) (ih fun m hm => hc m (mem_cons_of_mem _ hm))

theorem Computes.foldl_comp {K : κ → (ι → α) → ι → α} (h : ∀ k ∈ ks, Computes (F k) (K k) R)
    (hc : ∀ k ∈ ks, Closed (K k) R) :
    Computes (fun x => ks.foldl (fun y k => F k y) x) (fun x => ks.foldl (fun y k => K k y) x) R := by
  induction ks with
  | nil => exact fun x i => ⟨fun _ => rfl,fun _ => rfl⟩
  | cons k ks ih =>
    have hrest := ih (fun l hl => h l (mem_cons_of_mem _ hl))
      fun l hl => hc l (mem_cons_of_mem _ hl)
    have hclosed : Closed (fun x => ks.foldl (fun y k => K k y) x) R :=
      Closed.foldl fun l hl => hc l (mem_cons_of_mem _ hl)
    exact (h k mem_cons_self).comp hrest hclosed

theorem Computes.foldl_fixed {v : ι → α} (h : ∀ k ∈ ks, Computes (F k) (fun _ => v) (cells k)) :
    Computes (fun x => ks.foldl (fun y k => F k y) x) (fun _ => v) {i | ∃ k ∈ ks, i ∈ cells k} := by
  induction ks with
  | nil => exact fun x i => ⟨nofun,fun _ => rfl⟩
  | cons k ks ih =>
    have hrest := ih fun l hl => h l (mem_cons_of_mem _ hl)
    intro x i
    by_cases hlater : ∃ l ∈ ks, i ∈ cells l
    · obtain ⟨l,hl,hi⟩ := hlater
      exact ⟨fun _ => (hrest _ i).1 ⟨l,hl,hi⟩,fun hout => absurd ⟨l,mem_cons_of_mem _ hl,hi⟩ hout⟩
    · have hkeep := (hrest (F k x) i).2 hlater
      refine ⟨fun hi => ?_,fun hout => ?_⟩
      · obtain ⟨l,hl,hil⟩ := hi
        rcases mem_cons.mp hl with rfl | hl
        · exact hkeep.trans ((h l mem_cons_self x i).1 hil)
        · exact absurd ⟨l,hl,hil⟩ hlater
      · have hik : i ∉ cells k := fun hi => hout ⟨k,mem_cons_self,hi⟩
        exact hkeep.trans ((h k mem_cons_self x i).2 hik)

end Loops

theorem Computes.update [DecidableEq ι] {v : ι → α} {i : ι} {a : α} (h : v i = a) :
    Computes (fun x => Function.update x i a) (fun _ => v) {i} := by
  intro x j
  refine ⟨fun hj => ?_,fun hj => Function.update_of_ne hj _ _⟩
  rw [Set.mem_singleton_iff] at hj
  rw [hj]
  exact (Function.update_self i a x).trans h.symm

end Binius64.Footprints
