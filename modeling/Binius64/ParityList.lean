import Mathlib.Algebra.BigOperators.Group.List.Lemmas
import Mathlib.Algebra.CharP.Two
import Mathlib.Data.List.Sort
import Mathlib.Data.List.SplitBy
import Mathlib.Tactic.LinearCombination
import Mathlib.Tactic.Ring

/-!
# Ordered lists modulo two

A strictly ordered list stands for a set, and the sum of two such lists is their symmetric
difference: what occurs in both cancels.
-/

namespace Binius64.ParityList

open List

variable {W : Type} [LinearOrder W]

def Ordered (ws : List W) : Prop := ws.Pairwise (· < ·)

theorem Ordered.nodup {ws : List W} (h : Ordered ws) : ws.Nodup :=
  h.imp fun hlt => hlt.ne

/-- The last of an odd number of equal members, nothing of an even number. -/
def keepOdd (group : List W) : List W := group.drop (group.length / 2 * 2)

/-- Two neighbours are equal. -/
def hasDuplicate (ws : List W) : Bool := (ws.zip ws.tail).any fun p => p.1 = p.2

def cancelled (ws : List W) : List W :=
  let sorted := ws.mergeSort (· ≤ ·)
  if hasDuplicate sorted then (sorted.splitBy (· == ·)).flatMap keepOdd else sorted

/-- The sum of two ordered lists, with what the second adds to and takes from the first. -/
def merge : List W → List W → List W × List W × List W
  | [], [] => ([],[],[])
  | l :: ls, [] =>
    let (dst,additions,removals) := merge ls []
    (l :: dst,additions,removals)
  | [], r :: rs =>
    let (dst,additions,removals) := merge [] rs
    (r :: dst,r :: additions,removals)
  | l :: ls, r :: rs =>
    match compare l r with
    | .eq =>
      let (dst,additions,removals) := merge ls rs
      (dst,additions,l :: removals)
    | .lt =>
      let (dst,additions,removals) := merge ls (r :: rs)
      (l :: dst,additions,removals)
    | .gt =>
      let (dst,additions,removals) := merge (l :: ls) rs
      (r :: dst,r :: additions,removals)
termination_by ls rs => ls.length + rs.length

theorem merge_nil_left (rs : List W) : merge [] rs = (rs,rs,[]) := by
  induction rs with
  | nil => rw [merge]
  | cons r rs ih => rw [merge,ih]

section Cancel

variable {ws : List W}

theorem group_eq_replicate {group : List W} (h : group ∈ ws.splitBy (· == ·)) :
    ∃ a, group = replicate group.length a := by
  have hne := ne_nil_of_mem_splitBy h
  have hchain : group.IsChain (· = ·) :=
    (isChain_of_mem_splitBy h).imp fun a b hab => by simpa using hab
  have hpair : group.Pairwise (· = ·) := hchain.pairwise
  cases group with
  | nil => exact absurd rfl hne
  | cons a rest =>
    refine ⟨a,eq_replicate_of_mem fun b hb => ?_⟩
    rcases mem_cons.mp hb with rfl | hb
    · rfl
    · exact ((pairwise_cons.mp hpair).1 b hb).symm

omit [LinearOrder W] in
theorem keepOdd_sublist (group : List W) : (keepOdd group).Sublist group :=
  drop_sublist _ _

omit [LinearOrder W] in
theorem keepOdd_replicate (n : ℕ) (a : W) :
    keepOdd (replicate n a) = replicate (n % 2) a := by
  rw [keepOdd,length_replicate,drop_replicate]
  congr 1
  omega

omit [LinearOrder W] in
theorem mem_of_mem_flatMap_keepOdd {groups : List (List W)} {w : W}
    (h : w ∈ groups.flatMap keepOdd) : w ∈ groups.flatten := by
  obtain ⟨group,hg,hw⟩ := mem_flatMap.mp h
  exact mem_flatten.mpr ⟨group,hg,(keepOdd_sublist group).subset hw⟩

theorem ordered_flatMap_keepOdd {groups : List (List W)} (hsorted : groups.flatten.Pairwise (· ≤ ·))
    (hconst : ∀ g ∈ groups, ∃ a, g = replicate g.length a)
    (hchain : groups.IsChain fun g h => ∃ hg hh, g.getLast hg ≠ h.head hh) :
    Ordered (groups.flatMap keepOdd) := by
  induction groups with
  | nil => exact List.Pairwise.nil
  | cons g rest ih =>
    rw [flatten_cons] at hsorted
    obtain ⟨-,hrest,hcross⟩ := pairwise_append.mp hsorted
    have htail := ih hrest (fun h hh => hconst h (mem_cons_of_mem _ hh)) hchain.tail
    obtain ⟨a,ha⟩ := hconst g mem_cons_self
    rw [Ordered,flatMap_cons]
    refine pairwise_append.mpr ⟨?_,htail,fun x hx y hy => ?_⟩
    · rw [ha,keepOdd_replicate]
      rcases Nat.mod_two_eq_zero_or_one g.length with heven | hodd
      · rw [heven]
        exact List.Pairwise.nil
      · rw [hodd]
        exact pairwise_singleton _ _
    · have hxg := (keepOdd_sublist g).subset hx
      have hyr := mem_of_mem_flatMap_keepOdd hy
      have hle := hcross x hxg y hyr
      refine lt_of_le_of_ne hle fun heq => ?_
      -- the next group starts with another member, and all that follows is at least that
      cases rest with
      | nil => simp at hyr
      | cons h more =>
        obtain ⟨hg,hh,hdiff⟩ := (isChain_cons_cons.mp hchain).1
        have hlast : g.getLast hg = x := by
          have hall : ∀ z ∈ g, z = a := by
            rw [ha]
            exact fun z hz => eq_of_mem_replicate hz
          rw [hall x hxg,hall _ (getLast_mem hg)]
        have hhead : h.head hh ∈ (h :: more).flatten :=
          mem_flatten.mpr ⟨h,mem_cons_self,head_mem hh⟩
        have hup : x ≤ h.head hh := hcross x hxg _ hhead
        have hdown : h.head hh ≤ y := by
          cases h with
          | nil => exact absurd rfl hh
          | cons b tail =>
            rw [flatten_cons,cons_append] at hyr hrest
            rcases mem_cons.mp hyr with rfl | hyt
            · exact le_rfl
            · exact (pairwise_cons.mp hrest).1 y hyt
        rw [hlast] at hdiff
        exact hdiff (le_antisymm hup (heq ▸ hdown))

theorem ordered_of_no_duplicate (hsorted : ws.Pairwise (· ≤ ·))
    (h : hasDuplicate ws = false) : Ordered ws := by
  induction ws with
  | nil => exact List.Pairwise.nil
  | cons a rest ih =>
    obtain ⟨hle,hrest⟩ := pairwise_cons.mp hsorted
    cases rest with
    | nil => exact pairwise_singleton _ _
    | cons b more =>
      have hsplit : a ≠ b ∧ hasDuplicate (b :: more) = false := by
        simpa [hasDuplicate] using h
      refine pairwise_cons.mpr ⟨fun c hc => ?_,ih hrest hsplit.2⟩
      have hab : a < b := lt_of_le_of_ne (hle b mem_cons_self) hsplit.1
      rcases mem_cons.mp hc with rfl | hc
      · exact hab
      · exact hab.trans_le ((pairwise_cons.mp hrest).1 c hc)

theorem sorted_mergeSort (ws : List W) : (ws.mergeSort (· ≤ ·)).Pairwise (· ≤ ·) :=
  pairwise_mergeSort' (· ≤ ·) ws

theorem cancelled_ordered (ws : List W) : Ordered (cancelled ws) := by
  have hsorted := sorted_mergeSort ws
  rw [cancelled]
  cases hdup : hasDuplicate (ws.mergeSort (· ≤ ·)) with
  | false => exact ordered_of_no_duplicate hsorted hdup
  | true =>
    refine ordered_flatMap_keepOdd ?_ (fun g hg => group_eq_replicate hg) ?_
    · rw [flatten_splitBy]
      exact hsorted
    · exact (isChain_getLast_head_splitBy _ _).imp fun g h ⟨hg,hh,hd⟩ => ⟨hg,hh,by simpa using hd⟩

theorem mem_of_mem_cancelled {w : W} (h : w ∈ cancelled ws) : w ∈ ws := by
  have hperm := mergeSort_perm ws (· ≤ ·)
  rw [cancelled] at h
  cases hdup : hasDuplicate (ws.mergeSort (· ≤ ·)) with
  | false =>
    simp only [hdup,Bool.false_eq_true,if_false] at h
    exact hperm.mem_iff.mp h
  | true =>
    simp only [hdup,if_true] at h
    have hflat := mem_of_mem_flatMap_keepOdd h
    rw [flatten_splitBy] at hflat
    exact hperm.mem_iff.mp hflat

end Cancel

/-- A merge of two strictly ordered lists: their symmetric difference, with what the second list
added to the first and what it took from it. -/
structure Merged (ls rs : List W) (m : List W × List W × List W) : Prop where
  ordered : Ordered m.1
  mem_iff : ∀ w, w ∈ m.1 ↔ ¬(w ∈ ls ↔ w ∈ rs)
  additions_sublist : m.2.1.Sublist rs
  mem_additions : ∀ w, w ∈ m.2.1 ↔ w ∉ ls ∧ w ∈ rs
  removals_sublist : m.2.2.Sublist ls
  mem_removals : ∀ w, w ∈ m.2.2 ↔ w ∈ ls ∧ w ∈ rs

section Merge

variable {l r : W} {ls rs : List W} {m : List W × List W × List W}

theorem Merged.left (h : Merged ls rs m) (hl : ∀ w ∈ ls, l < w) (hr : ∀ w ∈ rs, l < w) :
    Merged (l :: ls) rs (l :: m.1,m.2) := by
  have hnot : l ∉ rs := fun hw => lt_irrefl l (hr l hw)
  have hfresh : l ∉ ls := fun hw => lt_irrefl l (hl l hw)
  refine ⟨pairwise_cons.mpr ⟨fun w hw => ?_,h.ordered⟩,fun w => ?_,h.additions_sublist,
    fun w => ?_,h.removals_sublist.cons l,fun w => ?_⟩
  · have hin := (h.mem_iff w).mp hw
    by_cases hwl : w ∈ ls
    · exact hl w hwl
    · exact hr w (by tauto)
  · have hmem := h.mem_iff w
    by_cases hw : w = l
    · subst hw
      simp [hnot]
    · simp [hw,hmem]
  · have hmem := h.mem_additions w
    by_cases hw : w = l
    · subst hw
      simp [hmem,hnot]
    · simp [hw,hmem]
  · have hmem := h.mem_removals w
    by_cases hw : w = l
    · subst hw
      simp [hmem,hnot]
    · simp [hw,hmem]

theorem Merged.right (h : Merged ls rs m) (hl : ∀ w ∈ ls, r < w) (hr : ∀ w ∈ rs, r < w) :
    Merged ls (r :: rs) (r :: m.1,r :: m.2.1,m.2.2) := by
  have hnot : r ∉ ls := fun hw => lt_irrefl r (hl r hw)
  refine ⟨pairwise_cons.mpr ⟨fun w hw => ?_,h.ordered⟩,fun w => ?_,h.additions_sublist.cons_cons r,
    fun w => ?_,h.removals_sublist,fun w => ?_⟩
  · have hin := (h.mem_iff w).mp hw
    by_cases hwl : w ∈ ls
    · exact hl w hwl
    · exact hr w (by tauto)
  · have hmem := h.mem_iff w
    by_cases hw : w = r
    · subst hw
      simp [hnot]
    · simp [hw,hmem]
  · have hmem := h.mem_additions w
    by_cases hw : w = r
    · subst hw
      simp [hnot]
    · simp [hw,hmem]
  · have hmem := h.mem_removals w
    by_cases hw : w = r
    · subst hw
      simp [hmem,hnot]
    · simp [hw,hmem]

theorem Merged.both (h : Merged ls rs m) (hl : ∀ w ∈ ls, l < w) (hr : ∀ w ∈ rs, l < w) :
    Merged (l :: ls) (l :: rs) (m.1,m.2.1,l :: m.2.2) := by
  have hnl : l ∉ ls := fun hw => lt_irrefl l (hl l hw)
  have hnr : l ∉ rs := fun hw => lt_irrefl l (hr l hw)
  refine ⟨h.ordered,fun w => ?_,h.additions_sublist.cons l,fun w => ?_,h.removals_sublist.cons_cons l,
    fun w => ?_⟩
  · have hmem := h.mem_iff w
    by_cases hw : w = l
    · subst hw
      simp [hmem,hnl,hnr]
    · simp [hw,hmem]
  · have hmem := h.mem_additions w
    by_cases hw : w = l
    · subst hw
      simp [hmem,hnr]
    · simp [hw,hmem]
  · have hmem := h.mem_removals w
    by_cases hw : w = l
    · simp [hw]
    · simp [hw,hmem]

theorem merge_merged (hl : Ordered ls) (hr : Ordered rs) : Merged ls rs (merge ls rs) := by
  fun_induction merge ls rs with
  | case1 => exact ⟨List.Pairwise.nil,by simp,List.Sublist.refl _,by simp,List.Sublist.refl _,by simp⟩
  | case2 l ls dst additions removals heq ih =>
    obtain ⟨hlow,hrest⟩ := pairwise_cons.mp hl
    rw [heq] at ih
    exact (ih hrest hr).left hlow (by simp)
  | case3 r rs dst additions removals heq ih =>
    obtain ⟨hlow,hrest⟩ := pairwise_cons.mp hr
    rw [heq] at ih
    exact (ih hl hrest).right (by simp) hlow
  | case4 l ls r rs hcmp dst additions removals heq ih =>
    obtain ⟨hlowl,hrestl⟩ := pairwise_cons.mp hl
    obtain ⟨hlowr,hrestr⟩ := pairwise_cons.mp hr
    obtain rfl : l = r := compare_eq_iff_eq.mp hcmp
    rw [heq] at ih
    exact (ih hrestl hrestr).both hlowl hlowr
  | case5 l ls r rs hcmp dst additions removals heq ih =>
    obtain ⟨hlowl,hrestl⟩ := pairwise_cons.mp hl
    obtain ⟨hlowr,-⟩ := pairwise_cons.mp hr
    have hlt : l < r := compare_lt_iff_lt.mp hcmp
    rw [heq] at ih
    refine (ih hrestl hr).left hlowl fun w hw => ?_
    rcases mem_cons.mp hw with rfl | hw
    · exact hlt
    · exact hlt.trans (hlowr w hw)
  | case6 l ls r rs hcmp dst additions removals heq ih =>
    obtain ⟨hlowl,-⟩ := pairwise_cons.mp hl
    obtain ⟨hlowr,hrestr⟩ := pairwise_cons.mp hr
    have hlt : r < l := compare_gt_iff_gt.mp hcmp
    rw [heq] at ih
    refine (ih hl hrestr).right (fun w hw => ?_) hlowr
    rcases mem_cons.mp hw with rfl | hw
    · exact hlt
    · exact hlt.trans (hlowl w hw)

end Merge

section Value

variable {R : Type} [CommRing R] [CharP R 2] (σ : W → R)

def value (ws : List W) : R := (ws.map σ).sum

omit [LinearOrder W] [CharP R 2] in
@[simp] theorem value_nil : value σ [] = 0 := rfl

omit [LinearOrder W] [CharP R 2] in
@[simp] theorem value_cons (w : W) (ws : List W) : value σ (w :: ws) = σ w + value σ ws := by
  rw [value,map_cons,sum_cons,value]

variable {ws : List W}

omit [LinearOrder W] [CharP R 2] in
theorem value_congr {σ τ : W → R} (h : ∀ w ∈ ws, σ w = τ w) :
    value σ ws = value τ ws := by
  rw [value,value,map_congr_left h]

omit [LinearOrder W] [CharP R 2] in
theorem value_update [DecidableEq W] (hn : ws.Nodup) {w : W} (hw : w ∈ ws) (d : R) :
    value (Function.update σ w (σ w + d)) ws = value σ ws + d := by
  induction ws with
  | nil => cases hw
  | cons v rest ih =>
    obtain ⟨hv,hrest⟩ := nodup_cons.mp hn
    rw [value_cons,value_cons]
    rcases mem_cons.mp hw with rfl | hin
    · have hsame : value (Function.update σ w (σ w + d)) rest = value σ rest := by
        refine value_congr fun u hu => Function.update_of_ne ?_ _ _
        rintro rfl
        exact hv hu
      rw [hsame,Function.update_self]
      ring
    · have hne : v ≠ w := by
        rintro rfl
        exact hv hin
      rw [ih hrest hin,Function.update_of_ne hne]
      ring

omit [LinearOrder W] in
theorem value_keepOdd (n : ℕ) (a : W) :
    value σ (keepOdd (replicate n a)) = value σ (replicate n a) := by
  have hsplit : (n : R) = ((n % 2 : ℕ) : R) := by
    have hdiv : ((n % 2 + 2 * (n / 2) : ℕ) : R) = (n : R) := by rw [Nat.mod_add_div]
    have htwo : (2 : R) = 0 := CharTwo.two_eq_zero
    rw [Nat.cast_add,Nat.cast_mul,Nat.cast_ofNat,htwo,zero_mul,add_zero] at hdiv
    exact hdiv.symm
  rw [keepOdd_replicate,value,value,map_replicate,map_replicate,sum_replicate,
    sum_replicate,nsmul_eq_mul,nsmul_eq_mul,←hsplit]

theorem value_cancelled (ws : List W) : value σ (cancelled ws) = value σ ws := by
  have hperm : value σ (ws.mergeSort (· ≤ ·)) = value σ ws :=
    ((mergeSort_perm ws (· ≤ ·)).map σ).sum_eq
  rw [cancelled]
  cases hdup : hasDuplicate (ws.mergeSort (· ≤ ·)) with
  | false => exact hperm
  | true =>
    have hgroups : ∀ groups : List (List W),
        (∀ g ∈ groups, ∃ a, g = replicate g.length a) →
          value σ (groups.flatMap keepOdd) = value σ groups.flatten := by
      intro groups
      induction groups with
      | nil => exact fun _ => rfl
      | cons g rest ih =>
        intro hconst
        obtain ⟨a,ha⟩ := hconst g mem_cons_self
        have hrest := ih fun h hh => hconst h (mem_cons_of_mem _ hh)
        have hone : value σ (keepOdd g) = value σ g := by
          rw [ha]
          exact value_keepOdd σ _ a
        simp only [value] at hone hrest ⊢
        rw [flatMap_cons,flatten_cons,map_append,map_append,sum_append,
          sum_append,hone,hrest]
    have hflat := hgroups ((ws.mergeSort (· ≤ ·)).splitBy (· == ·)) fun g hg =>
      group_eq_replicate hg
    rw [flatten_splitBy] at hflat
    exact hflat.trans hperm

theorem hasDuplicate_of_ordered (h : Ordered ws) : hasDuplicate ws = false := by
  induction ws with
  | nil => rfl
  | cons a rest ih =>
    cases rest with
    | nil => rfl
    | cons b more =>
      obtain ⟨hhead,htail⟩ := pairwise_cons.mp h
      have hne : a ≠ b := (hhead b mem_cons_self).ne
      have hrest := ih htail
      simp only [hasDuplicate,tail_cons,zip_cons_cons,any_cons] at hrest ⊢
      rw [hrest,decide_eq_false hne]
      rfl

theorem cancelled_of_ordered (h : Ordered ws) : cancelled ws = ws := by
  have hsorted : ws.mergeSort (· ≤ ·) = ws :=
    mergeSort_of_pairwise (h.imp fun hlt => decide_eq_true hlt.le)
  rw [cancelled,hsorted]
  simp only [hasDuplicate_of_ordered h,Bool.false_eq_true,if_false]

theorem value_merge (ls rs : List W) : value σ (merge ls rs).1 = value σ ls + value σ rs := by
  fun_induction merge ls rs with
  | case1 => simp
  | case2 l ls dst additions removals heq ih =>
    rw [heq] at ih
    simp only [value_cons,ih,value_nil,add_zero]
  | case3 r rs dst additions removals heq ih =>
    rw [heq] at ih
    simp only [value_cons,ih,value_nil,zero_add]
  | case4 l ls r rs hcmp dst additions removals heq ih =>
    obtain rfl : l = r := compare_eq_iff_eq.mp hcmp
    rw [heq] at ih
    simp only [value_cons,ih]
    have htwo : σ l + σ l = 0 := CharTwo.add_self_eq_zero _
    linear_combination -htwo
  | case5 l ls r rs hcmp dst additions removals heq ih =>
    rw [heq] at ih
    simp only [value_cons,ih]
    ring
  | case6 l ls r rs hcmp dst additions removals heq ih =>
    rw [heq] at ih
    simp only [value_cons,ih]
    ring

end Value

end Binius64.ParityList
