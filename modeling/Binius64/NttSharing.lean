import Mathlib.Order.BourbakiWitt
import Binius64.NttNetworks
import Mathlib.Algebra.Module.LinearMap.Defs
import Mathlib.Algebra.Module.Pi
import Mathlib.Algebra.Field.ZMod
import Mathlib.Tactic.IntervalCases

/-!
# Shared layers

The passes of the multi-threaded network.
-/

namespace Binius64.Ntt

open CheckedRun Footprints ButterflyNetwork
open List (foldl_cons map_map mem_cons mem_map mem_range nodup_range product range zip_map')
open Nat (div_eq_of_lt mod_lt mul_add_div shiftLeft_eq)

variable {F : Type} [Field F] {τ : ℕ → F} {s w : ℕ}

def Task.cells (w : ℕ) (task : Task F) : Set ℕ := {i | ∃ slice ∈ task.slices, i ∈ slice.cells w}

/-- The tasks own different scalars and each reads and writes its own ones only. -/
def Separate (w : ℕ) (tasks : List (Task F)) : Prop :=
  (tasks.Pairwise fun t u => Disjoint (t.cells w) (u.cells w)) ∧
    ∀ t ∈ tasks, ∃ f, (∀ data, t.run data = .ok (f data)) ∧ Local f (t.cells w)

/-- Each task performs the transformation on the scalars that it owns, and they own all of them. -/
structure Share (w : ℕ) (tasks : List (Task F)) (G : Memory F → Memory F) (R : Set ℕ) : Prop where
  performs : ∀ t ∈ tasks, Performs t.run G (t.cells w)
  closed : ∀ t ∈ tasks, Closed G (t.cells w)
  disjoint : tasks.Pairwise fun t u => Disjoint (t.cells w) (u.cells w)
  cover : {i | ∃ t ∈ tasks, i ∈ t.cells w} = R

section Shares

omit [Field F]

variable {tasks : List (Task F)} {G : Memory F → Memory F} {R : Set ℕ}

theorem Share.separate (h : Share w tasks G R) : Separate w tasks := by
  refine ⟨h.disjoint,fun t ht => ?_⟩
  obtain ⟨f,hrun,hf⟩ := h.performs t ht
  exact ⟨f,hrun,hf.local (h.closed t ht)⟩

theorem Share.forEach_performs (h : Share w tasks G R) (schedule : Schedule) (pass : ℕ) :
    Performs (forEach schedule pass tasks) G R := by
  have hperm := schedule.perm pass tasks
  let f := fun (t : Task F) (data : Memory F) => match t.run data with
    | .ok data => data
    | .error _ => data
  have hf : ∀ t ∈ tasks, (∀ data, t.run data = .ok (f t data)) ∧ Computes (f t) G (t.cells w) := by
    intro t ht
    obtain ⟨g,hrun,hg⟩ := h.performs t ht
    have hfg : f t = g := by
      funext data
      simp only [f,hrun]
    rw [hfg]
    exact ⟨hrun,hg⟩
  have hloop := Computes.foldl_perm (F := f) (fun t => t.cells w) hperm (fun t ht => (hf t ht).2)
    h.closed h.disjoint
  rw [h.cover] at hloop
  refine ⟨_,fun data => ?_,hloop⟩
  have hrun : ∀ t ∈ schedule.order pass tasks, ∀ data, t.run data = .ok (f t data) :=
    fun t ht => (hf t (hperm.mem_iff.mp ht)).1
  rw [forEach]
  generalize schedule.order pass tasks = ts at hrun
  induction ts generalizing data with
  | nil => rfl
  | cons t ts ih =>
    rw [List.foldlM_cons,hrun t List.mem_cons_self]
    exact ih (f t data) fun u hu => hrun u (List.mem_cons_of_mem _ hu)

theorem Share.of_key {κ : Type} {ks : List κ} (task : κ → Task F) (key : ℕ → κ) (hn : ks.Nodup)
    (hcells : ∀ k ∈ ks, (task k).cells w = {i | i ∈ R ∧ key i = k})
    (hperf : ∀ k ∈ ks, Performs (task k).run G ((task k).cells w))
    (hclosed : ∀ k ∈ ks, Closed G ((task k).cells w)) (hall : ∀ i ∈ R, key i ∈ ks) :
    Share w (ks.map task) G R := by
  refine ⟨fun t ht => ?_,fun t ht => ?_,?_,?_⟩
  · obtain ⟨k,hk,rfl⟩ := mem_map.mp ht
    exact hperf k hk
  · obtain ⟨k,hk,rfl⟩ := mem_map.mp ht
    exact hclosed k hk
  · refine List.pairwise_map.mpr (hn.imp_of_mem fun {k l} hk hl hne => ?_)
    rw [hcells k hk,hcells l hl,Set.disjoint_left]
    exact fun i hik hil => hne (hik.2.symm.trans hil.2)
  · ext i
    constructor
    · intro hi
      obtain ⟨t,ht,hi⟩ := hi
      obtain ⟨k,hk,rfl⟩ := mem_map.mp ht
      rw [hcells k hk] at hi
      exact hi.1
    · intro hi
      have hk := hall i hi
      refine ⟨task (key i),List.mem_map_of_mem hk,?_⟩
      rw [hcells _ hk]
      exact ⟨hi,rfl⟩

end Shares

theorem or_one (m : ℕ) : m ||| 1 = m / 2 * 2 + 1 := by
  have hhigh : (m ||| 1) / 2 = m / 2 := by
    rw [Nat.or_div_two]
    exact Nat.or_zero _
  have hlow : (m ||| 1) % 2 = 1 := Nat.or_mod_two_eq_one.mpr (Or.inr rfl)
  rw [←Nat.div_add_mod' (m ||| 1) 2,hhigh,hlow]

theorem withMiddleBit_eq (k : ℕ) {shift : ℕ} (h : 1 ≤ shift) : withMiddleBit k shift =
    .ok ((k / 2 ^ shift * 2) * 2 ^ shift + k % 2 ^ shift,
      (k / 2 ^ shift * 2 + 1) * 2 ^ shift + k % 2 ^ shift) := by
  have hmask : k &&& ((1 <<< shift) - 1) = k % 2 ^ shift := by
    rw [shiftLeft_eq,one_mul,Nat.and_two_pow_sub_one_eq_mod]
  have hlow : k % 2 ^ shift < 2 ^ shift := mod_lt _ (Nat.two_pow_pos _)
  have hhalf : k >>> (shift - 1) / 2 = k / 2 ^ shift := by
    rw [Nat.shiftRight_eq_div_pow,←div_pow_succ,Nat.sub_add_cancel h]
  have hzero : (k >>> (shift - 1)) >>> 1 <<< 1 = k / 2 ^ shift * 2 := by
    rw [Nat.shiftRight_eq_div_pow _ 1,pow_one,hhalf,shiftLeft_eq,pow_one]
  have hone : k >>> (shift - 1) ||| 1 = k / 2 ^ shift * 2 + 1 := by rw [or_one,hhalf]
  rw [withMiddleBit,require_true h,hmask]
  simp only [hzero,hone]
  rw [Nat.or_comm,shiftLeft_or hlow,Nat.or_comm,shiftLeft_or hlow]
  rfl

def layerTask (domainContext : DomainContext F) (w m e layer k : ℕ) : Task F :=
  let slice0 := blockSlice w m ((k / 2 ^ e * 2) * 2 ^ e + k % 2 ^ e)
  let slice1 := blockSlice w m ((k / 2 ^ e * 2 + 1) * 2 ^ e + k % 2 ^ e)
  ⟨[slice0,slice1],fun data => .ok (
    if k / 2 ^ e ≠ 0 then
      butterflyZip w (.broadcast (domainContext.twiddle layer (k / 2 ^ e))) slice0 slice1 data
    else addZip w slice0 slice1 data)⟩

variable (domainContext : DomainContext F) {logD logNumShares firstLayer skipEarly skipLate : ℕ}

theorem sharedLayerTask_eq {m e layer : ℕ} (hw : w ≤ m) (he : 1 ≤ e)
    (k : ℕ) : sharedLayerTask domainContext w (wholeSlice w (m + (layer + e + 1)))
      (m + (layer + e + 1)) layer (layer + e) k = .ok (layerTask domainContext w m e layer k) := by
  have hshift : layer + e - layer = e := by omega
  have hchunk : m + (layer + e + 1) - (layer + e + 1) = m := by omega
  have hblock : layer + e + 1 - layer = e + 1 := by omega
  have hlow : k % 2 ^ e < 2 ^ e := mod_lt _ (Nat.two_pow_pos _)
  have hfactor : ((k / 2 ^ e * 2) * 2 ^ e + k % 2 ^ e) >>> (e + 1) = k / 2 ^ e := by
    rw [Nat.shiftRight_eq_div_pow,div_pow_succ,mul_comm,mul_add_div (Nat.two_pow_pos e),
      div_eq_of_lt hlow,add_zero,Nat.mul_div_cancel _ Nat.two_pos]
  rw [sharedLayerTask,hshift,withMiddleBit_eq k he,hchunk,hblock]
  simp only [require_true hw,wholeSlice,Nat.zero_add,shiftLeft_eq,one_mul]
  exact congrArg Except.ok (by rw [layerTask,hfactor]; rfl)

omit [Field F] in
theorem stripe_cells {m e n h k : ℕ} (hw : w ≤ m) (hk : k < 2 ^ e) {task : Task F}
    (hslices : task.slices = (range (2 ^ n)).map fun j =>
      blockSlice w m ((h * 2 ^ n + j) * 2 ^ e + k)) : task.cells w = stripe m e n h k := by
  ext i
  rw [mem_stripe hk,Task.cells,hslices]
  constructor
  · intro hi
    obtain ⟨slice,hslice,hi⟩ := hi
    obtain ⟨j,hj,rfl⟩ := mem_map.mp hslice
    rw [blockSlice_cells hw] at hi
    exact ⟨j,mem_range.mp hj,hi⟩
  · intro hi
    obtain ⟨j,hj,hi⟩ := hi
    rw [←blockSlice_cells hw] at hi
    exact ⟨_,List.mem_map_of_mem (mem_range.mpr hj),hi⟩

theorem layerTask_cells {m e layer : ℕ} (hw : w ≤ m) (k : ℕ) :
    (layerTask domainContext w m e layer k).cells w = stripe m e 1 (k / 2 ^ e) (k % 2 ^ e) := by
  refine stripe_cells hw (mod_lt _ (Nat.two_pow_pos e)) ?_
  rfl

theorem layerTask_performs {m e layer k : ℕ} (hw : w ≤ m)
    (hdomain : layer < domainContext.logDomainSize) :
    Performs (layerTask domainContext w m e layer k).run
      (butterfly (domainContext.twiddle layer) (m + e))
      ((layerTask domainContext w m e layer k).cells w) := by
  generalize hb : k / 2 ^ e = b
  generalize hl : k % 2 ^ e = l
  have hlt : l < 2 ^ e := by
    rw [←hl]
    exact mod_lt _ (Nat.two_pow_pos e)
  have hstride : m + e - w = (m - w) + e := by omega
  have hfirst : (⟨((b * 2) * 2 ^ e + l) * 2 ^ (m - w),2 ^ (m - w)⟩ : Slice) =
      blockSlice w m ((b * 2) * 2 ^ e + l) := rfl
  have hsecond : (⟨((b * 2) * 2 ^ e + l) * 2 ^ (m - w) + 2 ^ (m + e - w),2 ^ (m - w)⟩ : Slice) =
      blockSlice w m ((b * 2 + 1) * 2 ^ e + l) := by
    rw [blockSlice,hstride,pow_add]
    congr 1
    ring
  have hbit : ∀ j < 2 ^ (m - w),
      (((b * 2) * 2 ^ e + l) * 2 ^ (m - w) + j) / 2 ^ (m + e - w) = 2 * b := by
    intro j hj
    rw [hstride,div_pow_add,mul_comm _ (2 ^ (m - w)),mul_add_div (Nat.two_pow_pos _),
      div_eq_of_lt hj,add_zero,mul_comm _ (2 ^ e),mul_add_div (Nat.two_pow_pos e),
      div_eq_of_lt hlt,add_zero,mul_comm]
  have hlayer := sliceLayer_computes (τ := domainContext.twiddle layer)
    (a := ((b * 2) * 2 ^ e + l) * 2 ^ (m - w)) (by omega) hbit
  rw [hsecond,hfirst] at hlayer
  have hcells : (layerTask domainContext w m e layer k).cells w =
      (blockSlice w m ((b * 2) * 2 ^ e + l)).cells w ∪
        (blockSlice w m ((b * 2 + 1) * 2 ^ e + l)).cells w := by
    ext i
    simp only [Task.cells,layerTask,hb,hl,mem_cons,List.not_mem_nil,or_false,
      exists_eq_or_imp,exists_eq_left]
    rfl
  rw [hcells]
  by_cases hzero : b = 0
  · refine Performs.of_eq (Performs.of_computes (hlayer.2 ?_)) fun data => ?_
    · rw [hzero]
      exact domainContext.twiddle_zero hdomain
    · simp only [layerTask,hb,hl,ne_eq,hzero,not_true,if_false]
  · refine Performs.of_eq (Performs.of_computes hlayer.1) fun data => ?_
    simp only [layerTask,hb,hl,ne_eq,hzero,not_false_eq_true,if_true]

theorem stripe_eq_key {m e n a h k : ℕ} (hh : h < 2 ^ a) : stripe m e n h k =
    {i | i ∈ block (m + (e + n) + a) 0 ∧ (i / 2 ^ m / 2 ^ (e + n),i / 2 ^ m % 2 ^ e) = (h,k)} := by
  ext i
  rw [stripe,block,Set.mem_ofPred_eq,Set.mem_ofPred_eq,Set.mem_ofPred_eq,Prod.mk.injEq]
  constructor
  · intro hi
    refine ⟨?_,hi⟩
    rw [div_pow_add,div_pow_add,hi.1]
    exact div_eq_of_lt hh
  · exact fun hi => hi.2

theorem key_lt {m e n a i : ℕ} (hi : i ∈ block (m + (e + n) + a) 0) :
    i / 2 ^ m / 2 ^ (e + n) < 2 ^ a := by
  rw [block,Set.mem_ofPred_eq,div_pow_add,div_pow_add] at hi
  exact (Nat.div_eq_zero_iff_lt (Nat.two_pow_pos a)).mp hi

theorem sharedLayerTasks_share (layer : ℕ)
    (hshares : logNumShares + 1 + w ≤ logD) (hlayer : layer < logNumShares)
    (hdomain : layer < domainContext.logDomainSize) :
    ∃ tasks, sharedLayerTasks domainContext w (wholeSlice w logD) logD layer logNumShares = .ok tasks ∧
      Share w tasks (butterfly (domainContext.twiddle layer) (logD - 1 - layer)) (block logD 0) := by
  obtain ⟨e,he⟩ : ∃ e, logNumShares = layer + (e + 1) := ⟨logNumShares - layer - 1,by omega⟩
  subst he
  obtain ⟨m,hm⟩ : ∃ m, logD = m + (layer + (e + 1) + 1) := ⟨logD - (layer + (e + 1) + 1),by omega⟩
  subst hm
  have hw : w ≤ m := by omega
  have hbit : m + (layer + (e + 1) + 1) - 1 - layer = m + (e + 1) := by omega
  have hlog : m + (layer + (e + 1) + 1) = m + ((e + 1) + 1) + layer := by omega
  have hlen : (wholeSlice w (m + (layer + (e + 1) + 1))).len * (1 <<< w) =
      1 <<< (m + (layer + (e + 1) + 1)) := by
    simp only [wholeSlice,shiftLeft_eq,one_mul]
    rw [←pow_add,Nat.sub_add_cancel (by omega)]
  have hfit : 1 <<< (layer + (e + 1) + 1) ≤ (wholeSlice w (m + (layer + (e + 1) + 1))).len := by
    simp only [wholeSlice,shiftLeft_eq,one_mul]
    exact Nat.pow_le_pow_right Nat.two_pos (by omega)
  have htasks : (range (1 <<< (layer + (e + 1)))).mapM
      (sharedLayerTask domainContext w (wholeSlice w (m + (layer + (e + 1) + 1)))
        (m + (layer + (e + 1) + 1)) layer (layer + (e + 1))) =
          .ok ((range (1 <<< (layer + (e + 1)))).map (layerTask domainContext w m (e + 1) layer)) :=
    mapM_eq_map fun k _ => sharedLayerTask_eq domainContext hw (Nat.le_add_left 1 e) k
  refine ⟨(range (1 <<< (layer + (e + 1)))).map (layerTask domainContext w m (e + 1) layer),?_,?_⟩
  · rw [sharedLayerTasks,require_true hlen,require_true hfit,require_true hdomain]
    exact htasks
  · have hsplit : ∀ i, i / 2 ^ m / 2 ^ ((e + 1) + 1) * 2 ^ (e + 1) + i / 2 ^ m % 2 ^ (e + 1) <
        2 ^ (layer + (e + 1)) ↔ i / 2 ^ m / 2 ^ ((e + 1) + 1) < 2 ^ layer := by
      intro i
      have hlow : i / 2 ^ m % 2 ^ (e + 1) < 2 ^ (e + 1) := mod_lt _ (Nat.two_pow_pos _)
      have hdiv : (i / 2 ^ m / 2 ^ ((e + 1) + 1) * 2 ^ (e + 1) + i / 2 ^ m % 2 ^ (e + 1)) / 2 ^ (e + 1) =
          i / 2 ^ m / 2 ^ ((e + 1) + 1) := by
        rw [mul_comm,mul_add_div (Nat.two_pow_pos _),div_eq_of_lt hlow,add_zero]
      rw [pow_add 2 layer,←Nat.div_lt_iff_lt_mul (Nat.two_pow_pos _),hdiv]
    rw [hbit]
    refine Share.of_key _ (fun i => i / 2 ^ m / 2 ^ ((e + 1) + 1) * 2 ^ (e + 1) + i / 2 ^ m % 2 ^ (e + 1))
      nodup_range (fun k hk => ?_) (fun k _ => layerTask_performs domainContext hw hdomain)
      (fun k _ => ?_) fun i hi => ?_
    · rw [mem_range,shiftLeft_eq,one_mul,pow_add 2 layer,
        ←Nat.div_lt_iff_lt_mul (Nat.two_pow_pos _)] at hk
      rw [layerTask_cells domainContext hw,stripe_eq_key hk,hlog]
      ext i
      have hlow : i / 2 ^ m % 2 ^ (e + 1) < 2 ^ (e + 1) := mod_lt _ (Nat.two_pow_pos _)
      rw [Set.mem_ofPred_eq,Set.mem_ofPred_eq,Prod.mk.injEq]
      refine and_congr_right fun _ => ⟨fun hkey => ?_,fun hkey => ?_⟩
      · rw [hkey.1,hkey.2,Nat.div_add_mod']
      · rw [←hkey]
        refine ⟨?_,?_⟩
        · rw [mul_comm,mul_add_div (Nat.two_pow_pos _),div_eq_of_lt hlow,add_zero]
        · rw [mul_comm,Nat.mul_add_mod,Nat.mod_eq_of_lt hlow]
    · rw [layerTask_cells domainContext hw]
      exact closed_stripe (le_refl _) (Nat.lt_succ_self _)
    · rw [mem_range,shiftLeft_eq,one_mul,hsplit]
      rw [hlog] at hi
      exact key_lt hi

theorem elementLayer_computes {d p b : ℕ} (hp : p / 2 ^ d = 2 * b) :
    Computes (butterflyAt w (.broadcast (τ b)) p (p + 2 ^ d)) (butterfly τ (w + d))
        (block w p ∪ block w (p + 2 ^ d)) ∧
      (τ b = 0 → Computes (addAt w p (p + 2 ^ d)) (butterfly τ (w + d))
        (block w p ∪ block w (p + 2 ^ d))) := by
  have hstride : w + d - w = d := Nat.add_sub_cancel_left w d
  have hbit : p / 2 ^ (w + d - w) % 2 = 0 := by
    rw [hstride,hp]
    exact Nat.mul_mod_right 2 b
  have hfactor : p / 2 ^ (w + d - w + 1) = b := by
    rw [hstride,div_pow_succ,hp,Nat.mul_div_cancel_left b Nat.two_pos]
  have hmul := butterflyAt_computes (τ := τ) (Nat.le_add_right w d) hbit
  have hadd := addAt_computes (τ := τ) (Nat.le_add_right w d) hbit
  rw [hfactor,hstride] at hmul hadd
  exact ⟨hmul,hadd⟩

def planeElement (P h o j : ℕ) : ℕ := (h * 2 ^ 2 + j) * 2 ^ P + o

theorem planeElement_div {P h o j : ℕ} (ho : o < 2 ^ P) : planeElement P h o j / 2 ^ P = h * 2 ^ 2 + j := by
  rw [planeElement,mul_comm,mul_add_div (Nat.two_pow_pos P),div_eq_of_lt ho,add_zero]

theorem planeElement_add (P h o j : ℕ) : planeElement P h o (j + 1) = planeElement P h o j + 2 ^ P := by
  rw [planeElement,planeElement]
  ring

theorem planeElement_add_two (P h o j : ℕ) :
    planeElement P h o (j + 2) = planeElement P h o j + 2 ^ (P + 1) := by
  rw [planeElement,planeElement]
  ring

theorem stripe_planes {P h o : ℕ} (ho : o < 2 ^ P) :
    (block w (planeElement P h o 0) ∪ block w (planeElement P h o 2)) ∪
        (block w (planeElement P h o 1) ∪ block w (planeElement P h o 3)) = stripe w P 2 h o ∧
      (block w (planeElement P h o 0) ∪ block w (planeElement P h o 1)) ∪
        (block w (planeElement P h o 2) ∪ block w (planeElement P h o 3)) = stripe w P 2 h o := by
  have hmem : ∀ i, i ∈ stripe w P 2 h o ↔ i ∈ block w (planeElement P h o 0) ∨
      i ∈ block w (planeElement P h o 1) ∨ i ∈ block w (planeElement P h o 2) ∨
        i ∈ block w (planeElement P h o 3) := by
    intro i
    rw [mem_stripe ho]
    constructor
    · intro hi
      obtain ⟨j,hj,hi⟩ := hi
      have hj' : j < 4 := hj
      interval_cases j
      · exact Or.inl hi
      · exact Or.inr (Or.inl hi)
      · exact Or.inr (Or.inr (Or.inl hi))
      · exact Or.inr (Or.inr (Or.inr hi))
    · intro hi
      rcases hi with hi | hi | hi | hi
      · exact ⟨0,by decide,hi⟩
      · exact ⟨1,by decide,hi⟩
      · exact ⟨2,by decide,hi⟩
      · exact ⟨3,by decide,hi⟩
  refine ⟨?_,?_⟩
  · ext i
    rw [hmem]
    simp only [Set.mem_union]
    tauto
  · ext i
    rw [hmem]
    simp only [Set.mem_union]
    tauto

theorem planeElement_disjoint {P h o j k : ℕ} (ho : o < 2 ^ P) (hjk : j ≠ k) :
    Disjoint (block w (planeElement P h o j)) (block w (planeElement P h o k)) := by
  refine block_disjoint fun heq => hjk ?_
  have hdiv := congrArg (· / 2 ^ P) heq
  simp only [planeElement_div ho] at hdiv
  omega

theorem planeLayers_computes {τ' : ℕ → F} {P h o : ℕ} (ho : o < 2 ^ P)
    {f02 f13 f01 f23 : Memory F → Memory F}
    (h02 : Computes f02 (butterfly τ (w + (P + 1)))
      (block w (planeElement P h o 0) ∪ block w (planeElement P h o 2)))
    (h13 : Computes f13 (butterfly τ (w + (P + 1)))
      (block w (planeElement P h o 1) ∪ block w (planeElement P h o 3)))
    (h01 : Computes f01 (butterfly τ' (w + P))
      (block w (planeElement P h o 0) ∪ block w (planeElement P h o 1)))
    (h23 : Computes f23 (butterfly τ' (w + P))
      (block w (planeElement P h o 2) ∪ block w (planeElement P h o 3))) :
    Computes (fun data => f23 (f01 (f13 (f02 data))))
      (fun x => butterfly τ' (w + P) (butterfly τ (w + (P + 1)) x)) (stripe w P 2 h o) := by
  have hpair : ∀ {σ : ℕ → F} {d j : ℕ}, planeElement P h o j / 2 ^ d % 2 = 0 →
      Closed (butterfly σ (w + d)) (block w (planeElement P h o j) ∪
        block w (planeElement P h o j + 2 ^ d)) := by
    intro σ d j hbit
    have hclosed := closed_pair (τ := σ) (s := w + d) (w := w) (p := planeElement P h o j)
    rw [Nat.add_sub_cancel_left] at hclosed
    exact hclosed (Nat.le_add_right w d) hbit
  have hdisj : ∀ {a b c d : ℕ}, a ≠ c → a ≠ d → b ≠ c → b ≠ d →
      Disjoint (block w (planeElement P h o a) ∪ block w (planeElement P h o b))
        (block w (planeElement P h o c) ∪ block w (planeElement P h o d)) := by
    intro a b c d hac had hbc hbd
    exact Set.disjoint_union_left.mpr
      ⟨Set.disjoint_union_right.mpr ⟨planeElement_disjoint ho hac,planeElement_disjoint ho had⟩,
        Set.disjoint_union_right.mpr ⟨planeElement_disjoint ho hbc,planeElement_disjoint ho hbd⟩⟩
  obtain ⟨hcross,hside⟩ := stripe_planes (w := w) (h := h) ho
  have hclosed13 : Closed (butterfly τ (w + (P + 1)))
      (block w (planeElement P h o 1) ∪ block w (planeElement P h o 3)) := by
    have hbit : planeElement P h o 1 / 2 ^ (P + 1) % 2 = 0 := by
      rw [div_pow_succ,planeElement_div ho]
      omega
    have hc := hpair (σ := τ) hbit
    rw [←planeElement_add_two] at hc
    exact hc
  have hclosed23 : Closed (butterfly τ' (w + P))
      (block w (planeElement P h o 2) ∪ block w (planeElement P h o 3)) := by
    have hbit : planeElement P h o 2 / 2 ^ P % 2 = 0 := by
      rw [planeElement_div ho]
      omega
    have hc := hpair (σ := τ') hbit
    rw [←planeElement_add] at hc
    exact hc
  have hfirst := h02.union h13 (hdisj (by decide) (by decide) (by decide) (by decide)) hclosed13
  have hsecond := h01.union h23 (hdisj (by decide) (by decide) (by decide) (by decide)) hclosed23
  rw [hcross] at hfirst
  rw [hside] at hsecond
  exact hfirst.comp hsecond (closed_stripe (le_refl _) (by omega))

def blockRuns (w m e h k : ℕ) : Slice × Slice × Slice × Slice :=
  (blockSlice w m (planeElement e h k 0),blockSlice w m (planeElement e h k 1),
    blockSlice w m (planeElement e h k 2),blockSlice w m (planeElement e h k 3))

theorem izip_blockRuns (w r e h k : ℕ) : izip (blockRuns w (w + r) e h k) =
    (range (2 ^ r)).map fun i =>
      (planeElement (e + r) h (k * 2 ^ r + i) 0,planeElement (e + r) h (k * 2 ^ r + i) 1,
        planeElement (e + r) h (k * 2 ^ r + i) 2,planeElement (e + r) h (k * 2 ^ r + i) 3) := by
  have hpos : ∀ j, (blockSlice w (w + r) (planeElement e h k j)).positions =
      (range (2 ^ r)).map fun i => planeElement (e + r) h (k * 2 ^ r + i) j := by
    intro j
    have hlen : w + r - w = r := Nat.add_sub_cancel_left w r
    rw [blockSlice,Slice.positions,hlen,List.range'_eq_map_range]
    refine List.map_congr_left fun i _ => ?_
    rw [planeElement,planeElement]
    ring
  rw [izip,blockRuns]
  simp only [hpos]
  rw [zip_map',zip_map',zip_map']

theorem runs_computes {τ' : ℕ → F} {r e h k : ℕ} (op : ℕ × ℕ × ℕ × ℕ → Memory F → Memory F)
    (hk : k < 2 ^ e)
    (hop : ∀ o < 2 ^ (e + r), Computes
      (op (planeElement (e + r) h o 0,planeElement (e + r) h o 1,planeElement (e + r) h o 2,
        planeElement (e + r) h o 3))
      (fun x => butterfly τ' (w + (e + r)) (butterfly τ (w + (e + r + 1)) x)) (stripe w (e + r) 2 h o)) :
    Computes (fun data => (izip (blockRuns w (w + r) e h k)).foldl (fun data x => op x data) data)
      (fun x => butterfly τ' (w + (e + r)) (butterfly τ (w + (e + r + 1)) x))
      (stripe (w + r) e 2 h k) := by
  have hoffset : ∀ i < 2 ^ r, k * 2 ^ r + i < 2 ^ (e + r) := by
    intro i hi
    have hnext := Nat.mul_le_mul_right (2 ^ r) hk
    rw [←pow_add,Nat.succ_mul] at hnext
    omega
  have hcells : ∀ i < 2 ^ r, {x | x ∈ stripe (w + r) e 2 h k ∧ x / 2 ^ w % 2 ^ r = i} =
      stripe w (e + r) 2 h (k * 2 ^ r + i) := by
    intro i hi
    ext x
    have hhigh : x / 2 ^ (w + r) / 2 ^ (e + 2) = x / 2 ^ w / 2 ^ (e + r + 2) := by
      rw [div_pow_add x w r,←div_pow_add,←add_assoc,add_comm r e]
    have hmid : x / 2 ^ (w + r) % 2 ^ e = x / 2 ^ w % 2 ^ (e + r) / 2 ^ r := by
      rw [div_pow_add x w r,add_comm e r,pow_add 2 r e,Nat.mod_mul_right_div_self]
    have hlow : x / 2 ^ w % 2 ^ r = x / 2 ^ w % 2 ^ (e + r) % 2 ^ r := by
      rw [Nat.mod_mod_of_dvd _ (pow_dvd_pow 2 (Nat.le_add_left r e))]
    rw [Set.mem_ofPred_eq,stripe,stripe,Set.mem_ofPred_eq,Set.mem_ofPred_eq,hhigh,hmid,hlow]
    generalize x / 2 ^ w % 2 ^ (e + r) = y
    constructor
    · intro hx
      refine ⟨hx.1.1,?_⟩
      rw [←hx.1.2,←hx.2,Nat.div_add_mod']
    · intro hx
      obtain ⟨hx,hy⟩ := hx
      rw [hy,mul_comm,mul_add_div (Nat.two_pow_pos r),div_eq_of_lt hi,add_zero,Nat.mul_add_mod,
        Nat.mod_eq_of_lt hi]
      exact ⟨⟨hx,rfl⟩,rfl⟩
  have hsame : (fun data : Memory F => (izip (blockRuns w (w + r) e h k)).foldl
      (fun data x => op x data) data) = fun data => (range (2 ^ r)).foldl (fun data i =>
        op (planeElement (e + r) h (k * 2 ^ r + i) 0,planeElement (e + r) h (k * 2 ^ r + i) 1,
          planeElement (e + r) h (k * 2 ^ r + i) 2,planeElement (e + r) h (k * 2 ^ r + i) 3) data) data := by
    funext data
    rw [izip_blockRuns,List.foldl_map]
  rw [hsame]
  refine Computes.foldl_key _ (fun x => x / 2 ^ w % 2 ^ r) nodup_range (fun i hi => ?_)
    (fun i hi => ?_) fun x _ => mem_range.mpr (mod_lt _ (Nat.two_pow_pos r))
  · have hi' := mem_range.mp hi
    rw [hcells i hi']
    exact hop _ (hoffset i hi')
  · rw [hcells i (mem_range.mp hi)]
    exact Closed.comp (closed_stripe (by omega) (by omega)) (closed_stripe (by omega) (by omega))

theorem sharedPairTask_performs {r e h k : ℕ}
    (hk : k < 2 ^ e) (hdomain : firstLayer + 2 ≤ domainContext.logDomainSize) :
    Performs (sharedPairTask domainContext w firstLayer h (blockRuns w (w + r) e h k)).run
      (fun x => butterfly (domainContext.twiddle (firstLayer + 1)) (w + (e + r))
        (butterfly (domainContext.twiddle firstLayer) (w + (e + r + 1)) x))
      (stripe (w + r) e 2 h k) := by
  have heven : h <<< 1 = 2 * h := by rw [shiftLeft_eq,pow_one,mul_comm]
  have hodd : (h <<< 1) ||| 1 = 2 * h + 1 := by
    rw [shiftLeft_or (by decide : 1 < 2 ^ 1),pow_one,mul_comm]
  have hfirst : ∀ {o : ℕ}, o < 2 ^ (e + r) → ∀ {j : ℕ}, j < 2 →
      planeElement (e + r) h o j / 2 ^ (e + r + 1) = 2 * h := by
    intro o ho j hj
    rw [div_pow_succ,planeElement_div ho]
    omega
  have hlower : ∀ {o : ℕ}, o < 2 ^ (e + r) →
      planeElement (e + r) h o 0 / 2 ^ (e + r) = 2 * (2 * h) := by
    intro o ho
    rw [planeElement_div ho]
    omega
  have hupper : ∀ {o : ℕ}, o < 2 ^ (e + r) →
      planeElement (e + r) h o 2 / 2 ^ (e + r) = 2 * (2 * h + 1) := by
    intro o ho
    rw [planeElement_div ho]
    omega
  by_cases hzero : h = 0
  · have hfactor : domainContext.twiddle firstLayer h = 0 := by
      rw [hzero]
      exact domainContext.twiddle_zero (by omega)
    have hfactor' : domainContext.twiddle (firstLayer + 1) (2 * h) = 0 := by
      rw [hzero]
      exact domainContext.twiddle_zero (by omega)
    refine Performs.of_eq (Performs.of_computes (runs_computes
      (fun x data => butterflyAt w (.broadcast (domainContext.twiddle (firstLayer + 1) (2 * h + 1)))
        x.2.2.1 x.2.2.2 (addAt w x.1 x.2.1 (addAt w x.2.1 x.2.2.2 (addAt w x.1 x.2.2.1 data)))) hk
      fun o ho => ?_)) fun data => ?_
    · have h02 := (elementLayer_computes (w := w) (hfirst ho (by decide : 0 < 2))).2 hfactor
      have h13 := (elementLayer_computes (w := w) (hfirst ho (by decide : 1 < 2))).2 hfactor
      have h01 := (elementLayer_computes (w := w) (hlower ho)).2 hfactor'
      have h23 := (elementLayer_computes (τ := domainContext.twiddle (firstLayer + 1)) (w := w)
        (hupper ho)).1
      rw [←planeElement_add_two] at h02 h13
      rw [←planeElement_add] at h01 h23
      exact planeLayers_computes ho h02 h13 h01 h23
    · simp only [sharedPairTask,if_pos hzero,hodd]
      rfl
  · refine Performs.of_eq (Performs.of_computes (runs_computes
      (fun x data => butterflyAt w (.broadcast (domainContext.twiddle (firstLayer + 1) (2 * h + 1)))
        x.2.2.1 x.2.2.2 (butterflyAt w (.broadcast (domainContext.twiddle (firstLayer + 1) (2 * h)))
          x.1 x.2.1 (butterflyAt w (.broadcast (domainContext.twiddle firstLayer h)) x.2.1 x.2.2.2
            (butterflyAt w (.broadcast (domainContext.twiddle firstLayer h)) x.1 x.2.2.1 data)))) hk
      fun o ho => ?_)) fun data => ?_
    · have h02 := (elementLayer_computes (τ := domainContext.twiddle firstLayer) (w := w)
        (hfirst ho (by decide : 0 < 2))).1
      have h13 := (elementLayer_computes (τ := domainContext.twiddle firstLayer) (w := w)
        (hfirst ho (by decide : 1 < 2))).1
      have h01 := (elementLayer_computes (τ := domainContext.twiddle (firstLayer + 1)) (w := w)
        (hlower ho)).1
      have h23 := (elementLayer_computes (τ := domainContext.twiddle (firstLayer + 1)) (w := w)
        (hupper ho)).1
      rw [←planeElement_add_two] at h02 h13
      rw [←planeElement_add] at h01 h23
      exact planeLayers_computes ho h02 h13 h01 h23
    · simp only [sharedPairTask,if_neg hzero]
      rw [hodd,heven]
      rfl

theorem planeRuns_blockSlice (w r e h : ℕ) :
    planeRuns (blockSlice w (w + r + e + 2) h) (1 <<< (r + e)) (1 <<< r) =
      (range (2 ^ e)).map (blockRuns w (w + r) e h) := by
  have hplane : w + r + e - w = r + e := by omega
  have hhalf : w + r + e + 1 - w = r + e + 1 := by omega
  have hdouble : (1 <<< (r + e)) <<< 1 = 1 <<< (w + r + e + 1 - w) := by
    rw [hhalf,←Nat.shiftLeft_add]
  have hhalves := blockSlice_splitAt (b := h) (by omega : w ≤ w + r + e + 1)
  have hlower := blockSlice_splitAt (b := 2 * h) (by omega : w ≤ w + r + e)
  have hupper := blockSlice_splitAt (b := 2 * h + 1) (by omega : w ≤ w + r + e)
  have hchunks : ∀ b, (blockSlice w (w + r + e) b).chunksExact (1 <<< r) =
      (range (2 ^ e)).map fun k => blockSlice w (w + r) (b * 2 ^ e + k) := by
    intro b
    have hrun := blockSlice_chunks (w := w) (d := e) (b := b) (Nat.le_add_right w r)
    rw [Nat.add_sub_cancel_left] at hrun
    rw [shiftLeft_eq,one_mul]
    exact hrun
  have hfirst : ∀ k, (2 * (2 * h)) * 2 ^ e + k = planeElement e h k 0 := by
    intro k
    rw [planeElement]
    ring
  have hsecond : ∀ k, (2 * (2 * h) + 1) * 2 ^ e + k = planeElement e h k 1 := by
    intro k
    rw [planeElement]
    ring
  have hthird : ∀ k, (2 * (2 * h + 1)) * 2 ^ e + k = planeElement e h k 2 := by
    intro k
    rw [planeElement]
    ring
  have hfourth : ∀ k, (2 * (2 * h + 1) + 1) * 2 ^ e + k = planeElement e h k 3 := by
    intro k
    rw [planeElement]
    ring
  rw [hplane] at hlower hupper
  rw [planeRuns,hdouble,hhalves]
  simp only [hlower,hupper,hchunks,hfirst,hsecond,hthird,hfourth]
  rw [zip_map',zip_map',zip_map']
  rfl

theorem sharedPairTask_cells {m e h k : ℕ} (hw : w ≤ m)
    (hk : k < 2 ^ e) :
    (sharedPairTask domainContext w firstLayer h (blockRuns w m e h k)).cells w = stripe m e 2 h k :=
  stripe_cells hw hk rfl

theorem zipIdx_flatMap {α β : Type} (f : ℕ → α) (g : α × ℕ → List β) (n : ℕ) :
    ((range n).map f).zipIdx.flatMap g = (range n).flatMap fun h => g (f h,h) := by
  have hzip : ((range n).map f).zipIdx = (range n).map fun h => (f h,h) := by
    refine List.ext_getElem ?_ fun i hi hi' => ?_
    · simp
    · simp
  rw [hzip,List.flatMap_map]

theorem sharedLayerPairTasks_share
    (hshares : firstLayer + 2 ≤ logNumShares)
    (hplane : firstLayer + 2 + w < logD) (hdomain : firstLayer + 2 ≤ domainContext.logDomainSize) :
    ∃ tasks, sharedLayerPairTasks domainContext w (wholeSlice w logD) logD firstLayer logNumShares =
        .ok tasks ∧
      Share w tasks (fun x => butterfly (domainContext.twiddle (firstLayer + 1)) (logD - 1 - (firstLayer + 1))
        (butterfly (domainContext.twiddle firstLayer) (logD - 1 - firstLayer) x)) (block logD 0) := by
  obtain ⟨P,hP⟩ : ∃ P, logD = w + P + 2 + firstLayer := ⟨logD - firstLayer - 2 - w,by omega⟩
  subst hP
  generalize hr : P - (logNumShares - firstLayer) = r
  obtain ⟨e,he⟩ : ∃ e, P = r + e := ⟨P - r,by omega⟩
  subst he
  have hlogPlane : w + (r + e) + 2 + firstLayer - firstLayer - 2 - w = r + e := by omega
  have hfirst : w + (r + e) + 2 + firstLayer - 1 - firstLayer = w + (e + r + 1) := by omega
  have hsecond : w + (r + e) + 2 + firstLayer - 1 - (firstLayer + 1) = w + (e + r) := by omega
  have hwidth : w + (r + e) + 2 + firstLayer - w = r + e + 2 + firstLayer := by omega
  have hlen : (wholeSlice w (w + (r + e) + 2 + firstLayer)).len <<< w =
      1 <<< (w + (r + e) + 2 + firstLayer) := by
    simp only [wholeSlice]
    rw [←Nat.shiftLeft_add,hwidth]
    congr 1
    omega
  have hchunks : (wholeSlice w (w + (r + e) + 2 + firstLayer)).chunksExact ((1 <<< (r + e)) <<< 2) =
      (range (2 ^ firstLayer)).map fun h => blockSlice w (w + r + e + 2) h := by
    have hwhole : wholeSlice w (w + (r + e) + 2 + firstLayer) =
        blockSlice w (w + r + e + 2 + firstLayer) 0 := by
      rw [wholeSlice,blockSlice,zero_mul,shiftLeft_eq,one_mul,add_assoc w r e]
    have hsize : (1 <<< (r + e)) <<< 2 = 2 ^ (w + r + e + 2 - w) := by
      rw [←Nat.shiftLeft_add,shiftLeft_eq,one_mul]
      congr 1
      omega
    rw [hwhole,hsize,blockSlice_chunks (by omega)]
    simp only [zero_mul,zero_add]
  let tasks := (product (range (2 ^ firstLayer)) (range (2 ^ e))).map fun hk =>
    sharedPairTask domainContext w firstLayer hk.1 (blockRuns w (w + r) e hk.1 hk.2)
  have htasks : sharedLayerPairTasks domainContext w (wholeSlice w (w + (r + e) + 2 + firstLayer))
      (w + (r + e) + 2 + firstLayer) firstLayer logNumShares = .ok tasks := by
    rw [sharedLayerPairTasks,require_true hlen,require_true hshares,require_true hplane,
      require_true hdomain]
    simp only [hlogPlane,hr,hchunks]
    rw [zipIdx_flatMap]
    simp only [planeRuns_blockSlice,map_map]
    refine congrArg Except.ok ?_
    simp only [tasks,product]
    rw [List.map_flatMap]
    simp only [map_map]
    rfl
  have hmem : ∀ {hk : ℕ × ℕ}, hk ∈ product (range (2 ^ firstLayer)) (range (2 ^ e)) →
      hk.1 < 2 ^ firstLayer ∧ hk.2 < 2 ^ e := by
    intro hk hin
    obtain ⟨hh,hk'⟩ := List.mem_product.mp hin
    exact ⟨mem_range.mp hh,mem_range.mp hk'⟩
  have hlog : w + (r + e) + 2 + firstLayer = w + r + (e + 2) + firstLayer := by omega
  refine ⟨tasks,htasks,?_⟩
  rw [hfirst,hsecond,hlog]
  refine Share.of_key _ (fun i => (i / 2 ^ (w + r) / 2 ^ (e + 2),i / 2 ^ (w + r) % 2 ^ e))
    (nodup_range.product nodup_range) (fun hk hin => ?_) (fun hk hin => ?_)
    (fun hk hin => ?_) fun i hi => ?_
  · rw [sharedPairTask_cells domainContext (Nat.le_add_right w r) (hmem hin).2]
    exact stripe_eq_key (hmem hin).1
  · rw [sharedPairTask_cells domainContext (Nat.le_add_right w r) (hmem hin).2]
    exact sharedPairTask_performs domainContext (hmem hin).2 hdomain
  · rw [sharedPairTask_cells domainContext (Nat.le_add_right w r) (hmem hin).2]
    exact Closed.comp (closed_stripe (by omega) (by omega)) (closed_stripe (by omega) (by omega))
  · exact List.mem_product.mpr ⟨mem_range.mpr (key_lt hi),
      mem_range.mpr (mod_lt _ (Nat.two_pow_pos e))⟩

variable (schedule : Schedule)

def runPasses (domainContext : DomainContext F) (w : ℕ) (slice : Slice)
    (logD logNumShares : ℕ) (passes : List SharedPass) (data : Memory F) :
    Except AssertFailure (Memory F) :=
  passes.foldlM (fun data pass => do
    let tasks ← pass.tasks domainContext w slice logD logNumShares
    forEach schedule pass.number tasks data) data

theorem runPasses_cons {schedule : Schedule} {domainContext : DomainContext F} {slice : Slice}
    {pass : SharedPass} {passes : List SharedPass} {tasks : List (Task F)}
    {G H : Memory F → Memory F} {R : Set ℕ}
    (htasks : pass.tasks domainContext w slice logD logNumShares = .ok tasks) (hshare : Share w tasks G R)
    (hrest : Performs (runPasses schedule domainContext w slice logD logNumShares passes) H R)
    (hclosed : Closed H R) :
    Performs (runPasses schedule domainContext w slice logD logNumShares (pass :: passes))
      (fun x => H (G x)) R := by
  refine Performs.of_eq ((hshare.forEach_performs schedule pass.number).comp hrest hclosed)
    fun data => ?_
  rw [runPasses,List.foldlM_cons,htasks]
  rfl

theorem sharedPasses_perform (domainContext : DomainContext F)
    {last : ℕ} (layer : ℕ) (hshares : logNumShares + 1 + w ≤ logD)
    (hlast : last ≤ logNumShares) (hdomain : last ≤ domainContext.logDomainSize) :
    (∀ pass ∈ sharedPasses w logD last layer, ∃ tasks,
        pass.tasks domainContext w (wholeSlice w logD) logD logNumShares = .ok tasks ∧
          Separate w tasks) ∧
      Performs (runPasses schedule domainContext w (wholeSlice w logD) logD logNumShares
        (sharedPasses w logD last layer)) (layers domainContext.twiddle logD layer last)
        (block logD 0) := by
  fun_induction sharedPasses w logD last layer with
  | case1 layer hlt hpair ih =>
    obtain ⟨hseparate,hrest⟩ := ih
    obtain ⟨tasks,htasks,hshare⟩ := sharedLayerPairTasks_share domainContext
      (by omega : layer + 2 ≤ logNumShares) hpair.2 (by omega)
    refine ⟨fun pass hpass => ?_,?_⟩
    · rcases mem_cons.mp hpass with hfirst | hmem
      · rw [hfirst]
        exact ⟨tasks,htasks,hshare.separate⟩
      · exact hseparate pass hmem
    · have hclosed : Closed (layers domainContext.twiddle logD (layer + 2) last) (block logD 0) :=
        closed_layers (by omega) (by omega)
      have hpass : (SharedPass.pair layer).tasks domainContext w (wholeSlice w logD) logD logNumShares =
          .ok tasks := htasks
      refine (runPasses_cons hpass hshare hrest hclosed).congr fun x i _ => ?_
      rw [layers_succ _ hlt,layers_succ _ (by omega : layer + 1 < last)]
  | case2 layer hlt hpair ih =>
    obtain ⟨hseparate,hrest⟩ := ih
    obtain ⟨tasks,htasks,hshare⟩ := sharedLayerTasks_share domainContext layer hshares
      (by omega) (by omega)
    refine ⟨fun pass hpass => ?_,?_⟩
    · rcases mem_cons.mp hpass with hfirst | hmem
      · rw [hfirst]
        exact ⟨tasks,htasks,hshare.separate⟩
      · exact hseparate pass hmem
    · have hclosed : Closed (layers domainContext.twiddle logD (layer + 1) last) (block logD 0) :=
        closed_layers (by omega) (by omega)
      have hpass : (SharedPass.single layer).tasks domainContext w (wholeSlice w logD) logD
          logNumShares = .ok tasks := htasks
      refine (runPasses_cons hpass hshare hrest hclosed).congr fun x i _ => ?_
      rw [layers_succ _ hlt]
  | case3 layer hdone =>
    refine ⟨fun pass hpass => absurd hpass List.not_mem_nil,?_⟩
    exact Performs.of_eq (Performs.idle (not_lt.mp hdone)) fun data => rfl

theorem independentTasks_share (first : ℕ) {logBaseLen last : ℕ}
    (hbase : w < logBaseLen) (hw : w < logD) (hlast : last ≤ logD)
    (hdomain : last ≤ domainContext.logDomainSize) (hrange : first ≤ last ∨ last ≤ logD - w - 1) :
    Share w (independentTasks domainContext logBaseLen w logD first last)
      (layers domainContext.twiddle logD first last) (block logD 0) := by
  generalize hlayer : min first (logD - w - 1) = layer
  obtain ⟨m,hm⟩ : ∃ m, logD = m + layer := ⟨logD - layer,by omega⟩
  have hwm : w < m := by omega
  have hchunk : logD - layer = m := by omega
  have hclosed : ∀ b, Closed (layers domainContext.twiddle logD first last) (block m b) :=
    fun b => closed_layers (by omega) hlast
  let task := fun b => (⟨[blockSlice w m b],forwardDepthFirst domainContext w logBaseLen last m
    (blockSlice w m b) layer b first⟩ : Task F)
  have htasks : independentTasks domainContext logBaseLen w logD first last =
      (range (2 ^ layer)).map task := by
    have hwhole : wholeSlice w logD = blockSlice w (m + layer) 0 := by
      rw [wholeSlice,blockSlice,zero_mul,shiftLeft_eq,one_mul,hm]
    have hchunks : (wholeSlice w logD).chunksExact (1 <<< (m - w)) =
        (range (2 ^ layer)).map fun b => blockSlice w m b := by
      rw [hwhole,shiftLeft_eq,one_mul,blockSlice_chunks hwm.le]
      simp only [zero_mul,zero_add]
    rw [independentTasks,hlayer]
    simp only [hchunk,hchunks]
    refine List.ext_getElem ?_ fun i hi hi' => ?_
    · simp
    · simp [task]
  have hcells : ∀ b, (task b).cells w = block m b := by
    intro b
    rw [←blockSlice_cells hwm.le]
    ext i
    simp only [Task.cells,task,List.mem_singleton,exists_eq_left]
    rfl
  rw [htasks]
  refine Share.of_key _ (fun i => i / 2 ^ m) nodup_range (fun b hb => ?_) (fun b hb => ?_)
    (fun b _ => ?_) fun i hi => ?_
  · have hlt := mem_range.mp hb
    rw [hcells]
    ext i
    constructor
    · intro hi
      refine ⟨?_,hi⟩
      have hi' : i / 2 ^ m = b := hi
      rw [block,Set.mem_ofPred_eq,hm,div_pow_add,hi']
      exact div_eq_of_lt hlt
    · exact fun hi => hi.2
  · rw [hcells]
    have hperf := forwardDepthFirst_performs domainContext hbase hdomain m layer b first hwm (by omega)
      (by omega) (mem_range.mp hb) (by omega)
    rw [←hm] at hperf
    exact hperf
  · rw [hcells]
    exact hclosed b
  · rw [block,Set.mem_ofPred_eq,hm,div_pow_add] at hi
    exact mem_range.mpr ((Nat.div_eq_zero_iff_lt (Nat.two_pow_pos layer)).mp hi)

theorem butterfly_linear (τ : ℕ → F) (s : ℕ) (a : F) (x y : ℕ → F) :
    butterfly τ s (a • x + y) = a • butterfly τ s x + butterfly τ s y := by
  funext i
  simp only [butterfly,Pi.add_apply,Pi.smul_apply,smul_eq_mul]
  split <;> ring

theorem layers_linear (t : ℕ → ℕ → F) (n first last : ℕ) (a : F) (x y : ℕ → F) :
    layers t n first last (a • x + y) = a • layers t n first last x + layers t n first last y := by
  rw [layers,layers,layers]
  induction List.range' first (last - first) generalizing x y with
  | nil => rfl
  | cons l ls ih =>
    rw [foldl_cons,foldl_cons,foldl_cons,butterfly_linear]
    exact ih _ _

theorem Performs.exists_linear {prog : Memory F → Except AssertFailure (Memory F)} {t : ℕ → ℕ → F}
    {n first last : ℕ} {R : Set ℕ} (h : Performs prog (layers t n first last) R) :
    ∃ T : Memory F →ₗ[F] Memory F, (∀ data, prog data = .ok (T data)) ∧
      Computes T (layers t n first last) R := by
  obtain ⟨f,hrun,hf⟩ := h
  have hlinear : ∀ (a : F) (x y : Memory F), f (a • x + y) = a • f x + f y := by
    intro a x y
    funext i
    by_cases hi : i ∈ R
    · rw [(hf _ i).1 hi,layers_linear,Pi.add_apply,Pi.smul_apply,Pi.add_apply,Pi.smul_apply,
        (hf x i).1 hi,(hf y i).1 hi]
    · rw [(hf _ i).2 hi,Pi.add_apply,Pi.smul_apply,Pi.add_apply,Pi.smul_apply,(hf x i).2 hi,
        (hf y i).2 hi]
  have hadd : ∀ x y, f (x + y) = f x + f y := by
    intro x y
    have hone := hlinear 1 x y
    rw [one_smul,one_smul] at hone
    exact hone
  have hzero : f 0 = 0 := by
    have hdouble := hadd 0 0
    rw [add_zero] at hdouble
    exact left_eq_add.mp hdouble
  have hsmul : ∀ (a : F) (x : Memory F), f (a • x) = a • f x := by
    intro a x
    have hone := hlinear a x 0
    rw [add_zero,hzero,add_zero] at hone
    exact hone
  exact ⟨{ toFun := f,map_add' := hadd,map_smul' := hsmul },hrun,hf⟩

theorem inputCheck_ok {domainContext : DomainContext F}
    (h : inputCheck domainContext logD skipEarly skipLate = .ok ()) :
    skipEarly + skipLate ≤ logD ∧ logD - skipLate ≤ domainContext.logDomainSize := by
  by_cases hskips : skipEarly + skipLate ≤ logD
  · by_cases hdomain : logD - skipLate ≤ domainContext.logDomainSize
    · exact ⟨hskips,hdomain⟩
    · rw [inputCheck,require_true hskips,require,if_neg hdomain] at h
      cases h
  · rw [inputCheck,require,if_neg hskips] at h
    cases h

theorem wholeSlice_eq (w logD : ℕ) : wholeSlice w logD = blockSlice w logD 0 := by
  rw [wholeSlice,blockSlice,zero_mul,shiftLeft_eq,one_mul]

theorem neighborsLastBreadthFirst_performs
    (hcheck : inputCheck domainContext logD skipEarly skipLate = .ok ()) :
    Performs (neighborsLastBreadthFirst domainContext w logD skipEarly skipLate)
      (layers domainContext.twiddle logD skipEarly (logD - skipLate)) (block logD 0) := by
  obtain ⟨hskips,hdomain⟩ := inputCheck_ok hcheck
  by_cases hsmall : logD ≤ w
  · refine Performs.of_eq (neighborsLastReference_performs domainContext hcheck) fun data => ?_
    rw [neighborsLastBreadthFirst,if_pos hsmall]
  · refine Performs.of_eq (forwardBreadthFirst_performs domainContext 0 (not_le.mp hsmall)
      hdomain (Nat.zero_le _) (by omega) (by omega) (by decide)) fun data => ?_
    rw [neighborsLastBreadthFirst,if_neg hsmall,hcheck,wholeSlice_eq]
    rfl

theorem neighborsLastSingleThread_performs (logBaseLen : ℕ)
    (hcheck : inputCheck domainContext logD skipEarly skipLate = .ok ()) :
    Performs (neighborsLastSingleThread domainContext logBaseLen w logD skipEarly skipLate)
      (layers domainContext.twiddle logD skipEarly (logD - skipLate)) (block logD 0) := by
  obtain ⟨hskips,hdomain⟩ := inputCheck_ok hcheck
  by_cases hsmall : logD ≤ w
  · refine Performs.of_eq (neighborsLastReference_performs domainContext hcheck) fun data => ?_
    rw [neighborsLastSingleThread,if_pos hsmall]
  · refine Performs.of_eq (forwardDepthFirst_performs domainContext
      (by omega : w < max logBaseLen (w + 1)) hdomain logD 0 0 skipEarly (not_le.mp hsmall) (Nat.zero_le _) (by omega)
      (by decide) (Or.inl (by omega))) fun data => ?_
    rw [neighborsLastSingleThread,if_neg hsmall,hcheck,wholeSlice_eq]
    rfl

theorem neighborsLastMultiThread_performs (domainContext : DomainContext F)
    {logBaseLen : ℕ} (logNumShares : ℕ) (hbase : w < logBaseLen)
    (hcheck : inputCheck domainContext logD skipEarly skipLate = .ok ()) :
    Performs (neighborsLastMultiThread schedule domainContext logBaseLen logNumShares w logD skipEarly
      skipLate) (layers domainContext.twiddle logD skipEarly (logD - skipLate)) (block logD 0) := by
  obtain ⟨hskips,hdomain⟩ := inputCheck_ok hcheck
  by_cases hsmall : logD ≤ w
  · refine Performs.of_eq (neighborsLastReference_performs domainContext hcheck) fun data => ?_
    rw [neighborsLastMultiThread,if_pos hsmall]
  · generalize hshares : actualLogNumShares w logD logNumShares = shares
    generalize hlast : logD - skipLate = last at hdomain
    have hclamp : shares ≤ logD - w - 1 := by
      rw [←hshares]
      exact Nat.min_le_right _ _
    have hend : min shares last ≤ shares := Nat.min_le_left _ _
    have hshared := (sharedPasses_perform schedule domainContext skipEarly (by omega : shares + 1 + w ≤ logD)
      hend ((Nat.min_le_right _ _).trans hdomain)).2
    have hfree := (independentTasks_share domainContext (max shares skipEarly) hbase
      (not_le.mp hsmall) (by omega) hdomain (by omega)).forEach_performs schedule logD
    have hclosed : Closed (layers domainContext.twiddle logD (max shares skipEarly) last)
        (block logD 0) := closed_layers (by omega) (by omega)
    refine Performs.of_eq ((hshared.comp hfree hclosed).congr fun x i _ => ?_) fun data => ?_
    · -- the shared layers end where the independent ones start, unless there are none of one kind
      by_cases hnone : shares ≤ skipEarly
      · rw [layers_empty _ (by omega : min shares last ≤ skipEarly),Nat.max_eq_right hnone]
      · by_cases hall : shares ≤ last
        · rw [Nat.min_eq_left hall,Nat.max_eq_left (by omega : skipEarly ≤ shares)]
          exact congrFun (layers_append domainContext.twiddle (by omega) hall x) i
        · rw [Nat.min_eq_right (by omega : last ≤ shares),
            layers_empty _ (by omega : last ≤ max shares skipEarly)]
    · rw [neighborsLastMultiThread,if_neg hsmall,hcheck]
      simp only [hshares,hlast,forwardSharedLayers,require_true hend]
      rfl

def lowBitContext : DomainContext (ZMod 2) where
  logDomainSize := 4
  twiddle := fun _ block => if block.testBit 0 then 1 else 0
  iterTwiddles := fun layer logStepBy => (range (1 <<< (layer - logStepBy))).map fun block =>
    if (block <<< logStepBy).testBit 0 then 1 else 0
  twiddle_xor := by
    intro layer _ a _ b _
    rw [Nat.testBit_xor]
    cases a.testBit 0 <;> cases b.testBit 0 <;> decide
  iterTwiddles_eq := fun _ _ _ _ => rfl

/-- The tasks from the last to the first. -/
def backwards : Schedule where
  order := fun _ tasks => tasks.reverse
  perm := fun _ tasks => tasks.reverse_perm

/-- The forward transforms are one linear map, and no task of a pass of the multi-threaded one reads
or writes what another task of the pass owns. -/
theorem transforms_agree (domainContext : DomainContext F) (schedule : Schedule)
    {logBaseLen logD skipEarly skipLate : ℕ} (logNumShares : ℕ) (hbase : w < logBaseLen)
    (hcheck : inputCheck domainContext logD skipEarly skipLate = .ok ()) :
    (∃ T : Memory F →ₗ[F] Memory F, ∀ data,
      neighborsLastReference domainContext logD skipEarly skipLate data = .ok (T data) ∧
      neighborsLastBreadthFirst domainContext w logD skipEarly skipLate data = .ok (T data) ∧
      neighborsLastSingleThread domainContext logBaseLen w logD skipEarly skipLate data = .ok (T data) ∧
      neighborsLastMultiThread schedule domainContext logBaseLen logNumShares w logD skipEarly skipLate
        data = .ok (T data)) ∧
      (w < logD → (∀ pass ∈ sharedPasses w logD
          (min (actualLogNumShares w logD logNumShares) (logD - skipLate)) skipEarly,
        ∃ tasks, pass.tasks domainContext w (wholeSlice w logD) logD
            (actualLogNumShares w logD logNumShares) = .ok tasks ∧ Separate w tasks) ∧
        Separate w (independentTasks domainContext logBaseLen w logD
          (max (actualLogNumShares w logD logNumShares) skipEarly) (logD - skipLate))) := by
  obtain ⟨hskips,hdomain⟩ := inputCheck_ok hcheck
  refine ⟨?_,fun hlarge => ⟨?_,?_⟩⟩
  · obtain ⟨T,hrun,hT⟩ := (neighborsLastReference_performs domainContext hcheck).exists_linear
    obtain ⟨f,hbreadth,hf⟩ := neighborsLastBreadthFirst_performs (w := w) domainContext hcheck
    obtain ⟨g,hsingle,hg⟩ := neighborsLastSingleThread_performs (w := w) domainContext logBaseLen hcheck
    obtain ⟨k,hmulti,hk⟩ := neighborsLastMultiThread_performs (w := w) schedule domainContext
      logNumShares hbase hcheck
    refine ⟨T,fun data => ⟨hrun data,?_,?_,?_⟩⟩
    · rw [hbreadth,hf.eq hT]
    · rw [hsingle,hg.eq hT]
    · rw [hmulti,hk.eq hT]
  · have hclamp : actualLogNumShares w logD logNumShares + 1 + w ≤ logD := by
      rw [actualLogNumShares]
      omega
    exact (sharedPasses_perform schedule domainContext skipEarly hclamp (Nat.min_le_left _ _)
      ((Nat.min_le_right _ _).trans hdomain)).1
  · have hclamp : actualLogNumShares w logD logNumShares ≤ logD - w - 1 := Nat.min_le_right _ _
    exact (independentTasks_share domainContext _ hbase hlarge (by omega) hdomain (by omega)).separate

/-- Sixteen scalars in packed elements of two, in the order of the last task first. -/
theorem transforms_agree_sixteen :
    (∃ T : Memory (ZMod 2) →ₗ[ZMod 2] Memory (ZMod 2), ∀ data,
      neighborsLastReference lowBitContext 4 1 0 data = .ok (T data) ∧
      neighborsLastBreadthFirst lowBitContext 1 4 1 0 data = .ok (T data) ∧
      neighborsLastSingleThread lowBitContext 2 1 4 1 0 data = .ok (T data) ∧
      neighborsLastMultiThread backwards lowBitContext 2 5 1 4 1 0 data = .ok (T data)) ∧
      (1 < 4 → (∀ pass ∈ sharedPasses 1 4 (min (actualLogNumShares 1 4 5) (4 - 0)) 1,
        ∃ tasks, pass.tasks lowBitContext 1 (wholeSlice 1 4) 4 (actualLogNumShares 1 4 5) = .ok tasks ∧
          Separate 1 tasks) ∧
        Separate 1 (independentTasks lowBitContext 2 1 4 (max (actualLogNumShares 1 4 5) 1) (4 - 0))) :=
  transforms_agree lowBitContext backwards 5 (by decide) rfl

end Binius64.Ntt
