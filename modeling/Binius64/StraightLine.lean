import Mathlib.Data.List.Flatten
import Mathlib.Data.List.Induction
import Mathlib.Data.List.Nodup

/-!
# Straight-line programs

Programs that assign variables in order, each assignment computing its targets from its sources.
-/

namespace Binius64.StraightLine

open List

variable {V α L : Type} [DecidableEq V] [DecidableEq L]

/-- Overwrite variables in order. -/
def writeAll (stores : List (V × α)) (σ : V → α) : V → α :=
  stores.foldl (fun σ s => Function.update σ s.1 s.2) σ

@[simp] theorem writeAll_nil (σ : V → α) : writeAll [] σ = σ := rfl

@[simp] theorem writeAll_cons (s : V × α) (rest : List (V × α)) (σ : V → α) :
    writeAll (s :: rest) σ = writeAll rest (Function.update σ s.1 s.2) := rfl

variable {σ : V → α} {v : V} {vars : List V} {vals : List α}

theorem writeAll_of_notMem {stores : List (V × α)}
    (h : v ∉ stores.map Prod.fst) : writeAll stores σ v = σ v := by
  induction stores generalizing σ with
  | nil => rfl
  | cons s rest ih =>
    rw [map_cons,mem_cons,not_or] at h
    rw [writeAll_cons,ih h.2,Function.update_of_ne h.1]

theorem writeAll_zip_of_notMem
    (h : v ∉ vars) : writeAll (vars.zip vals) σ v = σ v :=
  writeAll_of_notMem fun hm => by
    obtain ⟨p,hp,rfl⟩ := mem_map.mp hm
    exact h (of_mem_zip hp).1

theorem map_writeAll_zip (hn : vars.Nodup)
    (hl : vals.length = vars.length) : vars.map (writeAll (vars.zip vals) σ) = vals := by
  induction vars generalizing vals σ with
  | nil =>
    rw [length_nil,length_eq_zero_iff] at hl
    rw [hl]
    rfl
  | cons v rest ih =>
    cases vals with
    | nil => cases hl
    | cons a as =>
      rw [nodup_cons] at hn
      rw [length_cons,length_cons,Nat.add_right_cancel_iff] at hl
      have hv : writeAll (rest.zip as) (Function.update σ v a) v = a := by
        rw [writeAll_zip_of_notMem hn.1,Function.update_self]
      rw [zip_cons_cons,writeAll_cons,map_cons,hv,ih hn.2 hl]

theorem writeAll_rename {loc : V → L} {ρ : L → α}
    (hn : (vars.map loc).Nodup) (hl : vals.length = vars.length) (hv : v ∈ vars) :
    writeAll ((vars.map loc).zip vals) ρ (loc v) = writeAll (vars.zip vals) σ v := by
  have h := map_writeAll_zip (σ := ρ) hn (by rw [hl,length_map])
  rw [map_map,← map_writeAll_zip (σ := σ) (hn.of_map loc) hl] at h
  have hz : ((vars.map loc).zip vals) = (vars.map loc).zip (vars.map (writeAll (vars.zip vals) σ)) := by
    rw [map_writeAll_zip (hn.of_map loc) hl]
  have hpoint := map_inj_left.mp h v hv
  rw [Function.comp_apply,← hz] at hpoint
  exact hpoint

/-- One assignment: its targets, its sources and the values computed. -/
structure Assign (V α : Type) where
  dsts : List V
  srcs : List V
  compute : List α → List α

namespace Assign

def step (a : Assign V α) (σ : V → α) : V → α :=
  writeAll (a.dsts.zip (a.compute (a.srcs.map σ))) σ

def rename (loc : V → L) (a : Assign V α) : Assign L α :=
  ⟨a.dsts.map loc,a.srcs.map loc,a.compute⟩

def Mentions (a : Assign V α) (v : V) : Prop := v ∈ a.dsts ∨ v ∈ a.srcs

end Assign

def run (prog : List (Assign V α)) (σ : V → α) : V → α :=
  prog.foldl (fun σ a => a.step σ) σ

@[simp] theorem run_nil (σ : V → α) : run [] σ = σ := rfl

@[simp] theorem run_cons (a : Assign V α) (rest : List (Assign V α)) (σ : V → α) :
    run (a :: rest) σ = run rest (a.step σ) := rfl

theorem run_append (first second : List (Assign V α)) (σ : V → α) :
    run (first ++ second) σ = run second (run first σ) :=
  foldl_append

theorem run_of_notMem {prog : List (Assign V α)}
    (h : ∀ a ∈ prog, v ∉ a.dsts) : run prog σ v = σ v := by
  induction prog generalizing σ with
  | nil => rfl
  | cons a rest ih =>
    rw [forall_mem_cons] at h
    rw [run_cons,ih h.2,Assign.step,writeAll_zip_of_notMem h.1]

/-- Every assignment computes as many values as it has targets, no variable is
assigned twice, and none is read at or before its assignment. -/
structure Ordered (prog : List (Assign V α)) : Prop where
  sized : ∀ a ∈ prog, ∀ vals, vals.length = a.srcs.length →
    (a.compute vals).length = a.dsts.length
  distinct : (prog.flatMap Assign.dsts).Nodup
  later : prog.Pairwise fun a b => ∀ v ∈ a.srcs, v ∉ b.dsts
  apart : ∀ a ∈ prog, ∀ v ∈ a.srcs, v ∉ a.dsts

namespace Ordered

variable {prog pre suf : List (Assign V α)} {a : Assign V α}

omit [DecidableEq V] in
theorem dsts_disjoint (h : Ordered (pre ++ a :: suf)) {v : V} (hv : v ∈ a.dsts) :
    ∀ b ∈ suf, v ∉ b.dsts := by
  have hn := h.distinct
  rw [flatMap_append,flatMap_cons] at hn
  have htail := (nodup_append.mp hn).2.1
  intro b hb hvb
  exact (nodup_append.mp htail).2.2 v hv v (mem_flatMap.mpr ⟨b,hb,hvb⟩) rfl

theorem run_src (h : Ordered (pre ++ a :: suf)) (σ : V → α) {v : V} (hv : v ∈ a.srcs) :
    run (pre ++ a :: suf) σ v = run pre σ v := by
  have hlater := (pairwise_append.mp h.later).2.1
  have hsuf : ∀ b ∈ suf, v ∉ b.dsts := fun b hb => (pairwise_cons.mp hlater).1 b hb v hv
  have hself : v ∉ a.dsts := h.apart a (mem_append_right _ (mem_cons_self ..)) v hv
  rw [run_append,run_cons,run_of_notMem hsuf,Assign.step,writeAll_zip_of_notMem hself]

theorem run_eq (h : Ordered prog) (σ : V → α) (ha : a ∈ prog) :
    a.dsts.map (run prog σ) = a.compute (a.srcs.map (run prog σ)) := by
  obtain ⟨pre,suf,rfl⟩ := append_of_mem ha
  have hsrc : a.srcs.map (run (pre ++ a :: suf) σ) = a.srcs.map (run pre σ) :=
    map_congr_left fun v hv => h.run_src σ hv
  have hdst : a.dsts.map (run (pre ++ a :: suf) σ) = a.dsts.map (a.step (run pre σ)) := by
    refine map_congr_left fun v hv => ?_
    rw [run_append,run_cons,run_of_notMem (h.dsts_disjoint hv)]
  have hn : a.dsts.Nodup := (nodup_flatMap.mp h.distinct).1 a ha
  rw [hsrc,hdst,Assign.step,map_writeAll_zip hn]
  exact h.sized a ha _ (length_map _)

omit [DecidableEq V] in
theorem sublist (h : Ordered prog) {kept : List (Assign V α)} (hkept : kept.Sublist prog) : Ordered kept where
  sized a ha := h.sized a (hkept.subset ha)
  distinct := h.distinct.sublist (hkept.flatMap Assign.dsts)
  later := h.later.sublist hkept
  apart a ha := h.apart a (hkept.subset ha)

theorem eq_run (h : Ordered prog) {σ τ : V → α} (heq : ∀ a ∈ prog, a.dsts.map τ = a.compute (a.srcs.map τ))
    (hsame : ∀ v, (∀ a ∈ prog, v ∉ a.dsts) → τ v = σ v) : τ = run prog σ := by
  have hpre : ∀ pre suf, prog = pre ++ suf → ∀ v, (∀ a ∈ suf, v ∉ a.dsts) → τ v = run pre σ v := by
    intro pre
    induction pre using reverseRecOn with
    | nil =>
      intro suf hprog v hv
      exact hsame v (hprog ▸ hv)
    | append_singleton pre a ih =>
      intro suf hprog v hv
      rw [append_assoc,singleton_append] at hprog
      rw [run_append,run_cons,run_nil,Assign.step]
      by_cases hd : v ∈ a.dsts
      · -- the sources have their final values, so the targets do
        have ha : a ∈ prog := hprog ▸ mem_append_right _ mem_cons_self
        have hsrcs : a.srcs.map (run pre σ) = a.srcs.map τ := by
          refine map_congr_left fun u hu => (ih (a :: suf) hprog u ?_).symm
          have hlater := (pairwise_append.mp (hprog ▸ h.later)).2.1
          exact forall_mem_cons.mpr
            ⟨h.apart a ha u hu,fun b hb => (pairwise_cons.mp hlater).1 b hb u hu⟩
        have hn : a.dsts.Nodup := (nodup_flatMap.mp h.distinct).1 a ha
        have hvalues := map_writeAll_zip (σ := run pre σ) hn (h.sized a ha _ (length_map τ))
        rw [hsrcs]
        exact map_inj_left.mp ((heq a ha).trans hvalues.symm) v hd
      · rw [writeAll_zip_of_notMem hd]
        exact ih (a :: suf) hprog v (forall_mem_cons.mpr ⟨hd,hv⟩)
  funext v
  exact hpre prog [] (append_nil prog).symm v nofun

end Ordered

def Mentioned (prog : List (Assign V α)) (v : V) : Prop := ∃ a ∈ prog, a.Mentions v

/-- A variable whose value is still needed between two halves of a program: it is
kept, or named on both sides. -/
def Alive (kept : V → Prop) (pre suf : List (Assign V α)) (v : V) : Prop :=
  kept v ∨ (Mentioned pre v ∧ Mentioned suf v)

/-- A renaming that never puts a variable where another one is still needed, of a
program that reads kept variables and its own results. -/
structure Fitted (loc : V → L) (kept : V → Prop) (prog : List (Assign V α)) : Prop where
  clash : ∀ pre a suf, prog = pre ++ a :: suf → ∀ v ∈ a.dsts, ∀ u, u ≠ v →
    Alive kept (pre ++ [a]) (a :: suf) u → loc u ≠ loc v
  sourced : ∀ pre a suf, prog = pre ++ a :: suf → ∀ v ∈ a.srcs, kept v ∨ Mentioned pre v

namespace Fitted

variable {loc : V → L} {kept : V → Prop} {prog pre suf : List (Assign V α)} {a : Assign V α}

omit [DecidableEq V] [DecidableEq L] in
theorem nodup (h : Fitted loc kept (pre ++ a :: suf)) (hn : a.dsts.Nodup) :
    (a.dsts.map loc).Nodup := by
  refine hn.map_on fun u hu v hv he => ?_
  by_contra hne
  exact h.clash pre a suf rfl v hv u hne
    (.inr ⟨⟨a,by simp,.inl hu⟩,⟨a,by simp,.inl hu⟩⟩) he

variable {v : V}

omit [DecidableEq V] [DecidableEq L] in
theorem src_alive (h : Fitted loc kept (pre ++ a :: suf)) (hv : v ∈ a.srcs) :
    Alive kept pre (a :: suf) v :=
  (h.sourced pre a suf rfl v hv).imp_right fun hm => ⟨hm,⟨a,mem_cons_self ..,.inr hv⟩⟩

omit [DecidableEq V] [DecidableEq L] in
theorem alive_before (h : Fitted loc kept (pre ++ a :: suf))
    (hv : Alive kept (pre ++ [a]) suf v) (hd : v ∉ a.dsts) : Alive kept pre (a :: suf) v := by
  rcases hv with hk | ⟨⟨b,hb,hm⟩,c,hc,hmc⟩
  · exact .inl hk
  · rcases mem_append.mp hb with hb | hb
    · exact .inr ⟨⟨b,hb,hm⟩,c,mem_cons_of_mem _ hc,hmc⟩
    · rw [mem_singleton.mp hb] at hm
      exact h.src_alive (hm.resolve_left hd)

theorem step_agree (h : Fitted loc kept (pre ++ a :: suf)) (hn : a.dsts.Nodup)
    (hlen : ∀ vals, vals.length = a.srcs.length → (a.compute vals).length = a.dsts.length)
    {ρ : L → α} {σ : V → α} (hagree : ∀ v, Alive kept pre (a :: suf) v → ρ (loc v) = σ v)
    (hv : Alive kept (pre ++ [a]) suf v) : (a.rename loc).step ρ (loc v) = a.step σ v := by
  have hsrc : (a.srcs.map loc).map ρ = a.srcs.map σ := by
    rw [map_map]
    exact map_congr_left fun u hu => hagree u (h.src_alive hu)
  rw [Assign.step,Assign.step,Assign.rename]
  dsimp only
  rw [hsrc]
  by_cases hd : v ∈ a.dsts
  · exact writeAll_rename (h.nodup hn) (hlen _ (length_map _)) hd
  · have hloc : loc v ∉ a.dsts.map loc := by
      intro hm
      obtain ⟨u,hu,he⟩ := mem_map.mp hm
      refine h.clash pre a suf rfl u hu v (fun hvu => hd (hvu ▸ hu)) ?_ he.symm
      exact hv.imp_right fun ⟨hp,c,hc,hmc⟩ => ⟨hp,c,mem_cons_of_mem _ hc,hmc⟩
    rw [writeAll_zip_of_notMem hloc,writeAll_zip_of_notMem hd]
    exact hagree v (h.alive_before hv hd)

theorem run_agree (h : Fitted loc kept (pre ++ suf)) (ho : Ordered (pre ++ suf)) (ρ : L → α)
    (hv : Alive kept pre suf v) :
    run (pre.map (Assign.rename loc)) ρ (loc v) = run pre (fun u => ρ (loc u)) v := by
  induction pre using reverseRecOn generalizing suf v with
  | nil => rfl
  | append_singleton pre a ih =>
    rw [append_assoc,singleton_append] at h ho
    have ha : a ∈ pre ++ a :: suf := mem_append_right _ (mem_cons_self ..)
    have hn : a.dsts.Nodup := (nodup_flatMap.mp ho.distinct).1 a ha
    rw [map_append,run_append,run_append]
    exact h.step_agree hn (ho.sized a ha) (fun u hu => ih h ho hu) hv

omit [DecidableEq L] in
theorem run_congr (h : Fitted loc kept (pre ++ suf)) {σ τ : V → α} (hst : ∀ v, kept v → σ v = τ v)
    (hsized : ∀ a ∈ pre, ∀ vals, vals.length = a.srcs.length →
      (a.compute vals).length = a.dsts.length)
    (hn : ∀ a ∈ pre, a.dsts.Nodup) (hv : kept v ∨ Mentioned pre v) :
    run pre σ v = run pre τ v := by
  induction pre using reverseRecOn generalizing suf v with
  | nil =>
    rcases hv with hk | ⟨_,hmem,_⟩
    · exact hst v hk
    · cases hmem
  | append_singleton pre a ih =>
    rw [append_assoc,singleton_append] at h
    rw [forall_mem_append,forall_mem_singleton] at hsized hn
    have hpre : ∀ u, kept u ∨ Mentioned pre u → run pre σ u = run pre τ u :=
      fun u hu => ih h hsized.1 hn.1 hu
    have hsrc : a.srcs.map (run pre σ) = a.srcs.map (run pre τ) :=
      map_congr_left fun u hu => hpre u (h.sourced pre a suf rfl u hu)
    rw [run_append,run_append,run_cons,run_cons,run_nil,run_nil,Assign.step,Assign.step,hsrc]
    by_cases hd : v ∈ a.dsts
    · have hlen := hsized.2 (a.srcs.map (run pre τ)) (length_map _)
      have hboth := (map_writeAll_zip (σ := run pre σ) hn.2 hlen).trans
        (map_writeAll_zip (σ := run pre τ) hn.2 hlen).symm
      exact map_inj_left.mp hboth v hd
    · rw [writeAll_zip_of_notMem hd,writeAll_zip_of_notMem hd]
      rcases hv with hk | ⟨b,hb,hm⟩
      · exact hpre v (.inl hk)
      · rcases mem_append.mp hb with hb | hb
        · exact hpre v (.inr ⟨b,hb,hm⟩)
        · rw [mem_singleton.mp hb] at hm
          exact hpre v (h.sourced pre a suf rfl v (hm.resolve_left hd))

end Fitted

end Binius64.StraightLine
