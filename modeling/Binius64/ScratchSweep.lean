import Binius64.ScratchAlloc

/-!
# The sweep shares slots between disjoint lifetimes

While a gate runs, the values alive hold distinct slots, and those slots together with the ones
given back are all the slots handed out so far.
-/

namespace Binius64.ScratchSweep

open WireConstraints GateGraph ScratchAlloc List
open Function (update update_of_ne update_self)

/-- What holds between two mentions: the wires seen so far have slots, those
alive hold distinct ones, and a shared slot means disjoint lifetimes. -/
structure Holding (graph : Graph) (scratch : EntitySet) (seen : Wire → Prop) (alive : List Wire)
    (s : Sweep) : Prop where
  slotted : ∀ w, s.slot w ≠ none ↔ scratch.contains w = true ∧ seen w
  /-- The slots of the values alive and those given back are all the slots. -/
  held : (alive.map s.slot ++ s.free.map some).Perm ((range s.nSlots).map some)
  counted : s.live = alive.length
  below : ∀ w n, s.slot w = some n → n < s.nSlots
  apart : ∀ v w, v ≠ w → s.slot v ≠ none → s.slot v = s.slot w →
    Apart graph v w ∨ Apart graph w v
  full : s.nSlots = max s.peakLive s.live

namespace Holding

variable {graph : Graph} {scratch : EntitySet} {seen : Wire → Prop} {alive : List Wire} {s : Sweep}

theorem nodup (h : Holding graph scratch seen alive s) :
    (alive.map s.slot ++ s.free.map some).Nodup :=
  h.held.nodup_iff.mpr (nodup_range.map (Option.some_injective _))

theorem alive_nodup (h : Holding graph scratch seen alive s) : alive.Nodup :=
  (nodup_append.mp h.nodup).1.of_map

theorem length_eq (h : Holding graph scratch seen alive s) :
    alive.length + s.free.length = s.nSlots := by
  have hlen := h.held.length_eq
  rwa [length_append,length_map,length_map,length_map,
    length_range] at hlen

variable {w : Wire}

theorem slot_ne_none (h : Holding graph scratch seen alive s) (hw : w ∈ alive) :
    s.slot w ≠ none := by
  have hmem : s.slot w ∈ (range s.nSlots).map some :=
    h.held.mem_iff.mp (mem_append_left _ (mem_map_of_mem hw))
  obtain ⟨n,_,hn⟩ := mem_map.mp hmem
  rw [← hn]
  exact Option.some_ne_none n

/-- What allocating to a new value takes: a slot no value alive holds. -/
structure Fresh (s : Sweep) (alive : List Wire) (w : Wire) (n : ℕ) : Prop where
  slot_eq : (s.allocate w).slot = update s.slot w (some n)
  unheld : ∀ v ∈ alive, s.slot v ≠ some n
  lt : n < (s.allocate w).nSlots
  grows : s.nSlots ≤ (s.allocate w).nSlots
  held : (some n :: alive.map s.slot ++ (s.allocate w).free.map some).Perm
    ((range (s.allocate w).nSlots).map some)
  full : (s.allocate w).nSlots = max s.peakLive (s.live + 1)

theorem allocate_fresh (h : Holding graph scratch seen alive s) (w : Wire) :
    ∃ n, Fresh s alive w n := by
  have hlen := h.length_eq
  have hfull := h.full
  have hcounted := h.counted
  have hheld := h.held
  have hnodup := h.nodup
  cases hfree : s.free with
  | nil =>
    rw [hfree,length_nil] at hlen
    rw [hfree,map_nil,append_nil] at hheld
    have hunheld : ∀ v ∈ alive, s.slot v ≠ some s.nSlots := by
      intro v hv he
      exact Nat.lt_irrefl _ (h.below v _ he)
    refine ⟨s.nSlots,?_,hunheld,?_,?_,?_,?_⟩
    · simp only [Sweep.allocate,hfree]
    · simp only [Sweep.allocate,hfree]
      exact Nat.lt_succ_self _
    · simp only [Sweep.allocate,hfree]
      exact Nat.le_succ _
    · simp only [Sweep.allocate,hfree,map_nil,append_nil,range_succ,
        map_append,map_cons]
      exact (hheld.cons _).trans (perm_append_singleton _ _).symm
    · simp only [Sweep.allocate,hfree]
      omega
  | cons top rest =>
    rw [hfree,map_cons] at hheld hnodup
    rw [hfree,length_cons] at hlen
    have htop : some top ∈ (range s.nSlots).map some :=
      hheld.mem_iff.mp (mem_append_right _ (mem_cons_self ..))
    have hlt : top < s.nSlots := by
      obtain ⟨n,hn,he⟩ := mem_map.mp htop
      rw [← Option.some.inj he]
      exact mem_range.mp hn
    have hunheld : ∀ v ∈ alive, s.slot v ≠ some top := by
      intro v hv he
      exact (nodup_append.mp hnodup).2.2 _ (mem_map_of_mem hv) _
        (mem_cons_self ..) he
    refine ⟨top,?_,hunheld,?_,?_,?_,?_⟩
    · simp only [Sweep.allocate,hfree]
    · simp only [Sweep.allocate,hfree]
      exact hlt
    · simp only [Sweep.allocate,hfree]
      exact Nat.le_refl _
    · simp only [Sweep.allocate,hfree]
      exact perm_middle.symm.trans hheld
    · simp only [Sweep.allocate,hfree]
      omega

theorem allocate_frame (s : Sweep) (w : Wire) :
    (s.allocate w).peakLive = s.peakLive ∧ (s.allocate w).deaths = s.deaths ∧
      (s.allocate w).live = s.live + 1 := by
  unfold Sweep.allocate
  split <;> exact ⟨rfl,rfl,rfl⟩

theorem allocate (h : Holding graph scratch seen alive s)
    (hc : scratch.contains w = true) (hnew : ¬seen w)
    (hdead : ∀ v, seen v → scratch.contains v = true → v ∉ alive → Apart graph v w) :
    Holding graph scratch (fun v => seen v ∨ v = w) (w :: alive) (s.allocate w) := by
  obtain ⟨n,hfresh⟩ := h.allocate_fresh w
  obtain ⟨hpeak,_,hlive⟩ := allocate_frame s w
  have hnone : s.slot w = none := by
    by_contra hne
    exact hnew ((h.slotted w).mp hne).2
  have hself : (s.allocate w).slot w = some n := by rw [hfresh.slot_eq,update_self]
  have hother : ∀ v, v ≠ w → (s.allocate w).slot v = s.slot v := fun v hv => by
    rw [hfresh.slot_eq,update_of_ne hv]
  have hnotin : w ∉ alive := fun hw => h.slot_ne_none hw hnone
  -- A value that has the new slot gave it back, so it is done with.
  have hdone : ∀ v, v ≠ w → s.slot v = some n → Apart graph v w := by
    intro v _ hslot
    have hs := (h.slotted v).mp (by rw [hslot]; exact Option.some_ne_none n)
    exact hdead v hs.2 hs.1 fun hv => hfresh.unheld v hv hslot
  refine ⟨fun v => ?_,?_,?_,fun v m hm => ?_,fun u v hne hu huv => ?_,?_⟩
  · by_cases hv : v = w
    · subst hv
      simp only [hself,ne_eq,reduceCtorEq,not_false_eq_true,hc,or_true,and_self]
    · rw [hother v hv,h.slotted v]
      simp only [hv,or_false]
  · have hmap : alive.map (s.allocate w).slot = alive.map s.slot :=
      map_congr_left fun v hv => hother v fun he => hnotin (he ▸ hv)
    rw [map_cons,hself,hmap]
    exact hfresh.held
  · rw [hlive,length_cons,h.counted]
  · by_cases hv : v = w
    · subst hv
      rw [hself,Option.some.injEq] at hm
      exact hm ▸ hfresh.lt
    · rw [hother v hv] at hm
      exact (h.below v m hm).trans_le hfresh.grows
  · by_cases hu' : u = w
    · subst hu'
      rw [hself,hother v (Ne.symm hne)] at huv
      exact .inr (hdone v (Ne.symm hne) huv.symm)
    · by_cases hv' : v = w
      · subst hv'
        rw [hself,hother u hu'] at huv
        exact .inl (hdone u hu' huv)
      · rw [hother u hu'] at hu huv
        rw [hother v hv'] at huv
        exact h.apart u v hne hu huv
  · rw [hfresh.full,hpeak,hlive]

theorem congr_seen {seen' : Wire → Prop} (h : Holding graph scratch seen alive s)
    (hiff : ∀ w, scratch.contains w = true → (seen w ↔ seen' w)) :
    Holding graph scratch seen' alive s :=
  {h with slotted := fun w => (h.slotted w).trans (and_congr_right (hiff w))}

theorem mention (h : Holding graph scratch seen alive s)
    (hdead : ¬seen w → ∀ v, seen v → scratch.contains v = true → v ∉ alive → Apart graph v w) :
    ∃ alive', Holding graph scratch (fun v => seen v ∨ v = w) alive' (s.mention scratch w) ∧
      (∀ v, v ∈ alive' ↔ v ∈ alive ∨ (v = w ∧ scratch.contains w = true ∧ ¬seen w)) ∧
      (s.mention scratch w).peakLive = s.peakLive ∧
      (s.mention scratch w).deaths = s.deaths := by
  rw [Sweep.mention]
  by_cases hfirst : scratch.contains w = true ∧ s.slot w = none
  · have hnew : ¬seen w := fun hw => (h.slotted w).mpr ⟨hfirst.1,hw⟩ hfirst.2
    obtain ⟨hpeak,hdeaths,_⟩ := allocate_frame s w
    rw [if_pos hfirst]
    refine ⟨w :: alive,h.allocate hfirst.1 hnew (hdead hnew),fun v => ?_,hpeak,hdeaths⟩
    simp only [mem_cons,hfirst.1,hnew,not_false_eq_true,and_self,and_true]
    exact or_comm
  · rw [if_neg hfirst]
    have hseen : scratch.contains w = true → seen w := by
      intro hc
      by_contra hnew
      refine hfirst ⟨hc,?_⟩
      by_contra hne
      exact hnew ((h.slotted w).mp hne).2
    refine ⟨alive,h.congr_seen fun v hc => ?_,fun v => ?_,rfl,rfl⟩
    · constructor
      · exact .inl
      · rintro (hv | rfl)
        · exact hv
        · exact hseen hc
    · constructor
      · exact .inl
      · rintro (hv | ⟨_,hc,hnew⟩)
        · exact hv
        · exact absurd (hseen hc) hnew

theorem mentions (wires : List Wire) : ∀ {seen : Wire → Prop} {alive : List Wire} {s : Sweep},
    Holding graph scratch seen alive s →
    (∀ w ∈ wires, ¬seen w →
      ∀ v, seen v → scratch.contains v = true → v ∉ alive → Apart graph v w) →
    ∃ alive', Holding graph scratch (fun v => seen v ∨ v ∈ wires) alive'
        (wires.foldl (Sweep.mention scratch) s) ∧
      (∀ v, v ∈ alive' ↔ v ∈ alive ∨ (v ∈ wires ∧ scratch.contains v = true ∧ ¬seen v)) ∧
      (wires.foldl (Sweep.mention scratch) s).peakLive = s.peakLive ∧
      (wires.foldl (Sweep.mention scratch) s).deaths = s.deaths := by
  induction wires with
  | nil =>
    intro seen alive s h _
    refine ⟨alive,h.congr_seen fun w _ => ?_,fun v => ?_,rfl,rfl⟩
    · simp only [not_mem_nil,or_false]
    · simp only [not_mem_nil,false_and,or_false]
  | cons w rest ih =>
    intro seen alive s h hdead
    obtain ⟨alive₁,h₁,hmem₁,hpeak₁,hdeaths₁⟩ := h.mention (hdead w (mem_cons_self ..))
    obtain ⟨alive₂,h₂,hmem₂,hpeak₂,hdeaths₂⟩ := ih h₁ fun u hu hnew v hv hc hv' => by
      rw [not_or] at hnew
      have hnot := mt (hmem₁ v).mpr hv'
      rw [not_or] at hnot
      -- A value seen and not alive was seen before this mention.
      have hseen : seen v := by
        by_contra hns
        exact hnot.2 ⟨hv.resolve_left hns,hv.resolve_left hns ▸ hc,hv.resolve_left hns ▸ hns⟩
      exact hdead u (mem_cons_of_mem _ hu) hnew.1 v hseen hc hnot.1
    refine ⟨alive₂,h₂.congr_seen fun v _ => ?_,fun v => ?_,hpeak₂.trans hpeak₁,
      hdeaths₂.trans hdeaths₁⟩
    · simp only [mem_cons,or_assoc]
    · rw [hmem₂,hmem₁,mem_cons]
      by_cases hv : v = w
      · subst hv
        simp only [true_and,or_true,not_true,and_false,or_false,true_or]
      · simp only [hv,false_and,or_false,false_or]

end Holding

theorem reclaim_ok {index : ℕ} {slot : Slots} {target : List (Option ℕ)}
    (deaths : List (ℕ × ℕ)) :
    ∀ {alive : List Wire} {free : List ℕ}, deaths.Pairwise Earlier →
      (deaths.map Prod.snd).Nodup → (∀ d ∈ deaths, index ≤ d.1) →
      (∀ d ∈ deaths, d.1 = index → d.2 ∈ alive) → alive.Nodup →
      (∀ w ∈ alive, slot w ≠ none) → (alive.map slot ++ free.map some).Perm target →
      ∃ (alive' : List Wire) (free' : List ℕ), Sweep.reclaim index slot deaths free alive.length =
          some (deaths.filter (fun d => decide (index + 1 ≤ d.1)),free',alive'.length) ∧
        (alive'.map slot ++ free'.map some).Perm target ∧
        ∀ w, w ∈ alive' ↔ w ∈ alive ∧ (index,w) ∉ deaths := by
  induction deaths with
  | nil =>
    intro alive free _ _ _ _ _ _ hperm
    exact ⟨alive,free,rfl,hperm,fun w => by simp only [not_mem_nil,not_false_eq_true,
      and_true]⟩
  | cons d rest ih =>
    obtain ⟨gate,wire⟩ := d
    intro alive free hsorted hnodup hge hdying hn hslotted hperm
    rw [pairwise_cons] at hsorted
    rw [map_cons,nodup_cons] at hnodup
    rw [forall_mem_cons] at hge hdying
    by_cases hgate : gate = index
    · subst hgate
      have hwire : wire ∈ alive := hdying.1 rfl
      obtain ⟨n,hslot⟩ := Option.ne_none_iff_exists'.mp (hslotted wire hwire)
      have hswap : ((alive.erase wire).map slot ++ (n :: free).map some).Perm target := by
        have halive := (perm_cons_erase hwire).map slot
        rw [map_cons,hslot] at halive
        rw [map_cons]
        exact (perm_middle.trans (halive.symm.append_right _)).trans hperm
      have hlen : alive.length - 1 = (alive.erase wire).length := (length_erase_of_mem hwire).symm
      have hnotin : ∀ w, (gate,w) ∈ rest → w ≠ wire := by
        rintro w hw rfl
        exact hnodup.1 (mem_map.mpr ⟨_,hw,rfl⟩)
      have hstill : ∀ d ∈ rest, d.1 = gate → d.2 ∈ alive.erase wire := fun d hd he =>
        (mem_erase_of_ne (hnotin d.2 (he ▸ hd))).mpr (hdying.2 d hd he)
      obtain ⟨alive',free',hrun,hperm',hmem⟩ := ih hsorted.2 hnodup.2 hge.2 hstill
        (hn.erase wire) (fun w hw => hslotted w (mem_of_mem_erase hw)) hswap
      refine ⟨alive',free',?_,hperm',fun w => ?_⟩
      · rw [Sweep.reclaim,if_pos rfl,hslot,hlen,filter_cons_of_neg]
        · exact hrun
        · simp only [decide_eq_true_eq]
          omega
      · rw [hmem,hn.mem_erase_iff,mem_cons,not_or,Prod.mk.injEq]
        simp only [true_and]
        tauto
    · have hlater : ∀ d ∈ (gate,wire) :: rest, index + 1 ≤ d.1 := by
        have hlt : index + 1 ≤ gate := by
          have := hge.1
          omega
        rw [forall_mem_cons]
        refine ⟨hlt,fun d hd => ?_⟩
        rcases hsorted.1 d hd with hd' | ⟨hd',_⟩
        · exact hlt.trans hd'.le
        · exact hlt.trans_eq hd'
      refine ⟨alive,free,?_,hperm,fun w => ?_⟩
      · rw [Sweep.reclaim,if_neg hgate,filter_eq_self.mpr]
        intro d hd
        exact decide_eq_true (hlater d hd)
      · rw [iff_self_and]
        intro _ hw
        exact Nat.not_succ_le_self _ (hlater _ hw)

structure Swept (graph : Graph) (scratch : EntitySet) (i : GateId) (s : Sweep) : Prop where
  holding : ∃ alive, Holding graph scratch (Before graph i) alive s ∧
    ∀ w, w ∈ alive ↔ scratch.contains w = true ∧ Before graph i w ∧ After graph i w
  sampled : s.nSlots = s.peakLive
  mark : s.peakLive = peakUpTo graph scratch i
  cursor : s.deaths = (orderDeaths graph scratch).filter fun d => decide (i ≤ d.1)

section Run

variable {graph : Graph} {scratch : EntitySet} {pre suf : List GateData} {g : GateData} {s : Sweep}

theorem step_swept (hgraph : graph.gates = pre ++ g :: suf)
    (h : Swept graph scratch pre.length s) :
    ∃ s', Sweep.step scratch s (g,pre.length) = some s' ∧
      Swept graph scratch (pre.length + 1) s' := by
  obtain ⟨alive,hholding,hmem⟩ := h.holding
  have hbefore : ∀ w, Before graph (pre.length + 1) w ↔ _ := fun w => before_succ hgraph
  have hafter : ∀ w, After graph pre.length w ↔ _ := fun w => after_succ hgraph
  have hgate : graph.gates[pre.length]? = some g := by
    rw [hgraph,getElem?_append_right (Nat.le_refl _),Nat.sub_self,getElem?_cons_zero]
  -- A value seen and not alive is done with before this gate.
  obtain ⟨alive₁,h₁,hmem₁,hpeak₁,hdeaths₁⟩ := hholding.mentions g.wires
    fun w _ hnew v hv hc hv' =>
      ⟨pre.length,fun ha => hv' ((hmem v).mpr ⟨hc,hv,ha⟩),hnew⟩
  have hlive : ∀ w, w ∈ alive₁ ↔ w ∈ liveAt graph scratch pre.length := by
    intro w
    rw [hmem₁,hmem,mem_liveAt,hbefore,hafter]
    tauto
  have hcount : alive₁.length = (liveAt graph scratch pre.length).length :=
    ((perm_ext_iff_of_nodup h₁.alive_nodup
      ((EntitySet.nodup_iter scratch).filter _)).mpr hlive).length_eq
  generalize hs₁ : g.wires.foldl (Sweep.mention scratch) s = s₁ at h₁ hpeak₁ hdeaths₁
  have hdeaths : s₁.deaths = (orderDeaths graph scratch).filter
      fun d => decide (pre.length ≤ d.1) := hdeaths₁.trans h.cursor
  have hdying : ∀ d ∈ s₁.deaths, d.1 = pre.length → d.2 ∈ alive₁ := by
    intro d hd he
    rw [hdeaths,mem_filter] at hd
    obtain ⟨hc,⟨g',hg',hw⟩,_⟩ := mem_orderDeaths.mp hd.1
    rw [he,hgate,Option.some.injEq] at hg'
    subst hg'
    exact (hlive _).mpr (mem_liveAt.mpr ⟨hc,(hbefore _).mpr (.inr hw),(hafter _).mpr (.inl hw)⟩)
  obtain ⟨alive₂,free₂,hrun,hperm₂,hmem₂⟩ := reclaim_ok s₁.deaths
    (by rw [hdeaths]; exact (orderDeaths_sorted graph scratch).filter _)
    (by
      rw [hdeaths]
      exact (orderDeaths_nodup graph scratch).sublist (filter_sublist.map _))
    (fun d hd => by
      rw [hdeaths,mem_filter,decide_eq_true_eq] at hd
      exact hd.2)
    hdying h₁.alive_nodup (fun w hw => h₁.slot_ne_none hw) h₁.held
  have hmark : s₁.nSlots = max s₁.peakLive s₁.live := h₁.full
  have hlen₂ : alive₂.length ≤ s₁.nSlots := by
    have hlen := hperm₂.length_eq
    rw [length_append,length_map,length_map,length_map,
      length_range] at hlen
    omega
  refine ⟨{s₁ with
    peakLive := max s₁.peakLive s₁.live
    deaths := s₁.deaths.filter fun d => decide (pre.length + 1 ≤ d.1)
    free := free₂
    live := alive₂.length},?_,?_⟩
  · rw [Sweep.step]
    dsimp only
    rw [hs₁,h₁.counted,hrun]
    rfl
  · refine ⟨⟨alive₂,?_,fun w => ?_⟩,hmark,?_,?_⟩
    · refine ⟨fun w => ?_,hperm₂,rfl,h₁.below,h₁.apart,?_⟩
      · rw [h₁.slotted,hbefore]
      · dsimp only
        omega
    · rw [hmem₂,hlive,mem_liveAt,hdeaths,mem_filter,mem_orderDeaths,hgate,hafter]
      simp only [Option.some.injEq,exists_eq_left',le_refl,decide_true,and_true]
      tauto
    · dsimp only
      rw [peakUpTo,← hcount,hpeak₁,h.mark,h₁.counted]
    · dsimp only
      rw [hdeaths,filter_filter]
      refine filter_congr fun d _ => ?_
      rw [← Bool.decide_and]
      exact decide_eq_decide.mpr ⟨fun h => h.1,fun h => ⟨h,Nat.le_of_succ_le h⟩⟩

theorem run_swept (hgraph : graph.gates = pre ++ suf) :
    ∃ s, pre.zipIdx.foldlM (Sweep.step scratch)
        ⟨fun _ => none,[],0,0,0,orderDeaths graph scratch⟩ = some s ∧
      Swept graph scratch pre.length s := by
  induction pre using reverseRecOn generalizing suf with
  | nil =>
    refine ⟨_,rfl,⟨[],⟨fun w => ?_,List.Perm.refl _,rfl,nofun,nofun,rfl⟩,fun w => ?_⟩,rfl,rfl,?_⟩
    · simp only [ne_eq,not_true,false_iff,not_and]
      exact fun _ => not_before_zero
    · simp only [not_mem_nil,false_iff,not_and]
      exact fun _ h => absurd h not_before_zero
    · exact (filter_eq_self.mpr fun d _ => decide_eq_true (Nat.zero_le d.1)).symm
  | append_singleton pre g ih =>
    rw [append_assoc,singleton_append] at hgraph
    obtain ⟨s,hs,hswept⟩ := ih hgraph
    obtain ⟨s',hs',hswept'⟩ := step_swept hgraph hswept
    refine ⟨s',?_,?_⟩
    · rw [zipIdx_append,foldlM_append,hs]
      simp only [zipIdx_singleton,Nat.zero_add]
      change [(g,pre.length)].foldlM (Sweep.step scratch) s = _
      rw [foldlM_cons,hs']
      rfl
    · rw [length_append,length_singleton]
      exact hswept'

end Run

def Mentioned (graph : Graph) (w : Wire) : Prop := ∃ g ∈ graph.gates, w ∈ g.wires

structure Suited (graph : Graph) (scratch : EntitySet) (slot : Slots) (nSlots : ℕ) : Prop where
  placed : ∀ w, scratch.contains w = true → ∃ n < nSlots, slot w = some n
  apart : ∀ v w, v ≠ w → slot v ≠ none → slot v = slot w → Apart graph v w ∨ Apart graph w v

variable {graph : Graph} {scratch : EntitySet}

theorem poolSlots_ok
    (hm : ∀ w, scratch.contains w = true → Mentioned graph w) :
    ∃ slot, poolSlots graph scratch (orderDeaths graph scratch) =
        some (slot,peak graph scratch) ∧
      Suited graph scratch slot (peak graph scratch) := by
  have hgraph : graph.gates = graph.gates ++ [] := (append_nil _).symm
  obtain ⟨s,hs,hswept⟩ := @run_swept graph scratch _ _ hgraph
  obtain ⟨alive,hholding,_⟩ := hswept.holding
  have hmark : s.peakLive = peak graph scratch := hswept.mark
  have hsome : ∀ w, scratch.contains w = true → s.slot w ≠ none := by
    intro w hc
    obtain ⟨g,hg,hw⟩ := hm w hc
    exact (hholding.slotted w).mpr ⟨hc,g,by rwa [take_length],hw⟩
  have hcheck : s.nSlots = s.peakLive ∧ ∀ w ∈ scratch.iter, (s.slot w).isSome = true :=
    ⟨hswept.sampled,fun w hw => Option.isSome_iff_ne_none.mpr (hsome w (EntitySet.mem_iter.mp hw))⟩
  refine ⟨s.slot,?_,fun w hc => ?_,hholding.apart⟩
  · rw [poolSlots,hs]
    change (if _ then _ else _) = _
    rw [if_pos hcheck,hmark]
    rfl
  · obtain ⟨n,hn⟩ := Option.ne_none_iff_exists'.mp (hsome w hc)
    refine ⟨n,?_,hn⟩
    rw [← hmark,← hswept.sampled]
    exact hholding.below w n hn

theorem lt_succ_of_ne {w n : ℕ} (h : w ≠ n) : w < n + 1 ↔ w < n := by omega

/-- What numbering the values of a segment one by one hands out. -/
structure Numbered (scratch : EntitySet) (n : ℕ) (acc : Slots × ℕ) : Prop where
  slotted : ∀ w, acc.1 w ≠ none ↔ scratch.contains w = true ∧ w < n
  below : ∀ w k, acc.1 w = some k → k < acc.2
  injective : ∀ v w, acc.1 v ≠ none → acc.1 v = acc.1 w → v = w

theorem numbered_range (scratch : EntitySet) (n : ℕ) :
    Numbered scratch n ((range n).foldl (placeNext scratch) (fun _ => none,0)) := by
  induction n with
  | zero =>
    refine ⟨fun w => ?_,nofun,fun v w hv => absurd rfl hv⟩
    simp only [range_zero,foldl_nil,ne_eq,not_true,Nat.not_lt_zero,and_false]
  | succ n ih =>
    rw [range_succ,foldl_append]
    generalize (range n).foldl (placeNext scratch) (fun _ => none,0) = acc at ih ⊢
    rw [foldl_cons,foldl_nil,placeNext]
    have hnew : acc.1 n = none := by
      by_contra hne
      exact Nat.lt_irrefl n ((ih.slotted n).mp hne).2
    by_cases hc : scratch.contains n = true
    · rw [if_pos hc]
      refine ⟨fun w => ?_,fun w k hk => ?_,fun v w hv hvw => ?_⟩
      · by_cases hw : w = n
        · subst hw
          simp only [update_self,ne_eq,reduceCtorEq,not_false_eq_true,hc,
            Nat.lt_succ_self,and_self]
        · dsimp only
          rw [update_of_ne hw,ih.slotted]
          exact and_congr_right fun _ => (lt_succ_of_ne hw).symm
      · dsimp only at hk ⊢
        by_cases hw : w = n
        · subst hw
          rw [update_self,Option.some.injEq] at hk
          omega
        · rw [update_of_ne hw] at hk
          exact Nat.lt_succ_of_lt (ih.below w k hk)
      · dsimp only at hv hvw
        by_cases hv' : v = n
        · subst hv'
          by_contra hne
          rw [update_self,update_of_ne (Ne.symm hne)] at hvw
          exact Nat.lt_irrefl _ (ih.below w _ hvw.symm)
        · rw [update_of_ne hv'] at hv hvw
          by_cases hw' : w = n
          · subst hw'
            rw [update_self] at hvw
            exact absurd (ih.below v _ hvw) (Nat.lt_irrefl _)
          · rw [update_of_ne hw'] at hvw
            exact ih.injective v w hv hvw
    · rw [if_neg hc]
      refine ⟨fun w => ?_,ih.below,ih.injective⟩
      rw [ih.slotted]
      refine and_congr_right fun hcw => ?_
      have hw : w ≠ n := by
        rintro rfl
        exact hc hcw
      exact (lt_succ_of_ne hw).symm

theorem slotPerWire_ok
    (hlt : ∀ w, scratch.contains w = true → w < graph.wires.length) :
    Suited graph scratch (slotPerWire graph scratch).1 (slotPerWire graph scratch).2 := by
  have hnum := numbered_range scratch graph.wires.length
  refine ⟨fun w hc => ?_,fun v w hne hv hvw => absurd (hnum.injective v w hv hvw) hne⟩
  obtain ⟨n,hn⟩ := Option.ne_none_iff_exists'.mp ((hnum.slotted w).mpr ⟨hc,hlt w hc⟩)
  exact ⟨n,hnum.below w n hn,hn⟩

theorem new_ok
    (hm : ∀ w, scratch.contains w = true → Mentioned graph w)
    (hlt : ∀ w, scratch.contains w = true → w < graph.wires.length) (policy : ScratchPolicy) :
    ∃ alloc, ScratchAlloc.new graph scratch policy = some alloc ∧
      Suited graph scratch alloc.slot alloc.nSlots ∧
      (policy = .pooled → alloc.nSlots = peak graph scratch) := by
  obtain ⟨slot,hpool,hsuited⟩ := poolSlots_ok hm
  cases policy with
  | pooled =>
    refine ⟨⟨slot,peak graph scratch,peak graph scratch⟩,?_,hsuited,fun _ => rfl⟩
    rw [ScratchAlloc.new,hpool]
    rfl
  | perWire =>
    refine ⟨⟨(slotPerWire graph scratch).1,(slotPerWire graph scratch).2,peak graph scratch⟩,?_,
      slotPerWire_ok hlt,nofun⟩
    rw [ScratchAlloc.new,hpool]
    rfl

end Binius64.ScratchSweep
