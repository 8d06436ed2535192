import Binius64.RegisterLayout
import Binius64.GateCorrectness

/-!
# Sharing scratch slots changes nothing observable

Read over wires, a graph is a straight-line program, one assignment a gate.
-/

namespace Binius64.ScratchPooling

open MachineWord ValueVector StraightLine WireConstraints EvalForm GateGraph GateKinds GateSemantics
open List GateEmission GraphInvariant GateCorrectness ScratchAlloc ScratchSweep RegisterLayout

def assignment (hints : HintRegistry) (g : GateData) : Assign Wire Word :=
  ⟨g.writes,g.reads,fun words => written hints g (words.drop g.constants.length)⟩

def program (hints : HintRegistry) (gates : List GateData) : List (Assign Wire Word) :=
  gates.map (assignment hints)

def recordedAll (hints : HintRegistry) : List GateData → (Wire → Word) → List RecordedFailure
  | [], _ => []
  | g :: rest, σ =>
    recorded g (g.inputs.map σ) ++ recordedAll hints rest ((assignment hints g).step σ)

theorem recordedAll_append (hints : HintRegistry) (first second : List GateData)
    (σ : Wire → Word) :
    recordedAll hints (first ++ second) σ =
      recordedAll hints first σ ++ recordedAll hints second (run (program hints first) σ) := by
  induction first generalizing σ with
  | nil => rfl
  | cons g rest ih =>
    rw [cons_append,recordedAll,recordedAll,ih,append_assoc]
    rfl

theorem assignment_words (hints : HintRegistry) (g : GateData) (σ : Wire → Word) :
    (assignment hints g).compute ((assignment hints g).srcs.map σ) =
      written hints g (g.inputs.map σ) := by
  change written hints g (((g.constants ++ g.inputs).map σ).drop g.constants.length) = _
  rw [map_append,drop_left' (length_map ..)]

theorem mentioned_program {hints : HintRegistry} {gates : List GateData} {w : Wire} :
    StraightLine.Mentioned (program hints gates) w ↔ ∃ g ∈ gates, w ∈ g.wires := by
  have hwires : ∀ g : GateData, (assignment hints g).Mentions w ↔ w ∈ g.wires := by
    intro g
    rw [GateData.mem_wires]
    exact or_comm
  simp only [StraightLine.Mentioned,program,mem_map,exists_exists_and_eq_and,hwires]

section Graph

variable {hints : HintRegistry} {graph : Graph}

variable {g : GateData} {w : Wire}

omit graph in
theorem assignment_sized (hg : Fits hints g)
    {words : List Word} (hlen : words.length = (assignment hints g).srcs.length) :
    ((assignment hints g).compute words).length = (assignment hints g).dsts.length := by
  refine written_length hg.shaped ?_
  have hreads : words.length = g.constants.length + g.inputs.length :=
    hlen.trans (length_append ..)
  rw [length_drop]
  omega

omit graph in
theorem ordered_of {gates : List GateData} (hfits : ∀ g ∈ gates, Fits hints g)
    (hdistinct : (gates.flatMap GateData.writes).Nodup)
    (hbefore : ∀ (i j : ℕ) (g g' : GateData) (w : Wire), gates[i]? = some g → gates[j]? = some g' →
      w ∈ g.reads → w ∈ g'.writes → j < i) : Ordered (program hints gates) where
  sized := by
    rintro a ha words hlen
    obtain ⟨g,hg,rfl⟩ := mem_map.mp ha
    exact assignment_sized (hfits g hg) hlen
  distinct := by
    rw [program,flatMap_map]
    exact hdistinct
  later := by
    rw [program,pairwise_map,pairwise_iff_getElem]
    intro i j hi hj hij w hr hwr
    exact Nat.lt_asymm hij (hbefore i j _ _ w (getElem?_eq_getElem hi)
      (getElem?_eq_getElem hj) hr hwr)
  apart := by
    rintro a ha w hr hwr
    obtain ⟨g,hg,rfl⟩ := mem_map.mp ha
    obtain ⟨i,hi⟩ := mem_iff_getElem?.mp hg
    exact Nat.lt_irrefl i (hbefore i i g g w hi hi hr hwr)

theorem program_ordered (hw : WellFormed hints graph) : Ordered (program hints graph.gates) :=
  ordered_of hw.fits hw.distinct fun _ _ _ _ _ hi hj hr hwr => (hw.writer_of_read hi hj hr hwr).1

theorem assignment_nodup (hw : WellFormed hints graph) (hg : g ∈ graph.gates) :
    (assignment hints g).dsts.Nodup :=
  (nodup_flatMap.mp hw.distinct).1 g hg

theorem run_constant (hw : WellFormed hints graph) {pre suf : List GateData}
    (hgraph : graph.gates = pre ++ suf) {word : Word}
    (hc : graph.constOf w = some word) (σ : Wire → Word) :
    run (program hints pre) σ w = σ w := by
  refine run_of_notMem fun a ha => ?_
  obtain ⟨g,hg,rfl⟩ := mem_map.mp ha
  exact (hw.constant_unwritten hc).unwritten g (hgraph ▸ mem_append_left suf hg)

variable {scratch : EntitySet} {alloc : Allocation}

theorem Classified.mentioned (hc : Classified graph scratch)
    (hs : scratch.contains w = true) : ScratchSweep.Mentioned graph w := by
  obtain ⟨g,hg,hwr⟩ := hc.written w hs
  exact ⟨g,hg,GateData.mem_wires.mpr (.inr hwr)⟩

theorem Classified.lt (hc : Classified graph scratch)
    (hs : scratch.contains w = true) : w < graph.wires.length := by
  obtain ⟨kind,hk,_⟩ := hc.created w hs
  exact (List.getElem?_eq_some_iff.mp hk).1

theorem not_apart {pre suf : List GateData} (hgraph : graph.gates = pre ++ g :: suf)
    {v : Wire} (hv : ∃ p ∈ g :: suf, v ∈ p.wires) (hw : ∃ p ∈ pre ++ [g], w ∈ p.wires) :
    ¬Apart graph v w := by
  rintro ⟨i,hafter,hbefore⟩
  rcases Nat.lt_or_ge pre.length i with hlt | hge
  · refine hbefore ?_
    obtain ⟨p,hp,hwp⟩ := hw
    refine ⟨p,mem_of_mem_take (i := pre.length + 1) ?_,hwp⟩
    rw [take_take,Nat.min_eq_left (show pre.length + 1 ≤ i from hlt),hgraph,take_length_add_append,
      take_succ_cons,take_zero]
    exact hp
  · refine hafter ?_
    obtain ⟨p,hp,hvp⟩ := hv
    refine ⟨p,?_,hvp⟩
    rw [hgraph,drop_append_of_le_length hge]
    exact mem_append_right _ hp

theorem scratch_of_wire (hw : WellFormed hints graph) (hc : Classified graph scratch)
    (hg : g ∈ graph.gates) (hwg : w ∈ g.wires)
    (hn : w ∉ committed graph scratch) : scratch.contains w = true := by
  by_contra hs
  exact hn ((mem_committed hc).mpr ⟨hw.wire_lt hg hwg,Bool.not_eq_true _ |>.mp hs⟩)

theorem register_ne (hc : Classified graph scratch) {u v : Wire}
    (hu : u ∈ committed graph scratch) (hv : scratch.contains v = true) :
    register graph scratch alloc u ≠ register graph scratch alloc v := by
  rw [register_committed hc hu,register_scratch hc hv]
  exact (Nat.lt_add_right _ (idxOf_lt_length_of_mem hu)).ne

theorem register_fitted (hw : WellFormed hints graph) (hc : Classified graph scratch)
    (hs : Suited graph scratch alloc.slot alloc.nSlots) :
    Fitted (register graph scratch alloc) (· ∈ committed graph scratch)
      (program hints graph.gates) where
  clash := by
    intro pre a suf hprog v hv u hne halive heq
    obtain ⟨gpre,grest,hgraph,rfl,hrest⟩ := map_eq_append_iff.mp hprog
    obtain ⟨g,gsuf,rfl,rfl,rfl⟩ := map_eq_cons_iff.mp hrest
    have hg : g ∈ graph.gates := hgraph ▸ mem_append_right _ (mem_cons_self ..)
    have hvg : v ∈ g.wires := GateData.mem_wires.mpr (.inr hv)
    by_cases hu : u ∈ committed graph scratch
    · by_cases hv : v ∈ committed graph scratch
      · rw [register_committed hc hu,register_committed hc hv] at heq
        exact hne ((idxOf_inj hu).mp heq)
      · exact register_ne hc hu (scratch_of_wire hw hc hg hvg hv) heq
    · -- An uncommitted wire is alive because gates on both sides mention it.
      obtain ⟨hpre,hsuf⟩ := halive.resolve_left hu
      have hpre' : ∃ p ∈ gpre ++ [g], u ∈ p.wires := by
        have hp : program hints (gpre ++ [g]) =
            gpre.map (assignment hints) ++ [assignment hints g] := map_append
        rw [← hp] at hpre
        exact mentioned_program.mp hpre
      have hsuf' : ∃ p ∈ g :: gsuf, u ∈ p.wires :=
        mentioned_program.mp (show StraightLine.Mentioned (program hints (g :: gsuf)) u from hsuf)
      obtain ⟨p,hp,hup⟩ := hsuf'
      have hus := scratch_of_wire hw hc (hgraph ▸ mem_append_right _ hp) hup hu
      by_cases hv : v ∈ committed graph scratch
      · exact register_ne hc hv hus heq.symm
      · have hvs := scratch_of_wire hw hc hg hvg hv
        obtain ⟨n,_,hn⟩ := hs.placed u hus
        obtain ⟨m,_,hm⟩ := hs.placed v hvs
        have hslot : alloc.slot u = alloc.slot v := by
          rw [register_scratch hc hus,register_scratch hc hvs,hn,hm,Option.getD_some,
            Option.getD_some] at heq
          rw [hn,hm,Nat.add_left_cancel heq]
        -- Both are mentioned on either side of this gate, so neither is done before the other.
        have hvpre : ∃ p ∈ gpre ++ [g], v ∈ p.wires :=
          ⟨g,mem_append_right _ (mem_singleton_self g),hvg⟩
        have hvsuf : ∃ p ∈ g :: gsuf, v ∈ p.wires := ⟨g,mem_cons_self ..,hvg⟩
        rcases hs.apart u v hne (by rw [hn]; exact Option.some_ne_none n) hslot with h | h
        · exact not_apart hgraph ⟨p,hp,hup⟩ hvpre h
        · exact not_apart hgraph hvsuf hpre' h
  sourced := by
    intro pre a suf hprog v hv
    obtain ⟨gpre,grest,hgraph,rfl,hrest⟩ := map_eq_append_iff.mp hprog
    obtain ⟨g,gsuf,rfl,rfl,rfl⟩ := map_eq_cons_iff.mp hrest
    have hg : graph.gates[gpre.length]? = some g := by
      rw [hgraph,getElem?_append_right (Nat.le_refl _),Nat.sub_self,getElem?_cons_zero]
    have hread := hw.readable _ g hg v hv
    rcases hread with hd | ⟨j,hj,g',hg',ho⟩
    · refine .inl (by_contra fun hn => ?_)
      have hvg : v ∈ g.wires := GateData.mem_wires.mpr (.inl hv)
      have hns := scratch_of_wire hw hc (mem_of_getElem? hg) hvg hn
      obtain ⟨kind,hk,hcreated⟩ := hc.created v hns
      obtain ⟨kind',hk',hint,hscr⟩ := hd.kind
      rw [hk,Option.some.injEq] at hk'
      subst hk'
      cases kind with
      | internal => exact hint rfl
      | scratch => exact hscr rfl
      | _ => cases hcreated
    · refine .inr (mentioned_program.mpr ⟨g',?_,GateData.mem_wires.mpr (.inr
        (mem_writes_of_outputs ho))⟩)
      rw [hgraph,getElem?_append_left hj] at hg'
      exact mem_of_getElem? hg'

theorem rename_step (hints : HintRegistry) (g : GateData) (reg : Wire → Reg) (ρ : Regs) :
    ((assignment hints g).rename reg).step ρ =
      writeAll ((g.writes.map reg).zip (written hints g (g.inputs.map fun w => ρ (reg w)))) ρ := by
  have hwords := assignment_words hints g fun w => ρ (reg w)
  rw [Assign.step,Assign.rename]
  dsimp only
  rw [map_map]
  exact congrArg (fun words => writeAll ((g.writes.map reg).zip words) ρ) hwords

variable {reg : Wire → Reg} {kept : Wire → Prop} {σ : Wire → Word}

theorem ready_of_agree (hw : WellFormed hints graph)
    {pre suf : List GateData} (hgraph : graph.gates = pre ++ g :: suf)
    (hfit : Fitted reg kept (program hints pre ++ assignment hints g :: program hints suf))
    {ρ : Regs}
    (hconst : ∀ w word, graph.constOf w = some word → σ w = word)
    (hagree : ∀ w, Alive kept (program hints pre) (assignment hints g :: program hints suf) w →
      ρ (reg w) = run (program hints pre) σ w) : Ready hints g reg ρ where
  constants := by
    have hg : g ∈ graph.gates := hgraph ▸ mem_append_right _ (mem_cons_self ..)
    refine hw.constantsHold hg fun w hwc word hword => ?_
    have halive := hfit.src_alive (show w ∈ (assignment hints g).srcs from
      mem_append_left _ hwc)
    rw [hagree w halive,run_constant hw hgraph hword,hconst w word hword]
  distinct := hfit.nodup
    (assignment_nodup hw (hgraph ▸ mem_append_right _ (mem_cons_self ..)))
  apart := by
    intro w hr hm
    obtain ⟨v,hv,heq⟩ := mem_map.mp hm
    have hg : g ∈ graph.gates := hgraph ▸ mem_append_right _ (mem_cons_self ..)
    have hne : w ≠ v := by
      rintro rfl
      exact (program_ordered hw).apart _ (mem_map_of_mem hg) w hr hv
    have hmention : StraightLine.Mentioned [assignment hints g] w :=
      ⟨_,mem_singleton_self _,.inr hr⟩
    refine hfit.clash _ _ _ rfl v hv w hne (.inr ⟨?_,_,mem_cons_self ..,.inr hr⟩) heq.symm
    exact ⟨_,mem_append_right _ (mem_singleton_self _),.inr hr⟩

theorem build_ok (hw : WellFormed hints graph)
    (hfit : Fitted reg kept (program hints graph.gates)) {pre suf : List GateData}
    (hgraph : graph.gates = pre ++ suf) :
    ∃ insns, buildBytecode reg pre = .ok insns ∧
      (∀ insn ∈ insns, ∀ r, r ∈ (insn.effect hints).dsts ∨ r ∈ (insn.effect hints).srcs →
        ∃ g ∈ pre, r ∈ g.wires.map reg) ∧
      ∀ ρ : Regs, (∀ w word, graph.constOf w = some word → ρ (reg w) = word) →
        runRegs hints insns ρ = run ((program hints pre).map (Assign.rename reg)) ρ ∧
        failures hints insns ρ = recordedAll hints pre fun w => ρ (reg w) := by
  induction pre using reverseRecOn generalizing suf with
  | nil => exact ⟨[],rfl,nofun,fun ρ _ => ⟨rfl,rfl⟩⟩
  | append_singleton pre g ih =>
    rw [append_assoc,singleton_append] at hgraph
    obtain ⟨insns,hbuild,hregs,hreads⟩ := ih hgraph
    have hg : g ∈ graph.gates := hgraph ▸ mem_append_right _ (mem_cons_self ..)
    have hshaped := (hw.fits g hg).shaped
    obtain ⟨mine,hmine,hemits⟩ := emit_ok hshaped reg
    refine ⟨insns ++ mine,?_,fun insn hi r hr => ?_,fun ρ hconst => ?_⟩
    · rw [buildBytecode,foldlM_append]
      change (buildBytecode reg pre >>= fun bytecode => [g].foldlM _ bytecode) = _
      rw [hbuild]
      change (emitBytecode g reg >>= fun insns' => pure (insns ++ insns')) >>= pure = _
      rw [hmine]
      rfl
    · rcases mem_append.mp hi with hi | hi
      · obtain ⟨p,hp,hr'⟩ := hregs insn hi r hr
        exact ⟨p,mem_append_left _ hp,hr'⟩
      · exact ⟨g,mem_append_right _ (mem_singleton_self g),hemits.regs insn hi r hr⟩
    · obtain ⟨hrun,hfail⟩ := hreads ρ hconst
      have hprog : program hints graph.gates =
          program hints pre ++ assignment hints g :: program hints suf := by
        rw [hgraph,program,map_append,map_cons]
        rfl
      have hordered := program_ordered hw
      rw [hprog] at hfit hordered
      have hagree : ∀ w,
          Alive kept (program hints pre) (assignment hints g :: program hints suf) w →
            runRegs hints insns ρ (reg w) = run (program hints pre) (fun u => ρ (reg u)) w := by
        intro w halive
        rw [hrun]
        exact hfit.run_agree hordered ρ halive
      have hready := ready_of_agree hw hgraph hfit hconst hagree
      have hinputs : g.inputs.map (fun w => runRegs hints insns ρ (reg w)) =
          g.inputs.map (run (program hints pre) fun u => ρ (reg u)) :=
        map_congr_left fun w hwi => hagree w (hfit.src_alive (mem_append_right _ hwi))
      have hrename : (program hints (pre ++ [g])).map (Assign.rename reg) =
          (program hints pre).map (Assign.rename reg) ++ [(assignment hints g).rename reg] := by
        rw [program,map_append,map_append]
        rfl
      constructor
      · rw [runRegs_append,hemits.run _ hready,hrename,StraightLine.run_append,run_cons,run_nil,
          ← hrun,rename_step]
      · rw [failures_append,hfail,emit_failures hshaped hmine hready,recordedAll_append,hinputs,
          recordedAll,recordedAll,append_nil]

theorem program_congr (hw : WellFormed hints graph)
    (hfit : Fitted reg kept (program hints graph.gates)) {τ : Wire → Word}
    (hst : ∀ w, kept w → σ w = τ w) {pre suf : List GateData} (hgraph : graph.gates = pre ++ suf)
    (hwk : kept w ∨ StraightLine.Mentioned (program hints pre) w) :
    run (program hints pre) σ w = run (program hints pre) τ w := by
  have hmem : ∀ g ∈ pre, g ∈ graph.gates := fun g hg => hgraph ▸ mem_append_left suf hg
  rw [hgraph,program,map_append] at hfit
  refine hfit.run_congr hst (fun a ha words hlen => ?_) (fun a ha => ?_) hwk
  · obtain ⟨g,hg,rfl⟩ := mem_map.mp ha
    exact assignment_sized (hw.fits g (hmem g hg)) hlen
  · obtain ⟨g,hg,rfl⟩ := mem_map.mp ha
    exact assignment_nodup hw (hmem g hg)

theorem recordedAll_congr (hw : WellFormed hints graph)
    (hfit : Fitted reg kept (program hints graph.gates)) {τ : Wire → Word}
    (hst : ∀ w, kept w → σ w = τ w) {pre suf : List GateData} (hgraph : graph.gates = pre ++ suf) :
    recordedAll hints pre σ = recordedAll hints pre τ := by
  induction pre using reverseRecOn generalizing suf with
  | nil => rfl
  | append_singleton pre g ih =>
    rw [append_assoc,singleton_append] at hgraph
    have hinputs : g.inputs.map (run (program hints pre) σ) =
        g.inputs.map (run (program hints pre) τ) := by
      refine map_congr_left fun w hwi => program_congr hw hfit hst hgraph ?_
      refine hfit.sourced (program hints pre) (assignment hints g) (program hints suf) ?_ w
        (mem_append_right _ hwi)
      rw [hgraph,program,map_append,map_cons]
      rfl
    rw [recordedAll_append,recordedAll_append,ih hgraph,recordedAll,recordedAll,hinputs,
      recordedAll,recordedAll]

structure Populated (graph : Graph) (scratch : EntitySet) (c : Compiled) (v : ValueVec) : Prop where
  sized : v.data.length = (layout graph scratch c.alloc).combinedLen + c.alloc.nSlots
  constants : ∀ w word, graph.constOf w = some word →
    v.wordAt (register graph scratch c.alloc w) = word

theorem register_lt (hw : WellFormed hints graph) (hc : Classified graph scratch) {c : Compiled}
    (hs : Suited graph scratch c.alloc.slot c.alloc.nSlots) {v : ValueVec}
    (hp : Populated graph scratch c v) (hg : g ∈ graph.gates)
    (hwg : w ∈ g.wires) : register graph scratch c.alloc w < v.data.length := by
  rw [hp.sized,combinedLen_eq]
  by_cases hcommitted : w ∈ committed graph scratch
  · rw [register_committed hc hcommitted]
    exact Nat.lt_add_right _ (idxOf_lt_length_of_mem hcommitted)
  · have hscratch := scratch_of_wire hw hc hg hwg hcommitted
    obtain ⟨n,hn,hslot⟩ := hs.placed w hscratch
    rw [register_scratch hc hscratch,hslot,Option.getD_some]
    exact Nat.add_lt_add_left hn _

theorem compile_ok (hw : WellFormed hints graph) (hc : Classified graph scratch)
    (policy : ScratchPolicy) :
    ∃ c, compile graph scratch policy = some c ∧
      Suited graph scratch c.alloc.slot c.alloc.nSlots ∧
      (policy = .pooled → c.alloc.nSlots = peak graph scratch) ∧
      ∀ v, Populated graph scratch c v →
        ∃ ctx, EvalForm.run hints c.bytecode (ExecutionContext.new v) = .ok ctx ∧
          (∀ w ∈ committed graph scratch,
            ctx.valueVec.wordAt (register graph scratch c.alloc w) =
              run (program hints graph.gates)
                (fun u => v.wordAt (register graph scratch c.alloc u)) w) ∧
          ctx.report = (recordedAll hints graph.gates
            fun u => v.wordAt (register graph scratch c.alloc u)).foldl
              ExecutionContext.addFailure ([],0) := by
  obtain ⟨alloc,halloc,hsuited,hpeak⟩ := new_ok (fun w => Classified.mentioned hc)
    (fun w => Classified.lt hc) policy
  have hfit := register_fitted hw hc hsuited
  have hwhole : graph.gates = graph.gates ++ [] := (append_nil _).symm
  obtain ⟨bytecode,hbuild,hregs,hreads⟩ := build_ok hw hfit hwhole
  refine ⟨⟨alloc,bytecode⟩,?_,hsuited,hpeak,fun v hp => ?_⟩
  · have hall : ∀ w ∈ scratch.iter, (alloc.slot w).isSome = true := by
      intro w hws
      obtain ⟨n,_,hn⟩ := hsuited.placed w (EntitySet.mem_iter.mp hws)
      rw [hn]
      rfl
    rw [compile,halloc]
    change (if _ then _ else _) = _
    rw [if_pos hall,hbuild]
    rfl
  · have hbelow : RegsBelow hints bytecode v.data.length := by
      intro insn hi r hr
      obtain ⟨g,hg,hrg⟩ := hregs insn hi r hr
      obtain ⟨w,hwg,rfl⟩ := mem_map.mp hrg
      exact register_lt hw hc hsuited hp hg hwg
    obtain ⟨hrun,hfail⟩ := hreads v.wordAt hp.constants
    obtain ⟨ctx,hctx,hwords,hreport⟩ :=
      @ExecutionContext.run_report hints bytecode (ExecutionContext.new v) hbelow
    refine ⟨ctx,hctx,fun w hwc => ?_,?_⟩
    · have hfit' : Fitted (register graph scratch alloc) (· ∈ committed graph scratch)
          (program hints graph.gates ++ []) := by
        rw [append_nil]
        exact hfit
      have hordered : Ordered (program hints graph.gates ++ []) := by
        rw [append_nil]
        exact program_ordered hw
      rw [hwords]
      change runRegs hints bytecode v.wordAt _ = _
      rw [hrun]
      exact hfit'.run_agree hordered v.wordAt (.inl hwc)
    · rw [hreport]
      change (failures hints bytecode v.wordAt).foldl _ ([],0) = _
      rw [hfail]

end Graph

/-- Of two wires in one slot, no gate reads the one written first from the other's
write on. -/
def SharesSafely (graph : Graph) (scratch : EntitySet) (slot : Slots) : Prop :=
  ∀ v w, v ≠ w → scratch.contains v = true → scratch.contains w = true → slot v = slot w →
    ∀ (i j k : ℕ) (g g' p : GateData), graph.gates[i]? = some g → graph.gates[j]? = some g' →
      graph.gates[k]? = some p → v ∈ g.writes → w ∈ g'.writes → i ≤ j → v ∈ p.reads → k < j

theorem sharesSafely_of_suited {graph : Graph} {scratch : EntitySet} {slot : Slots} {n : ℕ}
    (hs : Suited graph scratch slot n) : SharesSafely graph scratch slot := by
  intro v w hne hv _ hslot i j k g g' p hi hj hk hvg hwg hij hread
  obtain ⟨m,_,hm⟩ := hs.placed v hv
  have hvwires : v ∈ g.wires := GateData.mem_wires.mpr (.inr hvg)
  have hwwires : w ∈ g'.wires := GateData.mem_wires.mpr (.inr hwg)
  have hreader : v ∈ p.wires := GateData.mem_wires.mpr (.inl hread)
  rcases hs.apart v w hne (by rw [hm]; exact Option.some_ne_none m) hslot with
    ⟨l,ha,hb⟩ | ⟨l,ha,hb⟩
  · exact (lt_of_not_after hk hreader ha).trans_le (le_of_not_before hj hwwires hb)
  · have hlt := (lt_of_not_after hj hwwires ha).trans_le (le_of_not_before hi hvwires hb)
    exact absurd hij (Nat.not_le.mpr hlt)

/-- Two scratch wires share a slot only if the one written first is not read from the other's write on; over
buffers with the same committed words, both layouts evaluate to the same committed words and record the same
failures in the same order; and the slots are as many as scratch wires are ever alive at once. -/
theorem pooling_exact {hints : HintRegistry} {graph : Graph} {scratch : EntitySet}
    (hw : WellFormed hints graph) (hc : Classified graph scratch) :
    ∃ pooled perWire, compile graph scratch .pooled = some pooled ∧
      compile graph scratch .perWire = some perWire ∧
      SharesSafely graph scratch pooled.alloc.slot ∧
      (∀ v v', Populated graph scratch pooled v → Populated graph scratch perWire v' →
        (∀ p < (committed graph scratch).length, v.wordAt p = v'.wordAt p) →
        ∃ ctx ctx', EvalForm.run hints pooled.bytecode (ExecutionContext.new v) = .ok ctx ∧
          EvalForm.run hints perWire.bytecode (ExecutionContext.new v') = .ok ctx' ∧
          (∀ p < (committed graph scratch).length,
            ctx.valueVec.wordAt p = ctx'.valueVec.wordAt p) ∧
          ctx.assertionFailures = ctx'.assertionFailures ∧
          ctx.assertionCount = ctx'.assertionCount) ∧
      pooled.alloc.nSlots = peak graph scratch := by
  obtain ⟨pooled,hpooled,hsuited,hpeak,hrun⟩ := compile_ok hw hc .pooled
  obtain ⟨perWire,hperWire,_,_,hrun'⟩ := compile_ok hw hc .perWire
  refine ⟨pooled,perWire,hpooled,hperWire,sharesSafely_of_suited hsuited,?_,hpeak rfl⟩
  intro v v' hp hp' hsame
  obtain ⟨ctx,hctx,hwords,hreport⟩ := hrun v hp
  obtain ⟨ctx',hctx',hwords',hreport'⟩ := hrun' v' hp'
  have hagree : ∀ w ∈ committed graph scratch,
      v.wordAt (register graph scratch pooled.alloc w) =
        v'.wordAt (register graph scratch perWire.alloc w) := by
    intro w hwc
    rw [register_committed hc hwc,register_committed hc hwc]
    exact hsame _ (idxOf_lt_length_of_mem hwc)
  have hfit := register_fitted hw hc hsuited
  have hwhole : graph.gates = graph.gates ++ [] := (append_nil _).symm
  have hrecorded := recordedAll_congr hw hfit hagree hwhole
  have hsameReport : ctx.report = ctx'.report := by rw [hreport,hreport',hrecorded]
  refine ⟨ctx,ctx',hctx,hctx',fun p hlt => ?_,congrArg Prod.fst hsameReport,
    congrArg Prod.snd hsameReport⟩
  obtain ⟨w,hwc,hreg⟩ := exists_register hc hlt
  have hleft := hwords w hwc
  have hright := hwords' w hwc
  rw [hreg] at hleft hright
  rw [hleft,hright]
  exact program_congr hw hfit hagree hwhole (.inl hwc)

/-- A chain of three gates, each reading the result of the one before. -/
def chain : Graph where
  gates := [⟨.op .band,[],[1,2],[3],[],[],[],[],0⟩,⟨.op .band,[],[3,2],[4],[],[],[],[],0⟩,
    ⟨.op .band,[],[4,2],[5],[],[],[],[],0⟩]
  wires := [.constant allOne,.inOut,.constant 0xff,.internal,.internal,.internal]

theorem chain_wellFormed (hints : HintRegistry) : WellFormed hints chain where
  fits := by
    intro g hg
    simp only [chain,mem_cons,not_mem_nil,or_false] at hg
    rcases hg with rfl | rfl | rfl <;> exact ⟨rfl,rfl,rfl,rfl,rfl,nofun,nofun⟩
  distinct := by decide
  created := by
    intro g hg w hw
    simp only [chain,mem_cons,not_mem_nil,or_false] at hg
    rcases hg with rfl | rfl | rfl <;>
      · rw [mem_singleton.mp hw]
        exact ⟨.internal,rfl,.inl rfl⟩
  constants := by
    intro g hg
    simp only [chain,mem_cons,not_mem_nil,or_false] at hg
    rcases hg with rfl | rfl | rfl <;> rfl
  readable := by
    have hinput : ∀ i, Readable chain i 1 := fun i => .inl ⟨⟨.inOut,rfl,nofun,nofun⟩,by decide⟩
    have hmask : ∀ i, Readable chain i 2 := fun i => .inl ⟨⟨_,rfl,nofun,nofun⟩,by decide⟩
    intro i g hg w hw
    match i with
    | 0 =>
      cases hg
      rcases mem_cons.mp hw with rfl | hw
      · exact hinput 0
      · rw [mem_singleton.mp hw]
        exact hmask 0
    | 1 =>
      cases hg
      rcases mem_cons.mp hw with rfl | hw
      · exact .inr ⟨0,Nat.one_pos,_,rfl,mem_singleton_self _⟩
      · rw [mem_singleton.mp hw]
        exact hmask 1
    | 2 =>
      cases hg
      rcases mem_cons.mp hw with rfl | hw
      · exact .inr ⟨1,Nat.one_lt_two,_,rfl,mem_singleton_self _⟩
      · rw [mem_singleton.mp hw]
        exact hmask 2

theorem chain_classified : Classified chain [false,false,false,true,true,true] where
  created := by
    intro w hw
    match w with
    | 3 | 4 | 5 => exact ⟨.internal,rfl,rfl⟩
  written := by
    intro w hw
    match w with
    | 3 | 4 | 5 => decide

/-- Three results of a chain share two slots. -/
theorem pooling_exact_chain :
    ∃ pooled perWire, compile chain [false,false,false,true,true,true] .pooled = some pooled ∧
      compile chain [false,false,false,true,true,true] .perWire = some perWire ∧
      pooled.alloc.nSlots = 2 := by
  obtain ⟨pooled,perWire,hpooled,hperWire,_,_,hslots⟩ :=
    pooling_exact (chain_wellFormed fun _ => ⟨fun _ => (0,0),fun _ _ => [],fun _ _ => rfl⟩)
      chain_classified
  have hpeak : peak chain [false,false,false,true,true,true] = 2 := by decide
  exact ⟨pooled,perWire,hpooled,hperWire,hslots.trans hpeak⟩

end Binius64.ScratchPooling
