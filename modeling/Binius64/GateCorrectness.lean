import Binius64.GateEmission
import Binius64.GraphInvariant

/-!
# A gate's constraints and its bytecode agree

Each kind writes its constraints and its evaluator apart.
-/

namespace Binius64.GateCorrectness

open MachineWord ValueVector StraightLine WireConstraints EvalForm GateGraph GateKinds List
  GateSemantics GateConstraints GateEmission

/-- A gate whose wires have registers in a buffer: constants in place, written
registers apart from each other and from those read. -/
structure Placed (hints : HintRegistry) (g : GateData) (reg : Wire → Reg) (v : ValueVec) :
    Prop where
  ready : Ready hints g reg v.wordAt
  inside : ∀ w ∈ g.wires, reg w < v.data.length

variable {hints : HintRegistry}

theorem temporaries_length {g : GateData} (h : Shaped hints g)
    {ins : List Word} (hlen : ins.length = g.inputs.length) :
    (temporaries g.body ins).length = (g.aux ++ g.scratch).length := by
  cases h with
  | icmpUlt | icmpEq =>
    obtain ⟨a,b,rfl⟩ := length_eq_two.mp hlen
    rfl
  | assertNonZero =>
    obtain ⟨a,rfl⟩ := length_eq_one_iff.mp hlen
    rfl
  | _ => rfl

theorem written_length {g : GateData} (h : Shaped hints g)
    {ins : List Word} (hlen : ins.length = g.inputs.length) :
    (written hints g ins).length = g.writes.length := by
  have htemp := temporaries_length h hlen
  rw [GateData.writes,append_assoc,length_append,← htemp]
  rcases evaluate_cases h hlen with ⟨outs,he,hl⟩ | ⟨hnil,v,hv⟩
  · rw [he.written_eq,length_append,hl]
  · rw [written,hv,hnil,length_nil,Nat.zero_add]

section Run

variable {hints : HintRegistry} {g : GateData} {reg : Wire → Reg} {insns : List EvalInsn} {ρ : Regs}

theorem run_reads (he : Emits hints g reg insns) (hr : Ready hints g reg ρ) {w : Wire}
    (hw : w ∈ g.reads) : runRegs hints insns ρ (reg w) = ρ (reg w) := by
  rw [he.run ρ hr,writeAll_zip_of_notMem (hr.apart w hw)]

theorem run_writes (h : Shaped hints g) (he : Emits hints g reg insns)
    (hr : Ready hints g reg ρ) :
    g.writes.map (fun w => runRegs hints insns ρ (reg w)) =
      written hints g (g.inputs.map fun w => ρ (reg w)) := by
  have hlen : (written hints g (g.inputs.map fun w => ρ (reg w))).length = g.writes.length :=
    written_length h (length_map ..)
  have hmap := map_writeAll_zip (σ := ρ) hr.distinct (hlen.trans (length_map ..).symm)
  rw [← he.run ρ hr,map_map] at hmap
  exact hmap

theorem run_holds {d : ConstraintBuilder} (h : Shaped hints g) (hd : Contributes hints g d)
    (he : Emits hints g reg insns) (hr : Ready hints g reg ρ) :
    d.Holds (fun w => runRegs hints insns ρ (reg w)) ↔ failures hints insns ρ = [] := by
  have hinputs : g.inputs.map (fun w => runRegs hints insns ρ (reg w)) =
      g.inputs.map fun w => ρ (reg w) :=
    map_congr_left fun w hw => run_reads he hr (mem_append_right _ hw)
  have hconstants : ConstantsHold hints g fun w => runRegs hints insns ρ (reg w) := by
    have hsame : g.constants.map (fun w => runRegs hints insns ρ (reg w)) =
        g.constants.map fun w => ρ (reg w) :=
      map_congr_left fun w hw => run_reads he hr (mem_append_left _ hw)
    exact hsame.trans hr.constants
  rw [he.passes ρ hr]
  constructor
  · intro hholds
    have hsound := hd.sound _ hconstants hholds
    rw [hinputs] at hsound
    exact ⟨_,hsound⟩
  · intro hpasses
    refine hd.complete _ hconstants ?_ ?_
    · rw [hinputs]
      exact hpasses
    · rw [hinputs]
      exact run_writes h he hr

theorem holds_determines {d : ConstraintBuilder} (h : Shaped hints g) (hd : Contributes hints g d)
    (he : Emits hints g reg insns) (hr : Ready hints g reg ρ) {σ : Assignment}
    (hsame : ∀ w ∈ g.reads, σ w = ρ (reg w)) (hholds : d.Holds σ) :
    failures hints insns ρ = [] ∧ ∀ w ∈ g.outputs, σ w = runRegs hints insns ρ (reg w) := by
  have hinputs : g.inputs.map σ = g.inputs.map fun w => ρ (reg w) :=
    map_congr_left fun w hw => hsame w (mem_append_right _ hw)
  have hconstants : ConstantsHold hints g σ := by
    have hc : g.constants.map σ = g.constants.map fun w => ρ (reg w) :=
      map_congr_left fun w hw => hsame w (mem_append_left _ hw)
    exact hc.trans hr.constants
  have hsound := hd.sound σ hconstants hholds
  rw [hinputs] at hsound
  refine ⟨(he.passes ρ hr).mpr ⟨_,hsound⟩,?_⟩
  -- What the gate evaluates to is what the run stores in the outputs' registers.
  have hstored := run_writes h he hr
  rw [hsound.written_eq,GateData.writes,append_assoc,map_append] at hstored
  have houtputs := (append_inj hstored (by rw [length_map,length_map])).1
  exact fun w hw => (map_inj_left.mp houtputs w hw).symm

end Run

theorem checkAssertions_ok (ctx : ExecutionContext) :
    ctx.checkAssertions = .ok () ↔ ctx.assertionFailures = [] := by
  rw [ExecutionContext.checkAssertions]
  by_cases h : ctx.assertionFailures = []
  · simp only [h,if_true]
  · simp only [h,if_false,reduceCtorEq]

theorem evaluate_ok {insns : List EvalInsn} {v : ValueVec}
    (hin : RegsBelow hints insns v.data.length) :
    ∃ ctx, run hints insns (ExecutionContext.new v) = .ok ctx ∧
      ctx.valueVec.wordAt = runRegs hints insns v.wordAt ∧
      (ctx.checkAssertions = .ok () ↔ failures hints insns v.wordAt = []) := by
  obtain ⟨ctx,hrun,hclean,hfollow⟩ := run_ok hints insns (ExecutionContext.new v) hin
  refine ⟨ctx,hrun,hfollow.words_eq 0 Nat.one_pos,?_⟩
  rw [checkAssertions_ok]
  refine hclean.trans ⟨fun h => h.2 0 Nat.one_pos,fun h => ⟨rfl,fun i _ => h⟩⟩

/-- Gate soundness and completeness: a gate's bytecode runs; its words satisfy
the gate's constraints exactly when it raises no error; and whatever satisfies
the constraints over the same inputs raises none and has the same outputs. -/
theorem gate_exact {hints : HintRegistry} {g : GateData} {opcode : Opcode} {reg : Wire → Reg}
    {v : ValueVec} (hg : Fits hints g) (hop : g.body = .op opcode) (hp : Placed hints g reg v) :
    ∃ d insns ctx, (∀ cb, constrain g cb = .ok (append cb d)) ∧
      emitBytecode g reg = .ok insns ∧ run hints insns (ExecutionContext.new v) = .ok ctx ∧
      (∀ w ∈ g.reads, ctx.valueVec.wordAt (reg w) = v.wordAt (reg w)) ∧
      (d.Holds (fun w => ctx.valueVec.wordAt (reg w)) ↔ ctx.checkAssertions = .ok ()) ∧
      ∀ σ : Assignment, (∀ w ∈ g.reads, σ w = v.wordAt (reg w)) → d.Holds σ →
        ctx.checkAssertions = .ok () ∧
          ∀ w ∈ g.outputs, σ w = ctx.valueVec.wordAt (reg w) := by
  have hs := hg.shaped
  obtain ⟨d,hconstrain,hd⟩ := constrain_ok hs hop
  obtain ⟨insns,hemit,he⟩ := emit_ok hs reg
  have hbelow : RegsBelow hints insns v.data.length := by
    intro insn hi r hr
    obtain ⟨w,hw,rfl⟩ := mem_map.mp (he.regs insn hi r hr)
    exact hp.inside w hw
  obtain ⟨ctx,hrun,hwords,herror⟩ := evaluate_ok hbelow
  refine ⟨d,insns,ctx,hconstrain,hemit,hrun,fun w hw => ?_,?_,fun σ hsame hholds => ?_⟩
  · rw [hwords]
    exact run_reads he hp.ready hw
  · rw [hwords,herror]
    exact run_holds hs hd he hp.ready
  · obtain ⟨hclean,houtputs⟩ := holds_determines hs hd he hp.ready hsame hholds
    rw [hwords]
    exact ⟨herror.mpr hclean,houtputs⟩

/-- A comparison of two words, over a buffer of its constant, inputs, output and
scratch word. -/
theorem gate_exact_icmpUlt :
    ∃ d insns ctx,
      (∀ cb, constrain ⟨.op .icmpUlt,[0],[1,2],[3],[],[4],[],[],0⟩ cb = .ok (append cb d)) ∧
      emitBytecode ⟨.op .icmpUlt,[0],[1,2],[3],[],[4],[],[],0⟩ id = .ok insns ∧
      run (fun _ => ⟨fun _ => (0,0),fun _ _ => [],fun _ _ => rfl⟩) insns
        (ExecutionContext.new ⟨1,3,2,[allOne,5,7,0,0]⟩) = .ok ctx ∧
      (d.Holds (fun w => ctx.valueVec.wordAt w) ↔ ctx.checkAssertions = .ok ()) := by
  let hints : HintRegistry := fun _ => ⟨fun _ => (0,0),fun _ _ => [],fun _ _ => rfl⟩
  obtain ⟨d,insns,ctx,hd,hinsns,hrun,_,hiff,_⟩ :=
    @gate_exact hints ⟨.op .icmpUlt,[0],[1,2],[3],[],[4],[],[],0⟩ .icmpUlt id
      ⟨1,3,2,[allOne,5,7,0,0]⟩
      ⟨rfl,rfl,rfl,rfl,rfl,nofun,nofun⟩ rfl
      ⟨⟨rfl,by decide,by decide⟩,by decide⟩
  exact ⟨d,insns,ctx,hd,hinsns,hrun,hiff⟩

end Binius64.GateCorrectness
