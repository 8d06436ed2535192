import Binius64.GateConstraints

/-!
# What the gates compute

The instructions each kind emits store exactly the words the gate writes, in the registers of the
wires it writes, and record a violation exactly when the gate has one.
-/

namespace Binius64.GateEmission

open MachineWord ShiftAlgebra StraightLine WireConstraints EvalForm GateGraph GateKinds List
  CarryChain GateSemantics GateConstraints
open Function (update update_comm update_of_ne update_self)

structure Ready (hints : HintRegistry) (g : GateData) (reg : Wire → Reg) (ρ : Regs) : Prop where
  constants : ConstantsHold hints g fun w => ρ (reg w)
  distinct : (g.writes.map reg).Nodup
  apart : ∀ w ∈ g.reads, reg w ∉ g.writes.map reg

structure Emits (hints : HintRegistry) (g : GateData) (reg : Wire → Reg)
    (insns : List EvalInsn) : Prop where
  run : ∀ ρ, Ready hints g reg ρ → runRegs hints insns ρ =
    writeAll ((g.writes.map reg).zip (written hints g (g.inputs.map fun w => ρ (reg w)))) ρ
  passes : ∀ ρ, Ready hints g reg ρ →
    (failures hints insns ρ = [] ↔ Passes hints g (g.inputs.map fun w => ρ (reg w)))
  regs : ∀ insn ∈ insns, ∀ r, r ∈ (insn.effect hints).dsts ∨ r ∈ (insn.effect hints).srcs →
    r ∈ g.wires.map reg

variable {hints : HintRegistry} {g : GateData} {reg : Wire → Reg}

theorem Emits.of_store {insn : EvalInsn}
    (hrun : ∀ ρ : Regs, (insn.effect hints).step ρ =
      writeAll ((g.writes.map reg).zip (written hints g (g.inputs.map fun w => ρ (reg w)))) ρ)
    (hclean : ∀ ρ : Regs, (insn.effect hints).failure ρ = none)
    (hpass : ∀ ρ : Regs, Passes hints g (g.inputs.map fun w => ρ (reg w)))
    (hregs : ∀ r, r ∈ (insn.effect hints).dsts ∨ r ∈ (insn.effect hints).srcs →
      r ∈ g.wires.map reg) : Emits hints g reg [insn] where
  run ρ _ := hrun ρ
  passes ρ _ := by
    refine iff_of_true ?_ (hpass ρ)
    rw [failures,hclean ρ]
    rfl
  regs insn' hi := by
    rw [mem_singleton] at hi
    subst hi
    exact hregs

theorem Emits.of_check {insn : EvalInsn}
    (hwrites : g.writes = []) (hdsts : (insn.effect hints).dsts = [])
    (hpass : ∀ ρ : Regs, (insn.effect hints).failure ρ = none ↔
      Passes hints g (g.inputs.map fun w => ρ (reg w)))
    (hregs : ∀ r, r ∈ (insn.effect hints).srcs → r ∈ g.wires.map reg) :
    Emits hints g reg [insn] where
  run ρ _ := by
    rw [hwrites]
    change writeAll ((insn.effect hints).dsts.zip _) ρ = _
    rw [hdsts]
    rfl
  passes ρ _ := by
    rw [← hpass ρ,failures,failures,append_nil,Option.toList_eq_nil_iff]
  regs insn' hi r hr := by
    rw [mem_singleton] at hi
    subst hi
    rw [hdsts] at hr
    exact hregs r (hr.resolve_left not_mem_nil)

theorem passes_assertion {ins : List Word} {p : Prop}
    [Decidable p] {v : AssertionDetail}
    (h : evaluateGateConstants hints g ins = .ok (if p then .error v else .ok [])) :
    Passes hints g ins ↔ ¬p := by
  constructor
  · rintro ⟨outs,he⟩ hp
    rw [Evaluates,h,if_pos hp,Except.ok.injEq] at he
    cases he
  · intro hp
    exact ⟨[],by rw [Evaluates,h,if_neg hp]⟩

theorem bxor_step (hints : HintRegistry) (dst src1 src2 : Reg) (ρ : Regs) :
    ((EvalInsn.bxor dst src1 src2).effect hints).step ρ =
      update ρ dst (ρ src1 ^^^ ρ src2) := rfl

theorem iaddCarry_step (hints : HintRegistry) (dst src1 src2 : Reg) (ρ : Regs) :
    ((EvalInsn.iaddCarry dst src1 src2).effect hints).step ρ =
      update ρ dst (iaddCinCout (ρ src1) (ρ src2) 0).2 := rfl

theorem Ready.ne {ρ : Regs}
    (h : Ready hints g reg ρ) {w v : Wire} (hw : w ∈ g.reads) (hv : v ∈ g.writes) :
    reg w ≠ reg v :=
  fun he => h.apart w hw (he ▸ mem_map_of_mem hv)

theorem icmpUlt_emits (hints : HintRegistry) (reg : Wire → Reg) (one x y bout negated : Wire)
    (imms dims path) :
    Emits hints ⟨.op .icmpUlt,[one],[x,y],[bout],[],[negated],imms,dims,path⟩ reg
      [.bxor (reg negated) (reg x) (reg one),.iaddCarry (reg bout) (reg negated) (reg y)] := by
  refine ⟨fun ρ hr => ?_,fun ρ hr => iff_of_true rfl ⟨_,rfl⟩,?_⟩
  · have hone : ρ (reg one) = allOne := (cons.inj hr.constants).1
    have hdistinct : reg bout ≠ reg negated := by simpa [GateData.writes] using hr.distinct
    have hy : reg y ≠ reg negated := hr.ne (by simp [GateData.reads]) (by simp [GateData.writes])
    rw [runRegs_cons,runRegs_cons,runRegs_nil,bxor_step,iaddCarry_step,hone,update_self,
      update_of_ne hy,update_comm hdistinct.symm]
    rfl
  · simp [EvalInsn.effect,Effect.stores,GateData.wires]

theorem icmpEq_emits (hints : HintRegistry) (reg : Wire → Reg)
    (one msb x y out cout diff : Wire) (imms dims path) :
    Emits hints ⟨.op .icmpEq,[one,msb],[x,y],[out],[cout],[diff],imms,dims,path⟩ reg
      [.bxor (reg diff) (reg x) (reg y),.iaddCarry (reg cout) (reg one) (reg diff),
        .bxor (reg out) (reg cout) (reg msb)] := by
  refine ⟨fun ρ hr => ?_,fun ρ hr => iff_of_true rfl ⟨_,rfl⟩,?_⟩
  · have hone : ρ (reg one) = allOne := (cons.inj hr.constants).1
    have hmsb : ρ (reg msb) = msbOne := (cons.inj (cons.inj hr.constants).2).1
    have hdistinct : (reg out ≠ reg cout ∧ reg out ≠ reg diff) ∧ reg cout ≠ reg diff := by
      simpa [GateData.writes] using hr.distinct
    have hod : reg one ≠ reg diff := hr.ne (by simp [GateData.reads]) (by simp [GateData.writes])
    have hmd : reg msb ≠ reg diff := hr.ne (by simp [GateData.reads]) (by simp [GateData.writes])
    have hmc : reg msb ≠ reg cout := hr.ne (by simp [GateData.reads]) (by simp [GateData.writes])
    rw [runRegs_cons,runRegs_cons,runRegs_cons,runRegs_nil,bxor_step,iaddCarry_step,bxor_step,
      update_self,update_self,update_of_ne hod,hone,
      update_of_ne hmc,update_of_ne hmd,hmsb,
      update_comm hdistinct.1.1.symm,update_comm hdistinct.1.2.symm,
      update_comm hdistinct.2.symm]
    rfl
  · simp [EvalInsn.effect,Effect.stores,GateData.wires]

theorem written_of_noOutputs (h : Shaped hints g)
    (ho : g.outputs = []) {ins : List Word} (hlen : ins.length = g.inputs.length) :
    written hints g ins = temporaries g.body ins := by
  rcases evaluate_cases h hlen with ⟨outs,he,hl⟩ | ⟨_,v,hv⟩
  · rw [ho,length_nil,length_eq_zero_iff] at hl
    rw [he.written_eq,hl,nil_append]
  · rw [written,hv]

theorem assertNonZero_emits (hints : HintRegistry) (reg : Wire → Reg) (one x cout : Wire)
    (imms dims path) :
    Emits hints ⟨.op .assertNonZero,[one],[x],[],[cout],[],imms,dims,path⟩ reg
      [.iaddCarry (reg cout) (reg one) (reg x),.assertNonZero (reg cout) path] := by
  refine ⟨fun ρ hr => ?_,fun ρ hr => ?_,?_⟩
  · have hone : ρ (reg one) = allOne := (cons.inj hr.constants).1
    have hwritten : written hints ⟨.op .assertNonZero,[one],[x],[],[cout],[],imms,dims,path⟩
        [ρ (reg x)] = [(iaddCinCout allOne (ρ (reg x)) 0).2] :=
      written_of_noOutputs (.assertNonZero ..) rfl rfl
    rw [runRegs_cons,iaddCarry_step,hone]
    change _ = writeAll (([cout].map reg).zip (written hints _ [ρ (reg x)])) ρ
    rw [hwritten]
    rfl
  · have hone : ρ (reg one) = allOne := (cons.inj hr.constants).1
    have hcheck : ∀ ρ : Regs, failures hints [.assertNonZero (reg cout) path] ρ = [] ↔
        ¬ρ (reg cout) = 0 := by
      intro ρ
      simp [failures,Effect.failure,EvalInsn.effect,Effect.checks,Effect.on1]
    rw [passes_assertion (p := ρ (reg x) = 0) rfl,← allOne_carry_eq_zero]
    change failures hints [.assertNonZero (reg cout) path] _ = [] ↔ _
    rw [hcheck,iaddCarry_step,hone,update_self]
  · simp [EvalInsn.effect,Effect.stores,Effect.checks,GateData.wires]

theorem emit_ok (h : Shaped hints g) (reg : Wire → Reg) :
    ∃ insns, emitBytecode g reg = .ok insns ∧ Emits hints g reg insns := by
  cases h with
  | band | bxor | bor | fax | select | iaddCinCout | iadd32 | iadd32CinCout | isubBinBout | imul
  | bmul =>
    refine ⟨_,rfl,.of_store (fun _ => rfl) (fun _ => rfl) (fun _ => ⟨_,rfl⟩) fun r hr => ?_⟩
    simp only [EvalInsn.effect,Effect.stores,mem_cons,not_mem_nil,or_false] at hr
    simp only [GateData.wires,map_append,map_cons,map_nil,mem_append,
      mem_cons,not_mem_nil,or_false,false_or]
    tauto
  | bxorMulti xs z imms dims path hne =>
    refine ⟨_,rfl,.of_store (fun ρ => ?_) (fun _ => rfl) (fun _ => ⟨_,rfl⟩) fun r hr => ?_⟩
    · change writeAll [(reg z,((xs.map reg).map ρ).foldl (· ^^^ ·) 0)] ρ = _
      rw [map_map]
      rfl
    · simp only [EvalInsn.effect,Effect.stores,mem_singleton] at hr
      simp only [GateData.wires,map_append,map_cons,map_nil,mem_append,
        mem_singleton,not_mem_nil,or_false,false_or]
      exact hr.symm
  | shift x z n dims path variant hn =>
    have hbyte : n % 256 = n := Nat.mod_eq_of_lt (by
      have hmax : variant.maxAmount ≤ 64 := by cases variant <;> decide
      omega)
    have he := evaluates_shift hints x z n dims path variant
    refine ⟨[.shift (reg z) (reg x) variant n],?_,.of_store (fun ρ => ?_) (fun _ => rfl)
      (fun ρ => ⟨_,he (ρ (reg x))⟩) ?_⟩
    · change (GateKinds.Shift.variantOf variant.toU8 >>= fun variant =>
        pure [EvalInsn.shift (reg z) (reg x) variant (n % 256)]) = _
      rw [variantOf_toU8,hbyte]
      rfl
    · change _ = writeAll (([z].map reg).zip (written hints _ [ρ (reg x)])) ρ
      rw [(he (ρ (reg x))).written_eq]
      rfl
    · simp [EvalInsn.effect,Effect.stores,GateData.wires]
  | icmpUlt one x y bout negated imms dims path =>
    exact ⟨_,rfl,icmpUlt_emits hints reg one x y bout negated imms dims path⟩
  | icmpEq one msb x y out cout diff imms dims path =>
    exact ⟨_,rfl,icmpEq_emits hints reg one msb x y out cout diff imms dims path⟩
  | assertEq x y imms dims path =>
    refine ⟨_,rfl,.of_check rfl rfl (fun ρ => ?_) ?_⟩
    · rw [passes_assertion (p := ρ (reg x) ≠ ρ (reg y)) rfl]
      simp [Effect.failure,EvalInsn.effect,Effect.checks,Effect.on2]
    · simp [EvalInsn.effect,Effect.checks,GateData.wires]
  | assertZero x imms dims path =>
    refine ⟨_,rfl,.of_check rfl rfl (fun ρ => ?_) ?_⟩
    · rw [passes_assertion (p := ρ (reg x) ≠ 0) rfl]
      simp [Effect.failure,EvalInsn.effect,Effect.checks,Effect.on1]
    · simp [EvalInsn.effect,Effect.checks,GateData.wires]
  | assertNonZero one x cout imms dims path =>
    exact ⟨_,rfl,assertNonZero_emits hints reg one x cout imms dims path⟩
  | assertFalse x imms dims path =>
    refine ⟨_,rfl,.of_check rfl rfl (fun ρ => ?_) ?_⟩
    · rw [passes_assertion (p := isMsbTrue (ρ (reg x)) = true) rfl]
      simp [Effect.failure,EvalInsn.effect,Effect.checks,Effect.on1]
    · simp [EvalInsn.effect,Effect.checks,GateData.wires]
  | assertTrue one x imms dims path =>
    refine ⟨_,rfl,.of_check rfl rfl (fun ρ => ?_) ?_⟩
    · rw [passes_assertion (p := isMsbFalse (ρ (reg x)) = true) rfl]
      simp [Effect.failure,EvalInsn.effect,Effect.checks,Effect.on1]
    · simp [EvalInsn.effect,Effect.checks,GateData.wires]
  | assertEqCond x y cond imms dims path =>
    refine ⟨_,rfl,.of_check rfl rfl (fun ρ => ?_) fun r hr => ?_⟩
    · rw [passes_assertion (p := isMsbTrue (ρ (reg cond)) = true ∧ ρ (reg x) ≠ ρ (reg y)) rfl]
      simp [Effect.failure,EvalInsn.effect,Effect.checks,Effect.on3]
    · simp only [EvalInsn.effect,Effect.checks,mem_cons,not_mem_nil,or_false] at hr
      simp only [GateData.wires,map_append,map_cons,map_nil,mem_append,
        mem_cons,not_mem_nil,or_false,false_or]
      tauto
  | hint id ins outs imms dims path hin hout =>
    refine ⟨_,rfl,.of_store (fun ρ => ?_) (fun _ => rfl) (fun _ => ⟨_,rfl⟩) fun r hr => ?_⟩
    · change writeAll ((outs.map reg).zip ((hints id).execute dims ((ins.map reg).map ρ))) ρ =
        writeAll (((outs ++ [] ++ []).map reg).zip
          ((hints id).execute dims (ins.map fun w => ρ (reg w)) ++ [])) ρ
      rw [append_nil,append_nil,append_nil,map_map]
      rfl
    · simp only [GateData.wires,map_append,append_nil,nil_append,mem_append]
      exact hr.symm

/-- The failures a gate records over the words of its inputs. -/
def recorded (g : GateData) (ins : List Word) : List RecordedFailure :=
  match g.body, ins with
  | .op .assertEq, [x,y] => if x ≠ y then [⟨g.path,.notEqual x y⟩] else []
  | .op .assertEqCond, [x,y,cond] =>
    if isMsbTrue cond = true ∧ x ≠ y then [⟨g.path,.conditional x y⟩] else []
  | .op .assertZero, [x] => if x ≠ 0 then [⟨g.path,.notZero x⟩] else []
  | .op .assertNonZero, [x] =>
    let carries := (iaddCinCout allOne x 0).2
    if carries = 0 then [⟨g.path,.zero carries⟩] else []
  | .op .assertFalse, [x] => if isMsbTrue x = true then [⟨g.path,.msbTrue x⟩] else []
  | .op .assertTrue, [x] => if isMsbFalse x = true then [⟨g.path,.msbFalse x⟩] else []
  | _, _ => []

theorem toList_guard {p : Prop} [Decidable p] (path : PathSpec) (v : AssertionDetail) :
    ((if p then some v else none : Option AssertionDetail).map
      (RecordedFailure.mk path)).toList = if p then [⟨path,v⟩] else [] := by
  by_cases hp : p
  · rw [if_pos hp,if_pos hp]
    rfl
  · rw [if_neg hp,if_neg hp]
    rfl

theorem emit_failures
    {insns : List EvalInsn} {ρ : Regs} (h : Shaped hints g)
    (hemit : emitBytecode g reg = .ok insns) (hr : Ready hints g reg ρ) :
    failures hints insns ρ = recorded g (g.inputs.map fun w => ρ (reg w)) := by
  cases h with
  | shift x z n dims path variant hn =>
    have hrun : (GateKinds.Shift.variantOf variant.toU8 >>= fun variant =>
        pure [EvalInsn.shift (reg z) (reg x) variant (n % 256)]) = .ok insns := hemit
    rw [variantOf_toU8] at hrun
    cases hrun
    rfl
  | assertNonZero one x cout imms dims path =>
    cases hemit
    have hone : ρ (reg one) = allOne := (cons.inj hr.constants).1
    change failures hints [.assertNonZero (reg cout) path] _ = _
    rw [iaddCarry_step,hone,failures,failures,append_nil]
    change ((if update ρ (reg cout) _ (reg cout) = 0 then some _ else none).map
      (RecordedFailure.mk path)).toList = _
    rw [toList_guard,update_self]
    rfl
  | assertEqCond x y cond imms dims path =>
    cases hemit
    rw [failures,failures,append_nil]
    change ((if isMsbTrue (ρ (reg cond)) = true then
      (if ρ (reg x) ≠ ρ (reg y) then some _ else none) else none).map
      (RecordedFailure.mk path)).toList = _
    rw [← ite_and,toList_guard]
    rfl
  | assertEq | assertZero | assertFalse | assertTrue =>
    cases hemit
    rw [failures,failures,append_nil]
    exact toList_guard _ _
  | _ =>
    cases hemit
    rfl

end Binius64.GateEmission
