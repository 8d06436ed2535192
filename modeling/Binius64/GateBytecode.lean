import Binius64.Bytecode
import Binius64.GateCorrectness
import Binius64.RegisterLayout

/-!
# The bytecode of gates

Gates compiled to bytes and run.
-/

namespace Binius64.Bytecode

open MachineWord ShiftAlgebra ValueVector StraightLine EvalForm WireConstraints GateGraph List
  GateKinds GateSemantics GateConstraints GateEmission GateCorrectness RegisterLayout

/-- A gate whose registers, path and hint identifier are four-byte numbers, and whose hint call
passed the check on its counts and dimensions. -/
structure Encodable (reg : Wire → Reg) (g : GateData) : Prop where
  reg_lt : ∀ w ∈ g.wires, reg w < u32Bound
  path_lt : g.path < u32Bound
  hint_le : ∀ id, g.body = .hint id → id < u32Bound ∧ g.inputs.length ≤ maxHintField ∧
    g.outputs.length ≤ maxHintField ∧ g.dimensions.length ≤ maxHintField ∧
    ∀ dim ∈ g.dimensions, dim ≤ maxHintField

/-- A multi-way exclusive or has fewer inputs than four bytes count. -/
def NarrowXor (g : GateData) : Prop :=
  g.body = .op .bxorMulti → g.inputs.length < u32Bound

theorem lt_u32Bound_of_le {n : ℕ} (h : n ≤ maxHintField) : n < u32Bound := by
  rw [maxHintField] at h
  rw [u32Bound]
  omega

variable {hints : HintRegistry} {g : GateData} {reg : Wire → Reg} {insns : List EvalInsn}

theorem emit_typed
    (h : Shaped hints g) (he : Encodable reg g)
    (hemit : emitBytecode g reg = .ok insns) :
    (∀ insn ∈ insns, Typed insn) ∧ ((∀ insn ∈ insns, CountFits insn) ↔ NarrowXor g) := by
  obtain ⟨hreg,hpath,hhint⟩ := he
  cases h with
  | shift x z n dims path variant hn =>
    have hrun : (GateKinds.Shift.variantOf variant.toU8 >>= fun variant =>
        pure [EvalInsn.shift (reg z) (reg x) variant (n % 256)]) = .ok insns := hemit
    rw [variantOf_toU8] at hrun
    cases hrun
    simp only [GateData.wires,nil_append,append_nil,singleton_append,
      forall_mem_cons] at hreg
    simp only [forall_mem_singleton]
    refine ⟨⟨?_,?_⟩,iff_of_true (fun _ _ heq => by cases heq) (fun hop => by cases hop)⟩
    · simp only [fields,forall_mem_cons]
      exact ⟨hreg.2.1,hreg.1,forall_mem_nil _⟩
    · intro _ _ _ amount heq
      cases heq
      exact Nat.mod_lt _ (by decide)
  | bxorMulti xs z imms dims path hne =>
    cases hemit
    simp only [GateData.wires,nil_append,append_nil,forall_mem_append,
      forall_mem_singleton] at hreg
    simp only [forall_mem_singleton]
    refine ⟨⟨?_,fun _ _ _ _ heq => by cases heq⟩,?_⟩
    · simp only [fields,forall_mem_cons,forall_mem_map]
      exact ⟨hreg.2,hreg.1⟩
    · constructor
      · intro h _
        have hlen := h _ _ rfl
        rwa [length_map] at hlen
      · intro h dst srcs heq
        cases heq
        rw [length_map]
        exact h rfl
  | hint id ins outs imms dims path hin hout =>
    cases hemit
    simp only [GateData.wires,nil_append,append_nil,forall_mem_append] at hreg
    obtain ⟨hid,hni,hno,hnd,hd⟩ := hhint id rfl
    simp only [forall_mem_singleton]
    refine ⟨⟨?_,fun _ _ _ _ heq => by cases heq⟩,
      iff_of_true (fun _ _ heq => by cases heq) (fun hop => by cases hop)⟩
    simp only [fields,cons_append,nil_append,forall_mem_cons,
      forall_mem_append,forall_mem_map,length_map]
    exact ⟨hid,lt_u32Bound_of_le hnd,lt_u32Bound_of_le hni,lt_u32Bound_of_le hno,
      ⟨fun dim hdim => lt_u32Bound_of_le (hd dim hdim),hreg.1⟩,hreg.2⟩
  | _ =>
    cases hemit
    simp only [GateData.wires,nil_append,append_nil,cons_append,
      forall_mem_cons] at hreg
    refine ⟨?_,iff_of_true ?_ fun hop => by cases hop⟩
    · simp only [forall_mem_cons]
      repeat' constructor
      all_goals simp_all [fields]
    · simp only [forall_mem_cons]
      repeat' apply And.intro
      all_goals first
        | exact forall_mem_nil _
        | exact fun _ _ heq => by cases heq

theorem buildBytecode_append {gates : List GateData}
    {mine : List EvalInsn} (h : buildBytecode reg gates = .ok insns)
    (hg : emitBytecode g reg = .ok mine) :
    buildBytecode reg (gates ++ [g]) = .ok (insns ++ mine) := by
  rw [buildBytecode,foldlM_append]
  change (buildBytecode reg gates >>= fun bytecode => [g].foldlM _ bytecode) = _
  rw [h]
  change (emitBytecode g reg >>= fun insns' => pure (insns ++ insns')) >>= pure = _
  rw [hg]
  rfl

theorem build_typed {gates : List GateData}
    (hfit : ∀ g ∈ gates, Fits hints g) (he : ∀ g ∈ gates, Encodable reg g) :
    ∃ insns, buildBytecode reg gates = .ok insns ∧ (∀ insn ∈ insns, Typed insn) ∧
      ((∀ insn ∈ insns, CountFits insn) ↔ ∀ g ∈ gates, NarrowXor g) := by
  induction gates using reverseRecOn with
  | nil =>
    exact ⟨[],rfl,fun _ hi => absurd hi not_mem_nil,
      iff_of_true (fun _ hi => absurd hi not_mem_nil) fun _ hg => absurd hg not_mem_nil⟩
  | append_singleton gates g ih =>
    rw [forall_mem_append,forall_mem_singleton] at hfit he
    obtain ⟨insns,hbuild,htyped,hcounts⟩ := ih hfit.1 he.1
    obtain ⟨mine,hmine,-⟩ := emit_ok hfit.2.shaped reg
    obtain ⟨htyped',hcounts'⟩ := emit_typed hfit.2.shaped he.2 hmine
    refine ⟨insns ++ mine,buildBytecode_append hbuild hmine,
      forall_mem_append.mpr ⟨htyped,htyped'⟩,?_⟩
    rw [forall_mem_append,forall_mem_append,forall_mem_singleton,hcounts,hcounts']

/-- Running the bytes of gates executes exactly their instructions, in order and with their
operands, when and only when no multi-way exclusive or has more inputs than four bytes count. -/
theorem bytecode_exact_iff {hints : HintRegistry} {reg : Wire → Reg} {gates : List GateData}
    (hfit : ∀ g ∈ gates, Fits hints g) (he : ∀ g ∈ gates, Encodable reg g) :
    ∃ insns, buildBytecode reg gates = .ok insns ∧
      (Executor.Executes (emitProgram insns) insns ↔ ∀ g ∈ gates, NarrowXor g) := by
  obtain ⟨insns,hbuild,htyped,hcounts⟩ := build_typed hfit he
  exact ⟨insns,hbuild,(Executor.executes_iff htyped).trans hcounts⟩

def idleHints : HintRegistry :=
  fun _ => ⟨fun _ => (0,0),fun _ _ => [],fun _ _ => rfl⟩

/-- An exclusive or of as many inputs as four bytes cannot count. -/
def wideXor : GateData :=
  ⟨.op .bxorMulti,[],replicate u32Bound 0,[1],[],[],[],[u32Bound],0⟩

/-- A bitwise AND and an exclusive or of three words. -/
def narrowGates : List GateData :=
  [⟨.op .band,[],[0,1],[2],[],[],[],[],0⟩,⟨.op .bxorMulti,[],[0,1,2],[3],[],[],[],[3],0⟩]

theorem narrowGates_fit : ∀ g ∈ narrowGates, Fits idleHints g := by
  simp only [narrowGates,forall_mem_cons]
  exact ⟨⟨rfl,rfl,rfl,rfl,rfl,nofun,nofun⟩,⟨rfl,rfl,rfl,rfl,rfl,nofun,fun _ => nofun⟩,nofun⟩

theorem narrowGates_encodable : ∀ g ∈ narrowGates, Encodable id g := by
  simp only [narrowGates,forall_mem_cons]
  exact ⟨⟨by decide,by decide,nofun⟩,⟨by decide,by decide,nofun⟩,nofun⟩

theorem bytecode_exact_narrow : ∃ insns, buildBytecode id narrowGates = .ok insns ∧
    (Executor.Executes (emitProgram insns) insns ↔ ∀ g ∈ narrowGates, NarrowXor g) :=
  bytecode_exact_iff narrowGates_fit narrowGates_encodable

theorem wideXor_inputs : wideXor.inputs = 0 :: replicate (u32Bound - 1) 0 := by
  rw [wideXor,←replicate_succ]
  rfl

theorem wideXor_fits : Fits idleHints wideXor := by
  refine ⟨rfl,length_replicate,rfl,rfl,rfl,nofun,fun _ hnil => ?_⟩
  rw [wideXor_inputs] at hnil
  cases hnil

theorem wideXor_encodable : Encodable id wideXor := by
  refine ⟨fun w hw => ?_,by decide,nofun⟩
  simp only [GateData.wires,wideXor,nil_append,append_nil,mem_append,
    mem_replicate,mem_singleton] at hw
  rcases hw with ⟨-,rfl⟩ | rfl <;> decide

theorem wideXor_not_narrow : ¬NarrowXor wideXor := by
  intro hnarrow
  have hcount := hnarrow rfl
  rw [wideXor,length_replicate] at hcount
  exact lt_irrefl _ hcount

/-- The count of an exclusive or of `2 ^ 32` registers is written as none, so the first register
is met where an opcode is expected. -/
theorem bytecode_inexact_wide : Fits idleHints wideXor ∧ Encodable id wideXor ∧
    ∃ insns, buildBytecode id [wideXor] = .ok insns ∧
      ¬Executor.Executes (emitProgram insns) insns ∧
      Executor.runWith Executor.trace (emitProgram insns) [] = .error (.unknownOpcode 0) := by
  refine ⟨wideXor_fits,wideXor_encodable,[.bxorMulti 1 (wideXor.inputs.map id)],rfl,?_,?_⟩
  · obtain ⟨htyped,hcounts⟩ := emit_typed wideXor_fits.shaped wideXor_encodable rfl
    exact fun h => wideXor_not_narrow (hcounts.mp ((Executor.executes_iff htyped).mp h))
  · have hcut : (([] : List Reg) ++ 0 :: replicate (u32Bound - 1) 0).length % u32Bound =
        ([] : List Reg).length := by
      rw [nil_append,length_cons,length_replicate]
      rfl
    have hfront : ∀ src ∈ ([] : List Reg), src < u32Bound :=
      fun _ hsrc => absurd hsrc not_mem_nil
    rw [map_id,wideXor_inputs]
    exact Executor.runWith_wide (by decide) hfront hcut []

/-- What folding a gate and running its bytecode came to are the same: the same output words and no
failure, or a failure of both. -/
inductive SameOutcome (g : GateData) (reg : Wire → Reg) :
    Checked (Except AssertionDetail (List Word)) → Except Fault ExecutionContext → Prop
  | outputs {ctx : ExecutionContext} (clean : ctx.checkAssertions = .ok ()) :
    SameOutcome g reg (.ok (.ok (g.outputs.map fun w => ctx.valueVec.wordAt (reg w)))) (.ok ctx)
  | failure {ctx : ExecutionContext} {detail : AssertionDetail} {e : PopulateError}
    (failed : ctx.checkAssertions = .error e) :
    SameOutcome g reg (.ok (.error detail)) (.ok ctx)

/-- Wherever the gate is placed, whatever its input words, its bytecode runs to what folding the
words gives. -/
def InterpreterAgrees (hints : HintRegistry) (g : GateData) : Prop :=
  ∀ (reg : Wire → Reg) (v : ValueVec), Encodable reg g → Placed hints g reg v →
    ∃ insns, emitBytecode g reg = .ok insns ∧
      SameOutcome g reg (evaluateGateConstants hints g (g.inputs.map fun w => v.wordAt (reg w)))
        (Executor.run hints (emitProgram insns) (ExecutionContext.new v))

/-- A gate that writes no wire twice, and none it reads. -/
structure Fresh (g : GateData) : Prop where
  nodup : g.writes.Nodup
  apart : ∀ w ∈ g.reads, w ∉ g.writes

theorem run_emit
    (h : Shaped hints g) (he : Encodable reg g) (hn : NarrowXor g)
    (hemit : emitBytecode g reg = .ok insns) {C : Type} [EvalContext C] (ctx : C) :
    Executor.run hints (emitProgram insns) ctx = (EvalForm.run hints insns ctx).mapError .exec := by
  obtain ⟨htyped,hcounts⟩ := emit_typed h he hemit
  exact (Executor.executes_iff htyped).mpr (hcounts.mpr hn) C _ ctx

theorem interpreterAgrees_of_narrow (hg : Fits hints g)
    (hn : NarrowXor g) : InterpreterAgrees hints g := by
  intro reg v henc hp
  have hs := hg.shaped
  obtain ⟨insns,hemit,he⟩ := emit_ok hs reg
  have hbelow : RegsBelow hints insns v.data.length := by
    intro insn hi r hr
    obtain ⟨w,hw,rfl⟩ := mem_map.mp (he.regs insn hi r hr)
    exact hp.inside w hw
  obtain ⟨ctx,hrun,hwords,hclean⟩ := evaluate_ok hbelow
  have hpass := he.passes v.wordAt hp.ready
  have hbytes : Executor.run hints (emitProgram insns) (ExecutionContext.new v) = .ok ctx := by
    rw [run_emit hs henc hn hemit,hrun]
    rfl
  refine ⟨insns,hemit,?_⟩
  rw [hbytes]
  rcases evaluate_cases hs (length_map ..) with ⟨outs,heval,hlen⟩ | ⟨-,detail,hfail⟩
  · -- The outputs are the first of the words the run leaves in the wires it writes.
    have hstored := run_writes hs he hp.ready
    rw [heval.written_eq,GateData.writes,append_assoc,map_append] at hstored
    have houts := (append_inj hstored (by rw [length_map,hlen])).1
    rw [←hwords] at houts
    rw [heval,←houts]
    exact .outputs (hclean.mpr (hpass.mpr ⟨outs,heval⟩))
  · have hviolated : ¬Passes hints g (g.inputs.map fun w => v.wordAt (reg w)) := by
      rintro ⟨outs,heval⟩
      rw [Evaluates,hfail] at heval
      cases heval
    rw [hfail]
    cases hcheck : ctx.checkAssertions with
    | ok _ => exact absurd (hpass.mp (hclean.mp hcheck)) hviolated
    | error e => exact .failure hcheck

theorem SameOutcome.ran
    {folded : Checked (Except AssertionDetail (List Word))} {ran : Except Fault ExecutionContext}
    (h : SameOutcome g reg folded ran) : ∃ ctx, ran = .ok ctx := by
  cases h with
  | outputs _ => exact ⟨_,rfl⟩
  | failure _ => exact ⟨_,rfl⟩

theorem not_interpreterAgrees_of_wide (hg : Fits hints g)
    (hty : Encodable id g) (hfresh : Fresh g) (hwide : ¬NarrowXor g) :
    ¬InterpreterAgrees hints g := by
  unfold NarrowXor at hwide
  push Not at hwide
  obtain ⟨hbody,hlen⟩ := hwide
  intro hagree
  cases hg.shaped with
  | bxorMulti xs z imms dims path hne =>
    have hcut : xs.length % u32Bound < xs.length := (Nat.mod_lt _ (by decide)).trans_le hlen
    obtain ⟨front,s,back,rfl,hfront⟩ : ∃ front s back, xs = front ++ s :: back ∧
        front.length = xs.length % u32Bound :=
      ⟨xs.take _,xs[xs.length % u32Bound],xs.drop _,
        by rw [←drop_eq_getElem_cons hcut,take_append_drop],
        length_take_of_le hcut.le⟩
    -- The wire past the cut count is given register zero.
    let reg : Wire → Reg := Equiv.swap s 0
    have hs : reg s = 0 := Equiv.swap_apply_left s 0
    have hinj : Function.Injective reg := (Equiv.swap s 0).injective
    have hreg : ∀ w ∈ (⟨.op .bxorMulti,[],front ++ s :: back,[z],[],[],imms,dims,path⟩ :
        GateData).wires, reg w < u32Bound := by
      intro w hw
      have hzero : (0 : ℕ) < u32Bound := by decide
      have hmem : s ∈ front ++ s :: back := mem_append_right _ (mem_cons_self ..)
      have hsmall := hty.reg_lt s (GateData.mem_wires.mpr (.inl (mem_append_right _ hmem)))
      have hwsmall := hty.reg_lt w hw
      change (Equiv.swap s 0) w < u32Bound
      rw [Equiv.swap_apply_def]
      split
      · exact hzero
      · split
        · exact hsmall
        · exact hwsmall
    have henc : Encodable reg ⟨.op .bxorMulti,[],front ++ s :: back,[z],[],[],imms,dims,path⟩ :=
      ⟨hreg,hty.path_lt,nofun⟩
    have hplaced : Placed hints ⟨.op .bxorMulti,[],front ++ s :: back,[z],[],[],imms,dims,path⟩ reg
        ⟨0,0,0,replicate u32Bound 0⟩ := by
      refine ⟨⟨rfl,hfresh.nodup.map hinj,fun w hw hwritten => ?_⟩,fun w hw => ?_⟩
      · rw [mem_map_of_injective hinj] at hwritten
        exact hfresh.apart w hw hwritten
      · rw [length_replicate]
        exact hreg w hw
    obtain ⟨insns,hemit,hsame⟩ := hagree reg _ henc hplaced
    cases hemit
    obtain ⟨ctx,hran⟩ := hsame.ran
    have hsplit : (front ++ s :: back).map reg = front.map reg ++ 0 :: back.map reg := by
      rw [map_append,map_cons,hs]
    have hsmall : ∀ src ∈ front.map reg, src < u32Bound := by
      intro src hsrc
      obtain ⟨w,hw,rfl⟩ := mem_map.mp hsrc
      have hin : w ∈ front ++ s :: back := mem_append_left _ hw
      exact hreg w (GateData.mem_wires.mpr (.inl (mem_append_right _ hin)))
    have hdst : reg z < u32Bound :=
      hreg z (GateData.mem_wires.mpr (.inr (mem_singleton_self z)))
    have hmod : (front.map reg ++ 0 :: back.map reg).length % u32Bound =
        (front.map reg).length := by
      rw [←hsplit,length_map,length_map,hfront]
    rw [Executor.run,hsplit,Executor.runWith_wide hdst hsmall hmod] at hran
    cases hexec : ((EvalInsn.bxorMulti (reg z) (front.map reg)).effect hints).execEach
        (ExecutionContext.new ⟨0,0,0,replicate u32Bound 0⟩) with
    | error panic =>
      rw [hexec] at hran
      cases hran
    | ok ctx =>
      rw [hexec] at hran
      cases hran
  | _ => cases hbody

/-- The interpreter and the folding of constant inputs agree on a gate, wherever it is placed and
whatever its input words, exactly when it is no exclusive or too wide for its count field. -/
theorem interpreterAgrees_iff {hints : HintRegistry} {g : GateData} (hg : Fits hints g)
    (hty : Encodable id g) (hfresh : Fresh g) : InterpreterAgrees hints g ↔ NarrowXor g := by
  refine ⟨fun hagree => ?_,interpreterAgrees_of_narrow hg⟩
  by_contra hwide
  exact not_interpreterAgrees_of_wide hg hty hfresh hwide hagree

def equalGate : GateData := ⟨.op .icmpEq,[0,1],[2,3],[4],[5],[6],[],[],0⟩

theorem interpreterAgrees_equal : InterpreterAgrees idleHints equalGate ↔ NarrowXor equalGate :=
  interpreterAgrees_iff ⟨rfl,rfl,rfl,rfl,rfl,nofun,nofun⟩ ⟨by decide,by decide,nofun⟩
    ⟨by decide,by decide⟩

theorem interpreterAgrees_fails : Fits idleHints wideXor ∧ ¬InterpreterAgrees idleHints wideXor := by
  have hfresh : Fresh wideXor := by
    refine ⟨nodup_singleton 1,fun w hw hone => ?_⟩
    have hzero : w = 0 := (mem_replicate.mp hw).2
    rw [hzero] at hone
    exact absurd hone (by decide)
  exact ⟨wideXor_fits,
    not_interpreterAgrees_of_wide wideXor_fits wideXor_encodable hfresh wideXor_not_narrow⟩

end Binius64.Bytecode
