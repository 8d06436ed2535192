import Binius64.SpartanAlignment

/-!
# Whole circuits through the three builders

A run of the constraint builder only adds wires and constants, so the layout of its finalised record
fits every step of it.
-/

namespace Binius64.Spartan

open CheckedRun ParityList List

variable {F : Type} [DecidableEq F]

section Runs

variable [Field F] {layout : WitnessLayout F} {derivedAlive privateAlive : List Bool}

theorem runs_follow [CharP F 2] (hl : Laid layout derivedAlive privateAlive)
    {circuit : List (Op F)} {inputs inputs' : ConstraintWire → F}
    (hin : ∀ id, inputs' ⟨.inOut,id⟩ = inputs ⟨.inOut,id⟩) {all wires : List ConstraintWire}
    {ir last : ConstraintSystemIR F} {gen gen' : WitnessGenerator F} {inst : InstanceGenerator F}
    {outs : List (WitnessWire F)} {σ : ConstraintWire → F}
    (h : Simulates layout derivedAlive privateAlive σ wires ir gen inst)
    (hC : circuit.foldlM (Op.run constraintBuilder) (wires,ir) = .ok (all,last))
    (hW : circuit.foldlM (Op.run (witnessGenerator layout all inputs)) (wires.map (ofWire σ),gen) =
      .ok (outs,gen'))
    (hconst : last.constants.map Prod.fst <+: layout.constants) :
    ∃ σ' inst', circuit.foldlM (Op.run (instanceGenerator layout all inputs'))
        (wires.map (publicValue σ),inst) = .ok (all.map (publicValue σ'),inst') ∧
      Simulates layout derivedAlive privateAlive σ' all last gen' inst' := by
  induction circuit generalizing wires ir gen inst σ with
  | nil =>
    cases hC
    cases hW
    exact ⟨σ,inst,rfl,h⟩
  | cons op rest ih =>
    rw [foldlM_cons] at hC hW
    obtain ⟨⟨wires₁,ir₁⟩,hop,hrest⟩ := bind_eq_ok.mp hC
    obtain ⟨⟨outs₁,gen₁⟩,hgop,hgrest⟩ := bind_eq_ok.mp hW
    obtain ⟨-,hall,hgrow⟩ := (h.scoped.step hop).1.run hrest
    have hconst₁ : ir₁.constants.map Prod.fst <+: layout.constants := (hgrow.map _).trans hconst
    obtain ⟨σ₁,inst₁,hinst,houts,h₁⟩ := step_follows hl hin h hop hgop hall hconst₁
    rw [houts] at hgrest
    obtain ⟨σ',inst',hrun,h'⟩ := ih h₁ hrest hgrest
    refine ⟨σ',inst',?_,h'⟩
    rw [foldlM_cons,hinst,ok_bind]
    exact hrun

def constantValues (layout : WitnessLayout F) (wire : ConstraintWire) : F :=
  match wire.kind with
  | .constant => layout.constants.getD wire.id 0
  | _ => 0

theorem start_simulates (hl : Laid layout derivedAlive privateAlive) {start : WitnessGenerator F}
    (hstart : WitnessGenerator.new layout = .ok start) :
    ∃ istart, InstanceGenerator.new layout = .ok istart ∧
      Simulates layout derivedAlive privateAlive (constantValues layout) [] ConstraintBuilder.new start
        istart := by
  obtain ⟨pub,hpub,hr⟩ := bind_eq_ok.mp hstart
  cases hr
  have hfits : layout.constants.length ≤ layout.size .pub := by
    have hle := hl.pub_fits
    omega
  have hpub' : pub = layout.constants ++
      replicate (layout.size .pub - layout.constants.length) 0 := by
    rw [WitnessGenerator.publicStart,if_pos hfits] at hpub
    cases hpub
    rfl
  refine ⟨⟨.new _,pub⟩,by rw [InstanceGenerator.new,hpub]; rfl,?_,.new,fun _ => ⟨nofun,nofun⟩⟩
  refine ⟨nofun,fun id v hv => ?_,rfl,rfl,rfl,fun segment => ?_,fun wire index hs hor => ?_,rfl⟩
  · rw [constantValues,getD_eq_getElem?_getD,hv]
    rfl
  · cases segment with
    | pub =>
      have hlen : pub.length = layout.size .pub := by
        rw [hpub',length_append,length_replicate]
        omega
      exact hlen
    | precommit => exact length_replicate
    | priv => exact length_replicate
  · rcases hor with hk | ha
    · cases hs with
      | constant hid =>
        rw [Witness.get_eq_ok]
        simp only [Witness.part,constantValues]
        rw [hpub',getElem?_append_left hid,getD_eq_getElem?_getD,
          getElem?_eq_getElem hid]
        rfl
      | inOut => cases hk
      | derived => cases hk
      | precommit => cases hk
      | priv => cases hk
    · have hnone : (ConstraintBuilder.new : ConstraintSystemIR F).count wire.kind = 0 := by
        cases wire.kind <;> rfl
      rw [ConstraintSystemIR.Allocated,hnone] at ha
      exact absurd ha (Nat.not_lt_zero _)

theorem Aligned.represents {σ : ConstraintWire → F} {wires : List ConstraintWire}
    {ir ir' : ConstraintSystemIR F} {gen : WitnessGenerator F} {inst : InstanceGenerator F}
    {cs : ConstraintSystem F}
    (hdone : ConstraintSystemIR.Finalized ir' cs layout derivedAlive) (hcount : ir'.count = ir.count)
    (hstatus : ir'.privateWiresStatus.length = ir'.count .priv)
    (h : Aligned layout derivedAlive ir'.privateAlive σ wires ir gen inst) :
    layout.Represents gen.values σ := by
  intro wire index hget
  have hs := hdone.laid.slot_of_get hget
  refine h.written wire index hs ?_
  cases hs with
  | constant => exact Or.inl rfl
  | inOut hid =>
    right
    rw [hdone.nInout,hcount] at hid
    exact hid
  | derived hid =>
    right
    have hlt := (List.getElem?_eq_some_iff.mp hid).1
    rw [hdone.derived_length,hcount] at hlt
    exact hlt
  | precommit hid =>
    right
    rw [hdone.nPrecommit,hcount] at hid
    exact hid
  | priv hid =>
    right
    have hlt := (List.getElem?_eq_some_iff.mp hid).1
    rw [ConstraintSystemIR.privateAlive,length_map,hstatus,hcount] at hlt
    exact hlt

/-- A circuit of at most `2 ^ 32` constraints of each form, finalised after wire elimination: when
the witness generator ends without an error, its witness is accepted, and the instance generator
computes the public part of it from the same inputs and outputs. -/
theorem builders_aligned [CharP F 2] (costModel : CostModel) {circuit : List (Op F)}
    {wires : List ConstraintWire} {ir ir' : ConstraintSystemIR F} {cs : ConstraintSystem F}
    {inputs inputs' : ConstraintWire → F} {start gen : WitnessGenerator F}
    {outs : List (WitnessWire F)} {witness : Witness F}
    (hC : runCircuit constraintBuilder circuit ConstraintBuilder.new = .ok (wires,ir))
    (hz : ir.zeroConstraints.length ≤ 2 ^ 32) (hm : ir.mulConstraints.length ≤ 2 ^ 32)
    (helim : runWireElimination costModel ir = .ok ir') (hfin : ir'.finalize = .ok (cs,layout))
    (hin : ∀ id, inputs' ⟨.inOut,id⟩ = inputs ⟨.inOut,id⟩)
    (hstart : WitnessGenerator.new layout = .ok start)
    (hW : runCircuit (witnessGenerator layout wires inputs) circuit start = .ok (outs,gen))
    (hbuild : gen.build = some witness) :
    cs.validate witness = .ok () ∧ ∃ istart outs' inst, InstanceGenerator.new layout = .ok istart ∧
      runCircuit (instanceGenerator layout wires inputs') circuit istart = .ok (outs',inst) ∧
      inst.pub = witness.pub := by
  obtain ⟨herr,hwit⟩ : gen.firstError = false ∧ gen.values = witness := by
    rw [WitnessGenerator.build] at hbuild
    cases hfirst : gen.firstError with
    | true =>
      rw [hfirst] at hbuild
      cases hbuild
    | false =>
      rw [hfirst] at hbuild
      cases hbuild
      exact ⟨rfl,rfl⟩
  have hscoped : Scoped wires ir :=
    (Scoped.run ⟨.new,nofun⟩ hC : Scoped wires ir ∧ [] <+: wires ∧ _).1
  have hfresh := hscoped.recorded.fresh
  obtain ⟨ir₁,hrun,hw,hcount,hconst,hp,hsat⟩ := runWireElimination_ok costModel hfresh hz hm
  rw [helim] at hrun
  cases hrun
  rcases ConstraintSystemIR.finalize_ok hw hp with hover | ⟨cs₁,layout₁,derivedAlive,hfin₁,hdone⟩
  · rw [hfin] at hover
    cases hover
  rw [hfin] at hfin₁
  cases hfin₁
  obtain ⟨istart,histart,hsim⟩ := start_simulates hdone.laid hstart
  have hgrown : ir.constants.map Prod.fst <+: layout.constants := by
    rw [←hconst]
    exact hdone.constants
  obtain ⟨σ,inst,hinst,hend⟩ := runs_follow hdone.laid hin hsim hC hW hgrown
  have hrep : layout.Represents gen.values σ :=
    hend.aligned.represents hdone hcount hw.status_length
  refine ⟨?_,istart,_,inst,histart,hinst,?_⟩
  · rw [←hwit,hdone.validate_iff σ hend.aligned.fixes gen.values hrep,hsat]
    exact ⟨σ,fun _ _ => rfl,hend.satisfied herr⟩
  · rw [hend.aligned.pub_eq,hwit]

end Runs

/-- An input, its sum with one, a secret input, their product, a hint and an assertion. -/
def mixedCircuit : List (Op (ZMod 2)) :=
  [.inout,.constant 1,.add 0 1,.precommit,.mul 3 2,.hint [3,4] 1 fun values => [values.sum],
    .assertZero 3]

def mixedInputs (wire : ConstraintWire) : ZMod 2 := if wire.kind = .inOut then 1 else 0

/-- Every kind of wire in one circuit. -/
theorem builders_aligned_mixed :
    ∃ (wires : List ConstraintWire) (cs : ConstraintSystem (ZMod 2)) (layout : WitnessLayout (ZMod 2))
      (witness : Witness (ZMod 2)), cs.validate witness = .ok () ∧
        ∃ istart outs inst, InstanceGenerator.new layout = .ok istart ∧
          runCircuit (instanceGenerator layout wires fun _ => 1) mixedCircuit istart =
            .ok (outs,inst) ∧ inst.pub = witness.pub := by
  have hin : ∀ id, (fun _ => 1 : ConstraintWire → ZMod 2) ⟨.inOut,id⟩ = mixedInputs ⟨.inOut,id⟩ :=
    fun _ => rfl
  exact ⟨_,_,_,_,builders_aligned .default rfl (by decide) (by decide) rfl rfl hin rfl rfl rfl⟩

section Aliased

variable {n : ℕ}

def aliasedCircuit (n : ℕ) : List (Op (ZMod 2)) :=
  [.precommit,.precommit,.precommit,.add 0 1] ++ (replicate n (.assertZero 2) ++ [.add 2 3])

def aliasedWires : List ConstraintWire :=
  [precommitWire 0,precommitWire 1,precommitWire 2,privWire 0,privWire 1]

def aliasedInputs (wire : ConstraintWire) : ZMod 2 := if wire.id = 0 then 1 else 0

theorem foldlM_assertZero (n : ℕ) {env : List ConstraintWire}
    {ir : ConstraintSystemIR F} {i : ℕ} {wire : ConstraintWire} (h : wireAt env i = .ok wire) :
    (replicate n (Op.assertZero i)).foldlM (Op.run constraintBuilder) (env,ir) =
      .ok (env,{ ir with
        zeroConstraints := ir.zeroConstraints ++ replicate n (.single wire) }) := by
  induction n generalizing ir with
  | zero =>
    rw [replicate_zero,replicate_zero,append_nil]
    rfl
  | succ n ih =>
    have hstep : Op.run constraintBuilder (env,ir) (.assertZero i : Op F) =
        .ok (env,ConstraintBuilder.assertZero wire ir) := by
      simp only [Op.run,h,ok_bind]
      rfl
    rw [replicate_succ,foldlM_cons,hstep,ok_bind,ih]
    simp only [ConstraintBuilder.assertZero,append_assoc,singleton_append,
      ←replicate_succ]

theorem aliased_recorded (n : ℕ) :
    runCircuit constraintBuilder (aliasedCircuit n) ConstraintBuilder.new =
      .ok (aliasedWires,aliasedRecord (ZMod 2) n) := by
  have hfirst : [Op.precommit,.precommit,.precommit,.add 0 1].foldlM (Op.run constraintBuilder)
      ([],(ConstraintBuilder.new : ConstraintSystemIR (ZMod 2))) =
        .ok ([precommitWire 0,precommitWire 1,precommitWire 2,privWire 0],
          { (ConstraintBuilder.new : ConstraintSystemIR (ZMod 2)) with
            precommitAlloc := ⟨3,by decide⟩
            privateAlloc := ⟨1,by decide⟩
            zeroConstraints := [firstSum]
            privateWiresStatus := [.unknown] }) := by
    rw [firstSum,←Operand.new_of_ordered]
    rfl
  have hat : wireAt [precommitWire 0,precommitWire 1,precommitWire 2,privWire 0] 2 =
      .ok (precommitWire 2) := rfl
  rw [runCircuit,aliasedCircuit,foldlM_append,hfirst,ok_bind,foldlM_append,
    foldlM_assertZero n hat,ok_bind,aliasedRecord,lastSum,←Operand.new_of_ordered]
  rfl

/-- The layout of what elimination leaves: no private wire has a place. -/
def aliasedLayout : WitnessLayout (ZMod 2) := ⟨[1],0,0,3,0,0,2,0,[],[]⟩

def timesOne (operand : Operand ConstraintWire) : MulConstraint ConstraintWire :=
  ⟨operand,.single ⟨.constant,0⟩,.empty⟩

/-- The constraint that the first sum becomes: its result is left out. -/
def aliasedConstraint : MulConstraint WitnessIndex :=
  ⟨⟨[⟨.precommit,0⟩,⟨.precommit,1⟩],by
    rw [Ordered]
    decide⟩,.new [⟨.pub,0⟩],.new []⟩

def aliasedFinal (n : ℕ) : ConstraintSystemIR (ZMod 2) :=
  { aliasedResult (ZMod 2) n with constantAlloc := ⟨1,by decide⟩, constants := [(1,0)] }

theorem aliased_folded (n : ℕ) : (aliasedFinal n).foldedConstraints ⟨.constant,0⟩ =
    timesOne firstSum :: replicate n (timesOne (.single (precommitWire 2))) := by
  simp [ConstraintSystemIR.foldedConstraints,aliasedFinal,aliasedResult,aliasedRecord,
    ConstraintBuilder.new,firstSum,Operand.single,Operand.empty,timesOne]

theorem aliased_finalize (n : ℕ) :
    ∃ cs rest, (aliasedResult (ZMod 2) n).finalize = .ok (cs,aliasedLayout) ∧
      cs.mulConstraints = aliasedConstraint :: rest := by
  have hone : (aliasedResult (ZMod 2) n).constantId 1 = .ok (0,aliasedFinal n) := rfl
  have hmark : ∀ constraint ∈ timesOne firstSum ::
      replicate n (timesOne (.single (precommitWire 2))),
        ConstraintSystemIR.markConstraint [] constraint = .ok [] := by
    intro constraint hc
    rcases mem_cons.mp hc with rfl | hc
    · rfl
    · rw [eq_of_mem_replicate hc]
      rfl
  have hmarked : ((aliasedFinal n).foldedConstraints ⟨.constant,0⟩).foldlM
      ConstraintSystemIR.markConstraint (replicate (aliasedFinal n).derivedAlloc.nWires false) =
        .ok [] := by
    rw [aliased_folded]
    exact foldlM_fixed hmark
  have hfirst : ConstraintSystemIR.mapConstraint aliasedLayout none (timesOne firstSum) =
      .ok aliasedConstraint := by
    rw [aliasedConstraint,←Operand.new_of_ordered]
    rfl
  obtain ⟨rest,hrest⟩ : ∃ rest, (replicate n (timesOne (.single (precommitWire 2)))).mapM
      (ConstraintSystemIR.mapConstraint aliasedLayout none) = .ok rest := by
    refine exists_mapM fun constraint hc => ?_
    rw [eq_of_mem_replicate hc]
    exact ⟨_,rfl⟩
  have hmapped : ((aliasedFinal n).foldedConstraints ⟨.constant,0⟩).mapM
      (ConstraintSystemIR.mapConstraint aliasedLayout none) = .ok (aliasedConstraint :: rest) := by
    rw [aliased_folded,mapM_cons,hfirst,ok_bind,hrest]
    rfl
  have hsparse : WitnessLayout.sparse [1] (aliasedFinal n).publicAlloc.nWires
      (aliasedFinal n).precommitAlloc.nWires [] (aliasedFinal n).privateAlive = .ok aliasedLayout := by
    have hsize : WitnessLayout.sparse [(1 : ZMod 2)] 0 3 [] [false,false] = .ok aliasedLayout := rfl
    exact hsize
  have hconst : (aliasedFinal n).constants.foldlM (fun values entry => setAt values entry.2 entry.1)
      (replicate (aliasedFinal n).constantAlloc.nWires 0) = .ok [1] := rfl
  have hzero : (aliasedFinal n).constants.lookup 0 = none := rfl
  refine ⟨⟨[1],0,3,0,0,aliasedConstraint :: rest,0⟩,rest,?_,rfl⟩
  rw [ConstraintSystemIR.finalize,hone]
  simp only [ok_bind,hconst,hmarked,hsparse,hzero,hmapped]
  rfl

def aliasedWitness : Witness (ZMod 2) := ⟨[1],[1,0,0,0],[0]⟩

theorem aliased_generated (n : ℕ) :
    ∃ start outs gen, WitnessGenerator.new aliasedLayout = .ok start ∧
      runCircuit (witnessGenerator aliasedLayout aliasedWires aliasedInputs) (aliasedCircuit n) start =
        .ok (outs,gen) ∧ gen.build = some aliasedWitness := by
  have hfirst : [Op.precommit,.precommit,.precommit,.add 0 1].foldlM
      (Op.run (witnessGenerator aliasedLayout aliasedWires aliasedInputs))
        ([],⟨.new _,.new _,⟨[1],[0,0,0,0],[0]⟩,false⟩) =
          .ok ([⟨1,.precommit⟩,⟨0,.precommit⟩,⟨0,.precommit⟩,⟨1,.priv⟩],
            ⟨.new _,⟨1,by decide⟩,aliasedWitness,false⟩) := rfl
  have hmid : ∀ op ∈ replicate n (Op.assertZero 2),
      Op.run (witnessGenerator aliasedLayout aliasedWires aliasedInputs)
        ([⟨1,.precommit⟩,⟨0,.precommit⟩,⟨0,.precommit⟩,⟨1,.priv⟩],
          ⟨.new _,⟨1,by decide⟩,aliasedWitness,false⟩) op =
            .ok ([⟨1,.precommit⟩,⟨0,.precommit⟩,⟨0,.precommit⟩,⟨1,.priv⟩],
              ⟨.new _,⟨1,by decide⟩,aliasedWitness,false⟩) := by
    intro op hop
    rw [eq_of_mem_replicate hop]
    rfl
  refine ⟨⟨.new _,.new _,⟨[1],[0,0,0,0],[0]⟩,false⟩,
    [⟨1,.precommit⟩,⟨0,.precommit⟩,⟨0,.precommit⟩,⟨1,.priv⟩,⟨1,.priv⟩],
      ⟨.new _,⟨2,by decide⟩,aliasedWitness,false⟩,rfl,?_,rfl⟩
  rw [runCircuit,aliasedCircuit,foldlM_append,hfirst,ok_bind,foldlM_append,
    foldlM_fixed hmid]
  rfl

/-- Past `2 ^ 32` constraints a witness computed without an error may be rejected. -/
theorem builders_apart :
    ¬∀ (costModel : CostModel) (circuit : List (Op (ZMod 2))) (wires : List ConstraintWire)
      (ir ir' : ConstraintSystemIR (ZMod 2)) (cs : ConstraintSystem (ZMod 2))
      (layout : WitnessLayout (ZMod 2)) (inputs inputs' : ConstraintWire → ZMod 2)
      (start gen : WitnessGenerator (ZMod 2)) (outs : List (WitnessWire (ZMod 2)))
      (witness : Witness (ZMod 2)),
      runCircuit constraintBuilder circuit ConstraintBuilder.new = .ok (wires,ir) →
      runWireElimination costModel ir = .ok ir' → ir'.finalize = .ok (cs,layout) →
      (∀ id, inputs' ⟨.inOut,id⟩ = inputs ⟨.inOut,id⟩) → WitnessGenerator.new layout = .ok start →
      runCircuit (witnessGenerator layout wires inputs) circuit start = .ok (outs,gen) →
      gen.build = some witness →
      cs.validate witness = .ok () ∧ ∃ istart outs' inst, InstanceGenerator.new layout = .ok istart ∧
        runCircuit (instanceGenerator layout wires inputs') circuit istart = .ok (outs',inst) ∧
        inst.pub = witness.pub := by
  intro h
  have hn : asU32 (2 ^ 32 - 1 + 1) = 0 := by decide
  obtain ⟨cs,rest,hfin,hcs⟩ := aliased_finalize (2 ^ 32 - 1)
  obtain ⟨start,outs,gen,hstart,hrun,hbuild⟩ := aliased_generated (2 ^ 32 - 1)
  obtain ⟨hvalid,-⟩ := h .default (aliasedCircuit (2 ^ 32 - 1)) aliasedWires _ _ cs aliasedLayout
    aliasedInputs aliasedInputs start gen outs aliasedWitness (aliased_recorded _) (aliased_run hn) hfin
    (fun _ => rfl) hstart hrun hbuild
  rw [ConstraintSystem.validate,hcs,forM_eq_ok] at hvalid
  have hfirst := hvalid aliasedConstraint mem_cons_self
  have hone : Ordered [(⟨.pub,0⟩ : WitnessIndex)] := pairwise_singleton _ _
  rw [aliasedConstraint,Operand.new_of_ordered hone,Operand.new_of_ordered List.Pairwise.nil] at hfirst
  cases hfirst

end Aliased

end Binius64.Spartan
