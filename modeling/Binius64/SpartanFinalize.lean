import Binius64.WireElimination
import Mathlib.Algebra.Field.ZMod

/-!
# Finalised Spartan systems

A witness that holds the values of an assignment at the places of the layout passes the finalised
system exactly when the record's constraints hold of the assignment.
-/

namespace Binius64.Spartan

open CheckedRun ParityList List
open Prod (fst snd)

variable {F : Type}

/-- The witness holds the value of every wire that has a place. -/
def WitnessLayout.Represents (layout : WitnessLayout F) (witness : Witness F)
    (σ : ConstraintWire → F) : Prop :=
  ∀ wire index, layout.get wire = .ok (some index) → witness.get index = .ok (σ wire)

/-- The assignment gives the constants their values. -/
def WitnessLayout.FixesConstants (layout : WitnessLayout F) (σ : ConstraintWire → F) : Prop :=
  ∀ id v, layout.constants[id]? = some v → σ ⟨.constant,id⟩ = v

theorem Laid.exists_represents [Zero F] {layout : WitnessLayout F} {derivedAlive privateAlive : List Bool}
    (h : Laid layout derivedAlive privateAlive) (σ : ConstraintWire → F) :
    ∃ witness : Witness F, (∀ segment, (witness.part segment).length = layout.size segment) ∧
      layout.Represents witness σ := by
  classical
  let values (segment : WitnessSegment) : List F := (range (layout.size segment)).map fun k =>
    if hw : ∃ wire, Slot layout derivedAlive privateAlive wire ⟨segment,k⟩ then σ hw.choose else 0
  have hlen (segment : WitnessSegment) : (values segment).length = layout.size segment := by
    rw [length_map,length_range]
  have hpart (segment : WitnessSegment) :
      (⟨values .pub,values .precommit,values .priv⟩ : Witness F).part segment = values segment := by
    cases segment <;> rfl
  refine ⟨⟨values .pub,values .precommit,values .priv⟩,fun segment => ?_,fun wire index hg => ?_⟩
  · rw [hpart,hlen]
  · have hslot := h.slot_of_get hg
    have hex : ∃ wire, Slot layout derivedAlive privateAlive wire ⟨index.segment,index.index⟩ :=
      ⟨wire,hslot⟩
    have hchoose : hex.choose = wire := hex.choose_spec.injective hslot
    have hget : (values index.segment)[index.index]? = some (σ wire) := by
      rw [getElem?_map,getElem?_range (h.index_lt hslot),Option.map_some,dif_pos hex,hchoose]
    rw [Witness.get,hpart]
    exact getAt_ok hget

def Witness.valueAt [Zero F] (witness : Witness F) (index : WitnessIndex) : F :=
  ((witness.part index.segment)[index.index]?).getD 0

theorem Witness.valueAt_of_get [Zero F] {witness : Witness F} {index : WitnessIndex} {v : F}
    (h : witness.get index = .ok v) : witness.valueAt index = v := by
  rw [Witness.get,getAt] at h
  rw [Witness.valueAt]
  cases hv : (witness.part index.segment)[index.index]? with
  | none =>
    rw [hv] at h
    cases h
  | some w =>
    rw [hv] at h
    cases h
    rfl

namespace ConstraintSystem

variable [Field F] [DecidableEq F]

omit [DecidableEq F] in
theorem operandVal_ok {witness : Witness F} {operand : Operand WitnessIndex}
    (h : ∀ index ∈ operand.wires, ∃ v, witness.get index = .ok v) :
    operandVal witness operand = .ok (operand.val witness.valueAt) := by
  have hmap : operand.wires.mapM witness.get = .ok (operand.wires.map witness.valueAt) := by
    refine mapM_eq_map fun index hi => ?_
    obtain ⟨v,hv⟩ := h index hi
    rw [hv,Witness.valueAt_of_get hv]
  rw [operandVal,hmap]
  rfl

theorem checkConstraint_eq_ok {witness : Witness F} {constraint : MulConstraint WitnessIndex}
    (h : ∀ operand ∈ constraint.operands, ∀ index ∈ operand.wires, ∃ v, witness.get index = .ok v) :
    checkConstraint witness constraint = .ok () ↔ constraint.Holds witness.valueAt := by
  have ha := operandVal_ok (h constraint.a (by simp [MulConstraint.operands]))
  have hb := operandVal_ok (h constraint.b (by simp [MulConstraint.operands]))
  have hc := operandVal_ok (h constraint.c (by simp [MulConstraint.operands]))
  rw [checkConstraint,ha,ok_bind,hb,ok_bind,hc,ok_bind,MulConstraint.Holds]
  split
  · exact ⟨fun _ => ‹_›,fun _ => rfl⟩
  · rename_i hne
    constructor
    · intro h
      cases h
    · exact fun h => absurd h hne

end ConstraintSystem

def Covered (layout : WitnessLayout F) (derivedAlive privateAlive : List Bool)
    (wires : List ConstraintWire) : Prop :=
  ∀ wire ∈ wires, ∃ index, Slot layout derivedAlive privateAlive wire index

/-- Values of places that are those of an assignment at the wires they belong to. -/
def Follows (layout : WitnessLayout F) (derivedAlive privateAlive : List Bool)
    (g : WitnessIndex → F) (σ : ConstraintWire → F) : Prop :=
  ∀ wire index, Slot layout derivedAlive privateAlive wire index → g index = σ wire

namespace Laid

variable {layout : WitnessLayout F} {derivedAlive privateAlive : List Bool}

theorem operandIndices_ok [CommRing F] (h : Laid layout derivedAlive privateAlive)
    (zeroConstId : Option ℕ) {wires : List ConstraintWire}
    (hcov : Covered layout derivedAlive privateAlive wires) :
    ∃ indices, ConstraintSystemIR.operandIndices layout zeroConstId wires = .ok indices ∧
      (∀ index ∈ indices, ∃ wire ∈ wires, Slot layout derivedAlive privateAlive wire index) ∧
      ∀ g σ, Follows layout derivedAlive privateAlive g σ →
        (∀ id, zeroConstId = some id → σ ⟨.constant,id⟩ = 0) → value g indices = value σ wires := by
  induction wires with
  | nil => exact ⟨[],rfl,nofun,fun g σ _ _ => rfl⟩
  | cons wire wires ih =>
    obtain ⟨indices,hrun,hbelong,hval⟩ := ih fun w hw => hcov w (mem_cons_of_mem _ hw)
    have hlift : ∀ index ∈ indices, ∃ w ∈ wire :: wires, Slot layout derivedAlive privateAlive w index := by
      intro index hi
      obtain ⟨w,hw,hs⟩ := hbelong index hi
      exact ⟨w,mem_cons_of_mem _ hw,hs⟩
    rw [ConstraintSystemIR.operandIndices]
    by_cases hz : wire.kind = .constant ∧ zeroConstId = some wire.id
    · refine ⟨indices,by rw [if_pos hz,hrun],hlift,fun g σ hg hzero => ?_⟩
      have hwire : wire = ⟨.constant,wire.id⟩ := by rw [←hz.1]
      have hnone : σ wire = 0 := by
        rw [hwire]
        exact hzero wire.id hz.2
      rw [value_cons,hnone,zero_add,hval g σ hg hzero]
    · obtain ⟨index,hslot⟩ := hcov wire mem_cons_self
      refine ⟨index :: indices,?_,fun i hi => ?_,fun g σ hg hzero => ?_⟩
      · rw [if_neg hz,h.get_slot hslot,ok_bind,hrun]
        rfl
      · rcases mem_cons.mp hi with rfl | hi
        · exact ⟨wire,mem_cons_self,hslot⟩
        · exact hlift i hi
      · rw [value_cons,value_cons,hg wire index hslot,hval g σ hg hzero]

variable [Field F] [CharP F 2]

/-- A mapped operand reads places of its wires and is worth as much. -/
structure MapsTo (layout : WitnessLayout F) (derivedAlive privateAlive : List Bool)
    (zeroConstId : Option ℕ) (operand : Operand ConstraintWire) (operand' : Operand WitnessIndex) :
    Prop where
  belong : ∀ index ∈ operand'.wires, ∃ wire ∈ operand.wires,
    Slot layout derivedAlive privateAlive wire index
  val_eq : ∀ g σ, Follows layout derivedAlive privateAlive g σ →
    (∀ id, zeroConstId = some id → σ ⟨.constant,id⟩ = 0) → operand'.val g = operand.val σ

theorem mapOperand_ok (h : Laid layout derivedAlive privateAlive) (zeroConstId : Option ℕ)
    {operand : Operand ConstraintWire} (hcov : Covered layout derivedAlive privateAlive operand.wires) :
    ∃ operand', ConstraintSystemIR.mapOperand layout zeroConstId operand = .ok operand' ∧
      MapsTo layout derivedAlive privateAlive zeroConstId operand operand' := by
  obtain ⟨indices,hrun,hbelong,hval⟩ := h.operandIndices_ok zeroConstId hcov
  refine ⟨.new indices,?_,fun index hi => hbelong index (mem_of_mem_cancelled hi),
    fun g σ hg hzero => ?_⟩
  · rw [ConstraintSystemIR.mapOperand,hrun]
    rfl
  · rw [Operand.val_new]
    exact hval g σ hg hzero

theorem mapConstraint_ok (h : Laid layout derivedAlive privateAlive) (zeroConstId : Option ℕ)
    {constraint : MulConstraint ConstraintWire}
    (hcov : ∀ operand ∈ constraint.operands, Covered layout derivedAlive privateAlive operand.wires) :
    ∃ constraint', ConstraintSystemIR.mapConstraint layout zeroConstId constraint = .ok constraint' ∧
      MapsTo layout derivedAlive privateAlive zeroConstId constraint.a constraint'.a ∧
      MapsTo layout derivedAlive privateAlive zeroConstId constraint.b constraint'.b ∧
      MapsTo layout derivedAlive privateAlive zeroConstId constraint.c constraint'.c := by
  obtain ⟨a,hrunA,ha⟩ := h.mapOperand_ok zeroConstId (hcov constraint.a (by simp [MulConstraint.operands]))
  obtain ⟨b,hrunB,hb⟩ := h.mapOperand_ok zeroConstId (hcov constraint.b (by simp [MulConstraint.operands]))
  obtain ⟨c,hrunC,hc⟩ := h.mapOperand_ok zeroConstId (hcov constraint.c (by simp [MulConstraint.operands]))
  refine ⟨⟨a,b,c⟩,?_,ha,hb,hc⟩
  rw [ConstraintSystemIR.mapConstraint,hrunA,ok_bind,hrunB,ok_bind,hrunC]
  rfl

end Laid

namespace ConstraintSystemIR

theorem setAt_ok {α : Type} {xs : List α} {i : ℕ} (h : i < xs.length) (x : α) :
    setAt xs i x = .ok (xs.set i x) := if_pos h

theorem constants_ok [Zero F] {constants : List (F × ℕ)}
    (hids : constants.map snd = range constants.length) :
    constants.foldlM (fun values entry => setAt values entry.2 entry.1)
      (List.replicate constants.length 0) = (.ok (constants.map fst) : Except Failure (List F)) := by
  suffices h : ∀ (rest : List (F × ℕ)) (done : List F),
      rest.map snd = range' done.length rest.length →
      rest.foldlM (fun values entry => setAt values entry.2 entry.1)
        (done ++ List.replicate rest.length 0) =
          (.ok (done ++ rest.map fst) : Except Failure (List F)) by
    rw [range_eq_range'] at hids
    exact h constants [] hids
  intro rest
  induction rest with
  | nil => exact fun done _ => rfl
  | cons entry rest ih =>
    intro done hr
    rw [map_cons,length_cons,range'_succ,cons.injEq] at hr
    have hset : setAt (done ++ List.replicate (rest.length + 1) 0) entry.2 entry.1 =
        .ok (done ++ [entry.1] ++ List.replicate rest.length 0) := by
      rw [hr.1,setAt_ok (by simp),set_append_right _ _ le_rfl,Nat.sub_self,
        replicate_succ,set_cons_zero,append_assoc,singleton_append]
    rw [foldlM_cons,length_cons,hset,ok_bind,
      ih (done ++ [entry.1]) (by rw [length_append]; exact hr.2),map_cons,append_assoc,
      singleton_append]

structure Marks (alive : List Bool) (wires : List ConstraintWire) (alive' : List Bool) : Prop where
  length_eq : alive'.length = alive.length
  keeps : ∀ id : ℕ, alive[id]? = some true → alive'[id]? = some true
  marked : ∀ wire ∈ wires, wire.kind = .derived → alive'[wire.id]? = some true

variable {alive : List Bool} {ir : ConstraintSystemIR F}

theorem Marks.append {alive' alive'' : List Bool} {wires wires' : List ConstraintWire}
    (h : Marks alive wires alive') (h' : Marks alive' wires' alive'') :
    Marks alive (wires ++ wires') alive'' := by
  refine ⟨h'.length_eq.trans h.length_eq,fun id hid => h'.keeps id (h.keeps id hid),
    fun wire hw hk => ?_⟩
  rcases mem_append.mp hw with hw | hw
  · exact h'.keeps _ (h.marked wire hw hk)
  · exact h'.marked wire hw hk

theorem markDerived_ok {wires : List ConstraintWire}
    (h : ∀ wire ∈ wires, wire.kind = .derived → wire.id < alive.length) :
    ∃ alive', markDerived alive wires = .ok alive' ∧ Marks alive wires alive' := by
  refine exists_foldlM (I := fun (done : List ConstraintWire) alive' => Marks alive done alive')
    ⟨rfl,fun _ hid => hid,nofun⟩ ?_
  intro done wire rest alive' hsplit hm
  have hmem : wire ∈ wires := by rw [hsplit]; simp
  by_cases hk : wire.kind = .derived
  · have hlt : wire.id < alive'.length := by
      rw [hm.length_eq]
      exact h wire hmem hk
    refine ⟨alive'.set wire.id true,by rw [if_pos hk,setAt_ok hlt],hm.append ⟨?_,fun id hid => ?_,?_⟩⟩
    · rw [length_set]
    · rw [getElem?_set]
      split
      · rfl
      · exact hid
    · intro w hw _
      rw [mem_singleton.mp hw,getElem?_set_self hlt]
  · refine ⟨alive',by rw [if_neg hk],hm.append ⟨rfl,fun _ hid => hid,fun w hw hkw => ?_⟩⟩
    rw [mem_singleton.mp hw] at hkw
    exact absurd hkw hk

def readWires (constraint : MulConstraint ConstraintWire) : List ConstraintWire :=
  constraint.a.wires ++ constraint.b.wires ++ constraint.c.wires

theorem mem_readWires {constraint : MulConstraint ConstraintWire} {wire : ConstraintWire} :
    wire ∈ readWires constraint ↔ ∃ operand ∈ constraint.operands, wire ∈ operand.wires := by
  simp [readWires,MulConstraint.operands]

theorem markConstraint_ok {constraint : MulConstraint ConstraintWire}
    (h : ∀ wire ∈ readWires constraint, wire.kind = .derived → wire.id < alive.length) :
    ∃ alive', markConstraint alive constraint = .ok alive' ∧
      Marks alive (readWires constraint) alive' := by
  obtain ⟨a,hrunA,ha⟩ := markDerived_ok fun wire hw hk =>
    h wire (mem_append_left _ (mem_append_left _ hw)) hk
  have hinB : ∀ wire ∈ constraint.b.wires, wire.kind = .derived → wire.id < a.length := by
    rw [ha.length_eq]
    exact fun wire hw hk => h wire (mem_append_left _ (mem_append_right _ hw)) hk
  obtain ⟨b,hrunB,hb⟩ := markDerived_ok hinB
  have hinC : ∀ wire ∈ constraint.c.wires, wire.kind = .derived → wire.id < b.length := by
    rw [hb.length_eq,ha.length_eq]
    exact fun wire hw hk => h wire (mem_append_right _ hw) hk
  obtain ⟨c,hrunC,hc⟩ := markDerived_ok hinC
  refine ⟨c,?_,(ha.append hb).append hc⟩
  rw [markConstraint,hrunA,ok_bind,hrunB,ok_bind,hrunC]

theorem markConstraints_ok {constraints : List (MulConstraint ConstraintWire)}
    (h : ∀ constraint ∈ constraints, ∀ wire ∈ readWires constraint,
      wire.kind = .derived → wire.id < alive.length) :
    ∃ alive', constraints.foldlM markConstraint alive = .ok alive' ∧
      Marks alive (constraints.flatMap readWires) alive' := by
  refine exists_foldlM (I := fun (done : List (MulConstraint ConstraintWire)) alive' =>
    Marks alive (done.flatMap readWires) alive') ⟨rfl,fun _ hid => hid,nofun⟩ ?_
  intro done constraint rest alive' hsplit hm
  have hin : ∀ wire ∈ readWires constraint, wire.kind = .derived → wire.id < alive'.length := by
    rw [hm.length_eq]
    exact h constraint (by rw [hsplit]; simp)
  obtain ⟨alive'',hrun,hm'⟩ := markConstraint_ok hin
  refine ⟨alive'',hrun,?_⟩
  rw [flatMap_append,flatMap_singleton]
  exact hm.append hm'

theorem constant_getElem? (hw : ir.WellFormed) {v : F} {id : ℕ}
    (h : (v,id) ∈ ir.constants) : (ir.constants.map fst)[id]? = some v := by
  obtain ⟨i,hi⟩ := mem_iff_getElem?.mp h
  have hid : (ir.constants.map snd)[i]? = some id := by
    rw [getElem?_map,hi,Option.map_some]
  rw [hw.constants_ids] at hid
  have heq : i = id := by
    obtain ⟨hlt,hget⟩ := List.getElem?_eq_some_iff.mp hid
    rw [getElem_range] at hget
    exact hget
  rw [←heq,getElem?_map,hi,Option.map_some]

theorem constants_length (hw : ir.WellFormed) :
    ir.constants.length = ir.count .constant := by
  have hlen := congrArg length hw.constants_ids
  rw [length_map,length_range] at hlen
  exact hlen

theorem exists_slot (hw : ir.WellFormed) {layout : WitnessLayout F}
    {derivedAlive : List Bool} (hconst : layout.constants = ir.constants.map fst)
    (hinout : layout.nInout = ir.count .inOut) (hpre : layout.nPrecommit = ir.count .precommit)
    {wire : ConstraintWire} (ha : ir.Allocated wire) (hp : ¬ir.Pruned wire)
    (hd : wire.kind = .derived → derivedAlive[wire.id]? = some true) :
    ∃ index, Slot layout derivedAlive ir.privateAlive wire index := by
  obtain ⟨kind,id⟩ := wire
  rw [Allocated] at ha
  cases kind with
  | constant => exact ⟨_,.constant (by rw [hconst,length_map,constants_length hw]; exact ha)⟩
  | inOut => exact ⟨_,.inOut (by rw [hinout]; exact ha)⟩
  | derived => exact ⟨_,.derived (hd rfl)⟩
  | precommit => exact ⟨_,.precommit (by rw [hpre]; exact ha)⟩
  | priv =>
    have hlt : id < ir.privateWiresStatus.length := by
      rw [hw.status_length]
      exact ha
    have hget := getElem?_eq_getElem hlt
    have hne : ir.privateWiresStatus[id] ≠ .pruned := fun heq => hp ⟨rfl,by rw [hget,heq]⟩
    refine ⟨_,.priv ?_⟩
    rw [privateAlive,getElem?_map,hget,Option.map_some,decide_eq_true hne]

theorem folded_holds_iff [Field F] {oneWire : ConstraintWire}
    {σ : ConstraintWire → F} (hone : σ oneWire = 1) :
    (∀ constraint ∈ ir.foldedConstraints oneWire, constraint.Holds σ) ↔ ir.Satisfied σ := by
  have hzero (operand : Operand ConstraintWire) :
      MulConstraint.Holds σ ⟨operand,.single oneWire,.empty⟩ ↔ operand.val σ = 0 := by
    rw [MulConstraint.Holds]
    simp only [Operand.val_single,Operand.val_empty,hone,mul_one]
  rw [foldedConstraints,Satisfied,forall_mem_append]
  simp only [forall_mem_map,hzero,mem_filter,decide_eq_true_eq,List.isEmpty_iff]
  constructor
  · rintro ⟨hmul,hfold⟩
    refine ⟨fun operand ho => ?_,hmul⟩
    by_cases hnil : operand.wires = []
    · rw [Operand.val,hnil,value_nil]
    · exact hfold operand ⟨ho,hnil⟩
  · rintro ⟨hall,hmul⟩
    exact ⟨hmul,fun operand ho => hall operand ho.1⟩

/-- No wire that is eliminated is read anywhere. -/
def PrunedUnread (ir : ConstraintSystemIR F) : Prop :=
  ∀ wire, ir.Pruned wire → ir.Reads fun w => w ≠ wire

theorem folded_reads (hw : ir.WellFormed) (hp : ir.PrunedUnread)
    {oneId : ℕ} (hone : oneId < ir.count .constant) :
    ∀ constraint ∈ ir.foldedConstraints ⟨.constant,oneId⟩, ∀ operand ∈ constraint.operands,
      ∀ wire ∈ operand.wires, ir.Allocated wire ∧ ¬ir.Pruned wire := by
  have hin : ∀ site operand, ir.operandAt site = some operand → ∀ wire ∈ operand.wires,
      ir.Allocated wire ∧ ¬ir.Pruned wire := fun site operand ho wire hwire =>
    ⟨hw.reads site operand ho wire hwire,fun hpw => hp wire hpw site operand ho wire hwire rfl⟩
  intro constraint hc operand ho wire hwire
  rw [foldedConstraints,mem_append] at hc
  rcases hc with hc | hc
  · obtain ⟨i,hi⟩ := mem_iff_getElem?.mp hc
    obtain ⟨position,hsite⟩ : ∃ position, ir.operandAt (.mul i position) = some operand := by
      simp only [MulConstraint.operands,mem_cons,not_mem_nil,or_false] at ho
      rcases ho with rfl | rfl | rfl
      · exact ⟨.a,by rw [operandAt,hi]; rfl⟩
      · exact ⟨.b,by rw [operandAt,hi]; rfl⟩
      · exact ⟨.c,by rw [operandAt,hi]; rfl⟩
    exact hin _ _ hsite wire hwire
  · obtain ⟨zero,hz,rfl⟩ := mem_map.mp hc
    simp only [MulConstraint.operands,mem_cons,not_mem_nil,or_false] at ho
    rcases ho with rfl | rfl | rfl
    · obtain ⟨i,hi⟩ := mem_iff_getElem?.mp (mem_filter.mp hz).1
      exact hin (.add i) _ hi wire hwire
    · rw [mem_singleton.mp hwire]
      exact ⟨hone,fun h => by cases h.1⟩
    · cases hwire

theorem mapConstraints_ok [Field F] [CharP F 2] [DecidableEq F] {layout : WitnessLayout F}
    {derivedAlive privateAlive : List Bool} (hl : Laid layout derivedAlive privateAlive)
    (zeroConstId : Option ℕ) {constraints : List (MulConstraint ConstraintWire)}
    (hcov : ∀ constraint ∈ constraints, ∀ operand ∈ constraint.operands,
      Covered layout derivedAlive privateAlive operand.wires) :
    ∃ mapped, constraints.mapM (mapConstraint layout zeroConstId) = .ok mapped ∧
      ∀ σ, (∀ id, zeroConstId = some id → σ ⟨.constant,id⟩ = 0) →
        ∀ witness, layout.Represents witness σ →
          (mapped.forM (ConstraintSystem.checkConstraint witness) = .ok () ↔
            ∀ constraint ∈ constraints, constraint.Holds σ) := by
  obtain ⟨mapped,hrun⟩ := exists_mapM fun constraint hc =>
    (hl.mapConstraint_ok zeroConstId (hcov constraint hc)).imp fun _ h => h.1
  obtain ⟨hto,hfrom⟩ := mapM_mem hrun
  refine ⟨mapped,hrun,fun σ hzero witness hrep => ?_⟩
  have hfollows : Follows layout derivedAlive privateAlive witness.valueAt σ := fun wire index hs =>
    Witness.valueAt_of_get (hrep wire index (hl.get_slot hs))
  -- a mapped constraint passes when the constraint it comes from holds
  have hone : ∀ constraint ∈ constraints, ∀ constraint', mapConstraint layout zeroConstId constraint =
      .ok constraint' → (ConstraintSystem.checkConstraint witness constraint' = .ok () ↔
        constraint.Holds σ) := by
    intro constraint hc constraint' hm
    obtain ⟨mappedTo,hrun',ha,hb,hcc⟩ := hl.mapConstraint_ok zeroConstId (hcov constraint hc)
    rw [hm] at hrun'
    cases hrun'
    rw [ConstraintSystem.checkConstraint_eq_ok,MulConstraint.Holds,MulConstraint.Holds,
      ha.val_eq _ _ hfollows hzero,hb.val_eq _ _ hfollows hzero,hcc.val_eq _ _ hfollows hzero]
    have hthere {operand : Operand ConstraintWire} {operand' : Operand WitnessIndex}
        (hmap : Laid.MapsTo layout derivedAlive privateAlive zeroConstId operand operand') :
        ∀ index ∈ operand'.wires, ∃ v, witness.get index = .ok v := by
      intro index hi
      obtain ⟨wire,-,hs⟩ := hmap.belong index hi
      exact ⟨_,hrep wire index (hl.get_slot hs)⟩
    intro operand ho
    simp only [MulConstraint.operands,mem_cons,not_mem_nil,or_false] at ho
    rcases ho with rfl | rfl | rfl
    · exact hthere ha
    · exact hthere hb
    · exact hthere hcc
  rw [forM_eq_ok]
  constructor
  · intro h constraint hc
    obtain ⟨constraint',hm,hrun'⟩ := hto constraint hc
    exact (hone constraint hc constraint' hrun').mp (h constraint' hm)
  · intro h constraint' hm
    obtain ⟨constraint,hc,hrun'⟩ := hfrom constraint' hm
    exact (hone constraint hc constraint' hrun').mpr (h constraint hc)

/-- What finalisation makes of a record: a layout that gives a place to every wire that is read, and
constraints that a witness passes exactly when the record holds of what it represents. -/
structure Finalized [Field F] [DecidableEq F] (ir : ConstraintSystemIR F) (cs : ConstraintSystem F)
    (layout : WitnessLayout F) (derivedAlive : List Bool) : Prop where
  laid : Laid layout derivedAlive ir.privateAlive
  derived_length : derivedAlive.length = ir.count .derived
  constants : ir.constants.map fst <+: layout.constants
  nInout : layout.nInout = ir.count .inOut
  nPrecommit : layout.nPrecommit = ir.count .precommit
  /-- A witness passes when the record holds of the assignment it represents, and only then. -/
  validate_iff : ∀ σ, layout.FixesConstants σ → ∀ witness, layout.Represents witness σ →
    (cs.validate witness = .ok () ↔ ir.Satisfied σ)

theorem finalize_ok [Field F] [CharP F 2] [DecidableEq F]
    (hw : ir.WellFormed) (hp : ir.PrunedUnread) :
    ir.finalize = .error .overflow ∨
      ∃ cs layout derivedAlive, ir.finalize = .ok (cs,layout) ∧ Finalized ir cs layout derivedAlive := by
  rw [finalize]
  cases hone : ir.constantId (1 : F) with
  | error e =>
    left
    rw [constantId_error hone]
    rfl
  | ok result =>
    obtain ⟨oneId,ir₁⟩ := result
    have hw₁ := constantId_wellFormed hone hw
    obtain ⟨hzero,hmul,hstatus,hcount,hgrown,honeMem⟩ := constantId_keeps hone
    have hp₁ : ir₁.PrunedUnread := by
      intro wire hpw site operand ho
      rw [Pruned,hstatus] at hpw
      refine hp wire hpw site operand ?_
      rw [←ho]
      cases site <;> simp only [operandAt,hzero,hmul]
    have hgetOne := constant_getElem? hw₁ honeMem
    have hltOne : oneId < ir₁.count .constant := by
      have hlt := (List.getElem?_eq_some_iff.mp hgetOne).1
      rw [length_map,constants_length hw₁] at hlt
      exact hlt
    have hconsts : ir₁.constants.foldlM (fun values entry => setAt values entry.2 entry.1)
        (List.replicate ir₁.constantAlloc.nWires 0) =
          (.ok (ir₁.constants.map fst) : Except Failure (List F)) := by
      have hlen : ir₁.constantAlloc.nWires = ir₁.constants.length := (constants_length hw₁).symm
      rw [hlen]
      refine constants_ok ?_
      rw [hw₁.constants_ids,constants_length hw₁]
    have hread := folded_reads hw₁ hp₁ hltOne
    have hin : ∀ constraint ∈ ir₁.foldedConstraints ⟨.constant,oneId⟩, ∀ wire ∈ readWires constraint,
        wire.kind = .derived →
          wire.id < (List.replicate ir₁.derivedAlloc.nWires false).length := by
      intro constraint hc wire hr hk
      obtain ⟨operand,ho,hwire⟩ := mem_readWires.mp hr
      have hall := (hread constraint hc operand ho wire hwire).1
      rw [Allocated,hk] at hall
      rw [length_replicate]
      exact hall
    obtain ⟨derivedAlive,hmark,hmarks⟩ := markConstraints_ok hin
    simp only [ok_bind,hconsts,hmark]
    cases hsparse : WitnessLayout.sparse (ir₁.constants.map fst) ir₁.publicAlloc.nWires
        ir₁.precommitAlloc.nWires derivedAlive ir₁.privateAlive with
    | error e =>
      left
      rw [sparse_error hsparse]
      rfl
    | ok layout =>
      right
      have hconstLen : (ir₁.constants.map fst).length < 2 ^ 32 := by
        rw [length_map,constants_length hw₁]
        exact ir₁.constantAlloc.nWires_lt
      have hderivedLen : derivedAlive.length = ir₁.derivedAlloc.nWires := by
        rw [hmarks.length_eq,length_replicate]
      have hprivLen : ir₁.privateAlive.length < 2 ^ 32 := by
        rw [privateAlive,length_map,hw₁.status_length]
        exact ir₁.privateAlloc.nWires_lt
      obtain ⟨hlaid,hlc,hli,hlp⟩ := sparse_laid hconstLen ir₁.precommitAlloc.nWires_lt
        (hderivedLen ▸ ir₁.derivedAlloc.nWires_lt) hprivLen hsparse
      have hcov : ∀ constraint ∈ ir₁.foldedConstraints ⟨.constant,oneId⟩,
          ∀ operand ∈ constraint.operands,
            Covered layout derivedAlive ir₁.privateAlive operand.wires := by
        intro constraint hc operand ho wire hwire
        obtain ⟨hall,hnot⟩ := hread constraint hc operand ho wire hwire
        refine exists_slot hw₁ hlc hli hlp hall hnot fun hk => hmarks.marked wire ?_ hk
        exact mem_flatMap.mpr ⟨constraint,hc,mem_readWires.mpr ⟨operand,ho,hwire⟩⟩
      obtain ⟨mapped,hmap,hcheck⟩ := mapConstraints_ok hlaid (ir₁.constants.lookup 0) hcov
      have hslot : layout.get ⟨.constant,oneId⟩ = .ok (some ⟨.pub,oneId⟩) := by
        refine hlaid.get_slot (.constant ?_)
        rw [hlc,length_map,constants_length hw₁]
        exact hltOne
      have hprivEq : ir₁.privateAlive = ir.privateAlive := by rw [privateAlive,hstatus,privateAlive]
      refine ⟨⟨ir₁.constants.map fst,layout.nInout,layout.nPrecommit,layout.nPrivate,
        layout.logPublic,mapped,oneId⟩,layout,derivedAlive,?_,
        ⟨hprivEq ▸ hlaid,?_,?_,?_,?_,fun σ hfix witness hrep => ?_⟩⟩
      · simp only [ok_bind,hmap,hslot]
        rfl
      · rw [hderivedLen]
        exact hcount .derived (by decide)
      · rw [hlc]
        exact hgrown.map _
      · rw [hli]
        exact hcount .inOut (by decide)
      · rw [hlp]
        exact hcount .precommit (by decide)
      · have hone' : σ ⟨.constant,oneId⟩ = 1 := hfix oneId 1 (by rw [hlc]; exact hgetOne)
        have hzero' : ∀ id, ir₁.constants.lookup 0 = some id → σ ⟨.constant,id⟩ = 0 := by
          intro id hid
          refine hfix id 0 ?_
          rw [hlc]
          exact constant_getElem? hw₁ (mem_of_lookup hid)
        have hsat : ir₁.Satisfied σ ↔ ir.Satisfied σ := by rw [Satisfied,Satisfied,hzero,hmul]
        rw [←hsat,←folded_holds_iff hone']
        exact hcheck σ hzero' witness hrep

end ConstraintSystemIR

/-- Eliminating wires from a recorded circuit of at most `2 ^ 32` constraints of each form finds
every use it looks for and leaves no read of an eliminated wire. Unless a count overflows, the
finalised system is passed by the witnesses of an assignment exactly when the recorded constraints
hold for some values of the eliminated wires. -/
theorem wireElimination_preserves [Field F] [CharP F 2] [DecidableEq F] (costModel : CostModel)
    {ir : ConstraintSystemIR F} (hr : Recorded ir) (hz : ir.zeroConstraints.length ≤ 2 ^ 32)
    (hm : ir.mulConstraints.length ≤ 2 ^ 32) :
    ∃ ir', runWireElimination costModel ir = .ok ir' ∧ ir'.PrunedUnread ∧
      (ir'.finalize = .error .overflow ∨ ∃ cs layout, ir'.finalize = .ok (cs,layout) ∧
        ∀ σ, layout.FixesConstants σ → (∃ witness, layout.Represents witness σ) ∧
          ∀ witness, layout.Represents witness σ → (cs.validate witness = .ok () ↔
            ∃ τ, (∀ wire, ¬ir'.Pruned wire → τ wire = σ wire) ∧ ir.Satisfied τ)) := by
  obtain ⟨ir',hrun,hw,-,-,hp,hsat⟩ := runWireElimination_ok costModel hr.fresh hz hm
  refine ⟨ir',hrun,hp,?_⟩
  rcases ConstraintSystemIR.finalize_ok hw hp with herr | ⟨cs,layout,derivedAlive,hfin,hdone⟩
  · exact Or.inl herr
  · refine Or.inr ⟨cs,layout,hfin,fun σ hfix => ⟨?_,fun witness hrep => ?_⟩⟩
    · obtain ⟨witness,-,hrep⟩ := hdone.laid.exists_represents σ
      exact ⟨witness,hrep⟩
    · rw [hdone.validate_iff σ hfix witness hrep,hsat]

/-! ## Records beyond 32 bits

A use of a wire keeps the index of its constraint as a 32-bit word, so a later
constraint is noted at the place of an earlier one.
-/

section Aliased

def precommitWire (id : ℕ) : ConstraintWire := ⟨.precommit,id⟩

def firstSum : Operand ConstraintWire :=
  ⟨[precommitWire 0,precommitWire 1,privWire 0],by
    rw [Ordered]
    decide⟩

def lastSum : Operand ConstraintWire :=
  ⟨[precommitWire 2,privWire 0,privWire 1],by
    rw [Ordered]
    decide⟩

/-- A sum, a number of assertions about a third value, and a sum with the first one. -/
def aliasedRecord (F : Type) (n : ℕ) : ConstraintSystemIR F :=
  { ConstraintBuilder.new with
    precommitAlloc := ⟨3,by decide⟩
    privateAlloc := ⟨2,by decide⟩
    zeroConstraints := firstSum :: (List.replicate n (.single (precommitWire 2)) ++ [lastSum])
    privateWiresStatus := [.unknown,.unknown] }

theorem Recorded.replicate [DecidableEq F] {ir : ConstraintSystemIR F} (h : Recorded ir)
    {wire : ConstraintWire} (hw : ir.Allocated wire) (n : ℕ) :
    Recorded { ir with zeroConstraints := ir.zeroConstraints ++ List.replicate n (.single wire) } := by
  induction n with
  | zero =>
    rw [replicate_zero,append_nil]
    exact h
  | succ n ih =>
    refine ih.call (.assertZero wire) [] (fun w hmem => ?_) ?_
    · rw [mem_singleton.mp hmem]
      exact hw
    · simp only [Call.run,ConstraintBuilder.assertZero]
      rw [append_assoc,←replicate_succ']

theorem aliasedRecord_recorded [DecidableEq F] (n : ℕ) : Recorded (aliasedRecord F n) := by
  have hfirst : Recorded { (ConstraintBuilder.new : ConstraintSystemIR F) with
      precommitAlloc := ⟨3,by decide⟩
      privateAlloc := ⟨1,by decide⟩
      zeroConstraints := [firstSum]
      privateWiresStatus := [.unknown] } := by
    refine (((Recorded.new.call .allocPrecommit [precommitWire 0] nofun rfl).call .allocPrecommit
      [precommitWire 1] nofun rfl).call .allocPrecommit [precommitWire 2] nofun rfl).call
        (.add (precommitWire 0) (precommitWire 1)) [privWire 0] (fun w hmem => ?_) ?_
    · rcases List.mem_pair.mp hmem with rfl | rfl
      · exact (by decide : 0 < 3)
      · exact (by decide : 1 < 3)
    · rw [firstSum,←Operand.new_of_ordered]
      rfl
  have hmid := Recorded.replicate hfirst (show ConstraintSystemIR.Allocated _ (precommitWire 2) from
    (by decide : 2 < 3)) n
  refine hmid.call (.add (precommitWire 2) (privWire 0)) [privWire 1] (fun w hmem => ?_) ?_
  · rcases List.mem_pair.mp hmem with rfl | rfl
    · exact (by decide : 2 < 3)
    · exact (by decide : 0 < 1)
  · rw [aliasedRecord,lastSum,←Operand.new_of_ordered]
    rfl

/-- The record when the pass is done: the first sum is back, over a wire that is eliminated. -/
def aliasedResult (F : Type) (n : ℕ) : ConstraintSystemIR F :=
  { aliasedRecord F n with
    zeroConstraints := firstSum :: (List.replicate n (.single (precommitWire 2)) ++ [.empty])
    privateWiresStatus := [.pruned,.pruned] }

variable {n : ℕ}

theorem aliased_collect (hn : asU32 (n + 1) = 0) :
    WireEliminationPass.new .default (aliasedRecord F n) =
      .ok ⟨.default,aliasedRecord F n,[[.add 0,.add 0],[.add 0]]⟩ := by
  have hmid : ∀ entry ∈ (List.replicate n (Operand.single (precommitWire 2))).zipIdx 1,
      WireEliminationPass.collectZero (aliasedRecord F n) [[.add 0],[]] entry =
        .ok [[.add 0],[]] := by
    rintro ⟨operand,i⟩ hmem
    have hop := eq_of_mem_replicate (fst_mem_of_mem_zipIdx hmem)
    simp only at hop
    rw [hop]
    rfl
  have hfirst : WireEliminationPass.collectZero (aliasedRecord F n) [[],[]] (firstSum,0) =
      .ok [[.add 0],[]] := rfl
  have hlast : WireEliminationPass.collectZero (aliasedRecord F n) [[.add 0],[]] (lastSum,n + 1) =
      .ok [[.add 0,.add 0],[.add 0]] := by
    rw [WireEliminationPass.collectZero]
    simp only
    rw [hn]
    rfl
  have hall : (aliasedRecord F n).zeroConstraints.zipIdx.foldlM
      (WireEliminationPass.collectZero (aliasedRecord F n)) [[],[]] =
        .ok [[.add 0,.add 0],[.add 0]] := by
    simp only [aliasedRecord] at hfirst hmid hlast ⊢
    rw [zipIdx_cons,zipIdx_append,foldlM_cons,hfirst,ok_bind,foldlM_append,
      foldlM_fixed hmid,ok_bind,length_replicate,zipIdx_singleton,foldlM_cons,
      Nat.zero_add,Nat.add_comm 1 n,hlast]
    rfl
  have hall' : (aliasedRecord F n).zeroConstraints.zipIdx.foldlM
      (WireEliminationPass.collectZero (aliasedRecord F n))
        (List.replicate (aliasedRecord F n).privateWiresStatus.length []) =
          .ok [[.add 0,.add 0],[.add 0]] := hall
  simp only [WireEliminationPass.new]
  rw [hall']
  rfl

/-- Two sums, the second over the first. -/
theorem wireElimination_preserves_twoSums :
    ∃ ir', runWireElimination .default (aliasedRecord (ZMod 2) 0) = .ok ir' ∧ ir'.PrunedUnread ∧
      (ir'.finalize = .error .overflow ∨ ∃ cs layout, ir'.finalize = .ok (cs,layout) ∧
        ∀ σ, layout.FixesConstants σ → (∃ witness, layout.Represents witness σ) ∧
          ∀ witness, layout.Represents witness σ → (cs.validate witness = .ok () ↔
            ∃ τ, (∀ wire, ¬ir'.Pruned wire → τ wire = σ wire) ∧
              (aliasedRecord (ZMod 2) 0).Satisfied τ)) :=
  wireElimination_preserves .default (aliasedRecord_recorded 0) (by decide) (by decide)

/-- The pass over the record, before any step. -/
def aliasedPass (F : Type) (n : ℕ) : WireEliminationPass F :=
  ⟨.default,aliasedRecord F n,[[.add 0,.add 0],[.add 0]]⟩

/-- The pass once the first sum is eliminated: the index of the last one is gone past. -/
def aliasedMiddle (F : Type) (n : ℕ) : WireEliminationPass F :=
  ⟨.default,{ aliasedRecord F n with privateWiresStatus := [.pruned,.unknown] },[[],[.add 0]]⟩

theorem aliased_first :
    (aliasedPass F n).eliminate 0 2 = .ok (aliasedMiddle F n) := by
  have hpruned : (aliasedPass F n).eliminate 0 2 =
      WireEliminationPass.replaceUse firstSum ⟨.default,{ aliasedRecord F n with
        zeroConstraints := .empty :: (List.replicate n (.single (precommitWire 2)) ++ [lastSum])
        privateWiresStatus := [.pruned,.unknown] },[[],[.add 0]]⟩ (.add 0) := by
    have hfold : (aliasedPass F n).eliminate 0 2 =
        [UseSite.add 0].foldlM (WireEliminationPass.replaceUse firstSum) ⟨.default,{ aliasedRecord F n with
          zeroConstraints := .empty :: (List.replicate n (.single (precommitWire 2)) ++ [lastSum])
          privateWiresStatus := [.pruned,.unknown] },[[],[.add 0]]⟩ := rfl
    rw [hfold,foldlM_cons]
    simp only [foldlM_nil,bind_pure]
  rw [hpruned,WireEliminationPass.replaceUse]
  simp only [ConstraintSystemIR.operandAt,getElem?_cons_zero,Operand.merge_empty]
  rfl

theorem aliased_middle {i : ℕ} (hi : i < n) :
    (aliasedMiddle F n).pruningCandidate (i + 1) = .ok none := by
  have hget : getAt (aliasedMiddle F n).ir.zeroConstraints (i + 1) =
      .ok (.single (precommitWire 2)) := by
    have hlt : i < (List.replicate n (Operand.single (precommitWire 2))).length := by
      rw [length_replicate]
      exact hi
    have hin : (firstSum :: (List.replicate n (Operand.single (precommitWire 2)) ++ [lastSum]))[i + 1]? =
        some (.single (precommitWire 2)) := by
      rw [getElem?_cons_succ,getElem?_append_left hlt,getElem?_replicate,if_pos hi]
    exact getAt_ok hin
  rw [WireEliminationPass.pruningCandidate,hget]
  rfl

theorem aliased_last (hn : asU32 (n + 1) = 0) :
    (aliasedMiddle F n).pruningCandidate (n + 1) = .ok (some 2) ∧
      (aliasedMiddle F n).eliminate (n + 1) 2 = .ok ⟨.default,aliasedResult F n,[[],[]]⟩ := by
  have hlen : (List.replicate n (Operand.single (precommitWire 2))).length = n := length_replicate
  have hget : getAt (aliasedMiddle F n).ir.zeroConstraints (n + 1) = .ok lastSum := by
    have hin : (firstSum :: (List.replicate n (Operand.single (precommitWire 2)) ++ [lastSum]))[n + 1]? =
        some lastSum := by
      rw [getElem?_cons_succ,getElem?_append_right hlen.le,hlen,Nat.sub_self]
      rfl
    exact getAt_ok hin
  refine ⟨?_,?_⟩
  · rw [WireEliminationPass.pruningCandidate,hget]
    rfl
  · have hset : (firstSum :: (List.replicate n (Operand.single (precommitWire 2)) ++ [lastSum])).set
        (n + 1) .empty =
          firstSum :: (List.replicate n (.single (precommitWire 2)) ++ [.empty]) := by
      rw [set_cons_succ,set_append_right _ _ hlen.le,hlen,Nat.sub_self]
      rfl
    rw [WireEliminationPass.eliminate,hget,hn]
    simp only [aliasedMiddle,aliasedRecord,aliasedResult,ok_bind,ConstraintSystemIR.setOperand,hset]
    rfl

theorem aliased_run (hn : asU32 (n + 1) = 0) :
    runWireElimination .default (aliasedRecord F n) = .ok (aliasedResult F n) := by
  have hrange : range (n + 2) = 0 :: ((range n).map Nat.succ ++ [n + 1]) := by
    rw [range_succ,range_succ_eq_map]
    rfl
  have hlen : (aliasedPass F n).ir.zeroConstraints.length = n + 2 := by
    simp [aliasedPass,aliasedRecord]
  have hcand : (aliasedPass F n).pruningCandidate 0 = .ok (some 2) := rfl
  obtain ⟨hlast,hdone⟩ := aliased_last (F := F) hn
  have hrun : (aliasedPass F n).run = .ok ⟨.default,aliasedResult F n,[[],[]]⟩ := by
    rw [WireEliminationPass.run,hlen,hrange,foldlM_cons,hcand]
    simp only [ok_bind,aliased_first]
    rw [foldlM_append,foldlM_fixed,ok_bind,foldlM_cons,hlast]
    · simp only [ok_bind,hdone]
      rfl
    · intro i hi
      obtain ⟨j,hj,rfl⟩ := mem_map.mp hi
      rw [aliased_middle (mem_range.mp hj)]
      rfl
  have hnew : WireEliminationPass.new .default (aliasedRecord F n) = .ok (aliasedPass F n) :=
    aliased_collect hn
  rw [runWireElimination,hnew,ok_bind,hrun]
  rfl

/-- Past `2 ^ 32` constraints an eliminated wire may still be read. -/
theorem wireElimination_aliases :
    ¬∀ (costModel : CostModel) (ir : ConstraintSystemIR (ZMod 2)), Recorded ir →
      ∃ ir', runWireElimination costModel ir = .ok ir' ∧ ir'.PrunedUnread ∧
        (ir'.finalize = .error .overflow ∨ ∃ cs layout, ir'.finalize = .ok (cs,layout) ∧
          ∀ σ, layout.FixesConstants σ → (∃ witness, layout.Represents witness σ) ∧
            ∀ witness, layout.Represents witness σ → (cs.validate witness = .ok () ↔
              ∃ τ, (∀ wire, ¬ir'.Pruned wire → τ wire = σ wire) ∧ ir.Satisfied τ)) := by
  intro h
  have hn : asU32 (2 ^ 32 - 1 + 1) = 0 := by decide
  obtain ⟨ir',hrun,hp,-⟩ := h .default (aliasedRecord (ZMod 2) (2 ^ 32 - 1)) (aliasedRecord_recorded _)
  rw [aliased_run hn] at hrun
  cases hrun
  have hpruned : (aliasedResult (ZMod 2) (2 ^ 32 - 1)).Pruned (privWire 0) := ⟨rfl,rfl⟩
  have hmem : privWire 0 ∈ firstSum.wires :=
    mem_cons_of_mem _ (mem_cons_of_mem _ mem_cons_self)
  exact hp _ hpruned (.add 0) firstSum rfl _ hmem rfl

end Aliased

end Binius64.Spartan
