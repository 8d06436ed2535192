import Binius64.SpartanCircuit

/-!
# The alignment of the three builders

A simulation between the runs of one circuit with the constraint builder, the witness generator and
the instance generator.
-/

namespace Binius64.Spartan

open CheckedRun ParityList List
open Function (comp_apply update update_of_ne update_self)

variable {F : Type}

theorem wireAt_eq_ok {W : Type} {env : List W} {i : ℕ} {wire : W} :
    wireAt env i = .ok wire ↔ env[i]? = some wire := by
  rw [wireAt]
  cases env[i]? with
  | none => simp
  | some w => simp

theorem wireAt_map {V W : Type} {env : List V} (f : V → W) {i : ℕ} {wire : V}
    (h : wireAt env i = .ok wire) : wireAt (env.map f) i = .ok (f wire) := by
  rw [wireAt_eq_ok] at h ⊢
  rw [getElem?_map,h,Option.map_some]

theorem mapM_wireAt_map {V W : Type} {env : List V} (f : V → W) {positions : List ℕ}
    {wires : List V} (h : positions.mapM (wireAt env) = .ok wires) :
    positions.mapM (wireAt (env.map f)) = .ok (wires.map f) := by
  induction positions generalizing wires with
  | nil =>
    cases h
    rfl
  | cons i rest ih =>
    rw [mapM_cons] at h
    obtain ⟨wire,hw,hr⟩ := bind_eq_ok.mp h
    obtain ⟨others,ho,hlast⟩ := bind_eq_ok.mp hr
    cases hlast
    rw [mapM_cons,wireAt_map f hw,ok_bind,ih ho]
    rfl

theorem mapM_wireAt_mem {V : Type} {env : List V} {positions : List ℕ} {ws : List V}
    (h : positions.mapM (wireAt env) = .ok ws) : ∀ wire ∈ ws, wire ∈ env := by
  intro wire hw
  obtain ⟨i,-,hi⟩ := (mapM_mem h).2 wire hw
  exact mem_of_getElem? (wireAt_eq_ok.mp hi)

theorem allocOutputs_grows {derived : Bool} {n : ℕ} {news : List ConstraintWire}
    {ir ir' : ConstraintSystemIR F}
    (h : ConstraintBuilder.allocOutputs derived n ir = .ok (news,ir')) :
    (∀ k, ir.count k ≤ ir'.count k) ∧ ir'.constants = ir.constants ∧
      ∀ wire ∈ news, ir'.Allocated wire := by
  induction n generalizing ir news with
  | zero =>
    cases h
    exact ⟨fun _ => le_rfl,rfl,nofun⟩
  | succ n ih =>
    obtain ⟨⟨w,mid⟩,hw,hr⟩ := bind_eq_ok.mp h
    obtain ⟨⟨ws,last⟩,hws,hlast⟩ := bind_eq_ok.mp hr
    cases hlast
    have hn := allocOutput_newWire hw
    obtain ⟨hcount,hconst,hnew⟩ := ih hws
    refine ⟨fun k => (hn.count_le k).trans (hcount k),hconst.trans hn.constants_eq,fun wire hmem => ?_⟩
    rcases mem_cons.mp hmem with rfl | hrest
    · exact hn.allocated.mono hcount
    · exact hnew wire hrest

section Calls

variable [DecidableEq F] {ir ir' : ConstraintSystemIR F} {wires wires' news : List ConstraintWire}

theorem Call.run_grows {call : Call F} (hw : ir.WellFormed) (h : call.run ir = .ok (news,ir')) :
    (∀ k, ir.count k ≤ ir'.count k) ∧ ir.constants <+: ir'.constants ∧
      ∀ wire ∈ news, ir'.Allocated wire := by
  have hone {mid : ConstraintSystemIR F} {kind : WireKind} {w : ConstraintWire}
      (hn : NewWire kind ir w mid) (hcount : ir'.count = mid.count)
      (hconst : ir'.constants = mid.constants) : (∀ k, ir.count k ≤ ir'.count k) ∧
        ir.constants <+: ir'.constants ∧ ∀ wire ∈ [w], ir'.Allocated wire := by
    refine ⟨fun k => ?_,?_,fun wire hmem => ?_⟩
    · rw [hcount]
      exact hn.count_le k
    · rw [hconst,hn.constants_eq]
    · rw [mem_singleton.mp hmem,ConstraintSystemIR.Allocated,hcount]
      exact hn.allocated
  cases call with
  | allocInout =>
    obtain ⟨⟨w,mid⟩,ha,hr⟩ := bind_eq_ok.mp h
    cases hr
    exact hone (allocInout_newWire ha) rfl rfl
  | allocPrecommit =>
    obtain ⟨⟨w,mid⟩,ha,hr⟩ := bind_eq_ok.mp h
    cases hr
    exact hone (allocPrecommit_newWire ha) rfl rfl
  | assertZero w =>
    cases h
    exact ⟨fun _ => le_rfl,prefix_rfl,forall_mem_nil _⟩
  | assertEq l r =>
    cases h
    exact ⟨fun _ => le_rfl,prefix_rfl,forall_mem_nil _⟩
  | constant c =>
    obtain ⟨⟨w,mid⟩,ha,hr⟩ := bind_eq_ok.mp h
    cases hr
    obtain ⟨⟨id,last⟩,hid,hlast⟩ := bind_eq_ok.mp ha
    cases hlast
    have hw' := constantId_wellFormed hid hw
    obtain ⟨-,-,-,hcount,hgrown,hmem⟩ := constantId_keeps hid
    refine ⟨fun k => ?_,hgrown,fun wire hwire => ?_⟩
    · by_cases hk : k = .constant
      · rw [hk,←ConstraintSystemIR.constants_length hw,←ConstraintSystemIR.constants_length hw']
        exact hgrown.length_le
      · exact (hcount k hk).ge
    · have hget := ConstraintSystemIR.constant_getElem? hw' hmem
      have hlt := (List.getElem?_eq_some_iff.mp hget).1
      rw [length_map,ConstraintSystemIR.constants_length hw'] at hlt
      rw [mem_singleton.mp hwire]
      exact hlt
  | add l r =>
    obtain ⟨⟨w,last⟩,ha,hr⟩ := bind_eq_ok.mp h
    cases hr
    obtain ⟨mid,hn,hir⟩ := add_eq_ok ha
    refine hone hn ?_ ?_ <;> rw [hir] <;> split <;> rfl
  | mul l r =>
    obtain ⟨⟨w,last⟩,ha,hr⟩ := bind_eq_ok.mp h
    cases hr
    obtain ⟨mid,hn,hir⟩ := mul_eq_ok ha
    refine hone hn ?_ ?_ <;> rw [hir] <;> split <;> rfl
  | hint inputs outLen =>
    obtain ⟨hcount,hconst,hnew⟩ := allocOutputs_grows h
    exact ⟨hcount,hconst ▸ prefix_rfl,hnew⟩

theorem Op.exists_call {op : Op F} (h : Op.run constraintBuilder (wires,ir) op = .ok (wires',ir')) :
    ∃ (call : Call F) (news : List ConstraintWire), (∀ wire ∈ call.args, wire ∈ wires) ∧
      call.run ir = .ok (news,ir') ∧ wires' = wires ++ news := by
  have hat {i : ℕ} {w : ConstraintWire} (hw : wireAt wires i = .ok w) : w ∈ wires :=
    mem_of_getElem? (wireAt_eq_ok.mp hw)
  have hpair {l r : ConstraintWire} (hl : l ∈ wires) (hr : r ∈ wires) :
      ∀ wire ∈ [l,r], wire ∈ wires := by
    intro wire hmem
    rcases List.mem_pair.mp hmem with rfl | rfl
    · exact hl
    · exact hr
  cases op with
  | inout =>
    obtain ⟨⟨w,mid⟩,ha,hr⟩ := bind_eq_ok.mp h
    cases hr
    have ha' : ConstraintBuilder.allocInout ir = .ok (w,ir') := ha
    exact ⟨.allocInout,[w],forall_mem_nil _,by rw [Call.run,ha']; rfl,rfl⟩
  | precommit =>
    obtain ⟨⟨w,mid⟩,ha,hr⟩ := bind_eq_ok.mp h
    cases hr
    have ha' : ConstraintBuilder.allocPrecommit ir = .ok (w,ir') := ha
    exact ⟨.allocPrecommit,[w],forall_mem_nil _,by rw [Call.run,ha']; rfl,rfl⟩
  | assertZero i =>
    obtain ⟨w,hw,hr⟩ := bind_eq_ok.mp h
    cases hr
    refine ⟨.assertZero w,[],fun wire hmem => ?_,rfl,(append_nil _).symm⟩
    rw [mem_singleton.mp hmem]
    exact hat hw
  | assertEq i j =>
    obtain ⟨l,hl,hr⟩ := bind_eq_ok.mp h
    obtain ⟨r,hr',hlast⟩ := bind_eq_ok.mp hr
    cases hlast
    exact ⟨.assertEq l r,[],hpair (hat hl) (hat hr'),rfl,(append_nil _).symm⟩
  | constant c =>
    obtain ⟨⟨w,mid⟩,ha,hr⟩ := bind_eq_ok.mp h
    cases hr
    have ha' : ConstraintBuilder.constant c ir = .ok (w,ir') := ha
    exact ⟨.constant c,[w],forall_mem_nil _,by rw [Call.run,ha']; rfl,rfl⟩
  | add i j =>
    obtain ⟨l,hl,hr⟩ := bind_eq_ok.mp h
    obtain ⟨r,hr',hlast⟩ := bind_eq_ok.mp hr
    obtain ⟨⟨w,last⟩,ha,hend⟩ := bind_eq_ok.mp hlast
    cases hend
    have ha' : ConstraintBuilder.add l r ir = .ok (w,ir') := ha
    exact ⟨.add l r,[w],hpair (hat hl) (hat hr'),by rw [Call.run,ha']; rfl,rfl⟩
  | mul i j =>
    obtain ⟨l,hl,hr⟩ := bind_eq_ok.mp h
    obtain ⟨r,hr',hlast⟩ := bind_eq_ok.mp hr
    obtain ⟨⟨w,last⟩,ha,hend⟩ := bind_eq_ok.mp hlast
    cases hend
    have ha' : ConstraintBuilder.mul l r ir = .ok (w,ir') := ha
    exact ⟨.mul l r,[w],hpair (hat hl) (hat hr'),by rw [Call.run,ha']; rfl,rfl⟩
  | hint positions outLen f =>
    obtain ⟨ws,hws,hr⟩ := bind_eq_ok.mp h
    obtain ⟨⟨news,last⟩,ha,hlast⟩ := bind_eq_ok.mp hr
    cases hlast
    exact ⟨.hint ws outLen,news,mapM_wireAt_mem hws,ha,rfl⟩

/-- What recording leaves: a record of the builder in which the wires in scope are handed out. -/
structure Scoped (wires : List ConstraintWire) (ir : ConstraintSystemIR F) : Prop where
  recorded : Recorded ir
  allocated : ∀ wire ∈ wires, ir.Allocated wire

theorem Scoped.step {op : Op F} (h : Scoped wires ir)
    (hop : Op.run constraintBuilder (wires,ir) op = .ok (wires',ir')) :
    Scoped wires' ir' ∧ wires <+: wires' ∧ ir.constants <+: ir'.constants := by
  obtain ⟨call,news,hargs,hrun,rfl⟩ := Op.exists_call hop
  obtain ⟨hcount,hconst,hnew⟩ := Call.run_grows h.recorded.fresh.wellFormed hrun
  refine ⟨⟨h.recorded.call call news (fun wire ha => h.allocated wire (hargs wire ha)) hrun,
    fun wire hmem => ?_⟩,prefix_append _ _,hconst⟩
  rcases mem_append.mp hmem with hold | hin
  · exact (h.allocated wire hold).mono hcount
  · exact hnew wire hin

theorem Scoped.run {circuit : List (Op F)} (h : Scoped wires ir)
    (hrun : circuit.foldlM (Op.run constraintBuilder) (wires,ir) = .ok (wires',ir')) :
    Scoped wires' ir' ∧ wires <+: wires' ∧ ir.constants <+: ir'.constants := by
  induction circuit generalizing wires ir with
  | nil =>
    cases hrun
    exact ⟨h,prefix_rfl,prefix_rfl⟩
  | cons op rest ih =>
    rw [foldlM_cons] at hrun
    obtain ⟨⟨wires₁,ir₁⟩,hop,hr⟩ := bind_eq_ok.mp hrun
    obtain ⟨h₁,hw,hc⟩ := h.step hop
    obtain ⟨h',hw',hc'⟩ := ih h₁ hr
    exact ⟨h',hw.trans hw',hc.trans hc'⟩

end Calls

namespace Witness

def put (values : Witness F) (place : Option WitnessIndex) (v : F) : Witness F :=
  match place with
  | some index => values.setPart index.segment ((values.part index.segment).set index.index v)
  | none => values

theorem put_part_length (values : Witness F) (place : Option WitnessIndex) (v : F)
    (segment : WitnessSegment) :
    ((values.put place v).part segment).length = (values.part segment).length := by
  cases place with
  | none => rfl
  | some index =>
    rw [put,part_setPart]
    split
    · rename_i heq
      rw [length_set,heq]
    · rfl

variable {values : Witness F}

theorem get_eq_ok {index : WitnessIndex} {v : F} :
    values.get index = .ok v ↔ (values.part index.segment)[index.index]? = some v := by
  rw [get,getAt]
  cases (values.part index.segment)[index.index]? with
  | none => simp
  | some w => simp

theorem get_put_self {index : WitnessIndex} (v : F)
    (h : index.index < (values.part index.segment).length) :
    (values.put (some index) v).get index = .ok v := by
  rw [get_eq_ok,put,part_setPart,if_pos rfl,getElem?_set_self h]

theorem get_put_of_ne {place : Option WitnessIndex} {other : WitnessIndex} (v : F)
    (h : place ≠ some other) : (values.put place v).get other = values.get other := by
  cases place with
  | none => rfl
  | some index =>
    rw [get,get,put,part_setPart]
    by_cases hs : other.segment = index.segment
    · rw [if_pos hs,←hs,getAt,getAt,getElem?_set_ne]
      rintro hi
      refine h ?_
      cases index
      cases other
      simp only at hs hi
      rw [hs,hi]
    · rw [if_neg hs]

theorem put_pub {place : Option WitnessIndex} (v : F)
    (h : ∀ index, place = some index → index.segment ≠ .pub) :
    (values.put place v).pub = values.pub := by
  cases place with
  | none => rfl
  | some index =>
    have hne := h index rfl
    obtain ⟨segment,i⟩ := index
    cases segment with
    | pub => exact absurd rfl hne
    | precommit => rfl
    | priv => rfl

end Witness

theorem WitnessGenerator.writeValue_eq_ok {layout : WitnessLayout F} {wire : ConstraintWire} {v : F}
    {gen gen' : WitnessGenerator F} {out : WitnessWire F}
    (h : writeValue layout wire v gen = .ok (out,gen')) :
    ∃ place, layout.get wire = .ok place ∧ out = ⟨v,wire.kind.segment⟩ ∧
      gen' = { gen with values := gen.values.put place v } := by
  rw [writeValue] at h
  obtain ⟨place,hp,hr⟩ := bind_eq_ok.mp h
  cases place with
  | none =>
    cases hr
    exact ⟨none,hp,rfl,rfl⟩
  | some index =>
    obtain ⟨part,hset,hlast⟩ := bind_eq_ok.mp hr
    rw [setAt] at hset
    split at hset
    · cases hset
      cases hlast
      exact ⟨some index,hp,rfl,rfl⟩
    · cases hset

def ofWire (σ : ConstraintWire → F) (wire : ConstraintWire) : WitnessWire F :=
  ⟨σ wire,wire.kind.segment⟩

def publicValue (σ : ConstraintWire → F) (wire : ConstraintWire) : Option F :=
  if wire.kind.isPublic then some (σ wire) else none

theorem ofWire_isPublic (σ : ConstraintWire → F) (wire : ConstraintWire) :
    (ofWire σ wire).isPublic = wire.kind.isPublic := rfl

section Simulation

variable {layout : WitnessLayout F} {derivedAlive privateAlive : List Bool}

/-- The three runs agree on an assignment: the counters are the same, the constants and every wire
handed out have their values at their places, and the instance holds the public part. -/
structure Aligned (layout : WitnessLayout F) (derivedAlive privateAlive : List Bool)
    (σ : ConstraintWire → F) (wires : List ConstraintWire) (ir : ConstraintSystemIR F)
    (gen : WitnessGenerator F) (inst : InstanceGenerator F) : Prop where
  allocated : ∀ wire ∈ wires, ir.Allocated wire
  fixes : layout.FixesConstants σ
  derived_eq : gen.derivedAlloc.nWires = ir.count .derived
  private_eq : gen.privateAlloc.nWires = ir.count .priv
  /-- The instance generator has handed out as many derived values. -/
  instance_eq : inst.derivedAlloc.nWires = ir.count .derived
  length_eq : ∀ segment, (gen.values.part segment).length = layout.size segment
  /-- The places of constants and of wires handed out hold their values. -/
  written : ∀ wire index, Slot layout derivedAlive privateAlive wire index →
    wire.kind = .constant ∨ ir.Allocated wire → gen.values.get index = .ok (σ wire)
  pub_eq : inst.pub = gen.values.pub

variable {ir : ConstraintSystemIR F} {kind : WireKind} {wire : ConstraintWire}
   {wires : List ConstraintWire} {σ : ConstraintWire → F} {gen : WitnessGenerator F}
   {inst : InstanceGenerator F}

theorem NewWire.not_allocated {mid : ConstraintSystemIR F}
    (h : NewWire kind ir wire mid) : ¬ir.Allocated wire := by
  rw [ConstraintSystemIR.Allocated,h.wire_eq]
  exact lt_irrefl _

theorem NewWire.allocated_iff {mid : ConstraintSystemIR F}
    {other : ConstraintWire} (h : NewWire kind ir wire mid) :
    mid.Allocated other ↔ ir.Allocated other ∨ other = wire := by
  rw [ConstraintSystemIR.Allocated,ConstraintSystemIR.Allocated,h.count_eq,h.wire_eq]
  obtain ⟨k,i⟩ := other
  by_cases hk : k = kind
  · subst hk
    simp only [if_true,ConstraintWire.mk.injEq,true_and]
    omega
  · simp [hk]

theorem map_update {α : Type} (f : (ConstraintWire → F) → ConstraintWire → α)
    (hf : ∀ σ τ wire, σ wire = τ wire → f σ wire = f τ wire)
    (hw : wire ∉ wires) (σ : ConstraintWire → F) (v : F) :
    wires.map (f (update σ wire v)) = wires.map (f σ) := by
  refine map_congr_left fun other ho => hf _ _ other (update_of_ne ?_ _ _)
  rintro rfl
  exact hw ho

theorem map_ofWire_update (hw : wire ∉ wires)
    (σ : ConstraintWire → F) (v : F) :
    wires.map (ofWire (update σ wire v)) = wires.map (ofWire σ) :=
  map_update ofWire (fun σ τ w h => by rw [ofWire,ofWire,h]) hw σ v

theorem map_publicValue_update
    (hw : wire ∉ wires) (σ : ConstraintWire → F) (v : F) :
    wires.map (publicValue (update σ wire v)) = wires.map (publicValue σ) :=
  map_update publicValue (fun σ τ w h => by rw [publicValue,publicValue,h]) hw σ v

theorem Aligned.newWire (hl : Laid layout derivedAlive privateAlive)
    {mid : ConstraintSystemIR F} {gen' : WitnessGenerator F}
    {inst' : InstanceGenerator F} (h : Aligned layout derivedAlive privateAlive σ wires ir gen inst)
    (hn : NewWire kind ir wire mid) (hk : kind ≠ .constant)
    {v : F} {place : Option WitnessIndex} (hplace : layout.get wire = .ok place)
    (hderived : gen'.derivedAlloc.nWires = mid.count .derived)
    (hpriv : gen'.privateAlloc.nWires = mid.count .priv)
    (hinst : inst'.derivedAlloc.nWires = mid.count .derived)
    (hvalues : gen'.values = gen.values.put place v) (hpub : inst'.pub = gen'.values.pub) :
    Aligned layout derivedAlive privateAlive (update σ wire v) (wires ++ [wire]) mid gen'
      inst' := by
  have hkind : wire.kind = kind := by rw [hn.wire_eq]
  have hslot : ∀ index, Slot layout derivedAlive privateAlive wire index → place = some index := by
    intro index hs
    rw [hl.get_slot hs] at hplace
    cases hplace
    rfl
  refine ⟨fun other ho => ?_,fun id w hw => ?_,hderived,hpriv,hinst,fun segment => ?_,
    fun other index hs hor => ?_,hpub⟩
  · rcases mem_append.mp ho with ho | ho
    · exact hn.allocated_iff.mpr (Or.inl (h.allocated other ho))
    · exact hn.allocated_iff.mpr (Or.inr (mem_singleton.mp ho))
  · have hne : (⟨.constant,id⟩ : ConstraintWire) ≠ wire := by
      rintro rfl
      exact hk hkind.symm
    rw [update_of_ne hne]
    exact h.fixes id w hw
  · rw [hvalues,Witness.put_part_length,h.length_eq]
  · rw [hvalues]
    by_cases heq : other = wire
    · subst heq
      rw [hslot index hs,update_self]
      refine Witness.get_put_self v ?_
      rw [h.length_eq]
      exact hl.index_lt hs
    · have hne : place ≠ some index := by
        rintro rfl
        exact heq (hs.injective (hl.slot_of_get hplace))
      rw [Witness.get_put_of_ne v hne,update_of_ne heq]
      refine h.written other index hs (hor.imp_right fun ha => ?_)
      exact (hn.allocated_iff.mp ha).resolve_right heq

theorem Slot.segment_eq {index : WitnessIndex}
    (h : Slot layout derivedAlive privateAlive wire index) : index.segment = wire.kind.segment := by
  cases h <;> rfl

theorem writePublic_ok (hl : Laid layout derivedAlive privateAlive) {values : Witness F}
    (hlen : ∀ segment, (values.part segment).length = layout.size segment)
    (hpub : inst.pub = values.pub)
    {place : Option WitnessIndex} (hplace : layout.get wire = .ok place)
    (hseg : wire.kind.segment = .pub) (v : F) :
    inst.writePublic layout wire v = .ok (some v,{ inst with pub := (values.put place v).pub }) := by
  rw [InstanceGenerator.writePublic,hplace,ok_bind]
  cases place with
  | none =>
    simp only [Witness.put]
    rw [←hpub]
    rfl
  | some index =>
    have hslot := hl.slot_of_get hplace
    have hindex : index.segment = .pub := hslot.segment_eq.trans hseg
    have hlt : index.index < inst.pub.length := by
      have hin := hl.index_lt hslot
      rw [hindex,←hlen] at hin
      rw [hpub]
      exact hin
    simp only [hindex,ne_eq,not_true_eq_false,if_false]
    rw [ConstraintSystemIR.setAt_ok hlt,ok_bind,hpub]
    simp only [Witness.put,hindex]
    rfl

theorem Aligned.output (hl : Laid layout derivedAlive privateAlive)
    {mid : ConstraintSystemIR F} {gen' : WitnessGenerator F}
    (h : Aligned layout derivedAlive privateAlive σ wires ir gen inst)
    {derived : Bool} (hn : NewWire (outputKind derived) ir wire mid) {v : F}
    {out : WitnessWire F}
    (hgen : WitnessGenerator.allocOpValue layout derived v gen = .ok (out,gen')) :
    out = ofWire (update σ wire v) wire ∧ ∃ inst',
      (if derived then inst.allocDerived layout v else .ok (none,inst)) =
        .ok (publicValue (update σ wire v) wire,inst') ∧
      Aligned layout derivedAlive privateAlive (update σ wire v) (wires ++ [wire]) mid gen'
        inst' ∧ gen'.firstError = gen.firstError := by
  have hk := outputKind_ne_constant derived
  cases derived with
  | true =>
    rw [WitnessGenerator.allocOpValue,if_pos rfl] at hgen
    obtain ⟨⟨w,derivedAlloc⟩,ha,hr⟩ := bind_eq_ok.mp hgen
    obtain ⟨hw,hcount⟩ := WireAllocator.alloc_eq_ok ha
    have hwire : w = wire := by rw [hw,hn.wire_eq,h.derived_eq]; rfl
    subst hwire
    obtain ⟨place,hplace,hout,hgen'⟩ := WitnessGenerator.writeValue_eq_ok hr
    have hmid : mid.count .derived = ir.count .derived + 1 := hn.count_eq .derived
    have hmidp : mid.count .priv = ir.count .priv := hn.count_eq .priv
    obtain ⟨instAlloc,hia,hicount⟩ : ∃ a, inst.derivedAlloc.alloc = .ok (w,a) ∧
        a.nWires = inst.derivedAlloc.nWires + 1 := by
      have hlt : inst.derivedAlloc.nWires + 1 < 2 ^ 32 := by
        rw [h.instance_eq,←h.derived_eq,←hcount]
        exact derivedAlloc.nWires_lt
      have hid : w = ⟨.derived,inst.derivedAlloc.nWires⟩ := by rw [hw,h.derived_eq,h.instance_eq]
      refine ⟨⟨_,hlt⟩,?_,rfl⟩
      rw [hid]
      exact dif_pos hlt
    refine ⟨?_,⟨instAlloc,(gen.values.put place v).pub⟩,?_,?_,?_⟩
    · rw [hout,ofWire,update_self]
    · have hval : publicValue (update σ w v) w = some v := by
        rw [publicValue,update_self,hw]
        rfl
      have hwritten := writePublic_ok hl h.length_eq
        (show (⟨instAlloc,inst.pub⟩ : InstanceGenerator F).pub = gen.values.pub from h.pub_eq)
        hplace (by rw [hw]; rfl) v
      rw [if_pos rfl,InstanceGenerator.allocDerived,hia,ok_bind,hval]
      exact hwritten
    · refine h.newWire hl hn hk hplace ?_ ?_ ?_ (by rw [hgen']) (by rw [hgen'])
      · rw [hgen',hmid,←h.derived_eq]
        exact hcount
      · rw [hgen',hmidp,←h.private_eq]
      · rw [hmid,←h.instance_eq]
        exact hicount
    · rw [hgen']
  | false =>
    rw [WitnessGenerator.allocOpValue,if_neg (by decide)] at hgen
    obtain ⟨⟨w,privateAlloc⟩,ha,hr⟩ := bind_eq_ok.mp hgen
    obtain ⟨hw,hcount⟩ := WireAllocator.alloc_eq_ok ha
    have hwire : w = wire := by rw [hw,hn.wire_eq,h.private_eq]; rfl
    subst hwire
    obtain ⟨place,hplace,hout,hgen'⟩ := WitnessGenerator.writeValue_eq_ok hr
    have hmid : mid.count .derived = ir.count .derived := hn.count_eq .derived
    have hmidp : mid.count .priv = ir.count .priv + 1 := hn.count_eq .priv
    have hpub : (gen.values.put place v).pub = gen.values.pub := by
      refine Witness.put_pub v fun index hi => ?_
      rw [hi] at hplace
      rw [(hl.slot_of_get hplace).segment_eq,hw]
      nofun
    refine ⟨?_,inst,?_,?_,?_⟩
    · rw [hout,ofWire,update_self]
    · have hval : publicValue (update σ w v) w = none := by
        rw [publicValue,hw]
        rfl
      rw [if_neg (by decide),hval]
    · refine h.newWire hl hn hk hplace ?_ ?_ ?_ (by rw [hgen']) (by rw [hgen',h.pub_eq]; exact hpub.symm)
      · rw [hgen',hmid,←h.derived_eq]
      · rw [hgen',hmidp,←h.private_eq]
        exact hcount
      · rw [hmid,h.instance_eq]
    · rw [hgen']

theorem Aligned.outputs (hl : Laid layout derivedAlive privateAlive) {derived : Bool}
    {values : List F} {news : List ConstraintWire}
    {mid : ConstraintSystemIR F} {gen' : WitnessGenerator F}
    {outs : List (WitnessWire F)} (h : Aligned layout derivedAlive privateAlive σ wires ir gen inst)
    (hC : ConstraintBuilder.allocOutputs derived values.length ir = .ok (news,mid))
    (hgen : WitnessGenerator.allocOpValues layout derived values gen = .ok (outs,gen')) :
    ∃ σ' inst', (∀ wire, ir.Allocated wire → σ' wire = σ wire) ∧ outs = news.map (ofWire σ') ∧
      (if derived then inst.allocDerivedValues layout values
        else .ok (replicate values.length none,inst)) = .ok (news.map (publicValue σ'),inst') ∧
      Aligned layout derivedAlive privateAlive σ' (wires ++ news) mid gen' inst' ∧
      gen'.firstError = gen.firstError ∧ mid.zeroConstraints = ir.zeroConstraints ∧
      mid.mulConstraints = ir.mulConstraints := by
  induction values generalizing σ wires ir gen inst news outs with
  | nil =>
    cases hC
    cases hgen
    refine ⟨σ,inst,fun _ _ => rfl,rfl,?_,by rw [append_nil]; exact h,rfl,rfl,rfl⟩
    cases derived <;> rfl
  | cons v values ih =>
    obtain ⟨⟨w,ir₁⟩,hcw,hcr⟩ := bind_eq_ok.mp hC
    obtain ⟨⟨ws,irLast⟩,hcs,hclast⟩ := bind_eq_ok.mp hcr
    cases hclast
    obtain ⟨⟨out,gen₁⟩,hgw,hgr⟩ := bind_eq_ok.mp hgen
    obtain ⟨⟨outs',genLast⟩,hgs,hglast⟩ := bind_eq_ok.mp hgr
    cases hglast
    have hn := allocOutput_newWire hcw
    obtain ⟨hout,inst₁,hinst,h₁,herr⟩ := h.output hl hn hgw
    obtain ⟨σ',inst',hkeep,houts,hinsts,h',herr',hzero,hmul⟩ := ih h₁ hcs hgs
    have hw' : σ' w = update σ w v w := hkeep w hn.allocated
    have hold : ∀ wire, ir.Allocated wire → σ' wire = σ wire := by
      intro wire ha
      have hne : wire ≠ w := by
        rintro rfl
        exact hn.not_allocated ha
      rw [hkeep wire (hn.allocated_iff.mpr (Or.inl ha)),update_of_ne hne]
    refine ⟨σ',inst',hold,?_,?_,?_,herr'.trans herr,hzero.trans hn.zero_eq,hmul.trans hn.mul_eq⟩
    · rw [map_cons,houts,hout,ofWire,ofWire,hw']
    · have hpub : publicValue σ' w = publicValue (update σ w v) w := by
        rw [publicValue,publicValue,hw']
      cases derived with
      | true =>
        simp only [if_true] at hinst hinsts ⊢
        rw [InstanceGenerator.allocDerivedValues,hinst,ok_bind]
        simp only
        rw [hinsts,ok_bind,map_cons,hpub]
        rfl
      | false =>
        simp only [Bool.false_eq_true,if_false,Except.ok.injEq,Prod.mk.injEq] at hinst hinsts ⊢
        obtain ⟨hfirst,rfl⟩ := hinst
        refine ⟨?_,hinsts.2⟩
        rw [map_cons,hpub,←hfirst,←hinsts.1]
        rfl
    · rw [append_assoc,singleton_append] at h'
      exact h'

/-- A simulation of the three runs: they are aligned, the record is one of a builder, and its
constraints hold unless an assertion has failed. -/
structure Simulates [Field F] [DecidableEq F] (layout : WitnessLayout F)
    (derivedAlive privateAlive : List Bool) (σ : ConstraintWire → F) (wires : List ConstraintWire)
    (ir : ConstraintSystemIR F) (gen : WitnessGenerator F) (inst : InstanceGenerator F) : Prop where
  aligned : Aligned layout derivedAlive privateAlive σ wires ir gen inst
  recorded : Recorded ir
  satisfied : gen.firstError = false → ir.Satisfied σ

theorem Simulates.scoped [Field F] [DecidableEq F]
    (h : Simulates layout derivedAlive privateAlive σ wires ir gen inst) : Scoped wires ir :=
  ⟨h.recorded,h.aligned.allocated⟩

theorem satisfied_of_keeps [Field F] {ir' : ConstraintSystemIR F} (hw : ir.WellFormed)
    {σ' : ConstraintWire → F} (hkeep : ∀ wire, ir.Allocated wire → σ' wire = σ wire)
    (hzero : ir'.zeroConstraints = ir.zeroConstraints)
    (hmul : ir'.mulConstraints = ir.mulConstraints) (h : ir.Satisfied σ) : ir'.Satisfied σ' := by
  have hval : ∀ site, ir.valueAt σ' site = ir.valueAt σ site :=
    ConstraintSystemIR.valueAt_congr hw.reads hkeep
  have hsame : ir.Satisfied σ' := by
    rw [ConstraintSystemIR.satisfied_iff] at h ⊢
    simp only [hval]
    exact h
  rw [ConstraintSystemIR.Satisfied,hzero,hmul]
  exact hsame

theorem satisfied_addZero [Field F]
    {operand : Operand ConstraintWire} (h : ir.Satisfied σ) (ho : operand.val σ = 0) :
    { ir with zeroConstraints := ir.zeroConstraints ++ [operand] }.Satisfied σ := by
  refine ⟨fun o hmem => ?_,h.2⟩
  rcases mem_append.mp hmem with hold | hnew
  · exact h.1 o hold
  · rw [mem_singleton.mp hnew]
    exact ho

theorem satisfied_addMul [Field F]
    {constraint : MulConstraint ConstraintWire} (h : ir.Satisfied σ) (hc : constraint.Holds σ) :
    { ir with mulConstraints := ir.mulConstraints ++ [constraint] }.Satisfied σ := by
  refine ⟨h.1,fun c hmem => ?_⟩
  rcases mem_append.mp hmem with hold | hnew
  · exact h.2 c hold
  · rw [mem_singleton.mp hnew]
    exact hc

section Step

variable [Field F] [DecidableEq F] {all : List ConstraintWire} {inputs inputs' : ConstraintWire → F}
  {σ : ConstraintWire → F} {wires wires' : List ConstraintWire} {ir ir' : ConstraintSystemIR F}
  {gen gen' : WitnessGenerator F} {inst : InstanceGenerator F} {outs : List (WitnessWire F)}

/-- What an operation leaves: the third run takes it as well, the witness generator hands out the
values of the new wires, and the simulation goes on. -/
def Follows3 (layout : WitnessLayout F) (derivedAlive privateAlive : List Bool)
    (all : List ConstraintWire) (inputs' σ : ConstraintWire → F) (wires : List ConstraintWire)
    (inst : InstanceGenerator F) (op : Op F) (wires' : List ConstraintWire)
    (ir' : ConstraintSystemIR F) (gen' : WitnessGenerator F) (outs : List (WitnessWire F)) : Prop :=
  ∃ σ' inst', Op.run (instanceGenerator layout all inputs') (wires.map (publicValue σ),inst) op =
      .ok (wires'.map (publicValue σ'),inst') ∧
    outs = wires'.map (ofWire σ') ∧
    Simulates layout derivedAlive privateAlive σ' wires' ir' gen' inst'

variable {wire : ConstraintWire}

omit [Field F] [DecidableEq F] in
theorem wireAt_of_prefix (h : wires ++ [wire] <+: all) :
    wireAt all wires.length = .ok wire := by
  obtain ⟨rest,rfl⟩ := h
  rw [wireAt_eq_ok,append_assoc,getElem?_append_right le_rfl,Nat.sub_self]
  rfl

omit [Field F] [DecidableEq F] in
theorem Aligned.fresh (h : Aligned layout derivedAlive privateAlive σ wires ir gen inst)
    {kind : WireKind} (hn : NewWire kind ir wire ir') : wire ∉ wires :=
  fun hw => hn.not_allocated (h.allocated wire hw)

omit [DecidableEq F] in
theorem satisfied_newWire {kind : WireKind} (hw : ir.WellFormed)
    (hn : NewWire kind ir wire ir') (v : F) (h : ir.Satisfied σ) :
    ir'.Satisfied (update σ wire v) := by
  refine satisfied_of_keeps hw (fun other ha => update_of_ne ?_ _ _) hn.zero_eq hn.mul_eq h
  rintro rfl
  exact hn.not_allocated ha

theorem step_inout (hl : Laid layout derivedAlive privateAlive)
    (hin : ∀ id, inputs' ⟨.inOut,id⟩ = inputs ⟨.inOut,id⟩)
    (h : Simulates layout derivedAlive privateAlive σ wires ir gen inst)
    (hC : Op.run constraintBuilder (wires,ir) (.inout : Op F) = .ok (wires',ir'))
    (hW : Op.run (witnessGenerator layout all inputs) (wires.map (ofWire σ),gen) .inout =
      .ok (outs,gen')) (hall : wires' <+: all) :
    Follows3 layout derivedAlive privateAlive all inputs' σ wires inst .inout wires' ir' gen' outs := by
  obtain ⟨⟨w,mid⟩,ha,hr⟩ := bind_eq_ok.mp hC
  cases hr
  have hn := allocInout_newWire ha
  have hw : w = ⟨.inOut,ir.count .inOut⟩ := hn.wire_eq
  have hat := wireAt_of_prefix hall
  obtain ⟨⟨out,gen₁⟩,hg,hr⟩ := bind_eq_ok.mp hW
  cases hr
  obtain ⟨w',hw',hwrite⟩ := bind_eq_ok.mp hg
  rw [length_map,hat] at hw'
  cases hw'
  rw [WitnessGenerator.writeInout,if_pos (by rw [hw])] at hwrite
  obtain ⟨place,hplace,hout,hgen'⟩ := WitnessGenerator.writeValue_eq_ok hwrite
  have hcount : ∀ k, k ≠ .inOut → ir'.count k = ir.count k := by
    intro k hk
    rw [hn.count_eq,if_neg hk,Nat.add_zero]
  have hal := h.aligned
  have hval : inputs' w = inputs w := by
    rw [hw]
    exact hin _
  have hfresh := hal.fresh hn
  refine ⟨update σ w (inputs w),⟨inst.derivedAlloc,(gen.values.put place (inputs w)).pub⟩,
    ?_,?_,?_,?_,fun herr => ?_⟩
  · have hpub : publicValue (update σ w (inputs w)) w = some (inputs w) := by
      rw [publicValue,update_self,hw]
      rfl
    have hwritten := writePublic_ok hl hal.length_eq hal.pub_eq hplace (by rw [hw]; rfl) (inputs w)
    simp only [Op.run,instanceGenerator,length_map]
    rw [hat,ok_bind,InstanceGenerator.writeInout,if_pos (by rw [hw]),hval,hwritten,ok_bind,
      map_append,map_publicValue_update hfresh,map_singleton,hpub]
    rfl
  · rw [map_append,map_ofWire_update hfresh,map_singleton,hout,ofWire,update_self]
  · refine hal.newWire hl hn (by decide) hplace ?_ ?_ ?_ (by rw [hgen']) (by rw [hgen'])
    · rw [hgen',hcount _ (by decide)]
      exact hal.derived_eq
    · rw [hgen',hcount _ (by decide)]
      exact hal.private_eq
    · rw [hcount _ (by decide)]
      exact hal.instance_eq
  · exact (h.scoped.step hC).1.recorded
  · rw [hgen'] at herr
    exact satisfied_newWire h.recorded.fresh.wellFormed hn _ (h.satisfied herr)

theorem step_precommit (hl : Laid layout derivedAlive privateAlive)
    (h : Simulates layout derivedAlive privateAlive σ wires ir gen inst)
    (hC : Op.run constraintBuilder (wires,ir) (.precommit : Op F) = .ok (wires',ir'))
    (hW : Op.run (witnessGenerator layout all inputs) (wires.map (ofWire σ),gen) .precommit =
      .ok (outs,gen')) (hall : wires' <+: all) :
    Follows3 layout derivedAlive privateAlive all inputs' σ wires inst .precommit wires' ir' gen'
      outs := by
  obtain ⟨⟨w,mid⟩,ha,hr⟩ := bind_eq_ok.mp hC
  cases hr
  have hn := allocPrecommit_newWire ha
  have hw : w = ⟨.precommit,ir.count .precommit⟩ := hn.wire_eq
  have hat := wireAt_of_prefix hall
  obtain ⟨⟨out,gen₁⟩,hg,hr⟩ := bind_eq_ok.mp hW
  cases hr
  obtain ⟨w',hw',hwrite⟩ := bind_eq_ok.mp hg
  rw [length_map,hat] at hw'
  cases hw'
  rw [WitnessGenerator.writePrecommit,if_pos (by rw [hw])] at hwrite
  obtain ⟨place,hplace,hout,hgen'⟩ := WitnessGenerator.writeValue_eq_ok hwrite
  have hcount : ∀ k, k ≠ .precommit → ir'.count k = ir.count k := by
    intro k hk
    rw [hn.count_eq,if_neg hk,Nat.add_zero]
  have hal := h.aligned
  have hfresh := hal.fresh hn
  -- a secret input lives outside the public segment
  have hpub : (gen.values.put place (inputs w)).pub = gen.values.pub := by
    refine Witness.put_pub _ fun index hi => ?_
    rw [hi] at hplace
    rw [(hl.slot_of_get hplace).segment_eq,hw]
    nofun
  refine ⟨update σ w (inputs w),inst,?_,?_,?_,?_,fun herr => ?_⟩
  · have hnone : publicValue (update σ w (inputs w)) w = none := by
      rw [publicValue,hw]
      rfl
    simp only [Op.run,instanceGenerator,length_map]
    rw [hat,ok_bind,InstanceGenerator.placeholderPrecommit,if_pos (by rw [hw]),ok_bind,
      map_append,map_publicValue_update hfresh,map_singleton,hnone]
    rfl
  · rw [map_append,map_ofWire_update hfresh,map_singleton,hout,ofWire,update_self]
  · refine hal.newWire hl hn (by decide) hplace ?_ ?_ ?_ (by rw [hgen']) ?_
    · rw [hgen',hcount _ (by decide)]
      exact hal.derived_eq
    · rw [hgen',hcount _ (by decide)]
      exact hal.private_eq
    · rw [hcount _ (by decide)]
      exact hal.instance_eq
    · rw [hgen',hpub]
      exact hal.pub_eq
  · exact (h.scoped.step hC).1.recorded
  · rw [hgen'] at herr
    exact satisfied_newWire h.recorded.fresh.wellFormed hn _ (h.satisfied herr)

omit [Field F] [DecidableEq F] in
theorem Aligned.keep (h : Aligned layout derivedAlive privateAlive σ wires ir gen inst)
    (hcount : ∀ k, k ≠ .constant → ir'.count k = ir.count k)
    (hallocated : ∀ wire ∈ wires', ir'.Allocated wire)
    (hderived : gen'.derivedAlloc = gen.derivedAlloc) (hpriv : gen'.privateAlloc = gen.privateAlloc)
    (hvalues : gen'.values = gen.values) :
    Aligned layout derivedAlive privateAlive σ wires' ir' gen' inst := by
  refine ⟨hallocated,h.fixes,?_,?_,?_,?_,fun wire index hs hor => ?_,?_⟩
  · rw [hderived,hcount _ (by decide)]
    exact h.derived_eq
  · rw [hpriv,hcount _ (by decide)]
    exact h.private_eq
  · rw [hcount _ (by decide)]
    exact h.instance_eq
  · rw [hvalues]
    exact h.length_eq
  · rw [hvalues]
    refine h.written wire index hs ?_
    by_cases hk : wire.kind = .constant
    · exact Or.inl hk
    · refine hor.imp_right fun hal => ?_
      rw [ConstraintSystemIR.Allocated,hcount _ hk] at hal
      exact hal
  · rw [hvalues]
    exact h.pub_eq

omit [Field F] [DecidableEq F] in
theorem firstError_of_check {p : Prop} [Decidable p]
    (h : (if p then gen.recordError else gen).firstError = false) : ¬p ∧ gen.firstError = false := by
  by_cases hp : p
  · rw [if_pos hp] at h
    cases h
  · rw [if_neg hp] at h
    exact ⟨hp,h⟩

theorem step_assertZero {i : ℕ}
    (h : Simulates layout derivedAlive privateAlive σ wires ir gen inst)
    (hC : Op.run constraintBuilder (wires,ir) (.assertZero i : Op F) = .ok (wires',ir'))
    (hW : Op.run (witnessGenerator layout all inputs) (wires.map (ofWire σ),gen) (.assertZero i) =
      .ok (outs,gen')) :
    Follows3 layout derivedAlive privateAlive all inputs' σ wires inst (.assertZero i) wires' ir' gen'
      outs := by
  obtain ⟨w,hw,hr⟩ := bind_eq_ok.mp hC
  cases hr
  obtain ⟨w',hw',hr⟩ := bind_eq_ok.mp hW
  rw [wireAt_map (ofWire σ) hw] at hw'
  cases hw'
  cases hr
  refine ⟨σ,inst,?_,rfl,?_,?_,fun herr => ?_⟩
  · simp only [Op.run,instanceGenerator]
    rw [wireAt_map (publicValue σ) hw]
    rfl
  · refine h.aligned.keep (fun k _ => rfl) (h.scoped.step hC).1.allocated ?_ ?_ ?_ <;> split <;> rfl
  · exact (h.scoped.step hC).1.recorded
  · obtain ⟨hval,hold⟩ := firstError_of_check herr
    refine satisfied_addZero (h.satisfied hold) ?_
    rw [Operand.val_single]
    exact not_not.mp hval

theorem step_assertEq [CharP F 2] {i j : ℕ}
    (h : Simulates layout derivedAlive privateAlive σ wires ir gen inst)
    (hC : Op.run constraintBuilder (wires,ir) (.assertEq i j : Op F) = .ok (wires',ir'))
    (hW : Op.run (witnessGenerator layout all inputs) (wires.map (ofWire σ),gen) (.assertEq i j) =
      .ok (outs,gen')) :
    Follows3 layout derivedAlive privateAlive all inputs' σ wires inst (.assertEq i j) wires' ir' gen'
      outs := by
  obtain ⟨l,hlw,hr⟩ := bind_eq_ok.mp hC
  obtain ⟨r,hrw,hr⟩ := bind_eq_ok.mp hr
  cases hr
  obtain ⟨l',hl',hr⟩ := bind_eq_ok.mp hW
  obtain ⟨r',hr',hr⟩ := bind_eq_ok.mp hr
  rw [wireAt_map (ofWire σ) hlw] at hl'
  rw [wireAt_map (ofWire σ) hrw] at hr'
  cases hl'
  cases hr'
  cases hr
  refine ⟨σ,inst,?_,rfl,?_,?_,fun herr => ?_⟩
  · simp only [Op.run,instanceGenerator]
    rw [wireAt_map (publicValue σ) hlw,wireAt_map (publicValue σ) hrw]
    rfl
  · refine h.aligned.keep (fun k _ => rfl) (h.scoped.step hC).1.allocated ?_ ?_ ?_ <;> split <;> rfl
  · exact (h.scoped.step hC).1.recorded
  · obtain ⟨hval,hold⟩ := firstError_of_check herr
    refine satisfied_addZero (h.satisfied hold) ?_
    have heq : σ l = σ r := not_not.mp hval
    rw [Operand.val_new,value_cons,value_cons,value_nil,add_zero,heq]
    exact CharTwo.add_self_eq_zero _

theorem step_constant {c : F}
    (h : Simulates layout derivedAlive privateAlive σ wires ir gen inst)
    (hC : Op.run constraintBuilder (wires,ir) (.constant c) = .ok (wires',ir'))
    (hW : Op.run (witnessGenerator layout all inputs) (wires.map (ofWire σ),gen) (.constant c) =
      .ok (outs,gen')) (hconst : ir'.constants.map Prod.fst <+: layout.constants) :
    Follows3 layout derivedAlive privateAlive all inputs' σ wires inst (.constant c) wires' ir' gen'
      outs := by
  obtain ⟨⟨w,mid⟩,ha,hr⟩ := bind_eq_ok.mp hC
  cases hr
  obtain ⟨⟨id,last⟩,hid,hlast⟩ := bind_eq_ok.mp ha
  cases hlast
  cases hW
  obtain ⟨hzero,hmul,hstatus,hcount,hgrown,hmem⟩ := constantId_keeps hid
  have hscoped := (h.scoped.step hC).1
  have hrec := hscoped.recorded
  have hget := ConstraintSystemIR.constant_getElem? hrec.fresh.wellFormed hmem
  have hval : σ ⟨.constant,id⟩ = c := by
    obtain ⟨rest,hrest⟩ := hconst
    refine h.aligned.fixes id c ?_
    rw [←hrest,getElem?_append_left (List.getElem?_eq_some_iff.mp hget).1,hget]
  refine ⟨σ,inst,?_,?_,?_,hrec,fun herr => ?_⟩
  · have hpub : publicValue σ ⟨.constant,id⟩ = some c := by
      rw [publicValue,hval]
      rfl
    rw [map_append,map_singleton,hpub]
    rfl
  · rw [map_append,map_singleton,ofWire,hval]
    rfl
  · exact h.aligned.keep hcount hscoped.allocated rfl rfl rfl
  · have hsat := h.satisfied herr
    rw [ConstraintSystemIR.Satisfied] at hsat ⊢
    rw [hzero,hmul]
    exact hsat

omit [Field F] [DecidableEq F] in
theorem binary_publicValue (op : F → F → F) (l r : ConstraintWire) :
    inst.binary layout op (publicValue σ l) (publicValue σ r) =
      if l.kind.isPublic && r.kind.isPublic then inst.allocDerived layout (op (σ l) (σ r))
      else .ok (none,inst) := by
  rw [publicValue,publicValue]
  cases hl : l.kind.isPublic with
  | false => rfl
  | true =>
    cases hr : r.kind.isPublic with
    | false => rfl
    | true => rfl

theorem step_binary (hl : Laid layout derivedAlive privateAlive)
    (h : Simulates layout derivedAlive privateAlive σ wires ir gen inst) {op : F → F → F}
    {l r w : ConstraintWire} {mid : ConstraintSystemIR F} {out : WitnessWire F}
    (hn : NewWire (outputKind (l.kind.isPublic && r.kind.isPublic)) ir w mid)
    (hgen : gen.allocOpValue layout ((ofWire σ l).isPublic && (ofWire σ r).isPublic)
      (op (ofWire σ l).val (ofWire σ r).val) = .ok (out,gen'))
    (hlmem : l ∈ wires) (hrmem : r ∈ wires) (hcount : ∀ k, ir'.count k = mid.count k)
    (hscoped : Scoped (wires ++ [w]) ir')
    (hsat : ∀ τ : ConstraintWire → F, mid.Satisfied τ → τ w = op (τ l) (τ r) → ir'.Satisfied τ) :
    ∃ inst', inst.binary layout op (publicValue σ l) (publicValue σ r) =
        .ok (publicValue (update σ w (op (σ l) (σ r))) w,inst') ∧
      out = ofWire (update σ w (op (σ l) (σ r))) w ∧
      w ∉ wires ∧
      Simulates layout derivedAlive privateAlive (update σ w (op (σ l) (σ r)))
        (wires ++ [w]) ir' gen' inst' := by
  obtain ⟨hout,inst',hinst,hal,herr⟩ := h.aligned.output hl hn hgen
  have hfresh := h.aligned.fresh hn
  rw [ofWire_isPublic,ofWire_isPublic] at hgen
  refine ⟨inst',?_,hout,hfresh,?_,hscoped.recorded,fun hfirst => ?_⟩
  · rw [binary_publicValue]
    exact hinst
  · exact hal.keep (fun k _ => hcount k) hscoped.allocated rfl rfl rfl
  · rw [herr] at hfirst
    have hl' : l ≠ w := fun heq => hfresh (heq ▸ hlmem)
    have hr' : r ≠ w := fun heq => hfresh (heq ▸ hrmem)
    refine hsat _ (satisfied_newWire h.recorded.fresh.wellFormed hn _ (h.satisfied hfirst)) ?_
    rw [update_self,update_of_ne hl',update_of_ne hr']

theorem step_add [CharP F 2] {i j : ℕ} (hl : Laid layout derivedAlive privateAlive)
    (h : Simulates layout derivedAlive privateAlive σ wires ir gen inst)
    (hC : Op.run constraintBuilder (wires,ir) (.add i j : Op F) = .ok (wires',ir'))
    (hW : Op.run (witnessGenerator layout all inputs) (wires.map (ofWire σ),gen) (.add i j) =
      .ok (outs,gen')) :
    Follows3 layout derivedAlive privateAlive all inputs' σ wires inst (.add i j) wires' ir' gen'
      outs := by
  obtain ⟨l,hlw,hr⟩ := bind_eq_ok.mp hC
  obtain ⟨r,hrw,hr⟩ := bind_eq_ok.mp hr
  obtain ⟨⟨w,last⟩,hadd,hr⟩ := bind_eq_ok.mp hr
  cases hr
  obtain ⟨l',hl',hw₁⟩ := bind_eq_ok.mp hW
  obtain ⟨r',hr',hw₂⟩ := bind_eq_ok.mp hw₁
  obtain ⟨⟨out,gen₁⟩,hgen,hw₃⟩ := bind_eq_ok.mp hw₂
  rw [wireAt_map (ofWire σ) hlw] at hl'
  rw [wireAt_map (ofWire σ) hrw] at hr'
  cases hl'
  cases hr'
  cases hw₃
  have hlmem : l ∈ wires := mem_of_getElem? (wireAt_eq_ok.mp hlw)
  have hrmem : r ∈ wires := mem_of_getElem? (wireAt_eq_ok.mp hrw)
  obtain ⟨mid,hn,hir⟩ := add_eq_ok hadd
  have hcount : ∀ k, ir'.count k = mid.count k := by
    intro k
    rw [hir]
    split <;> rfl
  have hsat : ∀ τ : ConstraintWire → F, mid.Satisfied τ → τ w = τ l + τ r → ir'.Satisfied τ := by
    intro τ hmid hval
    rw [hir]
    split
    · exact hmid
    · refine satisfied_addZero hmid ?_
      rw [Operand.val_new,value_cons,value_cons,value_cons,value_nil,add_zero,hval,←add_assoc]
      exact CharTwo.add_self_eq_zero _
  obtain ⟨inst',hinst,hout,hfresh,hsim⟩ := step_binary hl h hn hgen hlmem hrmem hcount
    (h.scoped.step hC).1 hsat
  refine ⟨update σ w (σ l + σ r),inst',?_,?_,hsim⟩
  · simp only [Op.run,instanceGenerator]
    rw [wireAt_map (publicValue σ) hlw,wireAt_map (publicValue σ) hrw,ok_bind,ok_bind,hinst,ok_bind,
      map_append,map_publicValue_update hfresh]
    rfl
  · rw [map_append,map_ofWire_update hfresh,map_singleton,hout]

theorem step_mul {i j : ℕ} (hl : Laid layout derivedAlive privateAlive)
    (h : Simulates layout derivedAlive privateAlive σ wires ir gen inst)
    (hC : Op.run constraintBuilder (wires,ir) (.mul i j : Op F) = .ok (wires',ir'))
    (hW : Op.run (witnessGenerator layout all inputs) (wires.map (ofWire σ),gen) (.mul i j) =
      .ok (outs,gen')) :
    Follows3 layout derivedAlive privateAlive all inputs' σ wires inst (.mul i j) wires' ir' gen'
      outs := by
  obtain ⟨l,hlw,hr⟩ := bind_eq_ok.mp hC
  obtain ⟨r,hrw,hr⟩ := bind_eq_ok.mp hr
  obtain ⟨⟨w,last⟩,hmul,hr⟩ := bind_eq_ok.mp hr
  cases hr
  obtain ⟨l',hl',hw₁⟩ := bind_eq_ok.mp hW
  obtain ⟨r',hr',hw₂⟩ := bind_eq_ok.mp hw₁
  obtain ⟨⟨out,gen₁⟩,hgen,hw₃⟩ := bind_eq_ok.mp hw₂
  rw [wireAt_map (ofWire σ) hlw] at hl'
  rw [wireAt_map (ofWire σ) hrw] at hr'
  cases hl'
  cases hr'
  cases hw₃
  have hlmem : l ∈ wires := mem_of_getElem? (wireAt_eq_ok.mp hlw)
  have hrmem : r ∈ wires := mem_of_getElem? (wireAt_eq_ok.mp hrw)
  obtain ⟨mid,hn,hir⟩ := mul_eq_ok hmul
  have hcount : ∀ k, ir'.count k = mid.count k := by
    intro k
    rw [hir]
    split <;> rfl
  have hsat : ∀ τ : ConstraintWire → F, mid.Satisfied τ → τ w = τ l * τ r → ir'.Satisfied τ := by
    intro τ hmid hval
    rw [hir]
    split
    · exact hmid
    · refine satisfied_addMul hmid ?_
      rw [MulConstraint.Holds,Operand.val_single,Operand.val_single,Operand.val_single,hval]
  obtain ⟨inst',hinst,hout,hfresh,hsim⟩ := step_binary hl h hn hgen hlmem hrmem hcount
    (h.scoped.step hC).1 hsat
  refine ⟨update σ w (σ l * σ r),inst',?_,?_,hsim⟩
  · simp only [Op.run,instanceGenerator]
    rw [wireAt_map (publicValue σ) hlw,wireAt_map (publicValue σ) hrw,ok_bind,ok_bind,hinst,ok_bind,
      map_append,map_publicValue_update hfresh]
    rfl
  · rw [map_append,map_ofWire_update hfresh,map_singleton,hout]

omit [Field F] [DecidableEq F] in
theorem all_publicValue (ws : List ConstraintWire) :
    (ws.map (publicValue σ)).all Option.isSome = ws.all fun wire => wire.kind.isPublic := by
  rw [all_map]
  congr 1
  funext wire
  rw [comp_apply,publicValue]
  cases wire.kind.isPublic <;> rfl

omit [Field F] [DecidableEq F] in
theorem filterMap_publicValue {ws : List ConstraintWire}
    (h : (ws.all fun wire => wire.kind.isPublic) = true) :
    (ws.map (publicValue σ)).filterMap id = ws.map σ := by
  rw [filterMap_map,←filterMap_eq_map]
  refine filterMap_congr fun wire hw => ?_
  have hpub := all_eq_true.mp h wire hw
  simp only [comp_apply,id,publicValue]
  rw [if_pos hpub]

theorem step_hint {positions : List ℕ} {outLen : ℕ} {f : List F → List F}
    (hl : Laid layout derivedAlive privateAlive)
    (h : Simulates layout derivedAlive privateAlive σ wires ir gen inst)
    (hC : Op.run constraintBuilder (wires,ir) (.hint positions outLen f) = .ok (wires',ir'))
    (hW : Op.run (witnessGenerator layout all inputs) (wires.map (ofWire σ),gen)
      (.hint positions outLen f) = .ok (outs,gen')) :
    Follows3 layout derivedAlive privateAlive all inputs' σ wires inst (.hint positions outLen f)
      wires' ir' gen' outs := by
  obtain ⟨ws,hws,hr⟩ := bind_eq_ok.mp hC
  obtain ⟨⟨news,last⟩,halloc,hr⟩ := bind_eq_ok.mp hr
  cases hr
  obtain ⟨ws',hws',hw₁⟩ := bind_eq_ok.mp hW
  obtain ⟨⟨newOuts,gen₁⟩,hgen,hw₂⟩ := bind_eq_ok.mp hw₁
  rw [mapM_wireAt_map (ofWire σ) hws] at hws'
  cases hws'
  cases hw₂
  have hpub : (ws.map (ofWire σ)).all WitnessWire.isPublic = ws.all fun wire => wire.kind.isPublic := by
    rw [all_map]
    rfl
  have hvals : (ws.map (ofWire σ)).map WitnessWire.val = ws.map σ := by
    rw [map_map]
    rfl
  have hgen' : (if (f (ws.map σ)).length = outLen then
      gen.allocOpValues layout (ws.all fun wire => wire.kind.isPublic) (f (ws.map σ))
      else .error .outputCount) = .ok (newOuts,gen') := by
    rw [←hpub,←hvals]
    exact hgen
  by_cases hlen : (f (ws.map σ)).length = outLen
  swap
  · rw [if_neg hlen] at hgen'
    cases hgen'
  rw [if_pos hlen] at hgen'
  have halloc' : ConstraintBuilder.allocOutputs (ws.all fun wire => wire.kind.isPublic)
      (f (ws.map σ)).length ir = .ok (news,ir') := by
    rw [hlen]
    exact halloc
  obtain ⟨σ',inst',hkeep,hnew,hinst,hal,herr,hzero,hmul⟩ := h.aligned.outputs hl halloc' hgen'
  have hsame : ∀ wire ∈ wires, σ' wire = σ wire :=
    fun wire hw => hkeep wire (h.aligned.allocated wire hw)
  have hof : wires.map (ofWire σ') = wires.map (ofWire σ) := by
    refine map_congr_left fun wire hw => ?_
    rw [ofWire,ofWire,hsame wire hw]
  have hpv : wires.map (publicValue σ') = wires.map (publicValue σ) := by
    refine map_congr_left fun wire hw => ?_
    rw [publicValue,publicValue,hsame wire hw]
  refine ⟨σ',inst',?_,?_,hal,?_,fun hfirst => ?_⟩
  · have hhint : inst.hint layout (ws.map (publicValue σ)) outLen f =
        .ok (news.map (publicValue σ'),inst') := by
      rw [InstanceGenerator.hint,all_publicValue]
      cases hall : ws.all fun wire => wire.kind.isPublic with
      | true =>
        rw [hall,if_pos rfl] at hinst
        rw [if_pos rfl,filterMap_publicValue hall]
        simp only
        rw [if_pos hlen,hinst]
      | false =>
        rw [hall,if_neg (by decide),hlen] at hinst
        rw [if_neg (by decide)]
        exact hinst
    simp only [Op.run,instanceGenerator]
    rw [mapM_wireAt_map (publicValue σ) hws,ok_bind,hhint,ok_bind,map_append,hpv]
    rfl
  · rw [map_append,hof,hnew]
  · exact (h.scoped.step hC).1.recorded
  · rw [herr] at hfirst
    exact satisfied_of_keeps h.recorded.fresh.wellFormed hkeep hzero hmul (h.satisfied hfirst)

theorem step_follows [CharP F 2] {op : Op F} (hl : Laid layout derivedAlive privateAlive)
    (hin : ∀ id, inputs' ⟨.inOut,id⟩ = inputs ⟨.inOut,id⟩)
    (h : Simulates layout derivedAlive privateAlive σ wires ir gen inst)
    (hC : Op.run constraintBuilder (wires,ir) op = .ok (wires',ir'))
    (hW : Op.run (witnessGenerator layout all inputs) (wires.map (ofWire σ),gen) op =
      .ok (outs,gen')) (hall : wires' <+: all)
    (hconst : ir'.constants.map Prod.fst <+: layout.constants) :
    Follows3 layout derivedAlive privateAlive all inputs' σ wires inst op wires' ir' gen' outs := by
  cases op with
  | inout => exact step_inout hl hin h hC hW hall
  | precommit => exact step_precommit hl h hC hW hall
  | assertZero i => exact step_assertZero h hC hW
  | assertEq i j => exact step_assertEq h hC hW
  | constant c => exact step_constant h hC hW hconst
  | add i j => exact step_add hl h hC hW
  | mul i j => exact step_mul hl h hC hW
  | hint positions outLen f => exact step_hint hl h hC hW

end Step

end Simulation

end Binius64.Spartan
