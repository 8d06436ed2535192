import Binius64.Bytecode
import Binius64.ChipComposition
import Binius64.ConstantPropagation

/-!
# Building circuits with chips

A builder registers chips, records calls of them and makes gadgets chips of the circuit it builds.
-/

namespace Binius64.ChipBuilder

open MachineWord ValueVector CheckedRun ConstraintSystem ChipSystem WireConstraints EvalForm GateGraph
open List
  ScratchAlloc RegisterLayout Lowering ConstantPropagation ChipComposition
open Function (update update_of_ne update_self)

def place (segment : ValueSegment) : ℕ → List Wire → (Wire → ValueIndex) → Checked (Wire → ValueIndex)
  | _, [], mapping => return mapping
  | i, w :: rest, mapping => do
    let index ← ValueIndex.new segment i
    place segment (i + 1) rest (update mapping w index)

def placeScratch (slot : Slots) : List Wire → (Wire → ValueIndex) → Checked (Wire → ValueIndex)
  | [], mapping => return mapping
  | w :: rest, mapping => do
    let index ← ValueIndex.new .scratch ((slot w).getD 0)
    placeScratch slot rest (update mapping w index)

def intoAssignment (graph : Graph) (scratch : EntitySet) (alloc : Allocation) : Checked (Wire → ValueIndex) := do
  let unmapped ← ValueIndex.new .scratch 0
  let mapping ← place .constant 0 (constants graph) fun _ => unmapped
  let mapping ← place .inOut 0 (inouts graph) mapping
  let mapping ← place .priv 0 (witnesses graph ++ internals graph scratch) mapping
  placeScratch alloc.slot ((wiresOf graph isCreated).filter scratch.contains) mapping

section Assignment

variable {segment : ValueSegment} {mapping mapping' : Wire → ValueIndex}

theorem place_ok {i : ℕ} {ws : List Wire} (h : place segment i ws mapping = .ok mapping') :
    (∀ w ∉ ws, mapping' w = mapping w) ∧ (ws.Nodup → ∀ (p : ℕ) (w : Wire), ws[p]? = some w →
      (mapping' w).segment = segment ∧ (mapping' w).index = i + p) := by
  induction ws generalizing i mapping with
  | nil =>
    cases h
    exact ⟨fun _ _ => rfl,nofun⟩
  | cons v rest ih =>
    obtain ⟨index,hindex,hrest⟩ := bind_eq_ok.mp h
    obtain ⟨hother,hplaced⟩ := ih hrest
    have hat : index.segment = segment ∧ index.index = i := by
      rw [ValueIndex.new] at hindex
      split at hindex
      · cases hindex
        exact ⟨rfl,rfl⟩
      · cases hindex
    refine ⟨fun w hw => ?_,fun hnodup p w hp => ?_⟩
    · rw [mem_cons,not_or] at hw
      rw [hother w hw.2,update_of_ne hw.1]
    · obtain ⟨hnew,hnodup⟩ := nodup_cons.mp hnodup
      cases p with
      | zero =>
        cases hp
        rw [hother v hnew,update_self]
        exact hat
      | succ p =>
        obtain ⟨hsegment,hpos⟩ := hplaced hnodup p w hp
        exact ⟨hsegment,hpos.trans (by omega)⟩

theorem placeScratch_of_notMem {slot : Slots} {ws : List Wire} (h : placeScratch slot ws mapping = .ok mapping')
    {w : Wire} (hw : w ∉ ws) : mapping' w = mapping w := by
  induction ws generalizing mapping with
  | nil =>
    cases h
    rfl
  | cons v rest ih =>
    obtain ⟨index,-,hrest⟩ := bind_eq_ok.mp h
    rw [mem_cons,not_or] at hw
    rw [ih hrest hw.2,update_of_ne hw.1]

theorem intoAssignment_inout {graph : Graph} {scratch : EntitySet} {alloc : Allocation}
    (h : intoAssignment graph scratch alloc = .ok mapping) (p : ℕ) (w : Wire)
    (hw : (inouts graph)[p]? = some w) : (mapping w).segment = .inOut ∧ (mapping w).index = p := by
  obtain ⟨unmapped,-,h⟩ := bind_eq_ok.mp h
  obtain ⟨consts,-,h⟩ := bind_eq_ok.mp h
  obtain ⟨inouts',hinouts,h⟩ := bind_eq_ok.mp h
  obtain ⟨privs,hprivs,hscratch⟩ := bind_eq_ok.mp h
  have hmem := mem_of_getElem? hw
  have hapart : ∀ kinds, Excludes (· = .inOut) kinds → w ∉ wiresOf graph kinds := fun kinds hkinds =>
    disjoint_wiresOf hkinds hmem
  have hpriv : w ∉ witnesses graph ++ internals graph scratch := by
    refine not_mem_append (hapart _ fun kind => ?_) fun hin => hapart isCreated (fun kind => ?_)
      (mem_filter.mp hin).1
    · cases kind <;> rfl
    · cases kind <;> rfl
  have hcreated : w ∉ (wiresOf graph isCreated).filter scratch.contains := fun hin =>
    hapart isCreated (fun kind => by cases kind <;> rfl) (mem_filter.mp hin).1
  rw [placeScratch_of_notMem hscratch hcreated,(place_ok hprivs).1 w hpriv]
  obtain ⟨hsegment,hindex⟩ := (place_ok hinouts).2 (nodup_wiresOf graph _) p w hw
  exact ⟨hsegment,hindex.trans (Nat.zero_add p)⟩

end Assignment

/-- A call of a chip, to be resolved when the circuit is built. -/
structure PendingCall where
  chip : ℕ
  inout : List Wire

structure RegisteredGadget where
  chip : ℕ
  /-- Where each of its inout words sits in the gadget's interface. -/
  inoutOrder : List ℕ

/-- Which compiler passes run. -/
structure Options where
  enableGateFusion : Bool
  enableConstantPropagation : Bool
  enableCommonSubexpressionElimination : Bool
  enableDeadCodeElimination : Bool
  enableAlgebraicFolding : Bool
  /-- Share scratch slots between values that are not alive together. -/
  enableScratchPooling : Bool
  /-- Forward past the gates a zero operand turns into the identity. -/
  enableZeroPropagation : Bool

/-- The passes that run unless others are asked for. -/
def Options.default : Options := ⟨true,false,true,true,true,true,true⟩

structure Shared where
  graph : Graph
  opts : Options
  forceCommitted : EntitySet
  chips : List EmbeddedCircuit
  chipCalls : List PendingCall
  chipGadgets : String × List ℕ → Option RegisteredGadget

/-- A builder with nothing in it, for some passes. -/
def Shared.withOpts (opts : Options) : Shared := ⟨.new,opts,[],[],[],fun _ => none⟩

/-- A builder with nothing in it. -/
def Shared.new : Shared := .withOpts .default

structure ChipGadget where
  name : String
  hint : HintId
  shape : List ℕ → ℕ × ℕ
  build : PathSpec → List ℕ → List Wire → Shared → Checked (List Wire × Shared)

/-- What the compiler passes leave. -/
structure Lowered where
  graph : Graph
  scratch : EntitySet
  alloc : Allocation
  constraints : ConstraintBuilder

/-- The compiler passes over the builder's state and the calls it makes. -/
abbrev Passes := Shared → List PendingCall → Checked (Except AlwaysFailingGate Lowered)

/-- The constraint system over the words of the wires, without the terms that read a zero constant. -/
def Lowered.system (lowered : Lowered) (mapping : Wire → ValueIndex) : System :=
  let l := layout lowered.graph lowered.scratch lowered.alloc
  let words := (constants lowered.graph).map fun w => (lowered.graph.constOf w).getD 0
  let constraints := (build lowered.constraints mapping).mapOperands (retainNonzero words)
  ⟨words,l.nInout,l.nPrivate,constraints.zero,constraints.and,constraints.imul,constraints.bmul⟩

/-- Compile the builder's state into a circuit. -/
def compile (passes : Passes) (shared : Shared) (calls : List PendingCall) :
    Checked (Except AlwaysFailingGate Circuit) := do
  match ← passes shared calls with
  | .error failing => return .error failing
  | .ok lowered =>
    match hmapping : intoAssignment lowered.graph lowered.scratch lowered.alloc with
    | .error panic => throw panic
    | .ok mapping =>
      return .ok ⟨lowered.system mapping,layout lowered.graph lowered.scratch lowered.alloc,mapping,
        inouts lowered.graph,rfl,rfl,intoAssignment_inout hmapping⟩

/-- Register a system's main circuit and its chips, the calls within it renumbered. -/
def addChip (shared : Shared) (chip : CircuitM4) : ℕ × Shared :=
  let chipId := shared.chips.length
  let offset := chipId + 1
  (chipId,{shared with chips :=
    shared.chips ++ (chip.main :: chip.chips.map Prod.fst).map (EmbeddedCircuit.shiftCalls offset)})

def callChip (shared : Shared) (chip : ℕ) (inout : List Wire) : Checked Shared :=
  match shared.chips[chip]? with
  | none => throw .chipOutOfRange
  | some callee =>
    if inout.length = callee.circuit.inout.length then
      return {shared with chipCalls := shared.chipCalls ++ [⟨chip,inout⟩]}
    else throw .builderAssertion

/-- Emit a hint gate with fresh outputs. -/
def callHint (gadget : ChipGadget) (path : PathSpec) (dimensions : List ℕ) (inputs : List Wire)
    (shared : Shared) : Checked (List Wire × Shared) :=
  let (nIn,nOut) := gadget.shape dimensions
  if nIn < Bytecode.u32Bound ∧ nOut < Bytecode.u32Bound ∧ dimensions.length < Bytecode.u32Bound ∧
      (∀ dim ∈ dimensions, dim < Bytecode.u32Bound) ∧ inputs.length = nIn then
    let (graph,outputs) := shared.graph.addWires .internal nOut
    return (outputs,{shared with graph := graph.emitHintGate path gadget.hint dimensions inputs outputs})
  else throw .builderAssertion

def entry (interface : List Wire) (k : ℕ) : Checked Wire :=
  match interface[k]? with
  | some w => return w
  | none => throw .builderAssertion

/-- Emit a gadget, as a call to its chip where it has one and as its gates otherwise. -/
def buildGadget (gadget : ChipGadget) (path : PathSpec) (dimensions : List ℕ) (inputs : List Wire)
    (shared : Shared) : Checked (List Wire × Shared) := do
  let (nIn,nOut) := gadget.shape dimensions
  if inputs.length ≠ nIn then throw .builderAssertion
  let (outputs,shared) ← match shared.chipGadgets (gadget.name,dimensions) with
    | some registered => do
      let (outputs,shared) ← callHint gadget path dimensions inputs shared
      let inout ← registered.inoutOrder.mapM (entry (inputs ++ outputs))
      let shared ← callChip shared registered.chip inout
      pure (outputs,shared)
    | none => gadget.build path dimensions inputs shared
  if outputs.length ≠ nOut then throw .builderAssertion
  return (outputs,shared)

def insertWire (set : EntitySet) (w : Wire) : EntitySet :=
  (set ++ replicate (w + 1 - set.length) false).set w true

/-- Promote a gate-created wire to a public output, and keep it as it is. -/
def markInout (shared : Shared) (w : Wire) : Checked Shared :=
  match shared.graph.wires[w]? with
  | some .internal => return {shared with
      graph := {shared.graph with wires := shared.graph.wires.set w .inOut}
      forceCommitted := insertWire shared.forceCommitted w}
  | _ => throw .builderAssertion

def tryBuildM4 (passes : Passes) (shared : Shared) : Checked (Except AlwaysFailingGate CircuitM4) := do
  match ← compile passes {shared with chips := [], chipCalls := []} shared.chipCalls with
  | .error failing => return .error failing
  | .ok circuit =>
    let calls := shared.chipCalls.map fun call =>
      ⟨call.chip,0,call.inout.map fun w => [ShiftedValueIndex.plain (circuit.witnessIndex w)]⟩
    let m ← CircuitM4.recomputeInstances ⟨⟨circuit,calls⟩,shared.chips.map fun chip => (chip,0)⟩
    return .ok m

def buildM4 (passes : Passes) (shared : Shared) : Checked CircuitM4 := do
  match ← tryBuildM4 passes shared with
  | .error _ => throw .builderAssertion
  | .ok m => return m

def position (interface : List Wire) : Wire → Option ℕ :=
  interface.zipIdx.foldl (fun position (p : Wire × ℕ) => update position p.1 (some p.2)) fun _ => none

/-- A gadget as a system of its own, with its inputs and its outputs. -/
def chipBody (passes : Passes) (gadget : ChipGadget) (dimensions : List ℕ) :
    Checked (CircuitM4 × List Wire × List Wire) := do
  let (graph,inputs) := Graph.new.addWires .inOut (gadget.shape dimensions).1
  let (outputs,body) ← buildGadget gadget 0 dimensions inputs {Shared.new with graph}
  let body ← outputs.foldlM markInout body
  let built ← buildM4 passes body
  return (built,inputs,outputs)

def registerChip (passes : Passes) (gadget : ChipGadget) (dimensions : List ℕ) (shared : Shared) :
    Checked Shared := do
  let (built,inputs,outputs) ← chipBody passes gadget dimensions
  let interface := inputs ++ outputs
  let inout := built.main.circuit.inout
  if inout.length ≠ interface.length then throw .builderAssertion
  let inoutOrder ← inout.mapM fun w => match position interface w with
    | some k => return k
    | none => throw .builderAssertion
  let (chip,shared) := addChip shared built
  let key := (gadget.name,dimensions)
  if (shared.chipGadgets key).isSome then throw .builderAssertion
  return {shared with chipGadgets := update shared.chipGadgets key (some ⟨chip,inoutOrder⟩)}

theorem getElem?_of_extends {A : Type} {xs ys : List A} (h : xs <+: ys) {i : ℕ} {x : A} (hx : xs[i]? = some x) :
    ys[i]? = some x := by
  obtain ⟨behind,rfl⟩ := h
  exact (getElem?_append_left (List.getElem?_eq_some_iff.mp hx).1).trans hx

section Flattening

variable {shared : Shared} {m : CircuitM4}

theorem addChip_main (shared : Shared) (m : CircuitM4) :
    (addChip shared m).2.chips[shared.chips.length]? = some (m.main.shiftCalls (shared.chips.length + 1)) := by
  rw [addChip]
  dsimp only
  rw [getElem?_append_right (Nat.le_refl _),Nat.sub_self]
  rfl

theorem addChip_nested {i : ℕ} {chip : EmbeddedCircuit} (h : m.circuits[i]? = some chip) :
    (addChip shared m).2.chips[i + (shared.chips.length + 1)]? =
      some (chip.shiftCalls (shared.chips.length + 1)) := by
  have hat : i + (shared.chips.length + 1) - shared.chips.length = i + 1 := by omega
  rw [addChip]
  dsimp only
  rw [getElem?_append_right (by omega),hat,map_cons,getElem?_cons_succ,getElem?_map]
  exact congrArg (Option.map _) h

theorem addChip_extends (shared : Shared) (m : CircuitM4) : shared.chips <+: (addChip shared m).2.chips :=
  prefix_append _ _

theorem addChip_length (shared : Shared) (m : CircuitM4) :
    (addChip shared m).2.chips.length = shared.chips.length + 1 + m.circuits.length := by
  simp only [addChip,length_append,length_map,length_cons,CircuitM4.circuits]
  omega

theorem addChip_cases {i : ℕ} {chip : EmbeddedCircuit} (h : (addChip shared m).2.chips[i]? = some chip) :
    shared.chips[i]? = some chip ∨ ∃ e, chip = e.shiftCalls (shared.chips.length + 1) ∧
      (i = shared.chips.length ∧ e = m.main ∨
        ∃ j, i = j + (shared.chips.length + 1) ∧ m.circuits[j]? = some e) := by
  rcases Nat.lt_trichotomy i shared.chips.length with hlt | rfl | hlt
  · exact .inl ((getElem?_append_left hlt).symm.trans h)
  · rw [addChip_main,Option.some.injEq] at h
    exact .inr ⟨m.main,h.symm,.inl ⟨rfl,rfl⟩⟩
  · obtain ⟨j,rfl⟩ : ∃ j, i = j + (shared.chips.length + 1) := ⟨i - (shared.chips.length + 1),by omega⟩
    have hj : j < m.circuits.length := by
      have hi := (List.getElem?_eq_some_iff.mp h).1
      rw [addChip_length] at hi
      omega
    have hnested := @addChip_nested shared m j _ (getElem?_eq_getElem hj)
    rw [h,Option.some.injEq] at hnested
    exact .inr ⟨m.circuits[j],hnested,.inr ⟨j,rfl,getElem?_eq_getElem hj⟩⟩

theorem addChip_topological (h : Topological shared.chips) (hm : m.Ordered) :
    Topological (addChip shared m).2.chips := by
  intro i chip hchip
  rw [Closed,addChip_length]
  rcases addChip_cases hchip with hold | ⟨e,rfl,hnew⟩
  · obtain ⟨hclosed,hlater⟩ := h i chip hold
    exact ⟨fun call hcall => (hclosed call hcall).trans_le (by omega),hlater⟩
  · have hcalls : ∀ call ∈ (e.shiftCalls (shared.chips.length + 1)).chipCalls,
        ∃ old ∈ e.chipCalls, call.chipId = old.chipId + (shared.chips.length + 1) := by
      intro call hcall
      obtain ⟨old,hold,rfl⟩ := mem_map.mp hcall
      exact ⟨old,hold,rfl⟩
    have hclosed : Closed m.circuits e := by
      rcases hnew with ⟨-,rfl⟩ | ⟨j,-,hj⟩
      · exact hm.main
      · exact (hm.chips j e hj).1
    refine ⟨fun call hcall => ?_,fun call hcall => ?_⟩
    · obtain ⟨old,hold,hid⟩ := hcalls call hcall
      have hlt := hclosed old hold
      omega
    · obtain ⟨old,hold,hid⟩ := hcalls call hcall
      rcases hnew with ⟨rfl,-⟩ | ⟨j,rfl,hj⟩
      · omega
      · have hlt := (hm.chips j e hj).2 old hold
        omega

structure Flattened (m : CircuitM4) (chipId : ℕ) (chips : List EmbeddedCircuit) : Prop where
  main : chips[chipId]? = some (m.main.shiftCalls (chipId + 1))
  /-- Its chips follow, and their calls name them where they are now. -/
  nested : ∀ (i : ℕ) (chip : EmbeddedCircuit), m.circuits[i]? = some chip →
    chips[i + (chipId + 1)]? = some (chip.shiftCalls (chipId + 1))
  /-- Every circuit of the system unfolds to what it did by itself. -/
  unfolds : ∀ e : EmbeddedCircuit, Closed m.circuits e → ∀ depth,
    callTree chips depth (e.shiftCalls (chipId + 1)) = callTree m.circuits depth e

theorem flattened_addChip (shared : Shared) (hm : m.Ordered) :
    Flattened m (addChip shared m).1 (addChip shared m).2.chips where
  main := addChip_main shared m
  nested _ _ h := addChip_nested h
  unfolds _ he depth := callTree_shiftCalls (fun _ _ h => addChip_nested h)
    hm.chips.closed depth he

theorem Flattened.of_extends {chipId : ℕ} {chips more : List EmbeddedCircuit} (h : Flattened m chipId chips)
    (hm : m.Ordered) (hextends : chips <+: more) : Flattened m chipId more where
  main := getElem?_of_extends hextends h.main
  nested i chip hi := getElem?_of_extends hextends (h.nested i chip hi)
  unfolds _ he depth := callTree_shiftCalls (fun i chip hi => getElem?_of_extends hextends (h.nested i chip hi))
    hm.chips.closed depth he

end Flattening

/-- What a builder can be brought to: the graph and the kept wires may change in any way, chips are
registered and called, and gadgets are emitted. -/
inductive Runs (passes : Passes) : Shared → Shared → Prop
  | refl (s : Shared) : Runs passes s s
  /-- Wires and gates are added, wires promoted or kept. -/
  | gates {s s' : Shared} (h : Runs passes s s') (graph : Graph) (forceCommitted : EntitySet) :
    Runs passes s {s' with graph,forceCommitted}
  /-- A system in order is registered. -/
  | addChip {s s' : Shared} (h : Runs passes s s') (m : CircuitM4) (hm : m.Ordered) :
    Runs passes s (addChip s' m).2
  | callChip {s s' s'' : Shared} (h : Runs passes s s') {chip : ℕ} {inout : List Wire}
    (hcall : callChip s' chip inout = .ok s'') : Runs passes s s''
  | registerChip {s s' s'' : Shared} (h : Runs passes s s') {gadget : ChipGadget} {dimensions : List ℕ}
    (hcode : ∀ path dimensions inputs body outputs body',
      gadget.build path dimensions inputs body = .ok (outputs,body') → Runs passes body body')
    (hregister : registerChip passes gadget dimensions s' = .ok s'') : Runs passes s s''
  | buildGadget {s s' s'' : Shared} (h : Runs passes s s') {gadget : ChipGadget} {path : PathSpec}
    {dimensions : List ℕ} {inputs outputs : List Wire}
    (hcode : ∀ path dimensions inputs body outputs body',
      gadget.build path dimensions inputs body = .ok (outputs,body') → Runs passes body body')
    (hbuild : buildGadget gadget path dimensions inputs s' = .ok (outputs,s'')) : Runs passes s s''

/-- The system that serves a gadget, and the interface its words are bound by. -/
structure Serving (passes : Passes) (key : String × List ℕ) (chips : List EmbeddedCircuit)
    (registered : RegisteredGadget) (built : CircuitM4) (interface : List Wire) : Prop where
  /-- It was built from a gadget of that name, whose inputs and outputs are the interface. -/
  body : ∃ gadget inputs outputs, gadget.name = key.1 ∧
    chipBody passes gadget key.2 = .ok (built,inputs,outputs) ∧ interface = inputs ++ outputs
  ordered : built.Ordered
  placed : Flattened built registered.chip chips
  perm : interface.Perm built.main.circuit.inout
  order : ∀ (i : ℕ) (w : Wire), built.main.circuit.inout[i]? = some w →
    ∃ k, registered.inoutOrder[i]? = some k ∧ interface[k]? = some w

/-- A builder whose chips are in order, whose calls pass as many words as the callee takes and whose
registry says what serves a gadget. -/
structure Sound (passes : Passes) (s : Shared) : Prop where
  topological : Topological s.chips
  calls : ∀ call ∈ s.chipCalls, ∃ callee, s.chips[call.chip]? = some callee ∧
    call.inout.length = callee.circuit.inout.length
  gadgets : ∀ key registered, s.chipGadgets key = some registered →
    ∃ built interface, Serving passes key s.chips registered built interface

structure Keeps (passes : Passes) (s s' : Shared) : Prop where
  chips : s.chips <+: s'.chips
  calls : s.chipCalls <+: s'.chipCalls
  gadgets : ∀ key registered, s.chipGadgets key = some registered → s'.chipGadgets key = some registered
  sound : Sound passes s → Sound passes s'

theorem Keeps.refl (passes : Passes) (s : Shared) : Keeps passes s s :=
  ⟨prefix_refl _,prefix_refl _,fun _ _ h => h,id⟩

theorem Keeps.trans {passes : Passes} {s s' s'' : Shared} (h : Keeps passes s s') (h' : Keeps passes s' s'') :
    Keeps passes s s'' :=
  ⟨h.chips.trans h'.chips,h.calls.trans h'.calls,fun key r hr => h'.gadgets key r (h.gadgets key r hr),
    fun hs => h'.sound (h.sound hs)⟩

theorem sound_withOpts (passes : Passes) (opts : Options) : Sound passes (.withOpts opts) := ⟨nofun,nofun,nofun⟩

theorem Serving.of_extends {passes : Passes} {key : String × List ℕ} {chips more : List EmbeddedCircuit}
    {registered : RegisteredGadget} {built : CircuitM4} {interface : List Wire}
    (h : Serving passes key chips registered built interface) (hextends : chips <+: more) :
    Serving passes key more registered built interface :=
  {h with placed := h.placed.of_extends h.ordered hextends}

section Steps

variable {passes : Passes} {s s' : Shared}

theorem keeps_gates (passes : Passes) (s : Shared) (graph : Graph) (forceCommitted : EntitySet) :
    Keeps passes s {s with graph,forceCommitted} :=
  ⟨prefix_refl _,prefix_refl _,fun _ _ h => h,fun hs => ⟨hs.topological,hs.calls,hs.gadgets⟩⟩

variable {m : CircuitM4} {gadget : ChipGadget} {path : PathSpec} {dimensions : List ℕ}
   {inputs outputs : List Wire}

theorem keeps_addChip (passes : Passes) (s : Shared) (hm : m.Ordered) :
    Keeps passes s (addChip s m).2 := by
  refine ⟨addChip_extends s m,prefix_refl _,fun _ _ h => h,fun hs => ⟨addChip_topological hs.topological hm,
    fun call hcall => ?_,fun key registered hkey => ?_⟩⟩
  · obtain ⟨callee,hcallee,hlength⟩ := hs.calls call hcall
    exact ⟨callee,getElem?_of_extends (addChip_extends s m) hcallee,hlength⟩
  · obtain ⟨built,interface,hserving⟩ := hs.gadgets key registered hkey
    exact ⟨built,interface,hserving.of_extends (addChip_extends s m)⟩

theorem callChip_ok {chip : ℕ} {inout : List Wire} (h : callChip s chip inout = .ok s') :
    ∃ callee, s.chips[chip]? = some callee ∧ inout.length = callee.circuit.inout.length ∧
      s' = {s with chipCalls := s.chipCalls ++ [⟨chip,inout⟩]} := by
  rw [callChip] at h
  split at h
  · cases h
  case h_2 callee hcallee =>
    split at h
    case isTrue hlength =>
      cases h
      exact ⟨callee,hcallee,hlength,rfl⟩
    case isFalse => cases h

theorem keeps_callChip {chip : ℕ} {inout : List Wire} (h : callChip s chip inout = .ok s') :
    Keeps passes s s' := by
  obtain ⟨callee,hcallee,hlength,rfl⟩ := callChip_ok h
  refine ⟨prefix_refl _,prefix_append _ _,fun _ _ h => h,fun hs => ⟨hs.topological,fun call hcall => ?_,
    hs.gadgets⟩⟩
  rcases mem_append.mp hcall with hold | hnew
  · exact hs.calls call hold
  · rw [mem_singleton.mp hnew]
    exact ⟨callee,hcallee,hlength⟩

theorem callHint_ok
    (h : callHint gadget path dimensions inputs s = .ok (outputs,s')) : ∃ graph, s' = {s with graph} := by
  rw [callHint] at h
  dsimp only at h
  split at h
  · cases h
    exact ⟨_,rfl⟩
  · cases h

theorem keeps_markInout {w : Wire} (h : markInout s w = .ok s') : Keeps passes s s' := by
  rw [markInout] at h
  split at h
  · cases h
    exact keeps_gates passes s _ _
  · cases h

theorem keeps_markInouts {ws : List Wire} (h : ws.foldlM markInout s = .ok s') : Keeps passes s s' := by
  induction ws generalizing s with
  | nil =>
    cases h
    exact .refl _ _
  | cons w ws ih =>
    rw [foldlM_cons] at h
    obtain ⟨next,hnext,hrest⟩ := bind_eq_ok.mp h
    exact (keeps_markInout hnext).trans (ih hrest)

theorem buildGadget_ok
    (h : buildGadget gadget path dimensions inputs s = .ok (outputs,s')) :
    (∃ registered mid inout, s.chipGadgets (gadget.name,dimensions) = some registered ∧
      callHint gadget path dimensions inputs s = .ok (outputs,mid) ∧
      registered.inoutOrder.mapM (entry (inputs ++ outputs)) = .ok inout ∧
      callChip mid registered.chip inout = .ok s') ∨
    s.chipGadgets (gadget.name,dimensions) = none ∧
      gadget.build path dimensions inputs s = .ok (outputs,s') := by
  have hcheck : ∀ {outputs' : List Wire} {mid : Shared},
      (do if outputs'.length ≠ (gadget.shape dimensions).2 then throw .builderAssertion
          return (outputs',mid) : Checked (List Wire × Shared)) = .ok (outputs,s') →
      outputs' = outputs ∧ mid = s' := by
    intro outputs' mid hchecked
    split at hchecked
    · cases hchecked
    · cases hchecked
      exact ⟨rfl,rfl⟩
  rw [buildGadget] at h
  dsimp only at h
  split at h
  · cases h
  split at h
  case h_1 registered hregistered =>
    obtain ⟨⟨hinted,mid⟩,hhint,hnext⟩ := bind_eq_ok.mp h
    obtain ⟨inout,hinout,hlast⟩ := bind_eq_ok.mp hnext
    obtain ⟨called,hcall,hrest⟩ := bind_eq_ok.mp hlast
    obtain ⟨rfl,rfl⟩ := hcheck hrest
    exact .inl ⟨registered,mid,inout,hregistered,hhint,hinout,hcall⟩
  case h_2 hnone =>
    obtain ⟨⟨built,mid⟩,hgates,hrest⟩ := bind_eq_ok.mp h
    obtain ⟨rfl,rfl⟩ := hcheck hrest
    exact .inr ⟨hnone,hgates⟩

theorem chipBody_ok {built : CircuitM4}
    (h : chipBody passes gadget dimensions = .ok (built,inputs,outputs)) :
    ∃ graph body marked, (graph,inputs) = Graph.new.addWires .inOut (gadget.shape dimensions).1 ∧
      gadget.build 0 dimensions inputs {Shared.new with graph} = .ok (outputs,body) ∧
      outputs.foldlM markInout body = .ok marked ∧ buildM4 passes marked = .ok built := by
  rw [chipBody] at h
  obtain ⟨⟨outputs',body⟩,hbuild,hnext⟩ := bind_eq_ok.mp h
  obtain ⟨marked,hmarked,hlast⟩ := bind_eq_ok.mp hnext
  obtain ⟨built',hbuilt,htriple⟩ := bind_eq_ok.mp hlast
  cases htriple
  rcases buildGadget_ok hbuild with ⟨registered,-,-,hregistered,-⟩ | ⟨-,hgates⟩
  · cases hregistered
  · exact ⟨_,body,marked,rfl,hgates,hmarked,hbuilt⟩

/-- What the built system has of the builder: its calls, of the words its wires got, and its chips. -/
structure BuiltOf (s : Shared) (m : CircuitM4) : Prop where
  main : m.main.bare.2 = s.chipCalls.map fun call =>
    (call.chip,call.inout.map fun w => [ShiftedValueIndex.plain (m.main.circuit.witnessIndex w)])
  chips : m.circuits.map EmbeddedCircuit.bare = s.chips.map EmbeddedCircuit.bare
  claimed : ∃ unclaimed : CircuitM4, unclaimed.recomputeInstances = .ok m

theorem circuits_inactive (main : EmbeddedCircuit) (chips : List EmbeddedCircuit) :
    CircuitM4.circuits ⟨main,chips.map fun chip => (chip,0)⟩ = chips := by
  rw [CircuitM4.circuits,map_map]
  exact map_id _

theorem tryBuildM4_ok (h : tryBuildM4 passes s = .ok (.ok m)) : BuiltOf s m := by
  obtain ⟨result,-,h⟩ := bind_eq_ok.mp h
  cases result with
  | error failing => cases h
  | ok circuit =>
    obtain ⟨m',hm,hpair⟩ := bind_eq_ok.mp h
    cases hpair
    obtain ⟨hmain,hchips⟩ := recomputeInstances_bare hm
    refine ⟨?_,?_,_,hm⟩
    · have hcircuit : m.main.circuit = circuit := congrArg Prod.fst hmain
      rw [hmain,hcircuit,EmbeddedCircuit.bare,map_map]
      rfl
    · rw [hchips,circuits_inactive]

theorem buildM4_ok (h : buildM4 passes s = .ok m) : tryBuildM4 passes s = .ok (.ok m) := by
  obtain ⟨result,hresult,h⟩ := bind_eq_ok.mp h
  cases result with
  | error failing => cases h
  | ok built =>
    cases h
    exact hresult

theorem BuiltOf.ordered (h : BuiltOf s m) (hs : Sound passes s) : m.Ordered := by
  have hcircuits := circuits_inactive m.main s.chips
  refine ordered_of_bare (m := ⟨m.main,s.chips.map fun chip => (chip,0)⟩) rfl (hcircuits.symm ▸ h.chips)
    ⟨fun call hcall => ?_,hcircuits.symm ▸ hs.topological⟩
  rw [hcircuits]
  have hbare : (call.chipId,call.inout) ∈ m.main.bare.2 :=
    mem_map_of_mem (f := fun call : ChipCall => (call.chipId,call.inout)) hcall
  rw [h.main] at hbare
  obtain ⟨pending,hpending,hsame⟩ := mem_map.mp hbare
  obtain ⟨callee,hcallee,-⟩ := hs.calls pending hpending
  have hchip : pending.chip = call.chipId := congrArg Prod.fst hsame
  exact hchip ▸ (List.getElem?_eq_some_iff.mp hcallee).1

theorem BuiltOf.chip (h : BuiltOf s m) {i : ℕ} {chip : EmbeddedCircuit}
    (hchip : s.chips[i]? = some chip) : ∃ chip', m.circuits[i]? = some chip' ∧ chip'.circuit = chip.circuit ∧
      ∀ depth, callTree m.circuits depth chip' = callTree s.chips depth chip := by
  have hat := congrArg (fun chips => chips[i]?) h.chips
  simp only [getElem?_map,hchip,Option.map_some] at hat
  obtain ⟨chip',hchip',hsame⟩ := Option.map_eq_some_iff.mp hat
  exact ⟨chip',hchip',congrArg Prod.fst hsame,fun depth => callTree_congr h.chips depth hsame⟩

theorem BuiltOf.call (h : BuiltOf s m) {n : ℕ} {pending : PendingCall}
    (hcall : s.chipCalls[n]? = some pending) : ∃ call, m.main.chipCalls[n]? = some call ∧
      call.chipId = pending.chip ∧ call.inout = pending.inout.map fun w =>
        [ShiftedValueIndex.plain (m.main.circuit.witnessIndex w)] := by
  have hat := congrArg (fun calls => calls[n]?) h.main
  simp only [EmbeddedCircuit.bare,getElem?_map,hcall,Option.map_some] at hat
  obtain ⟨call,hcall',hsame⟩ := Option.map_eq_some_iff.mp hat
  exact ⟨call,hcall',congrArg Prod.fst hsame,congrArg Prod.snd hsame⟩

theorem position_ok {interface : List Wire} {w : Wire} {k : ℕ} (h : position interface w = some k) :
    interface[k]? = some w := by
  have hfold : ∀ (entries : List (Wire × ℕ)) (found : Wire → Option ℕ),
      entries.foldl (fun position (p : Wire × ℕ) => update position p.1 (some p.2)) found w = some k →
        found w = some k ∨ (w,k) ∈ entries := by
    intro entries
    induction entries with
    | nil => exact fun found hfound => .inl hfound
    | cons p entries ih =>
      intro found hfound
      rcases ih (update found p.1 (some p.2)) hfound with hearlier | hlater
      · by_cases hw : w = p.1
        · subst hw
          rw [update_self,Option.some.injEq] at hearlier
          exact .inr (mem_cons.mpr (.inl (Prod.ext rfl hearlier.symm)))
        · exact .inl ((update_of_ne hw _ _).symm.trans hearlier)
      · exact .inr (mem_cons_of_mem _ hlater)
  rcases hfold _ _ h with hnone | hmem
  · cases hnone
  · exact mem_zipIdx_iff_getElem?.mp hmem

theorem registerChip_ok
    (h : registerChip passes gadget dimensions s = .ok s') : ∃ built inputs outputs inoutOrder,
      chipBody passes gadget dimensions = .ok (built,inputs,outputs) ∧
      built.main.circuit.inout.length = (inputs ++ outputs).length ∧
      (∀ (i : ℕ) (w : Wire), built.main.circuit.inout[i]? = some w →
        ∃ k, inoutOrder[i]? = some k ∧ (inputs ++ outputs)[k]? = some w) ∧
      s.chipGadgets (gadget.name,dimensions) = none ∧
      s' = {(addChip s built).2 with
        chipGadgets := update s.chipGadgets (gadget.name,dimensions) (some ⟨s.chips.length,inoutOrder⟩)} := by
  rw [registerChip] at h
  obtain ⟨⟨built,inputs,outputs⟩,hbody,h⟩ := bind_eq_ok.mp h
  dsimp only at h
  split at h
  · cases h
  case isFalse hlength =>
    obtain ⟨inoutOrder,horder,h⟩ := bind_eq_ok.mp h
    split at h
    · cases h
    case isFalse hprevious =>
      cases h
      refine ⟨built,inputs,outputs,inoutOrder,hbody,not_not.mp hlength,fun i w hw => ?_,
        Option.not_isSome_iff_eq_none.mp hprevious,rfl⟩
      obtain ⟨hi,rfl⟩ := List.getElem?_eq_some_iff.mp hw
      obtain ⟨k,hk,hat⟩ := (mapM_getElem horder).2 i hi
      split at hk
      case h_1 k' hposition =>
        cases hk
        exact ⟨k,hat,position_ok hposition⟩
      case h_2 => cases hk

theorem keeps_registerChip
    (hcode : ∀ path dimensions inputs body outputs body',
      gadget.build path dimensions inputs body = .ok (outputs,body') → Keeps passes body body')
    (h : registerChip passes gadget dimensions s = .ok s') : Keeps passes s s' := by
  obtain ⟨built,inputs,outputs,inoutOrder,hbody,hlength,horder,hnone,rfl⟩ := registerChip_ok h
  obtain ⟨graph,body,marked,-,hgates,hmarked,hbuilt⟩ := chipBody_ok hbody
  have hordered : built.Ordered := by
    have hsound := (keeps_markInouts hmarked).sound ((hcode _ _ _ _ _ _ hgates).sound
      ((keeps_gates passes .new graph []).sound (sound_withOpts passes _)))
    exact (tryBuildM4_ok (buildM4_ok hbuilt)).ordered hsound
  have hadd := keeps_addChip passes s hordered
  refine ⟨hadd.chips,hadd.calls,fun key registered hkey => ?_,fun hs => ?_⟩
  · have hne : key ≠ (gadget.name,dimensions) := fun heq => by
      rw [heq,hnone] at hkey
      cases hkey
    exact (update_of_ne hne _ _).trans hkey
  · have hsound := hadd.sound hs
    refine ⟨hsound.topological,hsound.calls,fun key registered hkey => ?_⟩
    by_cases heq : key = (gadget.name,dimensions)
    · subst heq
      dsimp only at hkey
      rw [update_self,Option.some.injEq] at hkey
      subst hkey
      refine ⟨built,inputs ++ outputs,⟨⟨gadget,inputs,outputs,rfl,hbody,rfl⟩,hordered,
        flattened_addChip s hordered,?_,horder⟩⟩
      -- no inout wire is twice there, and each is one of as many interface wires
      have hsubset : built.main.circuit.inout ⊆ inputs ++ outputs := fun w hw => by
        obtain ⟨i,hi⟩ := mem_iff_getElem?.mp hw
        obtain ⟨k,-,hk⟩ := horder i w hi
        exact mem_of_getElem? hk
      exact ((built.main.circuit.inout_nodup.subperm hsubset).perm_of_length_le hlength.ge).symm
    · exact hsound.gadgets key registered ((update_of_ne heq _ _).symm.trans hkey)

theorem keeps_buildGadget
    (hcode : ∀ path dimensions inputs body outputs body',
      gadget.build path dimensions inputs body = .ok (outputs,body') → Keeps passes body body')
    (h : buildGadget gadget path dimensions inputs s = .ok (outputs,s')) : Keeps passes s s' := by
  rcases buildGadget_ok h with ⟨registered,mid,inout,-,hhint,-,hcall⟩ | ⟨-,hgates⟩
  · obtain ⟨graph,rfl⟩ := callHint_ok hhint
    exact (keeps_gates passes s graph s.forceCommitted).trans (keeps_callChip hcall)
  · exact hcode _ _ _ _ _ _ hgates

theorem runs_keeps (h : Runs passes s s') : Keeps passes s s' := by
  induction h with
  | refl s => exact .refl _ _
  | gates _ graph forceCommitted ih => exact ih.trans (keeps_gates _ _ graph forceCommitted)
  | addChip _ m hm ih => exact ih.trans (keeps_addChip _ _ hm)
  | callChip _ hcall ih => exact ih.trans (keeps_callChip hcall)
  | registerChip _ _ hregister ih hcode => exact ih.trans (keeps_registerChip hcode hregister)
  | buildGadget _ _ hbuild ih hcode => exact ih.trans (keeps_buildGadget hcode hbuild)

end Steps

end Binius64.ChipBuilder
