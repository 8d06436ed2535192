import Binius64.ChipBuilder

/-!
# Gadgets served by chips

An emission of a registered gadget is a call of its chip.
-/

namespace Binius64.ChipCalls

open MachineWord ValueVector CheckedRun ConstraintSystem ChipSystem WireConstraints EvalForm
  ChipComposition ChipBuilder

/-- An inout segment holds, at the place of each inout wire of a circuit, the word of the wire that stands
for it in an interface. -/
def Binds (callee : Circuit) (interface wires : List Wire) (holds : Wire → Word → Prop)
    (segment : List Word) : Prop :=
  ∀ (i : ℕ) (w : Wire), callee.inout[i]? = some w → ∃ (k : ℕ) (v : Wire) (word : Word), interface[k]? = some w ∧
    wires[k]? = some v ∧ holds v word ∧ segment[i]? = some word

structure Delivers (caller : Circuit) (call : ChipCall) (callee : Circuit) (interface wires : List Wire) :
    Prop where
  /-- Witness generation fills them so from the values of the caller. -/
  filled : ∀ (values : WordSource) (empty : ValueVec), Fills callee.layout empty →
    ∃ held, fillInout callee (evalCall values call) empty = .ok held ∧
      Binds callee interface wires (fun v word => word = values (caller.witnessIndex v)) held.inout
  /-- In a system that holds the caller, with the call wherever its chips now stand, every accepted witness
  has them so, at every active instance of the caller. -/
  accepted : ∀ (m : CircuitM4) (main : ValueVec) (instances : ChipInstances),
    m.toConstraintSystem.verify main instances = .ok (.ok ()) →
    ∀ (e : EmbeddedCircuit) (row : ℕ) (values : ValueVec), Instance m main instances e row values →
    e.circuit = caller → ∀ placed ∈ e.chipCalls, placed.inout = call.inout →
    ∀ chip, m.circuits[placed.chipId]? = some chip → chip.circuit = callee →
    ∃ held, instances.instanceAt placed.chipId (placed.firstInstance + row) = .ok held ∧
      Binds callee interface wires (fun v word => values.read (caller.witnessIndex v) = .ok word) held.inout

variable {interface : List Wire}

theorem delivers {caller callee : Circuit} {call : ChipCall} {wires : List Wire}
    (h : ∀ (i : ℕ) (w : Wire), callee.inout[i]? = some w → ∃ (k : ℕ) (v : Wire), interface[k]? = some w ∧
      wires[k]? = some v ∧ call.inout[i]? = some [ShiftedValueIndex.plain (caller.witnessIndex v)]) :
    Delivers caller call callee interface wires where
  filled values empty hempty := by
    obtain ⟨held,hheld,-,hwords⟩ := fillInout_ok (evalCall values call) hempty
    refine ⟨held,hheld,fun i w hw => ?_⟩
    obtain ⟨k,v,hk,hv,hoperand⟩ := h i w hw
    refine ⟨k,v,_,hk,hv,rfl,?_⟩
    rw [hwords i (List.getElem?_eq_some_iff.mp hw).1,List.getD_eq_getElem?_getD,
      evalCall_getElem? hoperand,Option.getD_some]
  accepted m main instances hverify e row values he hcaller placed hplaced hinout chip hchip hcallee := by
    subst hcallee
    obtain ⟨held,hheld,hwords⟩ := served_of_verify hverify he hplaced hchip
    refine ⟨held,hheld,fun i w hw => ?_⟩
    obtain ⟨k,v,hk,hv,hoperand⟩ := h i w hw
    obtain ⟨word,hpassed,hword⟩ := hwords i (List.getElem?_eq_some_iff.mp hw).1
    rw [passedWord_plain (hinout ▸ hoperand)] at hpassed
    exact ⟨k,v,word,hk,hv,hpassed,hword⟩

variable {passes : Passes} {s s' : Shared}

theorem buildGadget_call {gadget : ChipGadget} {path : PathSpec} {dimensions : List ℕ}
    {inputs outputs : List Wire} {registered : RegisteredGadget} {built : CircuitM4}
    (hserving : Serving passes (gadget.name,dimensions) s.chips registered built interface)
    (hregistered : s.chipGadgets (gadget.name,dimensions) = some registered)
    (h : buildGadget gadget path dimensions inputs s = .ok (outputs,s')) :
    ∃ inout, s'.chips = s.chips ∧ s'.chipCalls[s.chipCalls.length]? = some ⟨registered.chip,inout⟩ ∧
      ∀ (i : ℕ) (w : Wire), built.main.circuit.inout[i]? = some w → ∃ (k : ℕ) (v : Wire), interface[k]? = some w ∧
        (inputs ++ outputs)[k]? = some v ∧ inout[i]? = some v := by
  rcases buildGadget_ok h with ⟨registered',mid,inout,hsame,hhint,horder,hcall⟩ | ⟨hnone,-⟩
  · cases hregistered.symm.trans hsame
    obtain ⟨graph,rfl⟩ := callHint_ok hhint
    obtain ⟨callee,-,-,rfl⟩ := callChip_ok hcall
    refine ⟨inout,rfl,?_,fun i w hw => ?_⟩
    · exact List.getElem?_concat_length
    · obtain ⟨k,hk,hat⟩ := hserving.order i w hw
      obtain ⟨hi,rfl⟩ := List.getElem?_eq_some_iff.mp hk
      obtain ⟨v,hentry,hv⟩ := (mapM_getElem horder).2 i hi
      rw [entry] at hentry
      split at hentry
      case h_1 v' hwire =>
        cases hentry
        exact ⟨_,v,hat,hwire,hv⟩
      case h_2 => cases hentry
  · rw [hnone] at hregistered
    cases hregistered

variable {m : CircuitM4}

theorem call_of_built {later : Shared} {n : ℕ} {pending : PendingCall}
    (hcall : s.chipCalls[n]? = some pending) (hrun : Runs passes s later)
    (hbuilt : tryBuildM4 passes later = .ok (.ok m)) : ∃ call, m.main.chipCalls[n]? = some call ∧
      call.chipId = pending.chip ∧ call.inout = pending.inout.map fun w =>
        [ShiftedValueIndex.plain (m.main.circuit.witnessIndex w)] :=
  (tryBuildM4_ok hbuilt).call (getElem?_of_extends (runs_keeps hrun).calls hcall)

/-- What is built of a builder: its chips, in order and unfolding to the same, and each call with instances of
its own, unless there are too many. -/
structure Composed (s : Shared) (m : CircuitM4) : Prop where
  ordered : m.Ordered
  /-- Every chip is where it was registered, and its calls refer to what they referred to. -/
  chips : ∀ (i : ℕ) (chip : EmbeddedCircuit), s.chips[i]? = some chip → ∃ placed, m.circuits[i]? = some placed ∧
    placed.circuit = chip.circuit ∧ ∀ depth, callTree m.circuits depth placed = callTree s.chips depth chip
  length : m.circuits.length = s.chips.length
  instances : m.toConstraintSystem.validateInstances = .ok () ∨
    ∃ chipId, m.toConstraintSystem.validateInstances = .error (.tooManyInstances chipId)

theorem composed (hs : Sound passes s) (h : tryBuildM4 passes s = .ok (.ok m)) : Composed s m := by
  have hbuilt := tryBuildM4_ok h
  have hordered := hbuilt.ordered hs
  obtain ⟨unclaimed,hclaimed⟩ := hbuilt.claimed
  refine ⟨hordered,fun i chip hchip => hbuilt.chip hchip,?_,recomputeInstances_valid hclaimed hordered⟩
  simpa only [List.length_map] using congrArg List.length hbuilt.chips

/-- What a recorded call of a gadget's chip comes to in a system: its target unfolds to the gadget's own system,
and it delivers the words of the wires. -/
def Called (m : CircuitM4) (n : ℕ) (built : CircuitM4) (interface wires : List Wire) : Prop :=
  ∃ call callee, m.main.chipCalls[n]? = some call ∧ m.circuits[call.chipId]? = some callee ∧
    callee.circuit = built.main.circuit ∧
    (∀ depth, callTree m.circuits depth callee = callTree built.circuits depth built.main) ∧
    Delivers m.main.circuit call built.main.circuit interface wires

theorem called {gadget : ChipGadget} {path : PathSpec} {dimensions : List ℕ} {inputs outputs : List Wire}
    {registered : RegisteredGadget} {built : CircuitM4}
    (hserving : Serving passes (gadget.name,dimensions) s.chips registered built interface)
    (hregistered : s.chipGadgets (gadget.name,dimensions) = some registered)
    (h : buildGadget gadget path dimensions inputs s = .ok (outputs,s')) {later : Shared}
    (hrun : Runs passes s' later) (hbuilt : tryBuildM4 passes later = .ok (.ok m)) :
    Called m s.chipCalls.length built interface (inputs ++ outputs) := by
  obtain ⟨inout,hchips,hrecorded,hbinds⟩ := buildGadget_call hserving hregistered h
  obtain ⟨call,hcall,hchipId,hinout⟩ := call_of_built hrecorded hrun hbuilt
  have hextends : s.chips <+: later.chips := hchips ▸ (runs_keeps hrun).chips
  have hplaced := hserving.placed.of_extends hserving.ordered hextends
  obtain ⟨callee,hcallee,hcircuit,hunfolds⟩ := (tryBuildM4_ok hbuilt).chip hplaced.main
  refine ⟨call,callee,hcall,hchipId ▸ hcallee,hcircuit,fun depth => ?_,delivers fun i w hw => ?_⟩
  · exact (hunfolds depth).trans (hplaced.unfolds _ hserving.ordered.main depth)
  · obtain ⟨k,v,hk,hv,hat⟩ := hbinds i w hw
    refine ⟨k,v,hk,hv,?_⟩
    rw [hinout,List.getElem?_map,hat,Option.map_some]

/-- The chips of a builder are always in topological order, a system added in order stays in place with its
calls, and an emission of a gadget that has a chip records a call by which each inout word of the instance
is that of the wire in its place of the gadget's interface. -/
theorem chips_compose {passes : Passes} {opts : Options} {s : Shared} (h : Runs passes (.withOpts opts) s) :
    Topological s.chips ∧
    (∀ (m : CircuitM4) (later : Shared), m.Ordered → Runs passes (addChip s m).2 later →
      Topological later.chips ∧ Flattened m (addChip s m).1 later.chips ∧
      ∀ (i : ℕ) (chip : EmbeddedCircuit), s.chips[i]? = some chip → later.chips[i]? = some chip ∧
        ∀ depth, callTree later.chips depth chip = callTree s.chips depth chip) ∧
    (∀ m, tryBuildM4 passes s = .ok (.ok m) → Composed s m) ∧
    ∀ (gadget : ChipGadget) (path : PathSpec) (dimensions : List ℕ) (inputs outputs : List Wire)
      (registered : RegisteredGadget) (s' : Shared),
      s.chipGadgets (gadget.name,dimensions) = some registered →
      buildGadget gadget path dimensions inputs s = .ok (outputs,s') →
      ∃ built interface, Serving passes (gadget.name,dimensions) s.chips registered built interface ∧
        ∀ later m, Runs passes s' later → tryBuildM4 passes later = .ok (.ok m) →
          Called m s.chipCalls.length built interface (inputs ++ outputs) := by
  have hs := (runs_keeps h).sound (sound_withOpts passes opts)
  refine ⟨hs.topological,fun m later hm hrun => ?_,fun m hbuilt => composed hs hbuilt,
    fun gadget path dimensions inputs outputs registered s' hregistered hemit => ?_⟩
  · have hadd := keeps_addChip passes s hm
    have hlater := runs_keeps hrun
    have hextends := hadd.chips.trans hlater.chips
    refine ⟨(hlater.sound (hadd.sound hs)).topological,
      (flattened_addChip s hm).of_extends hm hlater.chips,fun i chip hchip =>
      ⟨getElem?_of_extends hextends hchip,fun depth => callTree_extends hextends hs.topological.closed depth
        (hs.topological i chip hchip).1⟩⟩
  · obtain ⟨built,interface,hserving⟩ := hs.gadgets _ _ hregistered
    exact ⟨built,interface,hserving,fun later m hrun hbuilt => called hserving hregistered hemit hrun hbuilt⟩

/-- Passes that keep the graph, commit every wire and constrain nothing. -/
def plainPasses : Passes := fun shared _ => .ok (.ok ⟨shared.graph,[],⟨fun _ => none,0,0⟩,.new⟩)

/-- A gadget with an input and two outputs, created in the other order. -/
def crossed : ChipGadget where
  name := "crossed"
  hint := 0
  shape _ := (1,2)
  build _ _ _ shared :=
    let (graph,outputs) := shared.graph.addWires .internal 2
    .ok (outputs.reverse,{shared with graph})

theorem chips_compose_crossed : ∃ s outputs s' m built interface registered,
    registerChip plainPasses crossed [] .new = .ok s ∧ buildGadget crossed 0 [] [0] s = .ok (outputs,s') ∧
    registered.inoutOrder = [0,2,1] ∧ Serving plainPasses ("crossed",[]) s.chips registered built interface ∧
    Called m 0 built interface ([0] ++ outputs) := by
  have hrun : (do
      let s ← registerChip plainPasses crossed [] .new
      let emitted ← buildGadget crossed 0 [] [0] s
      let _ ← buildM4 plainPasses emitted.2
      return (s.chipCalls.length,(s.chipGadgets ("crossed",[])).map RegisteredGadget.inoutOrder)) =
        .ok (0,some [0,2,1]) := by rfl
  obtain ⟨s,hregister,hrun⟩ := bind_eq_ok.mp hrun
  obtain ⟨⟨outputs,s'⟩,hemit,hrun⟩ := bind_eq_ok.mp hrun
  obtain ⟨m,hm,hpair⟩ := bind_eq_ok.mp hrun
  rw [pure_eq_ok,Prod.mk.injEq,Option.map_eq_some_iff] at hpair
  obtain ⟨hlength,registered,hregistered,horder⟩ := hpair
  have hcode : ∀ path dimensions inputs body outputs body',
      crossed.build path dimensions inputs body = .ok (outputs,body') → Runs plainPasses body body' := by
    intro path dimensions inputs body outputs body' h
    cases h
    exact .gates (.refl _) _ _
  obtain ⟨-,-,-,hcalls⟩ := chips_compose (.registerChip (.refl (.withOpts .default)) hcode hregister)
  obtain ⟨built,interface,hserving,hbuilt⟩ := hcalls crossed 0 [] [0] outputs registered s' hregistered hemit
  exact ⟨s,outputs,s',m,built,interface,registered,hregister,hemit,horder,hserving,
    hlength ▸ hbuilt s' m (.refl _) (buildM4_ok hm)⟩

end Binius64.ChipCalls
