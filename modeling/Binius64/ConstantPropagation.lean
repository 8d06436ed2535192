import Binius64.MeasuredLoop
import Binius64.WireForwarding

/-!
# Constant propagation

A gate whose inputs are all constant is evaluated when the circuit is built, and the readers of its
outputs are pointed at constant wires.
-/

namespace Binius64.ConstantPropagation

open MachineWord ValueVector WireConstraints EvalForm GateGraph GateKinds GateSemantics
open List GateConstraints GraphInvariant GraphEvaluation ScratchAlloc WireForwarding MeasuredLoop

structure AlwaysFailingGate where
  gate : GateId
  reason : AssertionDetail

/-- The state of the pass. -/
structure Propagation where
  graph : Graph
  worklist : Worklist GateId
  total : ℕ

def tryEvaluateGateWithConstants (hints : HintRegistry) (graph : Graph) (g : GateData) :
    Option (Checked (Except AssertionDetail (List Word))) :=
  (g.inputs.mapM graph.constOf).map (evaluateGateConstants hints g)

def replaceOutput (uses : Wire → List GateId) (s : Propagation) (output : Wire × Word) : Propagation :=
  if (s.graph.constOf output.1).isSome then s
  else
    let (graph,replacement) := s.graph.replaceWireWithConstant uses output.1 output.2
    if 0 < replacement.nSlotsRewritten then
      ⟨graph,(replacement.affectedGates.insertionSort (· ≤ ·)).foldl Worklist.push s.worklist,
        s.total + replacement.nSlotsRewritten⟩
    else ⟨graph,s.worklist,s.total⟩

/-- Take a gate off the worklist and evaluate it if possible. -/
def propagate (hints : HintRegistry) (uses : Wire → List GateId) (s : Propagation) :
    Propagation ⊕ Checked (Except AlwaysFailingGate (Graph × ℕ)) :=
  match s.worklist.queue with
  | [] => .inr (.ok (.ok (s.graph,s.total)))
  | gate :: queue =>
    let s := {s with worklist := s.worklist.rest gate queue}
    match s.graph.gates[gate]? with
    | none => .inl s
    | some g =>
      match tryEvaluateGateWithConstants hints s.graph g with
      | none => .inl s
      | some (.error panic) => .inr (.error panic)
      | some (.ok (.error reason)) => .inr (.ok (.error ⟨gate,reason⟩))
      | some (.ok (.ok values)) => .inl ((g.outputs.zip values).foldl (replaceOutput uses) s)

def constantReaders (graph : Graph) : List GateId :=
  ((range graph.wires.length).filter fun w => (graph.constOf w).isSome).flatMap graph.wireUses

/-- Replace the outputs of gates with constant inputs, in so many rounds at most. -/
def constantPropagation (hints : HintRegistry) (graph : Graph) (steps : ℕ) :
    Option (Checked (Except AlwaysFailingGate (Graph × ℕ))) :=
  loop (propagate hints graph.wireUses) steps
    ⟨graph,(constantReaders graph).foldl Worklist.push .empty,0⟩

variable {hints : HintRegistry} {graph graph' : Graph}

def withConstants (graph : Graph) (σ : Wire → Word) : Wire → Word := fun w => (graph.constOf w).getD (σ w)

theorem withConstants_holds (graph : Graph) (σ : Wire → Word) : HoldsConstants graph (withConstants graph σ) :=
  fun w word hword => by rw [withConstants,hword,Option.getD_some]

theorem evaluate_agree (h : Evaluable hints graph) {σ τ : Wire → Word}
    (hagree : ∀ w < graph.wires.length, τ w = σ w) {w : Wire} (hw : w < graph.wires.length) :
    evaluate hints graph τ w = evaluate hints graph σ w := by
  obtain ⟨ρ,hρ⟩ : ∃ ρ : Wire → Word,
      ρ = fun v => if v < graph.wires.length then evaluate hints graph σ v else τ v := ⟨_,rfl⟩
  have hinside : ∀ v < graph.wires.length, ρ v = evaluate hints graph σ v := fun v hv => by
    rw [hρ]
    exact if_pos hv
  have hsolves : Solves hints graph.gates ρ := by
    intro g hg
    have hlt := h.inside g hg
    rw [map_congr_left fun v hv => hinside v (hlt v (GateData.mem_wires.mpr (.inr hv))),
      map_congr_left fun v hv =>
        hinside v (hlt v (GateData.mem_wires.mpr (.inl (mem_append_right _ hv))))]
    exact h.solves σ g hg
  have heq : ρ = evaluate hints graph τ := by
    refine h.eq_evaluate hsolves fun v hv => ?_
    by_cases hlt : v < graph.wires.length
    · rw [hinside v hlt,hagree v hlt]
      exact run_unwritten hv σ
    · rw [hρ]
      exact if_neg hlt
  rw [←heq]
  exact hinside w hw

theorem holdsConstants_of_kinds
    (hkinds : ∀ (w : Wire) (kind : WireKind), graph.wires[w]? = some kind → graph'.wires[w]? = some kind)
    {σ : Wire → Word} (hσ : HoldsConstants graph' σ) : HoldsConstants graph σ := fun w word hword =>
  hσ w word (constOf_eq_some.mpr (hkinds w _ (constOf_eq_some.mp hword)))

/-- What holds of the pass before a round. -/
structure PropagateInv (hints : HintRegistry) (graph : Graph) (s : Propagation) : Prop where
  /-- The graph at hand stands in place of the graph before, where its constants are in place. -/
  forwarded : Forwarded hints graph (HoldsConstants s.graph) s.graph
  slots : List.Forall₂ (fun g g' : GateData =>
    List.Forall₂ (fun w w' => w' = w ∨ ∃ word, s.graph.constOf w' = some word) g.inputs g'.inputs)
    graph.gates s.graph.gates
  worklist : s.worklist.Within (range graph.gates.length)

/-- What replacing some outputs does. -/
structure Advance (hints : HintRegistry) (graph : Graph) (s s' : Propagation) : Prop where
  inv : PropagateInv hints graph s'
  constants : ∀ σ, HoldsConstants s'.graph σ → HoldsConstants s.graph σ
  measure : s'.worklist = s.worklist ∧
      readLevels (level graph) s'.graph.gates ≤ readLevels (level graph) s.graph.gates ∨
    readLevels (level graph) s'.graph.gates < readLevels (level graph) s.graph.gates

theorem Advance.trans {s s' s'' : Propagation} (h : Advance hints graph s s') (h' : Advance hints graph s' s'') :
    Advance hints graph s s'' := by
  refine ⟨h'.inv,fun σ hσ => h.constants σ (h'.constants σ hσ),?_⟩
  rcases h.measure with ⟨hwork,hle⟩ | hlt
  · rcases h'.measure with ⟨hwork',hle'⟩ | hlt'
    · exact .inl ⟨hwork'.trans hwork,hle'.trans hle⟩
    · exact .inr (hlt'.trans_le hle)
  · rcases h'.measure with ⟨-,hle'⟩ | hlt'
    · exact .inr (hle'.trans_lt hlt)
    · exact .inr (hlt'.trans hlt)

theorem slots_replaceInGates {gates : List GateData} {old new : Wire} {uses : List GateId}
    {R : Wire → Wire → Prop} (hnew : ∀ w, R w new)
    (h : List.Forall₂ (fun g g' : GateData => List.Forall₂ R g.inputs g'.inputs) gates graph.gates) :
    List.Forall₂ (fun g g' : GateData => List.Forall₂ R g.inputs g'.inputs) gates
      (Graph.replaceInGates old new graph uses).1.gates := by
  induction uses generalizing graph with
  | nil => exact h
  | cons gate rest ih =>
    refine ih (forall₂_modify h gate _ fun g g' _ _ hg => ?_)
    refine forall₂_map_right_iff.mpr (hg.imp fun w w' hw => ?_)
    rw [Graph.substWire]
    split
    · exact hnew w
    · exact hw

theorem slots_replaceWireWithWire {gates : List GateData} {old new : Wire} {uses : Wire → List GateId}
    {R : Wire → Wire → Prop} (hnew : ∀ w, R w new)
    (h : List.Forall₂ (fun g g' : GateData => List.Forall₂ R g.inputs g'.inputs) gates graph.gates) :
    List.Forall₂ (fun g g' : GateData => List.Forall₂ R g.inputs g'.inputs) gates
      (graph.replaceWireWithWire uses old new).1.gates := by
  rw [Graph.replaceWireWithWire]
  split
  · exact h
  · exact slots_replaceInGates hnew h

theorem affectedGates_subset {old new : Wire} {uses : Wire → List GateId} {gate : GateId}
    (h : gate ∈ (graph.replaceWireWithWire uses old new).2.affectedGates) : gate ∈ uses old := by
  rw [Graph.replaceWireWithWire] at h
  split at h
  · cases h
  · exact h

theorem replaceOutput_advance (h : Evaluable hints graph) {s : Propagation} (hs : PropagateInv hints graph s)
    {i : GateId} {g : GateData} (hg : graph.gates[i]? = some g) {output : Wire × Word}
    (hout : output.1 ∈ g.outputs)
    (hvalue : ∀ σ, HoldsConstants s.graph σ → evaluate hints graph σ output.1 = output.2) :
    Advance hints graph s (replaceOutput graph.wireUses s output) := by
  rw [replaceOutput]
  split
  · exact ⟨hs,fun _ hσ => hσ,.inl ⟨rfl,Nat.le_refl _⟩⟩
  obtain ⟨extra,hgraph,hconst⟩ := addConstant_ok s.graph output.2
  rw [Graph.replaceWireWithConstant]
  rw [←hgraph] at hconst
  generalize s.graph.addConstant output.2 = added at hgraph hconst ⊢
  obtain ⟨before,constWire⟩ := added
  dsimp only at hgraph hconst ⊢
  have hkinds : ∀ (w : Wire) (kind : WireKind), s.graph.wires[w]? = some kind → before.wires[w]? = some kind :=
    fun w kind hw => hgraph ▸ getElem?_extend hw
  have hmono : ∀ σ, HoldsConstants before σ → HoldsConstants s.graph σ := fun σ =>
    holdsConstants_of_kinds hkinds
  have hgates : before.gates = s.graph.gates := by rw [hgraph]; rfl
  have hlt : constWire < before.wires.length := lt_of_constOf hconst
  have hbefore : Forwarded hints graph (HoldsConstants before) before := by
    have hold := hs.forwarded.mono hmono
    refine ⟨fun w kind hw => hkinds w kind (hold.kinds w kind hw),hgates ▸ hold.gates,fun p hp w hw => ?_⟩
    rw [hgates] at hp
    exact (hold.inside p hp w hw).trans_le (hgraph ▸ by simp [extend])
  have hfree : ∀ p ∈ graph.gates, constWire ∉ p.writes :=
    hbefore.relinks.unwritten.mp ((hbefore.evaluable h).unwritten constWire output.2 hconst)
  have hstands : StandsFor hints graph (HoldsConstants before) output.1 constWire := by
    refine ⟨fun σ hσ => ?_,?_,.inl hfree⟩
    · rw [hvalue σ (hmono σ hσ)]
      exact (run_unwritten hfree σ).trans (hσ constWire output.2 hconst)
    · rw [level_of_unwritten hfree,level_of_writes h hg (mem_writes_of_outputs hout)]
      exact Nat.succ_pos i
  have hreplaced := hbefore.replaceWireWithWire h (.single hstands) hlt
  have hslots : List.Forall₂ (fun g g' : GateData =>
      List.Forall₂ (fun w w' => w' = w ∨ ∃ word, before.constOf w' = some word) g.inputs g'.inputs)
      graph.gates (before.replaceWireWithWire graph.wireUses output.1 constWire).1.gates := by
    refine slots_replaceWireWithWire (fun _ => .inr ⟨output.2,hconst⟩) ?_
    rw [hgates]
    refine hs.slots.imp fun _ _ hg => hg.imp fun w w' hw => hw.imp_right ?_
    rintro ⟨word,hword⟩
    exact ⟨word,constOf_eq_some.mpr (hkinds w' _ (constOf_eq_some.mp hword))⟩
  have haffected : ∀ gate ∈ (before.replaceWireWithWire graph.wireUses output.1 constWire).2.affectedGates,
      gate ∈ range graph.gates.length := by
    intro gate hgate
    obtain ⟨p,hp,-⟩ := mem_wireUses.mp (affectedGates_subset hgate)
    exact mem_range.mpr (List.getElem?_eq_some_iff.mp hp).1
  generalize before.replaceWireWithWire graph.wireUses output.1 constWire = replaced
    at hreplaced hslots haffected ⊢
  obtain ⟨after,replacement⟩ := replaced
  have hgiven : HoldsConstants after = HoldsConstants before := holdsConstants_congr hreplaced.wires
  have hconstOf : after.constOf = before.constOf := constOf_congr hreplaced.wires
  have hafter : ∀ worklist total, worklist.Within (range graph.gates.length) →
      PropagateInv hints graph ⟨after,worklist,total⟩ := fun _ _ hwork =>
    ⟨hgiven ▸ hreplaced.forwarded,hconstOf ▸ hslots,hwork⟩
  have hlow := hreplaced.levels
  rw [hgates] at hlow
  dsimp only at hlow ⊢
  split
  case isTrue hpos =>
    refine ⟨hafter _ _ (hs.worklist.foldl_push fun gate hgate => ?_),fun σ hσ => hmono σ (hgiven ▸ hσ),
      .inr ((Nat.lt_add_of_pos_right hpos).trans_le hlow)⟩
    exact haffected gate ((mem_insertionSort _).mp hgate)
  case isFalse =>
    exact ⟨hafter _ _ hs.worklist,fun σ hσ => hmono σ (hgiven ▸ hσ),
      .inl ⟨rfl,(Nat.le_add_right _ _).trans hlow⟩⟩

theorem replaceOutputs_advance (h : Evaluable hints graph) {i : GateId} {g : GateData}
    (hg : graph.gates[i]? = some g) {outputs : List (Wire × Word)} {s : Propagation}
    (hs : PropagateInv hints graph s) (hout : ∀ output ∈ outputs, output.1 ∈ g.outputs ∧
      ∀ σ, HoldsConstants s.graph σ → evaluate hints graph σ output.1 = output.2) :
    Advance hints graph s (outputs.foldl (replaceOutput graph.wireUses) s) := by
  induction outputs generalizing s with
  | nil => exact ⟨hs,fun _ hσ => hσ,.inl ⟨rfl,Nat.le_refl _⟩⟩
  | cons output rest ih =>
    rw [forall_mem_cons] at hout
    have hfirst := replaceOutput_advance h hs hg hout.1.1 hout.1.2
    refine hfirst.trans (ih hfirst.inv fun next hnext => ⟨(hout.2 next hnext).1,fun σ hσ => ?_⟩)
    exact (hout.2 next hnext).2 σ (hfirst.constants σ hσ)

/-- How the pass ends. -/
inductive Outcome (hints : HintRegistry) (graph : Graph) : Except AlwaysFailingGate (Graph × ℕ) → Prop
  /-- Every wire keeps its word whatever the given words are, and a slot is only replaced by a constant that
  the wire in it holds. -/
  | propagated {final : Graph} {total : ℕ} (links : Relinks graph final) (evaluable : Evaluable hints final)
    (words : ∀ σ, ∀ w < graph.wires.length, evaluate hints final (withConstants final σ) w =
      evaluate hints graph (withConstants graph σ) w)
    (replaced : ∀ (i : GateId) (g g' : GateData), graph.gates[i]? = some g → final.gates[i]? = some g' →
      ∀ (p : ℕ) w w', g.inputs[p]? = some w → g'.inputs[p]? = some w' → w' ≠ w →
        ∃ word, final.constOf w' = some word ∧ ∀ σ, evaluate hints graph (withConstants graph σ) w = word) :
    Outcome hints graph (.ok (final,total))
  /-- A gate fails whatever the given words are. -/
  | failing {gate : GateId} {reason : AssertionDetail} {g : GateData} (at_gate : graph.gates[gate]? = some g)
    (fails : ∀ σ, ¬Passes hints g (g.inputs.map (evaluate hints graph (withConstants graph σ)))) :
    Outcome hints graph (.error ⟨gate,reason⟩)

theorem inputs_of_constants {ws : List Wire} {ins : List Word} (h : ws.mapM graph.constOf = some ins)
    {σ : Wire → Word} (hσ : HoldsConstants graph σ) : ws.map σ = ins := by
  induction ws generalizing ins with
  | nil => cases h; rfl
  | cons w ws ih =>
    rw [mapM_cons] at h
    obtain ⟨word,hword,hrest⟩ := Option.bind_eq_some_iff.mp h
    obtain ⟨rest,hws,hins⟩ := Option.bind_eq_some_iff.mp hrest
    rw [map_cons,hσ w word hword,ih hws]
    exact Option.some.inj hins

theorem evaluate_withConstants (h : Evaluable hints graph)
    (hforwarded : Forwarded hints graph (HoldsConstants graph') graph') (σ : Wire → Word) {w : Wire}
    (hw : w < graph.wires.length) : evaluate hints graph' (withConstants graph' σ) w =
      evaluate hints graph (withConstants graph σ) w := by
  rw [hforwarded.evaluate_eq h (withConstants_holds graph' σ)]
  refine evaluate_agree h (fun v hv => ?_) hw
  rw [withConstants,withConstants,hforwarded.relinks.constOf hv]

theorem outcome_of_inv (h : Evaluable hints graph) {s : Propagation} (hs : PropagateInv hints graph s) :
    Outcome hints graph (.ok (s.graph,s.total)) := by
  refine .propagated hs.forwarded.relinks (hs.forwarded.evaluable h)
    (fun σ w hw => evaluate_withConstants h hs.forwarded σ hw) fun i g g' hg hg' p w w' hw hw' hne => ?_
  obtain ⟨hlt,rfl⟩ := List.getElem?_eq_some_iff.mp hg
  obtain ⟨hlt',rfl⟩ := List.getElem?_eq_some_iff.mp hg'
  obtain ⟨hp,rfl⟩ := List.getElem?_eq_some_iff.mp hw
  obtain ⟨hp',rfl⟩ := List.getElem?_eq_some_iff.mp hw'
  obtain ⟨word,hword⟩ := ((hs.slots.get hlt hlt').get hp hp').resolve_left hne
  refine ⟨word,hword,fun σ => ?_⟩
  have hin := h.inside _ (getElem_mem hlt) _ (GateData.mem_wires.mpr
    (.inl (mem_append_right _ (getElem_mem hp))))
  rw [←evaluate_withConstants h hs.forwarded σ hin,
    hs.forwarded.evaluate_eq h (withConstants_holds s.graph σ)]
  have hslot := ((hs.forwarded.gates.get hlt hlt').slots.get hp hp').words (withConstants_holds s.graph σ)
  refine hslot.symm.trans ?_
  rw [←hs.forwarded.evaluate_eq h (withConstants_holds s.graph σ)]
  exact (hs.forwarded.evaluable h).holdsConstants (withConstants_holds s.graph σ) _ word hword

theorem inputs_withConstants (h : Evaluable hints graph)
    (hforwarded : Forwarded hints graph (HoldsConstants graph') graph') {g g' : GateData} (hg : g ∈ graph.gates)
    (hgate : ForwardedGate hints graph (HoldsConstants graph') g g') (σ : Wire → Word) :
    g.inputs.map (evaluate hints graph (withConstants graph σ)) =
      g'.inputs.map (evaluate hints graph' (withConstants graph' σ)) := by
  have hgiven := withConstants_holds graph' σ
  rw [hforwarded.evaluate_eq h hgiven,Forwarded.inputs_eq hgate hgiven,←hforwarded.evaluate_eq h hgiven]
  refine map_congr_left fun w hw => (evaluate_withConstants h hforwarded σ ?_).symm
  exact h.inside g hg w (GateData.mem_wires.mpr (.inl (mem_append_right _ hw)))

theorem mem_zip_map {A B : Type} {f : A → B} {xs : List A} {p : A × B} (h : p ∈ xs.zip (xs.map f)) :
    p.1 ∈ xs ∧ f p.1 = p.2 := by
  induction xs with
  | nil => cases h
  | cons x xs ih =>
    rcases mem_cons.mp h with rfl | hrest
    · exact ⟨mem_cons_self,rfl⟩
    · exact (ih hrest).imp_left (mem_cons_of_mem x)

theorem propagate_progress (h : Evaluable hints graph) (s : Propagation) (hs : PropagateInv hints graph s) :
    Progress (PropagateInv hints graph) (fun r => ∃ result, r = .ok result ∧ Outcome hints graph result)
      (fun s => readLevels (level graph) s.graph.gates * (graph.gates.length + 1) + s.worklist.queue.length)
      s (propagate hints graph.wireUses s) := by
  rw [propagate]
  cases hqueue : s.worklist.queue with
  | nil => exact ⟨_,rfl,outcome_of_inv h hs⟩
  | cons gate queue =>
    have hrest : PropagateInv hints graph {s with worklist := s.worklist.rest gate queue} :=
      ⟨hs.forwarded,hs.slots,hs.worklist.rest hqueue⟩
    have hshorter : readLevels (level graph) s.graph.gates * (graph.gates.length + 1) + queue.length <
        readLevels (level graph) s.graph.gates * (graph.gates.length + 1) + s.worklist.queue.length := by
      rw [hqueue,length_cons]
      exact Nat.lt_succ_self _
    dsimp only
    cases hgate : s.graph.gates[gate]? with
    | none => exact ⟨hrest,hshorter⟩
    | some g' =>
      obtain ⟨g,hg,hlink⟩ := hs.forwarded.gate_at hgate
      have hgraph' := hs.forwarded.evaluable h
      have hmem' := mem_of_getElem? hgate
      dsimp only
      rw [tryEvaluateGateWithConstants]
      cases hins : g'.inputs.mapM s.graph.constOf with
      | none => exact ⟨hrest,hshorter⟩
      | some ins =>
        have hwords : ∀ σ, HoldsConstants s.graph σ → g'.inputs.map (evaluate hints s.graph σ) = ins :=
          fun σ hσ => inputs_of_constants hins (hgraph'.holdsConstants hσ)
        have hlen : ins.length = g'.inputs.length := by
          rw [←hwords _ (withConstants_holds s.graph fun _ => 0),length_map]
        rw [Option.map_some]
        rcases evaluate_cases (hgraph'.fits g' hmem').shaped hlen with ⟨outs,heval,-⟩ | ⟨-,reason,hfail⟩
        · rw [heval]
          have hadvance := @replaceOutputs_advance _ _ h _ _ hg (g'.outputs.zip outs) _ hrest
            fun output houtput => by
              have hout := fun σ hσ => hgraph'.outputs_eq σ hmem' (by rw [hwords σ hσ]; exact heval)
              refine ⟨?_,fun σ hσ => ?_⟩
              · have hrest := hlink.rest
                rw [hrest] at houtput
                exact (of_mem_zip houtput).1
              · rw [←hout σ hσ] at houtput
                rw [←hs.forwarded.evaluate_eq h hσ]
                exact (mem_zip_map houtput).2
          refine ⟨hadvance.inv,?_⟩
          dsimp only
          rcases hadvance.measure with ⟨hwork,hle⟩ | hlt
          · rw [hwork]
            exact (Nat.add_le_add_right (Nat.mul_le_mul_right _ hle) _).trans_lt hshorter
          · have hlength := hadvance.inv.worklist.length_le
            rw [length_range] at hlength
            have hmul := Nat.mul_le_mul_right (graph.gates.length + 1) hlt
            rw [Nat.succ_mul] at hmul
            dsimp only at hmul ⊢
            omega
        · rw [hfail]
          refine ⟨_,rfl,.failing hg fun σ => ?_⟩
          rw [inputs_withConstants h hs.forwarded (mem_of_getElem? hg) hlink σ,
            hwords _ (withConstants_holds s.graph σ)]
          rintro ⟨outs,houts⟩
          have hsame := @evaluate_congr hints g g' (by rw [hlink.rest])
            (by rw [hlink.rest]) (by rw [hlink.rest]) ins
          rw [Evaluates,←hsame,hfail,Except.ok.injEq] at houts
          cases houts

theorem propagateInv_start (h : Evaluable hints graph) :
    PropagateInv hints graph ⟨graph,(constantReaders graph).foldl Worklist.push .empty,0⟩ := by
  refine ⟨Forwarded.refl h _,forall₂_same.mpr fun g _ => forall₂_same.mpr fun w _ => .inl rfl,
    Worklist.within_empty.foldl_push fun gate hgate => ?_⟩
  obtain ⟨w,-,hw⟩ := mem_flatMap.mp hgate
  obtain ⟨g,hg,-⟩ := mem_wireUses.mp hw
  exact mem_range.mpr (List.getElem?_eq_some_iff.mp hg).1

/-- Constant propagation ends, and never by a panic. Either every wire keeps its word whatever the given words
are, slots being replaced by constants that the wires in them hold, or some gate fails whatever they are. -/
theorem constant_propagation_ends (h : Evaluable hints graph) :
    ∃ result, (∀ steps, readLevels (level graph) graph.gates * (graph.gates.length + 1) + graph.gates.length < steps →
        constantPropagation hints graph steps = some (.ok result)) ∧ Outcome hints graph result := by
  have hstart := propagateInv_start h
  obtain ⟨_,⟨result,rfl,hresult⟩,hsteps⟩ := loop_ends (propagate_progress h) hstart
  refine ⟨result,fun steps hlt => hsteps steps ?_,hresult⟩
  have hlength := hstart.worklist.length_le
  rw [length_range] at hlength
  exact (Nat.add_le_add_left hlength _).trans_lt hlt

/-- The exclusive or of five and three under a mask, asserted to be zero. -/
def folded : Graph where
  gates := [⟨.op .bxor,[],[1,2],[4],[],[],[],[],0⟩,⟨.op .band,[],[4,3],[5],[],[],[],[],0⟩,
    ⟨.op .assertZero,[],[5],[],[],[],[],[],0⟩]
  wires := [.constant allOne,.constant 5,.constant 3,.inOut,.internal,.internal]

theorem folded_evaluable (hints : HintRegistry) : Evaluable hints folded where
  fits := by
    intro g hg
    simp only [folded,mem_cons,not_mem_nil,or_false] at hg
    rcases hg with rfl | rfl | rfl <;> exact ⟨rfl,rfl,rfl,rfl,rfl,nofun,nofun⟩
  distinct := by decide
  constants := by
    intro g hg
    simp only [folded,mem_cons,not_mem_nil,or_false] at hg
    rcases hg with rfl | rfl | rfl <;> rfl
  unwritten w word hword g hg hw := by
    have hinternal : ∀ g ∈ folded.gates, ∀ w ∈ g.writes, folded.constOf w = none := by decide
    rw [hinternal g hg w hw] at hword
    cases hword
  inside := by decide
  sourced := by
    have hfree : ∀ w : Wire, w < 4 → ∀ g ∈ folded.gates, w ∉ g.writes := by decide
    intro i g hg w hw
    match i with
    | 0 =>
      cases hg
      rcases mem_cons.mp hw with rfl | hw
      · exact .inl (hfree 1 (by decide))
      · exact .inl (mem_singleton.mp hw ▸ hfree 2 (by decide))
    | 1 =>
      cases hg
      rcases mem_cons.mp hw with rfl | hw
      · exact .inr ⟨0,Nat.one_pos,_,rfl,mem_singleton_self _⟩
      · exact .inl (mem_singleton.mp hw ▸ hfree 3 (by decide))
    | 2 =>
      cases hg
      exact .inr ⟨1,Nat.one_lt_two,_,rfl,hw⟩

def finalReads : Checked (Except AlwaysFailingGate (Graph × ℕ)) → List (List Wire)
  | .ok (.ok last) => last.1.gates.map GateData.reads
  | _ => []

/-- The mask reads a constant wire that the pass makes. -/
theorem constant_propagation_ends_folded : ∃ final total,
    constantPropagation (fun _ => ⟨fun _ => (0,0),fun _ _ => [],fun _ _ => rfl⟩) folded 16 =
      some (.ok (.ok (final,total))) ∧ final.gates.map GateData.reads = [[1,2],[6,3],[5]] := by
  obtain ⟨result,hsteps,-⟩ := constant_propagation_ends
    (folded_evaluable fun _ => ⟨fun _ => (0,0),fun _ _ => [],fun _ _ => rfl⟩)
  have hlast := hsteps 16 (by decide)
  have hreads : (constantPropagation (fun _ => ⟨fun _ => (0,0),fun _ _ => [],fun _ _ => rfl⟩) folded 16).map
      finalReads = some [[1,2],[6,3],[5]] := by decide
  rw [hlast] at hreads
  cases result with
  | error e => cases hreads
  | ok last => exact ⟨last.1,last.2,hlast,Option.some.inj hreads⟩

end Binius64.ConstantPropagation
