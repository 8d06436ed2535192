import Binius64.ChipBuilder
import Binius64.DeadCode
import Binius64.SubexpressionElimination
import Binius64.ZeroPropagation

/-!
# The compiler passes in a row

What a build does to a graph: it propagates constants and zeros, collapses equal gates, finds the live ones,
and constrains the gates that are left.
-/

namespace Binius64.Compilation

open MachineWord ValueVector StraightLine WireConstraints Lowering EvalForm GateGraph GateKinds GateSemantics
  GateConstraints GraphInvariant GraphEvaluation ScratchAlloc ScratchPooling WireForwarding MeasuredLoop
  ConstantPropagation ZeroPropagation SubexpressionElimination DeadCode
open ChipBuilder (Options)
open List

/-- The gates a build constrains. -/
def emitted (dead : List GateId) (live : Option (List GateId)) (gate : GateId) : Bool :=
  decide (gate ∉ dead) && live.all fun live => decide (gate ∈ live)

variable (hints : HintRegistry) (opts : Options) (pinned : EntitySet) (steps : ℕ) (graph : Graph)

def propagateConstants : Option (Checked (Except AlwaysFailingGate (Graph × ℕ))) :=
  if opts.enableConstantPropagation then constantPropagation hints graph steps else some (.ok (.ok (graph,0)))

def propagateZeros : Option (Graph × ℕ) :=
  if opts.enableZeroPropagation then zeroPropagation graph pinned steps else some (graph,0)

def collapse : Dedup :=
  if opts.enableCommonSubexpressionElimination then dedupGates graph pinned
  else ⟨graph,fun _ => none,fun _ => none,[]⟩

def findLive : Option (Option (List GateId)) :=
  if opts.enableDeadCodeElimination then (liveGates graph pinned steps).map some else some none

/-- The graph a build leaves and the constraints of its gates, each loop run for so many rounds at most. -/
def compile : Option (Checked (Except AlwaysFailingGate (Graph × ConstraintBuilder))) :=
  (propagateConstants hints opts steps graph).bind fun
    | .error panic => some (.error panic)
    | .ok (.error failing) => some (.ok (.error failing))
    | .ok (.ok (graph,_)) => (propagateZeros opts pinned steps graph).bind fun (graph,_) =>
      let s := collapse opts pinned graph
      (findLive opts pinned steps s.graph).map fun live =>
        (constrainGates (gatesAt s.graph (emitted s.dead live))).map fun builder => .ok (s.graph,builder)

variable {hints opts pinned graph} {graph' final : Graph}

/-- The words of all wires, from the given ones. -/
def wordsOf (hints : HintRegistry) (graph : Graph) (σ : Wire → Word) : Wire → Word :=
  evaluate hints graph (withConstants graph σ)

def Accepts (hints : HintRegistry) (graph : Graph) (σ : Wire → Word) : Prop :=
  ∀ g ∈ graph.gates, Passes hints g (g.inputs.map (wordsOf hints graph σ))

/-- One graph in place of another: its gates read the words that those of the other read. -/
structure Preserves (hints : HintRegistry) (graph graph' : Graph) : Prop extends Relinks graph graph' where
  evaluable : Evaluable hints graph'
  words : ∀ σ, ∀ w < graph.wires.length, wordsOf hints graph' σ w = wordsOf hints graph σ w
  inputs : ∀ σ, List.Forall₂ (fun g g' : GateData =>
    g'.inputs.map (wordsOf hints graph' σ) = g.inputs.map (wordsOf hints graph σ)) graph.gates graph'.gates

namespace Preserves

theorem refl (h : Evaluable hints graph) : Preserves hints graph graph where
  kinds _ _ hw := hw
  gates := forall₂_same.mpr fun _ _ => ⟨rfl,rfl⟩
  evaluable := h
  words _ _ _ := rfl
  inputs _ := forall₂_same.mpr fun _ _ => rfl

theorem trans (h : Preserves hints graph graph') (h' : Preserves hints graph' final) :
    Preserves hints graph final where
  kinds w kind hw := h'.kinds w kind (h.kinds w kind hw)
  gates := forall₂_comp (fun g g' g'' hg hg' =>
    ⟨by rw [hg'.rest,hg.rest],hg'.length.trans hg.length⟩) h.gates h'.gates
  evaluable := h'.evaluable
  words σ w hw := (h'.words σ w (hw.trans_le h.toRelinks.wires_le)).trans (h.words σ w hw)
  inputs σ := forall₂_comp (fun _ _ _ hg hg' => hg'.trans hg) (h.inputs σ) (h'.inputs σ)

theorem of_forwarded (h : Evaluable hints graph)
    (hforwarded : Forwarded hints graph (HoldsConstants graph') graph') : Preserves hints graph graph' where
  toRelinks := hforwarded.relinks
  evaluable := hforwarded.evaluable h
  words σ _ hw := evaluate_withConstants h hforwarded σ hw
  inputs σ := by
    refine forall₂_iff_get.mpr ⟨hforwarded.gates.length_eq,fun i hi hi' => ?_⟩
    exact (inputs_withConstants h hforwarded (get_mem ..) (hforwarded.gates.get hi hi') σ).symm

theorem accepts_iff (h : Preserves hints graph graph') (σ : Wire → Word) :
    Accepts hints graph' σ ↔ Accepts hints graph σ := by
  have hgate (i : GateId) (hi : i < graph.gates.length) (hi' : i < graph'.gates.length) :
      Passes hints graph'.gates[i] (graph'.gates[i].inputs.map (wordsOf hints graph' σ)) ↔
        Passes hints graph.gates[i] (graph.gates[i].inputs.map (wordsOf hints graph σ)) := by
    have hrest := (h.gates.get hi hi').rest
    have hinputs := (h.inputs σ).get hi hi'
    simp only [get_eq_getElem] at hrest hinputs
    have hsame := @evaluate_congr hints graph.gates[i] graph'.gates[i] (by rw [hrest]) (by rw [hrest])
      (by rw [hrest])
    rw [hinputs,Passes,Passes]
    exact exists_congr fun outs => by rw [Evaluates,Evaluates,hsame]
  rw [Accepts,Accepts,forall_mem_iff_getElem,forall_mem_iff_getElem]
  have hlen := h.gates.length_eq
  exact ⟨fun hall i hi => (hgate i hi (hlen ▸ hi)).mp (hall i (hlen ▸ hi)),
    fun hall i hi => (hgate i (hlen ▸ hi) hi).mpr (hall i (hlen ▸ hi))⟩

end Preserves

theorem propagated_preserves {total : ℕ} (h : Evaluable hints graph)
    (hout : Outcome hints graph (.ok (final,total))) : Preserves hints graph final := by
  cases hout with
  | propagated hlinks hfinal hwords hreplaced =>
    refine ⟨hlinks,hfinal,hwords,fun σ => forall₂_iff_get.mpr ⟨hlinks.gates.length_eq,fun i hi hi' => ?_⟩⟩
    have hlink := hlinks.gates.get hi hi'
    refine ext_getElem (by rw [length_map,length_map,hlink.length]) fun p hp hp' => ?_
    rw [length_map] at hp hp'
    rw [getElem_map,getElem_map]
    by_cases hsame : (final.gates.get ⟨i,hi'⟩).inputs[p] = (graph.gates.get ⟨i,hi⟩).inputs[p]
    · rw [hsame]
      have hread := mem_append_right (graph.gates.get ⟨i,hi⟩).constants (getElem_mem hp')
      exact hwords σ _ (h.inside _ (get_mem ..) _ (GateData.mem_wires.mpr (.inl hread)))
    · obtain ⟨word,hword,hall⟩ := hreplaced i _ _ (getElem?_eq_getElem hi) (getElem?_eq_getElem hi') p _ _
        (getElem?_eq_getElem hp') (getElem?_eq_getElem hp) hsame
      exact (hfinal.holdsConstants (withConstants_holds final σ) _ word hword).trans (hall σ).symm

theorem zeroPropagation_preserves (h : Evaluable hints graph) (pinned : EntitySet) :
    ∃ r : Graph × ℕ, (∀ steps, readLevels (level graph) graph.gates < steps →
      zeroPropagation graph pinned steps = some r) ∧ Preserves hints graph r.1 := by
  cases hfind : graph.findConstant 0 with
  | none => exact ⟨(graph,0),fun _ _ => by rw [zeroPropagation,hfind],.refl h⟩
  | some zeroWire =>
    have hstart : SweepInv hints graph (graph,0) := ⟨Forwarded.refl h _,rfl⟩
    obtain ⟨r,hswept,hsteps⟩ := loop_ends
      (@sweep_progress _ _ pinned _ h (constOf_findConstant hfind)) hstart
    refine ⟨r,fun steps hlt => ?_,.of_forwarded h ?_⟩
    · rw [zeroPropagation,hfind]
      exact hsteps steps hlt
    · exact holdsConstants_congr hswept.wires ▸ hswept.forwarded

/-- The gates collapsed into others put out no observable wire and no gate reads what they write. -/
structure Collapsed (graph : Graph) (pinned : EntitySet) (dead : List GateId) : Prop where
  unobserved : ∀ j ∈ dead, ∀ g, graph.gates[j]? = some g → ∀ w ∈ g.outputs, isObservable graph pinned w = false
  unread : ∀ g ∈ graph.gates, ∀ w ∈ g.reads, ∀ j ∈ dead, ∀ g', graph.gates[j]? = some g' → w ∉ g'.writes
  twin : ∀ j ∈ dead, ∀ g, graph.gates[j]? = some g →
    ∃ k, k ∉ dead ∧ ∃ g', graph.gates[k]? = some g' ∧ structureOf g = structureOf g'

theorem dedupGates_preserves (h : Evaluable hints graph) (pinned : EntitySet) :
    Preserves hints graph (dedupGates graph pinned).graph ∧
      Collapsed (dedupGates graph pinned).graph pinned (dedupGates graph pinned).dead := by
  have hinv := dedupInv_run h pinned
  generalize dedupGates graph pinned = s at hinv
  have hold {i : GateId} {g : GateData} (hg : s.graph.gates[i]? = some g) :
      ∃ p, graph.gates[i]? = some p ∧ readThrough (canonicalWire s.remap) p = g := by
    rw [hinv.gates_eq,getElem?_map] at hg
    exact Option.map_eq_some_iff.mp hg
  have hwith (σ : Wire → Word) : wordsOf hints s.graph σ = wordsOf hints graph σ := by
    have hconst : withConstants s.graph σ = withConstants graph σ := funext fun w => by
      rw [withConstants,withConstants,constOf_congr hinv.wires]
    rw [wordsOf,wordsOf,hinv.evaluate_eq h,hconst]
  refine ⟨⟨hinv.relinks,hinv.evaluable h,fun σ w _ => by rw [hwith],fun σ => ?_⟩,⟨?_,?_,?_⟩⟩
  · rw [hwith,hinv.gates_eq,forall₂_map_right_iff,forall₂_same]
    exact fun g _ => (map_map ..).trans (map_congr_left fun w _ => hinv.word _ w)
  · intro j hj g hg w hw
    obtain ⟨p,hp,rfl⟩ := hold hg
    obtain ⟨-,q,hq,hout⟩ := hinv.removed j hj
    obtain rfl := Option.some.inj (hp.symm.trans hq)
    rw [isObservable,Graph.isInout,hinv.wires]
    exact (hout w hw).1
  · intro g hg w hw j hj g' hg'
    obtain ⟨p,hp,rfl⟩ := hold hg'
    have hfree := hinv.reads_kept h hg hw hj hp
    exact hfree
  · intro j hj g hg
    obtain ⟨p,hp,rfl⟩ := hold hg
    obtain ⟨k,-,hk,q,q',hq,hq',hsame⟩ := hinv.merged j hj
    obtain rfl := Option.some.inj (hp.symm.trans hq)
    exact ⟨k,hk,_,by rw [hinv.gates_eq,getElem?_map,hq',Option.map_some],hsame⟩

/-- Gates whose constraints the constraints of the gates kept imply. -/
structure Dropped (graph : Graph) (pinned : EntitySet) (keep : GateId → Bool) : Prop where
  unread : ∀ g ∈ gatesAt graph keep, ∀ w ∈ g.reads, ∀ g' ∈ deadGates graph keep, w ∉ g'.writes
  unobserved : ∀ g ∈ deadGates graph keep, ∀ w ∈ g.outputs, isObservable graph pinned w = false
  twin : ∀ g ∈ deadGates graph keep, g.outputs = [] → ∃ g' ∈ gatesAt graph keep, structureOf g = structureOf g'

theorem emitted_dropped {dead : List GateId} {live : Option (List GateId)} (h : Evaluable hints graph)
    (hdead : Collapsed graph pinned dead)
    (hlive : ClosedGates graph pinned fun i => live.all fun live => decide (i ∈ live)) :
    Dropped graph pinned (emitted dead live) := by
  have hkept {i : GateId} : emitted dead live i = true ↔ i ∉ dead ∧ (live.all fun live => decide (i ∈ live)) = true := by
    rw [emitted,Bool.and_eq_true,decide_eq_true_iff]
  have hleft {i : GateId} {g : GateData} (hi : emitted dead live i = false) (hg : graph.gates[i]? = some g) :
      i ∈ dead ∨ g.outputs ≠ [] ∧ ∀ w ∈ g.outputs, isObservable graph pinned w = false := by
    rw [←Bool.not_eq_true,hkept,not_and_or,not_not] at hi
    refine hi.imp_right fun hlost => ⟨fun hnil => hlost (hlive.anchored i ⟨g,hg,.inl hnil⟩),fun w hw => ?_⟩
    rw [←Bool.not_eq_true]
    exact fun hobs => hlost (hlive.anchored i ⟨g,hg,.inr ⟨w,mem_append_left _ hw,hobs⟩⟩)
  refine ⟨fun g hg w hw g' hg' hwrites => ?_,fun g hg w hw => ?_,fun g hg hnil => ?_⟩
  · obtain ⟨i,hi,hkeep⟩ := mem_gatesAt.mp hg
    obtain ⟨j,hj,hlost⟩ := mem_deadGates.mp hg'
    have hj' : j ∉ dead := fun hdj => hdead.unread g (mem_of_getElem? hi) w hw j hdj g' hj hwrites
    have hout := (h.writer_of_read hi hj hw hwrites).2
    rcases mem_append.mp hw with hconst | hin
    · obtain ⟨word,hword⟩ := h.constOf_constant (mem_of_getElem? hi) hconst
      exact h.unwritten w word hword g' (mem_of_getElem? hj) hwrites
    · have hfeeds := hlive.feeds j i ⟨g',g,hj,hi,w,hin,mem_append_left _ hout⟩ (hkept.mp hkeep).2
      rw [hkept.mpr ⟨hj',hfeeds⟩] at hlost
      cases hlost
  · obtain ⟨i,hi,hlost⟩ := mem_deadGates.mp hg
    rcases hleft hlost hi with hd | hfree
    · exact hdead.unobserved i hd g hi w hw
    · exact hfree.2 w hw
  · obtain ⟨i,hi,hlost⟩ := mem_deadGates.mp hg
    obtain ⟨k,hk,g',hg',hsame⟩ := hdead.twin i ((hleft hlost hi).resolve_right fun hfree => hfree.1 hnil) g hi
    have hlen := outputs_length_of_structure (h.fits g (mem_of_getElem? hi)) (h.fits g' (mem_of_getElem? hg')) hsame
    rw [hnil] at hlen
    have hnil' := length_eq_zero_iff.mp hlen.symm
    exact ⟨g',mem_gatesAt.mpr ⟨k,hg',hkept.mpr ⟨hk,hlive.anchored k ⟨g',hg',.inl hnil'⟩⟩⟩,hsame⟩

/-- Only the gate itself knows its auxiliary and scratch wires. -/
def Private (graph : Graph) (pinned : EntitySet) : Prop :=
  ∀ g ∈ graph.gates, ∀ w ∈ g.aux ++ g.scratch, isObservable graph pinned w = false

/-- The outputs of hints hold what the hints compute. -/
def Honest (hints : HintRegistry) (graph : Graph) (σ : Wire → Word) : Prop :=
  ∀ g ∈ graph.gates, ∀ id, g.body = .hint id → Evaluates hints g (g.inputs.map σ) (g.outputs.map σ)

section Completion

variable {g : GateData} {σ : Wire → Word} {keep : GateId → Bool}

theorem meets_evaluates (hg : Fits hints g) {opcode : Opcode} (hop : g.body = .op opcode)
    (hconst : ConstantsHold hints g σ) (hmeets : Meets g σ) :
    Evaluates hints g (g.inputs.map σ) (g.outputs.map σ) := by
  obtain ⟨d,hconstrain,hd⟩ := constrain_ok hg.shaped hop
  obtain ⟨d',hd',hholds⟩ := hmeets
  rw [hconstrain,append_new_left,Except.ok.injEq] at hd'
  exact hd.sound σ hconst (hd' ▸ hholds)

theorem evaluates_of_written (hg : Fits hints g) (hpass : Passes hints g (g.inputs.map σ))
    (hw : g.writes.map σ = written hints g (g.inputs.map σ)) :
    Evaluates hints g (g.inputs.map σ) (g.outputs.map σ) := by
  obtain ⟨outs,he⟩ := hpass
  have hlen := evaluates_length hg.shaped (length_map _) he
  rw [he.written_eq,GateData.writes,append_assoc,map_append] at hw
  rw [(append_inj hw (by rw [length_map,hlen])).1]
  exact he

/-- Running the gates left out turns a solution for the gates kept into one for all. -/
structure Completes (hints : HintRegistry) (graph : Graph) (keep : GateId → Bool) (σ ρ : Wire → Word) : Prop where
  same : ∀ w, (∀ g ∈ deadGates graph keep, w ∉ g.writes) → ρ w = σ w
  constants : HoldsConstants graph ρ
  meets : ∀ g ∈ graph.gates, Meets g ρ
  kept : ∀ g ∈ gatesAt graph keep, ∀ w ∈ g.reads ++ g.outputs ++ g.aux, ρ w = σ w
  dead : ∀ g ∈ deadGates graph keep, Evaluates hints g (g.inputs.map ρ) (g.outputs.map ρ)

theorem unwritten_of_kept (h : Evaluable hints graph) (hdrop : Dropped graph pinned keep)
    (hg : g ∈ gatesAt graph keep) {w : Wire} (hw : w ∈ g.reads ++ g.outputs ++ g.aux) :
    ∀ g' ∈ deadGates graph keep, w ∉ g'.writes := by
  intro g' hg' hwrites
  rw [append_assoc] at hw
  rcases mem_append.mp hw with hread | hdef
  · exact hdrop.unread g hg w hread g' hg' hwrites
  · obtain ⟨i,hi,hkeep⟩ := mem_gatesAt.mp hg
    obtain ⟨j,hj,hlost⟩ := mem_deadGates.mp hg'
    rw [h.writer_unique hi hj (mem_writes_of_defines hdef) hwrites,hlost] at hkeep
    cases hkeep

/-- A gate left out passes: it has outputs, or the twin that is kept asserts the same. -/
theorem passes_of_dead (h : Evaluable hints graph) (hdrop : Dropped graph pinned keep)
    (hσ : HoldsConstants graph σ) (hmeets : ∀ g ∈ gatesAt graph keep, Meets g σ)
    (hg : g ∈ deadGates graph keep) : Passes hints g (g.inputs.map σ) := by
  have hfits := h.fits g ((gatesAt_sublist graph fun i => !keep i).subset hg)
  by_cases hnil : g.outputs = []
  · obtain ⟨g',hg',htwin⟩ := hdrop.twin g hg hnil
    have hmem' := (gatesAt_sublist graph keep).subset hg'
    obtain ⟨outs,houts⟩ : Passes hints g' (g'.inputs.map σ) := by
      cases hbody : g'.body with
      | op opcode => exact ⟨_,meets_evaluates (h.fits g' hmem') hbody (h.constantsHold hσ hmem') (hmeets g' hg')⟩
      | hint id =>
        exact ⟨(hints id).execute g'.dimensions (g'.inputs.map σ),by rw [Evaluates,evaluateGateConstants,hbody]; rfl⟩
    obtain ⟨hbody,-,himm,hdim⟩ := GateStructure.mk.inj htwin
    refine ⟨outs,?_⟩
    rw [inputs_of_structure hfits (h.fits g' hmem') htwin]
    exact (evaluate_congr hbody himm hdim _).trans houts
  · exact passes_of_outputs hfits.shaped hnil (length_map _)

theorem completion (h : Evaluable hints graph) (hdrop : Dropped graph pinned keep) (hσ : HoldsConstants graph σ)
    (hmeets : ∀ g ∈ gatesAt graph keep, Meets g σ) :
    Completes hints graph keep σ (run (program hints (deadGates graph keep)) σ) := by
  have hsub := gatesAt_sublist graph fun i => !keep i
  have hsolves := run_solves h.ordered hsub σ
  have hsame : ∀ w, (∀ g ∈ deadGates graph keep, w ∉ g.writes) →
      run (program hints (deadGates graph keep)) σ w = σ w := fun w hw => run_unwritten hw σ
  change Solves hints (deadGates graph keep) (run (program hints (deadGates graph keep)) σ) at hsolves
  generalize run (program hints (deadGates graph keep)) σ = ρ at hsolves hsame
  have hconst : HoldsConstants graph ρ := fun w word hc =>
    (hsame w fun g hg => h.unwritten w word hc g (hsub.subset hg)).trans (hσ w word hc)
  have hkept : ∀ g ∈ gatesAt graph keep, ∀ w ∈ g.reads ++ g.outputs ++ g.aux, ρ w = σ w :=
    fun g hg w hw => hsame w (unwritten_of_kept h hdrop hg hw)
  have hkeeps : ∀ g ∈ gatesAt graph keep, Meets g ρ := by
    intro g hg
    obtain ⟨d,hd⟩ := contribution_ok (h.fits g ((gatesAt_sublist graph keep).subset hg))
    exact hd.meets_iff.mpr (hd.agree σ ρ (hkept g hg) (hd.meets_iff.mp (hmeets g hg)))
  have hpasses : ∀ g ∈ deadGates graph keep, Passes hints g (g.inputs.map ρ) := fun g hg =>
    passes_of_dead h hdrop hconst hkeeps hg
  refine ⟨hsame,hconst,fun g hg => ?_,hkept,fun g hg => ?_⟩
  · obtain ⟨i,hi⟩ := mem_iff_getElem?.mp hg
    cases hkeep : keep i with
    | true => exact hkeeps g (mem_gatesAt.mpr ⟨i,hi,hkeep⟩)
    | false =>
      have hdead := mem_deadGates.mpr ⟨i,hi,hkeep⟩
      obtain ⟨d,hd⟩ := contribution_ok (h.fits g hg)
      exact hd.meets_iff.mpr (hd.complete ρ (h.constantsHold hconst hg) (hpasses g hdead) (hsolves g hdead))
  · exact evaluates_of_written (h.fits g (hsub.subset hg)) (hpasses g hg) (hsolves g hg)

theorem Completes.unwritten {ρ : Wire → Word} (h : Completes hints graph keep σ ρ)
    (hdrop : Dropped graph pinned keep) (hpriv : Private graph pinned) {w : Wire} (hw : w ∈ observed graph pinned) :
    ρ w = σ w := by
  refine h.same w fun g hg hwrites => ?_
  have hmem := (gatesAt_sublist graph fun i => !keep i).subset hg
  rcases hw with hobs | hfree
  · rw [GateData.writes,append_assoc] at hwrites
    rcases mem_append.mp hwrites with hout | hown
    · exact Bool.false_ne_true ((hdrop.unobserved g hg w hout).symm.trans hobs)
    · exact Bool.false_ne_true ((hpriv g hmem w hown).symm.trans hobs)
  · exact hfree g hmem hwrites

/-- Where hints are honest, a solution for the gates kept holds the words that the graph computes. -/
theorem Completes.computed {ρ : Wire → Word} (hgraph : Evaluable hints graph) (h : Completes hints graph keep σ ρ)
    (hhonest : Honest hints graph σ) :
    (∀ g ∈ graph.gates, ∀ w ∈ g.reads ++ g.outputs, evaluate hints graph σ w = ρ w) ∧
      ∀ g ∈ graph.gates, Passes hints g (g.inputs.map (evaluate hints graph σ)) := by
  have hevaluates : ∀ g ∈ graph.gates, Evaluates hints g (g.inputs.map ρ) (g.outputs.map ρ) := by
    intro g hg
    cases hbody : g.body with
    | op opcode => exact meets_evaluates (hgraph.fits g hg) hbody (hgraph.constantsHold h.constants hg) (h.meets g hg)
    | hint id =>
      obtain ⟨i,hi⟩ := mem_iff_getElem?.mp hg
      cases hkeep : keep i with
      | false => exact h.dead g (mem_deadGates.mpr ⟨i,hi,hkeep⟩)
      | true =>
        have hkept := h.kept g (mem_gatesAt.mpr ⟨i,hi,hkeep⟩)
        simp only [GateData.reads,forall_mem_append] at hkept
        rw [map_congr_left hkept.1.1.2,map_congr_left hkept.1.2]
        exact hhonest g hg id hbody
  have hread : ∀ (i : GateId) g, graph.gates[i]? = some g → ∀ w ∈ g.reads, evaluate hints graph σ w = ρ w := by
    intro i
    induction i using Nat.strong_induction_on with
    | _ i ih =>
      intro g hg w hw
      rcases hgraph.sourced i g hg w hw with hfree | ⟨j,hj,g',hg',hout⟩
      · rw [h.same w fun g' hg' => hfree g' ((gatesAt_sublist graph _).subset hg')]
        exact run_unwritten hfree σ
      · have hmem := mem_of_getElem? hg'
        have he := hevaluates g' hmem
        rw [←map_congr_left fun v hv => ih j hj g' hg' v (mem_append_right _ hv)] at he
        exact map_inj_left.mp (hgraph.outputs_eq σ hmem he) w hout
  have hreads : ∀ g ∈ graph.gates, ∀ w ∈ g.reads, evaluate hints graph σ w = ρ w := by
    intro g hg
    obtain ⟨i,hi⟩ := mem_iff_getElem?.mp hg
    exact hread i g hi
  have hinputs (g : GateData) (hg : g ∈ graph.gates) : g.inputs.map (evaluate hints graph σ) = g.inputs.map ρ :=
    map_congr_left fun w hw => hreads g hg w (mem_append_right _ hw)
  refine ⟨fun g hg w hw => ?_,fun g hg => ⟨_,hinputs g hg ▸ hevaluates g hg⟩⟩
  rcases mem_append.mp hw with hr | hout
  · exact hreads g hg w hr
  · exact map_inj_left.mp (hgraph.outputs_eq σ hg (hinputs g hg ▸ hevaluates g hg)) w hout

end Completion

/-- What a build leaves of a graph. -/
structure Compiled (hints : HintRegistry) (graph : Graph) (pinned : EntitySet) (final : Graph)
    (builder : ConstraintBuilder) : Prop where
  /-- The words of the graph stay what they are, and so do the gates' verdicts. -/
  preserves : Preserves hints graph final
  complete : ∀ σ, Accepts hints graph σ → builder.Holds (wordsOf hints final σ)
  /-- Words that satisfy the constraints, hints being honest, are accepted words. -/
  sound : ∀ σ ∈ solutions final builder, Honest hints final σ →
    Accepts hints graph σ ∧ ∀ w ∈ observed final pinned, σ w = wordsOf hints final σ w
  /-- The constraints of all gates allow the same observed words. -/
  lossless : ∃ all, constrainGates final.gates = .ok all ∧
    ∀ σ ∈ solutions final builder, ∃ τ ∈ solutions final all, ∀ w ∈ observed final pinned, τ w = σ w

theorem compiled_of_dropped {keep : GateId → Bool} (h : Preserves hints graph final)
    (hdrop : Dropped final pinned keep) (hpriv : Private final pinned) :
    ∃ builder, constrainGates (gatesAt final keep) = .ok builder ∧ Compiled hints graph pinned final builder := by
  have hfinal := h.evaluable
  have hsub := gatesAt_sublist final keep
  obtain ⟨builder,hbuilder,hholds⟩ := @constrainGates_ok hints (gatesAt final keep) fun g hg =>
    hfinal.fits g (hsub.subset hg)
  obtain ⟨all,hall,hallHolds⟩ := constrainGates_ok hfinal.fits
  refine ⟨builder,hbuilder,⟨h,fun σ haccept => ?_,fun σ hσ hhonest => ?_,all,hall,fun σ hσ => ?_⟩⟩
  · have hpasses := (h.accepts_iff σ).mpr haccept
    have hconst := hfinal.holdsConstants (withConstants_holds final σ)
    refine (hholds _).mpr fun g hg => ?_
    have hmem := hsub.subset hg
    obtain ⟨d,hd⟩ := contribution_ok (hfinal.fits g hmem)
    exact hd.meets_iff.mpr (hd.complete _ (hfinal.constantsHold hconst hmem) (hpasses g hmem)
      (hfinal.solves _ g hmem))
  · have hcomplete := completion hfinal hdrop hσ.1 ((hholds σ).mp hσ.2)
    have hsame : withConstants final σ = σ := funext fun w => by
      rw [withConstants]
      cases hc : final.constOf w with
      | none => rfl
      | some word => exact (hσ.1 w word hc).symm
    obtain ⟨hwords,hpasses⟩ := hcomplete.computed hfinal hhonest
    rw [←h.accepts_iff,Accepts,wordsOf,hsame]
    refine ⟨hpasses,fun w hw => ?_⟩
    by_cases hfree : ∀ g ∈ final.gates, w ∉ g.writes
    · exact (run_unwritten hfree σ).symm
    · simp only [not_forall,not_not] at hfree
      obtain ⟨g,hg,hwrites⟩ := hfree
      rw [GateData.writes,append_assoc] at hwrites
      rcases mem_append.mp hwrites with hout | hown
      · rw [hwords g hg w (mem_append_right _ hout),hcomplete.unwritten hdrop hpriv hw]
      · rcases hw with hobs | hfree
        · exact absurd ((hpriv g hg w hown).symm.trans hobs) Bool.false_ne_true
        · exact absurd (mem_append_right _ hown) (by rw [←append_assoc]; exact hfree g hg)
  · have hcomplete := completion hfinal hdrop hσ.1 ((hholds σ).mp hσ.2)
    exact ⟨_,⟨hcomplete.constants,(hallHolds _).mpr hcomplete.meets⟩,fun w hw => hcomplete.unwritten hdrop hpriv hw⟩

theorem Preserves.keepsPrivate (hgraph : Evaluable hints graph) (h : Preserves hints graph final)
    (hpriv : Private graph pinned) : Private final pinned := by
  intro g' hg' w hw
  obtain ⟨i,hi⟩ := mem_iff_getElem?.mp hg'
  obtain ⟨g,hg,hlink⟩ := h.toRelinks.gate_at hi
  have hmem := mem_of_getElem? hg
  have hown : w ∈ g.aux ++ g.scratch := by rwa [hlink.rest] at hw
  have hlt := hgraph.inside g hmem w (GateData.mem_wires.mpr (.inr (by
    rw [GateData.writes,append_assoc]
    exact mem_append_right _ hown)))
  have hkind := h.kinds w _ (getElem?_eq_getElem hlt)
  have hold := hpriv g hmem w hown
  rw [isObservable,Graph.isInout,getElem?_eq_getElem hlt] at hold
  rw [isObservable,Graph.isInout,hkind]
  exact hold

/-- Enough rounds lead to the result. -/
def Ends {R : Type} (run : ℕ → Option R) (result : R) : Prop :=
  ∃ bound, ∀ steps, bound < steps → run steps = some result

theorem propagateConstants_ends (h : Evaluable hints graph) (opts : Options) :
    ∃ result, Ends (propagateConstants hints opts · graph) (.ok result) ∧
      (∀ failing, result = .error failing → opts.enableConstantPropagation = true ∧
        ∃ g, graph.gates[failing.gate]? = some g ∧ ∀ σ, ¬Passes hints g (g.inputs.map (wordsOf hints graph σ))) ∧
      ∀ mid total, result = .ok (mid,total) → Preserves hints graph mid := by
  simp only [propagateConstants]
  cases opts.enableConstantPropagation with
  | true =>
    obtain ⟨_,⟨result,rfl,hout⟩,hsteps⟩ := loop_ends (propagate_progress h) (propagateInv_start h)
    refine ⟨result,⟨_,hsteps⟩,fun failing hr => ?_,fun mid total hr => ?_⟩
    · rw [hr] at hout
      cases hout with
      | failing hg hfails => exact ⟨rfl,_,hg,hfails⟩
    · rw [hr] at hout
      exact propagated_preserves h hout
  | false =>
    refine ⟨.ok (graph,0),⟨0,fun _ _ => rfl⟩,by simp,fun mid total hr => ?_⟩
    cases hr
    exact .refl h

theorem propagateZeros_ends (h : Evaluable hints graph) (opts : Options) (pinned : EntitySet) :
    ∃ r, Ends (propagateZeros opts pinned · graph) r ∧ Preserves hints graph r.1 := by
  simp only [propagateZeros]
  cases opts.enableZeroPropagation with
  | true =>
    obtain ⟨r,hsteps,hr⟩ := zeroPropagation_preserves h pinned
    exact ⟨r,⟨_,hsteps⟩,hr⟩
  | false => exact ⟨(graph,0),⟨0,fun _ _ => rfl⟩,.refl h⟩

theorem collapse_preserves (h : Evaluable hints graph) (opts : Options) (pinned : EntitySet) :
    Preserves hints graph (collapse opts pinned graph).graph ∧
      Collapsed (collapse opts pinned graph).graph pinned (collapse opts pinned graph).dead := by
  rw [collapse]
  cases opts.enableCommonSubexpressionElimination with
  | true => exact dedupGates_preserves h pinned
  | false => exact ⟨.refl h,⟨by simp,by simp,by simp⟩⟩

theorem findLive_ends (h : Evaluable hints graph) (opts : Options) (pinned : EntitySet) :
    ∃ live, Ends (findLive opts pinned · graph) live ∧
      ClosedGates graph pinned fun i => live.all fun live => decide (i ∈ live) := by
  simp only [findLive]
  cases opts.enableDeadCodeElimination with
  | true =>
    obtain ⟨live,hsteps,hreach⟩ := liveGates_ends h pinned
    refine ⟨some live,⟨_,fun steps hlt => congrArg (Option.map some) (hsteps steps hlt)⟩,⟨fun i hi => ?_,?_⟩⟩
    · exact decide_eq_true ((hreach i).mpr ⟨i,hi,.refl⟩)
    · intro i j hfeeds hj
      obtain ⟨root,hroot,hpath⟩ := (hreach j).mp (of_decide_eq_true hj)
      exact decide_eq_true ((hreach i).mpr ⟨root,hroot,hpath.head hfeeds⟩)
  | false => exact ⟨none,⟨0,fun _ _ => rfl⟩,⟨fun _ _ => rfl,fun _ _ _ _ => rfl⟩⟩

/-- A build ends without a panic. Either a gate fails whatever the given words are, or the constraints hold of
the words of every accepted assignment, and with honest hints of no other. -/
theorem compile_exact (h : Evaluable hints graph) (hpriv : Private graph pinned) (opts : Options) :
    (opts.enableConstantPropagation = true ∧
      ∃ failing g, Ends (compile hints opts pinned · graph) (.ok (.error failing)) ∧
        graph.gates[failing.gate]? = some g ∧ ∀ σ, ¬Passes hints g (g.inputs.map (wordsOf hints graph σ))) ∨
    ∃ final builder, Ends (compile hints opts pinned · graph) (.ok (.ok (final,builder))) ∧
      Compiled hints graph pinned final builder := by
  obtain ⟨result,⟨bound,hbound⟩,hfailing,hpropagated⟩ := propagateConstants_ends h opts
  dsimp only at hbound
  rcases result with failing | ⟨mid,total⟩
  · obtain ⟨henabled,g,hg,hfails⟩ := hfailing failing rfl
    refine .inl ⟨henabled,failing,g,⟨bound,fun steps hlt => ?_⟩,hg,hfails⟩
    change compile hints opts pinned steps graph = _
    rw [compile,hbound steps hlt]
    rfl
  · have hmid := hpropagated mid total rfl
    obtain ⟨r,⟨bound',hzero⟩,hr⟩ := propagateZeros_ends hmid.evaluable opts pinned
    obtain ⟨hlink,hcollapsed⟩ := collapse_preserves hr.evaluable opts pinned
    obtain ⟨live,⟨bound'',hlive⟩,hclosed⟩ := findLive_ends hlink.evaluable opts pinned
    dsimp only at hzero hlive
    have hall := (hmid.trans hr).trans hlink
    obtain ⟨builder,hbuilder,hcompiled⟩ := compiled_of_dropped hall
      (emitted_dropped hlink.evaluable hcollapsed hclosed) (hall.keepsPrivate h hpriv)
    refine .inr ⟨_,builder,⟨max bound (max bound' bound''),fun steps hlt => ?_⟩,hcompiled⟩
    rw [max_lt_iff,max_lt_iff] at hlt
    change compile hints opts pinned steps graph = _
    rw [compile,hbound steps hlt.1,Option.bind_some]
    dsimp only
    rw [hzero steps hlt.2.1,Option.bind_some,hlive steps hlt.2.2,Option.map_some,hbuilder]
    rfl

/-- Two equal gates and two assertions, with the default passes. -/
theorem compile_exact_twins : ∃ final builder,
    Compiled (fun _ => ⟨fun _ => (0,0),fun _ _ => [],fun _ _ => rfl⟩) twins [] final builder := by
  rcases compile_exact (twins_evaluable fun _ => ⟨fun _ => (0,0),fun _ _ => [],fun _ _ => rfl⟩)
    (show Private twins [] by unfold Private; decide) .default with ⟨henabled,-⟩ | ⟨final,builder,-,h⟩
  · cases henabled
  · exact ⟨final,builder,h⟩

end Binius64.Compilation
