import Binius64.ScratchPooling

/-!
# Evaluating a graph over its wires

A graph whose gates read what no gate writes or what gates before them put out has one evaluation.
-/

namespace Binius64.GraphEvaluation

open MachineWord StraightLine WireConstraints EvalForm GateGraph GateKinds GateSemantics GateConstraints
open List GraphInvariant ScratchAlloc ScratchPooling

/-- What evaluation needs of a graph, whatever the kinds of its wires. -/
structure Evaluable (hints : HintRegistry) (graph : Graph) : Prop where
  fits : ∀ g ∈ graph.gates, Fits hints g
  distinct : (graph.gates.flatMap GateData.writes).Nodup
  constants : ∀ g ∈ graph.gates, g.constants.map graph.constOf = (g.shape hints).constIn.map some
  unwritten : ∀ w word, graph.constOf w = some word → ∀ g ∈ graph.gates, w ∉ g.writes
  inside : ∀ g ∈ graph.gates, ∀ w ∈ g.wires, w < graph.wires.length
  /-- A gate reads what no gate writes and outputs of gates before it. -/
  sourced : ∀ (i : GateId) g, graph.gates[i]? = some g → ∀ w ∈ g.reads,
    (∀ g' ∈ graph.gates, w ∉ g'.writes) ∨ ∃ j < i, ∃ g', graph.gates[j]? = some g' ∧ w ∈ g'.outputs

def HoldsConstants (graph : Graph) (σ : Wire → Word) : Prop :=
  ∀ w word, graph.constOf w = some word → σ w = word

def evaluate (hints : HintRegistry) (graph : Graph) (σ : Wire → Word) : Wire → Word :=
  run (program hints graph.gates) σ

def Solves (hints : HintRegistry) (gates : List GateData) (σ : Wire → Word) : Prop :=
  ∀ g ∈ gates, g.writes.map σ = written hints g (g.inputs.map σ)

def isObservable (graph : Graph) (pinned : EntitySet) (w : Wire) : Bool :=
  graph.isInout w || pinned.contains w

def gatesAt (graph : Graph) (keep : GateId → Bool) : List GateData :=
  (graph.gates.zipIdx.filter fun p => keep p.2).map Prod.fst

variable {hints : HintRegistry} {graph graph' : Graph}

theorem constOf_congr (h : graph'.wires = graph.wires) : graph'.constOf = graph.constOf := by
  funext w
  rw [Graph.constOf,Graph.constOf,h]

theorem holdsConstants_congr (h : graph'.wires = graph.wires) : HoldsConstants graph' = HoldsConstants graph := by
  funext σ
  rw [HoldsConstants,HoldsConstants,constOf_congr h]

variable {g : GateData} {gates : List GateData} {σ : Wire → Word} {w : Wire}

theorem mem_gatesAt {keep : GateId → Bool} :
    g ∈ gatesAt graph keep ↔ ∃ i, graph.gates[i]? = some g ∧ keep i = true := by
  simp only [gatesAt,mem_map,mem_filter,Prod.exists,exists_and_right,exists_eq_right,
    mk_mem_zipIdx_iff_getElem?]

theorem gatesAt_sublist (graph : Graph) (keep : GateId → Bool) :
    (gatesAt graph keep).Sublist graph.gates := by
  have hsub := (filter_sublist (p := fun p => keep p.2) (l := graph.gates.zipIdx)).map Prod.fst
  rw [zipIdx_map_fst] at hsub
  exact hsub

theorem evaluable_of_wellFormed (h : WellFormed hints graph) : Evaluable hints graph where
  fits := h.fits
  distinct := h.distinct
  constants := h.constants
  unwritten _ _ hc := (h.constant_unwritten hc).unwritten
  inside _ hg _ hw := h.wire_lt hg hw
  sourced i g hg w hw := (h.readable i g hg w hw).imp_left Declared.unwritten

namespace Evaluable

variable {g : GateData} {w : Wire}

theorem writer_unique (h : Evaluable hints graph) {i j : GateId} {g' : GateData}
    (hi : graph.gates[i]? = some g) (hj : graph.gates[j]? = some g') (hw : w ∈ g.writes)
    (hw' : w ∈ g'.writes) : i = j := by
  obtain ⟨hil,hig⟩ := List.getElem?_eq_some_iff.mp hi
  obtain ⟨hjl,hjg⟩ := List.getElem?_eq_some_iff.mp hj
  have hpair := pairwise_iff_getElem.mp (nodup_flatMap.mp h.distinct).2
  rcases Nat.lt_trichotomy i j with hlt | heq | hlt
  · exact absurd (hjg ▸ hw') (hpair i j hil hjl hlt (hig ▸ hw))
  · exact heq
  · exact absurd (hig ▸ hw) (hpair j i hjl hil hlt (hjg ▸ hw'))

theorem writer_of_read (h : Evaluable hints graph) {i j : GateId} {g' : GateData}
    (hi : graph.gates[i]? = some g) (hj : graph.gates[j]? = some g') (hr : w ∈ g.reads)
    (hw : w ∈ g'.writes) : j < i ∧ w ∈ g'.outputs := by
  rcases h.sourced i g hi w hr with hfree | ⟨k,hk,p,hp,ho⟩
  · exact absurd hw (hfree g' (mem_of_getElem? hj))
  · have hjk := h.writer_unique hj hp hw (mem_writes_of_outputs ho)
    subst hjk
    rw [hp] at hj
    exact ⟨hk,Option.some.inj hj ▸ ho⟩

theorem reads_apart (h : Evaluable hints graph) (hg : g ∈ graph.gates)
    (hr : w ∈ g.reads) : w ∉ g.writes := by
  obtain ⟨i,hi⟩ := mem_iff_getElem?.mp hg
  exact fun hw => Nat.lt_irrefl i (h.writer_of_read hi hi hr hw).1

theorem ordered (h : Evaluable hints graph) : Ordered (program hints graph.gates) :=
  ordered_of h.fits h.distinct fun _ _ _ _ _ hi hj hr hw => (h.writer_of_read hi hj hr hw).1

theorem constOf_constant (h : Evaluable hints graph) (hg : g ∈ graph.gates)
    (hw : w ∈ g.constants) : ∃ word, graph.constOf w = some word := by
  have hmem : graph.constOf w ∈ (g.shape hints).constIn.map some :=
    h.constants g hg ▸ mem_map_of_mem hw
  obtain ⟨word,-,hword⟩ := mem_map.mp hmem
  exact ⟨word,hword.symm⟩

theorem constantsHold (h : Evaluable hints graph) {σ : Wire → Word} (hσ : HoldsConstants graph σ)
    (hg : g ∈ graph.gates) : ConstantsHold hints g σ := by
  have hdeclared := h.constants g hg
  have hwords : (g.constants.map σ).map some = g.constants.map graph.constOf := by
    rw [map_map]
    refine map_congr_left fun w hw => ?_
    have hsome : graph.constOf w ∈ (g.shape hints).constIn.map some :=
      hdeclared ▸ mem_map_of_mem hw
    obtain ⟨word,_,hword⟩ := mem_map.mp hsome
    rw [Function.comp_apply,hσ w word hword.symm,hword]
  exact List.map_injective_iff.mpr (Option.some_injective _) (hwords.trans hdeclared)

end Evaluable

theorem run_solves {kept : List GateData} (h : Ordered (program hints gates))
    (hkept : kept.Sublist gates) (σ : Wire → Word) : Solves hints kept (run (program hints kept) σ) := by
  intro g hg
  have hordered := h.sublist (hkept.map (assignment hints))
  have heq := hordered.run_eq σ (mem_map_of_mem (f := assignment hints) hg)
  rw [assignment_words] at heq
  exact heq

theorem eq_run_of_solves {kept : List GateData} (h : Ordered (program hints gates))
    (hkept : kept.Sublist gates) {τ : Wire → Word} (hτ : Solves hints kept τ)
    (hsame : ∀ w, (∀ g ∈ kept, w ∉ g.writes) → τ w = σ w) : τ = run (program hints kept) σ := by
  refine (h.sublist (hkept.map (assignment hints))).eq_run (fun a ha => ?_) fun w hw => ?_
  · obtain ⟨g,hg,rfl⟩ := mem_map.mp ha
    rw [assignment_words]
    exact hτ g hg
  · exact hsame w fun g hg => hw _ (mem_map_of_mem hg)

theorem run_unwritten (h : ∀ g ∈ gates, w ∉ g.writes) (σ : Wire → Word) :
    run (program hints gates) σ w = σ w := by
  refine run_of_notMem fun a ha => ?_
  obtain ⟨g,hg,rfl⟩ := mem_map.mp ha
  exact h g hg

namespace Evaluable

theorem solves (h : Evaluable hints graph) (σ : Wire → Word) :
    Solves hints graph.gates (evaluate hints graph σ) := run_solves h.ordered (List.Sublist.refl _) σ

theorem outputs_eq (h : Evaluable hints graph) (σ : Wire → Word) {g : GateData} (hg : g ∈ graph.gates)
    {outs : List Word} (he : Evaluates hints g (g.inputs.map (evaluate hints graph σ)) outs) :
    g.outputs.map (evaluate hints graph σ) = outs := by
  have hsolves := h.solves σ g hg
  rw [he.written_eq,GateData.writes,append_assoc,map_append] at hsolves
  refine (append_inj hsolves ?_).1
  rw [length_map,evaluates_length (h.fits g hg).shaped (length_map _) he]

theorem eq_evaluate (h : Evaluable hints graph) {σ τ : Wire → Word} (hτ : Solves hints graph.gates τ)
    (hsame : ∀ w, (∀ g ∈ graph.gates, w ∉ g.writes) → τ w = σ w) : τ = evaluate hints graph σ :=
  eq_run_of_solves h.ordered (List.Sublist.refl _) hτ hsame

theorem holdsConstants (h : Evaluable hints graph) {σ : Wire → Word} (hσ : HoldsConstants graph σ) :
    HoldsConstants graph (evaluate hints graph σ) := fun w word hc =>
  (run_unwritten (h.unwritten w word hc) σ).trans (hσ w word hc)

end Evaluable

/-- One gate in place of another: it only reads other wires, which hold the same words. -/
structure Rewired (σ : Wire → Word) (g g' : GateData) : Prop where
  body : g'.body = g.body
  immediates : g'.immediates = g.immediates
  dimensions : g'.dimensions = g.dimensions
  writes : g'.writes = g.writes
  inputs : g'.inputs.map σ = g.inputs.map σ

theorem evaluate_congr {g' : GateData} (hbody : g'.body = g.body) (himm : g'.immediates = g.immediates)
    (hdim : g'.dimensions = g.dimensions) (ins : List Word) :
    evaluateGateConstants hints g' ins = evaluateGateConstants hints g ins := by
  rw [evaluateGateConstants,evaluateGateConstants,hbody,hdim]
  cases g.body with
  | hint id => rfl
  | op opcode =>
    cases opcode with
    | shift => simp only [evaluateOpcode,himm]
    | _ => rfl

theorem written_congr {g' : GateData} (hbody : g'.body = g.body) (himm : g'.immediates = g.immediates)
    (hdim : g'.dimensions = g.dimensions) (ins : List Word) : written hints g' ins = written hints g ins := by
  rw [written,written,evaluate_congr hbody himm hdim,hbody]

theorem Rewired.passes {g' : GateData} (h : Rewired σ g g') :
    Passes hints g' (g'.inputs.map σ) ↔ Passes hints g (g.inputs.map σ) := by
  rw [Passes,Passes,h.inputs]
  exact exists_congr fun outs => by
    rw [Evaluates,Evaluates,evaluate_congr h.body h.immediates h.dimensions]

theorem solves_rewired {gates' : List GateData} (h : Solves hints gates σ)
    (hgates : List.Forall₂ (Rewired σ) gates gates') : Solves hints gates' σ := by
  induction hgates with
  | nil => exact nofun
  | cons hg _ ih =>
    obtain ⟨hfirst,hrest⟩ := forall_mem_cons.mp h
    refine forall_mem_cons.mpr ⟨?_,ih hrest⟩
    rw [hg.writes,hg.inputs,written_congr hg.body hg.immediates hg.dimensions]
    exact hfirst

theorem writes_rewired {gates' : List GateData}
    (hgates : List.Forall₂ (Rewired σ) gates gates') :
    gates'.map GateData.writes = gates.map GateData.writes := by
  induction hgates with
  | nil => rfl
  | cons hg _ ih => rw [map_cons,map_cons,hg.writes,ih]

theorem unwritten_rewired {gates' : List GateData}
    (hgates : List.Forall₂ (Rewired σ) gates gates') :
    (∀ g ∈ gates', w ∉ g.writes) ↔ ∀ g ∈ gates, w ∉ g.writes := by
  have hmap := writes_rewired hgates
  rw [←forall_mem_map (P := fun ws => w ∉ ws),hmap,forall_mem_map]

theorem evaluate_rewired (h : Evaluable hints graph) (h' : Evaluable hints graph')
    (hgates : List.Forall₂ (Rewired (evaluate hints graph σ)) graph.gates graph'.gates) :
    evaluate hints graph' σ = evaluate hints graph σ := by
  refine (h'.eq_evaluate (solves_rewired (h.solves σ) hgates) fun w hw => ?_).symm
  exact run_unwritten ((unwritten_rewired hgates).mp hw) σ

def readThrough (f : Wire → Wire) (g : GateData) : GateData := {g with inputs := g.inputs.map f}

theorem mapWires_eq {f : Wire → Wire} (hconst : ∀ w ∈ g.constants, f w = w)
    (hwrites : ∀ w ∈ g.writes, f w = w) : g.mapWires f = readThrough f g := by
  have hsame : ∀ ws : List Wire, (∀ w ∈ ws, f w = w) → ws.map f = ws := fun ws hws =>
    (map_congr_left hws).trans (map_id' ws)
  have hout := hsame g.outputs fun w hw => hwrites w (mem_append_left _ (mem_append_left _ hw))
  have haux := hsame g.aux fun w hw => hwrites w (mem_append_left _ (mem_append_right _ hw))
  have hscratch := hsame g.scratch fun w hw => hwrites w (mem_append_right _ hw)
  rw [GateData.mapWires,readThrough,hsame _ hconst,hout,haux,hscratch]

theorem readThrough_congr {f f' : Wire → Wire} (h : ∀ w ∈ g.inputs, f' w = f w) :
    readThrough f' g = readThrough f g := by rw [readThrough,readThrough,map_congr_left h]

/-- One gate in place of another: it only reads other wires, as many of them. -/
structure Relinked (g g' : GateData) : Prop where
  rest : g' = {g with inputs := g'.inputs}
  length : g'.inputs.length = g.inputs.length

theorem relinked_readThrough (f : Wire → Wire) (g : GateData) : Relinked g (readThrough f g) :=
  ⟨rfl,length_map f⟩

namespace Relinked

variable {g g' : GateData}

theorem shape (h : Relinked g g') : g'.shape hints = g.shape hints := by rw [h.rest]; rfl

theorem writes (h : Relinked g g') : g'.writes = g.writes := by rw [h.rest]; rfl

theorem constants (h : Relinked g g') : g'.constants = g.constants := by rw [h.rest]

theorem outputs (h : Relinked g g') : g'.outputs = g.outputs := by rw [h.rest]

theorem fits (h : Relinked g g') (hg : Fits hints g) : Fits hints g' where
  constants := by rw [h.shape,h.constants]; exact hg.constants
  inputs := by rw [h.shape,h.length]; exact hg.inputs
  outputs := by rw [h.shape,h.outputs]; exact hg.outputs
  aux := by rw [h.shape,h.rest]; exact hg.aux
  scratch := by rw [h.shape,h.rest]; exact hg.scratch
  shift := by rw [h.rest]; exact hg.shift
  bxorMulti hbody := by
    have hne := hg.bxorMulti (by rw [h.rest] at hbody; exact hbody)
    rw [←length_pos_iff] at hne ⊢
    rw [h.length]
    exact hne

theorem rewired (h : Relinked g g') {σ : Wire → Word} (hwords : g'.inputs.map σ = g.inputs.map σ) :
    Rewired σ g g' := ⟨by rw [h.rest],by rw [h.rest],by rw [h.rest],h.writes,hwords⟩

end Relinked

/-- One graph in place of another: its gates only read other wires, and it may have more of them. -/
structure Relinks (graph graph' : Graph) : Prop where
  kinds : ∀ (w : Wire) (kind : WireKind), graph.wires[w]? = some kind → graph'.wires[w]? = some kind
  gates : List.Forall₂ Relinked graph.gates graph'.gates

namespace Relinks

theorem gate_at (h : Relinks graph graph') {i : GateId} {g' : GateData} (hi : graph'.gates[i]? = some g') :
    ∃ g, graph.gates[i]? = some g ∧ Relinked g g' := by
  obtain ⟨hlt',rfl⟩ := List.getElem?_eq_some_iff.mp hi
  have hlt : i < graph.gates.length := h.gates.length_eq ▸ hlt'
  exact ⟨graph.gates[i],getElem?_eq_getElem hlt,h.gates.get hlt hlt'⟩

theorem writes (h : Relinks graph graph') :
    graph'.gates.map GateData.writes = graph.gates.map GateData.writes := by
  refine Eq.symm (forall₂_eq_eq_eq ▸ ?_)
  rw [forall₂_map_left_iff,forall₂_map_right_iff]
  exact h.gates.imp fun _ _ hlink => hlink.writes.symm

theorem unwritten (h : Relinks graph graph') {w : Wire} :
    (∀ g ∈ graph'.gates, w ∉ g.writes) ↔ ∀ g ∈ graph.gates, w ∉ g.writes := by
  rw [←forall_mem_map (P := fun ws => w ∉ ws),h.writes,forall_mem_map]

theorem wires_le (h : Relinks graph graph') : graph.wires.length ≤ graph'.wires.length := by
  by_contra hlt
  rw [Nat.not_le] at hlt
  have hkind := h.kinds _ _ (getElem?_eq_getElem hlt)
  exact Nat.lt_irrefl _ (List.getElem?_eq_some_iff.mp hkind).1

theorem constOf (h : Relinks graph graph') {w : Wire} (hw : w < graph.wires.length) :
    graph'.constOf w = graph.constOf w := by
  rw [Graph.constOf,Graph.constOf,getElem?_eq_getElem hw,h.kinds w _ (getElem?_eq_getElem hw)]

theorem evaluable (hlinks : Relinks graph graph') (h : Evaluable hints graph)
    (hinputs : ∀ (i : GateId) g, graph'.gates[i]? = some g → ∀ w ∈ g.inputs, w < graph'.wires.length ∧
      ((∀ g' ∈ graph.gates, w ∉ g'.writes) ∨
        ∃ j < i, ∃ g', graph.gates[j]? = some g' ∧ w ∈ g'.outputs)) : Evaluable hints graph' where
  fits g' hg' := by
    obtain ⟨i,hi⟩ := mem_iff_getElem?.mp hg'
    obtain ⟨g,hg,hlink⟩ := hlinks.gate_at hi
    exact hlink.fits (h.fits g (mem_of_getElem? hg))
  distinct := by
    rw [flatMap_def,hlinks.writes,←flatMap_def]
    exact h.distinct
  constants g' hg' := by
    obtain ⟨i,hi⟩ := mem_iff_getElem?.mp hg'
    obtain ⟨g,hg,hlink⟩ := hlinks.gate_at hi
    rw [hlink.constants,hlink.shape,←h.constants g (mem_of_getElem? hg)]
    refine map_congr_left fun w hw => hlinks.constOf ?_
    exact h.inside g (mem_of_getElem? hg) w (GateData.mem_wires.mpr (.inl (mem_append_left _ hw)))
  unwritten w word hword := by
    rw [hlinks.unwritten]
    intro g hg hw
    have hlt := h.inside g hg w (GateData.mem_wires.mpr (.inr hw))
    exact h.unwritten w word (hlinks.constOf hlt ▸ hword) g hg hw
  inside g' hg' w hw := by
    obtain ⟨i,hi⟩ := mem_iff_getElem?.mp hg'
    obtain ⟨g,hg,hlink⟩ := hlinks.gate_at hi
    have hold : w ∈ g.wires → w < graph'.wires.length := fun hold =>
      (h.inside g (mem_of_getElem? hg) w hold).trans_le hlinks.wires_le
    rcases GateData.mem_wires.mp hw with hread | hwrite
    · rcases mem_append.mp hread with hconst | hin
      · exact hold (GateData.mem_wires.mpr (.inl (mem_append_left _ (hlink.constants ▸ hconst))))
      · exact (hinputs i g' hi w hin).1
    · exact hold (GateData.mem_wires.mpr (.inr (hlink.writes ▸ hwrite)))
  sourced i g' hi w hw := by
    obtain ⟨g,hg,hlink⟩ := hlinks.gate_at hi
    have hsource : (∀ g' ∈ graph.gates, w ∉ g'.writes) ∨
        ∃ j < i, ∃ g', graph.gates[j]? = some g' ∧ w ∈ g'.outputs := by
      rcases mem_append.mp hw with hconst | hin
      · exact h.sourced i g hg w (mem_append_left _ (hlink.constants ▸ hconst))
      · exact (hinputs i g' hi w hin).2
    refine hsource.imp hlinks.unwritten.mpr ?_
    rintro ⟨j,hj,p,hp,ho⟩
    have hjl : j < graph'.gates.length :=
      hlinks.gates.length_eq ▸ (List.getElem?_eq_some_iff.mp hp).1
    obtain ⟨p',hp',hlink'⟩ := hlinks.gate_at (getElem?_eq_getElem hjl)
    rw [hp,Option.some.injEq] at hp'
    exact ⟨j,hj,_,getElem?_eq_getElem hjl,by rw [hlink'.outputs,←hp']; exact ho⟩

end Relinks

open Classical in
theorem run_gatesAt (h : Evaluable hints graph) {keep : GateId → Bool}
    (hclosed : ∀ g ∈ gatesAt graph keep, ∀ w ∈ g.reads, ∀ g' ∈ gatesAt graph fun i => !keep i, w ∉ g'.writes)
    (σ : Wire → Word) (hw : ∀ g ∈ gatesAt graph fun i => !keep i, w ∉ g.writes) :
    run (program hints (gatesAt graph keep)) σ w = evaluate hints graph σ w := by
  obtain ⟨left,hleft⟩ : ∃ left : Wire → Prop, ∀ v, left v ↔ ∃ g ∈ gatesAt graph fun i => !keep i, v ∈ g.writes :=
    ⟨_,fun _ => Iff.rfl⟩
  obtain ⟨τ,hτ⟩ : ∃ τ : Wire → Word, τ = fun v => if left v then σ v else evaluate hints graph σ v := ⟨_,rfl⟩
  have hsame : ∀ v, ¬left v → τ v = evaluate hints graph σ v := fun v hv => by rw [hτ]; exact if_neg hv
  have hread : ∀ g ∈ gatesAt graph keep, ∀ v ∈ g.reads, ¬left v := fun g hg v hv hl => by
    obtain ⟨g',hg',hwrites⟩ := (hleft v).mp hl
    exact hclosed g hg v hv g' hg' hwrites
  have hwrite : ∀ g ∈ gatesAt graph keep, ∀ v ∈ g.writes, ¬left v := fun g hg v hv hl => by
    obtain ⟨g',hg',hwrites⟩ := (hleft v).mp hl
    obtain ⟨i,hi,hkeep⟩ := mem_gatesAt.mp hg
    obtain ⟨j,hj,hkeep'⟩ := mem_gatesAt.mp hg'
    rw [h.writer_unique hi hj hv hwrites] at hkeep
    rw [hkeep] at hkeep'
    cases hkeep'
  have hsolves : Solves hints (gatesAt graph keep) τ := by
    intro g hg
    rw [map_congr_left fun v hv => hsame v (hwrite g hg v hv),
      map_congr_left fun v hv => hsame v (hread g hg v (mem_append_right _ hv))]
    exact h.solves σ g ((gatesAt_sublist graph keep).subset hg)
  have hrun : τ = run (program hints (gatesAt graph keep)) σ := by
    refine eq_run_of_solves h.ordered (gatesAt_sublist graph keep) hsolves fun v hv => ?_
    by_cases hl : left v
    · rw [hτ]
      exact if_pos hl
    · refine (hsame v hl).trans (run_unwritten (fun g hg hvg => ?_) σ)
      obtain ⟨i,hi⟩ := mem_iff_getElem?.mp hg
      cases hkeep : keep i with
      | true => exact hv g (mem_gatesAt.mpr ⟨i,hi,hkeep⟩) hvg
      | false => exact hl ((hleft v).mpr ⟨g,mem_gatesAt.mpr ⟨i,hi,by rw [hkeep]; rfl⟩,hvg⟩)
  rw [←hrun]
  refine hsame w fun hl => ?_
  obtain ⟨g,hg,hwg⟩ := (hleft w).mp hl
  exact hw g hg hwg

end Binius64.GraphEvaluation
