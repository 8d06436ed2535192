import Binius64.GateConstraints

/-!
# Well-formed graphs

What holds of every graph the builder makes and every pass keeps.
-/

namespace Binius64.GraphInvariant

open MachineWord WireConstraints EvalForm GateGraph GateSemantics
open List
  GateConstraints

structure Declared (graph : Graph) (w : Wire) : Prop where
  kind : ∃ kind, graph.wires[w]? = some kind ∧ kind ≠ .internal ∧ kind ≠ .scratch
  unwritten : ∀ g ∈ graph.gates, w ∉ g.writes

def Readable (graph : Graph) (i : GateId) (w : Wire) : Prop :=
  Declared graph w ∨ ∃ j < i, ∃ g, graph.gates[j]? = some g ∧ w ∈ g.outputs

def Created (kind : WireKind) : Prop :=
  kind = .internal ∨ kind = .inOut ∨ kind = .scratch

/-- What holds of every graph the builder makes and every pass keeps. -/
structure WellFormed (hints : HintRegistry) (graph : Graph) : Prop where
  fits : ∀ g ∈ graph.gates, Fits hints g
  distinct : (graph.gates.flatMap GateData.writes).Nodup
  created : ∀ g ∈ graph.gates, ∀ w ∈ g.writes,
    ∃ kind, graph.wires[w]? = some kind ∧ Created kind
  constants : ∀ g ∈ graph.gates,
    g.constants.map graph.constOf = (g.shape hints).constIn.map some
  readable : ∀ i g, graph.gates[i]? = some g → ∀ w ∈ g.reads, Readable graph i w

variable {graph : Graph} {w : Wire}

theorem constOf_eq_some {word : Word} :
    graph.constOf w = some word ↔ graph.wires[w]? = some (.constant word) := by
  rw [Graph.constOf]
  constructor
  · intro h
    split at h
    · rename_i word' heq
      rw [heq,Option.some.inj h]
    · cases h
  · intro h
    rw [h]

theorem lt_of_constOf {word : Word} (h : graph.constOf w = some word) :
    w < graph.wires.length :=
  (List.getElem?_eq_some_iff.mp (constOf_eq_some.mp h)).1

theorem Readable.lt {hints : HintRegistry} (hw : WellFormed hints graph)
    {i : GateId} (h : Readable graph i w) : w < graph.wires.length := by
  rcases h with hd | ⟨j,_,g,hg,ho⟩
  · obtain ⟨kind,hk,_⟩ := hd.kind
    exact (List.getElem?_eq_some_iff.mp hk).1
  · have hmem : w ∈ g.writes := by
      simp only [GateData.writes,mem_append]
      exact .inl (.inl ho)
    obtain ⟨kind,hk,_⟩ := hw.created g (mem_of_getElem? hg) w hmem
    exact (List.getElem?_eq_some_iff.mp hk).1

theorem mem_writes_of_outputs {g : GateData} (h : w ∈ g.outputs) : w ∈ g.writes := by
  simp only [GateData.writes,mem_append]
  exact .inl (.inl h)

namespace WellFormed

variable {hints : HintRegistry} {graph : Graph}

variable {g : GateData} {w : Wire}

theorem writer_unique (h : WellFormed hints graph) {i j : GateId} {g' : GateData}
    (hi : graph.gates[i]? = some g) (hj : graph.gates[j]? = some g') (hw : w ∈ g.writes)
    (hw' : w ∈ g'.writes) : i = j := by
  obtain ⟨hil,hig⟩ := List.getElem?_eq_some_iff.mp hi
  obtain ⟨hjl,hjg⟩ := List.getElem?_eq_some_iff.mp hj
  have hpair := (nodup_flatMap.mp h.distinct).2
  rw [pairwise_iff_getElem] at hpair
  rcases Nat.lt_trichotomy i j with hlt | heq | hlt
  · exact absurd hw' fun hw' => hpair i j hil hjl hlt (hig ▸ hw) (hjg ▸ hw')
  · exact heq
  · exact absurd hw' fun hw' => hpair j i hjl hil hlt (hjg ▸ hw') (hig ▸ hw)

theorem writer_of_read (h : WellFormed hints graph) {i j : GateId} {g' : GateData}
    (hi : graph.gates[i]? = some g) (hj : graph.gates[j]? = some g') (hr : w ∈ g.reads)
    (hw : w ∈ g'.writes) : j < i ∧ w ∈ g'.outputs := by
  rcases h.readable i g hi w hr with hd | ⟨k,hk,p,hp,ho⟩
  · exact absurd hw (hd.unwritten g' (mem_of_getElem? hj))
  · have hjk := h.writer_unique hj hp hw (mem_writes_of_outputs ho)
    subst hjk
    rw [hp] at hj
    exact ⟨hk,Option.some.inj hj ▸ ho⟩

theorem wire_lt (h : WellFormed hints graph) (hg : g ∈ graph.gates)
    (hw : w ∈ g.wires) : w < graph.wires.length := by
  rcases GateData.mem_wires.mp hw with hr | hwr
  · obtain ⟨i,hi⟩ := mem_iff_getElem?.mp hg
    exact (h.readable i g hi w hr).lt h
  · obtain ⟨kind,hk,_⟩ := h.created g hg w hwr
    exact (List.getElem?_eq_some_iff.mp hk).1

theorem constant_unwritten (h : WellFormed hints graph) {word : Word}
    (hc : graph.constOf w = some word) : Declared graph w where
  kind := ⟨.constant word,constOf_eq_some.mp hc,nofun,nofun⟩
  unwritten g hg hw := by
    obtain ⟨kind,hk,hcr⟩ := h.created g hg w hw
    rw [constOf_eq_some.mp hc,Option.some.injEq] at hk
    subst hk
    rcases hcr with h1 | h1 | h1 <;> cases h1

theorem constantsHold (h : WellFormed hints graph) (hg : g ∈ graph.gates)
    {σ : Wire → Word}
    (hconst : ∀ w ∈ g.constants, ∀ word, graph.constOf w = some word → σ w = word) :
    ConstantsHold hints g σ := by
  have hdeclared := h.constants g hg
  have hwords : (g.constants.map σ).map some = g.constants.map graph.constOf := by
    rw [map_map]
    refine map_congr_left fun w hw => ?_
    have hsome : graph.constOf w ∈ (g.shape hints).constIn.map some :=
      hdeclared ▸ mem_map_of_mem hw
    obtain ⟨word,_,hword⟩ := mem_map.mp hsome
    rw [Function.comp_apply,hconst w hw word hword.symm,hword]
  exact map_injective_iff.mpr (Option.some_injective _) (hwords.trans hdeclared)

end WellFormed

def extend (graph : Graph) (extra : List WireKind) : Graph :=
  {graph with wires := graph.wires ++ extra}

theorem getElem?_extend {extra : List WireKind} {kind : WireKind}
    (h : graph.wires[w]? = some kind) : (extend graph extra).wires[w]? = some kind := by
  rw [extend,getElem?_append_left (List.getElem?_eq_some_iff.mp h).1]
  exact h

theorem addConstant_ok (graph : Graph) (word : Word) : ∃ extra,
    (graph.addConstant word).1 = extend graph extra ∧
      (extend graph extra).constOf (graph.addConstant word).2 = some word := by
  rw [Graph.addConstant]
  cases hf : graph.findConstant word with
  | some w =>
    rw [Graph.findConstant,findIdx?_eq_some_iff_getElem] at hf
    obtain ⟨hlt,heq,_⟩ := hf
    refine ⟨[],?_,constOf_eq_some.mpr (getElem?_extend ?_)⟩
    · rw [extend,append_nil]
    · rw [getElem?_eq_getElem hlt]
      exact congrArg some (of_decide_eq_true heq)
  | none =>
    refine ⟨[.constant word],rfl,constOf_eq_some.mpr ?_⟩
    exact getElem?_concat_length

end Binius64.GraphInvariant
