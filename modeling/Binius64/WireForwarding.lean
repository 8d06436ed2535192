import Binius64.GraphEvaluation

/-!
# Forwarding reads

A pass may point the reads of a wire at another wire that holds the same word, and that is no gate's
or comes from an earlier one.
-/

namespace Binius64.WireForwarding

open MachineWord WireConstraints EvalForm GateGraph GraphEvaluation
open List GraphInvariant

variable {hints : HintRegistry} {graph graph' : Graph}

/-- The level of a wire: one more than the position of its gate, and zero where no gate writes it. -/
def level (graph : Graph) (w : Wire) : ℕ :=
  match graph.gates.findIdx? fun g => w ∈ g.writes with
  | some j => j + 1
  | none => 0

variable {w : Wire} {given : (Wire → Word) → Prop}

theorem level_of_writes (h : Evaluable hints graph) {j : GateId} {g : GateData}
    (hj : graph.gates[j]? = some g) (hw : w ∈ g.writes) : level graph w = j + 1 := by
  rw [level]
  cases hfind : graph.gates.findIdx? fun g => w ∈ g.writes with
  | none =>
    have hnot := findIdx?_eq_none_iff.mp hfind g (mem_of_getElem? hj)
    exact absurd hw (of_decide_eq_false hnot)
  | some k =>
    obtain ⟨hlt,hk,-⟩ := findIdx?_eq_some_iff_getElem.mp hfind
    rw [h.writer_unique (getElem?_eq_getElem hlt) hj (of_decide_eq_true hk) hw]

theorem level_of_unwritten (hw : ∀ g ∈ graph.gates, w ∉ g.writes) : level graph w = 0 := by
  have hfind : (graph.gates.findIdx? fun g => w ∈ g.writes) = none :=
    findIdx?_eq_none_iff.mpr fun g hg => decide_eq_false (hw g hg)
  rw [level,hfind]

theorem level_le (h : Evaluable hints graph) {i : GateId} {g : GateData} (hi : graph.gates[i]? = some g)
    (hw : w ∈ g.reads) : level graph w ≤ i := by
  rcases h.sourced i g hi w hw with hfree | ⟨j,hj,g',hg',ho⟩
  · rw [level_of_unwritten hfree]
    exact Nat.zero_le i
  · rw [level_of_writes h hg' (mem_writes_of_outputs ho)]
    exact hj

theorem level_eq (h : Evaluable hints graph) (h' : Evaluable hints graph') (hlinks : Relinks graph graph') :
    level graph' = level graph := by
  funext w
  by_cases hw : ∀ g ∈ graph.gates, w ∉ g.writes
  · rw [level_of_unwritten hw,level_of_unwritten (hlinks.unwritten.mpr hw)]
  · rw [←hlinks.unwritten] at hw
    simp only [not_forall,not_not] at hw
    obtain ⟨g',hg',hwg'⟩ := hw
    obtain ⟨j,hj⟩ := mem_iff_getElem?.mp hg'
    obtain ⟨g,hg,hlink⟩ := hlinks.gate_at hj
    rw [level_of_writes h' hj hwg',level_of_writes h hg (hlink.writes ▸ hwg')]

structure StandsFor (hints : HintRegistry) (graph : Graph) (given : (Wire → Word) → Prop) (w w' : Wire) : Prop where
  words : ∀ σ, given σ → evaluate hints graph σ w' = evaluate hints graph σ w
  below : level graph w' < level graph w
  source : (∀ g ∈ graph.gates, w' ∉ g.writes) ∨ ∃ (j : GateId) (g : GateData),
    graph.gates[j]? = some g ∧ w' ∈ g.outputs

theorem StandsFor.trans {w' w'' : Wire}
    (h : StandsFor hints graph given w w') (h' : StandsFor hints graph given w' w'') :
    StandsFor hints graph given w w'' :=
  ⟨fun σ hσ => (h'.words σ hσ).trans (h.words σ hσ),h'.below.trans h.below,h'.source⟩

def Slot (hints : HintRegistry) (graph : Graph) (given : (Wire → Word) → Prop) : Wire → Wire → Prop :=
  Relation.ReflGen (StandsFor hints graph given)

namespace Slot

variable {given given' : (Wire → Word) → Prop} {w w' w'' : Wire}

theorem words (h : Slot hints graph given w w') {σ : Wire → Word} (hσ : given σ) :
    evaluate hints graph σ w' = evaluate hints graph σ w := by
  cases h with
  | refl => rfl
  | single hw => exact hw.words σ hσ

theorem trans (h : Slot hints graph given w w') (h' : Slot hints graph given w' w'') :
    Slot hints graph given w w'' := by
  cases h with
  | refl => exact h'
  | single hw =>
    cases h' with
    | refl => exact .single hw
    | single hw' => exact .single (hw.trans hw')

theorem mono (hgiven : ∀ σ, given' σ → given σ) (h : Slot hints graph given w w') :
    Slot hints graph given' w w' := by
  cases h with
  | refl => exact .refl
  | single hw => exact .single ⟨fun σ hσ => hw.words σ (hgiven σ hσ),hw.below,hw.source⟩

theorem sourced (h : Slot hints graph given w w') (hgraph : Evaluable hints graph) {i : GateId} {g : GateData}
    (hi : graph.gates[i]? = some g) (hw : w ∈ g.reads) : (∀ g' ∈ graph.gates, w' ∉ g'.writes) ∨
      ∃ j < i, ∃ g', graph.gates[j]? = some g' ∧ w' ∈ g'.outputs := by
  cases h with
  | refl => exact hgraph.sourced i g hi w hw
  | single hstands =>
    refine hstands.source.imp_right ?_
    rintro ⟨j,g',hg',ho⟩
    have hbelow := hstands.below.trans_le (level_le hgraph hi hw)
    rw [level_of_writes hgraph hg' (mem_writes_of_outputs ho)] at hbelow
    exact ⟨j,Nat.lt_of_succ_lt hbelow,g',hg',ho⟩

end Slot

/-- One gate in place of another: it reads wires that stand for those of the other. -/
structure ForwardedGate (hints : HintRegistry) (graph : Graph) (given : (Wire → Word) → Prop)
    (g g' : GateData) : Prop where
  rest : g' = {g with inputs := g'.inputs}
  slots : List.Forall₂ (Slot hints graph given) g.inputs g'.inputs

structure Forwarded (hints : HintRegistry) (graph : Graph) (given : (Wire → Word) → Prop) (graph' : Graph) :
    Prop where
  kinds : ∀ (w : Wire) (kind : WireKind), graph.wires[w]? = some kind → graph'.wires[w]? = some kind
  /-- The gates only read other wires, which stand for the ones before. -/
  gates : List.Forall₂ (ForwardedGate hints graph given) graph.gates graph'.gates
  inside : ∀ g ∈ graph'.gates, ∀ w ∈ g.inputs, w < graph'.wires.length

theorem Forwarded.refl (h : Evaluable hints graph) (given : (Wire → Word) → Prop) :
    Forwarded hints graph given graph where
  kinds _ _ hw := hw
  gates := forall₂_same.mpr fun _ _ => ⟨rfl,forall₂_same.mpr fun _ _ => .refl⟩
  inside g hg w hw := h.inside g hg w (GateData.mem_wires.mpr (.inl (mem_append_right _ hw)))

namespace Forwarded

variable {given given' : (Wire → Word) → Prop}

theorem relinks (h : Forwarded hints graph given graph') : Relinks graph graph' :=
  ⟨h.kinds,h.gates.imp fun _ _ hg => ⟨hg.rest,hg.slots.length_eq.symm⟩⟩

theorem mono (h : Forwarded hints graph given graph') (hgiven : ∀ σ, given' σ → given σ) :
    Forwarded hints graph given' graph' :=
  ⟨h.kinds,h.gates.imp fun _ _ hg => ⟨hg.rest,hg.slots.imp fun _ _ hw => hw.mono hgiven⟩,h.inside⟩

theorem gate_at (h : Forwarded hints graph given graph') {i : GateId} {g' : GateData}
    (hi : graph'.gates[i]? = some g') : ∃ g, graph.gates[i]? = some g ∧ ForwardedGate hints graph given g g' := by
  obtain ⟨hlt',rfl⟩ := List.getElem?_eq_some_iff.mp hi
  have hlt : i < graph.gates.length := h.gates.length_eq ▸ hlt'
  exact ⟨graph.gates[i],getElem?_eq_getElem hlt,h.gates.get hlt hlt'⟩

theorem evaluable (h : Forwarded hints graph given graph') (hgraph : Evaluable hints graph) :
    Evaluable hints graph' := by
  refine h.relinks.evaluable hgraph fun i g' hi w' hw' => ⟨h.inside g' (mem_of_getElem? hi) w' hw',?_⟩
  obtain ⟨g,hg,hslots⟩ := h.gate_at hi
  obtain ⟨p,hp⟩ := mem_iff_getElem?.mp hw'
  obtain ⟨hlt',rfl⟩ := List.getElem?_eq_some_iff.mp hp
  have hlt : p < g.inputs.length := hslots.slots.length_eq ▸ hlt'
  exact (hslots.slots.get hlt hlt').sourced hgraph hg (mem_append_right _ (getElem_mem hlt))

theorem inputs_eq {g g' : GateData} (h : ForwardedGate hints graph given g g') {σ : Wire → Word} (hσ : given σ) :
    g'.inputs.map (evaluate hints graph σ) = g.inputs.map (evaluate hints graph σ) := by
  have hslots := h.slots
  generalize g.inputs = ws at hslots ⊢
  generalize g'.inputs = ws' at hslots ⊢
  induction hslots with
  | nil => rfl
  | cons hw _ ih => rw [map_cons,map_cons,hw.words hσ,ih]

theorem evaluate_eq (h : Forwarded hints graph given graph') (hgraph : Evaluable hints graph) {σ : Wire → Word}
    (hσ : given σ) : evaluate hints graph' σ = evaluate hints graph σ := by
  refine evaluate_rewired hgraph (h.evaluable hgraph) (h.gates.imp fun g g' hg => ?_)
  exact Relinked.rewired ⟨hg.rest,hg.slots.length_eq.symm⟩ (inputs_eq hg hσ)

end Forwarded

section Lists

variable {A B : Type}

variable {xs : List A}

theorem forall₂_modify {R : A → B → Prop} {ys : List B} (h : List.Forall₂ R xs ys) (i : ℕ)
    (f : B → B) (hf : ∀ x y, xs[i]? = some x → ys[i]? = some y → R x y → R x (f y)) :
    List.Forall₂ R xs (ys.modify i f) := by
  induction h generalizing i with
  | nil => rw [modify_nil]; exact .nil
  | @cons x y xs ys hxy hrest ih =>
    cases i with
    | zero => exact .cons (hf x y rfl rfl hxy) hrest
    | succ i => exact .cons hxy (ih i hf)

theorem forall₂_comp {C : Type} {R : A → B → Prop} {S : B → C → Prop} {T : A → C → Prop}
    (hcomp : ∀ x y z, R x y → S y z → T x z) {ys : List B} {zs : List C}
    (h : List.Forall₂ R xs ys) (h' : List.Forall₂ S ys zs) : List.Forall₂ T xs zs := by
  induction h generalizing zs with
  | nil => cases h' with | nil => exact .nil
  | cons hxy _ ih => cases h' with | cons hyz hrest => exact .cons (hcomp _ _ _ hxy hyz) (ih hrest)

theorem modify_eq_self {f : A → A} {i : ℕ} (h : ∀ x, xs[i]? = some x → f x = x) :
    xs.modify i f = xs := by
  refine ext_getElem? fun j => ?_
  rw [getElem?_modify]
  cases hj : xs[j]? with
  | none => rfl
  | some x =>
    by_cases hij : i = j
    · rw [Option.map_eq_map,Option.map_some,if_pos hij,h x (hij ▸ hj)]
    · rw [Option.map_eq_map,Option.map_some,if_neg hij]

theorem sum_modify_le (measure : A → ℕ) (f : A → A) {lower : A → ℕ} {i : ℕ}
    (h : ∀ x, xs[i]? = some x → measure (f x) + lower x ≤ measure x) :
    ((xs.modify i f).map measure).sum + ((xs[i]?.map lower).getD 0) ≤ (xs.map measure).sum := by
  induction xs generalizing i with
  | nil => rw [modify_nil]; exact Nat.le_refl _
  | cons x xs ih =>
    cases i with
    | zero =>
      have hx := h x rfl
      simp only [modify_zero_cons,map_cons,sum_cons,getElem?_cons_zero,Option.map_some,
        Option.getD_some]
      omega
    | succ i =>
      have hrest := ih h
      simp only [modify_succ_cons,map_cons,sum_cons,getElem?_cons_succ]
      omega

end Lists

theorem mem_wireUses {i : GateId} :
    i ∈ graph.wireUses w ↔ ∃ g, graph.gates[i]? = some g ∧ w ∈ g.reads := by
  rw [Graph.wireUses,mem_filter,mem_range,Option.any_eq_true]
  simp only [decide_eq_true_eq]
  refine ⟨fun h => h.2,fun h => ⟨?_,h⟩⟩
  obtain ⟨g,hg,-⟩ := h
  exact (List.getElem?_eq_some_iff.mp hg).1

/-- The levels of all inputs, added up. -/
def readLevels (levels : Wire → ℕ) (gates : List GateData) : ℕ :=
  (gates.map fun g => (g.inputs.map levels).sum).sum

theorem substWire_of_ne {old new : Wire} (h : w ≠ old) : Graph.substWire old new w = w := if_neg h

theorem substWire_levels {levels : Wire → ℕ} {old new : Wire} (h : levels new < levels old) (ws : List Wire) :
    ((ws.map (Graph.substWire old new)).map levels).sum + ws.count old ≤ (ws.map levels).sum := by
  induction ws with
  | nil => exact Nat.le_refl 0
  | cons w ws ih =>
    simp only [map_cons,sum_cons]
    by_cases hw : w = old
    · rw [hw,count_cons_self,Graph.substWire,if_pos rfl]
      omega
    · rw [count_cons_of_ne hw,substWire_of_ne hw]
      omega

/-- What a replacement does to a graph that stands in place of another: so many slots are lowered. -/
structure Replaced (hints : HintRegistry) (graph : Graph) (given : (Wire → Word) → Prop) (before after : Graph)
    (slots : ℕ) : Prop where
  forwarded : Forwarded hints graph given after
  wires : after.wires = before.wires
  levels : readLevels (level graph) after.gates + slots ≤ readLevels (level graph) before.gates

namespace Forwarded

variable {given : (Wire → Word) → Prop} {old new : Wire}

theorem mapWires_eq_readThrough (hgraph : Evaluable hints graph) (hold : 0 < level graph old)
    {i : GateId} {g g' : GateData} (hi : graph.gates[i]? = some g) (hg : ForwardedGate hints graph given g g')
    (hfree : old ∉ g.writes) :
    g'.mapWires (Graph.substWire old new) = readThrough (Graph.substWire old new) g' ∧
      g'.wires.count old = g'.inputs.count old := by
  have hlink : Relinked g g' := ⟨hg.rest,hg.slots.length_eq.symm⟩
  have hconst : old ∉ g'.constants := by
    rw [hlink.constants]
    intro hmem
    obtain ⟨word,hword⟩ := hgraph.constOf_constant (mem_of_getElem? hi) hmem
    rw [level_of_unwritten (hgraph.unwritten old word hword)] at hold
    exact Nat.lt_irrefl 0 hold
  have hwrites : old ∉ g'.writes := hlink.writes ▸ hfree
  refine ⟨mapWires_eq (fun w hw => substWire_of_ne fun h => hconst (h ▸ hw))
    fun w hw => substWire_of_ne fun h => hwrites (h ▸ hw),?_⟩
  simp only [GateData.writes,mem_append,not_or] at hwrites
  simp only [GateData.wires,count_append,count_eq_zero_of_not_mem hconst,
    count_eq_zero_of_not_mem hwrites.1.1,count_eq_zero_of_not_mem hwrites.1.2,
    count_eq_zero_of_not_mem hwrites.2,Nat.zero_add,Nat.add_zero]

theorem replaceGateWire (h : Forwarded hints graph given graph') (hgraph : Evaluable hints graph)
    (hstands : StandsFor hints graph given old new) (hnew : new < graph'.wires.length) {gate : GateId}
    (hfree : ∀ g, graph.gates[gate]? = some g → old ∉ g.writes) :
    Replaced hints graph given graph' (graph'.replaceGateWire gate old new).1
      (graph'.replaceGateWire gate old new).2 where
  wires := rfl
  forwarded := by
    have hslot : ∀ {ws ws' : List Wire}, List.Forall₂ (Slot hints graph given) ws ws' →
        List.Forall₂ (Slot hints graph given) ws (ws'.map (Graph.substWire old new)) := by
      intro ws ws' hws
      rw [forall₂_map_right_iff]
      refine hws.imp fun w w' hw => hw.trans ?_
      by_cases hold : w' = old
      · rw [hold,Graph.substWire,if_pos rfl]
        exact .single hstands
      · rw [substWire_of_ne hold]
        exact .refl
    refine ⟨h.kinds,forall₂_modify h.gates gate _ fun g g' hg _ hgate => ?_,fun g' hg' w hw => ?_⟩
    · rw [(mapWires_eq_readThrough hgraph (Nat.zero_lt_of_lt hstands.below) hg hgate (hfree g hg)).1]
      exact ⟨by rw [hgate.rest]; rfl,hslot hgate.slots⟩
    · obtain ⟨j,hj⟩ := mem_iff_getElem?.mp hg'
      rw [Graph.replaceGateWire,getElem?_modify,Option.map_eq_map,Option.map_eq_some_iff] at hj
      obtain ⟨p,hp,rfl⟩ := hj
      have hinside := h.inside p (mem_of_getElem? hp)
      split at hw
      · obtain ⟨v,hv,rfl⟩ := mem_map.mp hw
        rw [Graph.substWire]
        split
        · exact hnew
        · exact hinside v hv
      · exact hinside w hw
  levels := by
    refine sum_modify_le (fun g : GateData => (g.inputs.map (level graph)).sum) _ fun g' hg' => ?_
    obtain ⟨g,hg,hgate⟩ := h.gate_at hg'
    obtain ⟨hmap,hcount⟩ := @mapWires_eq_readThrough _ _ _ old new hgraph (Nat.zero_lt_of_lt hstands.below)
      _ _ _ hg hgate (hfree g hg)
    rw [hmap,hcount]
    exact substWire_levels hstands.below g'.inputs

theorem replaceInGates (h : Forwarded hints graph given graph') (hgraph : Evaluable hints graph)
    (hstands : StandsFor hints graph given old new) (hnew : new < graph'.wires.length) {gates : List GateId}
    (hfree : ∀ gate ∈ gates, ∀ g, graph.gates[gate]? = some g → old ∉ g.writes) :
    Replaced hints graph given graph' (Graph.replaceInGates old new graph' gates).1
      (Graph.replaceInGates old new graph' gates).2 := by
  induction gates generalizing graph' with
  | nil => exact ⟨h,rfl,Nat.le_refl _⟩
  | cons gate rest ih =>
    rw [forall_mem_cons] at hfree
    have hfirst := h.replaceGateWire hgraph hstands hnew hfree.1
    have hrest := ih hfirst.forwarded (hfirst.wires ▸ hnew) hfree.2
    refine ⟨hrest.forwarded,hrest.wires.trans hfirst.wires,?_⟩
    have hlow := hrest.levels
    have hlow' := hfirst.levels
    rw [Graph.replaceInGates]
    dsimp only
    omega

theorem replaceWireWithWire (h : Forwarded hints graph given graph') (hgraph : Evaluable hints graph)
    (hslot : Slot hints graph given old new) (hnew : new < graph'.wires.length) :
    Replaced hints graph given graph' (graph'.replaceWireWithWire graph.wireUses old new).1
      (graph'.replaceWireWithWire graph.wireUses old new).2.nSlotsRewritten := by
  rw [Graph.replaceWireWithWire]
  split
  · exact ⟨h,rfl,Nat.le_refl _⟩
  case isFalse hne =>
    cases hslot with
    | refl => exact absurd rfl hne
    | single hstands =>
      refine h.replaceInGates hgraph hstands hnew fun gate hgate g hg => ?_
      obtain ⟨g',hg',hread⟩ := mem_wireUses.mp hgate
      rw [hg,Option.some.injEq] at hg'
      subst hg'
      exact hgraph.reads_apart (mem_of_getElem? hg) hread

end Forwarded

theorem replaceInGates_eq_self {old new : Wire} {gates : List GateId}
    (h : (Graph.replaceInGates old new graph gates).2 = 0) :
    (Graph.replaceInGates old new graph gates).1 = graph ∧
      ∀ gate ∈ gates, ∀ g, graph.gates[gate]? = some g → old ∉ g.wires := by
  induction gates generalizing graph with
  | nil => exact ⟨rfl,nofun⟩
  | cons gate rest ih =>
    rw [Graph.replaceInGates] at h ⊢
    obtain ⟨hcount,hrest⟩ := Nat.add_eq_zero_iff.mp h
    have habsent : ∀ g, graph.gates[gate]? = some g → old ∉ g.wires := by
      intro g hg
      rw [Graph.replaceGateWire,hg,Option.map_some,Option.getD_some] at hcount
      exact count_eq_zero.mp hcount
    have hsame : (graph.replaceGateWire gate old new).1 = graph := by
      have hgates := modify_eq_self (f := GateData.mapWires (Graph.substWire old new)) fun g hg => by
        have hnone := habsent g hg
        have hfix : ∀ w ∈ g.wires, Graph.substWire old new w = w := fun w hw =>
          substWire_of_ne fun heq => hnone (heq ▸ hw)
        simp only [GateData.wires,forall_mem_append] at hfix
        rw [GateData.mapWires,map_congr_left hfix.1.1.1.1,map_congr_left hfix.1.1.1.2,
          map_congr_left hfix.1.1.2,map_congr_left hfix.1.2,map_congr_left hfix.2]
        simp only [map_id']
      rw [Graph.replaceGateWire,hgates]
    have hnext : (Graph.replaceInGates old new graph rest).2 = 0 := hsame ▸ hrest
    obtain ⟨hgraph,hall⟩ := ih hnext
    refine ⟨?_,forall_mem_cons.mpr ⟨habsent,hall⟩⟩
    change (Graph.replaceInGates old new (graph.replaceGateWire gate old new).1 rest).1 = graph
    rw [hsame,hgraph]

theorem replaceWireWithWire_eq_self {old new : Wire}
    (h : (graph.replaceWireWithWire graph.wireUses old new).2.nSlotsRewritten = 0) :
    (graph.replaceWireWithWire graph.wireUses old new).1 = graph ∧
      (new ≠ old → ∀ g ∈ graph.gates, old ∉ g.reads) := by
  rw [Graph.replaceWireWithWire] at h ⊢
  split at h
  case isTrue heq =>
    rw [if_pos heq]
    exact ⟨rfl,fun hne => absurd heq hne⟩
  case isFalse hne =>
    rw [if_neg hne]
    obtain ⟨hsame,hall⟩ := replaceInGates_eq_self h
    refine ⟨hsame,fun _ g hg hread => ?_⟩
    obtain ⟨i,hi⟩ := mem_iff_getElem?.mp hg
    exact hall i (mem_wireUses.mpr ⟨g,hi,hread⟩) g hi (GateData.mem_wires.mpr (.inl hread))

theorem Slot.of_forwarded {w' : Wire} (hgraph : Evaluable hints graph)
    (h : Forwarded hints graph given graph') (hw : Slot hints graph' given w w') : Slot hints graph given w w' := by
  cases hw with
  | refl => exact .refl
  | single hstands =>
    have hlevel := level_eq hgraph (h.evaluable hgraph) h.relinks
    refine .single ⟨fun σ hσ => ?_,by rw [←hlevel]; exact hstands.below,?_⟩
    · rw [←h.evaluate_eq hgraph hσ]
      exact hstands.words σ hσ
    · refine hstands.source.imp h.relinks.unwritten.mp ?_
      rintro ⟨j,g',hg',ho⟩
      obtain ⟨g,hg,hlink⟩ := h.relinks.gate_at hg'
      exact ⟨j,g,hg,hlink.outputs ▸ ho⟩

theorem Forwarded.trans {graph'' : Graph} (hgraph : Evaluable hints graph)
    (h : Forwarded hints graph given graph') (h' : Forwarded hints graph' given graph'') :
    Forwarded hints graph given graph'' := by
  refine ⟨fun w kind hw => h'.kinds w kind (h.kinds w kind hw),?_,h'.inside⟩
  refine forall₂_comp (fun g g' g'' hg hg' => ⟨?_,?_⟩) h.gates h'.gates
  · rw [hg'.rest,hg.rest]
  · exact forall₂_comp (fun _ _ _ hw hw' => hw.trans (hw'.of_forwarded hgraph h)) hg.slots hg'.slots

end Binius64.WireForwarding
