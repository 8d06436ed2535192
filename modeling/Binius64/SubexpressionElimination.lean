import Binius64.GraphEvaluation

/-!
# Common subexpressions

Two gates that do the same and read the same wires compute the same words.
-/

namespace Binius64.SubexpressionElimination

open MachineWord StraightLine WireConstraints EvalForm GateGraph GateSemantics
open List GraphInvariant GraphEvaluation ScratchAlloc ScratchPooling

/-- A gate's structural identity: what it does, the wires it reads, its immediates and dimensions. -/
structure GateStructure where
  body : GateBody
  reads : List Wire
  immediates : List ℕ
  dimensions : List ℕ
deriving DecidableEq

def structureOf (g : GateData) : GateStructure := ⟨g.body,g.reads,g.immediates,g.dimensions⟩

/-- The state of the sweep. -/
structure Dedup where
  graph : Graph
  /-- The canonical wire in place of an output of a collapsed gate. -/
  remap : Wire → Option Wire
  canonical : GateStructure → Option GateId
  dead : List GateId

def canonicalWire (remap : Wire → Option Wire) (w : Wire) : Wire := (remap w).getD w

def mapOutputs (remap : Wire → Option Wire) (outputs canonOutputs : List Wire) : Wire → Option Wire :=
  (outputs.zip canonOutputs).foldl (fun remap p => Function.update remap p.1 (some p.2)) remap

/-- Rename the wires of a gate, and collapse it if its structure has been seen and none of its outputs is
observable. -/
def dedupGate (pinned : EntitySet) (s : Dedup) (gate : GateId) : Dedup :=
  let graph := {s.graph with gates := s.graph.gates.modify gate (GateData.mapWires (canonicalWire s.remap))}
  match graph.gates[gate]? with
  | none => s
  | some g =>
    let producesObservable := g.outputs.any (isObservable graph pinned)
    let duplicateOf := if producesObservable then none else s.canonical (structureOf g)
    match duplicateOf with
    | some canon =>
      let canonOutputs := ((graph.gates[canon]?).map GateData.outputs).getD []
      ⟨graph,mapOutputs s.remap g.outputs canonOutputs,s.canonical,gate :: s.dead⟩
    | none =>
      match s.canonical (structureOf g) with
      | some _ => ⟨graph,s.remap,s.canonical,s.dead⟩
      | none => ⟨graph,s.remap,Function.update s.canonical (structureOf g) (some gate),s.dead⟩

def dedupGates (graph : Graph) (pinned : EntitySet) : Dedup :=
  (range graph.gates.length).foldl (dedupGate pinned) ⟨graph,fun _ => none,fun _ => none,[]⟩

variable {remap : Wire → Option Wire} {w : Wire} {canonOutputs : List Wire}

theorem canonicalWire_of_none (h : remap w = none) :
    canonicalWire remap w = w := by rw [canonicalWire,h,Option.getD_none]

theorem canonicalWire_of_some {w' : Wire} (h : remap w = some w') :
    canonicalWire remap w = w' := by rw [canonicalWire,h,Option.getD_some]

theorem mapOutputs_cases {outputs : List Wire} {w' : Wire}
    (h : mapOutputs remap outputs canonOutputs w = some w') :
    (∃ p : ℕ, outputs[p]? = some w ∧ canonOutputs[p]? = some w') ∨ remap w = some w' := by
  induction outputs generalizing remap canonOutputs with
  | nil => exact .inr h
  | cons out outputs ih =>
    cases canonOutputs with
    | nil => exact .inr h
    | cons canonOut canonOutputs =>
      rcases ih h with ⟨p,hp,hp'⟩ | hprev
      · exact .inl ⟨p + 1,hp,hp'⟩
      · by_cases hw : w = out
        · subst hw
          exact .inl ⟨0,rfl,(Function.update_self (f := remap) w (some canonOut)).symm.trans hprev⟩
        · exact .inr ((Function.update_of_ne hw (some canonOut) remap).symm.trans hprev)

theorem mapOutputs_of_notMem {outputs : List Wire}
    (h : w ∉ outputs) : mapOutputs remap outputs canonOutputs w = remap w := by
  induction outputs generalizing remap canonOutputs with
  | nil => rfl
  | cons out outputs ih =>
    rw [mem_cons,not_or] at h
    cases canonOutputs with
    | nil => rfl
    | cons canonOut canonOutputs => exact (ih h.2).trans (Function.update_of_ne h.1 _ _)

theorem mapOutputs_of_mem {outputs : List Wire}
    (hlen : outputs.length ≤ canonOutputs.length) (h : w ∈ outputs) :
    ∃ w', mapOutputs remap outputs canonOutputs w = some w' := by
  induction outputs generalizing remap canonOutputs with
  | nil => cases h
  | cons out outputs ih =>
    cases canonOutputs with
    | nil => cases hlen
    | cons canonOut canonOutputs =>
      by_cases hmem : w ∈ outputs
      · exact ih (Nat.le_of_succ_le_succ hlen) hmem
      · have hw := (mem_cons.mp h).resolve_right hmem
        subst hw
        exact ⟨canonOut,(mapOutputs_of_notMem hmem).trans (Function.update_self ..)⟩

variable {hints : HintRegistry} {graph : Graph} {pinned : EntitySet}

theorem inputs_of_structure {g g' : GateData} (hg : Fits hints g) (hg' : Fits hints g')
    (h : structureOf g = structureOf g') : g.inputs = g'.inputs := by
  obtain ⟨hbody,hreads,-,hdim⟩ := GateStructure.mk.inj h
  have hshape : g.shape hints = g'.shape hints := by rw [GateData.shape,GateData.shape,hbody,hdim]
  have hlen : g.constants.length = g'.constants.length := by rw [hg.constants,hg'.constants,hshape]
  exact (append_inj hreads hlen).2

theorem outputs_length_of_structure {g g' : GateData} (hg : Fits hints g) (hg' : Fits hints g')
    (h : structureOf g = structureOf g') : g.outputs.length = g'.outputs.length := by
  obtain ⟨hbody,-,-,hdim⟩ := GateStructure.mk.inj h
  rw [hg.outputs,hg'.outputs,GateData.shape,GateData.shape,hbody,hdim]

theorem writes_of_structure {g g' : GateData} {τ : Wire → Word} {f : Wire → Wire} (hg : Fits hints g)
    (hg' : Fits hints g') (hf : ∀ w, τ (f w) = τ w)
    (h : structureOf (readThrough f g) = structureOf (readThrough f g'))
    (hw : g.writes.map τ = written hints g (g.inputs.map τ))
    (hw' : g'.writes.map τ = written hints g' (g'.inputs.map τ)) : g.writes.map τ = g'.writes.map τ := by
  have hthrough : ∀ p : GateData, (readThrough f p).inputs.map τ = p.inputs.map τ := fun p =>
    (map_map ..).trans (map_congr_left fun w _ => hf w)
  have hinputs := inputs_of_structure ((relinked_readThrough f g).fits hg)
    ((relinked_readThrough f g').fits hg') h
  obtain ⟨hbody,-,himm,hdim⟩ := GateStructure.mk.inj h
  rw [hw,hw',←hthrough g,←hthrough g',hinputs]
  exact written_congr hbody himm hdim _

/-- What holds of the sweep ahead of a gate. -/
structure DedupInv (hints : HintRegistry) (graph : Graph) (pinned : EntitySet) (i : GateId) (s : Dedup) :
    Prop where
  wires : s.graph.wires = graph.wires
  gates : ∀ j : GateId, s.graph.gates[j]? =
    (graph.gates[j]?).map fun g => if j < i then readThrough (canonicalWire s.remap) g else g
  /-- An output of a collapsed gate is mapped to the matching one of a gate that is kept. -/
  mapped : ∀ w w', s.remap w = some w' → ∃ j ∈ s.dead, ∃ k < j, k ∉ s.dead ∧ ∃ g g', ∃ p : ℕ,
    graph.gates[j]? = some g ∧ graph.gates[k]? = some g' ∧ g.outputs[p]? = some w ∧ g'.outputs[p]? = some w'
  words : ∀ w w', s.remap w = some w' → ∀ σ, evaluate hints graph σ w' = evaluate hints graph σ w
  /-- The outputs of a collapsed gate are not observable, and are mapped. -/
  removed : ∀ j ∈ s.dead, j < i ∧ ∃ g, graph.gates[j]? = some g ∧
    ∀ w ∈ g.outputs, isObservable graph pinned w = false ∧ ∃ w', s.remap w = some w'
  merged : ∀ j ∈ s.dead, ∃ k < j, k ∉ s.dead ∧ ∃ g g', graph.gates[j]? = some g ∧ graph.gates[k]? = some g' ∧
    structureOf (readThrough (canonicalWire s.remap) g) = structureOf (readThrough (canonicalWire s.remap) g')
  /-- The canonical gates are kept, and have the structures they are recorded under. -/
  canonical : ∀ st k, s.canonical st = some k → k < i ∧ k ∉ s.dead ∧ ∃ g, graph.gates[k]? = some g ∧
    structureOf (readThrough (canonicalWire s.remap) g) = st

theorem dedupInv_zero : DedupInv hints graph pinned 0 ⟨graph,fun _ => none,fun _ => none,[]⟩ where
  wires := rfl
  gates j := by simp only [Nat.not_lt_zero,if_false,Option.map_id']
  mapped := nofun
  words := nofun
  removed := nofun
  merged := nofun
  canonical := nofun

namespace DedupInv

variable {i : GateId} {s : Dedup}

theorem word (h : DedupInv hints graph pinned i s) (σ : Wire → Word) (w : Wire) :
    evaluate hints graph σ (canonicalWire s.remap w) = evaluate hints graph σ w := by
  cases hw : s.remap w with
  | none => rw [canonicalWire_of_none hw]
  | some w' => rw [canonicalWire_of_some hw,h.words w w' hw]

theorem writer (h : DedupInv hints graph pinned i s) {w w' : Wire} (hw : s.remap w = some w') :
    ∃ j < i, ∃ g, graph.gates[j]? = some g ∧ w ∈ g.outputs := by
  obtain ⟨j,hj,k,-,-,g,g',p,hg,-,hp,-⟩ := h.mapped w w' hw
  exact ⟨j,(h.removed j hj).1,g,hg,mem_of_getElem? hp⟩

variable {g : GateData}

theorem canonicalWire_written (h : DedupInv hints graph pinned i s) (hgraph : Evaluable hints graph)
    {j : GateId} (hij : i ≤ j) (hg : graph.gates[j]? = some g) {w : Wire} (hw : w ∈ g.writes) :
    canonicalWire s.remap w = w := by
  refine canonicalWire_of_none (Option.eq_none_iff_forall_ne_some.mpr fun w' hw' => ?_)
  obtain ⟨k,hk,p,hp,ho⟩ := h.writer hw'
  have hkj := hgraph.writer_unique hp hg (mem_writes_of_outputs ho) hw
  exact Nat.lt_irrefl i ((hkj ▸ hij).trans_lt hk)

theorem canonicalWire_constant (h : DedupInv hints graph pinned i s) (hgraph : Evaluable hints graph)
    (hg : g ∈ graph.gates) {w : Wire} (hw : w ∈ g.constants) : canonicalWire s.remap w = w := by
  refine canonicalWire_of_none (Option.eq_none_iff_forall_ne_some.mpr fun w' hw' => ?_)
  obtain ⟨k,-,p,hp,ho⟩ := h.writer hw'
  obtain ⟨word,hword⟩ := hgraph.constOf_constant hg hw
  exact hgraph.unwritten w word hword p (mem_of_getElem? hp) (mem_writes_of_outputs ho)

theorem renamed (h : DedupInv hints graph pinned i s) (hgraph : Evaluable hints graph)
    (hg : graph.gates[i]? = some g) (j : GateId) :
    (s.graph.gates.modify i (GateData.mapWires (canonicalWire s.remap)))[j]? =
      (graph.gates[j]?).map fun g => if j < i + 1 then readThrough (canonicalWire s.remap) g else g := by
  rw [getElem?_modify,h.gates j]
  by_cases hij : i = j
  · subst hij
    have hmap : GateData.mapWires (canonicalWire s.remap) g = readThrough (canonicalWire s.remap) g :=
      mapWires_eq (fun w hw => h.canonicalWire_constant hgraph (mem_of_getElem? hg) hw)
        fun w hw => h.canonicalWire_written hgraph (Nat.le_refl i) hg hw
    simp only [hg,Option.map_some,Option.map_eq_map,Nat.lt_irrefl,Nat.lt_succ_self,if_true,if_false,hmap]
  · have hlt : (j < i + 1) = (j < i) := propext
      ⟨fun hj => Nat.lt_of_le_of_ne (Nat.le_of_lt_succ hj) (Ne.symm hij),Nat.lt_succ_of_lt⟩
    simp only [hij,if_false,hlt,Option.map_eq_map,Option.map_id']

theorem keep (h : DedupInv hints graph pinned i s) (hgraph : Evaluable hints graph)
    (hg : graph.gates[i]? = some g) {canonical : GateStructure → Option GateId}
    (hcanon : ∀ st k, canonical st = some k → s.canonical st = some k ∨
      k = i ∧ structureOf (readThrough (canonicalWire s.remap) g) = st) :
    DedupInv hints graph pinned (i + 1)
      ⟨{s.graph with gates := s.graph.gates.modify i (GateData.mapWires (canonicalWire s.remap))},
        s.remap,canonical,s.dead⟩ where
  wires := h.wires
  gates := h.renamed hgraph hg
  mapped := h.mapped
  words := h.words
  removed j hj := (h.removed j hj).imp_left Nat.lt_succ_of_lt
  merged := h.merged
  canonical st k hk := by
    rcases hcanon st k hk with hold | ⟨rfl,hst⟩
    · exact (h.canonical st k hold).imp_left Nat.lt_succ_of_lt
    · exact ⟨Nat.lt_succ_self k,fun hdead => Nat.lt_irrefl k (h.removed k hdead).1,g,hg,hst⟩

theorem collapse (h : DedupInv hints graph pinned i s) (hgraph : Evaluable hints graph) {g' : GateData}
    (hg : graph.gates[i]? = some g) {canon : GateId}
    (hcanon : s.canonical (structureOf (readThrough (canonicalWire s.remap) g)) = some canon)
    (hg' : graph.gates[canon]? = some g') (hobs : ∀ w ∈ g.outputs, isObservable graph pinned w = false) :
    DedupInv hints graph pinned (i + 1)
      ⟨{s.graph with gates := s.graph.gates.modify i (GateData.mapWires (canonicalWire s.remap))},
        mapOutputs s.remap g.outputs g'.outputs,s.canonical,i :: s.dead⟩ := by
  have hfits := hgraph.fits g (mem_of_getElem? hg)
  have hfits' := hgraph.fits g' (mem_of_getElem? hg')
  obtain ⟨hlt,hkept,p,hp,hst⟩ := h.canonical _ _ hcanon
  rw [hg',Option.some.injEq] at hp
  subst hp
  -- a gate that is reached by now reads no output of the collapsed one
  have hstable : ∀ j ≤ i, ∀ p, graph.gates[j]? = some p →
      readThrough (canonicalWire (mapOutputs s.remap g.outputs g'.outputs)) p =
        readThrough (canonicalWire s.remap) p := by
    intro j hj p hp
    refine readThrough_congr fun w hw => ?_
    have hnot : w ∉ g.outputs := fun ho => Nat.lt_irrefl i ((hgraph.writer_of_read hp hg
      (mem_append_right _ hw) (mem_writes_of_outputs ho)).1.trans_le hj)
    rw [canonicalWire,canonicalWire,mapOutputs_of_notMem hnot]
  have hold : ∀ k, k ∉ s.dead → k < i → k ∉ i :: s.dead := fun k hk hki hmem =>
    (mem_cons.mp hmem).elim (Nat.ne_of_lt hki) hk
  refine ⟨h.wires,fun j => ?_,fun w w' hw => ?_,fun w w' hw σ => ?_,fun j hj => ?_,fun j hj => ?_,
    fun st k hk => ?_⟩
  · have hstep := h.renamed hgraph hg j
    refine hstep.trans (Option.map_congr fun p hp => ?_)
    by_cases hj : j < i + 1
    · rw [if_pos hj,if_pos hj,hstable j (Nat.le_of_lt_succ hj) p hp]
    · rw [if_neg hj,if_neg hj]
  · rcases mapOutputs_cases hw with ⟨p,hp,hp'⟩ | hprev
    · exact ⟨i,mem_cons_self,canon,hlt,hold canon hkept hlt,g,g',p,hg,hg',hp,hp'⟩
    · obtain ⟨j,hj,k,hkj,hk,q,q',p,hq⟩ := h.mapped w w' hprev
      exact ⟨j,mem_cons_of_mem _ hj,k,hkj,hold k hk (hkj.trans (h.removed j hj).1),q,q',p,hq⟩
  · rcases mapOutputs_cases hw with ⟨p,hp,hp'⟩ | hprev
    · have hsolves := hgraph.solves σ
      have hwrites := writes_of_structure hfits hfits' (h.word σ) hst.symm
        (hsolves g (mem_of_getElem? hg)) (hsolves g' (mem_of_getElem? hg'))
      have hat : ∀ {q : GateData} {v : Wire}, q.outputs[p]? = some v → q.writes[p]? = some v := by
        intro q v hv
        rw [GateData.writes,append_assoc,
          getElem?_append_left (List.getElem?_eq_some_iff.mp hv).1]
        exact hv
      have hword := congrArg (fun ws => ws[p]?) hwrites
      simp only [getElem?_map,hat hp,hat hp',Option.map_some,Option.some.injEq] at hword
      exact hword.symm
    · exact h.words w w' hprev σ
  · rcases mem_cons.mp hj with rfl | hj
    · have hlen := outputs_length_of_structure ((relinked_readThrough _ g).fits hfits)
        ((relinked_readThrough _ g').fits hfits') hst.symm
      exact ⟨Nat.lt_succ_self j,g,hg,fun w hw => ⟨hobs w hw,mapOutputs_of_mem hlen.le hw⟩⟩
    · obtain ⟨hji,q,hq,hout⟩ := h.removed j hj
      refine ⟨Nat.lt_succ_of_lt hji,q,hq,fun w hw => (hout w hw).imp_right ?_⟩
      have hnot : w ∉ g.outputs := fun ho => Nat.ne_of_lt hji
        (hgraph.writer_unique hq hg (mem_writes_of_outputs hw) (mem_writes_of_outputs ho))
      rintro ⟨w',hw'⟩
      exact ⟨w',(mapOutputs_of_notMem hnot).trans hw'⟩
  · rcases mem_cons.mp hj with rfl | hj
    · refine ⟨canon,hlt,hold canon hkept hlt,g,g',hg,hg',?_⟩
      rw [hstable j (Nat.le_refl j) g hg,hstable canon hlt.le g' hg']
      exact hst.symm
    · obtain ⟨k,hkj,hk,q,q',hq,hq',hsame⟩ := h.merged j hj
      have hji := (h.removed j hj).1
      refine ⟨k,hkj,hold k hk (hkj.trans hji),q,q',hq,hq',?_⟩
      rw [hstable j hji.le q hq,hstable k (hkj.trans hji).le q' hq']
      exact hsame
  · obtain ⟨hki,hkd,q,hq,hst'⟩ := h.canonical st k hk
    exact ⟨Nat.lt_succ_of_lt hki,hold k hkd hki,q,hq,by rw [hstable k hki.le q hq]; exact hst'⟩

theorem step (h : DedupInv hints graph pinned i s) (hgraph : Evaluable hints graph)
    (hi : i < graph.gates.length) : DedupInv hints graph pinned (i + 1) (dedupGate pinned s i) := by
  obtain ⟨g,hg⟩ : ∃ g, graph.gates[i]? = some g := ⟨_,getElem?_eq_getElem hi⟩
  have hat := h.renamed hgraph hg
  have hhere := hat i
  rw [hg,Option.map_some,if_pos (Nat.lt_succ_self i)] at hhere
  have hobservable : isObservable
      {s.graph with gates := s.graph.gates.modify i (GateData.mapWires (canonicalWire s.remap))} pinned =
      isObservable graph pinned := by
    funext w
    simp only [isObservable,Graph.isInout,h.wires]
  simp only [dedupGate,hhere,hobservable]
  split
  case h_1 canon hdup =>
    rw [Option.ite_none_left_eq_some] at hdup
    obtain ⟨hobs,hcanon⟩ := hdup
    obtain ⟨hlt,-,g',hg',-⟩ := h.canonical _ _ hcanon
    have hcanonOut := hat canon
    rw [hg',Option.map_some,if_pos (Nat.lt_succ_of_lt hlt)] at hcanonOut
    rw [hcanonOut]
    simp only [any_eq_true,not_exists,not_and,Bool.not_eq_true] at hobs
    have hnext := h.collapse hgraph hg hcanon hg' hobs
    exact hnext
  case h_2 =>
    split
    case h_1 => exact h.keep hgraph hg fun st k hk => .inl hk
    case h_2 =>
      refine h.keep hgraph hg fun st k hk => ?_
      by_cases hst : st = structureOf (readThrough (canonicalWire s.remap) g)
      · rw [hst,Function.update_self,Option.some.injEq] at hk
        exact .inr ⟨hk.symm,hst.symm⟩
      · rw [Function.update_of_ne hst] at hk
        exact .inl hk

end DedupInv

theorem dedupInv_run (h : Evaluable hints graph) (pinned : EntitySet) :
    DedupInv hints graph pinned graph.gates.length (dedupGates graph pinned) := by
  have hextends : ∀ n ≤ graph.gates.length, DedupInv hints graph pinned n
      ((range n).foldl (dedupGate pinned) ⟨graph,fun _ => none,fun _ => none,[]⟩) := by
    intro n hn
    induction n with
    | zero => exact dedupInv_zero
    | succ n ih =>
      rw [range_succ,foldl_append]
      exact (ih (Nat.le_of_succ_le hn)).step h hn
  exact hextends _ (Nat.le_refl _)

section Rewritten

variable {s : Dedup} (h : DedupInv hints graph pinned graph.gates.length s)
include h

namespace DedupInv

theorem gates_eq : s.graph.gates = graph.gates.map (readThrough (canonicalWire s.remap)) := by
  refine ext_getElem? fun j => ?_
  rw [h.gates j,getElem?_map]
  refine Option.map_congr fun g hg => ?_
  rw [if_pos (List.getElem?_eq_some_iff.mp hg).1]

theorem relinks : Relinks graph s.graph where
  kinds w kind hw := by rw [h.wires]; exact hw
  gates := by
    rw [h.gates_eq,forall₂_map_right_iff,forall₂_same]
    exact fun g _ => relinked_readThrough _ g

theorem evaluable (hgraph : Evaluable hints graph) : Evaluable hints s.graph := by
  refine h.relinks.evaluable hgraph fun i g' hg' w' hw' => ?_
  rw [h.gates_eq,getElem?_map,Option.map_eq_some_iff] at hg'
  obtain ⟨g,hg,rfl⟩ := hg'
  obtain ⟨w,hw,rfl⟩ := mem_map.mp hw'
  have hread := mem_append_right g.constants hw
  rw [h.wires]
  cases hremap : s.remap w with
  | none =>
    rw [canonicalWire_of_none hremap]
    exact ⟨hgraph.inside g (mem_of_getElem? hg) w (GateData.mem_wires.mpr (.inl hread)),
      hgraph.sourced i g hg w hread⟩
  | some w' =>
    rw [canonicalWire_of_some hremap]
    obtain ⟨j,-,k,hkj,-,p,q,n,hp,hq,hpn,hqn⟩ := h.mapped w w' hremap
    have hji := (hgraph.writer_of_read hg hp hread (mem_writes_of_outputs (mem_of_getElem? hpn))).1
    have hout := mem_of_getElem? hqn
    exact ⟨hgraph.inside q (mem_of_getElem? hq) w' (GateData.mem_wires.mpr
      (.inr (mem_writes_of_outputs hout))),.inr ⟨k,hkj.trans hji,q,hq,hout⟩⟩

theorem evaluate_eq (hgraph : Evaluable hints graph) (σ : Wire → Word) :
    evaluate hints s.graph σ = evaluate hints graph σ := by
  refine evaluate_rewired hgraph (h.evaluable hgraph) ?_
  rw [h.gates_eq,forall₂_map_right_iff,forall₂_same]
  refine fun g _ => (relinked_readThrough _ g).rewired ?_
  exact (map_map ..).trans (map_congr_left fun w _ => h.word σ w)

theorem reads_kept (hgraph : Evaluable hints graph) {g : GateData} (hg : g ∈ s.graph.gates) {w : Wire}
    (hw : w ∈ g.reads) {j : GateId} (hj : j ∈ s.dead) {g' : GateData} (hg' : graph.gates[j]? = some g') :
    w ∉ g'.writes := by
  intro hwritten
  obtain ⟨-,p,hp,hout⟩ := h.removed j hj
  rw [hg',Option.some.injEq] at hp
  subst hp
  rw [h.gates_eq,mem_map] at hg
  obtain ⟨g,hg,rfl⟩ := hg
  obtain ⟨i,hi⟩ := mem_iff_getElem?.mp hg
  rcases mem_append.mp hw with hconst | hin
  · obtain ⟨word,hword⟩ := hgraph.constOf_constant hg hconst
    exact hgraph.unwritten w word hword g' (mem_of_getElem? hg') hwritten
  · obtain ⟨v,hv,rfl⟩ := mem_map.mp hin
    cases hremap : s.remap v with
    | none =>
      rw [canonicalWire_of_none hremap] at hwritten
      have hvout := (hgraph.writer_of_read hi hg' (mem_append_right _ hv) hwritten).2
      obtain ⟨w',hw'⟩ := (hout v hvout).2
      rw [hremap] at hw'
      cases hw'
    | some w' =>
      rw [canonicalWire_of_some hremap] at hwritten
      obtain ⟨_,-,k,-,hk,_,q,_,-,hq,-,hqn⟩ := h.mapped v w' hremap
      have hsame := hgraph.writer_unique hq hg' (mem_writes_of_outputs (mem_of_getElem? hqn)) hwritten
      exact hk (hsame ▸ hj)

end DedupInv

end Rewritten

def survivors (s : Dedup) : List GateData := gatesAt s.graph fun i => decide (i ∉ s.dead)

theorem mem_survivors {s : Dedup} {g : GateData} :
    g ∈ survivors s ↔ ∃ i, s.graph.gates[i]? = some g ∧ i ∉ s.dead := by
  rw [survivors,mem_gatesAt]
  simp only [decide_eq_true_eq]

/-- Collapsing the gates of one structure keeps every word: in the rewritten graph every wire holds what it
held, and the gates that are kept compute it alone. They read nothing a collapsed gate puts out, a collapsed
gate does and reads the same as a kept one before it, and puts out nothing observable. -/
theorem dedup_sound (h : Evaluable hints graph) (pinned : EntitySet) :
    ∃ s, dedupGates graph pinned = s ∧ Relinks graph s.graph ∧
      (∀ σ, evaluate hints s.graph σ = evaluate hints graph σ) ∧
      (∀ σ w, (∀ i ∈ s.dead, ∀ g, graph.gates[i]? = some g → w ∉ g.writes) →
        run (program hints (survivors s)) σ w = evaluate hints graph σ w) ∧
      (∀ i ∈ s.dead, ∀ g, graph.gates[i]? = some g → ∀ w ∈ g.outputs, isObservable graph pinned w = false) ∧
      (∀ g ∈ survivors s, ∀ w ∈ g.reads, ∀ i ∈ s.dead, ∀ g', graph.gates[i]? = some g' → w ∉ g'.writes) ∧
      (∀ i ∈ s.dead, ∃ k < i, k ∉ s.dead ∧ ∃ g g', s.graph.gates[i]? = some g ∧ s.graph.gates[k]? = some g' ∧
        structureOf g = structureOf g' ∧ g.inputs = g'.inputs) ∧
      ∀ σ, ∀ g ∈ graph.gates, ¬Passes hints g (g.inputs.map (evaluate hints graph σ)) →
        ∃ g' ∈ survivors s, ¬Passes hints g' (g'.inputs.map (run (program hints (survivors s)) σ)) := by
  have hinv := dedupInv_run h pinned
  obtain ⟨s,hs⟩ : ∃ s, dedupGates graph pinned = s := ⟨_,rfl⟩
  rw [hs] at hinv
  have hrenamed : ∀ {i : GateId} {g : GateData}, graph.gates[i]? = some g →
      s.graph.gates[i]? = some (readThrough (canonicalWire s.remap) g) := fun hg => by
    rw [hinv.gates_eq,getElem?_map,hg,Option.map_some]
  have hreads : ∀ g ∈ survivors s, ∀ w ∈ g.reads, ∀ i ∈ s.dead, ∀ g', graph.gates[i]? = some g' →
      w ∉ g'.writes := fun g hg w hw i hi g' hg' =>
    hinv.reads_kept h ((gatesAt_sublist s.graph _).subset hg) hw hi hg'
  have hdead : ∀ {w : Wire}, (∀ i ∈ s.dead, ∀ g, graph.gates[i]? = some g → w ∉ g.writes) →
      ∀ g ∈ gatesAt s.graph fun i => !decide (i ∉ s.dead), w ∉ g.writes := by
    intro w hw g hg
    obtain ⟨i,hi,hkeep⟩ := mem_gatesAt.mp hg
    obtain ⟨p,hp,hlink⟩ := hinv.relinks.gate_at hi
    simp only [Bool.not_eq_true',decide_eq_false_iff_not,not_not] at hkeep
    exact hlink.writes ▸ hw i hkeep p hp
  have hwords : ∀ σ w, (∀ i ∈ s.dead, ∀ g, graph.gates[i]? = some g → w ∉ g.writes) →
      run (program hints (survivors s)) σ w = evaluate hints graph σ w := by
    intro σ w hw
    rw [←hinv.evaluate_eq h σ]
    exact run_gatesAt (hinv.evaluable h) (fun g hg v hv => hdead (hreads g hg v hv)) σ (hdead hw)
  have hmerged : ∀ i ∈ s.dead, ∃ k < i, k ∉ s.dead ∧ ∃ g g', s.graph.gates[i]? = some g ∧
      s.graph.gates[k]? = some g' ∧ structureOf g = structureOf g' ∧ g.inputs = g'.inputs := by
    intro i hi
    obtain ⟨k,hki,hk,g,g',hg,hg',hsame⟩ := hinv.merged i hi
    refine ⟨k,hki,hk,_,_,hrenamed hg,hrenamed hg',hsame,?_⟩
    exact inputs_of_structure ((hinv.evaluable h).fits _ (mem_of_getElem? (hrenamed hg)))
      ((hinv.evaluable h).fits _ (mem_of_getElem? (hrenamed hg'))) hsame
  refine ⟨s,hs,hinv.relinks,hinv.evaluate_eq h,hwords,fun i hi g hg w hw => ?_,hreads,hmerged,
    fun σ g hg hfail => ?_⟩
  · obtain ⟨-,p,hp,hout⟩ := hinv.removed i hi
    rw [hg,Option.some.injEq] at hp
    exact (hout w (hp ▸ hw)).1
  · -- the failing gate is kept, or has the structure of a gate that is
    have hsurvives : ∀ g' ∈ survivors s, ¬Passes hints g' (g'.inputs.map (evaluate hints graph σ)) →
        ¬Passes hints g' (g'.inputs.map (run (program hints (survivors s)) σ)) := by
      intro g' hg' hfails
      rw [map_congr_left fun w hw => hwords σ w (hreads g' hg' w (mem_append_right _ hw))]
      exact hfails
    obtain ⟨i,hi⟩ := mem_iff_getElem?.mp hg
    have hthrough := (relinked_readThrough (canonicalWire s.remap) g).rewired (σ := evaluate hints graph σ)
      ((map_map ..).trans (map_congr_left fun w _ => hinv.word σ w))
    have hfail' := (not_congr (@Rewired.passes hints _ _ _ hthrough)).mpr hfail
    by_cases hkeep : i ∈ s.dead
    · obtain ⟨k,-,hk,p,q,hp,hq,hsame,hinputs⟩ := hmerged i hkeep
      rw [hrenamed hi,Option.some.injEq] at hp
      subst hp
      have hq' := mem_survivors.mpr ⟨k,hq,hk⟩
      obtain ⟨hbody,-,himm,hdim⟩ := GateStructure.mk.inj hsame
      refine ⟨q,hq',hsurvives q hq' fun hpass => hfail' ?_⟩
      rw [hinputs]
      obtain ⟨outs,houts⟩ := hpass
      exact ⟨outs,(evaluate_congr hbody himm hdim _).trans houts⟩
    · have hg' := mem_survivors.mpr ⟨i,hrenamed hi,hkeep⟩
      exact ⟨_,hg',hsurvives _ hg' hfail'⟩

/-- Two equal gates, each asserted to agree with one input. -/
def twins : Graph where
  gates := [⟨.op .band,[],[1,2],[3],[],[],[],[],0⟩,⟨.op .band,[],[1,2],[4],[],[],[],[],1⟩,
    ⟨.op .assertEq,[],[3,2],[],[],[],[],[],2⟩,⟨.op .assertEq,[],[4,2],[],[],[],[],[],3⟩]
  wires := [.constant allOne,.inOut,.constant 0xff,.internal,.internal]

theorem twins_evaluable (hints : HintRegistry) : Evaluable hints twins where
  fits := by
    intro g hg
    simp only [twins,mem_cons,not_mem_nil,or_false] at hg
    rcases hg with rfl | rfl | rfl | rfl <;> exact ⟨rfl,rfl,rfl,rfl,rfl,nofun,nofun⟩
  distinct := by decide
  constants := by
    intro g hg
    simp only [twins,mem_cons,not_mem_nil,or_false] at hg
    rcases hg with rfl | rfl | rfl | rfl <;> rfl
  unwritten w word hword g hg hw := by
    have hinternal : ∀ g ∈ twins.gates, ∀ w ∈ g.writes, twins.constOf w = none := by decide
    rw [hinternal g hg w hw] at hword
    cases hword
  inside := by decide
  sourced := by
    have hfree : ∀ w : Wire, w < 3 → ∀ g ∈ twins.gates, w ∉ g.writes := by decide
    intro i g hg w hw
    match i with
    | 0 | 1 =>
      cases hg
      rcases mem_cons.mp hw with rfl | hw
      · exact .inl (hfree 1 (by decide))
      · exact .inl (mem_singleton.mp hw ▸ hfree 2 (by decide))
    | 2 =>
      cases hg
      rcases mem_cons.mp hw with rfl | hw
      · exact .inr ⟨0,by decide,_,rfl,mem_singleton_self _⟩
      · exact .inl (mem_singleton.mp hw ▸ hfree 2 (by decide))
    | 3 =>
      cases hg
      rcases mem_cons.mp hw with rfl | hw
      · exact .inr ⟨1,by decide,_,rfl,mem_singleton_self _⟩
      · exact .inl (mem_singleton.mp hw ▸ hfree 2 (by decide))

/-- Of two equal gates and two assertions about them, the second ones are collapsed. -/
theorem dedup_sound_twins : ∃ s, dedupGates twins [] = s ∧ s.dead = [3,1] ∧
    ∀ i ∈ s.dead, ∃ k < i, k ∉ s.dead := by
  obtain ⟨s,hs,-,-,-,-,-,hmerged,-⟩ := dedup_sound
    (twins_evaluable fun _ => ⟨fun _ => (0,0),fun _ _ => [],fun _ _ => rfl⟩) []
  have hdead : (dedupGates twins []).dead = [3,1] := by decide
  rw [hs] at hdead
  refine ⟨s,hs,hdead,fun i hi => ?_⟩
  obtain ⟨k,hki,hk,-⟩ := hmerged i hi
  exact ⟨k,hki,hk⟩

end Binius64.SubexpressionElimination
