import Binius64.CarryChain
import Binius64.MeasuredLoop
import Binius64.WireForwarding

/-!
# Zero propagation

A gate that a zero operand turns into the identity has its result on another wire.
-/

namespace Binius64.ZeroPropagation

open MachineWord ShiftAlgebra CarryChain WireConstraints EvalForm GateGraph GateKinds
open List GateConstraints GraphInvariant GraphEvaluation ScratchAlloc WireForwarding MeasuredLoop

/-- Where each of a gate's outputs moves to, when a zero operand makes the gate an identity. -/
def zeroIdentity (graph : Graph) (pinned : EntitySet) (zeroWire : Wire) (gate : GateId) :
    Option (List (Wire × Wire)) :=
  match graph.gates[gate]? with
  | none => none
  | some g =>
    match g.body with
    | .hint _ => none
    | .op opcode =>
      if g.outputs.any pinned.contains then none
      else
        match opcode, g.inputs, g.outputs with
        | .shift, [x], [z] => if x = zeroWire then some [(z,zeroWire),(zeroWire,zeroWire)] else none
        | .bxor, [a,b], [z] =>
          if b = zeroWire then some [(z,a),(zeroWire,zeroWire)]
          else if a = zeroWire then some [(z,b),(zeroWire,zeroWire)]
          else none
        | .iadd32, [a,b], [sum,cout] =>
          if b = zeroWire then some [(sum,a),(cout,zeroWire)]
          else if a = zeroWire then some [(sum,b),(cout,zeroWire)]
          else none
        | _, _, _ => none

def forwardings (graph : Graph) (pinned : EntitySet) (zeroWire : Wire) : List (Wire × Wire) :=
  (range graph.gates.length).flatMap fun gate => (zeroIdentity graph pinned zeroWire gate).getD []

def forwardAll (uses : Wire → List GateId) : Graph → List (Wire × Wire) → Graph × ℕ
  | graph, [] => (graph,0)
  | graph, (old,new) :: rest =>
    let (graph,replacement) := graph.replaceWireWithWire uses old new
    let (graph,n) := forwardAll uses graph rest
    (graph,replacement.nSlotsRewritten + n)

/-- One sweep, with the slots rewritten so far. -/
def sweep (pinned : EntitySet) (zeroWire : Wire) (s : Graph × ℕ) : Graph × ℕ ⊕ Graph × ℕ :=
  let (graph,total) := s
  let (graph,rewritten) := forwardAll graph.wireUses graph (forwardings graph pinned zeroWire)
  if rewritten = 0 then .inr (graph,total) else .inl (graph,total + rewritten)

/-- Rewrite every gate that a zero operand turns into the identity, in so many sweeps at most. -/
def zeroPropagation (graph : Graph) (pinned : EntitySet) (steps : ℕ) : Option (Graph × ℕ) :=
  match graph.findConstant 0 with
  | none => some (graph,0)
  | some zeroWire => loop (sweep pinned zeroWire) steps (graph,0)

theorem iaddCout32_zero_right (a : Word) : iaddCout32 a 0 = (a,0) := by
  have h := (iaddCout32_solves a 0 a 0).mp (by
    have hshift : sll32 0#64 1 = 0#64 := rfl
    simp only [BitVec.ofNat_eq_ofNat,hshift,BitVec.xor_zero,BitVec.and_zero,and_self])
  exact Prod.ext h.1.symm h.2.symm

theorem iaddCout32_zero_left (b : Word) : iaddCout32 0 b = (b,0) := by
  have h := (iaddCout32_solves 0 b b 0).mp (by
    have hshift : sll32 0#64 1 = 0#64 := rfl
    simp only [BitVec.ofNat_eq_ofNat,hshift,BitVec.xor_zero,BitVec.zero_xor,BitVec.zero_and,and_self])
  exact Prod.ext h.1.symm h.2.symm

variable {hints : HintRegistry} {graph : Graph} {pinned : EntitySet} {zeroWire : Wire}

theorem constOf_findConstant {word : Word} {w : Wire} (h : graph.findConstant word = some w) :
    graph.constOf w = some word := by
  obtain ⟨hlt,heq,-⟩ := findIdx?_eq_some_iff_getElem.mp h
  refine constOf_eq_some.mpr ?_
  rw [getElem?_eq_getElem hlt]
  exact congrArg some (of_decide_eq_true heq)

theorem forward_slot (h : Evaluable hints graph) (hzero : graph.constOf zeroWire = some 0) {gate : GateId}
    {g : GateData} (hg : graph.gates[gate]? = some g) {p : Wire × Wire} (hout : p.1 ∈ g.outputs)
    (hto : p.2 = zeroWire ∨ p.2 ∈ g.inputs) (hwords : ∀ σ, HoldsConstants graph σ →
      evaluate hints graph σ p.2 = evaluate hints graph σ p.1) :
    Slot hints graph (HoldsConstants graph) p.1 p.2 ∧ p.2 < graph.wires.length := by
  have hlevel := level_of_writes h hg (mem_writes_of_outputs hout)
  rcases hto with hto | hto
  · have hfree := h.unwritten zeroWire 0 hzero
    refine ⟨.single ⟨hwords,?_,.inl (hto ▸ hfree)⟩,hto ▸ lt_of_constOf hzero⟩
    rw [hlevel,hto,level_of_unwritten hfree]
    exact Nat.succ_pos gate
  · have hread : p.2 ∈ g.reads := mem_append_right _ hto
    refine ⟨.single ⟨hwords,?_,?_⟩,h.inside g (mem_of_getElem? hg) _ (GateData.mem_wires.mpr (.inl hread))⟩
    · rw [hlevel]
      exact Nat.lt_succ_of_le (level_le h hg hread)
    · refine (h.sourced gate g hg p.2 hread).imp_right ?_
      rintro ⟨j,-,g',hg',ho⟩
      exact ⟨j,g',hg',ho⟩

variable {pairs : List (Wire × Wire)}

theorem zeroIdentity_slots (h : Evaluable hints graph) (hzero : graph.constOf zeroWire = some 0) {gate : GateId}
    (hpairs : zeroIdentity graph pinned zeroWire gate = some pairs) :
    ∀ p ∈ pairs, Slot hints graph (HoldsConstants graph) p.1 p.2 ∧ p.2 < graph.wires.length := by
  have hpadding : Slot hints graph (HoldsConstants graph) (zeroWire,zeroWire).1 (zeroWire,zeroWire).2 ∧
      (zeroWire,zeroWire).2 < graph.wires.length := ⟨.refl,lt_of_constOf hzero⟩
  cases hgate : graph.gates[gate]? with
  | none =>
    rw [zeroIdentity,hgate] at hpairs
    cases hpairs
  | some g =>
    have hmem := mem_of_getElem? hgate
    have hword : ∀ σ, HoldsConstants graph σ → evaluate hints graph σ zeroWire = 0 := fun σ hσ =>
      h.holdsConstants hσ zeroWire 0 hzero
    have hslot := @forward_slot hints graph zeroWire h hzero gate g hgate
    have houts := fun σ => @Evaluable.outputs_eq hints graph h σ g hmem
    simp only [zeroIdentity,hgate] at hpairs
    cases (h.fits g hmem).shaped
    case shift x z n dims path variant hn =>
      simp only [Option.ite_none_left_eq_some,Option.ite_none_right_eq_some,Option.some.injEq] at hpairs
      obtain ⟨-,hx,rfl⟩ := hpairs
      refine forall_mem_cons.mpr ⟨hslot (mem_singleton_self z) (.inl rfl) fun σ hσ => ?_,
        forall_mem_singleton.mpr hpadding⟩
      have hz := houts σ (evaluates_shift hints x z n dims path variant _)
      have hshift := Shift.apply_zero (s := ⟨variant,n⟩) hn
      rw [hx,hword σ hσ] at hz
      rw [map_singleton,singleton_inj] at hz
      rw [hword σ hσ]
      exact (hz.trans hshift).symm
    case bxor a b z imms dims path =>
      have hz : ∀ σ, evaluate hints graph σ z = evaluate hints graph σ a ^^^ evaluate hints graph σ b :=
        fun σ => singleton_inj.mp (houts σ rfl)
      have hright : b = zeroWire → ∀ σ, HoldsConstants graph σ →
          evaluate hints graph σ a = evaluate hints graph σ z := fun hb σ hσ => by
        rw [hz σ,hb,hword σ hσ,BitVec.ofNat_eq_ofNat,BitVec.xor_zero]
      have hleft : a = zeroWire → ∀ σ, HoldsConstants graph σ →
          evaluate hints graph σ b = evaluate hints graph σ z := fun ha σ hσ => by
        rw [hz σ,ha,hword σ hσ,BitVec.ofNat_eq_ofNat,BitVec.zero_xor]
      rw [Option.ite_none_left_eq_some] at hpairs
      obtain ⟨-,hpairs⟩ := hpairs
      dsimp only at hpairs
      split at hpairs
      case isTrue hb =>
        rw [←Option.some.inj hpairs]
        exact forall_mem_cons.mpr ⟨hslot (mem_singleton_self z) (.inr mem_cons_self) (hright hb),
          forall_mem_singleton.mpr hpadding⟩
      case isFalse =>
        rw [Option.ite_none_right_eq_some] at hpairs
        rw [←Option.some.inj hpairs.2]
        exact forall_mem_cons.mpr ⟨hslot (mem_singleton_self z)
          (.inr (mem_cons_of_mem a (mem_singleton_self b))) (hleft hpairs.1),
          forall_mem_singleton.mpr hpadding⟩
    case iadd32 a b sum cout imms dims path =>
      have hout : ∀ σ, evaluate hints graph σ sum =
            (iaddCout32 (evaluate hints graph σ a) (evaluate hints graph σ b)).1 ∧
          evaluate hints graph σ cout =
            (iaddCout32 (evaluate hints graph σ a) (evaluate hints graph σ b)).2 := by
        intro σ
        obtain ⟨hsum,hcout⟩ := cons_eq_cons.mp (houts σ rfl)
        exact ⟨hsum,singleton_inj.mp hcout⟩
      have hright : b = zeroWire → ∀ σ, HoldsConstants graph σ →
          evaluate hints graph σ a = evaluate hints graph σ sum ∧
            evaluate hints graph σ zeroWire = evaluate hints graph σ cout := fun hb σ hσ => by
        rw [(hout σ).1,(hout σ).2,hb,hword σ hσ,iaddCout32_zero_right]
        exact ⟨rfl,rfl⟩
      have hleft : a = zeroWire → ∀ σ, HoldsConstants graph σ →
          evaluate hints graph σ b = evaluate hints graph σ sum ∧
            evaluate hints graph σ zeroWire = evaluate hints graph σ cout := fun ha σ hσ => by
        rw [(hout σ).1,(hout σ).2,ha,hword σ hσ,iaddCout32_zero_left]
        exact ⟨rfl,rfl⟩
      have hcout : cout ∈ [sum,cout] := mem_cons_of_mem sum (mem_singleton_self cout)
      rw [Option.ite_none_left_eq_some] at hpairs
      obtain ⟨-,hpairs⟩ := hpairs
      dsimp only at hpairs
      split at hpairs
      case isTrue hb =>
        rw [←Option.some.inj hpairs]
        exact forall_mem_cons.mpr ⟨hslot mem_cons_self (.inr mem_cons_self)
          fun σ hσ => (hright hb σ hσ).1,
          forall_mem_singleton.mpr (hslot hcout (.inl rfl) fun σ hσ => (hright hb σ hσ).2)⟩
      case isFalse =>
        rw [Option.ite_none_right_eq_some] at hpairs
        rw [←Option.some.inj hpairs.2]
        exact forall_mem_cons.mpr ⟨hslot mem_cons_self
          (.inr (mem_cons_of_mem a (mem_singleton_self b))) fun σ hσ => (hleft hpairs.1 σ hσ).1,
          forall_mem_singleton.mpr (hslot hcout (.inl rfl) fun σ hσ => (hleft hpairs.1 σ hσ).2)⟩
    case hint => cases hpairs
    all_goals
      rw [Option.ite_none_left_eq_some] at hpairs
      cases hpairs.2

theorem forwardings_slots (h : Evaluable hints graph) (hzero : graph.constOf zeroWire = some 0)
    {p : Wire × Wire} (hp : p ∈ forwardings graph pinned zeroWire) :
    Slot hints graph (HoldsConstants graph) p.1 p.2 ∧ p.2 < graph.wires.length := by
  obtain ⟨gate,-,hgate⟩ := mem_flatMap.mp hp
  cases hpairs : zeroIdentity graph pinned zeroWire gate with
  | none =>
    rw [hpairs] at hgate
    cases hgate
  | some pairs =>
    rw [hpairs] at hgate
    exact zeroIdentity_slots h hzero hpairs p hgate

theorem forwardAll_replaced {graph' : Graph} {given : (Wire → Word) → Prop} (h : Evaluable hints graph)
    (hforwarded : Forwarded hints graph given graph')
    (hpairs : ∀ p ∈ pairs, Slot hints graph given p.1 p.2 ∧ p.2 < graph'.wires.length) :
    Replaced hints graph given graph' (forwardAll graph.wireUses graph' pairs).1
      (forwardAll graph.wireUses graph' pairs).2 := by
  induction pairs generalizing graph' with
  | nil => exact ⟨hforwarded,rfl,Nat.le_refl _⟩
  | cons p rest ih =>
    rw [forall_mem_cons] at hpairs
    have hfirst := hforwarded.replaceWireWithWire h hpairs.1.1 hpairs.1.2
    have hrest := ih hfirst.forwarded fun q hq => by
      rw [hfirst.wires]
      exact hpairs.2 q hq
    refine ⟨hrest.forwarded,hrest.wires.trans hfirst.wires,?_⟩
    have hlow := hfirst.levels
    have hlow' := hrest.levels
    rw [forwardAll]
    dsimp only
    omega

theorem forwardAll_eq_self (h : (forwardAll graph.wireUses graph pairs).2 = 0) :
    (forwardAll graph.wireUses graph pairs).1 = graph ∧
      ∀ p ∈ pairs, p.2 ≠ p.1 → ∀ g ∈ graph.gates, p.1 ∉ g.reads := by
  induction pairs with
  | nil => exact ⟨rfl,nofun⟩
  | cons p rest ih =>
    obtain ⟨hslots,hrest⟩ := Nat.add_eq_zero_iff.mp h
    obtain ⟨hsame,hunread⟩ := replaceWireWithWire_eq_self hslots
    have hnext : (forwardAll graph.wireUses graph rest).2 = 0 := by
      have hrest' : (forwardAll graph.wireUses
        (graph.replaceWireWithWire graph.wireUses p.1 p.2).1 rest).2 = 0 := hrest
      rwa [hsame] at hrest'
    obtain ⟨hgraph,hall⟩ := ih hnext
    refine ⟨?_,forall_mem_cons.mpr ⟨hunread,hall⟩⟩
    change (forwardAll graph.wireUses (graph.replaceWireWithWire graph.wireUses p.1 p.2).1 rest).1 = graph
    rw [hsame,hgraph]

structure SweepInv (hints : HintRegistry) (graph : Graph) (s : Graph × ℕ) : Prop where
  forwarded : Forwarded hints graph (HoldsConstants graph) s.1
  wires : s.1.wires = graph.wires

/-- What holds after the last sweep: no gate reads a wire that could be forwarded. -/
structure Swept (hints : HintRegistry) (graph : Graph) (pinned : EntitySet) (zeroWire : Wire) (r : Graph × ℕ) :
    Prop extends SweepInv hints graph r where
  unread : ∀ p ∈ forwardings r.1 pinned zeroWire, p.2 ≠ p.1 → ∀ g ∈ r.1.gates, p.1 ∉ g.reads

theorem sweep_progress (h : Evaluable hints graph) (hzero : graph.constOf zeroWire = some 0) (s : Graph × ℕ)
    (hs : SweepInv hints graph s) : Progress (SweepInv hints graph) (Swept hints graph pinned zeroWire)
      (fun s => readLevels (level graph) s.1.gates) s (sweep pinned zeroWire s) := by
  obtain ⟨graph',total⟩ := s
  have h' := hs.forwarded.evaluable h
  have hwires : graph'.wires = graph.wires := hs.wires
  have hgiven : HoldsConstants graph' = HoldsConstants graph := holdsConstants_congr hwires
  have hslots : ∀ p ∈ forwardings graph' pinned zeroWire,
      Slot hints graph' (HoldsConstants graph) p.1 p.2 ∧ p.2 < graph'.wires.length := fun p hp =>
    hgiven ▸ forwardings_slots h' (constOf_congr hwires ▸ hzero) hp
  have hreplaced := forwardAll_replaced h' (Forwarded.refl h' (HoldsConstants graph)) hslots
  have hinv : ∀ total', SweepInv hints graph
      ((forwardAll graph'.wireUses graph' (forwardings graph' pinned zeroWire)).1,total') := fun _ =>
    ⟨hs.forwarded.trans h hreplaced.forwarded,hreplaced.wires.trans hwires⟩
  rw [sweep]
  dsimp only
  split
  case isTrue hstop =>
    obtain ⟨hsame,hunread⟩ := forwardAll_eq_self hstop
    refine ⟨hinv total,?_⟩
    rw [hsame]
    exact hunread
  case isFalse hgo =>
    refine ⟨hinv _,?_⟩
    have hlow := hreplaced.levels
    rw [level_eq h h' hs.forwarded.relinks] at hlow
    exact (Nat.lt_add_of_pos_right (Nat.pos_of_ne_zero hgo)).trans_le hlow

/-- Zero propagation ends, after no more sweeps than the levels of all inputs add up to. Every wire then holds
what it held, every gate reads the words it read, and none reads a wire that could still be forwarded. -/
theorem zero_propagation_ends (h : Evaluable hints graph) (pinned : EntitySet) :
    ∃ final total, (∀ steps, readLevels (level graph) graph.gates < steps →
        zeroPropagation graph pinned steps = some (final,total)) ∧
      Relinks graph final ∧ final.wires = graph.wires ∧ Evaluable hints final ∧
      (∀ σ, HoldsConstants graph σ → evaluate hints final σ = evaluate hints graph σ) ∧
      (∀ σ, HoldsConstants graph σ → ∀ (i : GateId) g g', graph.gates[i]? = some g → final.gates[i]? = some g' →
        g'.inputs.map (evaluate hints final σ) = g.inputs.map (evaluate hints graph σ)) ∧
      ∀ zeroWire, graph.findConstant 0 = some zeroWire → ∀ p ∈ forwardings final pinned zeroWire, p.2 ≠ p.1 →
        ∀ g ∈ final.gates, p.1 ∉ g.reads := by
  have hfinish : ∀ {r : Graph × ℕ}, SweepInv hints graph r → Relinks graph r.1 ∧ r.1.wires = graph.wires ∧
      Evaluable hints r.1 ∧ (∀ σ, HoldsConstants graph σ → evaluate hints r.1 σ = evaluate hints graph σ) ∧
      ∀ σ, HoldsConstants graph σ → ∀ (i : GateId) g g', graph.gates[i]? = some g → r.1.gates[i]? = some g' →
        g'.inputs.map (evaluate hints r.1 σ) = g.inputs.map (evaluate hints graph σ) := by
    intro r hr
    have hwords := fun σ hσ => hr.forwarded.evaluate_eq (σ := σ) h hσ
    refine ⟨hr.forwarded.relinks,hr.wires,hr.forwarded.evaluable h,hwords,fun σ hσ i g g' hg hg' => ?_⟩
    obtain ⟨p,hp,hgate⟩ := hr.forwarded.gate_at hg'
    rw [hg,Option.some.injEq] at hp
    subst hp
    rw [hwords σ hσ]
    exact Forwarded.inputs_eq hgate hσ
  have hstart : SweepInv hints graph (graph,0) := ⟨Forwarded.refl h _,rfl⟩
  cases hfind : graph.findConstant 0 with
  | none =>
    obtain ⟨hlinks,hwires,hevaluable,hwords,hinputs⟩ := hfinish hstart
    exact ⟨graph,0,fun steps _ => by rw [zeroPropagation,hfind],hlinks,hwires,hevaluable,hwords,hinputs,nofun⟩
  | some zeroWire =>
    obtain ⟨⟨final,total⟩,hswept,hsteps⟩ := loop_ends
      (@sweep_progress _ _ pinned _ h (constOf_findConstant hfind)) hstart
    obtain ⟨hlinks,hwires,hevaluable,hwords,hinputs⟩ := hfinish hswept.toSweepInv
    refine ⟨final,total,fun steps hlt => ?_,hlinks,hwires,hevaluable,hwords,hinputs,fun w hw => ?_⟩
    · rw [zeroPropagation,hfind]
      exact hsteps steps hlt
    · rw [←Option.some.inj hw]
      exact hswept.unread

/-- A word that is zero by a shift, added to a value by an exclusive or, and the sum asserted to be zero. -/
def padded : Graph where
  gates := [⟨.op .shift,[],[1],[3],[],[],[0,32],[],0⟩,⟨.op .bxor,[],[2,3],[4],[],[],[],[],0⟩,
    ⟨.op .assertZero,[],[4],[],[],[],[],[],0⟩]
  wires := [.constant allOne,.constant 0,.inOut,.internal,.internal]

theorem padded_evaluable (hints : HintRegistry) : Evaluable hints padded where
  fits := by
    intro g hg
    simp only [padded,mem_cons,not_mem_nil,or_false] at hg
    rcases hg with rfl | rfl | rfl
    · exact ⟨rfl,rfl,rfl,rfl,rfl,fun _ => ⟨.sll,32,rfl,by decide⟩,nofun⟩
    · exact ⟨rfl,rfl,rfl,rfl,rfl,nofun,nofun⟩
    · exact ⟨rfl,rfl,rfl,rfl,rfl,nofun,nofun⟩
  distinct := by decide
  constants := by
    intro g hg
    simp only [padded,mem_cons,not_mem_nil,or_false] at hg
    rcases hg with rfl | rfl | rfl <;> rfl
  unwritten w word hword g hg hw := by
    have hinternal : ∀ g ∈ padded.gates, ∀ w ∈ g.writes, padded.constOf w = none := by decide
    rw [hinternal g hg w hw] at hword
    cases hword
  inside := by decide
  sourced := by
    have hfree : ∀ w : Wire, w < 3 → ∀ g ∈ padded.gates, w ∉ g.writes := by decide
    intro i g hg w hw
    match i with
    | 0 =>
      cases hg
      exact .inl (mem_singleton.mp hw ▸ hfree 1 (by decide))
    | 1 =>
      cases hg
      rcases mem_cons.mp hw with rfl | hw
      · exact .inl (hfree 2 (by decide))
      · exact .inr ⟨0,Nat.one_pos,_,rfl,hw⟩
    | 2 =>
      cases hg
      exact .inr ⟨1,Nat.one_lt_two,_,rfl,hw⟩

/-- The assertion reads the value itself in the end. -/
theorem zero_propagation_ends_padded : ∃ final total, zeroPropagation padded [] 5 = some (final,total) ∧
    final.gates.map GateData.reads = [[1],[2,1],[2]] := by
  obtain ⟨final,total,hsteps,-⟩ := zero_propagation_ends
    (padded_evaluable fun _ => ⟨fun _ => (0,0),fun _ _ => [],fun _ _ => rfl⟩) []
  have hrun : (zeroPropagation padded [] 5).map (fun r => r.1.gates.map GateData.reads) =
      some [[1],[2,1],[2]] := by decide
  have hlast := hsteps 5 (by decide)
  rw [hlast,Option.map_some,Option.some.injEq] at hrun
  exact ⟨final,total,hlast,hrun⟩

end Binius64.ZeroPropagation
