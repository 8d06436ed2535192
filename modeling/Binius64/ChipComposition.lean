import Binius64.CheckedRun
import Binius64.ChipSystem
import Binius64.WireConstraints

/-!
# Circuits composed of chips

A system of circuits that call one another by position in one list.
-/

namespace Binius64.ChipComposition

open MachineWord ShiftAlgebra ValueVector CheckedRun ConstraintSystem ChipSystem WireConstraints List
open Option (map_eq_some_iff map_none map_some)

/-- A compiled circuit: its constraints, where it keeps its words, and its inout wires in segment order. -/
structure Circuit where
  system : System
  layout : ValueVecLayout
  witnessIndex : Wire → ValueIndex
  inout : List Wire
  nInout : layout.nInout = inout.length
  systemInout : system.nInout = inout.length
  index : ∀ (p : ℕ) (w : Wire), inout[p]? = some w →
    (witnessIndex w).segment = .inOut ∧ (witnessIndex w).index = p

structure EmbeddedCircuit where
  circuit : Circuit
  /-- The chips this one delegates to, one entry per call per instance. -/
  chipCalls : List ChipCall

structure CircuitM4 where
  main : EmbeddedCircuit
  chips : List (EmbeddedCircuit × ℕ)

def evalCall (values : WordSource) (call : ChipCall) : List Word := call.inout.map (evalOperand values)

def fillInout (circuit : Circuit) (words : List Word) (values : ValueVec) : Checked ValueVec :=
  circuit.inout.zipIdx.foldlM (fun values (p : Wire × ℕ) =>
    values.write (values.wordOffset (circuit.witnessIndex p.1)) (words.getD p.2 0)) values

/-- Addition that stays at the largest machine integer. -/
def saturatingAdd (a b : ℕ) : ℕ := min (a + b) (usizeBound - 1)

/-- Give each of some calls the next instances of its callee. -/
def claimInstances (nChips : ℕ) (advance : ℕ → ℕ) :
    (ℕ → ℕ) → List ChipCall → Checked ((ℕ → ℕ) × List ChipCall)
  | nCalls, [] => return (nCalls,[])
  | nCalls, call :: rest =>
    if call.chipId < nChips then do
      let (after,rest) ← claimInstances nChips advance
        (Function.update nCalls call.chipId (advance (nCalls call.chipId))) rest
      return (after,{call with firstInstance := nCalls call.chipId} :: rest)
    else throw .chipOutOfRange

/-- Count the instances of the chips from one position on, and give their calls theirs. -/
def claimChips (nChips : ℕ) : ℕ → (ℕ → ℕ) → List (EmbeddedCircuit × ℕ) →
    Checked (List (EmbeddedCircuit × ℕ))
  | _, _, [] => return []
  | chipIndex, nCalls, (chip,_) :: rest => do
    let nActive := nCalls chipIndex
    let (nCalls,calls) ← claimInstances nChips (saturatingAdd · nActive) nCalls chip.chipCalls
    let rest ← claimChips nChips (chipIndex + 1) nCalls rest
    return ({chip with chipCalls := calls},nActive) :: rest

/-- Give each call the callee instances it invokes, and each chip the count of the ones it is left with. -/
def CircuitM4.recomputeInstances (m : CircuitM4) : Checked CircuitM4 := do
  let (nCalls,calls) ← claimInstances m.chips.length (· + 1) (fun _ => 0) m.main.chipCalls
  let chips ← claimChips m.chips.length 0 nCalls m.chips
  return ⟨{m.main with chipCalls := calls},chips⟩

def EmbeddedCircuit.lower (e : EmbeddedCircuit) : EmbeddedConstraintSystem := ⟨e.circuit.system,e.chipCalls⟩

def CircuitM4.toConstraintSystem (m : CircuitM4) : SystemM4 :=
  ⟨m.main.lower,m.chips.map fun chip => (chip.1.lower,chip.2)⟩

def EmbeddedCircuit.shiftCalls (offset : ℕ) (e : EmbeddedCircuit) : EmbeddedCircuit :=
  {e with chipCalls := e.chipCalls.map fun call => {call with chipId := call.chipId + offset}}

inductive CallTree where
  | node (circuit : Circuit) (calls : List (List Operand × Option CallTree))

def callTree (chips : List EmbeddedCircuit) : ℕ → EmbeddedCircuit → CallTree
  | 0, e => .node e.circuit []
  | depth + 1, e => .node e.circuit (e.chipCalls.map fun call =>
      (call.inout,(chips[call.chipId]?).map (callTree chips depth)))

def Closed (chips : List EmbeddedCircuit) (e : EmbeddedCircuit) : Prop :=
  ∀ call ∈ e.chipCalls, call.chipId < chips.length

def Topological (chips : List EmbeddedCircuit) : Prop :=
  ∀ (i : ℕ) (chip : EmbeddedCircuit), chips[i]? = some chip →
    Closed chips chip ∧ ∀ call ∈ chip.chipCalls, i < call.chipId

def CircuitM4.circuits (m : CircuitM4) : List EmbeddedCircuit := m.chips.map Prod.fst

/-- The chips of a system are in topological order, and its main circuit calls them. -/
structure CircuitM4.Ordered (m : CircuitM4) : Prop where
  main : Closed m.circuits m.main
  chips : Topological m.circuits

theorem Topological.closed {chips : List EmbeddedCircuit} (h : Topological chips) :
    ∀ chip ∈ chips, Closed chips chip := by
  intro chip hchip
  obtain ⟨i,hi⟩ := mem_iff_getElem?.mp hchip
  exact (h i chip hi).1

theorem callTree_shiftCalls {small big : List EmbeddedCircuit} {offset : ℕ}
    (hplace : ∀ (i : ℕ) (chip : EmbeddedCircuit), small[i]? = some chip →
      big[i + offset]? = some (chip.shiftCalls offset))
    (hclosed : ∀ chip ∈ small, Closed small chip) (depth : ℕ) {e : EmbeddedCircuit} (he : Closed small e) :
    callTree big depth (e.shiftCalls offset) = callTree small depth e := by
  induction depth generalizing e with
  | zero => rfl
  | succ depth ih =>
    rw [callTree,callTree,EmbeddedCircuit.shiftCalls,map_map]
    refine congrArg (CallTree.node e.circuit) (map_congr_left fun call hcall => ?_)
    have hchip := getElem?_eq_getElem (he call hcall)
    rw [Function.comp_apply,hchip,hplace _ _ hchip,map_some,map_some,
      ih (hclosed _ (getElem_mem _))]

theorem shiftCalls_zero (e : EmbeddedCircuit) : e.shiftCalls 0 = e := by
  rw [EmbeddedCircuit.shiftCalls]
  simp only [Nat.add_zero,map_id']

theorem callTree_extends {chips more : List EmbeddedCircuit} (hextends : chips <+: more)
    (hclosed : ∀ chip ∈ chips, Closed chips chip) (depth : ℕ) {e : EmbeddedCircuit} (he : Closed chips e) :
    callTree more depth e = callTree chips depth e := by
  have hshift := @callTree_shiftCalls chips more 0 (fun i chip hi => ?_) hclosed depth _ he
  · rwa [shiftCalls_zero] at hshift
  · obtain ⟨behind,rfl⟩ := hextends
    rw [shiftCalls_zero]
    exact (getElem?_append_left (List.getElem?_eq_some_iff.mp hi).1).trans hi

/-- What a circuit is and calls, but for the instances its calls claim. -/
def EmbeddedCircuit.bare (e : EmbeddedCircuit) : Circuit × List (ℕ × List Operand) :=
  (e.circuit,e.chipCalls.map fun call => (call.chipId,call.inout))

theorem callTree_congr {chips chips' : List EmbeddedCircuit}
    (hchips : chips'.map EmbeddedCircuit.bare = chips.map EmbeddedCircuit.bare) (depth : ℕ)
    {e e' : EmbeddedCircuit} (he : e'.bare = e.bare) : callTree chips' depth e' = callTree chips depth e := by
  have hbare : ∀ (chips : List EmbeddedCircuit) (depth : ℕ) (e : EmbeddedCircuit),
      callTree chips (depth + 1) e = .node e.bare.1 (e.bare.2.map fun p =>
        (p.2,(chips[p.1]?).map (callTree chips depth))) := fun chips depth e => by
    rw [callTree,EmbeddedCircuit.bare,map_map]
    rfl
  induction depth generalizing e e' with
  | zero =>
    rw [callTree,callTree]
    exact congrArg (CallTree.node · []) (congrArg Prod.fst he)
  | succ depth ih =>
    rw [hbare,hbare,he]
    refine congrArg (CallTree.node e.bare.1) (map_congr_left fun p _ => ?_)
    have hat := congrArg (fun cs => cs[p.1]?) hchips
    simp only [getElem?_map] at hat
    cases hchip : chips[p.1]? with
    | none =>
      rw [hchip,map_none,Option.map_eq_none_iff] at hat
      rw [hat,map_none,map_none]
    | some chip =>
      rw [hchip,map_some,map_eq_some_iff] at hat
      obtain ⟨chip',hchip',hsame⟩ := hat
      rw [hchip',map_some,map_some,ih hsame]

variable {nChips : ℕ} {nCalls : ℕ → ℕ}

theorem claimInstances_bare {advance nCalls' : ℕ → ℕ}
    {calls calls' : List ChipCall} (h : claimInstances nChips advance nCalls calls = .ok (nCalls',calls')) :
    calls'.map (fun call => (call.chipId,call.inout)) = calls.map fun call => (call.chipId,call.inout) := by
  induction calls generalizing nCalls calls' with
  | nil => cases h; rfl
  | cons call rest ih =>
    rw [claimInstances] at h
    split at h
    case isTrue =>
      obtain ⟨⟨after,rest'⟩,hrest,hpair⟩ := bind_eq_ok.mp h
      cases hpair
      rw [map_cons,map_cons,ih hrest]
    case isFalse => cases h

theorem claimChips_bare {chipIndex : ℕ} {chips chips' : List (EmbeddedCircuit × ℕ)}
    (h : claimChips nChips chipIndex nCalls chips = .ok chips') :
    (chips'.map Prod.fst).map EmbeddedCircuit.bare = (chips.map Prod.fst).map EmbeddedCircuit.bare := by
  induction chips generalizing chipIndex nCalls chips' with
  | nil => cases h; rfl
  | cons chip rest ih =>
    obtain ⟨⟨after,calls⟩,hcalls,hnext⟩ := bind_eq_ok.mp h
    obtain ⟨rest',hrest,hchips⟩ := bind_eq_ok.mp hnext
    cases hchips
    simp only [map_cons,ih hrest]
    rw [EmbeddedCircuit.bare,claimInstances_bare hcalls]
    rfl

theorem recomputeInstances_bare {m m' : CircuitM4} (h : m.recomputeInstances = .ok m') :
    m'.main.bare = m.main.bare ∧
      m'.circuits.map EmbeddedCircuit.bare = m.circuits.map EmbeddedCircuit.bare := by
  obtain ⟨⟨after,calls⟩,hcalls,hnext⟩ := bind_eq_ok.mp h
  obtain ⟨chips,hchips,hm⟩ := bind_eq_ok.mp hnext
  cases hm
  refine ⟨?_,claimChips_bare hchips⟩
  rw [EmbeddedCircuit.bare,claimInstances_bare hcalls]
  rfl

theorem ordered_of_bare {m m' : CircuitM4} (hmain : m'.main.bare = m.main.bare)
    (hchips : m'.circuits.map EmbeddedCircuit.bare = m.circuits.map EmbeddedCircuit.bare) (h : m.Ordered) :
    m'.Ordered := by
  have hlength : m'.circuits.length = m.circuits.length := by
    simpa only [length_map] using congrArg length hchips
  have hcalls : ∀ {e e' : EmbeddedCircuit}, e'.bare = e.bare → ∀ call' ∈ e'.chipCalls,
      ∃ call ∈ e.chipCalls, call.chipId = call'.chipId := by
    intro e e' he call' hcall'
    have hmem : (call'.chipId,call'.inout) ∈ e.bare.2 :=
      he ▸ mem_map_of_mem (f := fun call : ChipCall => (call.chipId,call.inout)) hcall'
    obtain ⟨call,hcall,heq⟩ := mem_map.mp hmem
    exact ⟨call,hcall,congrArg Prod.fst heq⟩
  refine ⟨fun call' hcall' => ?_,fun i chip' hchip' => ?_⟩
  · obtain ⟨call,hcall,hid⟩ := hcalls hmain call' hcall'
    rw [hlength,←hid]
    exact h.main call hcall
  · have hat := congrArg (fun cs => cs[i]?) hchips
    simp only [getElem?_map,hchip',map_some] at hat
    obtain ⟨chip,hchip,hsame⟩ := map_eq_some_iff.mp hat.symm
    refine ⟨fun call' hcall' => ?_,fun call' hcall' => ?_⟩
    · obtain ⟨call,hcall,hid⟩ := hcalls hsame.symm call' hcall'
      rw [hlength,←hid]
      exact (h.chips i chip hchip).1 call hcall
    · obtain ⟨call,hcall,hid⟩ := hcalls hsame.symm call' hcall'
      rw [←hid]
      exact (h.chips i chip hchip).2 call hcall

/-- Claiming instances ends with some totals, or with one that is too large. -/
def Claims (claimed : Except ConstraintSystemError (ℕ → ℕ)) (total : ℕ → ℕ) : Prop :=
  claimed = .ok total ∨ ∃ chipId, claimed = .error (.tooManyInstances chipId)

theorem claimInstances_claims {nActive : ℕ} {advance after : ℕ → ℕ} {calls calls' : List ChipCall}
    (hadvance : ∀ a, a + nActive < usizeBound → advance a = a + nActive)
    (h : claimInstances nChips advance nCalls calls = .ok (after,calls')) (caller : Option ℕ) (i : ℕ) :
    Claims (SystemM4.claimCalls caller nActive i calls' nCalls) after := by
  induction calls generalizing nCalls calls' i with
  | nil =>
    cases h
    exact .inl rfl
  | cons call rest ih =>
    rw [claimInstances] at h
    split at h
    case isTrue =>
      obtain ⟨⟨after',rest'⟩,hrest,hpair⟩ := bind_eq_ok.mp h
      cases hpair
      rw [SystemM4.claimCalls,if_neg (not_not.mpr rfl)]
      dsimp only
      cases htotal : checkedAdd (nCalls call.chipId) nActive with
      | none => exact .inr ⟨_,rfl⟩
      | some total =>
        obtain ⟨hfits,rfl⟩ := checkedAdd_eq_some.mp htotal
        rw [hadvance _ hfits] at hrest
        exact ih hrest (i + 1)
    case isFalse => cases h

theorem claimInstances_frame {advance after : ℕ → ℕ} {calls calls' : List ChipCall}
    (h : claimInstances nChips advance nCalls calls = .ok (after,calls')) {c : ℕ}
    (hc : ∀ call ∈ calls', call.chipId ≠ c) : after c = nCalls c := by
  induction calls generalizing nCalls calls' with
  | nil =>
    cases h
    rfl
  | cons call rest ih =>
    rw [claimInstances] at h
    split at h
    case isTrue =>
      obtain ⟨⟨after',rest'⟩,hrest,hpair⟩ := bind_eq_ok.mp h
      cases hpair
      obtain ⟨hne,hothers⟩ := forall_mem_cons.mp hc
      rw [ih hrest hothers,Function.update_of_ne (Ne.symm hne)]
    case isFalse => cases h

theorem saturatingAdd_eq {a b : ℕ} (h : a + b < usizeBound) : saturatingAdd a b = a + b :=
  min_eq_left (Nat.le_sub_one_of_lt h)

/-- The chips from one position on, as validation walks them. -/
def callersFrom (chipIndex : ℕ) (chips : List (EmbeddedCircuit × ℕ)) :
    List (Option ℕ × EmbeddedConstraintSystem × ℕ) :=
  (chips.zipIdx chipIndex).map fun p => (some p.2,p.1.1.lower,p.1.2)

theorem claimChips_claims {chipIndex : ℕ} {chips chips' : List (EmbeddedCircuit × ℕ)}
    (h : claimChips nChips chipIndex nCalls chips = .ok chips')
    (hlater : ∀ (j : ℕ) (chip : EmbeddedCircuit × ℕ), chips'[j]? = some chip →
      ∀ call ∈ chip.1.chipCalls, chipIndex + j < call.chipId) :
    ∃ total, Claims (SystemM4.claimAll (callersFrom chipIndex chips') nCalls) total ∧
      (∀ c ≤ chipIndex, total c = nCalls c) ∧
      ∀ (j : ℕ) (chip : EmbeddedCircuit × ℕ), chips'[j]? = some chip → total (chipIndex + j) = chip.2 := by
  induction chips generalizing chipIndex nCalls chips' with
  | nil =>
    cases h
    exact ⟨nCalls,.inl rfl,fun _ _ => rfl,nofun⟩
  | cons chip rest ih =>
    obtain ⟨⟨after,calls⟩,hcalls,hnext⟩ := bind_eq_ok.mp h
    obtain ⟨rest',hrest,hchips⟩ := bind_eq_ok.mp hnext
    cases hchips
    have hown : ∀ c ≤ chipIndex, after c = nCalls c := fun c hc =>
      claimInstances_frame hcalls fun call hcall => by
        have := hlater 0 _ rfl call hcall
        omega
    obtain ⟨total,hclaims,hframe,hcounts⟩ := ih hrest fun j chip' hj call hcall => by
      have := hlater (j + 1) chip' hj call hcall
      omega
    refine ⟨total,?_,fun c hc => (hframe c (by omega)).trans (hown c hc),fun j chip' hj => ?_⟩
    · rcases claimInstances_claims (fun a => saturatingAdd_eq) hcalls (some chipIndex) 0 with hok | ⟨c,herror⟩
      · rw [callersFrom,zipIdx_cons,map_cons,SystemM4.claimAll]
        dsimp only [EmbeddedCircuit.lower]
        rw [hok]
        exact hclaims
      · refine .inr ⟨c,?_⟩
        rw [callersFrom,zipIdx_cons,map_cons,SystemM4.claimAll]
        dsimp only [EmbeddedCircuit.lower]
        rw [herror]
        rfl
    · cases j with
      | zero =>
        cases hj
        exact (hframe chipIndex (by omega)).trans (hown chipIndex (Nat.le_refl _))
      | succ j =>
        have hat := hcounts j chip' hj
        rwa [Nat.add_right_comm,Nat.add_assoc] at hat

theorem recomputeInstances_valid {m m' : CircuitM4} (h : m.recomputeInstances = .ok m') (hm : m'.Ordered) :
    m'.toConstraintSystem.validateInstances = .ok () ∨
      ∃ chipId, m'.toConstraintSystem.validateInstances = .error (.tooManyInstances chipId) := by
  obtain ⟨⟨nCalls,calls⟩,hcalls,hnext⟩ := bind_eq_ok.mp h
  obtain ⟨chips,hchips,hpair⟩ := bind_eq_ok.mp hnext
  cases hpair
  have hlater : ∀ (j : ℕ) (chip : EmbeddedCircuit × ℕ), chips[j]? = some chip →
      ∀ call ∈ chip.1.chipCalls, 0 + j < call.chipId := fun j chip hj call hcall => by
    have hat : (chips.map Prod.fst)[j]? = some chip.1 := by rw [getElem?_map,hj,map_some]
    rw [Nat.zero_add]
    exact (hm.chips j chip.1 hat).2 call hcall
  obtain ⟨total,hclaims,-,hcounts⟩ := claimChips_claims hchips hlater
  have hcallers : SystemM4.callers (CircuitM4.toConstraintSystem ⟨{m.main with chipCalls := calls},chips⟩) =
      (none,⟨m.main.circuit.system,calls⟩,1) :: callersFrom 0 chips := by
    rw [SystemM4.callers,callersFrom,CircuitM4.toConstraintSystem,zipIdx_map,map_map]
    rfl
  rw [SystemM4.validateInstances,hcallers,SystemM4.claimAll]
  dsimp only
  rcases claimInstances_claims (fun _ _ => rfl) hcalls none 0 with hok | ⟨c,herror⟩
  · rw [hok]
    rcases hclaims with hok | ⟨c,herror⟩
    · refine .inl ?_
      have hcheck : SystemM4.checkCounts total 0
          (CircuitM4.toConstraintSystem ⟨{m.main with chipCalls := calls},chips⟩).chips = .ok () := by
        refine SystemM4.checkCounts_ok.mpr fun j chip nActive hj => ?_
        rw [CircuitM4.toConstraintSystem,getElem?_map,map_eq_some_iff] at hj
        obtain ⟨chip',hchip',hsame⟩ := hj
        exact (hcounts j chip' hchip').trans (congrArg Prod.snd hsame)
      exact bind_eq_ok.mpr ⟨total,hok,hcheck⟩
    · refine .inr ⟨c,?_⟩
      rw [ok_bind,herror]
      rfl
  · refine .inr ⟨c,?_⟩
    rw [herror]
    rfl

theorem Circuit.inout_nodup (circuit : Circuit) : circuit.inout.Nodup := by
  refine nodup_iff_injective_get.mpr fun p q hpq => ?_
  have hp := (circuit.index p.1 _ (getElem?_eq_getElem p.2)).2
  have hq := (circuit.index q.1 _ (getElem?_eq_getElem q.2)).2
  have hsame : circuit.inout[p.1] = circuit.inout[q.1] := hpq
  rw [hsame,hq] at hp
  exact Fin.ext hp.symm

structure Fills (layout : ValueVecLayout) (values : ValueVec) : Prop where
  nConst : values.nConst = layout.nConst
  nPublic : values.nPublicValues = layout.offsetWitness
  size : layout.offsetWitness ≤ values.data.length

theorem fillInout_ok {circuit : Circuit} (words : List Word) {values : ValueVec}
    (hvalues : Fills circuit.layout values) : ∃ filled, fillInout circuit words values = .ok filled ∧
      Fills circuit.layout filled ∧
      ∀ p < circuit.inout.length, filled.inout[p]? = some (words.getD p 0) := by
  have hfill : ∃ filled, fillInout circuit words values = .ok filled ∧ Fills circuit.layout filled ∧
      ∀ p < circuit.inout.zipIdx.length, filled.data[circuit.layout.nConst + p]? = some (words.getD p 0) :=
    exists_foldlM (I := fun done s => Fills circuit.layout s ∧
      ∀ p < done.length, s.data[circuit.layout.nConst + p]? = some (words.getD p 0))
    ⟨hvalues,nofun⟩ fun done x rest s hxs hdone => by
      obtain ⟨hs,hwords⟩ := hdone
      have hx : circuit.inout.zipIdx[done.length]? = some x := by
        rw [hxs,getElem?_append_right (Nat.le_refl _),Nat.sub_self]
        rfl
      rw [getElem?_zipIdx,map_eq_some_iff] at hx
      obtain ⟨w,hw,rfl⟩ := hx
      obtain ⟨hsegment,hindex⟩ := circuit.index _ _ hw
      have hlt : done.length < circuit.inout.length := (List.getElem?_eq_some_iff.mp hw).1
      have hoffset : s.wordOffset (circuit.witnessIndex w) = circuit.layout.nConst + done.length := by
        rw [ValueVec.wordOffset,hsegment,hindex,hs.nConst]
      have hin : circuit.layout.nConst + done.length < s.data.length := by
        have hsize := hs.size
        rw [ValueVecLayout.offsetWitness,circuit.nInout] at hsize
        omega
      refine ⟨{s with data := s.data.set (circuit.layout.nConst + done.length) (words.getD (0 + done.length) 0)},
        by rw [ValueVec.write,hoffset,if_pos hin],⟨hs.nConst,hs.nPublic,by rw [length_set]; exact hs.size⟩,fun p hp => ?_⟩
      rw [length_append,length_singleton] at hp
      rcases Nat.lt_succ_iff_lt_or_eq.mp hp with hp | rfl
      · rw [getElem?_set_ne (by omega)]
        exact hwords p hp
      · rw [getElem?_set_self hin,Nat.zero_add]
  obtain ⟨filled,hfilled,hsections,hwords⟩ := hfill
  refine ⟨filled,hfilled,hsections,fun p hp => ?_⟩
  rw [ValueVec.inout,ValueVec.publicWords,getElem?_drop,hsections.nConst,getElem?_take,
    hsections.nPublic,ValueVecLayout.offsetWitness,circuit.nInout,if_pos (by omega)]
  exact hwords p (by rw [length_zipIdx]; exact hp)

theorem evalCall_getElem? {values : WordSource} {call : ChipCall} {p : ℕ} {index : ValueIndex}
    (h : call.inout[p]? = some [ShiftedValueIndex.plain index]) :
    (evalCall values call)[p]? = some (values index) := by
  rw [evalCall,getElem?_map,h,map_some]
  simp only [evalOperand,foldl_cons,foldl_nil,ShiftedValueIndex.eval,
    ShiftedValueIndex.plain,ShiftedValueIndex.single,Shift.identity_apply]
  exact congrArg some BitVec.zero_xor

section Accepted

variable {m : CircuitM4} {main : ValueVec} {instances : ChipInstances}

inductive Instance (m : CircuitM4) (main : ValueVec) (instances : ChipInstances) :
    EmbeddedCircuit → ℕ → ValueVec → Prop
  | main : Instance m main instances m.main 0 main
  | chip {chipId row nActive : ℕ} {chip : EmbeddedCircuit} {values : ValueVec}
    (hchip : m.chips[chipId]? = some (chip,nActive)) (hrow : row < nActive)
    (hvalues : instances.instanceAt chipId row = .ok values) : Instance m main instances chip row values

theorem andThen_eq_ok {ε : Type} {first second : Checked (Except ε Unit)} :
    andThen first second = .ok (.ok ()) ↔ first = .ok (.ok ()) ∧ second = .ok (.ok ()) := by
  rw [andThen]
  constructor
  · intro h
    obtain ⟨result,hfirst,hnext⟩ := bind_eq_ok.mp h
    cases result with
    | error e => cases hnext
    | ok _ => exact ⟨hfirst,hnext⟩
  · rintro ⟨hfirst,hsecond⟩
    rw [hfirst]
    exact hsecond

theorem checkEach_eq_ok {A ε : Type} {check : A → Checked (Except ε Unit)} {as : List A} :
    checkEach check as = .ok (.ok ()) ↔ ∀ a ∈ as, check a = .ok (.ok ()) := by
  induction as with
  | nil => exact ⟨nofun,fun _ => rfl⟩
  | cons a as ih => rw [checkEach,andThen_eq_ok,ih,forall_mem_cons]

theorem mem_zipIdx {A : Type} {xs : List A} {i : ℕ} {x : A} (h : xs[i]? = some x) : (x,i) ∈ xs.zipIdx :=
  mem_zipIdx_iff_getElem?.mpr h

variable {values : ValueVec} {call : ChipCall}

theorem checkCall_of_verify (h : m.toConstraintSystem.verify main instances = .ok (.ok ()))
    {e : EmbeddedCircuit} {row : ℕ} (he : Instance m main instances e row values)
    {n : ℕ} (hcall : e.chipCalls[n]? = some call) : ∃ caller : Option (ℕ × ℕ),
      (caller.map Prod.snd).getD 0 = row ∧
        m.toConstraintSystem.checkCall values instances caller call n = .ok (.ok ()) := by
  rw [SystemM4.verify] at h
  split at h
  · cases h
  obtain ⟨-,h⟩ := andThen_eq_ok.mp h
  obtain ⟨-,h⟩ := andThen_eq_ok.mp h
  obtain ⟨hmain,hchips⟩ := andThen_eq_ok.mp h
  cases he with
  | main => exact ⟨none,rfl,checkEach_eq_ok.mp hmain _ (mem_zipIdx hcall)⟩
  | @chip chipId _ nActive _ _ hchip hrow hvalues =>
    have hlowered : m.toConstraintSystem.chips[chipId]? = some (e.lower,nActive) := by
      rw [CircuitM4.toConstraintSystem,getElem?_map,hchip]
      rfl
    have hrows := checkEach_eq_ok.mp (checkEach_eq_ok.mp hchips _ (mem_zipIdx hlowered)) row
      (mem_range.mpr hrow)
    obtain ⟨held,hheld,hcalls⟩ := bind_eq_ok.mp hrows
    cases hvalues.symm.trans hheld
    exact ⟨some (chipId,row),rfl,checkEach_eq_ok.mp hcalls _ (mem_zipIdx hcall)⟩

theorem served_of_verify (h : m.toConstraintSystem.verify main instances = .ok (.ok ()))
    {e : EmbeddedCircuit} {row : ℕ} (he : Instance m main instances e row values)
    (hcall : call ∈ e.chipCalls) {callee : EmbeddedCircuit} (hcallee : m.circuits[call.chipId]? = some callee) :
    ∃ held, instances.instanceAt call.chipId (call.firstInstance + row) = .ok held ∧
      ∀ p < callee.circuit.inout.length, ∃ word, SystemM4.passedWord values call p = .ok word ∧
        held.inout[p]? = some word := by
  obtain ⟨n,hn⟩ := mem_iff_getElem?.mp hcall
  obtain ⟨caller,hrow,hcheck⟩ := checkCall_of_verify h he hn
  obtain ⟨⟨lowered,nActive⟩,hlowered,hcheck⟩ := bind_eq_ok.mp hcheck
  obtain ⟨held,hheld,hcheck⟩ := bind_eq_ok.mp hcheck
  obtain ⟨served,hserved,hwords⟩ := bind_eq_ok.mp hcheck
  have hnInout : lowered.cs.nInout = callee.circuit.inout.length := by
    rw [lookupChecked,CircuitM4.toConstraintSystem,getElem?_map] at hlowered
    rw [CircuitM4.circuits,getElem?_map,map_eq_some_iff] at hcallee
    obtain ⟨⟨chip,count⟩,hchip,rfl⟩ := hcallee
    rw [hchip] at hlowered
    cases hlowered
    exact chip.circuit.systemInout
  have hinout : served = held.inout := by
    rw [ValueVec.inoutChecked] at hserved
    split at hserved <;> cases hserved
    rfl
  rw [hrow] at hheld
  refine ⟨held,hheld,fun p hp => ?_⟩
  have hword := checkEach_eq_ok.mp hwords p (mem_range.mpr (hnInout ▸ hp))
  obtain ⟨passed,hpassed,hword⟩ := bind_eq_ok.mp hword
  obtain ⟨word,hat,hsame⟩ := bind_eq_ok.mp hword
  rw [lookupChecked,hinout] at hat
  split at hat
  case h_2 => cases hat
  case h_1 word' hword' =>
    cases hat
    refine ⟨passed,hpassed,hword'.trans (congrArg some ?_)⟩
    by_contra hne
    rw [if_pos hne] at hsame
    cases hsame

theorem passedWord_plain {p : ℕ} {index : ValueIndex}
    (h : call.inout[p]? = some [ShiftedValueIndex.plain index]) :
    SystemM4.passedWord values call p = values.read index := by
  rw [SystemM4.passedWord,h]
  cases hread : values.read index with
  | error panic =>
    simp only [evalOperandChecked,evalTermChecked,ShiftedValueIndex.plain,ShiftedValueIndex.single,
      foldlM_cons,hread]
    rfl
  | ok word =>
    have hidentity : applyChecked Shift.identity word = .ok word := by
      rw [applyChecked,if_pos (by decide),Shift.identity_apply]
    simp only [evalOperandChecked,evalTermChecked,ShiftedValueIndex.plain,ShiftedValueIndex.single,
      foldlM_cons,foldlM_nil,hread,hidentity,bind,Except.bind,pure,Except.pure]
    exact congrArg Except.ok BitVec.zero_xor

end Accepted

end Binius64.ChipComposition
