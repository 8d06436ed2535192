import Binius64.GateGraph

/-!
# Slots of the scratch segment

A value no constraint references lives from the gate that writes it to the gate that last mentions
it.
-/

namespace Binius64.ScratchAlloc

open WireConstraints GateGraph List

abbrev EntitySet := List Bool

namespace EntitySet

variable (set : EntitySet)

def contains (wire : Wire) : Bool := set.getD wire false

def iter : List Wire := (range set.length).filter set.contains

theorem mem_iter {set : EntitySet} {wire : Wire} :
    wire ∈ set.iter ↔ set.contains wire = true := by
  rw [iter,mem_filter,mem_range,and_iff_right_iff_imp]
  intro h
  by_contra hlt
  rw [contains,getD_eq_getElem?_getD,getElem?_eq_none (Nat.le_of_not_lt hlt)] at h
  cases h

theorem nodup_iter : set.iter.Nodup := nodup_range.filter _

end EntitySet

/-- How the scratch segment lays out its values. -/
inductive ScratchPolicy where
  /-- One permanent slot per value, numbered in the order the values were created. -/
  | perWire
  /-- Slots are shared, each reclaimed once the gate that last reads its value has run. -/
  | pooled
deriving DecidableEq

abbrev Slots := Wire → Option ℕ

def noteLast (scratch : EntitySet) (last : Wire → Option GateId) (gate : GateData × GateId) :
    Wire → Option GateId :=
  gate.1.wires.foldl (fun last wire =>
    if scratch.contains wire then Function.update last wire (some gate.2) else last) last

def lastGate (graph : Graph) (scratch : EntitySet) : Wire → Option GateId :=
  graph.gates.zipIdx.foldl (noteLast scratch) fun _ => none

/-- The order of deaths: by gate, then by wire. -/
def Earlier (a b : ℕ × ℕ) : Prop := a.1 < b.1 ∨ (a.1 = b.1 ∧ a.2 ≤ b.2)

instance : DecidableRel Earlier := fun _ _ => inferInstanceAs (Decidable (_ ∨ _))

def orderDeaths (graph : Graph) (scratch : EntitySet) : List (GateId × Wire) :=
  (scratch.iter.filterMap fun wire => (lastGate graph scratch wire).map (·,wire)).insertionSort
    Earlier

/-- What the sweep over the gates carries. -/
structure Sweep where
  slot : Slots
  /-- Slots given back and not yet reused, the next one to reuse first. -/
  free : List ℕ
  nSlots : ℕ
  live : ℕ
  peakLive : ℕ
  deaths : List (GateId × Wire)

namespace Sweep

/-- Give a value a slot: a returned one when there is one, a fresh one otherwise. -/
def allocate (s : Sweep) (wire : Wire) : Sweep :=
  match s.free with
  | top :: rest =>
    {s with slot := Function.update s.slot wire (some top), free := rest, live := s.live + 1}
  | [] =>
    {s with
      slot := Function.update s.slot wire (some s.nSlots)
      nSlots := s.nSlots + 1
      live := s.live + 1}

def mention (scratch : EntitySet) (s : Sweep) (wire : Wire) : Sweep :=
  if scratch.contains wire ∧ s.slot wire = none then s.allocate wire else s

/-- Reclaim the slots of the values that die at a gate, advancing the cursor past
them; a dying value without a slot panics. -/
def reclaim (index : GateId) (slot : Slots) :
    List (GateId × Wire) → List ℕ → ℕ → Option (List (GateId × Wire) × List ℕ × ℕ)
  | [], free, live => some ([],free,live)
  | (gate,wire) :: rest, free, live =>
    if gate = index then do
      let returned ← slot wire
      reclaim index slot rest (returned :: free) (live - 1)
    else some ((gate,wire) :: rest,free,live)

def step (scratch : EntitySet) (s : Sweep) (gate : GateData × GateId) : Option Sweep := do
  let s := gate.1.wires.foldl (mention scratch) s
  let s := {s with peakLive := max s.peakLive s.live}
  let (deaths,free,live) ← reclaim gate.2 s.slot s.deaths s.free s.live
  return {s with deaths, free, live}

end Sweep

/-- Hand out shared slots by sweeping the gates in the order they run. -/
def poolSlots (graph : Graph) (scratch : EntitySet) (deaths : List (GateId × Wire)) :
    Option (Slots × ℕ) := do
  let s ← graph.gates.zipIdx.foldlM (Sweep.step scratch) ⟨fun _ => none,[],0,0,0,deaths⟩
  if s.nSlots = s.peakLive ∧ ∀ wire ∈ scratch.iter, (s.slot wire).isSome then
    return (s.slot,s.peakLive)
  else none

def placeNext (scratch : EntitySet) (acc : Slots × ℕ) (wire : Wire) : Slots × ℕ :=
  if scratch.contains wire then (Function.update acc.1 wire (some acc.2),acc.2 + 1) else acc

/-- Give each scratch value its own slot, numbered in creation order. -/
def slotPerWire (graph : Graph) (scratch : EntitySet) : Slots × ℕ :=
  (range graph.wires.length).foldl (placeNext scratch) (fun _ => none,0)

/-- The slot of every value in the scratch segment. -/
structure Allocation where
  slot : Slots
  nSlots : ℕ
  peakLive : ℕ

/-- Assign a slot to every value in the scratch segment. -/
def new (graph : Graph) (scratch : EntitySet) (policy : ScratchPolicy) : Option Allocation := do
  let deaths := orderDeaths graph scratch
  let (pooledSlot,peakLive) ← poolSlots graph scratch deaths
  match policy with
  | .pooled => return ⟨pooledSlot,peakLive,peakLive⟩
  | .perWire =>
    let (slot,nSlots) := slotPerWire graph scratch
    return ⟨slot,nSlots,peakLive⟩

def Before (graph : Graph) (i : GateId) (wire : Wire) : Prop :=
  ∃ g ∈ graph.gates.take i, wire ∈ g.wires

def After (graph : Graph) (i : GateId) (wire : Wire) : Prop :=
  ∃ g ∈ graph.gates.drop i, wire ∈ g.wires

instance (graph : Graph) (i : GateId) (wire : Wire) : Decidable (Before graph i wire) :=
  inferInstanceAs (Decidable (∃ g ∈ _, _))

instance (graph : Graph) (i : GateId) (wire : Wire) : Decidable (After graph i wire) :=
  inferInstanceAs (Decidable (∃ g ∈ _, _))

def Apart (graph : Graph) (first second : Wire) : Prop :=
  ∃ i, ¬After graph i first ∧ ¬Before graph i second

/-- The scratch values alive while a gate runs: mentioned no later than it and
no earlier than it. -/
def liveAt (graph : Graph) (scratch : EntitySet) (i : GateId) : List Wire :=
  scratch.iter.filter fun wire => decide (Before graph (i + 1) wire ∧ After graph i wire)

/-- The largest number of scratch values alive while a gate of the first ones runs. -/
def peakUpTo (graph : Graph) (scratch : EntitySet) : ℕ → ℕ
  | 0 => 0
  | n + 1 => max (peakUpTo graph scratch n) (liveAt graph scratch n).length

/-- The largest number of scratch values alive while some gate runs. -/
def peak (graph : Graph) (scratch : EntitySet) : ℕ := peakUpTo graph scratch graph.gates.length

variable {graph : Graph} {wire : Wire}

theorem mem_liveAt {scratch : EntitySet} {i : GateId} :
    wire ∈ liveAt graph scratch i ↔
      scratch.contains wire = true ∧ Before graph (i + 1) wire ∧ After graph i wire := by
  rw [liveAt,mem_filter,EntitySet.mem_iter,decide_eq_true_eq]

section Positions

variable {graph : Graph} {pre suf : List GateData} {g : GateData} {wire : Wire}

theorem before_succ (h : graph.gates = pre ++ g :: suf) :
    Before graph (pre.length + 1) wire ↔ Before graph pre.length wire ∨ wire ∈ g.wires := by
  have htake : graph.gates.take (pre.length + 1) = graph.gates.take pre.length ++ [g] := by
    rw [h,take_left,take_length_add_append,take_succ_cons,take_zero]
  simp only [Before,htake,mem_append,mem_singleton,or_and_right,exists_or,
    exists_eq_left]

theorem after_succ (h : graph.gates = pre ++ g :: suf) :
    After graph pre.length wire ↔ wire ∈ g.wires ∨ After graph (pre.length + 1) wire := by
  have hdrop : graph.gates.drop pre.length = g :: graph.gates.drop (pre.length + 1) := by
    rw [h,drop_left,drop_length_add_append,drop_succ_cons,drop_zero]
  simp only [After,hdrop,mem_cons,or_and_right,exists_or,exists_eq_left]

theorem not_before_zero : ¬Before graph 0 wire := by
  rintro ⟨g,hg,_⟩
  rw [take_zero] at hg
  cases hg

end Positions

theorem le_of_not_before {m l : ℕ} {g : GateData}
    (hl : graph.gates[l]? = some g) (hw : wire ∈ g.wires) (hb : ¬Before graph m wire) : m ≤ l := by
  by_contra hlt
  refine hb ⟨g,mem_iff_getElem?.mpr ⟨l,?_⟩,hw⟩
  rw [getElem?_take_of_lt (Nat.lt_of_not_le hlt),hl]

theorem lt_of_not_after {m l : ℕ} {g : GateData}
    (hl : graph.gates[l]? = some g) (hw : wire ∈ g.wires) (ha : ¬After graph m wire) : l < m := by
  by_contra hge
  refine ha ⟨g,mem_iff_getElem?.mpr ⟨l - m,?_⟩,hw⟩
  rw [getElem?_drop,Nat.add_sub_cancel' (Nat.le_of_not_lt hge),hl]

theorem noteLast_apply (scratch : EntitySet) (last : Wire → Option GateId)
    (gate : GateData × GateId) (wire : Wire) :
    noteLast scratch last gate wire =
      if scratch.contains wire = true ∧ wire ∈ gate.1.wires then some gate.2 else last wire := by
  rw [noteLast]
  induction gate.1.wires generalizing last with
  | nil => simp only [foldl_nil,not_mem_nil,and_false,if_false]
  | cons w rest ih =>
    rw [foldl_cons,ih]
    by_cases hrest : scratch.contains wire = true ∧ wire ∈ rest
    · rw [if_pos hrest,if_pos ⟨hrest.1,mem_cons_of_mem _ hrest.2⟩]
    · rw [if_neg hrest]
      by_cases hw : wire = w
      · subst hw
        by_cases hc : scratch.contains wire = true
        · rw [if_pos hc,if_pos ⟨hc,mem_cons_self ..⟩,Function.update_self]
        · rw [if_neg hc,if_neg fun h => hc h.1]
      · have hmem : ¬(scratch.contains wire = true ∧ wire ∈ w :: rest) := fun h =>
          hrest ⟨h.1,(mem_cons.mp h.2).resolve_left hw⟩
        rw [if_neg hmem]
        split
        · exact Function.update_of_ne hw _ _
        · rfl

theorem lastGate_prefix (scratch : EntitySet) (gates : List GateData) (wire : Wire) (i : ℕ) :
    gates.zipIdx.foldl (noteLast scratch) (fun _ => none) wire = some i ↔
      scratch.contains wire = true ∧ (∃ g, gates[i]? = some g ∧ wire ∈ g.wires) ∧
        ∀ g ∈ gates.drop (i + 1), wire ∉ g.wires := by
  induction gates using reverseRecOn with
  | nil => simp
  | append_singleton gates g ih =>
    rw [zipIdx_append,foldl_append]
    simp only [zipIdx_singleton,foldl_cons,foldl_nil,noteLast_apply,Nat.zero_add]
    by_cases hm : scratch.contains wire = true ∧ wire ∈ g.wires
    · rw [if_pos hm,Option.some.injEq]
      constructor
      · rintro rfl
        refine ⟨hm.1,⟨g,by simp,hm.2⟩,fun g' hg' => ?_⟩
        rw [drop_eq_nil_of_le (by simp)] at hg'
        cases hg'
      · rintro ⟨_,⟨g',hg',_⟩,hlater⟩
        have hlt := (List.getElem?_eq_some_iff.mp hg').1
        rw [length_append,length_singleton] at hlt
        by_contra hne
        have hi : i + 1 ≤ gates.length := by
          have hni : ¬gates.length = i := hne
          omega
        refine hlater g ?_ hm.2
        rw [drop_append_of_le_length hi]
        exact mem_append_right _ (mem_singleton_self g)
    · rw [if_neg hm,ih]
      refine and_congr_right fun hc => ?_
      have hg : wire ∉ g.wires := fun hg => hm ⟨hc,hg⟩
      constructor
      · rintro ⟨⟨g',hg',hw⟩,hlater⟩
        have hlt := (List.getElem?_eq_some_iff.mp hg').1
        refine ⟨⟨g',by rw [getElem?_append_left hlt,hg'],hw⟩,fun p hp => ?_⟩
        rw [drop_append_of_le_length hlt] at hp
        rcases mem_append.mp hp with hp | hp
        · exact hlater p hp
        · rwa [mem_singleton.mp hp]
      · rintro ⟨⟨g',hg',hw⟩,hlater⟩
        rcases Nat.lt_or_ge i gates.length with hlt | hge
        · rw [getElem?_append_left hlt] at hg'
          refine ⟨⟨g',hg',hw⟩,fun p hp => hlater p ?_⟩
          rw [drop_append_of_le_length hlt]
          exact mem_append_left _ hp
        · rw [getElem?_append_right hge,getElem?_singleton] at hg'
          split at hg'
          · rw [← Option.some.inj hg'] at hw
            exact absurd hw hg
          · cases hg'

theorem mem_orderDeaths {scratch : EntitySet} {i : GateId} :
    (i,wire) ∈ orderDeaths graph scratch ↔
      scratch.contains wire = true ∧ (∃ g, graph.gates[i]? = some g ∧ wire ∈ g.wires) ∧
        ¬After graph (i + 1) wire := by
  have hlast : lastGate graph scratch wire = some i ↔ _ :=
    lastGate_prefix scratch graph.gates wire i
  have hafter : ¬After graph (i + 1) wire ↔ ∀ g ∈ graph.gates.drop (i + 1), wire ∉ g.wires := by
    rw [After]
    push Not
    rfl
  rw [hafter,← hlast,orderDeaths,mem_insertionSort,mem_filterMap]
  constructor
  · rintro ⟨w,_,hw⟩
    obtain ⟨j,hj,heq⟩ := Option.map_eq_some_iff.mp hw
    cases heq
    exact hj
  · intro h
    exact ⟨wire,EntitySet.mem_iter.mpr (hlast.mp h).1,by rw [h]; rfl⟩

instance : Std.Total Earlier := ⟨fun a b => by
  rw [Earlier,Earlier]
  omega⟩

instance : IsTrans (ℕ × ℕ) Earlier := ⟨fun a b c => by
  rw [Earlier,Earlier,Earlier]
  omega⟩

theorem orderDeaths_sorted (graph : Graph) (scratch : EntitySet) :
    (orderDeaths graph scratch).Pairwise Earlier :=
  pairwise_insertionSort Earlier _

theorem orderDeaths_nodup (graph : Graph) (scratch : EntitySet) :
    ((orderDeaths graph scratch).map Prod.snd).Nodup := by
  have hperm := (perm_insertionSort Earlier (scratch.iter.filterMap fun wire =>
    (lastGate graph scratch wire).map (·,wire))).map Prod.snd
  refine hperm.nodup_iff.mpr (List.Nodup.sublist ?_ (EntitySet.nodup_iter scratch))
  induction scratch.iter with
  | nil => exact List.Sublist.slnil
  | cons w rest ih =>
    cases hl : lastGate graph scratch w with
    | none =>
      rw [filterMap_cons_none (by rw [hl]; rfl)]
      exact ih.cons w
    | some i =>
      rw [filterMap_cons_some (by rw [hl]; rfl),map_cons]
      exact ih.cons_cons w

end Binius64.ScratchAlloc
