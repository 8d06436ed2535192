import Binius64.LinearGraph
import Binius64.ShiftSummary

/-!
# The commit-set decision

The pass that decides which linear definitions are committed and which are inlined, over the
postorder of the expression graph.
-/

namespace Binius64.CommitSet

open ShiftAlgebra WireConstraints LinearGraph PostOrder ShiftSummary List

structure Limits where
  /-- Longest inline chain a definition of several terms may sit on top of. -/
  maxDepth : ℕ
  /-- How many terms inlining may add on a path that needs the second slot. -/
  maxTermGrowth : ℕ

def defaultLimits : Limits := ⟨6,4⟩

/-- The context of one edge. -/
structure CommitSetCx where
  shifts : Summary
  /-- The length of the inline chain to a root or a committed definition. -/
  depth : ℕ

namespace CommitSetCx

/-- A new context for an edge of depth zero. -/
def new (seedShift : Shift) : CommitSetCx := ⟨.of seedShift,0⟩

def composable (cx : CommitSetCx) (shift : Shift) (slots : ℕ) : Bool :=
  cx.shifts.composable shift slots

/-- Merge several contexts into one. -/
def join (cxs : List CommitSetCx) : CommitSetCx :=
  ⟨.unionAll (cxs.map (·.shifts)),(cxs.map (·.depth)).foldl max 0⟩

/-- Extend a context by a shift, one step further from the roots. -/
def add (cx : CommitSetCx) (outShift : Shift) : CommitSetCx :=
  ⟨cx.shifts.withShift outShift,cx.depth + 1⟩

end CommitSetCx

/-- The contexts decided so far, by edge position. -/
abbrev PerEdge := ℕ → Option CommitSetCx

abbrev EdgeRef := Edge × ℕ

def incoming (leg : LeGraph) (node : Node) : List EdgeRef :=
  leg.edges.zipIdx.filter fun e => e.1.target = node

def outgoing (leg : LeGraph) (node : Node) : List EdgeRef :=
  leg.edges.zipIdx.filter fun e => e.1.source = node

def edgeCx (perEdge : PerEdge) (e : EdgeRef) : Fused CommitSetCx :=
  match perEdge e.2 with
  | some cx => .ok cx
  | none => .error .missingContext

def setEdges (perEdge : PerEdge) (edges : List EdgeRef) (cx : Shift → CommitSetCx) : PerEdge :=
  edges.foldl (fun p e => Function.update p e.2 (some (cx e.1.shift))) perEdge

/-- What the scan over the consumers of a definition finds. -/
structure Scan where
  /-- Every shift of the definition composes with every consumer's path. -/
  composable : Bool
  fitsOneSlot : Bool
  depth : ℕ

/-- Compare the definition's shifts with each consumer's path, stopping at the
first consumer that does not compose. -/
def scanConsumers (perEdge : PerEdge) (ins : List EdgeRef) (slots : ℕ) :
    List EdgeRef → Scan → Fused Scan
  | [], scan => .ok scan
  | e :: rest, scan => do
    let cx ← edgeCx perEdge e
    let fits := ins.all fun i => cx.composable i.1.shift 1
    let scan := {scan with
      depth := max cx.depth scan.depth
      fitsOneSlot := scan.fitsOneSlot && fits}
    if ins.all fun i => cx.composable i.1.shift slots then
      scanConsumers perEdge ins slots rest scan
    else .ok {scan with composable := false}

structure Decision where
  perEdge : PerEdge
  committed : List Wire

variable (limits : Limits) (slots : ℕ)

def visitLinDef (leg : LeGraph) (d : Decision) (dst : Wire) : Fused Decision := do
  let ins := incoming leg (.linDef dst)
  let outs := outgoing leg (.linDef dst)
  let scan ← scanConsumers d.perEdge ins slots outs ⟨true,true,0⟩
  let termCount := ins.length
  let tooDeep := decide (limits.maxDepth < scan.depth) && termCount != 1
  let growth := (termCount - 1) * (outs.length - 1)
  let multipliesOut := !scan.fitsOneSlot && decide (limits.maxTermGrowth < growth)
  if tooDeep || !scan.composable || multipliesOut then
    if dst ∈ d.committed then .error .committedTwice
    else .ok ⟨setEdges d.perEdge ins .new,d.committed ++ [dst]⟩
  else
    let cxs ← outs.mapM (edgeCx d.perEdge)
    return ⟨setEdges d.perEdge ins (CommitSetCx.join cxs).add,d.committed⟩

def visitNode (leg : LeGraph) (d : Decision) : Node → Fused Decision
  | .root id => return {d with perEdge := setEdges d.perEdge (incoming leg (.root id)) .new}
  | .opaqueWire _ => return d
  | .linDef dst => visitLinDef limits slots leg d dst

def arcs (leg : LeGraph) : List (Node × Node) :=
  leg.edges.map fun e => (e.source,e.target)

variable (dfs : Traversal Node)

/-- The order the definitions are decided in: the postorder of a traversal
seeded from the wires no definition assigns. -/
def decisionOrder (leg : LeGraph) : List Node :=
  dfs.visit (arcs leg) (leg.opaqueWires.map .opaqueWire)

def decideAll (leg : LeGraph) : Fused Decision :=
  (decisionOrder dfs leg).foldlM (visitNode limits slots leg) ⟨fun _ => none,leg.linCommitted⟩

def runDecideCommitSet (leg : LeGraph) : Fused LeGraph := do
  let d ← decideAll limits slots dfs leg
  return {leg with linCommitted := d.committed}

variable {leg : LeGraph} {node : Node} {e : EdgeRef} {perEdge : PerEdge}

theorem mem_incoming :
    e ∈ incoming leg node ↔ leg.edges[e.2]? = some e.1 ∧ e.1.target = node := by
  rw [incoming,mem_filter,mem_zipIdx_iff_getElem?,decide_eq_true_eq]

theorem mem_outgoing :
    e ∈ outgoing leg node ↔ leg.edges[e.2]? = some e.1 ∧ e.1.source = node := by
  rw [outgoing,mem_filter,mem_zipIdx_iff_getElem?,decide_eq_true_eq]

theorem arc_of_edge (h : leg.edges[e.2]? = some e.1) :
    (e.1.source,e.1.target) ∈ arcs leg :=
  mem_map.mpr ⟨e.1,mem_of_getElem? h,rfl⟩

theorem setEdges_of_not_mem (cx : Shift → CommitSetCx) {i : ℕ} (edges : List EdgeRef) :
    ∀ perEdge : PerEdge, (∀ e ∈ edges, e.2 ≠ i) → setEdges perEdge edges cx i = perEdge i := by
  induction edges with
  | nil => exact fun _ _ => rfl
  | cons e rest ih =>
    intro perEdge h
    rw [forall_mem_cons] at h
    have hrest := ih (Function.update perEdge e.2 (some (cx e.1.shift))) h.2
    rw [Function.update_of_ne (Ne.symm h.1)] at hrest
    exact hrest

theorem setEdges_of_mem {cx : Shift → CommitSetCx} (edges : List EdgeRef)
    (hu : ∀ a ∈ edges, a.2 = e.2 → a = e) :
    ∀ perEdge : PerEdge, e ∈ edges → setEdges perEdge edges cx e.2 = some (cx e.1.shift) := by
  induction edges with
  | nil => exact fun _ h => absurd h not_mem_nil
  | cons a rest ih =>
    intro perEdge h
    rw [forall_mem_cons] at hu
    by_cases hr : e ∈ rest
    · exact ih hu.2 _ hr
    · have ha : e = a := (mem_cons.mp h).resolve_right hr
      have hne : ∀ b ∈ rest, b.2 ≠ e.2 := by
        intro b hb heq
        exact hr (hu.2 b hb heq ▸ hb)
      have hrest := setEdges_of_not_mem cx rest
        (Function.update perEdge a.2 (some (cx a.1.shift))) hne
      rw [ha,Function.update_self] at hrest
      rw [ha]
      exact hrest

theorem setEdges_incoming
    {cx : Shift → CommitSetCx} (h : leg.edges[e.2]? = some e.1) :
    setEdges perEdge (incoming leg node) cx e.2 =
      if e.1.target = node then some (cx e.1.shift) else perEdge e.2 := by
  by_cases ht : e.1.target = node
  · rw [if_pos ht]
    refine setEdges_of_mem _ (fun a ha heq => ?_) perEdge (mem_incoming.mpr ⟨h,ht⟩)
    have hae := (mem_incoming.mp ha).1
    rw [heq,h,Option.some.injEq] at hae
    exact Prod.ext hae.symm heq
  · rw [if_neg ht]
    refine setEdges_of_not_mem cx _ perEdge (fun a ha heq => ?_)
    have hae := mem_incoming.mp ha
    rw [heq,h,Option.some.injEq] at hae
    exact ht (hae.1 ▸ hae.2)

/-- A context serves a term of an inlined definition below one of its
consumers: folding the term's shift into what the consumer's context covers
needs no third slot and stays within the context. -/
def Serves (cx consumer : CommitSetCx) (shift : Shift) : Prop :=
  ∀ seq : ShiftSeq, seq.InRange → consumer.shifts.Covers seq →
    cx.shifts.CoversFold (pushInner seq shift maxShiftSlots) ∧
      pushInner seq shift maxShiftSlots ≠ .overBudget

/-- The context of an edge covers starting afresh from it, and serves every
consumer of the definition it feeds unless that is committed. -/
def EdgeSound (leg : LeGraph) (d : Decision) (e : EdgeRef) : Prop :=
  ∃ cx, d.perEdge e.2 = some cx ∧
    (∀ outer : Shift, outer.isIdentity = true → cx.shifts.Covers ⟨e.1.shift,outer⟩) ∧
    ∀ dst, e.1.target = .linDef dst → dst ∉ d.committed →
      ∀ o ∈ outgoing leg (.linDef dst), ∃ consumer, d.perEdge o.2 = some consumer ∧
        Serves cx consumer e.1.shift

structure WellFormed (leg : LeGraph) : Prop where
  inRange : ∀ e ∈ leg.edges, e.shift.InRange
  source : ∀ e ∈ leg.edges, ∀ w, e.target ≠ .opaqueWire w
  fresh : leg.linCommitted = []

/-- The invariant of the traversal over the nodes visited so far. -/
structure Inv (leg : LeGraph) (visited : List Node) (d : Decision) : Prop where
  edges : ∀ e : EdgeRef, leg.edges[e.2]? = some e.1 → e.1.target ∈ visited → EdgeSound leg d e
  closed : ∀ a ∈ visited, ∀ b, (a,b) ∈ arcs leg → b ∈ visited
  committed : ∀ w ∈ d.committed, Node.linDef w ∈ visited

theorem new_covers {shift outer : Shift} (hs : shift.InRange) (ho : outer.isIdentity = true) :
    (CommitSetCx.new shift).shifts.Covers ⟨shift,outer⟩ :=
  Summary.withShift_covers _ hs ho

theorem add_serves {cxs : List CommitSetCx} {consumer : CommitSetCx} {shift : Shift}
    (hs : shift.InRange) (hm : consumer ∈ cxs)
    (hc : consumer.composable shift maxShiftSlots = true) :
    Serves ((CommitSetCx.join cxs).add shift) consumer shift := by
  intro seq hq hcov
  have hjoin : (CommitSetCx.join cxs).shifts.Covers seq :=
    hcov.mono (Summary.le_unionAll (mem_map_of_mem hm))
  refine ⟨Summary.withShift_coversFold hq hs hjoin,fun hover => ?_⟩
  have hfold := Summary.withShift_coversFold hq hs hcov
  rw [hover] at hfold
  have hle : (consumer.shifts.withShift shift).len ≤ maxShiftSlots := by
    simpa only [CommitSetCx.composable,Summary.composable,decide_eq_true_eq] using hc
  exact absurd hfold (Nat.not_lt.mpr hle)

theorem scanConsumers_ok (ins : List EdgeRef) (slots : ℕ)
    (outs : List EdgeRef) (h : ∀ o ∈ outs, ∃ cx, perEdge o.2 = some cx) :
    ∀ scan : Scan, ∃ result, scanConsumers perEdge ins slots outs scan = .ok result ∧
      (result.composable = true → ∀ o ∈ outs, ∀ cx, perEdge o.2 = some cx →
        ∀ i ∈ ins, cx.composable i.1.shift slots = true) := by
  induction outs with
  | nil => exact fun scan => ⟨scan,rfl,fun _ o ho => absurd ho not_mem_nil⟩
  | cons e rest ih =>
    intro scan
    rw [forall_mem_cons] at h
    obtain ⟨cx,hcx⟩ := h.1
    have he : edgeCx perEdge e = .ok cx := by rw [edgeCx,hcx]
    rw [scanConsumers,he,ok_bind]
    by_cases hall : (ins.all fun i => cx.composable i.1.shift slots) = true
    · obtain ⟨result,hscan,hcomp⟩ := ih h.2 {scan with
        depth := max cx.depth scan.depth
        fitsOneSlot := scan.fitsOneSlot && ins.all fun i => cx.composable i.1.shift 1}
      refine ⟨result,?_,fun hc o ho other hother i hi => ?_⟩
      · dsimp only
        rw [if_pos hall]
        exact hscan
      · rcases mem_cons.mp ho with rfl | ho
        · rw [hcx,Option.some.injEq] at hother
          exact hother ▸ all_eq_true.mp hall i hi
        · exact hcomp hc o ho other hother i hi
    · dsimp only
      rw [if_neg hall]
      exact ⟨_,rfl,fun hc => absurd hc Bool.false_ne_true⟩

theorem mapM_edgeCx_ok (outs : List EdgeRef)
    (h : ∀ o ∈ outs, ∃ cx, perEdge o.2 = some cx) :
    ∃ cxs, outs.mapM (edgeCx perEdge) = .ok cxs ∧
      ∀ o ∈ outs, ∀ cx, perEdge o.2 = some cx → cx ∈ cxs := by
  induction outs with
  | nil => exact ⟨[],rfl,fun o ho => absurd ho not_mem_nil⟩
  | cons e rest ih =>
    rw [forall_mem_cons] at h
    obtain ⟨cx,hcx⟩ := h.1
    obtain ⟨cxs,hcxs,hmem⟩ := ih h.2
    have he : edgeCx perEdge e = .ok cx := by rw [edgeCx,hcx]
    refine ⟨cx :: cxs,?_,fun o ho other hother => ?_⟩
    · rw [mapM_cons,he,ok_bind,hcxs,ok_bind]
      rfl
    · rcases mem_cons.mp ho with rfl | ho
      · rw [hcx,Option.some.injEq] at hother
        exact hother ▸ mem_cons_self
      · exact mem_cons_of_mem _ (hmem o ho other hother)

section Visit

variable {leg : LeGraph} {visited : List Node} {d : Decision} {node : Node}

theorem EdgeSound.setEdges {cx : Shift → CommitSetCx} {committed : List Wire} {e : EdgeRef}
    (hclosed : ∀ a ∈ visited, ∀ b, (a,b) ∈ arcs leg → b ∈ visited) (hnew : node ∉ visited)
    (hsame : ∀ w, Node.linDef w ∈ visited → (w ∈ committed ↔ w ∈ d.committed))
    (he : leg.edges[e.2]? = some e.1) (ht : e.1.target ∈ visited) (h : EdgeSound leg d e) :
    EdgeSound leg ⟨CommitSet.setEdges d.perEdge (incoming leg node) cx,committed⟩ e := by
  have hkeep : ∀ o : EdgeRef, leg.edges[o.2]? = some o.1 → o.1.target ∈ visited →
      CommitSet.setEdges d.perEdge (incoming leg node) cx o.2 = d.perEdge o.2 := by
    intro o ho hot
    rw [setEdges_incoming ho,if_neg (fun heq : o.1.target = node => hnew (heq ▸ hot))]
  obtain ⟨c,hc,hfresh,hserve⟩ := h
  refine ⟨c,(hkeep e he ht).trans hc,hfresh,fun dst hdst hnc o ho => ?_⟩
  rw [hdst] at ht
  have hout := mem_outgoing.mp ho
  have hot : o.1.target ∈ visited := hclosed _ ht _ (hout.2 ▸ arc_of_edge hout.1)
  obtain ⟨consumer,hconsumer,hs⟩ := hserve dst hdst (fun hd => hnc ((hsame dst ht).mpr hd)) o ho
  exact ⟨consumer,(hkeep o hout.1 hot).trans hconsumer,hs⟩

theorem Inv.visit {cx : Shift → CommitSetCx} {committed : List Wire} (h : Inv leg visited d)
    (hnew : node ∉ visited) (hsucc : ∀ b, (node,b) ∈ arcs leg → b ∈ visited)
    (hsame : ∀ w, Node.linDef w ∈ visited → (w ∈ committed ↔ w ∈ d.committed))
    (hcom : ∀ w ∈ committed, Node.linDef w ∈ visited ++ [node])
    (hown : ∀ e : EdgeRef, leg.edges[e.2]? = some e.1 → e.1.target = node →
      EdgeSound leg ⟨setEdges d.perEdge (incoming leg node) cx,committed⟩ e) :
    Inv leg (visited ++ [node]) ⟨setEdges d.perEdge (incoming leg node) cx,committed⟩ := by
  constructor
  · intro e he ht
    rcases mem_append.mp ht with ht | ht
    · exact (h.edges e he ht).setEdges h.closed hnew hsame he ht
    · exact hown e he (mem_singleton.mp ht)
  · intro a ha b hab
    refine mem_append_left _ ?_
    rcases mem_append.mp ha with ha | ha
    · exact h.closed a ha b hab
    · exact hsucc b (mem_singleton.mp ha ▸ hab)
  · exact hcom

theorem visitRoot_ok (hw : WellFormed leg) (limits : Limits) {id : ℕ} (h : Inv leg visited d)
    (hnew : Node.root id ∉ visited) (hsucc : ∀ b, (Node.root id,b) ∈ arcs leg → b ∈ visited) :
    ∃ d', visitNode limits maxShiftSlots leg d (.root id) = .ok d' ∧
      Inv leg (visited ++ [.root id]) d' := by
  refine ⟨_,rfl,h.visit hnew hsucc (fun _ _ => Iff.rfl) ?_ ?_⟩
  · exact fun w hm => mem_append_left _ (h.committed w hm)
  · intro e he ht
    refine ⟨.new e.1.shift,?_,?_,?_⟩
    · exact (setEdges_incoming he).trans (if_pos ht)
    · exact fun outer ho => new_covers (hw.inRange e.1 (mem_of_getElem? he)) ho
    · intro dst hdst
      rw [ht] at hdst
      cases hdst

theorem visitOpaque_ok (hw : WellFormed leg) (limits : Limits) {w : Wire} (h : Inv leg visited d)
    (hsucc : ∀ b, (Node.opaqueWire w,b) ∈ arcs leg → b ∈ visited) :
    ∃ d', visitNode limits maxShiftSlots leg d (.opaqueWire w) = .ok d' ∧
      Inv leg (visited ++ [.opaqueWire w]) d' := by
  refine ⟨d,rfl,?_,?_,?_⟩
  · intro e he ht
    rcases mem_append.mp ht with ht | ht
    · exact h.edges e he ht
    · exact absurd (mem_singleton.mp ht) (hw.source e.1 (mem_of_getElem? he) w)
  · intro a ha b hab
    refine mem_append_left _ ?_
    rcases mem_append.mp ha with ha | ha
    · exact h.closed a ha b hab
    · exact hsucc b (mem_singleton.mp ha ▸ hab)
  · exact fun w hm => mem_append_left _ (h.committed w hm)

theorem visitLinDef_ok (hw : WellFormed leg) (limits : Limits) {dst : Wire}
    (h : Inv leg visited d) (hnew : Node.linDef dst ∉ visited)
    (hsucc : ∀ b, (Node.linDef dst,b) ∈ arcs leg → b ∈ visited) :
    ∃ d', visitNode limits maxShiftSlots leg d (.linDef dst) = .ok d' ∧
      Inv leg (visited ++ [.linDef dst]) d' := by
  -- The consumers were all visited before, so their edges carry contexts.
  have hseen : ∀ o ∈ outgoing leg (.linDef dst), o.1.target ∈ visited := by
    intro o ho
    have hout := mem_outgoing.mp ho
    exact hsucc _ (hout.2 ▸ arc_of_edge hout.1)
  have hctx : ∀ o ∈ outgoing leg (.linDef dst), ∃ cx, d.perEdge o.2 = some cx := by
    intro o ho
    obtain ⟨cx,hcx,_⟩ := h.edges o (mem_outgoing.mp ho).1 (hseen o ho)
    exact ⟨cx,hcx⟩
  have hrange : ∀ e : EdgeRef, leg.edges[e.2]? = some e.1 → e.1.shift.InRange := fun e he =>
    hw.inRange e.1 (mem_of_getElem? he)
  have hfresh : dst ∉ d.committed := fun hd => hnew (h.committed dst hd)
  obtain ⟨scan,hscan,hcomp⟩ := scanConsumers_ok (incoming leg (.linDef dst)) maxShiftSlots
    (outgoing leg (.linDef dst)) hctx ⟨true,true,0⟩
  obtain ⟨cxs,hcxs,hmem⟩ := mapM_edgeCx_ok (outgoing leg (.linDef dst)) hctx
  rw [visitNode,visitLinDef,hscan,ok_bind]
  dsimp only
  split
  · -- Committed: every incoming edge starts afresh.
    refine ⟨_,rfl,h.visit hnew hsucc ?_ ?_ ?_⟩
    · intro w hv
      have hne : w ≠ dst := fun heq => hnew (heq ▸ hv)
      simp only [mem_append,mem_singleton,hne,or_false]
    · intro w hm
      rcases mem_append.mp hm with hm | hm
      · exact mem_append_left _ (h.committed w hm)
      · exact mem_append_right _ (mem_singleton.mpr (mem_singleton.mp hm ▸ rfl))
    · intro e he ht
      refine ⟨.new e.1.shift,(setEdges_incoming he).trans (if_pos ht),?_,?_⟩
      · exact fun outer ho => new_covers (hrange e he) ho
      · intro w hdst hnc
        rw [ht,Node.linDef.injEq] at hdst
        exact absurd (mem_append_right _ (mem_singleton.mpr hdst.symm)) hnc
  · -- Inlined: every incoming edge joins the consumers' contexts.
    rename_i hdecide
    have hcomposable : scan.composable = true := by
      cases hc : scan.composable with
      | true => rfl
      | false =>
        rw [hc] at hdecide
        simp only [Bool.not_false,Bool.or_true,Bool.true_or,not_true_eq_false] at hdecide
    rw [hcxs,ok_bind]
    refine ⟨_,rfl,h.visit hnew hsucc (fun _ _ => Iff.rfl) ?_ ?_⟩
    · exact fun w hm => mem_append_left _ (h.committed w hm)
    · intro e he ht
      refine ⟨(CommitSetCx.join cxs).add e.1.shift,?_,?_,?_⟩
      · exact (setEdges_incoming he).trans (if_pos ht)
      · exact fun outer ho => Summary.withShift_covers _ (hrange e he) ho
      · intro w hdst _ o ho
        rw [ht,Node.linDef.injEq] at hdst
        rw [← hdst] at ho
        obtain ⟨consumer,hconsumer⟩ := hctx o ho
        have hkeep : o.1.target ≠ .linDef dst := fun heq => hnew (heq ▸ hseen o ho)
        refine ⟨consumer,?_,?_⟩
        · rw [← hconsumer]
          exact (setEdges_incoming (mem_outgoing.mp ho).1).trans (if_neg hkeep)
        · have hin : e ∈ incoming leg (.linDef dst) := mem_incoming.mpr ⟨he,ht⟩
          exact add_serves (hrange e he) (hmem o ho consumer hconsumer)
            (hcomp hcomposable o ho consumer hconsumer e hin)

end Visit

theorem decideAll_ok (hw : WellFormed leg) (limits : Limits)
    (dfs : Traversal Node) (hac : Acyclic (arcs leg)) :
    ∃ d, decideAll limits maxShiftSlots dfs leg = .ok d ∧ Inv leg (decisionOrder dfs leg) d := by
  have hpost := dfs.postOrder (arcs leg) (leg.opaqueWires.map .opaqueWire) hac
  refine hpost.toFinished.foldlM_invariant (Inv leg) ?_ ?_
  · refine ⟨fun e _ ht => absurd ht not_mem_nil,fun a ha => absurd ha not_mem_nil,?_⟩
    rw [hw.fresh]
    exact fun w hm => absurd hm not_mem_nil
  · intro pre a s hinv _ hnew hsucc
    cases a with
    | linDef dst => exact visitLinDef_ok hw limits hinv hnew hsucc
    | root id => exact visitRoot_ok hw limits hinv hnew hsucc
    | opaqueWire w => exact visitOpaque_ok hw limits hinv hsucc

section Closed

variable {cb : ConstraintBuilder}

/-- Every definition that has a term depends on a wire no definition assigns. -/
def Anchored (cb : ConstraintBuilder) : Prop :=
  ∀ lin ∈ cb.linearConstraints, lin.rhs ≠ [] →
    ∃ w, w ∉ cb.linearDsts ∧ Reaches (dependencies cb) lin.dst w

theorem closedForm_wellFormed (h : Defined cb) : WellFormed (closedForm cb) := by
  refine ⟨fun e he => edge_inRange h he,fun e he w => ?_,rfl⟩
  rcases mem_edges.mp he with ⟨lin,_,t,_,rfl⟩ | ⟨use,_,rfl⟩
  · exact nofun
  · exact nofun

theorem mem_arcs {a b : Node} :
    (a,b) ∈ arcs (closedForm cb) ↔
      (∃ lin ∈ cb.linearConstraints, ∃ t ∈ lin.rhs,
        a = wireNode cb.linearDsts t.wire ∧ b = .linDef lin.dst) ∨
      ∃ use ∈ (rootUses cb).zipIdx, a = .linDef use.1.2.wire ∧ b = .root use.2 := by
  simp only [arcs,mem_map,mem_edges,Prod.mk.injEq]
  constructor
  · rintro ⟨e,⟨lin,hl,t,ht,rfl⟩ | ⟨use,hu,rfl⟩,ha,hb⟩
    · exact .inl ⟨lin,hl,t,ht,ha.symm,hb.symm⟩
    · exact .inr ⟨use,hu,ha.symm,hb.symm⟩
  · rintro (⟨lin,hl,t,ht,ha,hb⟩ | ⟨use,hu,ha,hb⟩)
    · exact ⟨_,.inl ⟨lin,hl,t,ht,rfl⟩,ha.symm,hb.symm⟩
    · exact ⟨_,.inr ⟨use,hu,rfl⟩,ha.symm,hb.symm⟩

theorem acyclic_arcs (h : Acyclic (dependencies cb)) : Acyclic (arcs (closedForm cb)) := by
  -- The rank of a wire among its dependencies, turned around; roots are lowest.
  let depth := reachCount (dependencies cb)
  have hle : ∀ w, depth w ≤ (dependencies cb).length := reachCount_le (dependencies cb)
  let rank : Node → ℕ
    | .root _ => 0
    | .linDef w => (dependencies cb).length + 1 - depth w
    | .opaqueWire w => (dependencies cb).length + 1 - depth w
  have hnode : ∀ w, rank (wireNode cb.linearDsts w) = (dependencies cb).length + 1 - depth w := by
    intro w
    unfold wireNode
    split <;> rfl
  have hranks : Ranks (arcs (closedForm cb)) rank := by
    intro a b hab
    rcases mem_arcs.mp hab with ⟨lin,hl,t,ht,rfl,rfl⟩ | ⟨use,_,rfl,rfl⟩
    · have hdep : depth t.wire < depth lin.dst :=
        h.ranks_reachCount _ _ (mem_dependencies.mpr ⟨lin,hl,rfl,t,ht,rfl⟩)
      rw [hnode]
      have hd := hle lin.dst
      change (dependencies cb).length + 1 - depth lin.dst < _
      omega
    · have hd := hle use.1.2.wire
      change 0 < (dependencies cb).length + 1 - depth use.1.2.wire
      omega
  exact hranks.acyclic

theorem linDef_visited (dfs : Traversal Node) (h : Acyclic (dependencies cb))
    (ha : Anchored cb) {lin : WireLinearConstraint} (hl : lin ∈ cb.linearConstraints)
    (hne : lin.rhs ≠ []) : Node.linDef lin.dst ∈ decisionOrder dfs (closedForm cb) := by
  obtain ⟨w,hw,hreach⟩ := ha lin hl hne
  have hback : Reaches (arcs (closedForm cb)) (wireNode cb.linearDsts w)
      (wireNode cb.linearDsts lin.dst) := by
    clear hw
    induction hreach with
    | refl => exact .refl
    | tail _ hbc ih =>
      obtain ⟨inner,hd,rfl,t,ht,rfl⟩ := mem_dependencies.mp hbc
      have hdst : inner.dst ∈ cb.linearDsts := mem_map_of_mem hd
      refine .head (mem_arcs.mpr (.inl ⟨inner,hd,t,ht,rfl,rfl⟩)) ?_
      rw [wireNode,if_pos hdst] at ih
      exact ih
  have hdst : lin.dst ∈ cb.linearDsts := mem_map_of_mem hl
  have hsource : w ∈ (closedForm cb).opaqueWires := by
    rw [mem_opaqueWires]
    refine ⟨hw,?_⟩
    rcases Relation.ReflTransGen.cases_tail hreach with heq | ⟨b,_,hb⟩
    · exact absurd (heq ▸ hdst) hw
    · obtain ⟨inner,hd,_,t,ht,hwt⟩ := mem_dependencies.mp hb
      exact ⟨inner,hd,t,ht,hwt⟩
  rw [wireNode,if_neg hw,wireNode,if_pos hdst] at hback
  have hpost := dfs.postOrder (arcs (closedForm cb))
    ((closedForm cb).opaqueWires.map .opaqueWire) (acyclic_arcs h)
  exact (hpost.mem_iff _).mpr ⟨.opaqueWire w,mem_map_of_mem hsource,hback⟩

theorem anchored_of_nonempty (h : Acyclic (dependencies cb))
    (hne : ∀ lin ∈ cb.linearConstraints, lin.rhs ≠ []) : Anchored cb := by
  have hrank := h.ranks_reachCount
  have hdescend : ∀ n, ∀ lin ∈ cb.linearConstraints,
      reachCount (dependencies cb) lin.dst < n →
        ∃ w, w ∉ cb.linearDsts ∧ Reaches (dependencies cb) lin.dst w := by
    intro n
    induction n with
    | zero => exact fun _ _ hn => absurd hn (Nat.not_lt_zero _)
    | succ n ih =>
      intro lin hl hn
      obtain ⟨t,ht⟩ := exists_mem_of_ne_nil _ (hne lin hl)
      have harc : (lin.dst,t.wire) ∈ dependencies cb :=
        mem_dependencies.mpr ⟨lin,hl,rfl,t,ht,rfl⟩
      by_cases hd : t.wire ∈ cb.linearDsts
      · obtain ⟨inner,hdef,hdst⟩ := mem_map.mp hd
        have hlt := hrank _ _ harc
        rw [← hdst] at harc hlt
        obtain ⟨w,hw,hr⟩ := ih inner hdef (by omega)
        exact ⟨w,hw,.head harc hr⟩
      · exact ⟨t.wire,hd,.single harc⟩
  intro lin hl _
  exact hdescend _ lin hl (Nat.lt_succ_self _)

end Closed

end Binius64.CommitSet
