import Binius64.CommitSet

/-!
# Patching the constraints

The second half of gate fusion: every constraint that reads a linear definition is rebuilt with the
inlined cones, every committed definition keeps its own inlined cone, and the definitions so
absorbed are dropped.
-/

namespace Binius64.FusionPatch

open ShiftAlgebra WireConstraints LinearGraph PostOrder ShiftSummary CommitSet List

/-- How many shifts a term of the lowered constraint system may carry. -/
def loweredShiftSlots : ℕ := 2

abbrev Rebuilt := WireOperand × List ConstraintRef

def joinParts (parts : List Rebuilt) : Rebuilt :=
  (parts.flatMap Prod.fst,parts.flatMap Prod.snd)

/-- Fold a consumer's shifts into a term of an inlined definition and process
the result. -/
def inlineTerm (process : ShiftedWire → Fused Rebuilt) (seq : ShiftSeq) (innerTerm : ShiftedWire) :
    Fused Rebuilt := do
  let innerShift ← soleShift innerTerm
  match pushInner seq innerShift loweredShiftSlots with
  | .seq composed => process ⟨innerTerm.wire,composed⟩
  -- The shifts clear the word, and a zero term contributes nothing.
  | .zero => .ok ([],[])
  | .overBudget => .error .incompatibleShifts

/-- Process a term, inlining every definition it reaches that is not committed. -/
def processTerm (cb : ConstraintBuilder) (leg : LeGraph) : ℕ → ShiftedWire → Fused Rebuilt
  | 0, _ => .error .endless
  | fuel + 1, t =>
    if t.wire ∈ leg.linCommitted ∨ leg.isLinDef t.wire = false then .ok ([t],[])
    else do
      let innerOperand ← leg.linDefOperand cb t.wire
      let constraintRef ← leg.linDefConstraintRef t.wire
      let parts ← innerOperand.mapM (inlineTerm (processTerm cb leg fuel) t.shiftSeq)
      let inlined := joinParts parts
      return (inlined.1,constraintRef :: inlined.2)

def processOperand (cb : ConstraintBuilder) (leg : LeGraph) (operand : WireOperand) :
    Fused Rebuilt := do
  let parts ← operand.mapM (processTerm cb leg ((dependencies cb).length + 1))
  return joinParts parts

inductive AddedConstraint where
  | and (c : WireAndConstraint)
  /-- A rebuilt integer product constraint. -/
  | imul (c : WireImulConstraint)
  /-- A rebuilt field product constraint. -/
  | bmul (c : WireBmulConstraint)
  /-- A rebuilt zero constraint. -/
  | zero (c : WireZeroConstraint)
  /-- A committed definition, kept linear. -/
  | linear (c : WireLinearConstraint)

/-- A change to the constraints: what it replaces, and by what. -/
structure Patch where
  subsumes : List ConstraintRef
  added : AddedConstraint

def fetch {C : Type} (constraints : List C) (index : ℕ) : Fused C :=
  match constraints[index]? with
  | some c => .ok c
  | none => .error .noConstraint

variable (process : WireOperand → Fused Rebuilt)

def rebuildAnd (c : WireAndConstraint) : Fused (WireAndConstraint × List ConstraintRef) := do
  let a ← process c.a
  let b ← process c.b
  let c ← process c.c
  return (⟨a.1,b.1,c.1⟩,a.2 ++ b.2 ++ c.2)

def rebuildImul (c : WireImulConstraint) : Fused (WireImulConstraint × List ConstraintRef) := do
  let a ← process c.a
  let b ← process c.b
  let lo ← process c.lo
  let hi ← process c.hi
  return (⟨a.1,b.1,hi.1,lo.1⟩,a.2 ++ b.2 ++ lo.2 ++ hi.2)

def rebuildBmul (c : WireBmulConstraint) : Fused (WireBmulConstraint × List ConstraintRef) := do
  let aLo ← process c.aLo
  let aHi ← process c.aHi
  let bLo ← process c.bLo
  let bHi ← process c.bHi
  let cLo ← process c.cLo
  let cHi ← process c.cHi
  return (⟨aLo.1,aHi.1,bLo.1,bHi.1,cLo.1,cHi.1⟩,
    aLo.2 ++ aHi.2 ++ bLo.2 ++ bHi.2 ++ cLo.2 ++ cHi.2)

def rebuildZero (c : WireZeroConstraint) : Fused (WireZeroConstraint × List ConstraintRef) := do
  let val ← process c.val
  return (⟨val.1⟩,val.2)

def rebuildPatch {C : Type} (rebuild : C → Fused (C × List ConstraintRef))
    (add : C → AddedConstraint) (constraints : List C) (index : ℕ) (name : ConstraintRef) :
    Fused Patch := do
  let old ← fetch constraints index
  let new ← rebuild old
  return ⟨name :: new.2,add new.1⟩

def buildRootPatch (cb : ConstraintBuilder) (leg : LeGraph) (name : ConstraintRef) :
    Fused Patch :=
  let process := processOperand cb leg
  match name with
  | .and index => rebuildPatch (rebuildAnd process) .and cb.andConstraints index name
  | .imul index => rebuildPatch (rebuildImul process) .imul cb.imulConstraints index name
  | .bmul index => rebuildPatch (rebuildBmul process) .bmul cb.bmulConstraints index name
  | .zero index => rebuildPatch (rebuildZero process) .zero cb.zeroConstraints index name
  | .linear _ => .error .linearRoot

def buildCommittedLinDefPatch (cb : ConstraintBuilder) (leg : LeGraph) (root : Wire) :
    Fused Patch := do
  let name ← leg.linDefConstraintRef root
  let oldOperand ← leg.linDefOperand cb root
  let new ← processOperand cb leg oldOperand
  return ⟨name :: new.2,.linear ⟨new.1,root⟩⟩

/-- The order of constraint references: by kind, then by position. -/
def refBefore : ConstraintRef → ConstraintRef → Bool
  | .and i, .and j | .imul i, .imul j | .bmul i, .bmul j | .zero i, .zero j
  | .linear i, .linear j => i < j
  | .and _, _ => true
  | _, .and _ => false
  | .imul _, _ => true
  | _, .imul _ => false
  | .bmul _, _ => true
  | _, .bmul _ => false
  | .zero _, _ => true
  | _, .zero _ => false

def insertRef (name : ConstraintRef) : List ConstraintRef → List ConstraintRef
  | [] => [name]
  | first :: rest =>
    if name = first then first :: rest
    else if refBefore name first then name :: first :: rest
    else first :: insertRef name rest

def sortDedup (names : List ConstraintRef) : List ConstraintRef :=
  names.foldr insertRef []

/-- The members of a set of wires, in the order of their identifiers. -/
def entityIter (wires : List Wire) : List Wire :=
  (range (wires.foldr max 0 + 1)).filter (· ∈ wires)

/-- The patches for every constraint that reads a definition, then for every
committed definition. -/
def build (cb : ConstraintBuilder) (leg : LeGraph) : Fused (List Patch) := do
  let rootPatches ← (sortDedup leg.roots).mapM (buildRootPatch cb leg)
  let committedPatches ← (entityIter leg.linCommitted).mapM (buildCommittedLinDefPatch cb leg)
  return rootPatches ++ committedPatches

/-- Remove the constraints flagged as subsumed, keeping the order of the rest. -/
def retainUnsubsumed {C : Type} (constraints : List C) (subsumed : ℕ → Bool) : List C :=
  (constraints.zipIdx.filter fun c => !subsumed c.2).map Prod.fst

/-- Apply the patches: drop what they subsume and append what they add. -/
def applyPatches (cb : ConstraintBuilder) (patches : List Patch) : ConstraintBuilder :=
  let subsumed := patches.flatMap (·.subsumes)
  { andConstraints :=
      retainUnsubsumed cb.andConstraints (fun i => decide (.and i ∈ subsumed)) ++
        patches.filterMap fun p => match p.added with | .and c => some c | _ => none
    imulConstraints :=
      retainUnsubsumed cb.imulConstraints (fun i => decide (.imul i ∈ subsumed)) ++
        patches.filterMap fun p => match p.added with | .imul c => some c | _ => none
    bmulConstraints :=
      retainUnsubsumed cb.bmulConstraints (fun i => decide (.bmul i ∈ subsumed)) ++
        patches.filterMap fun p => match p.added with | .bmul c => some c | _ => none
    linearConstraints :=
      retainUnsubsumed cb.linearConstraints (fun i => decide (.linear i ∈ subsumed)) ++
        patches.filterMap fun p => match p.added with | .linear c => some c | _ => none
    zeroConstraints :=
      retainUnsubsumed cb.zeroConstraints (fun i => decide (.zero i ∈ subsumed)) ++
        patches.filterMap fun p => match p.added with | .zero c => some c | _ => none }

/-- Commit the pinned wires that are linear definitions besides what was decided. -/
def pin (leg : LeGraph) (pinned : List Wire) : LeGraph :=
  {leg with linCommitted := leg.linCommitted ++ pinned.filter leg.isLinDef}

def runPass (limits : Limits) (dfs : Traversal Node) (cb : ConstraintBuilder)
    (pinned : List Wire) : Fused ConstraintBuilder := do
  let leg ← LeGraph.new cb
  let leg ← runDecideCommitSet limits loweredShiftSlots dfs leg
  let patches ← build cb (pin leg pinned)
  return applyPatches cb patches

section Inline

variable {cb : ConstraintBuilder} {committed : List Wire}

def committedGraph (cb : ConstraintBuilder) (committed : List Wire) : LeGraph :=
  {closedForm cb with linCommitted := committed}

variable {lin : WireLinearConstraint} {seq : ShiftSeq}

theorem linearConstraints_idxOf (hn : cb.linearDsts.Nodup)
    (hl : lin ∈ cb.linearConstraints) :
    cb.linearConstraints[cb.linearDsts.idxOf lin.dst]? = some lin := by
  obtain ⟨i,hi,hlin⟩ := getElem_of_mem hl
  have hlen : i < cb.linearDsts.length := by
    rw [ConstraintBuilder.linearDsts,length_map]
    exact hi
  have hdst : cb.linearDsts[i] = lin.dst := by
    simp only [ConstraintBuilder.linearDsts,getElem_map,hlin]
  rw [← hdst,hn.idxOf_getElem i hlen,getElem?_eq_getElem hi,hlin]

theorem linDefOperand_ok (hn : cb.linearDsts.Nodup)
    (hl : lin ∈ cb.linearConstraints) :
    (committedGraph cb committed).linDefOperand cb lin.dst = .ok lin.rhs := by
  have hd : lin.dst ∈ (committedGraph cb committed).linDefs := mem_map_of_mem hl
  have hi : cb.linearConstraints[(committedGraph cb committed).linDefs.idxOf lin.dst]? =
      some lin := linearConstraints_idxOf hn hl
  rw [LeGraph.linDefOperand,LeGraph.linDefId,if_pos hd,ok_bind,hi]

theorem linDefConstraintRef_ok (hl : lin ∈ cb.linearConstraints) :
    (committedGraph cb committed).linDefConstraintRef lin.dst =
      .ok (.linear (cb.linearDsts.idxOf lin.dst)) := by
  have hd : lin.dst ∈ (committedGraph cb committed).linDefs := mem_map_of_mem hl
  rw [LeGraph.linDefConstraintRef,LeGraph.linDefId,if_pos hd]
  rfl

structure Expands (cb : ConstraintBuilder) (committed : List Wire) (operand : WireOperand)
    (out : Rebuilt) : Prop where
  /-- Only committed definitions and wires no definition assigns are left. -/
  kept : ∀ t ∈ out.1, t.wire ∈ committed ∨ t.wire ∉ cb.linearDsts
  refs : ∀ name ∈ out.2, ∃ w ∈ cb.linearDsts, w ∉ committed ∧
    name = .linear (cb.linearDsts.idxOf w)
  eval : ∀ σ, (∀ lin ∈ cb.linearConstraints, lin.dst ∉ committed → lin.Holds σ) →
    evalWires σ out.1 = evalWires σ operand
  canonical : (∀ lin ∈ cb.linearConstraints, ∀ t ∈ lin.rhs, t.shiftSeq.Canonical) →
    (∀ t ∈ operand, t.shiftSeq.Canonical) → ∀ t ∈ out.1, t.shiftSeq.Canonical
  origin : ∀ t ∈ out.1, (∃ s ∈ operand, s.wire = t.wire) ∨
    ∃ lin ∈ cb.linearConstraints, ∃ s ∈ lin.rhs, s.wire = t.wire

theorem Expands.append {first second : WireOperand} {out out' : Rebuilt}
    (he : Expands cb committed first out) (hr : Expands cb committed second out') :
    Expands cb committed (first ++ second) (out.1 ++ out'.1,out.2 ++ out'.2) := by
  constructor
  · intro s hs
    exact (mem_append.mp hs).elim (he.kept s) (hr.kept s)
  · intro name hn
    exact (mem_append.mp hn).elim (he.refs name) (hr.refs name)
  · intro σ hσ
    rw [evalWires_append,evalWires_append,he.eval σ hσ,hr.eval σ hσ]
  · intro hdefs hop s hs
    rw [forall_mem_append] at hop
    exact (mem_append.mp hs).elim (he.canonical hdefs hop.1 s) (hr.canonical hdefs hop.2 s)
  · intro s hs
    rcases mem_append.mp hs with hs | hs
    · refine (he.origin s hs).imp_left ?_
      rintro ⟨u,hu,hw⟩
      exact ⟨u,mem_append_left _ hu,hw⟩
    · refine (hr.origin s hs).imp_left ?_
      rintro ⟨u,hu,hw⟩
      exact ⟨u,mem_append_right _ hu,hw⟩

theorem expands_flatMap {β : Type} (process : β → Fused Rebuilt) (stands : β → WireOperand)
    (xs : List β)
    (h : ∀ x ∈ xs, ∃ out, process x = .ok out ∧ Expands cb committed (stands x) out) :
    ∃ parts, xs.mapM process = .ok parts ∧
      Expands cb committed (xs.flatMap stands) (joinParts parts) := by
  induction xs with
  | nil => exact ⟨[],rfl,nofun,nofun,fun _ _ => rfl,fun _ h => h,nofun⟩
  | cons x rest ih =>
    rw [forall_mem_cons] at h
    obtain ⟨out,hout,he⟩ := h.1
    obtain ⟨parts,hparts,hr⟩ := ih h.2
    refine ⟨out :: parts,?_,he.append hr⟩
    rw [mapM_cons,hout,ok_bind,hparts,ok_bind]
    rfl

theorem expands_self {t : ShiftedWire} (h : t.wire ∈ committed ∨ t.wire ∉ cb.linearDsts) :
    Expands cb committed [t] ([t],[]) := by
  refine ⟨fun s hs => ?_,nofun,fun _ _ => rfl,fun _ h => h,fun s hs => .inl ⟨s,hs,rfl⟩⟩
  rw [mem_singleton] at hs
  exact hs ▸ h

/-- The terms of a definition with a consumer's shifts folded in; a term the
shifts clear is dropped. -/
def foldTerm (seq : ShiftSeq) (s : ShiftedWire) : WireOperand :=
  match pushInner seq s.shiftSeq.inner loweredShiftSlots with
  | .seq composed => [⟨s.wire,composed⟩]
  | _ => []

theorem evalWires_foldTerm {s : ShiftedWire} (hq : seq.InRange)
    (hs : s.shiftSeq.inner.InRange) (ho : s.shiftSeq.outer.isIdentity = true)
    (hb : pushInner seq s.shiftSeq.inner loweredShiftSlots ≠ .overBudget) (σ : Assignment) :
    evalWires σ (foldTerm seq s) = seq.apply (s.eval σ) := by
  have hd := pushInner_denotes hq hs loweredShiftSlots
  have heval : s.eval σ = s.shiftSeq.inner.apply (σ s.wire) := by
    rw [ShiftedWire.eval,ShiftSeq.apply,Shift.apply_of_isIdentity ho]
  unfold foldTerm
  cases hp : pushInner seq s.shiftSeq.inner loweredShiftSlots with
  | seq composed =>
    rw [hp] at hd
    dsimp only
    rw [evalWires_cons,evalWires_nil,BitVec.ofNat_eq_ofNat,BitVec.xor_zero,ShiftedWire.eval,
      hd.2,heval]
  | zero =>
    rw [hp] at hd
    exact (heval ▸ hd (σ s.wire)).symm
  | overBudget => exact absurd hp hb

theorem evalWires_foldTerms (hq : seq.InRange) (rhs : WireOperand)
    (h : ∀ s ∈ rhs, s.shiftSeq.inner.InRange ∧ s.shiftSeq.outer.isIdentity = true ∧
      pushInner seq s.shiftSeq.inner loweredShiftSlots ≠ .overBudget) (σ : Assignment) :
    evalWires σ (rhs.flatMap (foldTerm seq)) = seq.apply (evalWires σ rhs) := by
  induction rhs with
  | nil => exact (ShiftSeq.apply_zero hq).symm
  | cons s rest ih =>
    rw [forall_mem_cons] at h
    rw [flatMap_cons,evalWires_append,evalWires_cons,ShiftSeq.apply_xor hq,ih h.2,
      evalWires_foldTerm hq h.1.1 h.1.2.1 h.1.2.2]

theorem mem_foldTerm {s t : ShiftedWire} (h : t ∈ foldTerm seq s) :
    t.wire = s.wire ∧ pushInner seq s.shiftSeq.inner loweredShiftSlots = .seq t.shiftSeq := by
  unfold foldTerm at h
  split at h
  · rename_i composed hp
    rw [mem_singleton] at h
    rw [h]
    exact ⟨rfl,hp⟩
  · exact absurd h not_mem_nil

theorem Expands.inline {out : Rebuilt}
    (hl : lin ∈ cb.linearConstraints) (hc : lin.dst ∉ committed) (hq : seq.InRange)
    (h : ∀ s ∈ lin.rhs, s.shiftSeq.inner.InRange ∧ s.shiftSeq.outer.isIdentity = true ∧
      pushInner seq s.shiftSeq.inner loweredShiftSlots ≠ .overBudget)
    (he : Expands cb committed (lin.rhs.flatMap (foldTerm seq)) out) :
    Expands cb committed [⟨lin.dst,seq⟩]
      (out.1,.linear (cb.linearDsts.idxOf lin.dst) :: out.2) := by
  constructor
  · exact he.kept
  · intro name hn
    rcases mem_cons.mp hn with rfl | hn
    · exact ⟨lin.dst,mem_map_of_mem hl,hc,rfl⟩
    · exact he.refs name hn
  · intro σ hσ
    have hdef : evalWires σ lin.rhs = σ lin.dst := hσ lin hl hc
    rw [he.eval σ hσ,evalWires_foldTerms hq lin.rhs h,hdef,evalWires_cons,evalWires_nil,
      BitVec.ofNat_eq_ofNat,BitVec.xor_zero]
    rfl
  · intro hdefs hop
    refine he.canonical hdefs ?_
    intro t ht
    obtain ⟨s,hs,ht⟩ := mem_flatMap.mp ht
    have hseq : seq.Canonical := hop _ (mem_singleton_self _)
    have hcan := hdefs lin hl s hs
    exact pushInner_canonical hseq hcan.inner hcan.innerCanonical (mem_foldTerm ht).2
  · intro t ht
    rcases he.origin t ht with ⟨u,hu,hw⟩ | h
    · obtain ⟨s,hs,hu⟩ := mem_flatMap.mp hu
      exact .inr ⟨lin,hl,s,hs,(mem_foldTerm hu).1.symm.trans hw⟩
    · exact .inr h

end Inline

/-- A decision over a builder's graph, with the definitions finally committed:
those decided and whatever is pinned besides. -/
structure Decided (cb : ConstraintBuilder) (order : List Node) (d : Decision)
    (committed : List Wire) : Prop where
  defined : Defined cb
  acyclic : Acyclic (dependencies cb)
  inv : Inv (closedForm cb) order d
  visited : ∀ lin ∈ cb.linearConstraints, lin.rhs ≠ [] → Node.linDef lin.dst ∈ order
  sub : ∀ w ∈ d.committed, w ∈ committed

def Ready (cb : ConstraintBuilder) (d : Decision) (t : ShiftedWire) : Prop :=
  t.shiftSeq.InRange ∧ ∀ lin ∈ cb.linearConstraints, lin.dst = t.wire → lin.rhs ≠ [] →
    ∃ o ∈ outgoing (closedForm cb) (.linDef lin.dst), ∃ cx, d.perEdge o.2 = some cx ∧
      cx.shifts.Covers t.shiftSeq

section Decided

variable {cb : ConstraintBuilder} {order : List Node} {d : Decision} {committed : List Wire}

variable {operand : WireOperand} {t : ShiftedWire} {lin : WireLinearConstraint}

theorem Decided.term (h : Decided cb order d committed)
    (ho : operand ∈ cb.operands) (ht : t ∈ operand) :
    t.shiftSeq.InRange ∧ t.shiftSeq.outer.isIdentity = true := by
  have hid := h.defined.single operand ho t ht
  refine ⟨⟨h.defined.inRange operand ho t ht,?_⟩,hid⟩
  rw [Shift.InRange,(Shift.isIdentity_iff _).mp hid]
  exact ShiftVariant.maxAmount_pos _

theorem Decided.defTerm (h : Decided cb order d committed)
    (hl : lin ∈ cb.linearConstraints) (ht : t ∈ lin.rhs) :
    t.shiftSeq.InRange ∧ t.shiftSeq.outer.isIdentity = true :=
  h.term (mem_append_right _ (mem_map_of_mem hl)) ht

theorem ready_of_edge {e : EdgeRef} {cx : CommitSetCx}
    (he : (closedForm cb).edges[e.2]? = some e.1)
    (hsource : e.1.source = wireNode cb.linearDsts t.wire) (hcx : d.perEdge e.2 = some cx)
    (hr : t.shiftSeq.InRange) (hc : cx.shifts.Covers t.shiftSeq) : Ready cb d t := by
  refine ⟨hr,fun lin hl hdst _ => ⟨e,mem_outgoing.mpr ⟨he,?_⟩,cx,hcx,hc⟩⟩
  have hd : lin.dst ∈ cb.linearDsts := mem_map_of_mem hl
  rw [hsource,wireNode,← hdst,if_pos hd]

theorem Decided.defEdge (h : Decided cb order d committed)
    (hl : lin ∈ cb.linearConstraints) (ht : t ∈ lin.rhs) :
    ∃ i, (closedForm cb).edges[i]? = some (defEdge cb.linearDsts lin.dst t) ∧
      EdgeSound (closedForm cb) d (defEdge cb.linearDsts lin.dst t,i) := by
  obtain ⟨i,hi⟩ := mem_iff_getElem?.mp (defEdge_mem hl ht)
  have hne : lin.rhs ≠ [] := ne_nil_of_mem ht
  exact ⟨i,hi,h.inv.edges (_,i) hi (h.visited lin hl hne)⟩

theorem Decided.ready_defTerm (h : Decided cb order d committed)
    (hl : lin ∈ cb.linearConstraints) (ht : t ∈ lin.rhs) : Ready cb d t := by
  obtain ⟨i,hi,cx,hcx,hfresh,_⟩ := h.defEdge hl ht
  have hterm := h.defTerm hl ht
  exact ready_of_edge (e := (_,i)) hi rfl hcx hterm.1 (hfresh _ hterm.2)

theorem Decided.ready_rootTerm (h : Decided cb order d committed)
    (ho : operand ∈ cb.rootOperands) (ht : t ∈ operand) : Ready cb d t := by
  have hterm := h.term (mem_append_left _ ho) ht
  refine ⟨hterm.1,fun lin hl hdst hne => ?_⟩
  have hd : t.wire ∈ cb.linearDsts := hdst ▸ mem_map_of_mem hl
  obtain ⟨name,hname⟩ := exists_rootUse ho ht hd
  obtain ⟨id,hid⟩ := rootEdge_mem hname
  obtain ⟨i,hi⟩ := mem_iff_getElem?.mp hid
  have harc : (Node.linDef t.wire,Node.root id) ∈ arcs (closedForm cb) :=
    arc_of_edge (e := (_,i)) hi
  have hroot : Node.root id ∈ order :=
    h.inv.closed (.linDef t.wire) (hdst ▸ h.visited lin hl hne) _ harc
  obtain ⟨cx,hcx,hfresh,_⟩ := h.inv.edges (_,i) hi hroot
  exact ⟨(_,i),mem_outgoing.mpr ⟨hi,congrArg Node.linDef hdst.symm⟩,cx,hcx,hfresh _ hterm.2⟩

theorem Decided.ready_foldTerm (h : Decided cb order d committed)
    (hl : lin ∈ cb.linearConstraints) (hc : lin.dst ∉ committed) {seq : ShiftSeq}
    (hr : Ready cb d ⟨lin.dst,seq⟩) {s : ShiftedWire} (hs : s ∈ lin.rhs) :
    pushInner seq s.shiftSeq.inner loweredShiftSlots ≠ .overBudget ∧
      ∀ t ∈ foldTerm seq s, Ready cb d t := by
  obtain ⟨o,ho,cxo,hcxo,hcov⟩ := hr.2 lin hl rfl (ne_nil_of_mem hs)
  obtain ⟨i,hi,cx,hcx,_,hserve⟩ := h.defEdge hl hs
  obtain ⟨consumer,hconsumer,hserves⟩ := hserve lin.dst rfl (fun hd => hc (h.sub _ hd)) o ho
  have heq : cxo = consumer := by rw [hcxo,Option.some.injEq] at hconsumer; exact hconsumer
  obtain ⟨hfold,hbudget⟩ := hserves seq hr.1 (heq ▸ hcov)
  refine ⟨hbudget,fun t ht => ?_⟩
  obtain ⟨hwire,hpush⟩ := mem_foldTerm ht
  have hdenotes := pushInner_denotes hr.1 (h.defTerm hl hs).1.inner loweredShiftSlots
  rw [hpush] at hdenotes
  have hcovers : cx.shifts.Covers t.shiftSeq := by
    have hf : cx.shifts.CoversFold (pushInner seq s.shiftSeq.inner loweredShiftSlots) := hfold
    rw [hpush] at hf
    exact hf
  refine ready_of_edge (e := (_,i)) hi ?_ hcx hdenotes.1 hcovers
  rw [hwire]

theorem Decided.processTerm_ok (h : Decided cb order d committed) (fuel : ℕ) :
    ∀ t : ShiftedWire, Ready cb d t → reachCount (dependencies cb) t.wire < fuel →
      ∃ out, processTerm cb (committedGraph cb committed) fuel t = .ok out ∧
        Expands cb committed [t] out := by
  induction fuel with
  | zero => exact fun _ _ hf => absurd hf (Nat.not_lt_zero _)
  | succ fuel ih =>
    intro t hr hfuel
    rw [processTerm]
    by_cases hk : t.wire ∈ committed ∨ t.wire ∉ cb.linearDsts
    · have hkeep : t.wire ∈ (committedGraph cb committed).linCommitted ∨
          (committedGraph cb committed).isLinDef t.wire = false :=
        hk.imp_right fun hn => decide_eq_false hn
      rw [if_pos hkeep]
      exact ⟨([t],[]),rfl,expands_self hk⟩
    · have hkeep : ¬(t.wire ∈ (committedGraph cb committed).linCommitted ∨
          (committedGraph cb committed).isLinDef t.wire = false) := by
        rw [not_or] at hk ⊢
        refine ⟨hk.1,?_⟩
        have hd : (committedGraph cb committed).isLinDef t.wire = true :=
          decide_eq_true (not_not.mp hk.2)
        rw [hd]
        exact nofun
      rw [not_or,not_not] at hk
      rw [if_neg hkeep]
      obtain ⟨lin,hl,hdst⟩ := mem_map.mp hk.2
      obtain ⟨wire,seq⟩ := t
      dsimp only at hdst hk hfuel
      subst hdst
      have hready : ∀ s ∈ lin.rhs, pushInner seq s.shiftSeq.inner loweredShiftSlots ≠ .overBudget ∧
          ∀ t ∈ foldTerm seq s, Ready cb d t := fun s hs => h.ready_foldTerm hl hk.1 hr hs
      -- Each term is either dropped or expanded one level further down.
      have hparts : ∀ s ∈ lin.rhs, ∃ out,
          inlineTerm (processTerm cb (committedGraph cb committed) fuel) seq s = .ok out ∧
            Expands cb committed (foldTerm seq s) out := by
        intro s hs
        obtain ⟨hbudget,hfold⟩ := hready s hs
        rw [inlineTerm,soleShift_ok (h.defTerm hl hs).2,ok_bind]
        unfold foldTerm at hfold ⊢
        cases hp : pushInner seq s.shiftSeq.inner loweredShiftSlots with
        | seq composed =>
          rw [hp] at hfold
          have hlt := h.acyclic.ranks_reachCount _ _
            (mem_dependencies.mpr ⟨lin,hl,rfl,s,hs,rfl⟩)
          have hlower : reachCount (dependencies cb) s.wire < fuel := by omega
          exact ih ⟨s.wire,composed⟩ (hfold _ (mem_singleton_self _)) hlower
        | zero => exact ⟨([],[]),rfl,nofun,nofun,fun _ _ => rfl,fun _ h => h,nofun⟩
        | overBudget => exact absurd hp hbudget
      obtain ⟨parts,hmap,hexp⟩ := expands_flatMap _ (foldTerm seq) lin.rhs hparts
      rw [linDefOperand_ok h.defined.distinct hl,ok_bind,linDefConstraintRef_ok hl,ok_bind,hmap,
        ok_bind]
      refine ⟨_,rfl,hexp.inline hl hk.1 hr.1 fun s hs => ?_⟩
      exact ⟨(h.defTerm hl hs).1.inner,(h.defTerm hl hs).2,(hready s hs).1⟩

theorem Decided.processOperand_ok (h : Decided cb order d committed)
    (hr : ∀ t ∈ operand, Ready cb d t) :
    ∃ out, processOperand cb (committedGraph cb committed) operand = .ok out ∧
      Expands cb committed operand out := by
  have hfuel : ∀ w, reachCount (dependencies cb) w < (dependencies cb).length + 1 := fun w =>
    Nat.lt_succ_of_le (reachCount_le _ w)
  obtain ⟨parts,hparts,hexp⟩ := expands_flatMap _ (fun t => [t]) operand
    fun t ht => h.processTerm_ok _ t (hr t ht) (hfuel t.wire)
  refine ⟨joinParts parts,?_,?_⟩
  · rw [processOperand,hparts]
    rfl
  · rw [flatMap_singleton'] at hexp
    exact hexp

end Decided

end Binius64.FusionPatch
