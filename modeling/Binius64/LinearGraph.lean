import Binius64.PostOrder
import Binius64.WireConstraints

/-!
# The linear expression graph

Gate fusion's view of a constraint builder: one node per linear definition, one per use of a
definition in another constraint, one per wire no definition assigns, and one edge per term.
-/

namespace Binius64.LinearGraph

open ShiftAlgebra WireConstraints List

inductive FusionPanic where
  /-- Two linear constraints define one wire. -/
  | nodeExists
  /-- A wire has no node in the graph. -/
  | noNode
  /-- A wire is not assigned by a linear definition. -/
  | notLinDef
  /-- A term the builder produced carries two shifts. -/
  | doublyShifted
  /-- A consumer's edge carries no context when its producer is visited. -/
  | missingContext
  /-- A definition is committed twice. -/
  | committedTwice
  /-- Inlining needs a third shift slot. -/
  | incompatibleShifts
  /-- A root names a linear constraint. -/
  | linearRoot
  /-- A constraint position is past the end of its list. -/
  | noConstraint
  /-- Inlining does not end, since a definition depends on itself. -/
  | endless
deriving DecidableEq

abbrev Fused := Except FusionPanic

inductive ConstraintRef where
  | and (index : ℕ)
  /-- An integer product constraint. -/
  | imul (index : ℕ)
  /-- A field product constraint. -/
  | bmul (index : ℕ)
  | zero (index : ℕ)
  | linear (index : ℕ)
deriving DecidableEq

inductive Node where
  /-- The linear definition of a wire. -/
  | linDef (dst : Wire)
  /-- One use of a definition by a constraint that defines no wire. -/
  | root (id : ℕ)
  /-- A wire no definition assigns. -/
  | opaqueWire (wire : Wire)
deriving DecidableEq

/-- The use of a producer by a consumer, with the shift applied to the producer. -/
structure Edge where
  source : Node
  target : Node
  shift : Shift
deriving DecidableEq

/-- The graph of uses between linear definitions and their consumers. -/
structure LeGraph where
  edges : List Edge
  linDefs : List Wire
  /-- The constraint each root names, in the order the roots were discovered. -/
  roots : List ConstraintRef
  /-- The wires no definition assigns, in the order they were discovered. -/
  opaqueWires : List Wire
  linCommitted : List Wire

namespace LeGraph

def empty : LeGraph := ⟨[],[],[],[],[]⟩

variable (leg : LeGraph) (wire : Wire)

/-- Whether a linear constraint defines the wire. -/
def isLinDef : Bool :=
  wire ∈ leg.linDefs

def wireToNode : Option Node :=
  if wire ∈ leg.linDefs then some (.linDef wire)
  else if wire ∈ leg.opaqueWires then some (.opaqueWire wire)
  else none

def nodeOf : Fused Node :=
  match leg.wireToNode wire with
  | some node => .ok node
  | none => .error .noNode

/-- The position of the linear constraint that defines a wire. -/
def linDefId : Fused ℕ :=
  if wire ∈ leg.linDefs then .ok (leg.linDefs.idxOf wire) else .error .notLinDef

def linDefConstraintRef : Fused ConstraintRef := do
  let id ← leg.linDefId wire
  return .linear id

def linDefOperand (cb : ConstraintBuilder) (wire : Wire) : Fused WireOperand := do
  let id ← leg.linDefId wire
  match cb.linearConstraints[id]? with
  | some lin => .ok lin.rhs
  | none => .error .noConstraint

def addLinDef (dst : Wire) : Fused LeGraph :=
  if (leg.wireToNode dst).isNone then .ok {leg with linDefs := leg.linDefs ++ [dst]}
  else .error .nodeExists

def addEdge (source target : Node) (shift : Shift) : LeGraph :=
  {leg with edges := leg.edges ++ [⟨source,target,shift⟩]}

def noteLinUse (producer : Wire) (shift : Shift) (consumer : Wire) : Fused LeGraph := do
  let nodeC ← leg.nodeOf consumer
  if leg.isLinDef producer then
    let nodeP ← leg.nodeOf producer
    return leg.addEdge nodeP nodeC shift
  else
    match leg.wireToNode producer with
    | some node => return leg.addEdge node nodeC shift
    | none =>
      let leg := {leg with opaqueWires := leg.opaqueWires ++ [producer]}
      return leg.addEdge (.opaqueWire producer) nodeC shift

def noteRootUse (producer : Wire) (shift : Shift) (constraint : ConstraintRef) : Fused LeGraph := do
  let nodeP ← leg.nodeOf producer
  let root := Node.root leg.roots.length
  return {leg with roots := leg.roots ++ [constraint]}.addEdge nodeP root shift

end LeGraph

def soleShift (t : ShiftedWire) : Fused Shift :=
  match t.soleShift with
  | some shift => .ok shift
  | none => .error .doublyShifted

variable (leg : LeGraph)

def noteDefinition (lin : WireLinearConstraint) : Fused LeGraph :=
  lin.rhs.foldlM (fun leg t => do
    let shift ← soleShift t
    leg.noteLinUse t.wire shift lin.dst) leg

def harvestRootUses (operand : WireOperand) (constraint : ConstraintRef) : Fused LeGraph :=
  operand.foldlM (fun leg t =>
    if leg.isLinDef t.wire then do
      let shift ← soleShift t
      leg.noteRootUse t.wire shift constraint
    else return leg) leg

def harvestAll {C : Type} (operands : C → List WireOperand) (name : ℕ → ConstraintRef)
    (constraints : List C) (leg : LeGraph) : Fused LeGraph :=
  constraints.zipIdx.foldlM (fun leg (c,index) =>
    (operands c).foldlM (fun leg operand => harvestRootUses leg operand (name index)) leg) leg

/-- Collect the definitions, their uses in definitions, and their uses elsewhere. -/
def buildUseDef (cb : ConstraintBuilder) (leg : LeGraph) : Fused LeGraph := do
  let leg ← cb.linearConstraints.foldlM (fun leg lin => leg.addLinDef lin.dst) leg
  let leg ← cb.linearConstraints.foldlM noteDefinition leg
  let leg ← harvestAll (fun c : WireAndConstraint => [c.a,c.b,c.c]) .and cb.andConstraints leg
  let leg ← harvestAll (fun c : WireImulConstraint => [c.a,c.b,c.hi,c.lo]) .imul
    cb.imulConstraints leg
  let leg ← harvestAll (fun c : WireBmulConstraint => [c.aLo,c.aHi,c.bLo,c.bHi,c.cLo,c.cHi]) .bmul
    cb.bmulConstraints leg
  harvestAll (fun c : WireZeroConstraint => [c.val]) .zero cb.zeroConstraints leg

def LeGraph.new (cb : ConstraintBuilder) : Fused LeGraph :=
  buildUseDef cb .empty

def dependencies (cb : ConstraintBuilder) : List (Wire × Wire) :=
  cb.linearConstraints.flatMap fun lin => lin.rhs.map fun t => (lin.dst,t.wire)

variable (dsts : List Wire)

def wireNode (wire : Wire) : Node :=
  if wire ∈ dsts then .linDef wire else .opaqueWire wire

def defEdge (dst : Wire) (t : ShiftedWire) : Edge :=
  ⟨wireNode dsts t.wire,.linDef dst,t.shiftSeq.inner⟩

/-- Remember a wire no definition assigns, once. -/
def noteOpaque (dsts wires : List Wire) (wire : Wire) : List Wire :=
  if wire ∈ dsts ∨ wire ∈ wires then wires else wires ++ [wire]

def usesIn (name : ConstraintRef) (operand : WireOperand) : List (ConstraintRef × ShiftedWire) :=
  operand.flatMap fun t => if t.wire ∈ dsts then [(name,t)] else []

def usesAll {C : Type} (operands : C → List WireOperand)
    (name : ℕ → ConstraintRef) (constraints : List C) : List (ConstraintRef × ShiftedWire) :=
  constraints.zipIdx.flatMap fun (c,index) => (operands c).flatMap (usesIn dsts (name index))

def rootUses (cb : ConstraintBuilder) : List (ConstraintRef × ShiftedWire) :=
  let dsts := cb.linearDsts
  usesAll dsts (fun c : WireAndConstraint => [c.a,c.b,c.c]) .and cb.andConstraints ++
    usesAll dsts (fun c : WireImulConstraint => [c.a,c.b,c.hi,c.lo]) .imul cb.imulConstraints ++
    usesAll dsts (fun c : WireBmulConstraint => [c.aLo,c.aHi,c.bLo,c.bHi,c.cLo,c.cHi]) .bmul
      cb.bmulConstraints ++
    usesAll dsts (fun c : WireZeroConstraint => [c.val]) .zero cb.zeroConstraints

def rootEdge (use : (ConstraintRef × ShiftedWire) × ℕ) : Edge :=
  ⟨.linDef use.1.2.wire,.root use.2,use.1.2.shiftSeq.inner⟩

def LeGraph.withLinDefs : LeGraph :=
  {leg with linDefs := leg.linDefs ++ dsts}

def LeGraph.withDefinitions (lins : List WireLinearConstraint) : LeGraph :=
  {leg with
    edges := leg.edges ++ lins.flatMap fun lin => lin.rhs.map (defEdge leg.linDefs lin.dst)
    opaqueWires := (lins.flatMap fun lin => lin.rhs.map (·.wire)).foldl
      (noteOpaque leg.linDefs) leg.opaqueWires}

def LeGraph.withRootUses (uses : List (ConstraintRef × ShiftedWire)) : LeGraph :=
  {leg with
    edges := leg.edges ++ (uses.zipIdx leg.roots.length).map rootEdge
    roots := leg.roots ++ uses.map Prod.fst}

def closedForm (cb : ConstraintBuilder) : LeGraph :=
  ((LeGraph.empty.withLinDefs cb.linearDsts).withDefinitions cb.linearConstraints).withRootUses
    (rootUses cb)

/-- The assumptions under which the graph is built: no wire is defined twice
and each term carries one shift, in range. -/
structure Defined (cb : ConstraintBuilder) : Prop where
  distinct : cb.linearDsts.Nodup
  single : ∀ operand ∈ cb.operands, ∀ t ∈ operand, t.shiftSeq.outer.isIdentity = true
  inRange : ∀ operand ∈ cb.operands, ∀ t ∈ operand, t.shiftSeq.inner.InRange

@[simp] theorem ok_bind {α β : Type} (a : α) (k : α → Fused β) :
    ((.ok a : Fused α) >>= k) = k a := rfl

theorem soleShift_ok {t : ShiftedWire} (h : t.shiftSeq.outer.isIdentity = true) :
    soleShift t = .ok t.shiftSeq.inner := by
  rw [soleShift,ShiftedWire.soleShift,if_pos h]

namespace LeGraph

variable (lins : List WireLinearConstraint)

theorem addLinDefs_ok :
    ∀ leg : LeGraph, leg.opaqueWires = [] → (leg.linDefs ++ lins.map (·.dst)).Nodup →
      lins.foldlM (fun leg lin => leg.addLinDef lin.dst) leg =
        .ok (leg.withLinDefs (lins.map (·.dst))) := by
  induction lins with
  | nil =>
    intro leg _ _
    rw [map_nil,withLinDefs,append_nil]
    rfl
  | cons lin rest ih =>
    intro leg ho hn
    have hnew : lin.dst ∉ leg.linDefs := by
      intro hin
      rw [map_cons] at hn
      exact (nodup_append.mp hn).2.2 _ hin _ mem_cons_self rfl
    have hnode : leg.wireToNode lin.dst = none := by
      rw [wireToNode,if_neg hnew,ho,if_neg not_mem_nil]
    have hstep : leg.addLinDef lin.dst = .ok (leg.withLinDefs [lin.dst]) := by
      rw [addLinDef,hnode]
      rfl
    have hn' : ((leg.withLinDefs [lin.dst]).linDefs ++ rest.map (·.dst)).Nodup := by
      simpa [withLinDefs] using hn
    rw [foldlM_cons,hstep,ok_bind,ih (leg.withLinDefs [lin.dst]) ho hn']
    simp [withLinDefs]

variable (leg : LeGraph)

@[simp] theorem withDefinitions_nil : leg.withDefinitions [] = leg := by
  simp [withDefinitions]

theorem withDefinitions_append (first second : List WireLinearConstraint) :
    (leg.withDefinitions first).withDefinitions second = leg.withDefinitions (first ++ second) := by
  simp [withDefinitions,foldl_append]

theorem noteLinUse_ok {leg : LeGraph} {dst : Wire} (t : ShiftedWire) (hd : dst ∈ leg.linDefs) :
    leg.noteLinUse t.wire t.shiftSeq.inner dst = .ok (leg.withDefinitions [⟨[t],dst⟩]) := by
  have hc : leg.nodeOf dst = .ok (.linDef dst) := by
    rw [nodeOf,wireToNode,if_pos hd]
  rw [noteLinUse,hc,ok_bind]
  by_cases hp : t.wire ∈ leg.linDefs
  · have hpn : leg.nodeOf t.wire = .ok (.linDef t.wire) := by
      rw [nodeOf,wireToNode,if_pos hp]
    simp [withDefinitions,isLinDef,hp,hpn,pure,Except.pure,addEdge,defEdge,wireNode,noteOpaque]
  · by_cases ho : t.wire ∈ leg.opaqueWires <;>
      simp [withDefinitions,isLinDef,wireToNode,hp,ho,pure,Except.pure,addEdge,defEdge,wireNode,
        noteOpaque]

theorem noteDefinition_ok {dst : Wire} (rhs : WireOperand)
    (hs : ∀ t ∈ rhs, t.shiftSeq.outer.isIdentity = true) :
    ∀ leg : LeGraph, dst ∈ leg.linDefs →
      noteDefinition leg ⟨rhs,dst⟩ = .ok (leg.withDefinitions [⟨rhs,dst⟩]) := by
  induction rhs with
  | nil =>
    intro leg _
    simp [noteDefinition,withDefinitions,pure,Except.pure]
  | cons t rest ih =>
    intro leg hd
    rw [forall_mem_cons] at hs
    rw [noteDefinition,foldlM_cons,soleShift_ok hs.1,ok_bind,noteLinUse_ok t hd,ok_bind]
    refine (ih hs.2 (leg.withDefinitions [⟨[t],dst⟩]) hd).trans ?_
    simp [withDefinitions]

theorem noteDefinitions_ok (hs : ∀ lin ∈ lins, ∀ t ∈ lin.rhs, t.shiftSeq.outer.isIdentity = true) :
    ∀ leg : LeGraph, (∀ lin ∈ lins, lin.dst ∈ leg.linDefs) →
      lins.foldlM noteDefinition leg = .ok (leg.withDefinitions lins) := by
  induction lins with
  | nil =>
    intro leg _
    rw [withDefinitions_nil]
    rfl
  | cons lin rest ih =>
    intro leg hd
    rw [forall_mem_cons] at hs hd
    rw [foldlM_cons,noteDefinition_ok lin.rhs hs.1 leg hd.1,ok_bind,
      ih hs.2 (leg.withDefinitions [lin]) hd.2,withDefinitions_append]
    rfl

@[simp] theorem withRootUses_nil : leg.withRootUses [] = leg := by
  simp [withRootUses]

theorem withRootUses_append (first second : List (ConstraintRef × ShiftedWire)) :
    (leg.withRootUses first).withRootUses second = leg.withRootUses (first ++ second) := by
  simp [withRootUses,zipIdx_append]

theorem foldlM_withRootUses {β : Type} (dsts : List Wire) (step : LeGraph → β → Fused LeGraph)
    (uses : β → List (ConstraintRef × ShiftedWire)) (xs : List β)
    (hstep : ∀ x ∈ xs, ∀ leg : LeGraph, leg.linDefs = dsts →
      step leg x = .ok (leg.withRootUses (uses x))) :
    ∀ leg : LeGraph, leg.linDefs = dsts →
      xs.foldlM step leg = .ok (leg.withRootUses (xs.flatMap uses)) := by
  induction xs with
  | nil =>
    intro leg _
    rw [flatMap_nil,withRootUses_nil]
    rfl
  | cons x rest ih =>
    intro leg hd
    rw [forall_mem_cons] at hstep
    rw [foldlM_cons,hstep.1 leg hd]
    refine (ih hstep.2 (leg.withRootUses (uses x)) hd).trans ?_
    rw [withRootUses_append,flatMap_cons]

theorem noteRootUse_ok {leg : LeGraph} {t : ShiftedWire} (name : ConstraintRef)
    (hp : t.wire ∈ leg.linDefs) :
    leg.noteRootUse t.wire t.shiftSeq.inner name = .ok (leg.withRootUses [(name,t)]) := by
  have hpn : leg.nodeOf t.wire = .ok (.linDef t.wire) := by
    rw [nodeOf,wireToNode,if_pos hp]
  rw [noteRootUse,hpn]
  simp [ok_bind,pure,Except.pure,withRootUses,addEdge,rootEdge]

end LeGraph

open LeGraph

theorem harvestRootUses_ok {dsts : List Wire} {operand : WireOperand} (name : ConstraintRef)
    (hs : ∀ t ∈ operand, t.shiftSeq.outer.isIdentity = true) :
    ∀ leg : LeGraph, leg.linDefs = dsts →
      harvestRootUses leg operand name = .ok (leg.withRootUses (usesIn dsts name operand)) := by
  refine foldlM_withRootUses dsts _ _ operand ?_
  intro t ht leg hd
  by_cases hp : t.wire ∈ dsts
  · have hl : leg.isLinDef t.wire = true := by rw [isLinDef,hd]; exact decide_eq_true hp
    simp only [hl,hp,if_true,soleShift_ok (hs t ht),ok_bind]
    exact noteRootUse_ok name (hd ▸ hp)
  · have hl : leg.isLinDef t.wire = false := by rw [isLinDef,hd]; exact decide_eq_false hp
    simp only [hl,hp,Bool.false_eq_true,if_false,withRootUses_nil]
    rfl

theorem harvestAll_ok {C : Type} (dsts : List Wire) (operands : C → List WireOperand)
    (name : ℕ → ConstraintRef) (constraints : List C)
    (hs : ∀ c ∈ constraints, ∀ operand ∈ operands c, ∀ t ∈ operand,
      t.shiftSeq.outer.isIdentity = true) :
    ∀ leg : LeGraph, leg.linDefs = dsts →
      harvestAll operands name constraints leg =
        .ok (leg.withRootUses (usesAll dsts operands name constraints)) := by
  refine foldlM_withRootUses dsts _ _ constraints.zipIdx ?_
  intro x hx
  have hc : x.1 ∈ constraints := (mem_zipIdx hx).2.2 ▸ getElem_mem _
  refine foldlM_withRootUses dsts _ _ (operands x.1) ?_
  intro operand ho
  exact harvestRootUses_ok (name x.2) (hs x.1 hc operand ho)

theorem new_eq_closedForm {cb : ConstraintBuilder} (h : Defined cb) :
    LeGraph.new cb = .ok (closedForm cb) := by
  have hlin : ∀ lin ∈ cb.linearConstraints, ∀ t ∈ lin.rhs,
      t.shiftSeq.outer.isIdentity = true := by
    intro lin hl
    exact h.single lin.rhs (mem_append_right _ (mem_map_of_mem hl))
  have hroot : ∀ operand ∈ cb.rootOperands, ∀ t ∈ operand,
      t.shiftSeq.outer.isIdentity = true := by
    intro operand ho
    exact h.single operand (mem_append_left _ ho)
  have hand : ∀ c ∈ cb.andConstraints, ∀ operand ∈ [c.a,c.b,c.c], ∀ t ∈ operand,
      t.shiftSeq.outer.isIdentity = true := by
    intro c hc operand ho
    exact hroot operand (ConstraintBuilder.mem_rootOperands.mpr (.inl ⟨c,hc,ho⟩))
  have himul : ∀ c ∈ cb.imulConstraints, ∀ operand ∈ [c.a,c.b,c.hi,c.lo], ∀ t ∈ operand,
      t.shiftSeq.outer.isIdentity = true := by
    intro c hc operand ho
    refine hroot operand (ConstraintBuilder.mem_rootOperands.mpr (.inr (.inl ⟨c,hc,?_⟩)))
    simp only [WireConstraint.operands,mem_cons,not_mem_nil,or_false] at ho ⊢
    tauto
  have hbmul : ∀ c ∈ cb.bmulConstraints, ∀ operand ∈ [c.aLo,c.aHi,c.bLo,c.bHi,c.cLo,c.cHi],
      ∀ t ∈ operand, t.shiftSeq.outer.isIdentity = true := by
    intro c hc operand ho
    exact hroot operand (ConstraintBuilder.mem_rootOperands.mpr (.inr (.inr (.inl ⟨c,hc,ho⟩))))
  have hzero : ∀ c ∈ cb.zeroConstraints, ∀ operand ∈ [c.val], ∀ t ∈ operand,
      t.shiftSeq.outer.isIdentity = true := by
    intro c hc operand ho
    exact hroot operand (ConstraintBuilder.mem_rootOperands.mpr (.inr (.inr (.inr ⟨c,hc,ho⟩))))
  have hdefs : cb.linearConstraints.foldlM (fun leg lin => leg.addLinDef lin.dst) LeGraph.empty =
      .ok (.withLinDefs .empty cb.linearDsts) :=
    addLinDefs_ok cb.linearConstraints .empty rfl h.distinct
  have huses := noteDefinitions_ok cb.linearConstraints hlin (.withLinDefs .empty cb.linearDsts)
    (fun lin hl => mem_map_of_mem hl)
  rw [LeGraph.new,buildUseDef,hdefs,ok_bind,huses,ok_bind,
    harvestAll_ok cb.linearDsts _ _ _ hand _ rfl,ok_bind,
    harvestAll_ok cb.linearDsts _ _ _ himul _ rfl,ok_bind,
    harvestAll_ok cb.linearDsts _ _ _ hbmul _ rfl,ok_bind,
    harvestAll_ok cb.linearDsts _ _ _ hzero _ rfl]
  simp only [withRootUses_append,closedForm,rootUses]

section Closed

variable {cb : ConstraintBuilder}

variable {use : ConstraintRef × ShiftedWire} {t : ShiftedWire}

theorem mem_usesAll {C : Type} {dsts : List Wire} {operands : C → List WireOperand}
    {name : ℕ → ConstraintRef} {constraints : List C} :
    use ∈ usesAll dsts operands name constraints ↔
      ∃ c index, constraints[index]? = some c ∧ use.1 = name index ∧
        ∃ operand ∈ operands c, use.2 ∈ operand ∧ use.2.wire ∈ dsts := by
  simp only [usesAll,usesIn,mem_flatMap,mem_zipIdx_iff_getElem?,Prod.exists,
    mem_ite_nil_right,mem_singleton]
  constructor
  · rintro ⟨c,index,hc,operand,ho,t,ht,hd,rfl⟩
    exact ⟨c,index,hc,rfl,operand,ho,ht,hd⟩
  · rintro ⟨c,index,hc,hname,operand,ho,ht,hd⟩
    exact ⟨c,index,hc,operand,ho,use.2,ht,hd,Prod.ext hname rfl⟩

theorem mem_rootUses :
    use ∈ rootUses cb ↔
      (∃ c index, cb.andConstraints[index]? = some c ∧ use.1 = .and index ∧
        ∃ operand ∈ WireConstraint.operands c, use.2 ∈ operand ∧ use.2.wire ∈ cb.linearDsts) ∨
      (∃ c index, cb.imulConstraints[index]? = some c ∧ use.1 = .imul index ∧
        ∃ operand ∈ WireConstraint.operands c, use.2 ∈ operand ∧ use.2.wire ∈ cb.linearDsts) ∨
      (∃ c index, cb.bmulConstraints[index]? = some c ∧ use.1 = .bmul index ∧
        ∃ operand ∈ WireConstraint.operands c, use.2 ∈ operand ∧ use.2.wire ∈ cb.linearDsts) ∨
      ∃ c index, cb.zeroConstraints[index]? = some c ∧ use.1 = .zero index ∧
        ∃ operand ∈ WireConstraint.operands c, use.2 ∈ operand ∧ use.2.wire ∈ cb.linearDsts := by
  have himul : ∀ (c : WireImulConstraint) (operand : WireOperand),
      operand ∈ [c.a,c.b,c.hi,c.lo] ↔ operand ∈ WireConstraint.operands c := by
    intro c operand
    simp only [WireConstraint.operands,mem_cons,not_mem_nil,or_false]
    tauto
  simp only [rootUses,mem_append,mem_usesAll,himul,or_assoc]
  rfl

theorem exists_rootUse {operand : WireOperand}
    (ho : operand ∈ cb.rootOperands) (ht : t ∈ operand) (hd : t.wire ∈ cb.linearDsts) :
    ∃ name, (name,t) ∈ rootUses cb := by
  rcases ConstraintBuilder.mem_rootOperands.mp ho with
    ⟨c,hc,ho⟩ | ⟨c,hc,ho⟩ | ⟨c,hc,ho⟩ | ⟨c,hc,ho⟩ <;>
    obtain ⟨index,hi⟩ := mem_iff_getElem?.mp hc
  · exact ⟨.and index,mem_rootUses.mpr (.inl ⟨c,index,hi,rfl,operand,ho,ht,hd⟩)⟩
  · exact ⟨.imul index,mem_rootUses.mpr (.inr (.inl ⟨c,index,hi,rfl,operand,ho,ht,hd⟩))⟩
  · exact ⟨.bmul index,mem_rootUses.mpr (.inr (.inr (.inl ⟨c,index,hi,rfl,operand,ho,ht,hd⟩)))⟩
  · exact ⟨.zero index,mem_rootUses.mpr (.inr (.inr (.inr ⟨c,index,hi,rfl,operand,ho,ht,hd⟩)))⟩

theorem of_mem_rootUses (h : use ∈ rootUses cb) :
    use.2.wire ∈ cb.linearDsts ∧ ∃ operand ∈ cb.rootOperands, use.2 ∈ operand := by
  rcases mem_rootUses.mp h with ⟨c,i,hi,_,o,ho,ht,hd⟩ | ⟨c,i,hi,_,o,ho,ht,hd⟩ |
    ⟨c,i,hi,_,o,ho,ht,hd⟩ | ⟨c,i,hi,_,o,ho,ht,hd⟩ <;>
    refine ⟨hd,o,ConstraintBuilder.mem_rootOperands.mpr ?_,ht⟩ <;>
    have hc := mem_of_getElem? hi
  · exact .inl ⟨c,hc,ho⟩
  · exact .inr (.inl ⟨c,hc,ho⟩)
  · exact .inr (.inr (.inl ⟨c,hc,ho⟩))
  · exact .inr (.inr (.inr ⟨c,hc,ho⟩))

theorem mem_edges {e : Edge} :
    e ∈ (closedForm cb).edges ↔
      (∃ lin ∈ cb.linearConstraints, ∃ t ∈ lin.rhs, defEdge cb.linearDsts lin.dst t = e) ∨
        ∃ use ∈ (rootUses cb).zipIdx, rootEdge use = e := by
  simp only [closedForm,withRootUses,withDefinitions,withLinDefs,LeGraph.empty,nil_append,
    length_nil,mem_append,mem_flatMap,mem_map]

theorem defEdge_mem {lin : WireLinearConstraint}
    (hl : lin ∈ cb.linearConstraints) (ht : t ∈ lin.rhs) :
    defEdge cb.linearDsts lin.dst t ∈ (closedForm cb).edges :=
  mem_edges.mpr (.inl ⟨lin,hl,t,ht,rfl⟩)

theorem rootEdge_mem {name : ConstraintRef} (h : (name,t) ∈ rootUses cb) :
    ∃ id, (⟨.linDef t.wire,.root id,t.shiftSeq.inner⟩ : Edge) ∈ (closedForm cb).edges := by
  obtain ⟨id,hid⟩ := mem_iff_getElem?.mp h
  refine ⟨id,mem_edges.mpr (.inr ⟨((name,t),id),?_,rfl⟩)⟩
  exact mem_zipIdx_iff_getElem?.mpr hid

theorem mem_noteOpaque {dsts wires : List Wire} {wire w : Wire} :
    w ∈ noteOpaque dsts wires wire ↔ w ∈ wires ∨ (w = wire ∧ wire ∉ dsts) := by
  unfold noteOpaque
  by_cases hd : wire ∈ dsts
  · simp only [hd,true_or,if_true,not_true_eq_false,and_false,or_false]
  · by_cases hw : wire ∈ wires
    · simp only [hd,hw,or_true,if_true,not_false_eq_true,and_true]
      exact ⟨Or.inl,fun h => h.elim id fun heq => heq ▸ hw⟩
    · simp only [hd,hw,or_self,if_false,mem_append,mem_singleton,not_false_eq_true,
        and_true]

theorem mem_opaqueWires {w : Wire} :
    w ∈ (closedForm cb).opaqueWires ↔
      w ∉ cb.linearDsts ∧ ∃ lin ∈ cb.linearConstraints, ∃ t ∈ lin.rhs, t.wire = w := by
  have hfold : ∀ (used acc : List Wire), w ∈ used.foldl (noteOpaque cb.linearDsts) acc ↔
      w ∈ acc ∨ (w ∈ used ∧ w ∉ cb.linearDsts) := by
    intro used
    induction used with
    | nil => simp
    | cons u rest ih =>
      intro acc
      rw [foldl_cons,ih,mem_noteOpaque,mem_cons,or_assoc]
      constructor
      · rintro (h | ⟨rfl,h⟩ | ⟨h,hn⟩)
        · exact .inl h
        · exact .inr ⟨.inl rfl,h⟩
        · exact .inr ⟨.inr h,hn⟩
      · rintro (h | ⟨rfl | h,hn⟩)
        · exact .inl h
        · exact .inr (.inl ⟨rfl,hn⟩)
        · exact .inr (.inr ⟨h,hn⟩)
  simp only [closedForm,withRootUses,withDefinitions,withLinDefs,LeGraph.empty,nil_append,
    hfold,not_mem_nil,false_or,mem_flatMap,mem_map]
  exact and_comm

theorem mem_dependencies {a b : Wire} :
    (a,b) ∈ dependencies cb ↔
      ∃ lin ∈ cb.linearConstraints, lin.dst = a ∧ ∃ t ∈ lin.rhs, t.wire = b := by
  simp only [dependencies,mem_flatMap,mem_map,Prod.mk.injEq]
  constructor
  · rintro ⟨lin,hl,t,ht,ha,hb⟩
    exact ⟨lin,hl,ha,t,ht,hb⟩
  · rintro ⟨lin,hl,ha,t,ht,hb⟩
    exact ⟨lin,hl,t,ht,ha,hb⟩

theorem edge_inRange (h : Defined cb) {e : Edge} (he : e ∈ (closedForm cb).edges) :
    e.shift.InRange := by
  rcases mem_edges.mp he with ⟨lin,hl,t,ht,rfl⟩ | ⟨use,hu,rfl⟩
  · exact h.inRange lin.rhs (mem_append_right _ (mem_map_of_mem hl)) t ht
  · have hu' : use.1 ∈ rootUses cb := (mem_zipIdx hu).2.2 ▸ getElem_mem _
    obtain ⟨_,operand,ho,ht⟩ := of_mem_rootUses hu'
    exact h.inRange operand (mem_append_left _ ho) _ ht

end Closed

end Binius64.LinearGraph
