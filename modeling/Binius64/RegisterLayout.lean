import Binius64.ScratchSweep
import Binius64.GraphInvariant

/-!
# Registers of a compiled graph

Committed wires sit back to back, constants first, then the public values, the declared witness
values and the values gates created.
-/

namespace Binius64.RegisterLayout

open ValueVector WireConstraints EvalForm GateGraph GateKinds GateSemantics List ScratchAlloc

def wiresOf (graph : Graph) (kinds : WireKind → Bool) : List Wire :=
  (range graph.wires.length).filter fun w => (graph.wires[w]?).any kinds

def isCreated : WireKind → Bool
  | .internal | .scratch => true
  | _ => false

def constants (graph : Graph) : List Wire := wiresOf graph WireKind.isConst

def inouts (graph : Graph) : List Wire := wiresOf graph (· = .inOut)

def witnesses (graph : Graph) : List Wire := wiresOf graph (· = .witness)

def internals (graph : Graph) (scratch : EntitySet) : List Wire :=
  (wiresOf graph isCreated).filter fun w => !scratch.contains w

def layout (graph : Graph) (scratch : EntitySet) (alloc : Allocation) : ValueVecLayout where
  nConst := (constants graph).length
  nInout := (inouts graph).length
  nWitness := (witnesses graph).length
  nInternal := (internals graph scratch).length
  nScratch := alloc.nSlots

/-- The flat position of a wire's value. -/
def register (graph : Graph) (scratch : EntitySet) (alloc : Allocation) (w : Wire) : Reg :=
  let l := layout graph scratch alloc
  match graph.wires[w]? with
  | some (.constant _) => (constants graph).idxOf w
  | some .inOut => l.offsetInout + (inouts graph).idxOf w
  | some .witness => l.offsetWitness + (witnesses graph ++ internals graph scratch).idxOf w
  | some .internal | some .scratch =>
    if scratch.contains w then l.combinedLen + (alloc.slot w).getD 0
    else l.offsetWitness + (witnesses graph ++ internals graph scratch).idxOf w
  | none => l.combinedLen

def buildBytecode (reg : Wire → Reg) (gates : List GateData) : Checked (List EvalInsn) :=
  gates.foldlM (fun bytecode g => do
    let insns ← emitBytecode g reg
    return bytecode ++ insns) []

structure Compiled where
  alloc : Allocation
  bytecode : List EvalInsn

/-- Lay a graph out under a policy and compile it; a scratch value without a slot
panics, as does a gate of another shape than its kind's. -/
def compile (graph : Graph) (scratch : EntitySet) (policy : ScratchPolicy) : Option Compiled := do
  let alloc ← ScratchAlloc.new graph scratch policy
  if ∀ w ∈ scratch.iter, (alloc.slot w).isSome then
    let bytecode ← (buildBytecode (register graph scratch alloc) graph.gates).toOption
    return ⟨alloc,bytecode⟩
  else none

def committed (graph : Graph) (scratch : EntitySet) : List Wire :=
  constants graph ++ (inouts graph ++ (witnesses graph ++ internals graph scratch))

theorem mem_wiresOf {graph : Graph} {kinds : WireKind → Bool} {w : Wire} :
    w ∈ wiresOf graph kinds ↔ ∃ kind, graph.wires[w]? = some kind ∧ kinds kind = true := by
  rw [wiresOf,mem_filter,mem_range,Option.any_eq_true]
  refine and_iff_right_of_imp ?_
  rintro ⟨kind,hk,_⟩
  exact (List.getElem?_eq_some_iff.mp hk).1

theorem nodup_wiresOf (graph : Graph) (kinds : WireKind → Bool) :
    (wiresOf graph kinds).Nodup := nodup_range.filter _

def Excludes (kinds other : WireKind → Bool) : Prop := ∀ kind, (kinds kind && other kind) = false

theorem disjoint_wiresOf {graph : Graph} {kinds other : WireKind → Bool} (h : Excludes kinds other) :
    List.Disjoint (wiresOf graph kinds) (wiresOf graph other) := by
  intro w hw ho
  obtain ⟨kind,hk,hkinds⟩ := mem_wiresOf.mp hw
  obtain ⟨kind',hk',hother⟩ := mem_wiresOf.mp ho
  rw [hk,Option.some.injEq] at hk'
  have hboth := h kind
  rw [hkinds,hk',hother] at hboth
  cases hboth

def sectionKinds : List (WireKind → Bool) :=
  [WireKind.isConst,(· = .inOut),(· = .witness),isCreated]

theorem sectionKinds_pairwise : sectionKinds.Pairwise Excludes := by
  refine .cons ?_ (.cons ?_ (.cons ?_ (.cons ?_ .nil)))
  all_goals
    intro other hother kind
    simp only [mem_cons,not_mem_nil,or_false] at hother
  · obtain rfl | rfl | rfl := hother <;> cases kind <;> rfl
  · obtain rfl | rfl := hother <;> cases kind <;> rfl
  · subst hother
    cases kind <;> rfl

/-- A classification of the wires gates create: a scratch wire is one of them, and
some gate writes it. -/
structure Classified (graph : Graph) (scratch : EntitySet) : Prop where
  created : ∀ w, scratch.contains w = true →
    ∃ kind, graph.wires[w]? = some kind ∧ isCreated kind = true
  written : ∀ w, scratch.contains w = true → ∃ g ∈ graph.gates, w ∈ g.writes

section Committed

variable {graph : Graph} {scratch : EntitySet} {alloc : Allocation} {w : Wire}

theorem mem_committed (hc : Classified graph scratch) :
    w ∈ committed graph scratch ↔ w < graph.wires.length ∧ scratch.contains w = false := by
  simp only [committed,constants,inouts,witnesses,internals,mem_append,mem_filter,
    mem_wiresOf,decide_eq_true_eq,Bool.not_eq_true']
  constructor
  · have hdeclared : ∀ kind, graph.wires[w]? = some kind → isCreated kind = false →
        w < graph.wires.length ∧ scratch.contains w = false := by
      intro kind hk hd
      refine ⟨(List.getElem?_eq_some_iff.mp hk).1,?_⟩
      by_contra hs
      obtain ⟨kind',hk',hcreated⟩ := hc.created w (Bool.not_eq_false _ |>.mp hs)
      rw [hk,Option.some.injEq] at hk'
      rw [← hk',hd] at hcreated
      cases hcreated
    rintro (⟨kind,hk,hkind⟩ | ⟨kind,hk,rfl⟩ | ⟨kind,hk,rfl⟩ | ⟨⟨kind,hk,_⟩,hs⟩)
    · refine hdeclared kind hk ?_
      cases kind <;> first | rfl | cases hkind
    · exact hdeclared _ hk rfl
    · exact hdeclared _ hk rfl
    · exact ⟨(List.getElem?_eq_some_iff.mp hk).1,hs⟩
  · rintro ⟨hlt,hs⟩
    have hk : graph.wires[w]? = some graph.wires[w] := getElem?_eq_getElem hlt
    generalize graph.wires[w] = kind at hk
    cases kind with
    | constant word => exact .inl ⟨_,hk,rfl⟩
    | inOut => exact .inr (.inl ⟨_,hk,rfl⟩)
    | witness => exact .inr (.inr (.inl ⟨_,hk,rfl⟩))
    | internal | scratch => exact .inr (.inr (.inr ⟨⟨_,hk,rfl⟩,hs⟩))

theorem nodup_committed (graph : Graph) (scratch : EntitySet) :
    (committed graph scratch).Nodup := by
  have hall : (sectionKinds.flatMap (wiresOf graph)).Nodup :=
    nodup_flatMap.mpr ⟨fun kinds _ => nodup_wiresOf graph kinds,
      sectionKinds_pairwise.imp disjoint_wiresOf⟩
  refine hall.sublist ?_
  have hlast : (internals graph scratch).Sublist (wiresOf graph isCreated ++ []) := by
    rw [append_nil]
    exact filter_sublist
  exact ((hlast.append_left _).append_left _).append_left _

theorem combinedLen_eq (graph : Graph) (scratch : EntitySet) (alloc : Allocation) :
    (layout graph scratch alloc).combinedLen = (committed graph scratch).length := by
  simp only [layout,ValueVecLayout.combinedLen,ValueVecLayout.offsetWitness,
    ValueVecLayout.nPrivate,committed,length_append]
  omega

theorem register_committed (hc : Classified graph scratch) (hw : w ∈ committed graph scratch) :
    register graph scratch alloc w = (committed graph scratch).idxOf w := by
  obtain ⟨hlt,hs⟩ := (mem_committed hc).mp hw
  have hk : graph.wires[w]? = some graph.wires[w] := getElem?_eq_getElem hlt
  generalize graph.wires[w] = kind at hk
  have hnot : ∀ kinds : WireKind → Bool, kinds kind = false → w ∉ wiresOf graph kinds := by
    intro kinds hfalse hmem
    obtain ⟨kind',hk',htrue⟩ := mem_wiresOf.mp hmem
    rw [hk,Option.some.injEq] at hk'
    rw [← hk',hfalse] at htrue
    cases htrue
  cases kind with
  | constant word =>
    have hmem : w ∈ constants graph := mem_wiresOf.mpr ⟨_,hk,rfl⟩
    simp only [register,hk]
    rw [committed,idxOf_append_of_mem hmem]
  | inOut =>
    have hmem : w ∈ inouts graph := mem_wiresOf.mpr ⟨_,hk,rfl⟩
    have hconst : w ∉ constants graph := hnot _ rfl
    simp only [register,hk]
    rw [committed,idxOf_append_of_notMem hconst,idxOf_append_of_mem hmem]
    rfl
  | witness =>
    have hconst : w ∉ constants graph := hnot _ rfl
    have hinout : w ∉ inouts graph := hnot _ rfl
    simp only [register,hk]
    rw [committed,idxOf_append_of_notMem hconst,idxOf_append_of_notMem hinout,
      ← Nat.add_assoc]
    rfl
  | internal | scratch =>
    have hconst : w ∉ constants graph := hnot _ rfl
    have hinout : w ∉ inouts graph := hnot _ rfl
    simp only [register,hk,hs,Bool.false_eq_true,if_false]
    rw [committed,idxOf_append_of_notMem hconst,idxOf_append_of_notMem hinout,
      ← Nat.add_assoc]
    rfl

theorem register_scratch (hc : Classified graph scratch) (hs : scratch.contains w = true) :
    register graph scratch alloc w =
      (committed graph scratch).length + (alloc.slot w).getD 0 := by
  obtain ⟨kind,hk,hcreated⟩ := hc.created w hs
  rw [← combinedLen_eq graph scratch alloc]
  cases kind with
  | internal | scratch => simp only [register,hk,hs,if_true]
  | _ => cases hcreated

theorem exists_register (hc : Classified graph scratch) {p : ℕ}
    (hp : p < (committed graph scratch).length) :
    ∃ w ∈ committed graph scratch, ∀ alloc, register graph scratch alloc w = p := by
  have hmem : (committed graph scratch)[p] ∈ committed graph scratch := getElem_mem hp
  refine ⟨_,hmem,fun alloc => ?_⟩
  rw [register_committed hc hmem,(nodup_committed graph scratch).idxOf_getElem]

end Committed

end Binius64.RegisterLayout
