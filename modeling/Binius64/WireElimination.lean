import Binius64.SpartanBuilder

/-!
# Spartan wire elimination

The pass over the zero constraints that eliminates private wires by substitution.
-/

namespace Binius64.Spartan

open CheckedRun ParityList List
open Option (map_eq_some_iff map_some)
open Or (inl inr)

/-- The operand of a product. -/
inductive MulPosition where
  | a
  | b
  | c
deriving DecidableEq

inductive UseSite where
  | add (index : ℕ)
  /-- In an operand of a product. -/
  | mul (index : ℕ) (position : MulPosition)
deriving DecidableEq

/-- Remove the element at an index, the last one taking its place. -/
def swapRemove {α : Type} (xs : List α) (i : ℕ) : List α :=
  match xs.getLast? with
  | none => []
  | some last => (xs.set i last).dropLast

def removeUse (uses : List UseSite) (useSite : UseSite) : Option (List UseSite) :=
  (uses.findIdx? fun site => site = useSite).map (swapRemove uses)

/-- The costs the pass weighs, as 64-bit words. -/
structure CostModel where
  wireCost : UInt64
  mulCost : UInt64
  refCost : UInt64

def CostModel.default : CostModel := ⟨16,2,1⟩

namespace MulConstraint

variable {W : Type} [LinearOrder W]

variable (constraint : MulConstraint W)

def operand : MulPosition → Operand W
  | .a => constraint.a
  | .b => constraint.b
  | .c => constraint.c

def setOperand (position : MulPosition) (operand : Operand W) : MulConstraint W :=
  match position with
  | .a => { constraint with a := operand }
  | .b => { constraint with b := operand }
  | .c => { constraint with c := operand }

theorem operand_setOperand (position other : MulPosition)
    (operand : Operand W) : (constraint.setOperand position operand).operand other =
      if other = position then operand else constraint.operand other := by
  cases position <;> cases other <;> rfl

end MulConstraint

namespace ConstraintSystemIR

variable {F : Type}

def operandAt (ir : ConstraintSystemIR F) : UseSite → Option (Operand ConstraintWire)
  | .add index => ir.zeroConstraints[index]?
  | .mul index position => (ir.mulConstraints[index]?).map fun constraint => constraint.operand position

def setOperand (ir : ConstraintSystemIR F) (site : UseSite) (operand : Operand ConstraintWire) :
    ConstraintSystemIR F :=
  match site with
  | .add index => { ir with zeroConstraints := ir.zeroConstraints.set index operand }
  | .mul index position => { ir with
      mulConstraints := ir.mulConstraints.modify index fun constraint =>
        constraint.setOperand position operand }

/-- A private wire that is not analysed yet. -/
def isUnknown (ir : ConstraintSystemIR F) (wire : ConstraintWire) : Except Failure Bool := do
  if wire.kind = .priv then
    let status ← getAt ir.privateWiresStatus wire.id
    return status = .unknown
  else return false

def editUses (ir : ConstraintSystemIR F) (edit : List UseSite → Except Failure (List UseSite))
    (uses : List (List UseSite)) (wires : List ConstraintWire) :
    Except Failure (List (List UseSite)) :=
  wires.foldlM (fun uses wire => do
    if ← ir.isUnknown wire then
      let old ← getAt uses wire.id
      setAt uses wire.id (← edit old)
    else return uses) uses

/-- Note a use of every private wire of a list that is not analysed yet. -/
def addUses (ir : ConstraintSystemIR F) (useSite : UseSite) :
    List (List UseSite) → List ConstraintWire → Except Failure (List (List UseSite)) :=
  ir.editUses fun old => .ok (old ++ [useSite])

/-- Drop a use of every private wire of a list that is not analysed yet. -/
def removeUses (ir : ConstraintSystemIR F) (useSite : UseSite) :
    List (List UseSite) → List ConstraintWire → Except Failure (List (List UseSite)) :=
  ir.editUses fun old =>
    match removeUse old useSite with
    | some left => .ok left
    | none => .error .useMissing

end ConstraintSystemIR

structure WireEliminationPass (F : Type) where
  costModel : CostModel
  ir : ConstraintSystemIR F
  privateWireUses : List (List UseSite)

namespace WireEliminationPass

variable {F : Type}

def collectZero (ir : ConstraintSystemIR F) (uses : List (List UseSite))
    (entry : Operand ConstraintWire × ℕ) : Except Failure (List (List UseSite)) :=
  ir.addUses (.add (asU32 entry.2)) uses entry.1.wires

/-- Note the uses in a product; its index is kept as a 32-bit word. -/
def collectMul (ir : ConstraintSystemIR F) (uses : List (List UseSite))
    (entry : MulConstraint ConstraintWire × ℕ) : Except Failure (List (List UseSite)) := do
  let uses ← ir.addUses (.mul (asU32 entry.2) .a) uses entry.1.a.wires
  let uses ← ir.addUses (.mul (asU32 entry.2) .b) uses entry.1.b.wires
  ir.addUses (.mul (asU32 entry.2) .c) uses entry.1.c.wires

/-- Collect the uses of the private wires. -/
def new (costModel : CostModel) (ir : ConstraintSystemIR F) :
    Except Failure (WireEliminationPass F) := do
  let uses := replicate ir.privateWiresStatus.length []
  let uses ← ir.zeroConstraints.zipIdx.foldlM (collectZero ir) uses
  let uses ← ir.mulConstraints.zipIdx.foldlM (collectMul ir) uses
  return ⟨costModel,ir,uses⟩

/-- The positions of an operand whose wires can be eliminated, with their numbers of uses. -/
def candidates (pass : WireEliminationPass F) :
    List (ConstraintWire × ℕ) → Except Failure (List (ℕ × ℕ))
  | [] => .ok []
  | (wire,idx) :: rest => do
    let unknown ← pass.ir.isUnknown wire
    if unknown then
      let uses ← getAt pass.privateWireUses wire.id
      let found ← pass.candidates rest
      return (idx,uses.length) :: found
    else pass.candidates rest

def minByKey : List (ℕ × ℕ) → Option (ℕ × ℕ)
  | [] => none
  | entry :: rest =>
    some (rest.foldl (fun best entry => if entry.2 < best.2 then entry else best) entry)

/-- The position of the wire to eliminate from a zero constraint, if that pays. -/
def pruningCandidate (pass : WireEliminationPass F) (constraintIdx : ℕ) :
    Except Failure (Option ℕ) := do
  let operand ← getAt pass.ir.zeroConstraints constraintIdx
  let found ← pass.candidates operand.wires.zipIdx
  match minByKey found with
  | none => return none
  | some (idx,nUses) =>
    let len := UInt64.ofNat operand.wires.length
    let decrement := pass.costModel.wireCost + pass.costModel.mulCost + len * pass.costModel.refCost
    let increment := UInt64.ofNat nUses * (len - 1) * pass.costModel.refCost
    if decrement > increment then return some idx else return none

/-- Add the eliminated operand where the wire was used, and follow what that adds and removes. -/
def replaceUse (operand : Operand ConstraintWire) (pass : WireEliminationPass F)
    (useSite : UseSite) : Except Failure (WireEliminationPass F) :=
  match pass.ir.operandAt useSite with
  | none => throw .indexOutOfBounds
  | some dst => do
    let (merged,additions,removals) := dst.merge operand
    let ir := pass.ir.setOperand useSite merged
    let uses ← ir.addUses useSite pass.privateWireUses additions.wires
    let uses ← ir.removeUses useSite uses removals.wires
    return ⟨pass.costModel,ir,uses⟩

def eliminate (pass : WireEliminationPass F) (constraintIdx idx : ℕ) :
    Except Failure (WireEliminationPass F) := do
  let operand ← getAt pass.ir.zeroConstraints constraintIdx
  let ir := pass.ir.setOperand (.add constraintIdx) .empty
  let uses ← ir.removeUses (.add (asU32 constraintIdx)) pass.privateWireUses operand.wires
  let wire ← getAt operand.wires idx
  let status ← getAt ir.privateWiresStatus wire.id
  if status ≠ .unknown then throw .notPrunable
  let ir := { ir with privateWiresStatus := ir.privateWiresStatus.set wire.id .pruned }
  let useSites ← getAt uses wire.id
  let uses := uses.set wire.id []
  useSites.foldlM (replaceUse operand) ⟨pass.costModel,ir,uses⟩

/-- Go over the zero constraints in order and eliminate the best candidate of each. -/
def run (pass : WireEliminationPass F) : Except Failure (WireEliminationPass F) :=
  (range pass.ir.zeroConstraints.length).foldlM (fun pass constraintIdx => do
    match ← pass.pruningCandidate constraintIdx with
    | some idx => pass.eliminate constraintIdx idx
    | none => return pass) pass

end WireEliminationPass

def runWireElimination {F : Type} (costModel : CostModel) (ir : ConstraintSystemIR F) :
    Except Failure (ConstraintSystemIR F) := do
  let pass ← WireEliminationPass.new costModel ir
  let pass ← pass.run
  return pass.ir

theorem swapRemove_perm {α : Type} {xs : List α} {i : ℕ} (h : i < xs.length) :
    (swapRemove xs i).Perm (xs.eraseIdx i) := by
  have hne : xs ≠ [] := ne_nil_of_length_pos (by omega)
  obtain ⟨front,last,rfl⟩ : ∃ front last, xs = front ++ [last] :=
    ⟨xs.dropLast,xs.getLast hne,(dropLast_append_getLast hne).symm⟩
  have hlast : (front ++ [last]).getLast? = some last := getLast?_concat
  rw [swapRemove,hlast]
  rw [length_append,length_singleton] at h
  by_cases hi : i < front.length
  · have hset : (front ++ [last]).set i last = front.set i last ++ [last] := set_append_left i last hi
    have herase : (front ++ [last]).eraseIdx i = front.eraseIdx i ++ [last] :=
      eraseIdx_append_of_lt_length hi [last]
    simp only
    rw [hset,dropLast_concat,herase]
    have hswap : (front.set i last).Perm (last :: front.eraseIdx i) := by
      rw [set_eq_take_append_cons_drop,if_pos hi,eraseIdx_eq_take_drop_succ]
      exact perm_middle
    exact hswap.trans (perm_append_singleton last _).symm
  · obtain rfl : i = front.length := by omega
    have hset : (front ++ [last]).set front.length last = front ++ [last] := by
      rw [set_append_right front.length last le_rfl,Nat.sub_self,set_cons_zero]
    have herase : (front ++ [last]).eraseIdx front.length = front := by
      rw [eraseIdx_append_of_length_le le_rfl,Nat.sub_self,eraseIdx_cons_zero,
        append_nil]
    simp only
    rw [hset,dropLast_concat,herase]

theorem removeUse_ok {uses : List UseSite} {site : UseSite} (hn : uses.Nodup) (h : site ∈ uses) :
    ∃ left, removeUse uses site = some left ∧ left.Nodup ∧
      ∀ s, s ∈ left ↔ s ∈ uses ∧ s ≠ site := by
  have hfind : (uses.findIdx? fun s => decide (s = site)).isSome = true := by
    rw [findIdx?_isSome,any_eq_true]
    exact ⟨site,h,decide_eq_true rfl⟩
  obtain ⟨i,hi⟩ := Option.isSome_iff_exists.mp hfind
  obtain ⟨hlt,hsite,-⟩ := findIdx?_eq_some_iff_getElem.mp hi
  have hget : uses[i] = site := of_decide_eq_true hsite
  have hperm := swapRemove_perm hlt
  refine ⟨swapRemove uses i,by rw [removeUse,hi,map_some],?_,fun s => ?_⟩
  · exact hperm.nodup_iff.mpr (hn.sublist (eraseIdx_sublist uses i))
  · rw [hperm.mem_iff,mem_eraseIdx_iff_getElem]
    constructor
    · rintro ⟨j,hj,hne,rfl⟩
      refine ⟨getElem_mem hj,fun heq => hne ?_⟩
      exact hn.getElem_inj_iff.mp (heq.trans hget.symm)
    · rintro ⟨hs,hne⟩
      obtain ⟨j,hj,rfl⟩ := getElem_of_mem hs
      refine ⟨j,hj,fun heq => hne ?_,rfl⟩
      subst heq
      exact hget

structure Tracks (status : List WireStatus) (uses : List (List UseSite))
    (used : ℕ → UseSite → Prop) : Prop where
  length_eq : uses.length = status.length
  /-- The list of a wire not analysed yet holds its uses, each once. -/
  exact : ∀ id, status[id]? = some .unknown →
    ∃ sites, uses[id]? = some sites ∧ sites.Nodup ∧ ∀ site, site ∈ sites ↔ used id site

namespace Tracks

variable {status : List WireStatus} {uses : List (List UseSite)} {used used' : ℕ → UseSite → Prop}

theorem congr (h : Tracks status uses used) (hiff : ∀ id, status[id]? = some .unknown →
    ∀ site, used id site ↔ used' id site) : Tracks status uses used' := by
  refine ⟨h.length_eq,fun id hid => ?_⟩
  obtain ⟨sites,hs,hn,hm⟩ := h.exact id hid
  exact ⟨sites,hs,hn,fun site => (hm site).trans (hiff id hid site)⟩

theorem set (h : Tracks status uses used) {id : ℕ} {sites : List UseSite} (hid : id < status.length)
    (hn : sites.Nodup) : setAt uses id sites = .ok (uses.set id sites) ∧
      Tracks status (uses.set id sites)
        (fun id' site => if id' = id then site ∈ sites else used id' site) := by
  refine ⟨if_pos (h.length_eq ▸ hid),by rw [length_set,h.length_eq],fun id' hid' => ?_⟩
  by_cases heq : id' = id
  · subst heq
    have hlt : id' < uses.length := h.length_eq ▸ hid
    exact ⟨sites,by rw [getElem?_set_self hlt],hn,fun site => by rw [if_pos rfl]⟩
  · obtain ⟨old,ho,hno,hmo⟩ := h.exact id' hid'
    refine ⟨old,by rw [getElem?_set_ne (Ne.symm heq),ho],hno,fun site => ?_⟩
    rw [if_neg heq,hmo]

theorem prune (h : Tracks status uses used) (id : ℕ) (sites : List UseSite) :
    Tracks (status.set id .pruned) (uses.set id sites) used := by
  refine ⟨by rw [length_set,length_set,h.length_eq],fun id' hid' => ?_⟩
  by_cases heq : id' = id
  · subst heq
    rw [getElem?_set] at hid'
    simp at hid'
  · rw [getElem?_set_ne (Ne.symm heq)] at hid' ⊢
    exact h.exact id' hid'

end Tracks

theorem getAt_ok {α : Type} {xs : List α} {i : ℕ} {x : α} (h : xs[i]? = some x) :
    getAt xs i = .ok x := by
  rw [getAt,h]

abbrev privWire (id : ℕ) : ConstraintWire := ⟨.priv,id⟩

theorem privWire_id {wire : ConstraintWire} (h : wire.kind = .priv) : privWire wire.id = wire := by
  cases wire
  cases h
  rfl

def InStatus (status : List WireStatus) (wires : List ConstraintWire) : Prop :=
  ∀ wire ∈ wires, wire.kind = .priv → wire.id < status.length

namespace ConstraintSystemIR

variable {F : Type} {ir : ConstraintSystemIR F} {uses : List (List UseSite)}
  {used : ℕ → UseSite → Prop} {wires : List ConstraintWire}

theorem isUnknown_ok (ir : ConstraintSystemIR F) {wire : ConstraintWire}
    (hin : wire.kind = .priv → wire.id < ir.privateWiresStatus.length) :
    ∃ b, ir.isUnknown wire = .ok b ∧
      (b = true ↔ wire.kind = .priv ∧ ir.privateWiresStatus[wire.id]? = some .unknown) := by
  rw [isUnknown]
  by_cases hk : wire.kind = .priv
  · have hget := getElem?_eq_getElem (hin hk)
    rw [if_pos hk,getAt_ok hget,ok_bind]
    refine ⟨_,rfl,?_⟩
    rw [hget]
    simp [hk]
  · rw [if_neg hk]
    exact ⟨false,rfl,by simp [hk]⟩

theorem editUses_ok (edit : List UseSite → Except Failure (List UseSite))
    (used' : ℕ → UseSite → Prop) (ht : Tracks ir.privateWiresStatus uses used)
    (hin : InStatus ir.privateWiresStatus wires) (hn : wires.Nodup)
    (hedit : ∀ id sites, privWire id ∈ wires → sites.Nodup → (∀ s, s ∈ sites ↔ used id s) →
      ∃ sites', edit sites = .ok sites' ∧ sites'.Nodup ∧ ∀ s, s ∈ sites' ↔ used' id s) :
    ∃ uses', ir.editUses edit uses wires = .ok uses' ∧ Tracks ir.privateWiresStatus uses'
      (fun id s => if privWire id ∈ wires then used' id s else used id s) := by
  refine exists_foldlM (I := fun (done : List ConstraintWire) uses' =>
    Tracks ir.privateWiresStatus uses' fun id s => if privWire id ∈ done then used' id s else used id s)
    (ht.congr (by simp)) ?_
  intro done wire rest uses' hsplit hd
  have hmem : wire ∈ wires := by rw [hsplit]; simp
  have hfresh : wire ∉ done := by
    rw [hsplit] at hn
    exact fun hw => (nodup_append.mp hn).2.2 wire hw wire mem_cons_self rfl
  obtain ⟨b,hb,hiff⟩ := isUnknown_ok ir (hin wire hmem)
  rw [hb,ok_bind]
  cases b with
  | false =>
    refine ⟨uses',rfl,hd.congr fun id hid s => ?_⟩
    have hne : privWire id ≠ wire := by
      rintro rfl
      exact absurd (hiff.mpr ⟨rfl,hid⟩) (by decide)
    simp only [mem_append,mem_singleton,hne,or_false]
  | true =>
    obtain ⟨hk,hid⟩ := hiff.mp rfl
    obtain ⟨old,ho,hno,hmo⟩ := hd.exact wire.id hid
    have hwire : privWire wire.id = wire := privWire_id hk
    have hold : ∀ s, s ∈ old ↔ used wire.id s := by
      intro s
      rw [hmo,hwire,if_neg hfresh]
    obtain ⟨sites',hrun,hn',hm'⟩ := hedit wire.id old (hwire ▸ hmem) hno hold
    obtain ⟨hset,ht'⟩ := hd.set (hin wire hmem hk) hn'
    refine ⟨uses'.set wire.id sites',?_,ht'.congr fun id _ s => ?_⟩
    · rw [if_pos rfl,getAt_ok ho,ok_bind,hrun,ok_bind]
      exact hset
    · by_cases heq : id = wire.id
      · subst heq
        rw [if_pos rfl,hm',if_pos (by rw [hwire]; simp)]
      · have hne : privWire id ≠ wire := fun h => heq (by rw [←h])
        rw [if_neg heq]
        simp only [mem_append,mem_singleton,hne,or_false]

theorem addUses_ok (site : UseSite) (ht : Tracks ir.privateWiresStatus uses used)
    (hin : InStatus ir.privateWiresStatus wires) (hn : wires.Nodup)
    (hnew : ∀ id, privWire id ∈ wires → ¬used id site) :
    ∃ uses', ir.addUses site uses wires = .ok uses' ∧ Tracks ir.privateWiresStatus uses'
      (fun id s => used id s ∨ (s = site ∧ privWire id ∈ wires)) := by
  obtain ⟨uses',hrun,ht'⟩ := editUses_ok (fun old => .ok (old ++ [site]))
    (fun id s => used id s ∨ s = site) ht hin hn fun id sites hid hns hms => by
      have hnot : site ∉ sites := fun h => hnew id hid ((hms site).mp h)
      refine ⟨sites ++ [site],rfl,?_,fun s => by rw [mem_append,mem_singleton,hms]⟩
      exact nodup_append.mpr ⟨hns,nodup_singleton _,fun x hx y hy heq =>
        hnot (by rw [←mem_singleton.mp hy,←heq]; exact hx)⟩
  refine ⟨uses',hrun,ht'.congr fun id _ s => ?_⟩
  by_cases hid : privWire id ∈ wires
  · simp only [hid,if_true,and_true]
  · simp only [hid,if_false,and_false,or_false]

theorem removeUses_ok (site : UseSite) (ht : Tracks ir.privateWiresStatus uses used)
    (hin : InStatus ir.privateWiresStatus wires) (hn : wires.Nodup)
    (hold : ∀ id, privWire id ∈ wires → used id site) :
    ∃ uses', ir.removeUses site uses wires = .ok uses' ∧ Tracks ir.privateWiresStatus uses'
      (fun id s => used id s ∧ ¬(s = site ∧ privWire id ∈ wires)) := by
  obtain ⟨uses',hrun,ht'⟩ := editUses_ok
    (fun old =>
      match removeUse old site with
      | some left => .ok left
      | none => .error .useMissing)
    (fun id s => used id s ∧ s ≠ site) ht hin hn fun id sites hid hns hms => by
      obtain ⟨left,hleft,hnl,hml⟩ := removeUse_ok hns ((hms site).mpr (hold id hid))
      exact ⟨left,by rw [hleft],hnl,fun s => by rw [hml,hms]⟩
  refine ⟨uses',hrun,ht'.congr fun id _ s => ?_⟩
  by_cases hid : privWire id ∈ wires
  · simp only [hid,if_true,and_true,ne_eq]
  · simp only [hid,if_false,and_false,not_false_eq_true,and_true]

end ConstraintSystemIR

namespace ConstraintSystemIR

variable {F : Type}

section Set

variable (ir : ConstraintSystemIR F) (site : UseSite) (operand : Operand ConstraintWire)

@[simp] theorem setOperand_status :
    (ir.setOperand site operand).privateWiresStatus = ir.privateWiresStatus := by
  cases site <;> rfl

@[simp] theorem setOperand_count : (ir.setOperand site operand).count = ir.count := by
  cases site <;> rfl

@[simp] theorem setOperand_constants :
    (ir.setOperand site operand).constants = ir.constants := by
  cases site <;> rfl

end Set

theorem operandAt_setOperand {ir : ConstraintSystemIR F} {site : UseSite}
    {old : Operand ConstraintWire} (h : ir.operandAt site = some old)
    (operand : Operand ConstraintWire) (other : UseSite) :
    (ir.setOperand site operand).operandAt other =
      if other = site then some operand else ir.operandAt other := by
  cases site with
  | add i =>
    have hi : i < ir.zeroConstraints.length := (List.getElem?_eq_some_iff.mp h).1
    cases other with
    | add j =>
      simp only [setOperand,operandAt,UseSite.add.injEq]
      by_cases hj : j = i
      · rw [if_pos hj,hj,getElem?_set_self hi]
      · rw [if_neg hj,getElem?_set_ne (Ne.symm hj)]
    | mul j position =>
      rw [if_neg (by simp)]
      rfl
  | mul i position =>
    cases other with
    | add j =>
      rw [if_neg (by simp)]
      rfl
    | mul j position' =>
      obtain ⟨constraint,hc,-⟩ := map_eq_some_iff.mp h
      simp only [setOperand,operandAt,UseSite.mul.injEq]
      rw [getElem?_modify]
      by_cases hj : j = i
      · subst hj
        simp only [hc,Option.map_eq_map,map_some,if_true,true_and]
        rw [MulConstraint.operand_setOperand]
        by_cases hp : position' = position
        · rw [if_pos hp,if_pos hp]
        · rw [if_neg hp,if_neg hp]
      · simp [hj,Ne.symm hj]

/-- A private wire is read at a place. -/
def Used (ir : ConstraintSystemIR F) (id : ℕ) (site : UseSite) : Prop :=
  ∃ operand, ir.operandAt site = some operand ∧ privWire id ∈ operand.wires

/-- Every private wire read anywhere has a status. -/
def UsesInStatus (ir : ConstraintSystemIR F) : Prop :=
  ∀ site operand, ir.operandAt site = some operand →
    InStatus ir.privateWiresStatus operand.wires

theorem addUses_site {ir : ConstraintSystemIR F} {uses : List (List UseSite)}
    (hin : ir.UsesInStatus) {visited : UseSite → Prop} {site : UseSite}
    {operand : Operand ConstraintWire}
    (ht : Tracks ir.privateWiresStatus uses fun id s => visited s ∧ ir.Used id s)
    (hs : ¬visited site) (ho : ir.operandAt site = some operand) :
    ∃ uses', ir.addUses site uses operand.wires = .ok uses' ∧
      Tracks ir.privateWiresStatus uses' fun id s => (visited s ∨ s = site) ∧ ir.Used id s := by
  obtain ⟨uses',hrun,ht'⟩ := addUses_ok site ht (hin site operand ho) operand.ordered.nodup
    fun id _ h => hs h.1
  refine ⟨uses',hrun,ht'.congr fun id _ s => ?_⟩
  constructor
  · rintro (⟨hv,hu⟩ | ⟨rfl,hw⟩)
    · exact ⟨inl hv,hu⟩
    · exact ⟨inr rfl,operand,ho,hw⟩
  · rintro ⟨hv | rfl,hu⟩
    · exact inl ⟨hv,hu⟩
    · obtain ⟨operand',ho',hw⟩ := hu
      rw [ho] at ho'
      cases ho'
      exact inr ⟨rfl,hw⟩

end ConstraintSystemIR

namespace WireEliminationPass

variable {F : Type}

def UsesExact (pass : WireEliminationPass F) : Prop :=
  Tracks pass.ir.privateWiresStatus pass.privateWireUses pass.ir.Used

def ZeroBelow (k : ℕ) (site : UseSite) : Prop := ∃ j < k, site = .add j

/-- The sites of the zero constraints and of the first so many products. -/
def MulBelow (k : ℕ) (site : UseSite) : Prop :=
  (∃ j, site = .add j) ∨ ∃ j < k, ∃ position, site = .mul j position

section Collect

variable {ir : ConstraintSystemIR F} {uses : List (List UseSite)} {i : ℕ}

theorem collectZero_ok (hin : ir.UsesInStatus) {operand : Operand ConstraintWire}
    (hget : ir.zeroConstraints[i]? = some operand) (hi : i < 2 ^ 32)
    (ht : Tracks ir.privateWiresStatus uses fun id s => ZeroBelow i s ∧ ir.Used id s) :
    ∃ uses', collectZero ir uses (operand,i) = .ok uses' ∧
      Tracks ir.privateWiresStatus uses' fun id s => ZeroBelow (i + 1) s ∧ ir.Used id s := by
  have hnot : ¬ZeroBelow i (.add i) := by
    rintro ⟨j,hj,heq⟩
    cases heq
    omega
  obtain ⟨uses',hrun,ht'⟩ := ConstraintSystemIR.addUses_site hin ht hnot hget
  refine ⟨uses',?_,ht'.congr fun id _ s => and_congr_left fun _ => ?_⟩
  · rw [collectZero,asU32_of_lt hi]
    exact hrun
  · constructor
    · rintro (⟨j,hj,rfl⟩ | rfl)
      · exact ⟨j,by omega,rfl⟩
      · exact ⟨i,by omega,rfl⟩
    · rintro ⟨j,hj,rfl⟩
      by_cases h : j = i
      · exact inr (by rw [h])
      · exact inl ⟨j,by omega,rfl⟩

theorem collectMul_ok (hin : ir.UsesInStatus) {constraint : MulConstraint ConstraintWire}
    (hget : ir.mulConstraints[i]? = some constraint) (hi : i < 2 ^ 32)
    (ht : Tracks ir.privateWiresStatus uses fun id s => MulBelow i s ∧ ir.Used id s) :
    ∃ uses', collectMul ir uses (constraint,i) = .ok uses' ∧
      Tracks ir.privateWiresStatus uses' fun id s => MulBelow (i + 1) s ∧ ir.Used id s := by
  have hat : ∀ position, ir.operandAt (.mul i position) = some (constraint.operand position) := by
    intro position
    rw [ConstraintSystemIR.operandAt,hget,map_some]
  have hnot : ∀ position, ¬MulBelow i (.mul i position) := by
    rintro position (⟨j,heq⟩ | ⟨j,hj,position',heq⟩)
    · cases heq
    · cases heq
      omega
  obtain ⟨usesA,hrunA,hA⟩ := ConstraintSystemIR.addUses_site hin ht (hnot .a) (hat .a)
  obtain ⟨usesB,hrunB,hB⟩ := ConstraintSystemIR.addUses_site hin hA
    (by
      rintro (h | h)
      · exact hnot .b h
      · cases h) (hat .b)
  obtain ⟨usesC,hrunC,hC⟩ := ConstraintSystemIR.addUses_site hin hB
    (by
      rintro ((h | h) | h)
      · exact hnot .c h
      · cases h
      · cases h) (hat .c)
  refine ⟨usesC,?_,hC.congr fun id _ s => and_congr_left fun _ => ?_⟩
  · simp only [collectMul,asU32_of_lt hi]
    rw [show constraint.a = constraint.operand .a from rfl,hrunA,ok_bind,
      show constraint.b = constraint.operand .b from rfl,hrunB,ok_bind]
    exact hrunC
  · constructor
    · rintro ((((⟨j,rfl⟩ | ⟨j,hj,position,rfl⟩) | rfl) | rfl) | rfl)
      · exact inl ⟨j,rfl⟩
      · exact inr ⟨j,by omega,position,rfl⟩
      · exact inr ⟨i,by omega,_,rfl⟩
      · exact inr ⟨i,by omega,_,rfl⟩
      · exact inr ⟨i,by omega,_,rfl⟩
    · rintro (⟨j,rfl⟩ | ⟨j,hj,position,rfl⟩)
      · exact inl (inl (inl (inl ⟨j,rfl⟩)))
      · by_cases h : j = i
        · subst h
          cases position
          · exact inl (inl (inr rfl))
          · exact inl (inr rfl)
          · exact inr rfl
        · exact inl (inl (inl (inr ⟨j,by omega,position,rfl⟩)))

theorem new_ok (costModel : CostModel) (hin : ir.UsesInStatus)
    (hz : ir.zeroConstraints.length ≤ 2 ^ 32) (hm : ir.mulConstraints.length ≤ 2 ^ 32) :
    ∃ uses, new costModel ir = .ok ⟨costModel,ir,uses⟩ ∧
      (⟨costModel,ir,uses⟩ : WireEliminationPass F).UsesExact := by
  have hstart : Tracks ir.privateWiresStatus (replicate ir.privateWiresStatus.length [])
      fun id s => ZeroBelow 0 s ∧ ir.Used id s := by
    refine ⟨length_replicate,fun id hid => ⟨[],?_,nodup_nil,by simp [ZeroBelow]⟩⟩
    rw [getElem?_replicate,if_pos (List.getElem?_eq_some_iff.mp hid).1]
  obtain ⟨mid,hzero,hmid⟩ := exists_foldlM_zipIdx (f := collectZero ir)
    (I := fun k uses => Tracks ir.privateWiresStatus uses fun id s => ZeroBelow k s ∧ ir.Used id s)
    hstart fun i operand uses hget ht =>
      collectZero_ok hin hget ((List.getElem?_eq_some_iff.mp hget).1.trans_le hz) ht
  have hbetween : Tracks ir.privateWiresStatus mid fun id s => MulBelow 0 s ∧ ir.Used id s := by
    refine hmid.congr fun id _ s => and_congr_left fun hu => ?_
    constructor
    · rintro ⟨j,-,rfl⟩
      exact inl ⟨j,rfl⟩
    · rintro (⟨j,rfl⟩ | ⟨j,hj,-⟩)
      · obtain ⟨operand,ho,-⟩ := hu
        exact ⟨j,(List.getElem?_eq_some_iff.mp ho).1,rfl⟩
      · omega
  obtain ⟨last,hmul,hlast⟩ := exists_foldlM_zipIdx (f := collectMul ir)
    (I := fun k uses => Tracks ir.privateWiresStatus uses fun id s => MulBelow k s ∧ ir.Used id s)
    hbetween fun i constraint uses hget ht =>
      collectMul_ok hin hget ((List.getElem?_eq_some_iff.mp hget).1.trans_le hm) ht
  refine ⟨last,?_,hlast.congr fun id _ s => ?_⟩
  · simp only [new]
    rw [hzero,ok_bind,hmul]
    rfl
  · constructor
    · exact fun h => h.2
    · intro hu
      refine ⟨?_,hu⟩
      obtain ⟨operand,ho,-⟩ := hu
      cases s with
      | add j => exact inl ⟨j,rfl⟩
      | mul j position =>
        obtain ⟨constraint,hc,-⟩ := map_eq_some_iff.mp ho
        exact inr ⟨j,(List.getElem?_eq_some_iff.mp hc).1,position,rfl⟩

end Collect

section Eliminate

variable {pass : WireEliminationPass F} {operand : Operand ConstraintWire}

theorem replaceUse_ok (hexact : pass.UsesExact) (hop : InStatus pass.ir.privateWiresStatus operand.wires)
    {site : UseSite} {dst : Operand ConstraintWire} (hdst : pass.ir.operandAt site = some dst) :
    ∃ uses, replaceUse operand pass site =
        .ok ⟨pass.costModel,pass.ir.setOperand site (dst.merge operand).1,uses⟩ ∧
      (⟨pass.costModel,pass.ir.setOperand site (dst.merge operand).1,uses⟩ :
        WireEliminationPass F).UsesExact := by
  have hat := ConstraintSystemIR.operandAt_setOperand hdst (dst.merge operand).1
  have hsame := pass.ir.setOperand_status site (dst.merge operand).1
  have hadd : InStatus pass.ir.privateWiresStatus (dst.merge operand).2.1.wires :=
    fun wire hw => hop wire ((Operand.mem_additions _ _ _).mp hw).2
  have hrem : InStatus pass.ir.privateWiresStatus (dst.merge operand).2.2.wires :=
    fun wire hw => hop wire ((Operand.mem_removals _ _ _).mp hw).2
  rw [UsesExact,←hsame] at hexact
  rw [←hsame] at hadd hrem
  obtain ⟨mid,hrunA,hmid⟩ := ConstraintSystemIR.addUses_ok site hexact hadd
    (dst.merge operand).2.1.ordered.nodup fun id hw hu => by
      obtain ⟨dst',hd,hmem⟩ := hu
      rw [hdst] at hd
      cases hd
      exact ((Operand.mem_additions _ _ _).mp hw).1 hmem
  obtain ⟨uses,hrunR,huses⟩ := ConstraintSystemIR.removeUses_ok site hmid hrem
    (dst.merge operand).2.2.ordered.nodup fun id hw =>
      inl ⟨dst,hdst,((Operand.mem_removals _ _ _).mp hw).1⟩
  refine ⟨uses,?_,huses.congr fun id _ s => ?_⟩
  · rw [replaceUse,hdst]
    simp only
    rw [hrunA,ok_bind,hrunR]
    rfl
  · simp only [Operand.mem_additions,Operand.mem_removals,ConstraintSystemIR.Used,hat]
    by_cases hs : s = site
    · subst hs
      simp only [if_true,true_and,Option.some.injEq,exists_eq_left',hdst,Operand.mem_merge]
      tauto
    · simp only [hs,if_false,false_and,or_false,not_false_eq_true,and_true]

theorem replaceUses_ok (hexact : pass.UsesExact)
    (hop : InStatus pass.ir.privateWiresStatus operand.wires) {sites : List UseSite} (hn : sites.Nodup) (hthere : ∀ site ∈ sites, ∃ dst, pass.ir.operandAt site = some dst) :
    ∃ pass', sites.foldlM (replaceUse operand) pass = .ok pass' ∧ pass'.UsesExact ∧
      pass'.ir.privateWiresStatus = pass.ir.privateWiresStatus ∧ pass'.ir.count = pass.ir.count ∧
      pass'.ir.constants = pass.ir.constants ∧ ∀ site, pass'.ir.operandAt site =
        if site ∈ sites then (pass.ir.operandAt site).map fun dst => (dst.merge operand).1
        else pass.ir.operandAt site := by
  refine exists_foldlM (I := fun (done : List UseSite) (pass' : WireEliminationPass F) =>
    pass'.UsesExact ∧ pass'.ir.privateWiresStatus = pass.ir.privateWiresStatus ∧
      pass'.ir.count = pass.ir.count ∧ pass'.ir.constants = pass.ir.constants ∧
      ∀ site, pass'.ir.operandAt site =
        if site ∈ done then (pass.ir.operandAt site).map fun dst => (dst.merge operand).1
        else pass.ir.operandAt site) ⟨hexact,rfl,rfl,rfl,fun site => by simp⟩ ?_
  rintro done site rest pass' hsplit ⟨hex,hstatus,hcount,hconst,hat⟩
  have hfresh : site ∉ done := by
    rw [hsplit] at hn
    exact fun hs => (nodup_append.mp hn).2.2 site hs site mem_cons_self rfl
  obtain ⟨dst,hdst⟩ := hthere site (by rw [hsplit]; simp)
  have hdst' : pass'.ir.operandAt site = some dst := by rw [hat,if_neg hfresh,hdst]
  obtain ⟨uses,hrun,hnext⟩ := replaceUse_ok hex (hstatus ▸ hop) hdst'
  have hset := ConstraintSystemIR.operandAt_setOperand hdst' (dst.merge operand).1
  refine ⟨_,hrun,hnext,?_,?_,?_,fun s => ?_⟩
  · rw [ConstraintSystemIR.setOperand_status,hstatus]
  · rw [ConstraintSystemIR.setOperand_count,hcount]
  · rw [ConstraintSystemIR.setOperand_constants,hconst]
  · simp only [hset]
    by_cases hs : s = site
    · subst hs
      simp [hdst]
    · simp only [hs,if_false,mem_append,mem_singleton,or_false]
      exact hat s

/-- One wire of a zero constraint is eliminated: the constraint is gone, and every other operand
that read the wire has the constraint's operand added. -/
structure Eliminated (ir : ConstraintSystemIR F) (constraintIdx : ℕ)
    (operand : Operand ConstraintWire) (id : ℕ) (ir' : ConstraintSystemIR F) : Prop where
  status_eq : ir'.privateWiresStatus = ir.privateWiresStatus.set id .pruned
  count_eq : ir'.count = ir.count
  constants_eq : ir'.constants = ir.constants
  constraint_eq : ir'.operandAt (.add constraintIdx) = some .empty
  operand_eq : ∀ site dst, site ≠ .add constraintIdx → ir.operandAt site = some dst →
    ir'.operandAt site = some (if privWire id ∈ dst.wires then (dst.merge operand).1 else dst)
  none_eq : ∀ site, ir.operandAt site = none → ir'.operandAt site = none

theorem eliminate_ok (hexact : pass.UsesExact) (hin : pass.ir.UsesInStatus) {constraintIdx idx : ℕ}
    (hop : pass.ir.operandAt (.add constraintIdx) = some operand) (hc : constraintIdx < 2 ^ 32)
    {id : ℕ} (hidx : operand.wires[idx]? = some (privWire id))
    (hid : pass.ir.privateWiresStatus[id]? = some .unknown) :
    ∃ pass', pass.eliminate constraintIdx idx = .ok pass' ∧ pass'.UsesExact ∧
      Eliminated pass.ir constraintIdx operand id pass'.ir := by
  obtain ⟨costModel,ir,uses⟩ := pass
  have hlt : id < ir.privateWiresStatus.length := (List.getElem?_eq_some_iff.mp hid).1
  have hwires := hin _ _ hop
  have hwire : privWire id ∈ operand.wires := mem_of_getElem? hidx
  have hat := ConstraintSystemIR.operandAt_setOperand hop .empty
  have hu : asU32 constraintIdx = constraintIdx := asU32_of_lt hc
  -- the constraint itself leaves the use lists
  have hsame := ir.setOperand_status (.add constraintIdx) .empty
  have ht₀ : Tracks (ir.setOperand (.add constraintIdx) .empty).privateWiresStatus uses ir.Used := by
    rw [hsame]
    exact hexact
  have hin₀ : InStatus (ir.setOperand (.add constraintIdx) .empty).privateWiresStatus
      operand.wires := by
    rw [hsame]
    exact hwires
  obtain ⟨uses₁,hrun₁,ht₁⟩ := ConstraintSystemIR.removeUses_ok (.add constraintIdx) ht₀ hin₀
    operand.ordered.nodup fun id hw => ⟨operand,hop,hw⟩
  rw [hsame] at ht₁
  have hused : ∀ id s, (ir.setOperand (.add constraintIdx) .empty).Used id s ↔
      ir.Used id s ∧ s ≠ .add constraintIdx := by
    intro id s
    simp only [ConstraintSystemIR.Used,hat]
    by_cases hs : s = .add constraintIdx
    · simp [hs,Operand.empty]
    · simp [hs]
  have ht₂ : Tracks ir.privateWiresStatus uses₁
      (ir.setOperand (.add constraintIdx) .empty).Used := by
    refine ht₁.congr fun id _ s => ?_
    rw [hused]
    refine and_congr_right fun hus => not_congr ⟨fun h => h.1,fun hs => ⟨hs,?_⟩⟩
    obtain ⟨o,ho,hw⟩ := hus
    rw [hs,hop] at ho
    cases ho
    exact hw
  obtain ⟨sites,hsites,hn,hmem⟩ := ht₂.exact id hid
  let ir₂ : ConstraintSystemIR F := { ir.setOperand (.add constraintIdx) .empty with
    privateWiresStatus := ir.privateWiresStatus.set id .pruned }
  have hat₂ : ∀ site, ir₂.operandAt site =
      if site = .add constraintIdx then some .empty else ir.operandAt site := by
    intro site
    rw [←hat site]
    cases site <;> rfl
  have hused₂ : ∀ id s, ir₂.Used id s ↔ ir.Used id s ∧ s ≠ .add constraintIdx := by
    intro id s
    rw [←hused id s]
    cases s <;> exact Iff.rfl
  have hexact₂ : (⟨costModel,ir₂,uses₁.set id []⟩ : WireEliminationPass F).UsesExact :=
    (ht₂.prune id []).congr fun id _ s => (hused id s).trans (hused₂ id s).symm
  have hthere : ∀ site ∈ sites, ∃ dst, ir₂.operandAt site = some dst := by
    intro site hs
    obtain ⟨dst,hd,-⟩ := (hused₂ id site).mpr ((hused id site).mp ((hmem site).mp hs))
    exact ⟨dst,hd⟩
  have hop₂ : InStatus ir₂.privateWiresStatus operand.wires := by
    intro wire hw hk
    rw [length_set]
    exact hwires wire hw hk
  obtain ⟨pass',hrun,hexact',hstatus,hcount,hconst,hfinal⟩ := replaceUses_ok hexact₂ hop₂ hn hthere
  refine ⟨pass',?_,hexact',⟨hstatus,hcount.trans ?_,hconst.trans ?_,?_,fun site dst hne hdst => ?_,
    fun site hnone => ?_⟩⟩
  · rw [eliminate,getAt_ok hop,ok_bind]
    simp only [hu]
    rw [hrun₁,ok_bind,getAt_ok hidx,ok_bind]
    simp only [hsame]
    rw [getAt_ok hid,ok_bind]
    simp only [ne_eq,not_true_eq_false,if_false]
    rw [getAt_ok hsites,ok_bind]
    exact hrun
  · exact ir.setOperand_count (.add constraintIdx) .empty
  · exact ir.setOperand_constants (.add constraintIdx) .empty
  · have hnot : UseSite.add constraintIdx ∉ sites := by
      rw [hmem,hused]
      exact fun h => h.2 rfl
    rw [hfinal,if_neg hnot,hat₂,if_pos rfl]
  · have hsite : site ∈ sites ↔ privWire id ∈ dst.wires := by
      rw [hmem,hused]
      constructor
      · rintro ⟨⟨o,ho,hw⟩,-⟩
        rw [hdst] at ho
        cases ho
        exact hw
      · exact fun hw => ⟨⟨dst,hdst,hw⟩,hne⟩
    rw [hfinal,hat₂,if_neg hne,hdst]
    by_cases hw : privWire id ∈ dst.wires
    · rw [if_pos (hsite.mpr hw),if_pos hw]
      rfl
    · rw [if_neg (fun h => hw (hsite.mp h)),if_neg hw]
  · have hne : site ≠ .add constraintIdx := by
      rintro rfl
      rw [hop] at hnone
      cases hnone
    rw [hfinal,hat₂,if_neg hne,hnone]
    simp

end Eliminate

end WireEliminationPass

namespace ConstraintSystemIR

variable {F : Type}

def Reads (ir : ConstraintSystemIR F) (P : ConstraintWire → Prop) : Prop :=
  ∀ site operand, ir.operandAt site = some operand → ∀ wire ∈ operand.wires, P wire

/-- All recorded constraints hold of an assignment. -/
def Satisfied [Field F] (ir : ConstraintSystemIR F) (σ : ConstraintWire → F) : Prop :=
  (∀ operand ∈ ir.zeroConstraints, operand.val σ = 0) ∧
    ∀ constraint ∈ ir.mulConstraints, constraint.Holds σ

/-- What the operand at a place is worth. -/
def valueAt [Field F] (ir : ConstraintSystemIR F) (σ : ConstraintWire → F) (site : UseSite) :
    Option F := (ir.operandAt site).map fun operand => operand.val σ

theorem satisfied_iff [Field F] (ir : ConstraintSystemIR F) (σ : ConstraintWire → F) :
    ir.Satisfied σ ↔ (∀ i v, ir.valueAt σ (.add i) = some v → v = 0) ∧
      ∀ i a b c, ir.valueAt σ (.mul i .a) = some a → ir.valueAt σ (.mul i .b) = some b →
        ir.valueAt σ (.mul i .c) = some c → a * b = c := by
  simp only [valueAt,operandAt,Option.map_map,map_eq_some_iff]
  refine and_congr ⟨?_,?_⟩ ⟨?_,?_⟩
  · rintro h i v ⟨operand,ho,rfl⟩
    exact h operand (mem_of_getElem? ho)
  · intro h operand ho
    obtain ⟨i,hi⟩ := mem_iff_getElem?.mp ho
    exact h i _ ⟨operand,hi,rfl⟩
  · rintro h i a b c ⟨constraint,hc,rfl⟩ ⟨constraint',hc',rfl⟩ ⟨constraint'',hc'',rfl⟩
    rw [hc] at hc' hc''
    cases hc'
    cases hc''
    exact h constraint (mem_of_getElem? hc)
  · intro h constraint hc
    obtain ⟨i,hi⟩ := mem_iff_getElem?.mp hc
    exact h i _ _ _ ⟨constraint,hi,rfl⟩ ⟨constraint,hi,rfl⟩ ⟨constraint,hi,rfl⟩

theorem valueAt_congr [Field F] {ir : ConstraintSystemIR F} {P : ConstraintWire → Prop}
    (hr : ir.Reads P) {σ τ : ConstraintWire → F} (h : ∀ wire, P wire → σ wire = τ wire)
    (site : UseSite) : ir.valueAt σ site = ir.valueAt τ site := by
  rw [valueAt,valueAt]
  cases ho : ir.operandAt site with
  | none => rfl
  | some operand =>
    have hval : operand.val σ = operand.val τ :=
      value_congr fun wire hw => h wire (hr site operand ho wire hw)
    rw [map_some,map_some,hval]

end ConstraintSystemIR

namespace WireEliminationPass.Eliminated

variable {F : Type} {ir ir' : ConstraintSystemIR F} {constraintIdx id : ℕ}
  {operand : Operand ConstraintWire}

theorem reads (h : Eliminated ir constraintIdx operand id ir')
    (hop : ir.operandAt (.add constraintIdx) = some operand) {P : ConstraintWire → Prop}
    (hr : ir.Reads P) : ir'.Reads P := by
  intro site operand' ho wire hw
  by_cases hs : site = .add constraintIdx
  · rw [hs,h.constraint_eq] at ho
    cases ho
    cases hw
  · cases hd : ir.operandAt site with
    | none =>
      rw [h.none_eq site hd] at ho
      cases ho
    | some dst =>
      rw [h.operand_eq site dst hs hd,Option.some.injEq] at ho
      subst ho
      split at hw
      · have hmem := (Operand.mem_merge _ _ _).mp hw
        by_cases hwo : wire ∈ operand.wires
        · exact hr _ _ hop wire hwo
        · exact hr site dst hd wire (by tauto)
      · exact hr site dst hd wire hw

theorem unused (h : Eliminated ir constraintIdx operand id ir') (hw : privWire id ∈ operand.wires) :
    ir'.Reads fun wire => wire ≠ privWire id := by
  rintro site operand' ho wire hmem rfl
  by_cases hs : site = .add constraintIdx
  · rw [hs,h.constraint_eq] at ho
    cases ho
    cases hmem
  · cases hd : ir.operandAt site with
    | none =>
      rw [h.none_eq site hd] at ho
      cases ho
    | some dst =>
      rw [h.operand_eq site dst hs hd,Option.some.injEq] at ho
      subst ho
      split at hmem
      · rename_i hin
        exact (Operand.mem_merge _ _ _).mp hmem ⟨fun _ => hw,fun _ => hin⟩
      · rename_i hnot
        exact hnot hmem

variable [Field F] [CharP F 2]

theorem satisfied_iff (h : Eliminated ir constraintIdx operand id ir')
    (hop : ir.operandAt (.add constraintIdx) = some operand) (σ : ConstraintWire → F) :
    ir.Satisfied σ ↔ operand.val σ = 0 ∧ ir'.Satisfied σ := by
  have hsame (hzero : operand.val σ = 0) (site : UseSite) : ir'.valueAt σ site = ir.valueAt σ site := by
    by_cases hs : site = .add constraintIdx
    · rw [ConstraintSystemIR.valueAt,ConstraintSystemIR.valueAt,hs,h.constraint_eq,hop,
        map_some,map_some,hzero]
      rfl
    · rw [ConstraintSystemIR.valueAt,ConstraintSystemIR.valueAt]
      cases hd : ir.operandAt site with
      | none => rw [h.none_eq site hd]
      | some dst =>
        rw [h.operand_eq site dst hs hd,map_some,map_some]
        split
        · rw [Operand.val_merge,hzero,add_zero]
        · rfl
  constructor
  · intro hsat
    have hzero : operand.val σ = 0 := hsat.1 operand (mem_of_getElem? hop)
    refine ⟨hzero,?_⟩
    rw [ConstraintSystemIR.satisfied_iff] at hsat ⊢
    simp only [hsame hzero]
    exact hsat
  · rintro ⟨hzero,hsat⟩
    rw [ConstraintSystemIR.satisfied_iff] at hsat ⊢
    simp only [hsame hzero] at hsat
    exact hsat

theorem satisfied_iff_exists (h : Eliminated ir constraintIdx operand id ir')
    (hop : ir.operandAt (.add constraintIdx) = some operand) (hw : privWire id ∈ operand.wires)
    (σ : ConstraintWire → F) : ir'.Satisfied σ ↔
      ∃ τ, (∀ wire, wire ≠ privWire id → τ wire = σ wire) ∧ ir.Satisfied τ := by
  have hcongr (τ : ConstraintWire → F) (hτ : ∀ wire, wire ≠ privWire id → τ wire = σ wire) :
      ir'.Satisfied τ ↔ ir'.Satisfied σ := by
    rw [ConstraintSystemIR.satisfied_iff,ConstraintSystemIR.satisfied_iff]
    simp only [ConstraintSystemIR.valueAt_congr (h.unused hw) hτ]
  constructor
  · intro hsat
    -- the wire takes the value that makes its constraint zero
    have hoff : ∀ wire, wire ≠ privWire id →
        Function.update σ (privWire id) (σ (privWire id) + operand.val σ) wire = σ wire :=
      fun wire hne => Function.update_of_ne hne _ _
    refine ⟨_,hoff,(h.satisfied_iff hop _).mpr ⟨?_,(hcongr _ hoff).mpr hsat⟩⟩
    have hval : operand.val (Function.update σ (privWire id) (σ (privWire id) + operand.val σ)) =
        operand.val σ + operand.val σ :=
      value_update σ operand.ordered.nodup hw (operand.val σ)
    rw [hval]
    exact CharTwo.add_self_eq_zero _
  · rintro ⟨τ,hτ,hsat⟩
    exact (hcongr τ hτ).mp ((h.satisfied_iff hop τ).mp hsat).2

end WireEliminationPass.Eliminated

def ConstraintSystemIR.Pruned {F : Type} (ir : ConstraintSystemIR F) (wire : ConstraintWire) : Prop :=
  wire.kind = .priv ∧ ir.privateWiresStatus[wire.id]? = some .pruned

namespace WireEliminationPass

variable {F : Type} {pass : WireEliminationPass F}

theorem minByKey_mem {entries : List (ℕ × ℕ)} {entry : ℕ × ℕ} (h : minByKey entries = some entry) :
    entry ∈ entries := by
  cases entries with
  | nil => cases h
  | cons first rest =>
    have hfold : ∀ (others : List (ℕ × ℕ)) (best : ℕ × ℕ), others.foldl
        (fun best entry => if entry.2 < best.2 then entry else best) best ∈ best :: others := by
      intro others
      induction others with
      | nil => exact fun best => mem_cons_self
      | cons x others ih =>
        intro best
        rw [foldl_cons]
        have hmem := ih (if x.2 < best.2 then x else best)
        rcases mem_cons.mp hmem with heq | hin
        · rw [heq]
          split
          · exact mem_cons_of_mem _ mem_cons_self
          · exact mem_cons_self
        · exact mem_cons_of_mem _ (mem_cons_of_mem _ hin)
    have hmem := hfold rest first
    rw [minByKey,Option.some.injEq] at h
    rw [←h]
    exact hmem

theorem candidates_ok (hexact : pass.UsesExact) {entries : List (ConstraintWire × ℕ)}
    (hin : InStatus pass.ir.privateWiresStatus (entries.map Prod.fst)) :
    ∃ found, pass.candidates entries = .ok found ∧ ∀ entry ∈ found, ∃ id,
      (privWire id,entry.1) ∈ entries ∧ pass.ir.privateWiresStatus[id]? = some .unknown := by
  induction entries with
  | nil => exact ⟨[],rfl,nofun⟩
  | cons first rest ih =>
    obtain ⟨wire,idx⟩ := first
    obtain ⟨found,hrun,hfound⟩ := ih fun w hw => hin w (mem_cons_of_mem _ hw)
    obtain ⟨b,hb,hiff⟩ := pass.ir.isUnknown_ok (hin wire mem_cons_self)
    have hold : ∀ entry ∈ found, ∃ id, (privWire id,entry.1) ∈ (wire,idx) :: rest ∧
        pass.ir.privateWiresStatus[id]? = some .unknown := by
      intro entry he
      obtain ⟨id,hmem,hid⟩ := hfound entry he
      exact ⟨id,mem_cons_of_mem _ hmem,hid⟩
    rw [candidates,hb,ok_bind]
    cases b with
    | false => exact ⟨found,hrun,hold⟩
    | true =>
      obtain ⟨hk,hid⟩ := hiff.mp rfl
      obtain ⟨sites,hs,-⟩ := hexact.exact wire.id hid
      refine ⟨(idx,sites.length) :: found,?_,fun entry he => ?_⟩
      · rw [if_pos rfl,getAt_ok hs,ok_bind,hrun]
        rfl
      · rcases mem_cons.mp he with rfl | he
        · exact ⟨wire.id,by rw [privWire_id hk]; exact mem_cons_self,hid⟩
        · exact hold entry he

theorem pruningCandidate_ok (hexact : pass.UsesExact) (hin : pass.ir.UsesInStatus) {c : ℕ}
    {operand : Operand ConstraintWire} (hop : pass.ir.operandAt (.add c) = some operand) :
    ∃ picked, pass.pruningCandidate c = .ok picked ∧ ∀ idx, picked = some idx → ∃ id,
      operand.wires[idx]? = some (privWire id) ∧
        pass.ir.privateWiresStatus[id]? = some .unknown := by
  have hwires : InStatus pass.ir.privateWiresStatus (operand.wires.zipIdx.map Prod.fst) := by
    rw [zipIdx_map_fst]
    exact hin _ _ hop
  obtain ⟨found,hrun,hfound⟩ := candidates_ok hexact hwires
  rw [pruningCandidate,getAt_ok hop,ok_bind,hrun,ok_bind]
  cases hmin : minByKey found with
  | none => exact ⟨none,rfl,nofun⟩
  | some entry =>
    obtain ⟨id,hmem,hid⟩ := hfound entry (minByKey_mem hmin)
    have hget : operand.wires[entry.1]? = some (privWire id) := mem_zipIdx_iff_getElem?.mp hmem
    simp only
    split
    · exact ⟨some entry.1,rfl,fun idx h => ⟨id,by cases h; exact hget,hid⟩⟩
    · exact ⟨none,rfl,nofun⟩

/-- What the pass keeps: exact use lists, no read of an eliminated wire, and constraints that hold
exactly when the recorded ones do for some values of the eliminated wires. -/
structure Invariant [Field F] (ir₀ : ConstraintSystemIR F) (pass : WireEliminationPass F) : Prop where
  exact : pass.UsesExact
  count_eq : pass.ir.count = ir₀.count
  constants_eq : pass.ir.constants = ir₀.constants
  status_length : pass.ir.privateWiresStatus.length = ir₀.count .priv
  allocated : pass.ir.Reads ir₀.Allocated
  pruned : ∀ wire, pass.ir.Pruned wire → pass.ir.Reads fun w => w ≠ wire
  zero_some : ∀ i < ir₀.zeroConstraints.length, ∃ operand, pass.ir.operandAt (.add i) = some operand
  /-- The constraints hold exactly when the recorded ones can be made to. -/
  satisfied : ∀ σ, pass.ir.Satisfied σ ↔
    ∃ τ, (∀ wire, ¬pass.ir.Pruned wire → τ wire = σ wire) ∧ ir₀.Satisfied τ

variable {ir₀ : ConstraintSystemIR F}

theorem Invariant.inStatus [Field F] (h : Invariant ir₀ pass) :
    pass.ir.UsesInStatus := by
  intro site operand ho wire hw hk
  have hall := h.allocated site operand ho wire hw
  rw [ConstraintSystemIR.Allocated,hk] at hall
  rw [h.status_length]
  exact hall

theorem Invariant.eliminate [Field F] [CharP F 2]
    (h : Invariant ir₀ pass) {c idx id : ℕ} (hc : c < 2 ^ 32) {operand : Operand ConstraintWire}
    (hop : pass.ir.operandAt (.add c) = some operand)
    (hidx : operand.wires[idx]? = some (privWire id))
    (hid : pass.ir.privateWiresStatus[id]? = some .unknown) :
    ∃ pass', pass.eliminate c idx = .ok pass' ∧ Invariant ir₀ pass' := by
  obtain ⟨pass',hrun,hexact,helim⟩ := eliminate_ok h.exact h.inStatus hop hc hidx hid
  have hlt : id < pass.ir.privateWiresStatus.length := (List.getElem?_eq_some_iff.mp hid).1
  have hw : privWire id ∈ operand.wires := mem_of_getElem? hidx
  have hpruned (wire : ConstraintWire) :
      pass'.ir.Pruned wire ↔ pass.ir.Pruned wire ∨ wire = privWire id := by
    rw [ConstraintSystemIR.Pruned,ConstraintSystemIR.Pruned,helim.status_eq]
    obtain ⟨kind,i⟩ := wire
    by_cases hi : i = id
    · subst hi
      rw [getElem?_set_self hlt]
      by_cases hk : kind = .priv
      · simp [hk]
      · simp [hk]
    · rw [getElem?_set_ne (Ne.symm hi)]
      simp [hi]
  refine ⟨pass',hrun,hexact,helim.count_eq.trans h.count_eq,helim.constants_eq.trans h.constants_eq,
    ?_,helim.reads hop h.allocated,fun wire hp => ?_,fun i hi => ?_,fun σ => ?_⟩
  · rw [helim.status_eq,length_set,h.status_length]
  · rcases (hpruned wire).mp hp with hold | rfl
    · exact helim.reads hop (h.pruned wire hold)
    · exact helim.unused hw
  · by_cases heq : i = c
    · exact ⟨_,by rw [heq]; exact helim.constraint_eq⟩
    · obtain ⟨dst,hd⟩ := h.zero_some i hi
      exact ⟨_,helim.operand_eq _ dst (by simpa using heq) hd⟩
  · rw [helim.satisfied_iff_exists hop hw]
    constructor
    · rintro ⟨ρ,hρ,hsat⟩
      obtain ⟨τ,hτ,hsat₀⟩ := (h.satisfied ρ).mp hsat
      refine ⟨τ,fun wire hnot => ?_,hsat₀⟩
      rw [hpruned,not_or] at hnot
      rw [hτ wire hnot.1,hρ wire hnot.2]
    · rintro ⟨τ,hτ,hsat₀⟩
      refine ⟨Function.update σ (privWire id) (τ (privWire id)),
        fun wire hne => Function.update_of_ne hne _ _,(h.satisfied _).mpr ⟨τ,fun wire hnot => ?_,hsat₀⟩⟩
      by_cases heq : wire = privWire id
      · rw [heq,Function.update_self]
      · rw [Function.update_of_ne heq]
        exact hτ wire fun hp => ((hpruned wire).mp hp).elim hnot heq

theorem run_ok [Field F] [CharP F 2] (h : Invariant ir₀ pass)
    (hlen : pass.ir.zeroConstraints.length = ir₀.zeroConstraints.length)
    (hz : ir₀.zeroConstraints.length ≤ 2 ^ 32) :
    ∃ pass', pass.run = .ok pass' ∧ Invariant ir₀ pass' := by
  refine exists_foldlM_range (I := fun _ pass' => Invariant ir₀ pass') h fun i pass' hi hinv => ?_
  rw [hlen] at hi
  obtain ⟨operand,hop⟩ := hinv.zero_some i hi
  obtain ⟨picked,hpick,hgood⟩ := pruningCandidate_ok hinv.exact hinv.inStatus hop
  simp only [hpick]
  cases picked with
  | none => exact ⟨pass',rfl,hinv⟩
  | some idx =>
    obtain ⟨id,hidx,hid⟩ := hgood idx rfl
    exact hinv.eliminate (by omega) hop hidx hid

end WireEliminationPass

variable {F : Type} {ir : ConstraintSystemIR F}

theorem ConstraintSystemIR.Reads.wellFormed
    (h : ir.Reads ir.Allocated)
    (hids : ir.constants.map Prod.snd = range (ir.count .constant))
    (hstatus : ir.privateWiresStatus.length = ir.count .priv) : ir.WellFormed := by
  refine ⟨hids,fun operand ho => ?_,fun constraint hc operand ho => ?_,hstatus⟩
  · obtain ⟨i,hi⟩ := mem_iff_getElem?.mp ho
    exact h (.add i) operand hi
  · obtain ⟨i,hi⟩ := mem_iff_getElem?.mp hc
    have hat : ∀ position, ir.operandAt (.mul i position) = some (constraint.operand position) := by
      intro position
      rw [ConstraintSystemIR.operandAt,hi,map_some]
    simp only [MulConstraint.operands,mem_cons,not_mem_nil,or_false] at ho
    rcases ho with rfl | rfl | rfl
    · exact h _ _ (hat .a)
    · exact h _ _ (hat .b)
    · exact h _ _ (hat .c)

theorem ConstraintSystemIR.WellFormed.reads
    (h : ir.WellFormed) : ir.Reads ir.Allocated := by
  intro site operand ho
  cases site with
  | add i => exact h.zero_allocated operand (mem_of_getElem? ho)
  | mul i position =>
    obtain ⟨constraint,hc,rfl⟩ := map_eq_some_iff.mp ho
    refine h.mul_allocated constraint (mem_of_getElem? hc) _ ?_
    cases position <;> simp [MulConstraint.operands,MulConstraint.operand]

theorem runWireElimination_ok [Field F] [CharP F 2] (costModel : CostModel)
    (hf : Fresh ir) (hz : ir.zeroConstraints.length ≤ 2 ^ 32)
    (hm : ir.mulConstraints.length ≤ 2 ^ 32) :
    ∃ ir', runWireElimination costModel ir = .ok ir' ∧ ir'.WellFormed ∧ ir'.count = ir.count ∧
      ir'.constants = ir.constants ∧ (∀ wire, ir'.Pruned wire → ir'.Reads fun w => w ≠ wire) ∧
      ∀ σ, ir'.Satisfied σ ↔ ∃ τ, (∀ wire, ¬ir'.Pruned wire → τ wire = σ wire) ∧ ir.Satisfied τ := by
  have hreads := hf.wellFormed.reads
  have hin : ir.UsesInStatus := by
    intro site operand ho wire hw hk
    have hall := hreads site operand ho wire hw
    rw [ConstraintSystemIR.Allocated,hk] at hall
    rw [hf.wellFormed.status_length]
    exact hall
  obtain ⟨uses,hnew,hexact⟩ := WireEliminationPass.new_ok costModel hin hz hm
  have hnone : ∀ wire, ¬ir.Pruned wire := by
    rintro wire ⟨-,hp⟩
    have hunknown := hf.unknown _ (mem_of_getElem? hp)
    cases hunknown
  have hstart : WireEliminationPass.Invariant ir ⟨costModel,ir,uses⟩ := by
    refine ⟨hexact,rfl,rfl,hf.wellFormed.status_length,hreads,fun wire hp => (hnone wire hp).elim,
      fun i hi => ⟨_,getElem?_eq_getElem hi⟩,fun σ => ⟨fun h => ⟨σ,fun _ _ => rfl,h⟩,?_⟩⟩
    rintro ⟨τ,hτ,hsat⟩
    obtain rfl : τ = σ := funext fun wire => hτ wire (hnone wire)
    exact hsat
  obtain ⟨pass',hrun,hinv⟩ := WireEliminationPass.run_ok hstart rfl hz
  refine ⟨pass'.ir,?_,?_,hinv.count_eq,hinv.constants_eq,hinv.pruned,hinv.satisfied⟩
  · rw [runWireElimination,hnew,ok_bind,hrun]
    rfl
  · have hall : pass'.ir.Reads pass'.ir.Allocated := by
      intro site operand ho wire hw
      have hold := hinv.allocated site operand ho wire hw
      rw [ConstraintSystemIR.Allocated] at hold ⊢
      rw [hinv.count_eq]
      exact hold
    refine hall.wellFormed ?_ ?_
    · rw [hinv.constants_eq,hinv.count_eq]
      exact hf.wellFormed.constants_ids
    · rw [hinv.count_eq]
      exact hinv.status_length

end Binius64.Spartan
