import Binius64.CheckedRun
import Binius64.SpartanSystem

/-!
# Recording and finalising Spartan constraints

The intermediate representation that the constraint builder records call by call, and its
finalisation.
-/

namespace Binius64.Spartan

open CheckedRun ParityList List

structure WireAllocator (kind : WireKind) where
  nWires : ℕ
  nWires_lt : nWires < 2 ^ 32
deriving DecidableEq

namespace WireAllocator

/-- A fresh counter. -/
def new (kind : WireKind) : WireAllocator kind := ⟨0,by decide⟩

def alloc {kind : WireKind} (a : WireAllocator kind) :
    Except Failure (ConstraintWire × WireAllocator kind) :=
  if h : a.nWires + 1 < 2 ^ 32 then .ok (⟨kind,a.nWires⟩,⟨a.nWires + 1,h⟩) else .error .overflow

theorem alloc_eq_ok {kind : WireKind} {a a' : WireAllocator kind} {wire : ConstraintWire}
    (h : a.alloc = .ok (wire,a')) : wire = ⟨kind,a.nWires⟩ ∧ a'.nWires = a.nWires + 1 := by
  rw [alloc] at h
  split at h
  · cases h
    exact ⟨rfl,rfl⟩
  · cases h

end WireAllocator

inductive WireStatus where
  | unknown
  | pinned
  | pruned
deriving DecidableEq

/-- The constraints recorded so far and the counters of their wires. -/
structure ConstraintSystemIR (F : Type) where
  constantAlloc : WireAllocator .constant
  publicAlloc : WireAllocator .inOut
  derivedAlloc : WireAllocator .derived
  precommitAlloc : WireAllocator .precommit
  privateAlloc : WireAllocator .priv
  constants : List (F × ℕ)
  zeroConstraints : List (Operand ConstraintWire)
  mulConstraints : List (MulConstraint ConstraintWire)
  privateWiresStatus : List WireStatus

namespace ConstraintSystemIR

variable {F : Type}

def count (ir : ConstraintSystemIR F) : WireKind → ℕ
  | .constant => ir.constantAlloc.nWires
  | .inOut => ir.publicAlloc.nWires
  | .derived => ir.derivedAlloc.nWires
  | .precommit => ir.precommitAlloc.nWires
  | .priv => ir.privateAlloc.nWires

def Allocated (ir : ConstraintSystemIR F) (wire : ConstraintWire) : Prop :=
  wire.id < ir.count wire.kind

def constantId [DecidableEq F] (ir : ConstraintSystemIR F) (val : F) :
    Except Failure (ℕ × ConstraintSystemIR F) :=
  match ir.constants.lookup val with
  | some id => .ok (id,ir)
  | none => do
    let (wire,constantAlloc) ← ir.constantAlloc.alloc
    return (wire.id,{ ir with
      constantAlloc := constantAlloc
      constants := ir.constants ++ [(val,wire.id)] })

end ConstraintSystemIR

namespace ConstraintBuilder

variable {F : Type}

/-- Nothing recorded. -/
def new : ConstraintSystemIR F :=
  ⟨.new _,.new _,.new _,.new _,.new _,[],[],[],[]⟩

def allocInout (ir : ConstraintSystemIR F) : Except Failure (ConstraintWire × ConstraintSystemIR F) := do
  let (wire,publicAlloc) ← ir.publicAlloc.alloc
  return (wire,{ ir with publicAlloc := publicAlloc })

def allocPrecommit (ir : ConstraintSystemIR F) :
    Except Failure (ConstraintWire × ConstraintSystemIR F) := do
  let (wire,precommitAlloc) ← ir.precommitAlloc.alloc
  return (wire,{ ir with precommitAlloc := precommitAlloc })

/-- Allocate the result of an operation: derived from public operands, private otherwise. -/
def allocOutput (derived : Bool) (ir : ConstraintSystemIR F) :
    Except Failure (ConstraintWire × ConstraintSystemIR F) := do
  if derived then
    let (wire,derivedAlloc) ← ir.derivedAlloc.alloc
    return (wire,{ ir with derivedAlloc := derivedAlloc })
  else
    let (wire,privateAlloc) ← ir.privateAlloc.alloc
    return (wire,{ ir with
      privateAlloc := privateAlloc
      privateWiresStatus := ir.privateWiresStatus ++ [.unknown] })

def assertZero (wire : ConstraintWire) (ir : ConstraintSystemIR F) : ConstraintSystemIR F :=
  { ir with zeroConstraints := ir.zeroConstraints ++ [.single wire] }

def assertEq (lhs rhs : ConstraintWire) (ir : ConstraintSystemIR F) : ConstraintSystemIR F :=
  { ir with zeroConstraints := ir.zeroConstraints ++ [.new [lhs,rhs]] }

def constant [DecidableEq F] (val : F) (ir : ConstraintSystemIR F) :
    Except Failure (ConstraintWire × ConstraintSystemIR F) := do
  let (id,ir) ← ir.constantId val
  return (⟨.constant,id⟩,ir)

/-- The sum of two wires; a derived one records nothing. -/
def add (lhs rhs : ConstraintWire) (ir : ConstraintSystemIR F) :
    Except Failure (ConstraintWire × ConstraintSystemIR F) := do
  let derived := lhs.kind.isPublic && rhs.kind.isPublic
  let (out,ir) ← allocOutput derived ir
  if derived then return (out,ir)
  return (out,{ ir with zeroConstraints := ir.zeroConstraints ++ [.new [lhs,rhs,out]] })

/-- The product of two wires; a derived one records nothing. -/
def mul (lhs rhs : ConstraintWire) (ir : ConstraintSystemIR F) :
    Except Failure (ConstraintWire × ConstraintSystemIR F) := do
  let derived := lhs.kind.isPublic && rhs.kind.isPublic
  let (out,ir) ← allocOutput derived ir
  if derived then return (out,ir)
  return (out,{ ir with
    mulConstraints := ir.mulConstraints ++ [⟨.single lhs,.single rhs,.single out⟩] })

def allocOutputs (derived : Bool) :
    ℕ → ConstraintSystemIR F → Except Failure (List ConstraintWire × ConstraintSystemIR F)
  | 0, ir => .ok ([],ir)
  | n + 1, ir => do
    let (wire,ir) ← allocOutput derived ir
    let (wires,ir) ← allocOutputs derived n ir
    return (wire :: wires,ir)

def hint (inputs : List ConstraintWire) (outLen : ℕ) (ir : ConstraintSystemIR F) :
    Except Failure (List ConstraintWire × ConstraintSystemIR F) :=
  allocOutputs (inputs.all fun wire => wire.kind.isPublic) outLen ir

end ConstraintBuilder

inductive Call (F : Type) where
  /-- Allocate an input or output. -/
  | allocInout
  /-- Allocate a precommitted value. -/
  | allocPrecommit
  /-- Record that a wire is zero. -/
  | assertZero (wire : ConstraintWire)
  /-- Record that two wires are equal. -/
  | assertEq (lhs rhs : ConstraintWire)
  /-- Get the wire of a constant. -/
  | constant (val : F)
  | add (lhs rhs : ConstraintWire)
  | mul (lhs rhs : ConstraintWire)
  /-- Get the outputs of a hint. -/
  | hint (inputs : List ConstraintWire) (outLen : ℕ)

namespace Call

variable {F : Type}

def args : Call F → List ConstraintWire
  | allocInout | allocPrecommit | constant _ => []
  | assertZero wire => [wire]
  | assertEq lhs rhs | add lhs rhs | mul lhs rhs => [lhs,rhs]
  | hint inputs _ => inputs

/-- Run a call: the wires it hands out and what is recorded after it. -/
def run [DecidableEq F] (call : Call F) (ir : ConstraintSystemIR F) :
    Except Failure (List ConstraintWire × ConstraintSystemIR F) :=
  match call with
  | allocInout => do
    let (wire,ir) ← ConstraintBuilder.allocInout ir
    return ([wire],ir)
  | allocPrecommit => do
    let (wire,ir) ← ConstraintBuilder.allocPrecommit ir
    return ([wire],ir)
  | assertZero wire => .ok ([],ConstraintBuilder.assertZero wire ir)
  | assertEq lhs rhs => .ok ([],ConstraintBuilder.assertEq lhs rhs ir)
  | constant val => do
    let (wire,ir) ← ConstraintBuilder.constant val ir
    return ([wire],ir)
  | add lhs rhs => do
    let (wire,ir) ← ConstraintBuilder.add lhs rhs ir
    return ([wire],ir)
  | mul lhs rhs => do
    let (wire,ir) ← ConstraintBuilder.mul lhs rhs ir
    return ([wire],ir)
  | hint inputs outLen => ConstraintBuilder.hint inputs outLen ir

end Call

/-- What a builder has recorded after some calls, each reading wires handed out before. -/
inductive Recorded {F : Type} [DecidableEq F] : ConstraintSystemIR F → Prop where
  | new : Recorded ConstraintBuilder.new
  | call {ir ir' : ConstraintSystemIR F} (hr : Recorded ir) (call : Call F) (wires : List ConstraintWire)
    (hargs : ∀ wire ∈ call.args, ir.Allocated wire) (hrun : call.run ir = .ok (wires,ir')) :
    Recorded ir'

section Specs

variable {F : Type} {ir ir' mid : ConstraintSystemIR F} {wire : ConstraintWire} {kind : WireKind}

structure NewWire (kind : WireKind) (ir : ConstraintSystemIR F) (wire : ConstraintWire)
    (ir' : ConstraintSystemIR F) : Prop where
  wire_eq : wire = ⟨kind,ir.count kind⟩
  count_eq : ∀ k, ir'.count k = ir.count k + if k = kind then 1 else 0
  constants_eq : ir'.constants = ir.constants
  zero_eq : ir'.zeroConstraints = ir.zeroConstraints
  mul_eq : ir'.mulConstraints = ir.mulConstraints
  status_eq : ir'.privateWiresStatus =
    ir.privateWiresStatus ++ if kind = .priv then [.unknown] else []

theorem allocInout_newWire (h : ConstraintBuilder.allocInout ir = .ok (wire,ir')) :
    NewWire .inOut ir wire ir' := by
  obtain ⟨⟨w,a⟩,ha,hr⟩ := bind_eq_ok.mp h
  obtain ⟨hw,hn⟩ := WireAllocator.alloc_eq_ok ha
  cases hr
  refine ⟨hw,fun k => ?_,rfl,rfl,rfl,by simp⟩
  cases k <;> simp [ConstraintSystemIR.count,hn]

theorem allocPrecommit_newWire (h : ConstraintBuilder.allocPrecommit ir = .ok (wire,ir')) :
    NewWire .precommit ir wire ir' := by
  obtain ⟨⟨w,a⟩,ha,hr⟩ := bind_eq_ok.mp h
  obtain ⟨hw,hn⟩ := WireAllocator.alloc_eq_ok ha
  cases hr
  refine ⟨hw,fun k => ?_,rfl,rfl,rfl,by simp⟩
  cases k <;> simp [ConstraintSystemIR.count,hn]

def outputKind (derived : Bool) : WireKind := if derived then .derived else .priv

theorem allocOutput_newWire {derived : Bool}
    (h : ConstraintBuilder.allocOutput derived ir = .ok (wire,ir')) :
    NewWire (outputKind derived) ir wire ir' := by
  cases derived with
  | true =>
    obtain ⟨⟨w,a⟩,ha,hr⟩ := bind_eq_ok.mp h
    obtain ⟨hw,hn⟩ := WireAllocator.alloc_eq_ok ha
    cases hr
    refine ⟨hw,fun k => ?_,rfl,rfl,rfl,by simp [outputKind]⟩
    cases k <;> simp [ConstraintSystemIR.count,outputKind,hn]
  | false =>
    obtain ⟨⟨w,a⟩,ha,hr⟩ := bind_eq_ok.mp h
    obtain ⟨hw,hn⟩ := WireAllocator.alloc_eq_ok ha
    cases hr
    refine ⟨hw,fun k => ?_,rfl,rfl,rfl,by simp [outputKind]⟩
    cases k <;> simp [ConstraintSystemIR.count,outputKind,hn]

theorem add_eq_ok {lhs rhs out : ConstraintWire}
    (h : ConstraintBuilder.add lhs rhs ir = .ok (out,ir')) :
    ∃ mid, NewWire (outputKind (lhs.kind.isPublic && rhs.kind.isPublic)) ir out mid ∧
      ir' = if lhs.kind.isPublic && rhs.kind.isPublic then mid
        else { mid with zeroConstraints := mid.zeroConstraints ++ [.new [lhs,rhs,out]] } := by
  obtain ⟨⟨w,mid⟩,ha,hr⟩ := bind_eq_ok.mp h
  have hnew := allocOutput_newWire ha
  cases hd : lhs.kind.isPublic && rhs.kind.isPublic with
  | true =>
    simp only [hd,if_true] at hr
    cases hr
    exact ⟨_,hd ▸ hnew,rfl⟩
  | false =>
    simp only [hd,Bool.false_eq_true,if_false] at hr
    cases hr
    exact ⟨mid,hd ▸ hnew,rfl⟩

theorem mul_eq_ok {lhs rhs out : ConstraintWire}
    (h : ConstraintBuilder.mul lhs rhs ir = .ok (out,ir')) :
    ∃ mid, NewWire (outputKind (lhs.kind.isPublic && rhs.kind.isPublic)) ir out mid ∧
      ir' = if lhs.kind.isPublic && rhs.kind.isPublic then mid
        else { mid with
          mulConstraints := mid.mulConstraints ++ [⟨.single lhs,.single rhs,.single out⟩] } := by
  obtain ⟨⟨w,mid⟩,ha,hr⟩ := bind_eq_ok.mp h
  have hnew := allocOutput_newWire ha
  cases hd : lhs.kind.isPublic && rhs.kind.isPublic with
  | true =>
    simp only [hd,if_true] at hr
    cases hr
    exact ⟨_,hd ▸ hnew,rfl⟩
  | false =>
    simp only [hd,Bool.false_eq_true,if_false] at hr
    cases hr
    exact ⟨mid,hd ▸ hnew,rfl⟩

theorem constantId_eq_ok [DecidableEq F] {val : F} {id : ℕ} (h : ir.constantId val = .ok (id,ir')) :
    (ir' = ir ∧ ir.constants.lookup val = some id) ∨
      (ir.constants.lookup val = none ∧ id = ir.count .constant ∧
        ir'.constants = ir.constants ++ [(val,id)] ∧
        (∀ k, ir'.count k = ir.count k + if k = .constant then 1 else 0) ∧
        ir'.zeroConstraints = ir.zeroConstraints ∧ ir'.mulConstraints = ir.mulConstraints ∧
        ir'.privateWiresStatus = ir.privateWiresStatus) := by
  rw [ConstraintSystemIR.constantId] at h
  cases hl : ir.constants.lookup val with
  | some i =>
    rw [hl] at h
    cases h
    exact Or.inl ⟨rfl,rfl⟩
  | none =>
    rw [hl] at h
    obtain ⟨⟨w,a⟩,ha,hr⟩ := bind_eq_ok.mp h
    obtain ⟨hw,hn⟩ := WireAllocator.alloc_eq_ok ha
    cases hr
    refine Or.inr ⟨rfl,by rw [hw]; rfl,by rw [hw],fun k => ?_,rfl,rfl,rfl⟩
    cases k <;> simp [ConstraintSystemIR.count,hn]

end Specs

def MulConstraint.operands {W : Type} [LinearOrder W] (constraint : MulConstraint W) :
    List (Operand W) := [constraint.a,constraint.b,constraint.c]

/-- The constants are numbered in order, every operand reads wires handed out, and every private
wire has a status. -/
structure ConstraintSystemIR.WellFormed {F : Type} (ir : ConstraintSystemIR F) : Prop where
  constants_ids : ir.constants.map Prod.snd = range (ir.count .constant)
  zero_allocated : ∀ operand ∈ ir.zeroConstraints, ∀ wire ∈ operand.wires, ir.Allocated wire
  mul_allocated : ∀ constraint ∈ ir.mulConstraints, ∀ operand ∈ constraint.operands,
    ∀ wire ∈ operand.wires, ir.Allocated wire
  status_length : ir.privateWiresStatus.length = ir.count .priv

namespace ConstraintSystemIR

variable {F : Type} {ir ir' : ConstraintSystemIR F}

theorem WellFormed.mono (h : ir.WellFormed)
    (hids : ir'.constants.map Prod.snd = range (ir'.count .constant))
    (hcount : ∀ k, ir.count k ≤ ir'.count k) (hzero : ir'.zeroConstraints = ir.zeroConstraints)
    (hmul : ir'.mulConstraints = ir.mulConstraints)
    (hstatus : ir'.privateWiresStatus.length = ir'.count .priv) : ir'.WellFormed := by
  have hold : ∀ wire, ir.Allocated wire → ir'.Allocated wire :=
    fun wire hw => lt_of_lt_of_le hw (hcount wire.kind)
  refine ⟨hids,?_,?_,hstatus⟩
  · rw [hzero]
    exact fun operand ho wire hw => hold wire (h.zero_allocated operand ho wire hw)
  · rw [hmul]
    exact fun constraint hc operand ho wire hw =>
      hold wire (h.mul_allocated constraint hc operand ho wire hw)

theorem Allocated.mono {wire : ConstraintWire} (h : ir.Allocated wire)
    (hcount : ∀ k, ir.count k ≤ ir'.count k) : ir'.Allocated wire :=
  lt_of_lt_of_le h (hcount wire.kind)

theorem WellFormed.addZero (h : ir.WellFormed) {operand : Operand ConstraintWire}
    (ho : ∀ wire ∈ operand.wires, ir.Allocated wire) :
    { ir with zeroConstraints := ir.zeroConstraints ++ [operand] }.WellFormed := by
  refine ⟨h.constants_ids,fun o hmem => ?_,h.mul_allocated,h.status_length⟩
  rcases mem_append.mp hmem with hold | hnew
  · exact h.zero_allocated o hold
  · rw [mem_singleton.mp hnew]
    exact ho

theorem WellFormed.addMul (h : ir.WellFormed) {constraint : MulConstraint ConstraintWire}
    (ho : ∀ operand ∈ constraint.operands, ∀ wire ∈ operand.wires, ir.Allocated wire) :
    { ir with mulConstraints := ir.mulConstraints ++ [constraint] }.WellFormed := by
  refine ⟨h.constants_ids,h.zero_allocated,fun c hmem => ?_,h.status_length⟩
  rcases mem_append.mp hmem with hold | hnew
  · exact h.mul_allocated c hold
  · rw [mem_singleton.mp hnew]
    exact ho

end ConstraintSystemIR

section Recorded

variable {F : Type} {ir ir' mid : ConstraintSystemIR F} {wire : ConstraintWire} {kind : WireKind}

theorem NewWire.count_le (h : NewWire kind ir wire ir') (k : WireKind) : ir.count k ≤ ir'.count k := by
  rw [h.count_eq]
  exact Nat.le_add_right _ _

theorem NewWire.allocated (h : NewWire kind ir wire ir') : ir'.Allocated wire := by
  rw [ConstraintSystemIR.Allocated,h.wire_eq,h.count_eq,if_pos rfl]
  exact Nat.lt_succ_self _

theorem NewWire.wellFormed (h : NewWire kind ir wire ir') (hk : kind ≠ .constant)
    (hw : ir.WellFormed) : ir'.WellFormed := by
  refine hw.mono ?_ h.count_le h.zero_eq h.mul_eq ?_
  · rw [h.constants_eq,h.count_eq,if_neg hk.symm,Nat.add_zero]
    exact hw.constants_ids
  · rw [h.status_eq,h.count_eq,length_append,hw.status_length]
    by_cases hp : kind = .priv
    · rw [if_pos hp,if_pos hp.symm]
      rfl
    · rw [if_neg hp,if_neg (fun heq => hp heq.symm)]
      rfl

theorem NewWire.unknown (h : NewWire kind ir wire ir')
    (hs : ∀ status ∈ ir.privateWiresStatus, status = .unknown) :
    ∀ status ∈ ir'.privateWiresStatus, status = .unknown := by
  intro status hmem
  rw [h.status_eq] at hmem
  rcases mem_append.mp hmem with hold | hnew
  · exact hs status hold
  · split at hnew
    · exact mem_singleton.mp hnew
    · cases hnew

theorem outputKind_ne_constant (derived : Bool) : outputKind derived ≠ .constant := by
  cases derived <;> decide

theorem mem_of_lookup {α β : Type} [DecidableEq α] {entries : List (α × β)} {key : α} {v : β}
    (h : entries.lookup key = some v) : (key,v) ∈ entries := by
  induction entries with
  | nil => cases h
  | cons entry entries ih =>
    obtain ⟨k,w⟩ := entry
    rw [lookup_cons] at h
    by_cases hk : key = k
    · rw [hk,beq_self_eq_true] at h
      cases h
      rw [hk]
      exact mem_cons_self
    · rw [beq_eq_false_iff_ne.mpr hk] at h
      exact mem_cons_of_mem _ (ih h)

/-- What the builder's calls keep: the record is well formed and no private wire is eliminated. -/
structure Fresh (ir : ConstraintSystemIR F) : Prop where
  wellFormed : ir.WellFormed
  unknown : ∀ status ∈ ir.privateWiresStatus, status = .unknown

theorem NewWire.fresh (h : NewWire kind ir wire ir') (hk : kind ≠ .constant) (hf : Fresh ir) :
    Fresh ir' :=
  ⟨h.wellFormed hk hf.wellFormed,h.unknown hf.unknown⟩

theorem mem_operand_new {term : List ConstraintWire} {w : ConstraintWire}
    (h : w ∈ (Operand.new term).wires) : w ∈ term := mem_of_mem_cancelled h

theorem allocOutputs_fresh {derived : Bool} {n : ℕ} {wires : List ConstraintWire}
    (h : ConstraintBuilder.allocOutputs derived n ir = .ok (wires,ir')) (hf : Fresh ir) :
    Fresh ir' := by
  induction n generalizing ir wires with
  | zero =>
    cases h
    exact hf
  | succ n ih =>
    obtain ⟨⟨w,mid⟩,ha,hr⟩ := bind_eq_ok.mp h
    obtain ⟨⟨ws,last⟩,hrest,hlast⟩ := bind_eq_ok.mp hr
    cases hlast
    exact ih hrest ((allocOutput_newWire ha).fresh (outputKind_ne_constant derived) hf)

variable [DecidableEq F]

omit [DecidableEq F] in
theorem alloc_error {kind : WireKind} {a : WireAllocator kind} {e : Failure} (h : a.alloc = .error e) :
    e = .overflow := by
  rw [WireAllocator.alloc] at h
  split at h
  · cases h
  · cases h
    rfl

variable {val : F} {id : ℕ}

theorem constantId_error {e : Failure} (h : ir.constantId val = .error e) :
    e = .overflow := by
  rw [ConstraintSystemIR.constantId] at h
  split at h
  · cases h
  · cases ha : ir.constantAlloc.alloc with
    | error e' =>
      rw [ha] at h
      cases h
      exact alloc_error ha
    | ok result =>
      rw [ha] at h
      cases h

theorem constantId_wellFormed (h : ir.constantId val = .ok (id,ir'))
    (hw : ir.WellFormed) : ir'.WellFormed := by
  rcases constantId_eq_ok h with ⟨rfl,-⟩ | ⟨-,hid,hconst,hcount,hzero,hmul,hstatus⟩
  · exact hw
  · refine hw.mono ?_ (fun k => ?_) hzero hmul ?_
    · rw [hconst,map_append,hw.constants_ids,hcount,if_pos rfl,range_succ,hid]
      rfl
    · rw [hcount]
      exact Nat.le_add_right _ _
    · rw [hstatus,hcount,hw.status_length]
      rfl

theorem constantId_keeps (h : ir.constantId val = .ok (id,ir')) :
    ir'.zeroConstraints = ir.zeroConstraints ∧ ir'.mulConstraints = ir.mulConstraints ∧
      ir'.privateWiresStatus = ir.privateWiresStatus ∧
      (∀ k, k ≠ .constant → ir'.count k = ir.count k) ∧ ir.constants <+: ir'.constants ∧
      (val,id) ∈ ir'.constants := by
  rcases constantId_eq_ok h with ⟨rfl,hl⟩ | ⟨-,-,hconst,hcount,hzero,hmul,hstatus⟩
  · exact ⟨rfl,rfl,rfl,fun _ _ => rfl,prefix_rfl,mem_of_lookup hl⟩
  · refine ⟨hzero,hmul,hstatus,fun k hk => ?_,?_,?_⟩
    · rw [hcount,if_neg hk,Nat.add_zero]
    · rw [hconst]
      exact prefix_append _ _
    · rw [hconst]
      simp

theorem constantId_fresh (h : ir.constantId val = .ok (id,ir')) (hf : Fresh ir) :
    Fresh ir' :=
  ⟨constantId_wellFormed h hf.wellFormed,(constantId_keeps h).2.2.1 ▸ hf.unknown⟩

theorem Call.fresh {call : Call F} {wires : List ConstraintWire}
    (hrun : call.run ir = .ok (wires,ir')) (hargs : ∀ w ∈ call.args, ir.Allocated w)
    (hf : Fresh ir) : Fresh ir' := by
  cases call with
  | allocInout =>
    obtain ⟨⟨w,mid⟩,ha,hr⟩ := bind_eq_ok.mp hrun
    cases hr
    exact (allocInout_newWire ha).fresh (by decide) hf
  | allocPrecommit =>
    obtain ⟨⟨w,mid⟩,ha,hr⟩ := bind_eq_ok.mp hrun
    cases hr
    exact (allocPrecommit_newWire ha).fresh (by decide) hf
  | assertZero w =>
    cases hrun
    refine ⟨hf.wellFormed.addZero fun v hv => ?_,hf.unknown⟩
    exact hargs v hv
  | assertEq lhs rhs =>
    cases hrun
    exact ⟨hf.wellFormed.addZero fun v hv => hargs v (mem_operand_new hv),hf.unknown⟩
  | constant val =>
    obtain ⟨⟨w,mid⟩,ha,hr⟩ := bind_eq_ok.mp hrun
    obtain ⟨⟨id,last⟩,hc,hlast⟩ := bind_eq_ok.mp ha
    cases hlast
    cases hr
    exact constantId_fresh hc hf
  | add lhs rhs =>
    obtain ⟨⟨w,last⟩,ha,hr⟩ := bind_eq_ok.mp hrun
    cases hr
    obtain ⟨mid,hnew,heq⟩ := add_eq_ok ha
    have hmid := hnew.fresh (outputKind_ne_constant _) hf
    rw [heq]
    split
    · exact hmid
    · refine ⟨hmid.wellFormed.addZero fun v hv => ?_,hmid.unknown⟩
      have hin := mem_operand_new hv
      rw [mem_cons,mem_cons,mem_singleton] at hin
      rcases hin with rfl | rfl | rfl
      · exact (hargs _ mem_cons_self).mono hnew.count_le
      · exact (hargs _ (mem_cons_of_mem _ mem_cons_self)).mono hnew.count_le
      · exact hnew.allocated
  | mul lhs rhs =>
    obtain ⟨⟨w,last⟩,ha,hr⟩ := bind_eq_ok.mp hrun
    cases hr
    obtain ⟨mid,hnew,heq⟩ := mul_eq_ok ha
    have hmid := hnew.fresh (outputKind_ne_constant _) hf
    rw [heq]
    split
    · exact hmid
    · refine ⟨hmid.wellFormed.addMul fun operand ho v hv => ?_,hmid.unknown⟩
      simp only [MulConstraint.operands,mem_cons,not_mem_nil,or_false] at ho
      rcases ho with rfl | rfl | rfl
      · rw [mem_singleton.mp hv]
        exact (hargs _ mem_cons_self).mono hnew.count_le
      · rw [mem_singleton.mp hv]
        exact (hargs _ (mem_cons_of_mem _ mem_cons_self)).mono hnew.count_le
      · rw [mem_singleton.mp hv]
        exact hnew.allocated
  | hint inputs outLen => exact allocOutputs_fresh hrun hf

theorem Recorded.fresh (h : Recorded ir) : Fresh ir := by
  induction h with
  | new => exact ⟨⟨rfl,nofun,nofun,rfl⟩,nofun⟩
  | call hr call wires hargs hrun ih => exact Call.fresh hrun hargs ih

end Recorded

namespace ConstraintSystemIR

variable {F : Type}

def markDerived (alive : List Bool) (wires : List ConstraintWire) : Except Failure (List Bool) :=
  wires.foldlM (fun alive wire =>
    if wire.kind = .derived then setAt alive wire.id true else .ok alive) alive

def markConstraint (alive : List Bool) (constraint : MulConstraint ConstraintWire) :
    Except Failure (List Bool) := do
  let alive ← markDerived alive constraint.a.wires
  let alive ← markDerived alive constraint.b.wires
  markDerived alive constraint.c.wires

/-- The places of the wires of an operand; the constant zero and wires without a place are left
out. -/
def operandIndices (layout : WitnessLayout F) (zeroConstId : Option ℕ) :
    List ConstraintWire → Except Failure (List WitnessIndex)
  | [] => .ok []
  | wire :: wires =>
    if wire.kind = .constant ∧ zeroConstId = some wire.id then operandIndices layout zeroConstId wires
    else do
      let place ← layout.get wire
      let indices ← operandIndices layout zeroConstId wires
      return match place with
        | some index => index :: indices
        | none => indices

variable (layout : WitnessLayout F) (zeroConstId : Option ℕ)

def mapOperand (operand : Operand ConstraintWire) : Except Failure (Operand WitnessIndex) := do
  let indices ← operandIndices layout zeroConstId operand.wires
  return .new indices

def mapConstraint
    (constraint : MulConstraint ConstraintWire) : Except Failure (MulConstraint WitnessIndex) := do
  let a ← mapOperand layout zeroConstId constraint.a
  let b ← mapOperand layout zeroConstId constraint.b
  let c ← mapOperand layout zeroConstId constraint.c
  return ⟨a,b,c⟩

def foldedConstraints (ir : ConstraintSystemIR F) (oneWire : ConstraintWire) :
    List (MulConstraint ConstraintWire) :=
  ir.mulConstraints ++ (ir.zeroConstraints.filter fun operand => ¬operand.wires.isEmpty).map
    fun operand => ⟨operand,.single oneWire,.empty⟩

def privateAlive (ir : ConstraintSystemIR F) : List Bool :=
  ir.privateWiresStatus.map fun status => decide (status ≠ .pruned)

/-- Convert what was recorded into a constraint system and a layout. -/
def finalize [Field F] [DecidableEq F] (ir : ConstraintSystemIR F) :
    Except Failure (ConstraintSystem F × WitnessLayout F) := do
  let (oneId,ir) ← ir.constantId 1
  let oneWire : ConstraintWire := ⟨.constant,oneId⟩
  let zeroConstId := ir.constants.lookup 0
  let constants ← ir.constants.foldlM (fun constants entry => setAt constants entry.2 entry.1)
    (replicate ir.constantAlloc.nWires 0)
  let mulConstraints := ir.foldedConstraints oneWire
  let derivedAlive ← mulConstraints.foldlM markConstraint
    (replicate ir.derivedAlloc.nWires false)
  let layout ← WitnessLayout.sparse constants ir.publicAlloc.nWires ir.precommitAlloc.nWires
    derivedAlive ir.privateAlive
  let mapped ← mulConstraints.mapM (mapConstraint layout zeroConstId)
  match ← layout.get oneWire with
  | none => throw .oneMissing
  | some oneIndex =>
    return (⟨constants,layout.nInout,layout.nPrecommit,layout.nPrivate,layout.logPublic,mapped,
      oneIndex.index⟩,layout)

end ConstraintSystemIR

end Binius64.Spartan
