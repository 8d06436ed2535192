import Binius64.ParityList
import Mathlib.Data.Nat.Size
import Mathlib.Data.Prod.Lex

/-!
# Spartan constraint systems

Wires and operands of the Spartan frontend, the sparse layout that gives wires their places in a
witness, and the multiplication constraints a witness is validated against.
-/

namespace Binius64.Spartan

open ParityList List
open Or (inl inr)

/-- The ways a run of the frontend stops. -/
inductive Failure where
  /-- A vector is read or written past its end. -/
  | indexOutOfBounds
  /-- A sum of 32-bit words does not fit. -/
  | overflow
  /-- An assertion on the id of a wire fails. -/
  | wireOutOfRange
  /-- A use of a wire is not found in its use list. -/
  | useMissing
  /-- The wire to be eliminated is not prunable. -/
  | notPrunable
  /-- The constant one has no place in the layout. -/
  | oneMissing
  /-- A constraint of a validated system does not hold. -/
  | unsatisfied
  /-- A hint closure returns the wrong number of outputs. -/
  | outputCount
  /-- A wire is written as one of another kind. -/
  | wrongKind
  /-- A wire is read before it is handed out. -/
  | unbound
deriving DecidableEq

/-- The low 32 bits of a count. -/
def asU32 (n : ℕ) : ℕ := n % 2 ^ 32

theorem asU32_of_lt {n : ℕ} (h : n < 2 ^ 32) : asU32 n = n := Nat.mod_eq_of_lt h

/-- A sum of 32-bit words. -/
def u32Add (a b : ℕ) : Except Failure ℕ :=
  if a + b < 2 ^ 32 then .ok (a + b) else .error .overflow

/-- The element of a vector at an index. -/
def getAt {α : Type} (xs : List α) (i : ℕ) : Except Failure α :=
  match xs[i]? with
  | some x => .ok x
  | none => .error .indexOutOfBounds

/-- A vector with one element written. -/
def setAt {α : Type} (xs : List α) (i : ℕ) (x : α) : Except Failure (List α) :=
  if i < xs.length then .ok (xs.set i x) else .error .indexOutOfBounds

inductive WitnessSegment where
  /-- Constants, inputs and outputs, and derived values. -/
  | pub
  /-- Values committed before the private ones. -/
  | precommit
  | priv
deriving DecidableEq

inductive WireKind where
  | constant
  | inOut
  /-- A value computed from public ones alone. -/
  | derived
  | precommit
  | priv
deriving DecidableEq

namespace WireKind

def rank : WireKind → ℕ
  | constant => 0
  | inOut => 1
  | derived => 2
  | precommit => 3
  | priv => 4

def segment : WireKind → WitnessSegment
  | constant | inOut | derived => .pub
  | precommit => .precommit
  | priv => .priv

def isPublic (kind : WireKind) : Bool := kind.segment = .pub

theorem rank_injective : Function.Injective rank := by
  intro a b h
  cases a <;> cases b <;> first | rfl | cases h

end WireKind

def WitnessSegment.rank : WitnessSegment → ℕ
  | pub => 0
  | precommit => 1
  | priv => 2

theorem WitnessSegment.rank_injective : Function.Injective WitnessSegment.rank := by
  intro a b h
  cases a <;> cases b <;> first | rfl | cases h

structure ConstraintWire where
  kind : WireKind
  id : ℕ
deriving DecidableEq

structure WitnessIndex where
  segment : WitnessSegment
  index : ℕ
deriving DecidableEq

/-- Wires are ordered by kind, then by id. -/
instance : LinearOrder ConstraintWire :=
  LinearOrder.lift' (fun w => toLex (w.kind.rank,w.id)) (by
    intro a b h
    have hpair : (a.kind.rank,a.id) = (b.kind.rank,b.id) := toLex.injective h
    cases a
    cases b
    simp only [Prod.mk.injEq] at hpair
    rw [WireKind.rank_injective hpair.1,hpair.2])

/-- Places are ordered by segment, then by position. -/
instance : LinearOrder WitnessIndex :=
  LinearOrder.lift' (fun w => toLex (w.segment.rank,w.index)) (by
    intro a b h
    have hpair : (a.segment.rank,a.index) = (b.segment.rank,b.index) := toLex.injective h
    cases a
    cases b
    simp only [Prod.mk.injEq] at hpair
    rw [WitnessSegment.rank_injective hpair.1,hpair.2])

/-- A sum of wires modulo two: a strictly ordered list of them. -/
@[ext]
structure Operand (W : Type) [LinearOrder W] where
  wires : List W
  ordered : Ordered wires
deriving DecidableEq

namespace Operand

variable {W : Type} [LinearOrder W]

/-- The sum of the given wires, equal ones cancelling in pairs. -/
def new (term : List W) : Operand W := ⟨cancelled term,cancelled_ordered term⟩

def empty : Operand W := ⟨[],List.Pairwise.nil⟩

/-- The sum of one wire. -/
def single (w : W) : Operand W := ⟨[w],pairwise_singleton _ _⟩

/-- Add an operand to this one; also the wires it adds and those it removes. -/
def merge (lhs rhs : Operand W) : Operand W × Operand W × Operand W :=
  let m := ParityList.merge lhs.wires rhs.wires
  have hm := merge_merged lhs.ordered rhs.ordered
  (⟨m.1,hm.ordered⟩,⟨m.2.1,rhs.ordered.sublist hm.additions_sublist⟩,
    ⟨m.2.2,lhs.ordered.sublist hm.removals_sublist⟩)

def val {R : Type} [CommRing R] (σ : W → R) (o : Operand W) : R := value σ o.wires

section Merge

variable (lhs rhs : Operand W) (w : W)

theorem mem_merge : w ∈ (lhs.merge rhs).1.wires ↔ ¬(w ∈ lhs.wires ↔ w ∈ rhs.wires) :=
  (merge_merged lhs.ordered rhs.ordered).mem_iff w

theorem mem_additions : w ∈ (lhs.merge rhs).2.1.wires ↔ w ∉ lhs.wires ∧ w ∈ rhs.wires :=
  (merge_merged lhs.ordered rhs.ordered).mem_additions w

theorem mem_removals : w ∈ (lhs.merge rhs).2.2.wires ↔ w ∈ lhs.wires ∧ w ∈ rhs.wires :=
  (merge_merged lhs.ordered rhs.ordered).mem_removals w

end Merge

theorem new_of_ordered {ws : List W} (h : Ordered ws) :
    new ws = ⟨ws,h⟩ := by
  rw [new,mk.injEq]
  exact cancelled_of_ordered h

theorem merge_empty (o : Operand W) :
    empty.merge o = (o,o,.empty) := by
  obtain ⟨ws,hws⟩ := o
  simp only [merge,empty,merge_nil_left]

variable {R : Type} [CommRing R] (σ : W → R)

@[simp] theorem val_empty : (empty : Operand W).val σ = 0 := rfl

@[simp] theorem val_single (w : W) : (single w).val σ = σ w := by
  rw [val,single,value_cons,value_nil,add_zero]

variable [CharP R 2]

theorem val_new (term : List W) : (new term).val σ = value σ term := value_cancelled σ term

theorem val_merge (lhs rhs : Operand W) : (lhs.merge rhs).1.val σ = lhs.val σ + rhs.val σ :=
  value_merge σ lhs.wires rhs.wires

end Operand

/-- A multiplication constraint: the product of two operands is the third. -/
structure MulConstraint (W : Type) [LinearOrder W] where
  a : Operand W
  b : Operand W
  c : Operand W
deriving DecidableEq

def MulConstraint.Holds {W R : Type} [LinearOrder W] [CommRing R] (σ : W → R)
    (constraint : MulConstraint W) : Prop :=
  constraint.a.val σ * constraint.b.val σ = constraint.c.val σ

structure Witness (F : Type) where
  pub : List F
  precommit : List F
  priv : List F
deriving DecidableEq

namespace Witness

variable {F : Type}

def part (w : Witness F) : WitnessSegment → List F
  | .pub => w.pub
  | .precommit => w.precommit
  | .priv => w.priv

def setPart (w : Witness F) (segment : WitnessSegment) (values : List F) : Witness F :=
  match segment with
  | .pub => { w with pub := values }
  | .precommit => { w with precommit := values }
  | .priv => { w with priv := values }

/-- The value at a place. -/
def get (w : Witness F) (index : WitnessIndex) : Except Failure F :=
  getAt (w.part index.segment) index.index

theorem part_setPart (w : Witness F) (segment other : WitnessSegment) (values : List F) :
    (w.setPart segment values).part other = if other = segment then values else w.part other := by
  cases segment <;> cases other <;> rfl

end Witness

structure ConstraintSystem (F : Type) where
  constants : List F
  nInout : ℕ
  nPrecommit : ℕ
  nPrivate : ℕ
  logPublic : ℕ
  mulConstraints : List (MulConstraint WitnessIndex)
  oneWireIndex : ℕ

namespace ConstraintSystem

variable {F : Type} [Field F] [DecidableEq F]

omit [DecidableEq F] in
def operandVal (witness : Witness F) (operand : Operand WitnessIndex) : Except Failure F := do
  let values ← operand.wires.mapM witness.get
  return values.sum

def checkConstraint (witness : Witness F) (constraint : MulConstraint WitnessIndex) :
    Except Failure Unit := do
  let a ← operandVal witness constraint.a
  let b ← operandVal witness constraint.b
  let c ← operandVal witness constraint.c
  if a * b = c then return () else throw .unsatisfied

def validate (cs : ConstraintSystem F) (witness : Witness F) : Except Failure Unit :=
  cs.mulConstraints.forM (checkConstraint witness)

end ConstraintSystem

/-- The smallest exponent whose power of two is at least the count. -/
def log2CeilUsize (n : ℕ) : ℕ := Nat.size (n - 1)

theorem le_two_pow_log2CeilUsize (n : ℕ) : n ≤ 2 ^ log2CeilUsize n := by
  have hlt : n - 1 < 2 ^ Nat.size (n - 1) := Nat.lt_size_self (n - 1)
  rw [log2CeilUsize]
  omega

def indexMap (alive : List Bool) : List (ℕ × ℕ) :=
  ((alive.zipIdx.filter fun entry => entry.1).zipIdx).map fun entry =>
    (asU32 entry.1.2,asU32 entry.2)

/-- The places of the wires of a circuit. -/
structure WitnessLayout (F : Type) where
  constants : List F
  nInout : ℕ
  nDerived : ℕ
  nPrecommit : ℕ
  nPrivate : ℕ
  logPublic : ℕ
  logPrecommit : ℕ
  logPrivate : ℕ
  /-- The positions of the derived values among those with a place. -/
  derivedIndexMap : List (ℕ × ℕ)
  /-- The positions of the private values among those with a place. -/
  privateIndexMap : List (ℕ × ℕ)

namespace WitnessLayout

variable {F : Type}

def sparse (constants : List F) (nInout nPrecommit : ℕ) (derivedAlive privateAlive : List Bool) :
    Except Failure (WitnessLayout F) := do
  let nConstants := asU32 constants.length
  let logPrecommit := asU32 (log2CeilUsize nPrecommit)
  let derivedIndexMap := indexMap derivedAlive
  let nDerived := asU32 derivedIndexMap.length
  let nPublic ← u32Add (← u32Add nConstants nInout) nDerived
  let logPublic := asU32 (log2CeilUsize nPublic)
  let privateIndexMap := indexMap privateAlive
  let nPrivate := asU32 privateIndexMap.length
  let logPrivate := asU32 (log2CeilUsize nPrivate)
  return ⟨constants,nInout,nDerived,nPrecommit,nPrivate,logPublic,logPrecommit,logPrivate,
    derivedIndexMap,privateIndexMap⟩

def size (layout : WitnessLayout F) : WitnessSegment → ℕ
  | .pub => 2 ^ layout.logPublic
  | .precommit => 2 ^ layout.logPrecommit
  | .priv => 2 ^ layout.logPrivate

def get (layout : WitnessLayout F) (wire : ConstraintWire) : Except Failure (Option WitnessIndex) :=
  match wire.kind with
  | .constant =>
    if wire.id < layout.constants.length then return some ⟨.pub,wire.id⟩
    else throw .wireOutOfRange
  | .inOut => do
    if wire.id < layout.nInout then return some ⟨.pub,← u32Add (asU32 layout.constants.length) wire.id⟩
    else throw .wireOutOfRange
  | .derived =>
    match layout.derivedIndexMap.lookup wire.id with
    | some derivedIdx => do
      let start ← u32Add (asU32 layout.constants.length) layout.nInout
      return some ⟨.pub,← u32Add start derivedIdx⟩
    | none => return none
  | .precommit =>
    if wire.id < layout.nPrecommit then return some ⟨.precommit,wire.id⟩
    else throw .wireOutOfRange
  | .priv => return (layout.privateIndexMap.lookup wire.id).map fun id => ⟨.priv,id⟩

end WitnessLayout

def position (alive : List Bool) (id : ℕ) : ℕ := (alive.take id).count true

theorem indexMap_length (alive : List Bool) : (indexMap alive).length = alive.count true := by
  have hfilter : ∀ k, (alive.zipIdx k).countP (fun entry => entry.1) = alive.count true := by
    induction alive with
    | nil => exact fun _ => rfl
    | cons b rest ih =>
      intro k
      rw [zipIdx_cons,countP_cons,ih,count_cons]
      cases b <;> rfl
  rw [indexMap,length_map,length_zipIdx,←countP_eq_length_filter,hfilter]

theorem indexMap_concat (alive : List Bool) (b : Bool) :
    indexMap (alive ++ [b]) =
      indexMap alive ++ if b then [(asU32 alive.length,asU32 (alive.count true))] else [] := by
  have hcount : (alive.zipIdx.filter fun entry => entry.1).length = alive.count true := by
    rw [←indexMap_length,indexMap,length_map,length_zipIdx]
  rw [indexMap,zipIdx_append,filter_append,zipIdx_append,map_append,hcount]
  cases b with
  | false => rfl
  | true => simp [indexMap]

theorem lookup_singleton {β : Type} (key id : ℕ) (v : β) :
    [(key,v)].lookup id = if id = key then some v else none := by
  by_cases h : id = key
  · rw [if_pos h,lookup_cons,h,beq_self_eq_true]
  · rw [if_neg h,lookup_cons,beq_eq_false_iff_ne.mpr h,lookup_nil]

variable {alive : List Bool}

theorem indexMap_lookup (h : alive.length ≤ 2 ^ 32) (id : ℕ) :
    (indexMap alive).lookup id =
      if alive[id]? = some true then some (position alive id) else none := by
  induction alive using reverseRecOn with
  | nil => simp [indexMap]
  | append_singleton alive b ih =>
    rw [length_append,length_singleton] at h
    have hrest := ih (by omega)
    rw [indexMap_concat,lookup_append,hrest]
    rcases lt_trichotomy id alive.length with hlt | heq | hgt
    · have htake : position (alive ++ [b]) id = position alive id := by
        rw [position,take_append_of_le_length hlt.le,position]
      have hnew : (if b then [(asU32 alive.length,asU32 (alive.count true))] else []).lookup id =
          none := by
        cases b with
        | false => rfl
        | true =>
          rw [if_pos rfl,asU32_of_lt (by omega),lookup_singleton,if_neg hlt.ne]
      rw [hnew,Option.or_none,getElem?_append_left hlt,htake]
    · subst heq
      have htake : position (alive ++ [b]) alive.length = alive.count true := by
        rw [position,take_left]
      have hcount : alive.count true < 2 ^ 32 := by
        have hle := count_le_length (a := true) (l := alive)
        omega
      rw [getElem?_eq_none le_rfl,htake,getElem?_concat_length]
      cases b with
      | false => simp
      | true =>
        rw [if_pos rfl,asU32_of_lt (by omega),asU32_of_lt hcount,lookup_singleton,if_pos rfl]
        simp
    · have hout : (alive ++ [b])[id]? = none := by
        rw [getElem?_eq_none]
        rw [length_append,length_singleton]
        omega
      have hnew : (if b then [(asU32 alive.length,asU32 (alive.count true))] else []).lookup id =
          none := by
        cases b with
        | false => rfl
        | true =>
          rw [if_pos rfl,asU32_of_lt (by omega),lookup_singleton,if_neg hgt.ne']
      rw [hnew,hout,getElem?_eq_none hgt.le]
      rfl

theorem position_lt {id : ℕ} (h : alive[id]? = some true) :
    position alive id < alive.count true := by
  obtain ⟨hlt,hget⟩ := List.getElem?_eq_some_iff.mp h
  have hsplit : alive = alive.take id ++ true :: alive.drop (id + 1) := by
    rw [←hget,←drop_eq_getElem_cons hlt,take_append_drop]
  have hcount : alive.count true =
      (alive.take id).count true + ((alive.drop (id + 1)).count true + 1) := by
    conv_lhs => rw [hsplit]
    rw [count_append,count_cons_self]
  rw [position]
  omega

theorem position_lt_of_lt {id later : ℕ} (h : alive[id]? = some true)
    (hlt : id < later) : position alive id < position alive later := by
  have hin : (alive.take later)[id]? = some true := by rw [getElem?_take_of_lt hlt,h]
  have hpos := position_lt hin
  rw [position,take_take,min_eq_left hlt.le] at hpos
  exact hpos

theorem position_injective {id other : ℕ} (h : alive[id]? = some true)
    (hother : alive[other]? = some true) (heq : position alive id = position alive other) :
    id = other := by
  rcases lt_trichotomy id other with hlt | hsame | hgt
  · have hpos := position_lt_of_lt h hlt
    omega
  · exact hsame
  · have hpos := position_lt_of_lt hother hgt
    omega

theorem asU32_log2CeilUsize {n : ℕ} (h : n < 2 ^ 32) :
    asU32 (log2CeilUsize n) = log2CeilUsize n := by
  have hle : log2CeilUsize n ≤ 32 := by
    rw [log2CeilUsize]
    exact Nat.size_le.mpr (by omega)
  exact asU32_of_lt (by omega)

section Layout

variable {F : Type}

/-- A layout gives a place to every constant, input, output and precommitted value, and to the alive
derived and private values. -/
inductive Slot (layout : WitnessLayout F) (derivedAlive privateAlive : List Bool) :
    ConstraintWire → WitnessIndex → Prop where
  | constant {id : ℕ} (h : id < layout.constants.length) :
    Slot layout derivedAlive privateAlive ⟨.constant,id⟩ ⟨.pub,id⟩
  | inOut {id : ℕ} (h : id < layout.nInout) :
    Slot layout derivedAlive privateAlive ⟨.inOut,id⟩ ⟨.pub,layout.constants.length + id⟩
  | derived {id : ℕ} (h : derivedAlive[id]? = some true) :
    Slot layout derivedAlive privateAlive ⟨.derived,id⟩
      ⟨.pub,layout.constants.length + layout.nInout + position derivedAlive id⟩
  | precommit {id : ℕ} (h : id < layout.nPrecommit) :
    Slot layout derivedAlive privateAlive ⟨.precommit,id⟩ ⟨.precommit,id⟩
  | priv {id : ℕ} (h : privateAlive[id]? = some true) :
    Slot layout derivedAlive privateAlive ⟨.priv,id⟩ ⟨.priv,position privateAlive id⟩

def Dead (derivedAlive privateAlive : List Bool) (wire : ConstraintWire) : Prop :=
  match wire.kind with
  | .derived => derivedAlive[wire.id]? ≠ some true
  | .priv => privateAlive[wire.id]? ≠ some true
  | _ => False

/-- A layout whose tables number the alive values and whose segments hold all places. -/
structure Laid (layout : WitnessLayout F) (derivedAlive privateAlive : List Bool) : Prop where
  pub_lt : layout.constants.length + layout.nInout + derivedAlive.count true < 2 ^ 32
  derived_le : derivedAlive.length ≤ 2 ^ 32
  priv_le : privateAlive.length ≤ 2 ^ 32
  derivedIndexMap : layout.derivedIndexMap = indexMap derivedAlive
  privateIndexMap : layout.privateIndexMap = indexMap privateAlive
  pub_fits : layout.constants.length + layout.nInout + derivedAlive.count true ≤ layout.size .pub
  precommit_fits : layout.nPrecommit ≤ layout.size .precommit
  priv_fits : privateAlive.count true ≤ layout.size .priv

theorem u32Add_ok {a b : ℕ} (h : a + b < 2 ^ 32) : u32Add a b = .ok (a + b) := if_pos h

theorem u32Add_eq_ok {a b c : ℕ} (h : u32Add a b = .ok c) : a + b < 2 ^ 32 ∧ c = a + b := by
  rw [u32Add] at h
  split at h
  · exact ⟨‹_›,by cases h; rfl⟩
  · cases h

theorem u32Add_error {a b : ℕ} {e : Failure} (h : u32Add a b = .error e) : e = .overflow := by
  rw [u32Add] at h
  split at h
  · cases h
  · cases h
    rfl

variable {derivedAlive privateAlive : List Bool}

theorem sparse_error {constants : List F} {nInout nPrecommit : ℕ}
    {e : Failure}
    (h : WitnessLayout.sparse constants nInout nPrecommit derivedAlive privateAlive = .error e) :
    e = .overflow := by
  rw [WitnessLayout.sparse] at h
  simp only [bind,Except.bind] at h
  cases hfirst : u32Add (asU32 constants.length) nInout with
  | error e' =>
    rw [hfirst] at h
    cases h
    exact u32Add_error hfirst
  | ok start =>
    rw [hfirst] at h
    simp only at h
    cases hpub : u32Add start (asU32 (indexMap derivedAlive).length) with
    | error e' =>
      rw [hpub] at h
      cases h
      exact u32Add_error hpub
    | ok nPublic =>
      rw [hpub] at h
      cases h

theorem sparse_laid {constants : List F} {nInout nPrecommit : ℕ}
    {layout : WitnessLayout F} (hc : constants.length < 2 ^ 32) (hp : nPrecommit < 2 ^ 32)
    (hd : derivedAlive.length < 2 ^ 32) (hv : privateAlive.length < 2 ^ 32)
    (h : WitnessLayout.sparse constants nInout nPrecommit derivedAlive privateAlive = .ok layout) :
    Laid layout derivedAlive privateAlive ∧ layout.constants = constants ∧ layout.nInout = nInout ∧
      layout.nPrecommit = nPrecommit := by
  have hdc : derivedAlive.count true < 2 ^ 32 := count_le_length.trans_lt hd
  have hvc : privateAlive.count true < 2 ^ 32 := count_le_length.trans_lt hv
  rw [WitnessLayout.sparse] at h
  simp only [indexMap_length,asU32_of_lt hc,asU32_of_lt hdc,asU32_of_lt hvc,
    asU32_log2CeilUsize hp,asU32_log2CeilUsize hvc,bind,Except.bind] at h
  cases hfirst : u32Add constants.length nInout with
  | error e =>
    rw [hfirst] at h
    cases h
  | ok start =>
    rw [hfirst] at h
    simp only at h
    obtain ⟨-,rfl⟩ := u32Add_eq_ok hfirst
    cases hpub : u32Add (constants.length + nInout) (derivedAlive.count true) with
    | error e =>
      rw [hpub] at h
      cases h
    | ok nPublic =>
      rw [hpub] at h
      obtain ⟨hlt,rfl⟩ := u32Add_eq_ok hpub
      simp only [asU32_log2CeilUsize hlt,pure,Except.pure,Except.ok.injEq] at h
      subst h
      exact ⟨⟨hlt,hd.le,hv.le,rfl,rfl,le_two_pow_log2CeilUsize _,le_two_pow_log2CeilUsize _,
        le_two_pow_log2CeilUsize _⟩,rfl,rfl,rfl⟩

namespace Laid

variable {layout : WitnessLayout F} {derivedAlive privateAlive : List Bool}
  (h : Laid layout derivedAlive privateAlive)

include h

variable {wire : ConstraintWire} {index : WitnessIndex}

theorem get_slot
    (hs : Slot layout derivedAlive privateAlive wire index) : layout.get wire = .ok (some index) := by
  have hpub := h.pub_lt
  have hc : asU32 layout.constants.length = layout.constants.length := asU32_of_lt (by omega)
  cases hs with
  | constant hid => exact if_pos hid
  | inOut hid =>
    simp only [WitnessLayout.get]
    rw [if_pos hid,hc,u32Add_ok (by omega)]
    rfl
  | derived hid =>
    have hpos := position_lt hid
    simp only [WitnessLayout.get]
    rw [h.derivedIndexMap,indexMap_lookup h.derived_le,if_pos hid]
    simp only
    rw [hc,u32Add_ok (by omega)]
    simp only [bind,Except.bind]
    rw [u32Add_ok (by omega)]
    rfl
  | precommit hid => exact if_pos hid
  | priv hid =>
    simp only [WitnessLayout.get]
    rw [h.privateIndexMap,indexMap_lookup h.priv_le,if_pos hid]
    rfl

theorem get_dead (hd : Dead derivedAlive privateAlive wire) :
    layout.get wire = .ok none := by
  obtain ⟨kind,id⟩ := wire
  cases kind with
  | constant => exact hd.elim
  | inOut => exact hd.elim
  | precommit => exact hd.elim
  | derived =>
    simp only [WitnessLayout.get]
    rw [h.derivedIndexMap,indexMap_lookup h.derived_le,if_neg hd]
    rfl
  | priv =>
    simp only [WitnessLayout.get]
    rw [h.privateIndexMap,indexMap_lookup h.priv_le,if_neg hd]
    rfl

theorem slot_of_get
    (hg : layout.get wire = .ok (some index)) : Slot layout derivedAlive privateAlive wire index := by
  have hplace : (∃ i, Slot layout derivedAlive privateAlive wire i) ∨
      layout.get wire = .ok none ∨ layout.get wire = .error .wireOutOfRange := by
    obtain ⟨kind,id⟩ := wire
    cases kind with
    | constant =>
      by_cases hid : id < layout.constants.length
      · exact inl ⟨_,.constant hid⟩
      · exact inr (inr (if_neg hid))
    | inOut =>
      by_cases hid : id < layout.nInout
      · exact inl ⟨_,.inOut hid⟩
      · exact inr (inr (if_neg hid))
    | derived =>
      by_cases hid : derivedAlive[id]? = some true
      · exact inl ⟨_,.derived hid⟩
      · exact inr (inl (h.get_dead hid))
    | precommit =>
      by_cases hid : id < layout.nPrecommit
      · exact inl ⟨_,.precommit hid⟩
      · exact inr (inr (if_neg hid))
    | priv =>
      by_cases hid : privateAlive[id]? = some true
      · exact inl ⟨_,.priv hid⟩
      · exact inr (inl (h.get_dead hid))
  rcases hplace with ⟨i,hi⟩ | hnone | herr
  · rw [h.get_slot hi] at hg
    cases hg
    exact hi
  · rw [hnone] at hg
    cases hg
  · rw [herr] at hg
    cases hg

theorem index_lt
    (hs : Slot layout derivedAlive privateAlive wire index) :
    index.index < layout.size index.segment := by
  have hpub := h.pub_fits
  have hpre := h.precommit_fits
  have hpriv := h.priv_fits
  cases hs with
  | constant hid =>
    simp only
    omega
  | inOut hid =>
    simp only
    omega
  | derived hid =>
    have hpos := position_lt hid
    simp only
    omega
  | precommit hid => exact hid.trans_le hpre
  | priv hid => exact (position_lt hid).trans_le hpriv

end Laid

theorem Slot.injective {layout : WitnessLayout F}
    {wire other : ConstraintWire} {index : WitnessIndex}
    (hw : Slot layout derivedAlive privateAlive wire index)
    (ho : Slot layout derivedAlive privateAlive other index) : wire = other := by
  cases hw with
  | constant hid =>
    cases ho with
    | constant hid' => rfl
    | inOut hid' => omega
    | derived hid' => omega
  | inOut hid =>
    generalize hplace : layout.constants.length + _ = place at ho
    cases ho with
    | constant hid' => omega
    | inOut hid' =>
      congr 1
      omega
    | derived hid' => omega
  | derived hid =>
    generalize hplace : layout.constants.length + layout.nInout + _ = place at ho
    cases ho with
    | constant hid' => omega
    | inOut hid' => omega
    | derived hid' =>
      have hsame := position_injective hid hid' (by omega)
      rw [hsame]
  | precommit hid =>
    cases ho
    rfl
  | priv hid =>
    generalize hplace : position privateAlive _ = place at ho
    cases ho with
    | priv hid' =>
      have hsame := position_injective hid hid' hplace
      rw [hsame]

end Layout

end Binius64.Spartan
