import Binius64.SpartanFinalize

/-!
# Circuits and their three builders

A circuit function is generic over its builder, so it is a list of operations whose operands are
earlier results.
-/

namespace Binius64.Spartan

open ParityList

structure CircuitBuilder (F S W : Type) where
  inout : ℕ → S → Except Failure (W × S)
  precommit : ℕ → S → Except Failure (W × S)
  assertZero : W → S → Except Failure S
  assertEq : W → W → S → Except Failure S
  constant : F → S → Except Failure (W × S)
  add : W → W → S → Except Failure (W × S)
  mul : W → W → S → Except Failure (W × S)
  hint : List W → ℕ → (List F → List F) → S → Except Failure (List W × S)

/-- An operation of a circuit; operands are positions among the wires handed out so far. -/
inductive Op (F : Type) where
  | inout
  | precommit
  /-- Require a wire to be zero. -/
  | assertZero (wire : ℕ)
  /-- Require two wires to be equal. -/
  | assertEq (lhs rhs : ℕ)
  | constant (val : F)
  /-- The sum of two wires; a difference is the same operation. -/
  | add (lhs rhs : ℕ)
  | mul (lhs rhs : ℕ)
  /-- The outputs of a closure on the values of some wires. -/
  | hint (inputs : List ℕ) (outLen : ℕ) (f : List F → List F)

def wireAt {W : Type} (env : List W) (i : ℕ) : Except Failure W :=
  match env[i]? with
  | some wire => .ok wire
  | none => .error .unbound

namespace Op

variable {F S W : Type}

/-- Run one operation: the wires handed out so far grow by its results. -/
def run (builder : CircuitBuilder F S W) (state : List W × S) (op : Op F) :
    Except Failure (List W × S) :=
  match op with
  | inout => do
    let (wire,s) ← builder.inout state.1.length state.2
    return (state.1 ++ [wire],s)
  | precommit => do
    let (wire,s) ← builder.precommit state.1.length state.2
    return (state.1 ++ [wire],s)
  | assertZero wire => do
    let s ← builder.assertZero (← wireAt state.1 wire) state.2
    return (state.1,s)
  | assertEq lhs rhs => do
    let s ← builder.assertEq (← wireAt state.1 lhs) (← wireAt state.1 rhs) state.2
    return (state.1,s)
  | constant val => do
    let (wire,s) ← builder.constant val state.2
    return (state.1 ++ [wire],s)
  | add lhs rhs => do
    let (wire,s) ← builder.add (← wireAt state.1 lhs) (← wireAt state.1 rhs) state.2
    return (state.1 ++ [wire],s)
  | mul lhs rhs => do
    let (wire,s) ← builder.mul (← wireAt state.1 lhs) (← wireAt state.1 rhs) state.2
    return (state.1 ++ [wire],s)
  | hint inputs outLen f => do
    let (wires,s) ← builder.hint (← inputs.mapM (wireAt state.1)) outLen f state.2
    return (state.1 ++ wires,s)

end Op

def runCircuit {F S W : Type} (builder : CircuitBuilder F S W) (circuit : List (Op F)) (s : S) :
    Except Failure (List W × S) :=
  circuit.foldlM (Op.run builder) ([],s)

def constraintBuilder {F : Type} [DecidableEq F] :
    CircuitBuilder F (ConstraintSystemIR F) ConstraintWire where
  inout _ ir := ConstraintBuilder.allocInout ir
  precommit _ ir := ConstraintBuilder.allocPrecommit ir
  assertZero wire ir := .ok (ConstraintBuilder.assertZero wire ir)
  assertEq lhs rhs ir := .ok (ConstraintBuilder.assertEq lhs rhs ir)
  constant val ir := ConstraintBuilder.constant val ir
  add lhs rhs ir := ConstraintBuilder.add lhs rhs ir
  mul lhs rhs ir := ConstraintBuilder.mul lhs rhs ir
  hint inputs outLen _ ir := ConstraintBuilder.hint inputs outLen ir

structure WitnessWire (F : Type) where
  val : F
  segment : WitnessSegment

def WitnessWire.isPublic {F : Type} (wire : WitnessWire F) : Bool := wire.segment = .pub

structure WitnessGenerator (F : Type) where
  derivedAlloc : WireAllocator .derived
  privateAlloc : WireAllocator .priv
  values : Witness F
  firstError : Bool

namespace WitnessGenerator

variable {F : Type}

variable (layout : WitnessLayout F)

def publicStart [Zero F] : Except Failure (List F) :=
  if layout.constants.length ≤ layout.size .pub then
    .ok (layout.constants ++ List.replicate (layout.size .pub - layout.constants.length) 0)
  else .error .indexOutOfBounds

/-- Nothing written but the constants. -/
def new [Zero F] : Except Failure (WitnessGenerator F) := do
  let pub ← publicStart layout
  return ⟨.new _,.new _,⟨pub,List.replicate (layout.size .precommit) 0,
    List.replicate (layout.size .priv) 0⟩,false⟩

variable (wire : ConstraintWire) (value : F)

def writeValue (gen : WitnessGenerator F) : Except Failure (WitnessWire F × WitnessGenerator F) := do
  match ← layout.get wire with
  | some index =>
    let part ← setAt (gen.values.part index.segment) index.index value
    return (⟨value,wire.kind.segment⟩,{ gen with values := gen.values.setPart index.segment part })
  | none => return (⟨value,wire.kind.segment⟩,gen)

def allocOpValue (allDerivable : Bool) (value : F)
    (gen : WitnessGenerator F) : Except Failure (WitnessWire F × WitnessGenerator F) := do
  if allDerivable then
    let (wire,derivedAlloc) ← gen.derivedAlloc.alloc
    writeValue layout wire value { gen with derivedAlloc := derivedAlloc }
  else
    let (wire,privateAlloc) ← gen.privateAlloc.alloc
    writeValue layout wire value { gen with privateAlloc := privateAlloc }

def writeInout (gen : WitnessGenerator F) : Except Failure (WitnessWire F × WitnessGenerator F) :=
  if wire.kind = .inOut then writeValue layout wire value gen else .error .wrongKind

def writePrecommit (gen : WitnessGenerator F) : Except Failure (WitnessWire F × WitnessGenerator F) :=
  if wire.kind = .precommit then writeValue layout wire value gen else .error .wrongKind

variable (gen : WitnessGenerator F)

/-- Note a failed assertion. -/
def recordError : WitnessGenerator F := { gen with firstError := true }

/-- Write a number of results. -/
def allocOpValues (layout : WitnessLayout F) (allDerivable : Bool) :
    List F → WitnessGenerator F → Except Failure (List (WitnessWire F) × WitnessGenerator F)
  | [], gen => .ok ([],gen)
  | value :: values, gen => do
    let (wire,gen) ← allocOpValue layout allDerivable value gen
    let (wires,gen) ← allocOpValues layout allDerivable values gen
    return (wire :: wires,gen)

/-- The outputs of a hint: the closure has to return as many as announced. -/
def hint (inputs : List (WitnessWire F)) (outLen : ℕ)
    (f : List F → List F) (gen : WitnessGenerator F) :
    Except Failure (List (WitnessWire F) × WitnessGenerator F) :=
  let allDerivable := inputs.all WitnessWire.isPublic
  let outputs := f (inputs.map WitnessWire.val)
  if outputs.length = outLen then allocOpValues layout allDerivable outputs gen
  else .error .outputCount

def build : Option (Witness F) :=
  if gen.firstError then none else some gen.values

end WitnessGenerator

/-- The builder that computes the witness; the inputs are written at the wires the constraint
builder handed out for them. -/
def witnessGenerator {F : Type} [Field F] [DecidableEq F] (layout : WitnessLayout F)
    (wires : List ConstraintWire) (inputs : ConstraintWire → F) :
    CircuitBuilder F (WitnessGenerator F) (WitnessWire F) where
  inout position gen := do
    let wire ← wireAt wires position
    WitnessGenerator.writeInout layout wire (inputs wire) gen
  precommit position gen := do
    let wire ← wireAt wires position
    WitnessGenerator.writePrecommit layout wire (inputs wire) gen
  assertZero wire gen := .ok (if wire.val ≠ 0 then gen.recordError else gen)
  assertEq lhs rhs gen := .ok (if lhs.val ≠ rhs.val then gen.recordError else gen)
  constant val gen := .ok (⟨val,.pub⟩,gen)
  add lhs rhs gen :=
    gen.allocOpValue layout (lhs.isPublic && rhs.isPublic) (lhs.val + rhs.val)
  mul lhs rhs gen :=
    gen.allocOpValue layout (lhs.isPublic && rhs.isPublic) (lhs.val * rhs.val)
  hint inputs outLen f gen := gen.hint layout inputs outLen f

structure InstanceGenerator (F : Type) where
  derivedAlloc : WireAllocator .derived
  pub : List F

namespace InstanceGenerator

variable {F : Type}

variable (layout : WitnessLayout F)

/-- Nothing written but the constants. -/
def new [Zero F] : Except Failure (InstanceGenerator F) := do
  let pub ← WitnessGenerator.publicStart layout
  return ⟨.new _,pub⟩

variable (wire : ConstraintWire) (value : F) (gen : InstanceGenerator F)

def writePublic : Except Failure (Option F × InstanceGenerator F) := do
  match ← layout.get wire with
  | some index =>
    if index.segment ≠ .pub then throw .wrongKind
    let pub ← setAt gen.pub index.index value
    return (some value,{ gen with pub := pub })
  | none => return (some value,gen)

def writeInout : Except Failure (Option F × InstanceGenerator F) :=
  if wire.kind = .inOut then writePublic layout wire value gen else .error .wrongKind

/-- A secret input has no value. -/
def placeholderPrecommit : Except Failure (Option F × InstanceGenerator F) :=
  if wire.kind = .precommit then .ok (none,gen) else .error .wrongKind

def allocDerived : Except Failure (Option F × InstanceGenerator F) := do
  let (wire,derivedAlloc) ← gen.derivedAlloc.alloc
  writePublic layout wire value { gen with derivedAlloc := derivedAlloc }

/-- The result of an operation on two wires: derived when both have a value. -/
def binary (op : F → F → F) (lhs rhs : Option F)
    (gen : InstanceGenerator F) : Except Failure (Option F × InstanceGenerator F) :=
  match lhs, rhs with
  | some lhs, some rhs => allocDerived layout (op lhs rhs) gen
  | _, _ => .ok (none,gen)

def allocDerivedValues (layout : WitnessLayout F) :
    List F → InstanceGenerator F → Except Failure (List (Option F) × InstanceGenerator F)
  | [], gen => .ok ([],gen)
  | value :: values, gen => do
    let (wire,gen) ← allocDerived layout value gen
    let (wires,gen) ← allocDerivedValues layout values gen
    return (wire :: wires,gen)

/-- The outputs of a hint: derived when every input has a value, else without one. -/
def hint (inputs : List (Option F)) (outLen : ℕ) (f : List F → List F) (gen : InstanceGenerator F) :
    Except Failure (List (Option F) × InstanceGenerator F) :=
  if inputs.all Option.isSome then
    let outputs := f (inputs.filterMap id)
    if outputs.length = outLen then allocDerivedValues layout outputs gen
    else .error .outputCount
  else .ok (List.replicate outLen none,gen)

end InstanceGenerator

/-- The builder that computes the public values. -/
def instanceGenerator {F : Type} [Field F] (layout : WitnessLayout F)
    (wires : List ConstraintWire) (inputs : ConstraintWire → F) :
    CircuitBuilder F (InstanceGenerator F) (Option F) where
  inout position gen := do
    let wire ← wireAt wires position
    InstanceGenerator.writeInout layout wire (inputs wire) gen
  precommit position gen := do
    let wire ← wireAt wires position
    InstanceGenerator.placeholderPrecommit wire gen
  assertZero _ gen := .ok gen
  assertEq _ _ gen := .ok gen
  constant val gen := .ok (some val,gen)
  add lhs rhs gen := gen.binary layout (· + ·) lhs rhs
  mul lhs rhs gen := gen.binary layout (· * ·) lhs rhs
  hint inputs outLen f gen := gen.hint layout inputs outLen f

end Binius64.Spartan
