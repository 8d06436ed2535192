import Binius64.EvalForm
import Binius64.WireConstraints

/-!
# The gate graph

Wires, gates and the graph a circuit is built into, with the rewriting of reads the passes are made
of.
-/

namespace Binius64.GateGraph

open MachineWord EvalForm WireConstraints

inductive WireKind where
  | constant (word : Word)
  /-- A public value, declared or promoted. -/
  | inOut
  | witness
  /-- A wire created inside a gate. -/
  | internal
  /-- A temporary used only during evaluation. -/
  | scratch
deriving DecidableEq

namespace WireKind

def isConst : WireKind → Bool
  | constant _ => true
  | _ => false

end WireKind

/-- The fixed-shape operations. -/
inductive Opcode where
  | band
  | bxor
  /-- Exclusive or of any number of inputs. -/
  | bxorMulti
  | bor
  | fax
  | select
  /-- 64-bit addition with carries. -/
  | iaddCinCout
  | iadd32
  /-- Two 32-bit additions with carries. -/
  | iadd32CinCout
  /-- 64-bit subtraction with borrows. -/
  | isubBinBout
  | imul
  /-- Product in the GHASH field. -/
  | bmul
  /-- Shift or rotation by a fixed amount. -/
  | shift
  | icmpUlt
  | icmpEq
  /-- Assertion that two inputs agree. -/
  | assertEq
  /-- Assertion that an input is zero. -/
  | assertZero
  /-- Assertion that an input is not zero. -/
  | assertNonZero
  /-- Assertion that the top bit is clear. -/
  | assertFalse
  /-- Assertion that the top bit is set. -/
  | assertTrue
  /-- Assertion that two inputs agree under a condition. -/
  | assertEqCond
deriving DecidableEq

/-- The wires and immediates a gate carries. -/
structure OpcodeShape where
  constIn : List Word
  nIn : ℕ
  nOut : ℕ
  /-- The number of wires the constraints reference but no caller passes. -/
  nAux : ℕ
  nScratch : ℕ
  nImm : ℕ

namespace OpcodeShape

/-- A shape reading inputs and producing outputs, carrying nothing else. -/
def new (nIn nOut : ℕ) : OpcodeShape := ⟨[],nIn,nOut,0,0,0⟩

variable (s : OpcodeShape)

/-- The same shape, reading the given constants ahead of its inputs. -/
def withConsts (constIn : List Word) : OpcodeShape := {s with constIn}

def withAux (nAux : ℕ) : OpcodeShape := {s with nAux}

def withScratch (nScratch : ℕ) : OpcodeShape := {s with nScratch}

def withImm (nImm : ℕ) : OpcodeShape := {s with nImm}

end OpcodeShape

def Opcode.shape (dimensions : List ℕ) : Opcode → OpcodeShape
  | band => .new 2 1
  | bxor => .new 2 1
  -- The input count comes from the one dimension.
  | bxorMulti => .new (dimensions.headD 0) 1
  | bor => .new 2 1
  | fax => .new 3 1
  | select => .new 3 1
  | iaddCinCout => .new 3 2
  | iadd32 => .new 2 2
  | iadd32CinCout => .new 3 2
  | isubBinBout => (OpcodeShape.new 3 2).withConsts [allOne]
  | imul => .new 2 2
  | bmul => .new 4 2
  | shift => (OpcodeShape.new 1 1).withImm 2
  | icmpUlt => ((OpcodeShape.new 2 1).withConsts [allOne]).withScratch 1
  | icmpEq => (((OpcodeShape.new 2 1).withConsts [allOne,msbOne]).withAux 1).withScratch 1
  | assertEq => .new 2 0
  | assertZero => .new 1 0
  | assertNonZero => ((OpcodeShape.new 1 0).withConsts [allOne]).withAux 1
  | assertFalse => .new 1 0
  | assertTrue => (OpcodeShape.new 1 0).withConsts [allOne]
  | assertEqCond => .new 3 0

inductive GateBody where
  | op (opcode : Opcode)
  /-- A prover-side computation. -/
  | hint (id : HintId)
deriving DecidableEq

/-- One gate: what it does, its wires in the groups its shape declares, its
immediates and dimensions, and the path its assertion is reported under. -/
structure GateData where
  body : GateBody
  constants : List Wire
  inputs : List Wire
  outputs : List Wire
  aux : List Wire
  scratch : List Wire
  immediates : List ℕ
  dimensions : List ℕ
  path : PathSpec
deriving DecidableEq

namespace GateData

variable (g : GateData)

/-- All the wires, in their layout order. -/
def wires : List Wire :=
  g.constants ++ g.inputs ++ g.outputs ++ g.aux ++ g.scratch

def reads : List Wire := g.constants ++ g.inputs

def writes : List Wire := g.outputs ++ g.aux ++ g.scratch

def shape (hints : HintRegistry) (g : GateData) : OpcodeShape :=
  match g.body with
  | .op opcode => opcode.shape g.dimensions
  | .hint id => .new ((hints id).shape g.dimensions).1 ((hints id).shape g.dimensions).2

def mapWires (f : Wire → Wire) (g : GateData) : GateData :=
  {g with
    constants := g.constants.map f
    inputs := g.inputs.map f
    outputs := g.outputs.map f
    aux := g.aux.map f
    scratch := g.scratch.map f}

theorem mem_wires {g : GateData} {w : Wire} : w ∈ g.wires ↔ w ∈ g.reads ∨ w ∈ g.writes := by
  simp only [wires,reads,writes,List.mem_append]
  tauto

end GateData

abbrev GateId := ℕ

/-- The graph: its gates in construction order and the kind of every wire. -/
structure Graph where
  gates : List GateData
  wires : List WireKind
deriving DecidableEq

namespace Graph

variable (graph : Graph)

def findConstant (word : Word) : Option Wire :=
  graph.wires.findIdx? fun kind => kind = .constant word

def addWire (kind : WireKind) : Graph × Wire :=
  ({graph with wires := graph.wires ++ [kind]},graph.wires.length)

def addConstant (word : Word) : Graph × Wire :=
  match graph.findConstant word with
  | some w => (graph,w)
  | none => graph.addWire (.constant word)

def new : Graph := ((⟨[],[]⟩ : Graph).addConstant allOne).1

def addConstants : Graph → List Word → Graph × List Wire
  | graph, [] => (graph,[])
  | graph, word :: rest =>
    let (graph,w) := graph.addConstant word
    let (graph,ws) := graph.addConstants rest
    (graph,w :: ws)

def addWires (kind : WireKind) : Graph → ℕ → Graph × List Wire
  | graph, 0 => (graph,[])
  | graph, n + 1 =>
    let (graph,w) := graph.addWire kind
    let (graph,ws) := addWires kind graph n
    (graph,w :: ws)

def emitHintGate (path : PathSpec) (id : HintId) (dimensions : List ℕ)
    (inputs outputs : List Wire) : Graph :=
  {graph with gates := graph.gates ++
    [⟨.hint id,[],inputs,outputs,[],[],[],dimensions,path⟩]}

variable (w : Wire)

def constOf : Option Word :=
  match graph.wires[w]? with
  | some (.constant word) => some word
  | _ => none

/-- Whether a wire is a public one. -/
def isInout : Bool :=
  graph.wires[w]? = some .inOut

def wireDef : Option GateId :=
  ((List.range graph.gates.length).filter fun i =>
    (graph.gates[i]?.any fun g => w ∈ g.outputs ++ g.aux)).getLast?

def wireUses : List GateId :=
  (List.range graph.gates.length).filter fun i =>
    graph.gates[i]?.any fun g => w ∈ g.reads

def substWire (old new w : Wire) : Wire := if w = old then new else w

def replaceGateWire (gate : GateId) (old new : Wire) : Graph × ℕ :=
  ({graph with gates := graph.gates.modify gate (GateData.mapWires (substWire old new))},
    ((graph.gates[gate]?.map fun g => g.wires.count old).getD 0))

structure WireReplacement where
  nSlotsRewritten : ℕ
  affectedGates : List GateId

def replaceInGates (old new : Wire) : Graph → List GateId → Graph × ℕ
  | graph, [] => (graph,0)
  | graph, gate :: rest =>
    let (graph,n) := graph.replaceGateWire gate old new
    let (graph,m) := replaceInGates old new graph rest
    (graph,n + m)

variable (uses : Wire → List GateId)

/-- Replace every use of a wire, the uses being those of a built index. -/
def replaceWireWithWire (old new : Wire) : Graph × WireReplacement :=
  if new = old then (graph,⟨0,[]⟩)
  else
    let (graph,n) := replaceInGates old new graph (uses old)
    (graph,⟨n,uses old⟩)

def replaceWireWithConstant (old : Wire) (value : Word) : Graph × WireReplacement :=
  let (graph,constWire) := graph.addConstant value
  graph.replaceWireWithWire uses old constWire

end Graph

end Binius64.GateGraph
