import Binius64.GateKinds
import Binius64.CarryChain

/-!
# What the gates mean

The two emitters of each gate kind are tied to one evaluation of the gate: the folding of constant
inputs.
-/

namespace Binius64.GateSemantics

open MachineWord ShiftAlgebra GhashField WireConstraints EvalForm GateGraph List GateKinds

def append (first second : ConstraintBuilder) : ConstraintBuilder where
  andConstraints := first.andConstraints ++ second.andConstraints
  imulConstraints := first.imulConstraints ++ second.imulConstraints
  bmulConstraints := first.bmulConstraints ++ second.bmulConstraints
  linearConstraints := first.linearConstraints ++ second.linearConstraints
  zeroConstraints := first.zeroConstraints ++ second.zeroConstraints

@[simp] theorem append_new (cb : ConstraintBuilder) : append cb .new = cb := by
  simp only [append,ConstraintBuilder.new,append_nil]

theorem and_append (cb d : ConstraintBuilder) (a b c : WireExpr) :
    (append cb d).and a b c = append cb (d.and a b c) := by
  simp only [append,ConstraintBuilder.and,append_assoc]

theorem imul_append (cb d : ConstraintBuilder) (a b hi lo : WireExpr) :
    (append cb d).imul a b hi lo = append cb (d.imul a b hi lo) := by
  simp only [append,ConstraintBuilder.imul,append_assoc]

theorem bmul_append (cb d : ConstraintBuilder) (aLo aHi bLo bHi cLo cHi : WireExpr) :
    (append cb d).bmul aLo aHi bLo bHi cLo cHi = append cb (d.bmul aLo aHi bLo bHi cLo cHi) := by
  simp only [append,ConstraintBuilder.bmul,append_assoc]

theorem linear_append (cb d : ConstraintBuilder) (rhs : WireExpr) (dst : Wire) :
    (append cb d).linear rhs dst = append cb (d.linear rhs dst) := by
  simp only [append,ConstraintBuilder.linear,append_assoc]

theorem zero_append (cb d : ConstraintBuilder) (val : WireExpr) :
    (append cb d).zero val = append cb (d.zero val) := by
  simp only [append,ConstraintBuilder.zero,append_assoc]

theorem append_holds {σ : Assignment} (first second : ConstraintBuilder) :
    (append first second).Holds σ ↔ first.Holds σ ∧ second.Holds σ := by
  constructor
  · rintro ⟨hand,himul,hbmul,hlin,hzero⟩
    simp only [append,forall_mem_append] at hand himul hbmul hlin hzero
    exact ⟨⟨hand.1,himul.1,hbmul.1,hlin.1,hzero.1⟩,⟨hand.2,himul.2,hbmul.2,hlin.2,hzero.2⟩⟩
  · rintro ⟨⟨hand,himul,hbmul,hlin,hzero⟩,⟨hand',himul',hbmul',hlin',hzero'⟩⟩
    exact ⟨forall_mem_append.mpr ⟨hand,hand'⟩,forall_mem_append.mpr ⟨himul,himul'⟩,
      forall_mem_append.mpr ⟨hbmul,hbmul'⟩,forall_mem_append.mpr ⟨hlin,hlin'⟩,
      forall_mem_append.mpr ⟨hzero,hzero'⟩⟩

theorem mem_append_operands {first second : ConstraintBuilder} {operand : WireOperand} :
    operand ∈ (append first second).operands ↔
      operand ∈ first.operands ∨ operand ∈ second.operands := by
  simp only [ConstraintBuilder.operands,ConstraintBuilder.rootOperands,append,flatMap_append,
    map_append,mem_append]
  tauto

variable (σ : Assignment)

def evalExpr (e : WireExpr) : Word := evalWires σ e.intoOperand

@[simp] theorem evalExpr_nil : evalExpr σ [] = 0 := rfl

@[simp] theorem evalExpr_wire (w : Wire) (rest : WireExpr) :
    evalExpr σ (.wire w :: rest) = σ w ^^^ evalExpr σ rest := by
  change ShiftAlgebra.Shift.identity.apply (ShiftAlgebra.Shift.identity.apply (σ w)) ^^^
    evalExpr σ rest = _
  rw [Shift.identity_apply,Shift.identity_apply]

@[simp] theorem evalExpr_shifted (w : Wire) (shift : ShiftAlgebra.Shift) (rest : WireExpr) :
    evalExpr σ (.shifted w shift :: rest) = shift.apply (σ w) ^^^ evalExpr σ rest := by
  change ShiftAlgebra.Shift.identity.apply (shift.apply (σ w)) ^^^ evalExpr σ rest = _
  rw [Shift.identity_apply]

@[simp] theorem new_holds : ConstraintBuilder.new.Holds σ :=
  ⟨nofun,nofun,nofun,nofun,nofun⟩

@[simp] theorem and_holds {σ : Assignment} {cb : ConstraintBuilder} {a b c : WireExpr} :
    (cb.and a b c).Holds σ ↔ cb.Holds σ ∧ evalExpr σ a &&& evalExpr σ b = evalExpr σ c := by
  have h := append_holds (σ := σ) cb (ConstraintBuilder.new.and a b c)
  rw [← and_append,append_new] at h
  rw [h]
  refine and_congr_right fun _ => ⟨fun hd => hd.and _ (mem_singleton_self _),fun hd => ?_⟩
  exact ⟨fun c hc => by rw [mem_singleton.mp hc]; exact hd,nofun,nofun,nofun,nofun⟩

@[simp] theorem imul_holds {σ : Assignment} {cb : ConstraintBuilder} {a b hi lo : WireExpr} :
    (cb.imul a b hi lo).Holds σ ↔
      cb.Holds σ ∧ imul (evalExpr σ a) (evalExpr σ b) = (evalExpr σ hi,evalExpr σ lo) := by
  have h := append_holds (σ := σ) cb (ConstraintBuilder.new.imul a b hi lo)
  rw [← imul_append,append_new] at h
  simp only [h,evalExpr]
  refine and_congr_right fun _ => ⟨fun hd => ?_,fun hd => ?_⟩
  · exact hd.imul ⟨a.intoOperand,b.intoOperand,hi.intoOperand,lo.intoOperand⟩
      (mem_singleton_self _)
  · exact ⟨nofun,fun c hc => by rw [mem_singleton.mp hc]; exact hd,nofun,nofun,nofun⟩

@[simp] theorem bmul_holds {σ : Assignment} {cb : ConstraintBuilder}
    {aLo aHi bLo bHi cLo cHi : WireExpr} :
    (cb.bmul aLo aHi bLo bHi cLo cHi).Holds σ ↔
      cb.Holds σ ∧ ghashProduct (ofWords (evalExpr σ aLo) (evalExpr σ aHi))
          (ofWords (evalExpr σ bLo) (evalExpr σ bHi)) =
        ofWords (evalExpr σ cLo) (evalExpr σ cHi) := by
  have h := append_holds (σ := σ) cb
    (ConstraintBuilder.new.bmul aLo aHi bLo bHi cLo cHi)
  rw [← bmul_append,append_new] at h
  simp only [h,evalExpr]
  refine and_congr_right fun _ => ⟨fun hd => ?_,fun hd => ?_⟩
  · exact hd.bmul ⟨aLo.intoOperand,aHi.intoOperand,bLo.intoOperand,bHi.intoOperand,
      cLo.intoOperand,cHi.intoOperand⟩ (mem_singleton_self _)
  · exact ⟨nofun,nofun,fun c hc => by rw [mem_singleton.mp hc]; exact hd,nofun,nofun⟩

@[simp] theorem linear_holds {σ : Assignment} {cb : ConstraintBuilder} {rhs : WireExpr}
    {dst : Wire} : (cb.linear rhs dst).Holds σ ↔ cb.Holds σ ∧ evalExpr σ rhs = σ dst := by
  have h := append_holds (σ := σ) cb (ConstraintBuilder.new.linear rhs dst)
  rw [← linear_append,append_new] at h
  rw [h]
  refine and_congr_right fun _ => ⟨fun hd => hd.linear _ (mem_singleton_self _),fun hd => ?_⟩
  exact ⟨nofun,nofun,nofun,fun c hc => by rw [mem_singleton.mp hc]; exact hd,nofun⟩

@[simp] theorem zero_holds {σ : Assignment} {cb : ConstraintBuilder} {val : WireExpr} :
    (cb.zero val).Holds σ ↔ cb.Holds σ ∧ evalExpr σ val = 0 := by
  have h := append_holds (σ := σ) cb (ConstraintBuilder.new.zero val)
  rw [← zero_append,append_new] at h
  rw [h]
  refine and_congr_right fun _ => ⟨fun hd => hd.zero _ (mem_singleton_self _),fun hd => ?_⟩
  exact ⟨nofun,nofun,nofun,nofun,fun c hc => by rw [mem_singleton.mp hc]; exact hd⟩

/-- A term that reads one of the given wires through at most one shift, spelled
canonically. -/
structure SingleTerm (wires : List Wire) (t : ShiftedWire) : Prop where
  mem : t.wire ∈ wires
  canonical : t.shiftSeq.Canonical
  lone : t.shiftSeq.outer.isIdentity = true

/-- Every term of every operand reads one of the given wires through at most one shift. -/
def SingleTerms (wires : List Wire) (cb : ConstraintBuilder) : Prop :=
  ∀ operand ∈ cb.operands, ∀ t ∈ operand, SingleTerm wires t

/-- Every term of an expression reads one of the given wires through at most one shift. -/
def SingleExpr (wires : List Wire) (e : WireExpr) : Prop :=
  ∀ t ∈ e.intoOperand, SingleTerm wires t

@[simp] theorem singleExpr_nil (wires : List Wire) : SingleExpr wires [] := nofun

@[simp] theorem singleExpr_wire {wires : List Wire} {w : Wire} {rest : WireExpr} :
    SingleExpr wires (.wire w :: rest) ↔ w ∈ wires ∧ SingleExpr wires rest := by
  have hcanon : (⟨.identity,.identity⟩ : ShiftSeq).Canonical :=
    ⟨⟨Shift.identity_inRange,Shift.identity_inRange⟩,rfl,rfl,fun _ => rfl,nofun⟩
  simp only [SingleExpr,WireExpr.intoOperand,map_cons,forall_mem_cons]
  exact and_congr_left fun _ => ⟨SingleTerm.mem,fun h => ⟨h,hcanon,rfl⟩⟩

variable {wires : List Wire} {cb : ConstraintBuilder} {hints : HintRegistry} {g : GateData}

theorem singleExpr_shifted {w : Wire} {shift : ShiftAlgebra.Shift}
    {rest : WireExpr} (hr : shift.InRange) (hn : shift.isIdentity = false) :
    SingleExpr wires (.shifted w shift :: rest) ↔ w ∈ wires ∧ SingleExpr wires rest := by
  have hlone := lone_canonical hr
  rw [lone,hn,if_neg Bool.false_ne_true] at hlone
  simp only [SingleExpr,WireExpr.intoOperand,map_cons,forall_mem_cons]
  exact and_congr_left fun _ => ⟨SingleTerm.mem,fun h => ⟨h,hlone,rfl⟩⟩

theorem singleTerms_new (wires : List Wire) : SingleTerms wires .new := nofun

theorem singleTerms_append {first second : ConstraintBuilder} :
    SingleTerms wires (append first second) ↔
      SingleTerms wires first ∧ SingleTerms wires second := by
  simp only [SingleTerms,mem_append_operands,or_imp,forall_and]

theorem singleTerms_and {a b c : WireExpr}
    (h : SingleTerms wires cb) (ha : SingleExpr wires a) (hb : SingleExpr wires b)
    (hc : SingleExpr wires c) : SingleTerms wires (cb.and a b c) := by
  have hd : SingleTerms wires (ConstraintBuilder.new.and a b c) := by
    intro operand ho
    have hmem : operand ∈ [a.intoOperand,b.intoOperand,c.intoOperand] := ho
    simp only [mem_cons,not_mem_nil,or_false] at hmem
    rcases hmem with rfl | rfl | rfl
    · exact ha
    · exact hb
    · exact hc
  have happ := singleTerms_append.mpr ⟨h,hd⟩
  rwa [← and_append,append_new] at happ

theorem singleTerms_imul {a b hi lo : WireExpr}
    (h : SingleTerms wires cb) (ha : SingleExpr wires a) (hb : SingleExpr wires b)
    (hhi : SingleExpr wires hi) (hlo : SingleExpr wires lo) :
    SingleTerms wires (cb.imul a b hi lo) := by
  have hd : SingleTerms wires (ConstraintBuilder.new.imul a b hi lo) := by
    intro operand ho
    have hmem : operand ∈ [a.intoOperand,b.intoOperand,lo.intoOperand,hi.intoOperand] := ho
    simp only [mem_cons,not_mem_nil,or_false] at hmem
    rcases hmem with rfl | rfl | rfl | rfl
    · exact ha
    · exact hb
    · exact hlo
    · exact hhi
  have happ := singleTerms_append.mpr ⟨h,hd⟩
  rwa [← imul_append,append_new] at happ

theorem singleTerms_bmul
    {aLo aHi bLo bHi cLo cHi : WireExpr} (h : SingleTerms wires cb)
    (hall : ∀ e ∈ [aLo,aHi,bLo,bHi,cLo,cHi], SingleExpr wires e) :
    SingleTerms wires (cb.bmul aLo aHi bLo bHi cLo cHi) := by
  have hd : SingleTerms wires (ConstraintBuilder.new.bmul aLo aHi bLo bHi cLo cHi) := by
    intro operand ho
    have hmem : operand ∈ [aLo,aHi,bLo,bHi,cLo,cHi].map WireExpr.intoOperand := ho
    obtain ⟨e,he,rfl⟩ := mem_map.mp hmem
    exact hall e he
  have happ := singleTerms_append.mpr ⟨h,hd⟩
  rwa [← bmul_append,append_new] at happ

theorem singleTerms_linear {rhs : WireExpr}
    {dst : Wire} (h : SingleTerms wires cb) (hrhs : SingleExpr wires rhs) :
    SingleTerms wires (cb.linear rhs dst) := by
  have hd : SingleTerms wires (ConstraintBuilder.new.linear rhs dst) := by
    intro operand ho
    have hmem : operand ∈ [rhs.intoOperand] := ho
    rw [mem_singleton.mp hmem]
    exact hrhs
  have happ := singleTerms_append.mpr ⟨h,hd⟩
  rwa [← linear_append,append_new] at happ

theorem singleTerms_zero {val : WireExpr}
    (h : SingleTerms wires cb) (hval : SingleExpr wires val) :
    SingleTerms wires (cb.zero val) := by
  have hd : SingleTerms wires (ConstraintBuilder.new.zero val) := by
    intro operand ho
    have hmem : operand ∈ [val.intoOperand] := ho
    rw [mem_singleton.mp hmem]
    exact hval
  have happ := singleTerms_append.mpr ⟨h,hd⟩
  rwa [← zero_append,append_new] at happ

/-- The words of a gate's auxiliary and scratch wires, from those of its inputs. -/
def temporaries : GateBody → List Word → List Word
  | .op .icmpUlt, [x,_] => [x ^^^ allOne]
  | .op .icmpEq, [x,y] => [(iaddCinCout allOne (x ^^^ y) 0).2,x ^^^ y]
  | .op .assertNonZero, [x] => [(iaddCinCout allOne x 0).2]
  | _, _ => []

def written (hints : HintRegistry) (g : GateData) (ins : List Word) : List Word :=
  match evaluateGateConstants hints g ins with
  | .ok (.ok outs) => outs ++ temporaries g.body ins
  | _ => temporaries g.body ins

def Evaluates (hints : HintRegistry) (g : GateData) (ins outs : List Word) : Prop :=
  evaluateGateConstants hints g ins = .ok (.ok outs)

def Passes (hints : HintRegistry) (g : GateData) (ins : List Word) : Prop :=
  ∃ outs, Evaluates hints g ins outs

theorem Evaluates.written_eq {ins outs : List Word}
    (h : Evaluates hints g ins outs) : written hints g ins = outs ++ temporaries g.body ins := by
  rw [written,h]

theorem Evaluates.unique {ins outs other : List Word}
    (h : Evaluates hints g ins outs) (h' : Evaluates hints g ins other) : outs = other := by
  rw [Evaluates,h,Except.ok.injEq,Except.ok.injEq] at h'
  exact h'

/-- A gate has the groups its shape declares, and the immediates and dimensions
its kind reads. -/
structure Fits (hints : HintRegistry) (g : GateData) : Prop where
  constants : g.constants.length = (g.shape hints).constIn.length
  inputs : g.inputs.length = (g.shape hints).nIn
  outputs : g.outputs.length = (g.shape hints).nOut
  aux : g.aux.length = (g.shape hints).nAux
  scratch : g.scratch.length = (g.shape hints).nScratch
  shift : g.body = .op .shift → ∃ variant n,
    g.immediates = [ShiftVariant.toU8 variant,n] ∧ n < variant.maxAmount
  bxorMulti : g.body = .op .bxorMulti → g.inputs ≠ []

inductive Shaped (hints : HintRegistry) : GateData → Prop
  | band (x y z imms dims path) : Shaped hints ⟨.op .band,[],[x,y],[z],[],[],imms,dims,path⟩
  | bxor (x y z imms dims path) : Shaped hints ⟨.op .bxor,[],[x,y],[z],[],[],imms,dims,path⟩
  /-- An exclusive or of any number of words. -/
  | bxorMulti (xs z imms dims path) (hne : xs ≠ []) :
    Shaped hints ⟨.op .bxorMulti,[],xs,[z],[],[],imms,dims,path⟩
  | bor (x y z imms dims path) : Shaped hints ⟨.op .bor,[],[x,y],[z],[],[],imms,dims,path⟩
  /-- An AND exclusive-ored with a third word. -/
  | fax (x y w z imms dims path) : Shaped hints ⟨.op .fax,[],[x,y,w],[z],[],[],imms,dims,path⟩
  | select (cond t f out imms dims path) :
    Shaped hints ⟨.op .select,[],[cond,t,f],[out],[],[],imms,dims,path⟩
  /-- A 64-bit addition with carries. -/
  | iaddCinCout (a b cin sum cout imms dims path) :
    Shaped hints ⟨.op .iaddCinCout,[],[a,b,cin],[sum,cout],[],[],imms,dims,path⟩
  | iadd32 (x y z cout imms dims path) :
    Shaped hints ⟨.op .iadd32,[],[x,y],[z,cout],[],[],imms,dims,path⟩
  /-- Two 32-bit additions with carries. -/
  | iadd32CinCout (x y cin z cout imms dims path) :
    Shaped hints ⟨.op .iadd32CinCout,[],[x,y,cin],[z,cout],[],[],imms,dims,path⟩
  /-- A 64-bit subtraction with borrows. -/
  | isubBinBout (one a b bin diff bout imms dims path) :
    Shaped hints ⟨.op .isubBinBout,[one],[a,b,bin],[diff,bout],[],[],imms,dims,path⟩
  | imul (x y hi lo imms dims path) :
    Shaped hints ⟨.op .imul,[],[x,y],[hi,lo],[],[],imms,dims,path⟩
  /-- A product in the GHASH field. -/
  | bmul (aLo aHi bLo bHi cLo cHi imms dims path) :
    Shaped hints ⟨.op .bmul,[],[aLo,aHi,bLo,bHi],[cLo,cHi],[],[],imms,dims,path⟩
  /-- A shift by an amount in the variant's range. -/
  | shift (x z n dims path) (variant : ShiftVariant) (hn : n < variant.maxAmount) :
    Shaped hints ⟨.op .shift,[],[x],[z],[],[],[variant.toU8,n],dims,path⟩
  | icmpUlt (one x y bout negated imms dims path) :
    Shaped hints ⟨.op .icmpUlt,[one],[x,y],[bout],[],[negated],imms,dims,path⟩
  | icmpEq (one msb x y out cout diff imms dims path) :
    Shaped hints ⟨.op .icmpEq,[one,msb],[x,y],[out],[cout],[diff],imms,dims,path⟩
  | assertEq (x y imms dims path) : Shaped hints ⟨.op .assertEq,[],[x,y],[],[],[],imms,dims,path⟩
  | assertZero (x imms dims path) : Shaped hints ⟨.op .assertZero,[],[x],[],[],[],imms,dims,path⟩
  | assertNonZero (one x cout imms dims path) :
    Shaped hints ⟨.op .assertNonZero,[one],[x],[],[cout],[],imms,dims,path⟩
  /-- The assertion that the top bit is clear. -/
  | assertFalse (x imms dims path) :
    Shaped hints ⟨.op .assertFalse,[],[x],[],[],[],imms,dims,path⟩
  /-- The assertion that the top bit is set. -/
  | assertTrue (one x imms dims path) :
    Shaped hints ⟨.op .assertTrue,[one],[x],[],[],[],imms,dims,path⟩
  /-- A conditional equality assertion. -/
  | assertEqCond (x y cond imms dims path) :
    Shaped hints ⟨.op .assertEqCond,[],[x,y,cond],[],[],[],imms,dims,path⟩
  /-- A hint with the numbers of inputs and outputs it declares. -/
  | hint (id ins outs imms dims path) (hin : ins.length = ((hints id).shape dims).1)
    (hout : outs.length = ((hints id).shape dims).2) :
    Shaped hints ⟨.hint id,[],ins,outs,[],[],imms,dims,path⟩

theorem length_eq_four {α : Type} {xs : List α} : xs.length = 4 ↔ ∃ a b c d, xs = [a,b,c,d] := by
  constructor
  · intro h
    match xs, h with
    | [a,b,c,d], _ => exact ⟨a,b,c,d,rfl⟩
  · rintro ⟨a,b,c,d,rfl⟩
    rfl

theorem nil_and_nil {a b : List Wire} (ha : a.length = 0) (hb : b.length = 0) : a = [] ∧ b = [] :=
  ⟨length_eq_zero_iff.mp ha,length_eq_zero_iff.mp hb⟩

theorem Fits.shaped (h : Fits hints g) : Shaped hints g := by
  obtain ⟨hconst,hin,hout,haux,hscratch,hshift,hmulti⟩ := h
  obtain ⟨body,constants,inputs,outputs,aux,scratch,imms,dims,path⟩ := g
  cases body with
  | hint id =>
    obtain rfl : constants = [] := length_eq_zero_iff.mp hconst
    obtain ⟨rfl,rfl⟩ := nil_and_nil haux hscratch
    exact .hint id inputs outputs imms dims path hin hout
  | op opcode =>
    cases opcode with
    | band =>
      obtain rfl : constants = [] := length_eq_zero_iff.mp hconst
      obtain ⟨x,y,rfl⟩ := length_eq_two.mp hin
      obtain ⟨z,rfl⟩ := length_eq_one_iff.mp hout
      obtain ⟨rfl,rfl⟩ := nil_and_nil haux hscratch
      exact .band x y z imms dims path
    | bxor =>
      obtain rfl : constants = [] := length_eq_zero_iff.mp hconst
      obtain ⟨x,y,rfl⟩ := length_eq_two.mp hin
      obtain ⟨z,rfl⟩ := length_eq_one_iff.mp hout
      obtain ⟨rfl,rfl⟩ := nil_and_nil haux hscratch
      exact .bxor x y z imms dims path
    | bxorMulti =>
      obtain rfl : constants = [] := length_eq_zero_iff.mp hconst
      obtain ⟨z,rfl⟩ := length_eq_one_iff.mp hout
      obtain ⟨rfl,rfl⟩ := nil_and_nil haux hscratch
      exact .bxorMulti inputs z imms dims path (hmulti rfl)
    | bor =>
      obtain rfl : constants = [] := length_eq_zero_iff.mp hconst
      obtain ⟨x,y,rfl⟩ := length_eq_two.mp hin
      obtain ⟨z,rfl⟩ := length_eq_one_iff.mp hout
      obtain ⟨rfl,rfl⟩ := nil_and_nil haux hscratch
      exact .bor x y z imms dims path
    | fax =>
      obtain rfl : constants = [] := length_eq_zero_iff.mp hconst
      obtain ⟨x,y,w,rfl⟩ := length_eq_three.mp hin
      obtain ⟨z,rfl⟩ := length_eq_one_iff.mp hout
      obtain ⟨rfl,rfl⟩ := nil_and_nil haux hscratch
      exact .fax x y w z imms dims path
    | select =>
      obtain rfl : constants = [] := length_eq_zero_iff.mp hconst
      obtain ⟨cond,t,f,rfl⟩ := length_eq_three.mp hin
      obtain ⟨out,rfl⟩ := length_eq_one_iff.mp hout
      obtain ⟨rfl,rfl⟩ := nil_and_nil haux hscratch
      exact .select cond t f out imms dims path
    | iaddCinCout =>
      obtain rfl : constants = [] := length_eq_zero_iff.mp hconst
      obtain ⟨a,b,cin,rfl⟩ := length_eq_three.mp hin
      obtain ⟨sum,cout,rfl⟩ := length_eq_two.mp hout
      obtain ⟨rfl,rfl⟩ := nil_and_nil haux hscratch
      exact .iaddCinCout a b cin sum cout imms dims path
    | iadd32 =>
      obtain rfl : constants = [] := length_eq_zero_iff.mp hconst
      obtain ⟨x,y,rfl⟩ := length_eq_two.mp hin
      obtain ⟨z,cout,rfl⟩ := length_eq_two.mp hout
      obtain ⟨rfl,rfl⟩ := nil_and_nil haux hscratch
      exact .iadd32 x y z cout imms dims path
    | iadd32CinCout =>
      obtain rfl : constants = [] := length_eq_zero_iff.mp hconst
      obtain ⟨x,y,cin,rfl⟩ := length_eq_three.mp hin
      obtain ⟨z,cout,rfl⟩ := length_eq_two.mp hout
      obtain ⟨rfl,rfl⟩ := nil_and_nil haux hscratch
      exact .iadd32CinCout x y cin z cout imms dims path
    | isubBinBout =>
      obtain ⟨one,rfl⟩ := length_eq_one_iff.mp hconst
      obtain ⟨a,b,bin,rfl⟩ := length_eq_three.mp hin
      obtain ⟨diff,bout,rfl⟩ := length_eq_two.mp hout
      obtain ⟨rfl,rfl⟩ := nil_and_nil haux hscratch
      exact .isubBinBout one a b bin diff bout imms dims path
    | imul =>
      obtain rfl : constants = [] := length_eq_zero_iff.mp hconst
      obtain ⟨x,y,rfl⟩ := length_eq_two.mp hin
      obtain ⟨hi,lo,rfl⟩ := length_eq_two.mp hout
      obtain ⟨rfl,rfl⟩ := nil_and_nil haux hscratch
      exact .imul x y hi lo imms dims path
    | bmul =>
      obtain rfl : constants = [] := length_eq_zero_iff.mp hconst
      obtain ⟨aLo,aHi,bLo,bHi,rfl⟩ := length_eq_four.mp hin
      obtain ⟨cLo,cHi,rfl⟩ := length_eq_two.mp hout
      obtain ⟨rfl,rfl⟩ := nil_and_nil haux hscratch
      exact .bmul aLo aHi bLo bHi cLo cHi imms dims path
    | shift =>
      obtain rfl : constants = [] := length_eq_zero_iff.mp hconst
      obtain ⟨x,rfl⟩ := length_eq_one_iff.mp hin
      obtain ⟨z,rfl⟩ := length_eq_one_iff.mp hout
      obtain ⟨rfl,rfl⟩ := nil_and_nil haux hscratch
      obtain ⟨variant,n,rfl,hn⟩ := hshift rfl
      exact .shift x z n dims path variant hn
    | icmpUlt =>
      obtain ⟨one,rfl⟩ := length_eq_one_iff.mp hconst
      obtain ⟨x,y,rfl⟩ := length_eq_two.mp hin
      obtain ⟨bout,rfl⟩ := length_eq_one_iff.mp hout
      obtain rfl : aux = [] := length_eq_zero_iff.mp haux
      obtain ⟨negated,rfl⟩ := length_eq_one_iff.mp hscratch
      exact .icmpUlt one x y bout negated imms dims path
    | icmpEq =>
      obtain ⟨one,msb,rfl⟩ := length_eq_two.mp hconst
      obtain ⟨x,y,rfl⟩ := length_eq_two.mp hin
      obtain ⟨out,rfl⟩ := length_eq_one_iff.mp hout
      obtain ⟨cout,rfl⟩ := length_eq_one_iff.mp haux
      obtain ⟨diff,rfl⟩ := length_eq_one_iff.mp hscratch
      exact .icmpEq one msb x y out cout diff imms dims path
    | assertEq =>
      obtain rfl : constants = [] := length_eq_zero_iff.mp hconst
      obtain ⟨x,y,rfl⟩ := length_eq_two.mp hin
      obtain rfl : outputs = [] := length_eq_zero_iff.mp hout
      obtain ⟨rfl,rfl⟩ := nil_and_nil haux hscratch
      exact .assertEq x y imms dims path
    | assertZero =>
      obtain rfl : constants = [] := length_eq_zero_iff.mp hconst
      obtain ⟨x,rfl⟩ := length_eq_one_iff.mp hin
      obtain rfl : outputs = [] := length_eq_zero_iff.mp hout
      obtain ⟨rfl,rfl⟩ := nil_and_nil haux hscratch
      exact .assertZero x imms dims path
    | assertNonZero =>
      obtain ⟨one,rfl⟩ := length_eq_one_iff.mp hconst
      obtain ⟨x,rfl⟩ := length_eq_one_iff.mp hin
      obtain rfl : outputs = [] := length_eq_zero_iff.mp hout
      obtain ⟨cout,rfl⟩ := length_eq_one_iff.mp haux
      obtain rfl : scratch = [] := length_eq_zero_iff.mp hscratch
      exact .assertNonZero one x cout imms dims path
    | assertFalse =>
      obtain rfl : constants = [] := length_eq_zero_iff.mp hconst
      obtain ⟨x,rfl⟩ := length_eq_one_iff.mp hin
      obtain rfl : outputs = [] := length_eq_zero_iff.mp hout
      obtain ⟨rfl,rfl⟩ := nil_and_nil haux hscratch
      exact .assertFalse x imms dims path
    | assertTrue =>
      obtain ⟨one,rfl⟩ := length_eq_one_iff.mp hconst
      obtain ⟨x,rfl⟩ := length_eq_one_iff.mp hin
      obtain rfl : outputs = [] := length_eq_zero_iff.mp hout
      obtain ⟨rfl,rfl⟩ := nil_and_nil haux hscratch
      exact .assertTrue one x imms dims path
    | assertEqCond =>
      obtain rfl : constants = [] := length_eq_zero_iff.mp hconst
      obtain ⟨x,y,cond,rfl⟩ := length_eq_three.mp hin
      obtain rfl : outputs = [] := length_eq_zero_iff.mp hout
      obtain ⟨rfl,rfl⟩ := nil_and_nil haux hscratch
      exact .assertEqCond x y cond imms dims path

end Binius64.GateSemantics
