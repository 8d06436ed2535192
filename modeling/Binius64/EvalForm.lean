import Binius64.ValueVector
import Binius64.GhashField
import Binius64.StraightLine

/-!
# The evaluation form

The instructions that derive a circuit's values at witness time, and the executor that runs them
over any number of instances in lockstep.
-/

namespace Binius64.EvalForm

open MachineWord ShiftAlgebra ValueVector GhashField StraightLine List
open Function (update update_of_ne update_self)

/-- A register: the flat position of a word in the value vector. -/
abbrev Reg := ℕ

abbrev PathSpec := ℕ

/-- Registry key for one prover-side computation. -/
abbrev HintId := ℕ

/-- A prover-side computation, which writes every one of its outputs. -/
structure Hint where
  shape : List ℕ → ℕ × ℕ
  execute : List ℕ → List Word → List Word
  execute_length : ∀ dimensions inputs, (execute dimensions inputs).length = (shape dimensions).2

abbrev HintRegistry := HintId → Hint

/-- What a violated assertion required, with the words it saw instead. -/
inductive AssertionDetail where
  | notEqual (lhs rhs : Word)
  /-- The two words differ while the condition holds. -/
  | conditional (lhs rhs : Word)
  | notZero (val : Word)
  | zero (val : Word)
  /-- The word's top bit is set. -/
  | msbTrue (val : Word)
  /-- The word's top bit is clear. -/
  | msbFalse (val : Word)
deriving DecidableEq

structure RecordedFailure where
  pathSpec : PathSpec
  detail : AssertionDetail
deriving DecidableEq

/-- One instruction, with its destination registers before its source registers. -/
inductive EvalInsn where
  | band (dst src1 src2 : Reg)
  | bor (dst src1 src2 : Reg)
  | bxor (dst src1 src2 : Reg)
  /-- The exclusive or of any number of registers. -/
  | bxorMulti (dst : Reg) (srcs : List Reg)
  | fax (dst src1 src2 src3 : Reg)
  /-- One of two registers, by the top bit of a third. -/
  | select (dst cond t f : Reg)
  /-- Any shift or rotation by a fixed amount. -/
  | shift (dst src : Reg) (variant : ShiftVariant) (amount : ℕ)
  /-- Sum and carries out of a 64-bit addition with a carry in. -/
  | iaddCinCout (dstSum dstCout src1 src2 cin : Reg)
  /-- Carries out of a 64-bit addition, whose sum is dropped. -/
  | iaddCarry (dstCout src1 src2 : Reg)
  /-- Difference and borrows out of a 64-bit subtraction with a borrow in. -/
  | isubBinBout (dstDiff dstBout src1 src2 bin : Reg)
  /-- High and low word of a 64-bit product. -/
  | imul (dstHi dstLo src1 src2 : Reg)
  /-- Low and high word of a product in the GHASH field. -/
  | bmul (dstLo dstHi aLo aHi bLo bHi : Reg)
  /-- Sums and carries out of two 32-bit additions with carries in. -/
  | iadd32CinCout (dstSum dstCout src1 src2 cin : Reg)
  /-- Sums and carries out of two 32-bit additions. -/
  | iadd32Cout (dstSum dstCout src1 src2 : Reg)
  /-- Assert that two registers agree. -/
  | assertEq (src1 src2 : Reg) (path : PathSpec)
  /-- Assert that two registers agree when the top bit of a third is set. -/
  | assertEqCond (cond src1 src2 : Reg) (path : PathSpec)
  /-- Assert that a register is zero. -/
  | assertZero (src : Reg) (path : PathSpec)
  /-- Assert that a register is not zero. -/
  | assertNonZero (src : Reg) (path : PathSpec)
  /-- Assert that the top bit of a register is clear. -/
  | assertFalse (src : Reg) (path : PathSpec)
  /-- Assert that the top bit of a register is set. -/
  | assertTrue (src : Reg) (path : PathSpec)
  | hint (id : HintId) (dimensions : List ℕ) (inputs outputs : List Reg)
deriving DecidableEq

/-- What an instruction does to one instance: the registers it loads, what it
makes of their words, and the registers that takes. -/
structure Effect where
  dsts : List Reg
  srcs : List Reg
  compute : List Word → List Word
  violation : List Word → Option RecordedFailure

namespace Effect

def on1 {α : Type} (f : Word → α) (other : α) : List Word → α
  | [a] => f a
  | _ => other

def on2 {α : Type} (f : Word → Word → α) (other : α) : List Word → α
  | [a,b] => f a b
  | _ => other

def on3 {α : Type} (f : Word → Word → Word → α) (other : α) : List Word → α
  | [a,b,c] => f a b c
  | _ => other

def on4 {α : Type} (f : Word → Word → Word → Word → α) (other : α) : List Word → α
  | [a,b,c,d] => f a b c d
  | _ => other

def stores (dsts srcs : List Reg) (compute : List Word → List Word) : Effect :=
  ⟨dsts,srcs,compute,fun _ => none⟩

/-- An instruction that checks words and stores nothing. -/
def checks (srcs : List Reg) (path : PathSpec)
    (violation : List Word → Option AssertionDetail) : Effect :=
  ⟨[],srcs,fun _ => [],fun words => (violation words).map (⟨path,·⟩)⟩

end Effect

open Effect in
def EvalInsn.effect (hints : HintRegistry) : EvalInsn → Effect
  | band dst src1 src2 => stores [dst] [src1,src2] (on2 (fun a b => [a &&& b]) [])
  | bor dst src1 src2 => stores [dst] [src1,src2] (on2 (fun a b => [a ||| b]) [])
  | bxor dst src1 src2 => stores [dst] [src1,src2] (on2 (fun a b => [a ^^^ b]) [])
  | bxorMulti dst srcs => stores [dst] srcs fun words => [words.foldl (· ^^^ ·) 0]
  | fax dst src1 src2 src3 =>
    stores [dst] [src1,src2,src3] (on3 (fun a b c => [(a &&& b) ^^^ c]) [])
  | select dst cond t f =>
    stores [dst] [cond,t,f] (on3 (fun c t f => [if isMsbTrue c then t else f]) [])
  | shift dst src variant amount =>
    stores [dst] [src] (on1 (fun w => [variant.apply w amount]) [])
  | iaddCinCout dstSum dstCout src1 src2 cin =>
    -- The carry in is the top bit of its register.
    stores [dstSum,dstCout] [src1,src2,cin]
      (on3 (fun a b c => [(MachineWord.iaddCinCout a b (c >>> 63)).1,
        (MachineWord.iaddCinCout a b (c >>> 63)).2]) [])
  | iaddCarry dstCout src1 src2 =>
    stores [dstCout] [src1,src2] (on2 (fun a b => [(MachineWord.iaddCinCout a b 0).2]) [])
  | isubBinBout dstDiff dstBout src1 src2 bin =>
    stores [dstDiff,dstBout] [src1,src2,bin]
      (on3 (fun a b c => [(MachineWord.isubBinBout a b (c >>> 63)).1,
        (MachineWord.isubBinBout a b (c >>> 63)).2]) [])
  | imul dstHi dstLo src1 src2 =>
    stores [dstHi,dstLo] [src1,src2]
      (on2 (fun a b => [(MachineWord.imul a b).1,(MachineWord.imul a b).2]) [])
  | bmul dstLo dstHi aLo aHi bLo bHi =>
    stores [dstLo,dstHi] [aLo,aHi,bLo,bHi]
      (on4 (fun a b c d => [(ghashMul a b c d).1,(ghashMul a b c d).2]) [])
  | iadd32CinCout dstSum dstCout src1 src2 cin =>
    stores [dstSum,dstCout] [src1,src2,cin]
      (on3 (fun a b c => [(MachineWord.iadd32CinCout a b c).1,
        (MachineWord.iadd32CinCout a b c).2]) [])
  | iadd32Cout dstSum dstCout src1 src2 =>
    stores [dstSum,dstCout] [src1,src2]
      (on2 (fun a b => [(iaddCout32 a b).1,(iaddCout32 a b).2]) [])
  | assertEq src1 src2 path =>
    checks [src1,src2] path (on2 (fun a b => if a ≠ b then some (.notEqual a b) else none) none)
  | assertEqCond cond src1 src2 path =>
    checks [cond,src1,src2] path (on3 (fun c a b =>
      if isMsbTrue c then (if a ≠ b then some (.conditional a b) else none) else none) none)
  | assertZero src path =>
    checks [src] path (on1 (fun a => if a ≠ 0 then some (.notZero a) else none) none)
  | assertNonZero src path =>
    checks [src] path (on1 (fun a => if a = 0 then some (.zero a) else none) none)
  | assertFalse src path =>
    checks [src] path (on1 (fun a => if isMsbTrue a then some (.msbTrue a) else none) none)
  | assertTrue src path =>
    checks [src] path (on1 (fun a => if isMsbFalse a then some (.msbFalse a) else none) none)
  | hint id dimensions inputs outputs =>
    stores outputs inputs ((hints id).execute dimensions)

/-- The value store the executor runs against. -/
class EvalContext (C : Type) where
  nInstances : C → ℕ
  load : C → Reg → ℕ → Checked Word
  store : C → Reg → ℕ → Word → Checked C
  noteAssertionFailure : C → ℕ → RecordedFailure → C

section Executor

variable {C : Type} [EvalContext C]

def storeAll (instId : ℕ) (stores : List (Reg × Word)) (ctx : C) : Checked C :=
  stores.foldlM (fun ctx rw => EvalContext.store ctx rw.1 instId rw.2) ctx

def noteViolation (instId : ℕ) (violation : Option RecordedFailure) (ctx : C) : C :=
  match violation with
  | some failure => EvalContext.noteAssertionFailure ctx instId failure
  | none => ctx

def Effect.exec (e : Effect) (instId : ℕ) (ctx : C) : Checked C := do
  let words ← e.srcs.mapM fun reg => EvalContext.load ctx reg instId
  let ctx ← storeAll instId (e.dsts.zip (e.compute words)) ctx
  return noteViolation instId (e.violation words) ctx

/-- Run an instruction on every instance. -/
def Effect.execEach (e : Effect) (ctx : C) : Checked C :=
  (range (EvalContext.nInstances ctx)).foldlM (fun ctx instId => e.exec instId ctx) ctx

/-- Run a whole program, one instruction over all instances at a time. -/
def run (hints : HintRegistry) (program : List EvalInsn) (ctx : C) : Checked C :=
  program.foldlM (fun ctx insn => (insn.effect hints).execEach ctx) ctx

end Executor

abbrev Regs := Reg → Word

namespace Effect

/-- The registers after an instruction. -/
def step (e : Effect) (ρ : Regs) : Regs :=
  writeAll (e.dsts.zip (e.compute (e.srcs.map ρ))) ρ

def failure (e : Effect) (ρ : Regs) : Option RecordedFailure :=
  e.violation (e.srcs.map ρ)

def Below (e : Effect) (height : ℕ) : Prop :=
  ∀ reg, reg ∈ e.dsts ∨ reg ∈ e.srcs → reg < height

end Effect

variable (hints : HintRegistry) (program : List EvalInsn)

/-- The registers after a program. -/
def runRegs (ρ : Regs) : Regs :=
  program.foldl (fun ρ insn => (insn.effect hints).step ρ) ρ

/-- The violations a program records, in program order. -/
def failures (hints : HintRegistry) : List EvalInsn → Regs → List RecordedFailure
  | [], _ => []
  | insn :: rest, ρ =>
    ((insn.effect hints).failure ρ).toList ++ failures hints rest ((insn.effect hints).step ρ)

@[simp] theorem runRegs_nil (ρ : Regs) : runRegs hints [] ρ = ρ := rfl

@[simp] theorem runRegs_cons (insn : EvalInsn) (rest : List EvalInsn) (ρ : Regs) :
    runRegs hints (insn :: rest) ρ = runRegs hints rest ((insn.effect hints).step ρ) := rfl

theorem runRegs_append (first second : List EvalInsn) (ρ : Regs) :
    runRegs hints (first ++ second) ρ = runRegs hints second (runRegs hints first ρ) :=
  foldl_append

theorem failures_append (first second : List EvalInsn) (ρ : Regs) :
    failures hints (first ++ second) ρ =
      failures hints first ρ ++ failures hints second (runRegs hints first ρ) := by
  induction first generalizing ρ with
  | nil => rfl
  | cons insn rest ih =>
    rw [cons_append,failures,failures,ih,runRegs_cons,append_assoc]

def RegsBelow (height : ℕ) : Prop :=
  ∀ insn ∈ program, (insn.effect hints).Below height

/-- A context that stores each register of each instance on its own. -/
class LawfulEvalContext (C : Type) extends EvalContext C where
  Shape : Type
  shape : C → Shape
  height : C → ℕ
  words : C → ℕ → Regs
  Clean : C → Prop
  sized : ∀ ctx ctx' : C, shape ctx' = shape ctx →
    nInstances ctx' = nInstances ctx ∧ height ctx' = height ctx
  load_ok : ∀ (ctx : C) (reg : Reg) (instId : ℕ), reg < height ctx → instId < nInstances ctx →
    load ctx reg instId = .ok (words ctx instId reg)
  store_ok : ∀ (ctx : C) (reg : Reg) (instId : ℕ) (w : Word), reg < height ctx →
    instId < nInstances ctx → ∃ ctx', store ctx reg instId w = .ok ctx' ∧
      shape ctx' = shape ctx ∧ (Clean ctx' ↔ Clean ctx) ∧
      words ctx' instId = update (words ctx instId) reg w ∧
      ∀ other, other < nInstances ctx → other ≠ instId → words ctx' other = words ctx other
  note_ok : ∀ (ctx : C) (instId : ℕ) (failure : RecordedFailure),
    shape (noteAssertionFailure ctx instId failure) = shape ctx ∧
      ¬Clean (noteAssertionFailure ctx instId failure) ∧
      ∀ other, words (noteAssertionFailure ctx instId failure) other = words ctx other

section Lawful

open EvalContext LawfulEvalContext

variable {C : Type} [LawfulEvalContext C]

/-- A context with the same shape, in which the instances have the given registers. -/
structure Follows (ctx ctx' : C) (after : ℕ → Regs) : Prop where
  shape_eq : shape ctx' = shape ctx
  words_eq : ∀ instId < nInstances ctx, words ctx' instId = after instId

theorem Follows.nInstances_eq {ctx ctx' : C} {after : ℕ → Regs} (h : Follows ctx ctx' after) :
    nInstances ctx' = nInstances ctx :=
  (sized ctx ctx' h.shape_eq).1

theorem Follows.height_eq {ctx ctx' : C} {after : ℕ → Regs} (h : Follows ctx ctx' after) :
    height ctx' = height ctx :=
  (sized ctx ctx' h.shape_eq).2

variable {instId : ℕ} {e : Effect} (ctx : C)

theorem storeAll_ok (stores : List (Reg × Word)) (ctx : C)
    (hi : instId < nInstances ctx) (hr : ∀ reg ∈ stores.map Prod.fst, reg < height ctx) :
    ∃ ctx', storeAll instId stores ctx = .ok ctx' ∧ (Clean ctx' ↔ Clean ctx) ∧
      Follows ctx ctx'
        (update (words ctx) instId (writeAll stores (words ctx instId))) := by
  induction stores generalizing ctx with
  | nil => exact ⟨ctx,rfl,Iff.rfl,rfl,fun j _ => by rw [writeAll_nil,Function.update_eq_self]⟩
  | cons rw rest ih =>
    rw [map_cons,forall_mem_cons] at hr
    obtain ⟨mid,hmid,hshape,hclean,hself,hother⟩ := store_ok ctx rw.1 instId rw.2 hr.1 hi
    have hsized := sized ctx mid hshape
    obtain ⟨ctx',hctx,hclean',hfollow⟩ := ih mid (hsized.1 ▸ hi) (hsized.2 ▸ hr.2)
    refine ⟨ctx',?_,hclean'.trans hclean,hfollow.shape_eq.trans hshape,fun j hj => ?_⟩
    · rw [storeAll,foldlM_cons,hmid]
      exact hctx
    · have hwords := hfollow.words_eq j (hsized.1 ▸ hj)
      by_cases he : j = instId
      · subst he
        rw [hwords,update_self,update_self,hself,writeAll_cons]
      · rw [hwords,update_of_ne he,update_of_ne he,hother j hj he]

theorem loadAll_ok (srcs : List Reg) (ctx : C) (hi : instId < nInstances ctx)
    (hr : ∀ reg ∈ srcs, reg < height ctx) :
    srcs.mapM (fun reg => load ctx reg instId) = .ok (srcs.map (words ctx instId)) := by
  induction srcs with
  | nil => rfl
  | cons reg rest ih =>
    rw [forall_mem_cons] at hr
    rw [mapM_cons,load_ok ctx reg instId hr.1 hi,ih hr.2]
    rfl

theorem Effect.exec_ok (hi : instId < nInstances ctx)
    (hb : e.Below (height ctx)) :
    ∃ ctx', e.exec instId ctx = .ok ctx' ∧
      (Clean ctx' ↔ Clean ctx ∧ e.failure (words ctx instId) = none) ∧
      Follows ctx ctx' (update (words ctx) instId (e.step (words ctx instId))) := by
  have hload := loadAll_ok e.srcs ctx hi fun reg hreg => hb reg (.inr hreg)
  obtain ⟨mid,hmid,hclean,hfollow⟩ := storeAll_ok
    (e.dsts.zip (e.compute (e.srcs.map (words ctx instId)))) ctx hi fun reg hreg => by
      obtain ⟨pair,hpair,rfl⟩ := mem_map.mp hreg
      exact hb _ (.inl (of_mem_zip hpair).1)
  refine ⟨noteViolation instId (e.violation (e.srcs.map (words ctx instId))) mid,?_,?_,?_⟩
  · rw [Effect.exec,hload]
    change storeAll instId (e.dsts.zip (e.compute (e.srcs.map (words ctx instId)))) ctx >>= _ = _
    rw [hmid]
    rfl
  · rw [Effect.failure]
    cases e.violation (e.srcs.map (words ctx instId)) with
    | none => exact hclean.trans (by simp only [and_true])
    | some failure =>
      have hdirty := (note_ok mid instId failure).2.1
      simp only [noteViolation,hdirty,reduceCtorEq,and_false]
  · cases e.violation (e.srcs.map (words ctx instId)) with
    | none => exact hfollow
    | some failure =>
      obtain ⟨hshape,_,hwords⟩ := note_ok mid instId failure
      exact ⟨hshape.trans hfollow.shape_eq,fun j hj => (hwords j).trans (hfollow.words_eq j hj)⟩

theorem Effect.execEach_prefix (hb : e.Below (height ctx)) (n : ℕ)
    (hn : n ≤ nInstances ctx) :
    ∃ ctx', (range n).foldlM (fun ctx instId => e.exec instId ctx) ctx = .ok ctx' ∧
      (Clean ctx' ↔ Clean ctx ∧ ∀ i < n, e.failure (words ctx i) = none) ∧
      Follows ctx ctx' fun i => if i < n then e.step (words ctx i) else words ctx i := by
  induction n with
  | zero =>
    refine ⟨ctx,rfl,?_,rfl,fun i _ => ?_⟩
    · simp only [Nat.not_lt_zero,false_implies,implies_true,and_true]
    · rw [if_neg (Nat.not_lt_zero i)]
  | succ n ih =>
    obtain ⟨mid,hmid,hclean,hfollow⟩ := ih (Nat.le_of_succ_le hn)
    have hlt : n < nInstances mid := hfollow.nInstances_eq ▸ hn
    obtain ⟨ctx',hctx,hclean',hfollow'⟩ := Effect.exec_ok (e := e) mid hlt (by
      rw [hfollow.height_eq]
      exact hb)
    have hword : words mid n = words ctx n := by
      rw [hfollow.words_eq n hn,if_neg (Nat.lt_irrefl n)]
    refine ⟨ctx',?_,?_,hfollow'.shape_eq.trans hfollow.shape_eq,fun i hi => ?_⟩
    · rw [range_succ,foldlM_append,hmid]
      change [n].foldlM (fun ctx instId => e.exec instId ctx) mid = _
      rw [foldlM_cons,hctx]
      rfl
    · rw [hclean',hclean,hword,and_assoc,Nat.forall_lt_succ_right]
    · rw [hfollow'.words_eq i (hfollow.nInstances_eq ▸ hi)]
      by_cases he : i = n
      · subst he
        rw [update_self,hword,if_pos (Nat.lt_succ_self i)]
      · rw [update_of_ne he,hfollow.words_eq i hi]
        have hiff : i < n ↔ i < n + 1 := by omega
        simp only [hiff]

theorem Effect.execEach_ok (hb : e.Below (height ctx)) :
    ∃ ctx', e.execEach ctx = .ok ctx' ∧
      (Clean ctx' ↔ Clean ctx ∧ ∀ i < nInstances ctx, e.failure (words ctx i) = none) ∧
      Follows ctx ctx' fun i => e.step (words ctx i) := by
  obtain ⟨ctx',hctx,hclean,hfollow⟩ := Effect.execEach_prefix ctx hb _ le_rfl
  refine ⟨ctx',hctx,hclean,hfollow.shape_eq,fun i hi => ?_⟩
  rw [hfollow.words_eq i hi,if_pos hi]

theorem run_ok (hints : HintRegistry) (program : List EvalInsn) (ctx : C)
    (hb : RegsBelow hints program (height ctx)) :
    ∃ ctx', run hints program ctx = .ok ctx' ∧
      (Clean ctx' ↔ Clean ctx ∧ ∀ i < nInstances ctx, failures hints program (words ctx i) = []) ∧
      Follows ctx ctx' fun i => runRegs hints program (words ctx i) := by
  induction program generalizing ctx with
  | nil =>
    refine ⟨ctx,rfl,?_,rfl,fun i _ => rfl⟩
    simp only [failures,implies_true,and_true]
  | cons insn rest ih =>
    rw [RegsBelow,forall_mem_cons] at hb
    obtain ⟨mid,hmid,hclean,hfollow⟩ := Effect.execEach_ok ctx hb.1
    obtain ⟨ctx',hctx,hclean',hfollow'⟩ := ih mid (by
      rw [hfollow.height_eq]
      exact hb.2)
    refine ⟨ctx',?_,?_,hfollow'.shape_eq.trans hfollow.shape_eq,fun i hi => ?_⟩
    · rw [run,foldlM_cons,hmid]
      exact hctx
    · rw [hclean',hclean,hfollow.nInstances_eq,and_assoc,← forall₂_and]
      refine and_congr_right fun _ => forall₂_congr fun i hi => ?_
      rw [hfollow.words_eq i hi,failures,append_eq_nil_iff,Option.toList_eq_nil_iff]
    · rw [hfollow'.words_eq i (hfollow.nInstances_eq ▸ hi),hfollow.words_eq i hi,runRegs_cons]

end Lawful

/-- The cap on how many assertion failures an execution context retains. -/
def maxAssertionFailures : ℕ := 100

/-- Witness population failed because the circuit is not satisfied. -/
structure PopulateError where
  /-- The failures that were retained, in the order evaluation found them. -/
  failures : List RecordedFailure
  total : ℕ
deriving DecidableEq

structure ExecutionContext where
  valueVec : ValueVec
  assertionFailures : List RecordedFailure
  assertionCount : ℕ

namespace ExecutionContext

def new (valueVec : ValueVec) : ExecutionContext := ⟨valueVec,[],0⟩

def checkAssertions (ctx : ExecutionContext) : Except PopulateError Unit :=
  if ctx.assertionFailures = [] then .ok ()
  else .error ⟨ctx.assertionFailures,ctx.assertionCount⟩

instance : EvalContext ExecutionContext where
  nInstances _ := 1
  load ctx reg _ := ctx.valueVec.readOffset reg
  store ctx reg _ w := do
    let valueVec ← ctx.valueVec.write reg w
    return {ctx with valueVec}
  noteAssertionFailure ctx _ failure :=
    {ctx with
      assertionCount := ctx.assertionCount + 1
      assertionFailures :=
        if ctx.assertionFailures.length < maxAssertionFailures then
          ctx.assertionFailures ++ [failure]
        else ctx.assertionFailures}

end ExecutionContext

theorem write_ok {v : ValueVec} {offset : ℕ} (h : offset < v.data.length) (w : Word) :
    ∃ after, v.write offset w = .ok after ∧ after.data.length = v.data.length ∧
      after = {v with data := after.data} ∧
      after.wordAt = update v.wordAt offset w := by
  refine ⟨{v with data := v.data.set offset w},?_,length_set,rfl,?_⟩
  · rw [ValueVec.write,if_pos h]
  · funext p
    by_cases hp : p = offset
    · subst hp
      rw [update_self,ValueVec.wordAt,getD_eq_getElem?_getD,
        getElem?_set_self h,Option.getD_some]
    · rw [update_of_ne hp,ValueVec.wordAt,ValueVec.wordAt,getD_eq_getElem?_getD,
        getD_eq_getElem?_getD,getElem?_set_ne (Ne.symm hp)]

instance : LawfulEvalContext ExecutionContext where
  Shape := ℕ × ℕ × ℕ × ℕ
  shape ctx := (ctx.valueVec.nConst,ctx.valueVec.nPublicValues,ctx.valueVec.nPrivate,
    ctx.valueVec.data.length)
  height ctx := ctx.valueVec.data.length
  words ctx _ := ctx.valueVec.wordAt
  Clean ctx := ctx.assertionFailures = []
  sized _ _ h := ⟨rfl,congrArg (fun s => s.2.2.2) h⟩
  load_ok _ _ _ hr _ := ValueVec.readOffset_ok hr
  store_ok ctx reg instId w hr hi := by
    obtain ⟨after,hw,hlen,heq,hword⟩ := write_ok hr w
    refine ⟨{ctx with valueVec := after},?_,?_,Iff.rfl,hword,fun other ho hne => ?_⟩
    · change (ctx.valueVec.write reg w >>= fun valueVec => _) = _
      rw [hw]
      rfl
    · dsimp only
      rw [hlen,heq]
    · have h1 : other < 1 := ho
      have h2 : instId < 1 := hi
      omega
  note_ok ctx _ failure := by
    refine ⟨rfl,?_,fun _ => rfl⟩
    change ¬(if ctx.assertionFailures.length < maxAssertionFailures then
      ctx.assertionFailures ++ [failure] else ctx.assertionFailures) = []
    split
    · exact append_ne_nil_of_right_ne_nil _ (cons_ne_nil _ _)
    · rename_i hlen
      intro hnil
      rw [hnil,length_nil,maxAssertionFailures] at hlen
      omega

namespace ExecutionContext

def report (ctx : ExecutionContext) : List RecordedFailure × ℕ :=
  (ctx.assertionFailures,ctx.assertionCount)

def addFailure (report : List RecordedFailure × ℕ) (failure : RecordedFailure) :
    List RecordedFailure × ℕ :=
  (if report.1.length < maxAssertionFailures then report.1 ++ [failure] else report.1,
    report.2 + 1)

theorem storeAll_report {instId : ℕ} (stores : List (Reg × Word)) :
    ∀ {ctx ctx' : ExecutionContext}, storeAll instId stores ctx = .ok ctx' →
      ctx'.report = ctx.report := by
  induction stores with
  | nil =>
    intro ctx ctx' h
    cases h
    rfl
  | cons rw rest ih =>
    intro ctx ctx' h
    rw [storeAll,foldlM_cons] at h
    change ((ctx.valueVec.write rw.1 rw.2 >>= fun v =>
      pure ({ctx with valueVec := v} : ExecutionContext)) >>= storeAll instId rest) = _ at h
    cases hw : ctx.valueVec.write rw.1 rw.2 with
    | error e =>
      rw [hw] at h
      cases h
    | ok v =>
      rw [hw] at h
      exact @ih {ctx with valueVec := v} ctx' h

theorem exec_report {e : Effect} {ctx ctx' : ExecutionContext}
    (hb : e.Below ctx.valueVec.data.length) (h : e.exec 0 ctx = .ok ctx') :
    ctx'.report = (e.failure ctx.valueVec.wordAt).toList.foldl addFailure ctx.report := by
  have hload : e.srcs.mapM (fun reg => EvalContext.load ctx reg 0) =
      .ok (e.srcs.map ctx.valueVec.wordAt) :=
    loadAll_ok e.srcs ctx Nat.one_pos fun reg hreg => hb reg (.inr hreg)
  rw [Effect.exec,hload] at h
  change (storeAll 0 (e.dsts.zip (e.compute (e.srcs.map ctx.valueVec.wordAt))) ctx >>= fun mid =>
    pure (noteViolation 0 (e.failure ctx.valueVec.wordAt) mid)) = _ at h
  cases hs : storeAll 0 (e.dsts.zip (e.compute (e.srcs.map ctx.valueVec.wordAt))) ctx with
  | error f =>
    rw [hs] at h
    cases h
  | ok mid =>
    rw [hs] at h
    have hmid := storeAll_report _ hs
    rw [← Except.ok.inj h,← hmid]
    cases e.failure ctx.valueVec.wordAt with
    | none => rfl
    | some failure => rfl

theorem run_report (hints : HintRegistry) (program : List EvalInsn) :
    ∀ {ctx : ExecutionContext}, RegsBelow hints program ctx.valueVec.data.length →
      ∃ ctx' : ExecutionContext, run hints program ctx = .ok ctx' ∧
        ctx'.valueVec.wordAt = runRegs hints program ctx.valueVec.wordAt ∧
        ctx'.report = (failures hints program ctx.valueVec.wordAt).foldl addFailure ctx.report := by
  induction program with
  | nil =>
    intro ctx _
    exact ⟨ctx,rfl,rfl,rfl⟩
  | cons insn rest ih =>
    intro ctx hb
    rw [RegsBelow,forall_mem_cons] at hb
    obtain ⟨mid,hmid,_,hfollow⟩ := Effect.exec_ok (e := insn.effect hints) ctx Nat.one_pos hb.1
    have hreport := exec_report hb.1 hmid
    have hwords : mid.valueVec.wordAt = (insn.effect hints).step ctx.valueVec.wordAt := by
      have hw := hfollow.words_eq 0 Nat.one_pos
      rw [update_self] at hw
      exact hw
    have hheight : mid.valueVec.data.length = ctx.valueVec.data.length := hfollow.height_eq
    obtain ⟨ctx',hrun,hwords',hreport'⟩ := @ih mid (by
      rw [hheight]
      exact hb.2)
    refine ⟨ctx',?_,?_,?_⟩
    · rw [run,foldlM_cons]
      change ([0].foldlM (fun ctx instId => (insn.effect hints).exec instId ctx) ctx >>= _) = _
      rw [foldlM_cons,hmid]
      exact hrun
    · rw [hwords',hwords,runRegs_cons]
    · rw [hreport',hreport,hwords,failures,foldl_append]

end ExecutionContext

end Binius64.EvalForm
