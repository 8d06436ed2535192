import Binius64.WireConstraints

/-!
# Folding a list of shifts into one term

Inlining walks a chain of definitions and folds the shift of each into the sequence it has so far,
the new shift innermost.
-/

namespace Binius64.ShiftFolding

open MachineWord ShiftAlgebra ValueVector ConstraintSystem WireConstraints

structure CanonicalShift where
  shift : Shift
  /-- The constructor refuses an amount the variant cannot represent. -/
  inRange : shift.InRange
  canonical : shift.isCanonical = true

/-- A sequence validation accepts. -/
structure CanonicalSeq where
  seq : ShiftSeq
  canonical : seq.Canonical

def foldShifts (seq : ShiftSeq) : List Shift → PushInner
  | [] => .seq seq
  | shift :: rest =>
    match pushInner seq shift 2 with
    | .seq next => foldShifts next rest
    | .zero => .zero
    | .overBudget => .overBudget

/-- Apply the listed shifts one after another. -/
def applyAll (shifts : List Shift) (w : Word) : Word :=
  shifts.foldr Shift.apply w

@[simp] theorem applyAll_cons (shift : Shift) (rest : List Shift) (w : Word) :
    applyAll (shift :: rest) w = shift.apply (applyAll rest w) := rfl

theorem operandFault_canonical {seq : ShiftSeq} (h : seq.Canonical) (cs : System)
    (v : ValueIndex) : operandFault cs [⟨v,seq.inner,seq.outer⟩] = indexFault cs v := by
  have hinner : shiftFault seq.inner = none :=
    (shiftFault_eq_none _).mpr ⟨h.innerCanonical,h.inner⟩
  have houter : shiftFault seq.outer = none :=
    (shiftFault_eq_none _).mpr ⟨h.outerCanonical,h.outer⟩
  have hseq : sequenceFault ⟨v,seq.inner,seq.outer⟩ = none :=
    (sequenceFault_eq_none _).mpr ⟨h.loneInner,h.irreducible⟩
  have hterm : termFault cs ⟨v,seq.inner,seq.outer⟩ = indexFault cs v := by
    simp only [termFault,hinner,houter,hseq,Option.none_or]
  rw [operandFault,List.findSome?_cons,hterm]
  cases indexFault cs v <;> rfl

def Folded (seq : ShiftSeq) (shifts : List Shift) : PushInner → Prop
  | .seq out => out.Canonical ∧ ∀ w, out.apply w = seq.apply (applyAll shifts w)
  | .zero => ∀ w, seq.apply (applyAll shifts w) = 0
  | .overBudget => True

theorem Folded.push {seq next : ShiftSeq} {shift : Shift} {rest : List Shift} {result : PushInner}
    (hstep : ∀ w, next.apply w = seq.apply (shift.apply w)) (h : Folded next rest result) :
    Folded seq (shift :: rest) result := by
  cases result with
  | seq out =>
    refine ⟨h.1,fun w => ?_⟩
    rw [h.2,hstep,applyAll_cons]
  | zero =>
    intro w
    rw [applyAll_cons,← hstep]
    exact h w
  | overBudget => trivial

theorem foldShifts_folded (shifts : List CanonicalShift) :
    ∀ {seq : ShiftSeq}, seq.Canonical →
      Folded seq (shifts.map (·.shift)) (foldShifts seq (shifts.map (·.shift))) := by
  induction shifts with
  | nil =>
    intro seq hseq
    exact ⟨hseq,fun w => rfl⟩
  | cons s rest ih =>
    intro seq hseq
    have hdenotes := pushInner_denotes hseq.toInRange s.inRange 2
    rw [List.map_cons,foldShifts]
    cases hpush : pushInner seq s.shift 2 with
    | seq next =>
      rw [hpush] at hdenotes
      have hnext : next.Canonical := pushInner_canonical hseq s.inRange s.canonical hpush
      exact (ih hnext).push hdenotes.2
    | zero =>
      rw [hpush] at hdenotes
      intro w
      rw [applyAll_cons]
      exact hdenotes _
    | overBudget => trivial

/-- Shift folding is exact: a list that folds to zero clears every word, and a
list that folds to a sequence acts as that sequence, which validation accepts
wherever its index is. The shifts the start already carries apply last; an
unshifted start carries none. -/
theorem foldShifts_exact (start : CanonicalSeq) (shifts : List CanonicalShift) :
    match foldShifts start.seq (shifts.map (·.shift)) with
    | .zero => ∀ w, start.seq.apply (applyAll (shifts.map (·.shift)) w) = 0
    | .seq out =>
      (∀ w, out.apply w = start.seq.apply (applyAll (shifts.map (·.shift)) w)) ∧
      ∀ (cs : System) (v : ValueIndex),
        operandFault cs [⟨v,out.inner,out.outer⟩] = indexFault cs v
    | .overBudget => True := by
  have hfold := foldShifts_folded shifts start.canonical
  cases hres : foldShifts start.seq (shifts.map (·.shift)) with
  | seq out =>
    rw [hres] at hfold
    exact ⟨hfold.2,fun cs v => operandFault_canonical hfold.1 cs v⟩
  | zero =>
    rw [hres] at hfold
    exact hfold
  | overBudget => trivial

/-- A shift past the halfway point brings a genuine pair within reach: two
folds give one shift again. -/
example : foldShifts ⟨⟨.sll32,11⟩,.identity⟩ [⟨.sll,1⟩,⟨.sll,31⟩] =
    .seq ⟨⟨.sll,43⟩,.identity⟩ := by decide

end Binius64.ShiftFolding
