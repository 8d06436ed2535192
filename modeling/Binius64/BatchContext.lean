import Binius64.EvalForm
import Binius64.LeastTally

/-!
# The batched evaluation context

Many instances of one circuit evaluated in lockstep, over the transposed value array: a row for each
register, a column for each instance.
-/

namespace Binius64.EvalForm

open MachineWord LeastTally

/-- Some columns of an array in row-major order. -/
structure StridedArray2DView where
  data : List Word
  dataWidth : ℕ
  height : ℕ
  colStart : ℕ
  colEnd : ℕ
  cols_le : colStart ≤ colEnd ∧ colEnd ≤ dataWidth
  size : dataWidth * height = data.length

structure BatchExecutionContext where
  values : StridedArray2DView
  instanceOffset : ℕ
  failures : List RecordedFailure
  /-- The number of violations of the least failing instance, capped or not. -/
  minFailureCount : ℕ
  minFailingInstance : Option ℕ

structure BatchPopulateError where
  instId : ℕ
  source : PopulateError
deriving DecidableEq

namespace BatchExecutionContext

def new (values : StridedArray2DView) (instanceOffset : ℕ) : BatchExecutionContext :=
  ⟨values,instanceOffset,[],0,none⟩

/-- Turn recorded failures into an error attributed to the least failing instance. -/
def checkAssertions (ctx : BatchExecutionContext) : Except BatchPopulateError Unit :=
  match ctx.minFailingInstance with
  | none => .ok ()
  | some instId => .error ⟨instId,⟨ctx.failures,ctx.minFailureCount⟩⟩

def retain (ctx : BatchExecutionContext) (failure : RecordedFailure) : BatchExecutionContext :=
  {ctx with
    minFailureCount := ctx.minFailureCount + 1
    failures :=
      if ctx.failures.length < maxAssertionFailures then ctx.failures ++ [failure]
      else ctx.failures}

def noteAssertionFailure (ctx : BatchExecutionContext) (local_ : ℕ) (failure : RecordedFailure) :
    BatchExecutionContext :=
  let instId := ctx.instanceOffset + local_
  match ctx.minFailingInstance with
  | some min =>
    if min < instId then ctx
    else if instId < min then
      -- The failures so far are of an instance that will not be reported.
      {ctx with minFailingInstance := some instId,failures := [],minFailureCount := 0}.retain failure
    else {ctx with minFailingInstance := some instId}.retain failure
  | none => {ctx with minFailingInstance := some instId}.retain failure

def tally (ctx : BatchExecutionContext) : Tally ℕ RecordedFailure :=
  ⟨ctx.minFailingInstance,ctx.failures,ctx.minFailureCount⟩

variable (ctx : BatchExecutionContext)

theorem tally_note (local_ : ℕ) (failure : RecordedFailure) :
    (ctx.noteAssertionFailure local_ failure).tally =
        ctx.tally.note maxAssertionFailures (ctx.instanceOffset + local_,failure) ∧
      (ctx.noteAssertionFailure local_ failure).values = ctx.values ∧
      (ctx.noteAssertionFailure local_ failure).instanceOffset = ctx.instanceOffset := by
  obtain ⟨values,offset,failures,count,least⟩ := ctx
  cases least with
  | none => exact ⟨rfl,rfl,rfl⟩
  | some least =>
    simp only [noteAssertionFailure,tally,Tally.note]
    by_cases habove : least < offset + local_
    · simp only [habove,if_true,and_self]
    · by_cases hbelow : offset + local_ < least
      · simp only [habove,hbelow,if_true,if_false]
        exact ⟨rfl,rfl,rfl⟩
      · have hsame : offset + local_ = least := by omega
        simp only [hsame,lt_irrefl,if_false]
        exact ⟨rfl,rfl,rfl⟩

def noteAll (ctx : BatchExecutionContext) (records : List (ℕ × RecordedFailure)) :
    BatchExecutionContext :=
  records.foldl (fun ctx record => ctx.noteAssertionFailure record.1 record.2) ctx

theorem tally_noteAll (records : List (ℕ × RecordedFailure)) :
    (ctx.noteAll records).tally =
      (records.map fun record => (ctx.instanceOffset + record.1,record.2)).foldl
        (Tally.note maxAssertionFailures) ctx.tally := by
  induction records generalizing ctx with
  | nil => rfl
  | cons record records ih =>
    obtain ⟨htally,_,hoffset⟩ := tally_note ctx record.1 record.2
    have hrest := ih (ctx.noteAssertionFailure record.1 record.2)
    rw [htally,hoffset] at hrest
    exact hrest

theorem checkAssertions_eq : ctx.checkAssertions =
    match ctx.tally.least with
    | none => .ok ()
    | some instId => .error ⟨instId,⟨ctx.tally.kept,ctx.tally.count⟩⟩ := rfl

def failuresOf (local_ : ℕ) (records : List (ℕ × RecordedFailure)) : List RecordedFailure :=
  carried local_ records

theorem carried_offset (offset local_ : ℕ) (records : List (ℕ × RecordedFailure)) :
    carried (offset + local_) (records.map fun record => (offset + record.1,record.2)) =
      failuresOf local_ records := by
  have hkey : ((fun record : ℕ × RecordedFailure => decide (record.1 = offset + local_)) ∘
      fun record : ℕ × RecordedFailure => (offset + record.1,record.2)) =
        fun record => decide (record.1 = local_) := by
    funext record
    exact decide_eq_decide.mpr Nat.add_left_cancel_iff
  rw [carried,failuresOf,carried,List.filter_map,hkey,List.map_map]
  rfl

theorem report_of_tally {ctx : BatchExecutionContext} {offset : ℕ}
    {records : List (ℕ × RecordedFailure)}
    (htally : ctx.tally = (records.map fun record => (offset + record.1,record.2)).foldl
      (Tally.note maxAssertionFailures) .empty) :
    (records = [] ∧ ctx.checkAssertions = .ok ()) ∨
      ∃ least, IsLeastKey least records ∧
        ctx.checkAssertions =
          .error ⟨offset + least,⟨(failuresOf least records).take maxAssertionFailures,
            (failuresOf least records).length⟩⟩ := by
  rcases foldl_note maxAssertionFailures
    (records.map fun record => (offset + record.1,record.2)) with ⟨hnil,hempty⟩ | ⟨key,hkey,hfold⟩
  · refine .inl ⟨List.map_eq_nil_iff.mp hnil,?_⟩
    rw [checkAssertions_eq,htally,hempty]
    rfl
  · -- The least key is a shifted column.
    obtain ⟨record,hr,rfl⟩ : ∃ record ∈ records, offset + record.1 = key := by
      obtain ⟨shifted,hs,hfirst⟩ := List.mem_map.mp hkey.mem
      obtain ⟨record,hr,rfl⟩ := List.mem_map.mp hs
      exact ⟨record,hr,hfirst⟩
    refine .inr ⟨record.1,⟨List.mem_map_of_mem hr,fun other ho => ?_⟩,?_⟩
    · obtain ⟨record',hr',rfl⟩ := List.mem_map.mp ho
      have hshifted : offset + record'.1 ∈
          (records.map fun record => (offset + record.1,record.2)).map Prod.fst := by
        rw [List.map_map]
        exact List.mem_map.mpr ⟨record',hr',rfl⟩
      exact Nat.add_le_add_iff_left.mp (hkey.le _ hshifted)
    · rw [checkAssertions_eq,htally,hfold,←carried_offset offset]
      rfl

/-- Whatever the order failures are recorded in, the report names the least column that failed, with
the number of its failures and the first of them, and nothing of another column. -/
theorem failures_attributed (values : StridedArray2DView) (offset : ℕ)
    (records : List (ℕ × RecordedFailure)) :
    (records = [] ∧ ((new values offset).noteAll records).checkAssertions = .ok ()) ∨
      ∃ least, IsLeastKey least records ∧
        ((new values offset).noteAll records).checkAssertions =
          .error ⟨offset + least,⟨(failuresOf least records).take maxAssertionFailures,
            (failuresOf least records).length⟩⟩ :=
  report_of_tally (tally_noteAll (new values offset) records)

end BatchExecutionContext

end Binius64.EvalForm
