import Binius64.WiringClaims

/-!
# The extension of a wiring tensor

The tables built from the flat input are tensors of its sections, so every way to evaluate
the wiring gives the weighted sum of the multilinear extensions of the wiring
tensors of the operations.
-/

namespace Binius64.ConstraintSystem

open Ntt ValueVector ShiftAlgebra CheckedRun PackedFolding PackedExpansion EqualityTensor
open Finset (range mem_range sum_congr)

variable {F : Type} [Field F]

theorem eqIndPartialEvalScalars_oneCube (point : List F) :
    PackedExpansion.eqIndPartialEvalScalars .oneCube point = (List.range (2 ^ point.length)).map (eqTensor point) := by
  rw [PackedExpansion.eqIndPartialEvalScalars,scaledEqIndPartialEvalScalars_eq]
  exact List.map_congr_left fun v _ => by rw [one_mul,tensor_oneCube]

def scaledTable (point : List F) (scale : F) : List F :=
  (List.range (2 ^ point.length)).map fun v => scale * eqTensor point v

theorem scalarExpand_run (point : List F) (scale : F) : scalarExpand point scale = .ok (scaledTable point scale) := by
  rw [scalarExpand,scaledEqIndPartialEvalScalars_eq]
  exact congrArg Except.ok (List.map_congr_left fun v _ => by rw [tensor_oneCube])

theorem words_scalars (buffer : FieldBuffer 0 F) : buffer.words.map (·.get 0) = buffer.scalars := by
  have hlen : buffer.words.length = 2 ^ buffer.logLen := by
    rw [buffer.words_length,Nat.sub_zero,Nat.one_shiftLeft]
  unfold FieldBuffer.scalars
  refine List.ext_getElem ?_ fun i hi hi' => ?_
  · rw [List.length_map,hlen,List.length_map,List.length_range]
  · rw [List.length_map] at hi
    have hword : i / 2 ^ 0 = i := Nat.div_one i
    have hlane : i % 2 ^ 0 = 0 := Nat.mod_one i
    rw [List.getElem_map,List.getElem_map,List.getElem_range,FieldBuffer.scalar,hword,hlane,
      List.getD_eq_getElem _ _ hi]

theorem packedExpand_run (point : List F) (scale : F) : packedExpand point scale = .ok (scaledTable point scale) := by
  obtain ⟨buffer,hrun,hlen,hscalar⟩ :=
    scaledEqIndPartialEvalInto_run (w := 0) .oneCube point scale (le_refl (packedWords 0 point.length))
  rw [packedExpand,hrun,ok_bind,words_scalars,scalars_eq_engine .oneCube hlen hscalar]
  exact scalarExpand_run point scale

theorem eqTensor_zero (point : List F) : eqTensor point 0 = eqIndZero point := by
  induction point with
  | nil => rfl
  | cons r point ih =>
    rw [eqTensor,Nat.zero_div,ih,Nat.zero_mod,if_pos rfl]
    rfl

theorem eqTensor_singleton_zero (r : F) : eqTensor [r] 0 = 1 - r := by
  rw [eqTensor,eqTensor,Nat.zero_mod,if_pos rfl,mul_one]

theorem eqTensor_singleton_one (r : F) : eqTensor [r] 1 = r := by
  rw [eqTensor,eqTensor,if_neg (by decide),mul_one]

theorem eqTensor_public (rY : List F) (r : F) {k v : ℕ} (hk : k ≤ rY.length) (hv : v < 2 ^ k) :
    (1 - r) * eqIndZero (rY.drop k) * eqTensor (rY.take k) v = eqTensor (rY ++ [r]) v := by
  have htake : (rY.take k).length = k := List.length_take_of_le hk
  have hsplit : rY ++ [r] = rY.take k ++ (rY.drop k ++ [r]) := by
    rw [←List.append_assoc,List.take_append_drop]
  rw [hsplit,eqTensor_append,htake,Nat.div_eq_of_lt hv,eqTensor_append,Nat.zero_div,eqTensor_zero,
    eqTensor_singleton_zero]
  ring

theorem eqTensor_hidden (rY : List F) (r : F) {v : ℕ} (hv : v < 2 ^ rY.length) :
    r * eqTensor rY v = eqTensor (rY ++ [r]) (2 ^ rY.length + v) := by
  have hsplit := eqTensor_split rY [r] (h := 1) rfl hv
  rw [one_mul] at hsplit
  rw [hsplit,eqTensor_singleton_one,mul_comm]

theorem slice_table {α : Type} (f : ℕ → α) {n start len : ℕ} (h : start + len ≤ n) :
    slice ((List.range n).map f) start (start + len) = .ok ((List.range len).map fun i => f (start + i)) := by
  have hcut : (List.range n).map f = (List.range start).map f ++ ((List.range len).map (fun i => f (start + i)) ++
      (List.range (n - (start + len))).map fun i => f (start + len + i)) := by
    conv_lhs => rw [←Nat.add_sub_cancel' h,List.range_add,List.range_add]
    simp only [List.map_append,List.map_map,List.append_assoc,Function.comp_def]
  rw [hcut]
  exact slice_middle (by rw [List.length_map,List.length_range])
    (by rw [List.length_map,List.length_range])

section Address

variable (cs : System)

theorem System.nPublicWords_le (inout : InoutSegment) : cs.nPublicWords inout ≤ 2 ^ cs.logPublicWords inout :=
  Nat.le_pow_clog Nat.one_lt_two _

theorem System.logPublicWords_le (inout : InoutSegment) : cs.logPublicWords inout ≤ cs.logSegmentWords inout := by
  rw [logSegmentWords]
  split <;> omega

theorem System.nHiddenWords_le (inout : InoutSegment) : cs.nHiddenWords inout ≤ 2 ^ cs.logSegmentWords inout := by
  have hwitness : cs.nHiddenWords inout ≤ 2 ^ cs.logWitnessWords inout := Nat.le_pow_clog Nat.one_lt_two _
  refine hwitness.trans (Nat.pow_le_pow_right Nat.two_pos ?_)
  rw [logSegmentWords]
  split <;> omega

end Address

def System.segmentStart (cs : System) : ValueSegment → ℕ
  | .constant => 0
  | .inOut => cs.nConst
  | .priv => cs.nPublicValues
  | .scratch => cs.valueVecLen

def System.valueRun (cs : System) (inout : InoutSegment) (point : List F) (segment : ValueSegment) : List F :=
  (List.range (cs.segmentLen segment)).map fun i => eqTensor point (cs.addressAt inout (cs.segmentStart segment + i))

def System.valueRuns (cs : System) (inout : InoutSegment) (point : List F) : List (List F) :=
  [ValueSegment.constant,.inOut,.priv].map (cs.valueRun inout point)

section Runs

variable {cs : System} {inout : InoutSegment} {inputs : WiringInputs F} {point : List F}

variable (segment : ValueSegment)

theorem slice_public
    (hpublic : inputs.publicTensor = (List.range (2 ^ cs.logPublicWords inout)).map (eqTensor point))
    (h : cs.segmentStart segment + cs.segmentLen segment ≤ cs.nPublicWords inout) :
    slice inputs.publicTensor (cs.segmentStart segment) (cs.segmentStart segment + cs.segmentLen segment) =
      .ok (cs.valueRun inout point segment) := by
  have hlow := cs.nPublicWords_le inout
  rw [hpublic,slice_table _ (by omega)]
  refine congrArg Except.ok (List.map_congr_left fun i hi => ?_)
  rw [List.mem_range] at hi
  rw [System.addressAt,if_pos (by omega)]

theorem slice_hidden (start : ℕ) (hhidden : inputs.hiddenTensor = (List.range (2 ^ cs.logSegmentWords inout)).map
      fun v => eqTensor point (2 ^ cs.logSegmentWords inout + v))
    (hstart : cs.segmentStart segment = cs.nPublicWords inout + start)
    (h : start + cs.segmentLen segment ≤ cs.nHiddenWords inout) :
    slice inputs.hiddenTensor start (start + cs.segmentLen segment) = .ok (cs.valueRun inout point segment) := by
  have hhigh := cs.nHiddenWords_le inout
  rw [hhidden,slice_table _ (by omega)]
  refine congrArg Except.ok (List.map_congr_left fun i hi => ?_)
  rw [System.addressAt,if_neg (by omega),hstart]
  congr 2
  omega

theorem valueTensor_run
    (hpublic : inputs.publicTensor = (List.range (2 ^ cs.logPublicWords inout)).map (eqTensor point))
    (hhidden : inputs.hiddenTensor = (List.range (2 ^ cs.logSegmentWords inout)).map
      fun v => eqTensor point (2 ^ cs.logSegmentWords inout + v)) :
    inputs.valueTensor cs inout = .ok (cs.valueRuns inout point) := by
  have hconst (h : cs.nConst ≤ cs.nPublicWords inout) :
      slice inputs.publicTensor 0 cs.nConst = .ok (cs.valueRun inout point .constant) := by
    have hslice := slice_public .constant hpublic ((Nat.zero_add _).trans_le h)
    simpa only [System.segmentStart,System.segmentLen,Nat.zero_add] using hslice
  cases inout with
  | shared =>
    have hinout := slice_public .inOut hpublic (le_refl cs.nPublicValues)
    have hpriv := slice_hidden .priv 0 hhidden rfl (Nat.zero_add cs.nPrivate).le
    simp only [System.segmentStart,System.segmentLen,Nat.zero_add] at hinout hpriv
    rw [WiringInputs.valueTensor,hconst (Nat.le_add_right _ _),ok_bind,System.offsetInout,hinout,ok_bind,hpriv]
    rfl
  | hidden =>
    have hinout := slice_hidden .inOut 0 hhidden rfl
      ((Nat.zero_add cs.nInout).trans_le (Nat.le_add_right _ _))
    have hpriv := slice_hidden .priv cs.nInout hhidden rfl (le_refl _)
    simp only [System.segmentLen,Nat.zero_add] at hinout hpriv
    rw [WiringInputs.valueTensor,hconst (le_refl _),ok_bind,hinout,ok_bind,hpriv]
    rfl

end Runs

namespace WiringSections

variable (s : WiringSections F) (cs : System) (inout : InoutSegment)

def operandInner : List F := s.operandBatch ++ s.rSInner ++ s.rVInner

def outer : List F := s.rSOuter ++ s.rVOuter

def word : List F := s.rY ++ [s.rSegment]

/-- The tensors of the sections, the constraint tables scaled. -/
def inputs (scale : ℕ → F) : WiringInputs F where
  constraintTables := (List.range operationCount).map fun operation =>
    if (cs.operations.getD operation []).length = 0 then []
    else scaledTable (s.rXPrime.getD operation []) (scale operation)
  operandInnerShiftScalars := (List.range (2 ^ s.operandInner.length)).map (eqTensor s.operandInner)
  outerShiftScalars := (List.range (2 ^ s.outer.length)).map (eqTensor s.outer)
  publicTensor := (List.range (2 ^ cs.logPublicWords inout)).map (eqTensor s.word)
  hiddenTensor := (List.range (2 ^ cs.logSegmentWords inout)).map
    fun v => eqTensor s.word (2 ^ cs.logSegmentWords inout + v)

end WiringSections

section Inputs

variable {s : WiringSections F} {cs : System} {inout : InoutSegment} {batch : List F}

theorem System.length_operations (cs : System) : cs.operations.length = operationCount := rfl

omit [Field F] in
theorem length_rXPrime (h : s.Fits (cs.wiringShape inout)) : s.rXPrime.length = operationCount := by
  have hlen := congrArg List.length h.rXPrime
  rw [List.length_map] at hlen
  exact hlen

theorem index_getD {α : Type} {xs : List α} {i : ℕ} (hi : i < xs.length) (d : α) : index xs i = .ok (xs.getD i d) := by
  rw [index_getElem hi,List.getD_eq_getElem _ _ hi]

theorem wiringWeights_run [DecidableEq F] (hbatch : batch.length = logOperationCount)
    (h : s.Fits (cs.wiringShape inout)) {expand : List F → F → Except AssertFailure (List F)}
    (hexpand : ∀ point scale, expand point scale = .ok (scaledTable point scale)) (scale : ℕ → F) :
    (⟨cs,cs.wiringShape inout⟩ : WiringEvalFn).wiringWeights (batch ++ s.flat) expand
      ((List.range operationCount).map scale) = .ok (s.inputs cs inout scale) := by
  have hy : s.rY.length = cs.logSegmentWords inout := h.rY
  have hlow := cs.logPublicWords_le inout
  rw [←hy] at hlow
  have houter : (s.rSOuter ++ s.rVOuter).length = logShiftCount := by
    rw [List.length_append,h.rSOuter,h.rVOuter]
    rfl
  have hpadding : slice s.rY (cs.logPublicWords inout) s.rY.length = .ok (s.rY.drop (cs.logPublicWords inout)) := by
    rw [slice,require_true ⟨hlow,le_refl _⟩,ok_bind,List.take_length]
    rfl
  have htake : slice s.rY 0 (cs.logPublicWords inout) = .ok (s.rY.take (cs.logPublicWords inout)) := by
    rw [slice,require_true ⟨Nat.zero_le _,hlow⟩,ok_bind,List.drop_zero]
    rfl
  have hpublic : scaledTable (s.rY.take (cs.logPublicWords inout))
      (Hypercube.oneCube.eqOneVar s.rSegment 0 * eqIndZero (s.rY.drop (cs.logPublicWords inout))) =
      (s.inputs cs inout scale).publicTensor := by
    rw [scaledTable,List.length_take_of_le hlow,Hypercube.eqOneVar,eqOneVar_zero]
    exact List.map_congr_left fun v hv => eqTensor_public _ _ hlow (List.mem_range.mp hv)
  have hhidden : scaledTable s.rY s.rSegment = (s.inputs cs inout scale).hiddenTensor := by
    rw [scaledTable,WiringSections.inputs,←hy]
    exact List.map_congr_left fun v hv => eqTensor_hidden _ _ (List.mem_range.mp hv)
  have htables : (List.range operationCount).mapM (fun operation => do
      if (← index cs.operations operation).length = 0 then return []
      expand (← index s.rXPrime operation) (← index ((List.range operationCount).map scale) operation)) =
      .ok (s.inputs cs inout scale).constraintTables := by
    unfold WiringSections.inputs
    dsimp only
    refine mapM_eq_map fun operation hoperation => ?_
    have hi := List.mem_range.mp hoperation
    rw [index_getD (hi.trans_eq cs.length_operations.symm) [],ok_bind]
    split
    · rfl
    · rw [index_getD (hi.trans_eq (length_rXPrime h).symm) [],ok_bind,index_map_range _ hi,ok_bind,hexpand]
  have hcount : ((List.range (2 ^ (s.rSOuter ++ s.rVOuter).length)).map
      (eqTensor (s.rSOuter ++ s.rVOuter))).length = shiftCount := by
    rw [List.length_map,List.length_range,houter]
    rfl
  have hshape : (cs.wiringShape inout).rXPrimeLens = cs.logConstraints := rfl
  unfold WiringEvalFn.wiringWeights
  dsimp only
  rw [require_true hshape,ok_bind,readSections_run hbatch h,ok_bind]
  dsimp only [System.wiringShape]
  rw [hpadding,ok_bind,htake,ok_bind,hexpand,ok_bind,hpublic,hexpand,ok_bind,hhidden,
    eqIndPartialEvalScalars_oneCube,eqIndPartialEvalScalars_oneCube,require_true hcount,ok_bind,htables,ok_bind]
  rfl

theorem operationInputs_value (scale : ℕ → F) :
    (s.inputs cs inout scale).valueTensor cs inout = .ok (cs.valueRuns inout s.word) :=
  valueTensor_run rfl rfl

end Inputs

section TermWeights

variable {s : WiringSections F} {cs : System} {inout : InoutSegment}

/-- The weight of a term at the challenges: one indicator an axis. -/
def WiringSections.termValue (s : WiringSections F) (cs : System) (inout : InoutSegment)
    (x : ℕ × ShiftedValueIndex) : F :=
  eqTensor s.operandInner (x.2.inner.spelling * 2 ^ logMaxArity + x.1) * eqTensor s.outer x.2.outer.spelling *
    eqTensor s.word (cs.paddedAddress inout x.2.valueIndex)

theorem index_valueRuns (point : List F) {v : ValueIndex} (hsegment : v.segment.isReferenceable = true) :
    index (cs.valueRuns inout point) v.segment.tag = .ok (cs.valueRun inout point v.segment) := by
  cases hv : v.segment with
  | scratch =>
    rw [hv] at hsegment
    cases hsegment
  | constant | inOut | priv => rfl

theorem wordOffset_eq (cs : System) (v : ValueIndex) : cs.wordOffset v = cs.segmentStart v.segment + v.index := by
  unfold System.wordOffset System.segmentStart
  cases v.segment <;> rfl

theorem index_valueRun (point : List F) {v : ValueIndex} (hindex : v.index < cs.segmentLen v.segment) :
    index (cs.valueRun inout point v.segment) v.index = .ok (eqTensor point (cs.paddedAddress inout v)) := by
  rw [System.valueRun,index_map_range _ hindex,System.paddedAddress,wordOffset_eq]

theorem term_ok (h : s.Fits (cs.wiringShape inout)) (scale : ℕ → F) (table : List F) {o : ℕ}
    (ho : o < 2 ^ logMaxArity) {svi : ShiftedValueIndex} (hreach : InReach cs svi) :
    ((s.inputs cs inout scale).operationWeights (cs.valueRuns inout s.word) table).term o svi =
      .ok (s.termValue cs inout (o,svi)) := by
  have hinner := Shift.spelling_lt hreach.inner
  have houter := Shift.spelling_lt hreach.outer
  have hinnerLen : s.operandInner.length = 12 := by
    rw [WiringSections.operandInner,List.length_append,List.length_append,h.operandBatch,h.rSInner,h.rVInner]
    rfl
  have houterLen : s.outer.length = 9 := by
    rw [WiringSections.outer,List.length_append,h.rSOuter,h.rVOuter]
    rfl
  have hspelling : (svi.inner.spelling <<< logMaxArity) ||| o = svi.inner.spelling * 2 ^ logMaxArity + o :=
    shiftLeft_or ho
  have hinnerLt : svi.inner.spelling * 2 ^ logMaxArity + o < 2 ^ s.operandInner.length := by
    rw [hinnerLen]
    simp only [logMaxArity] at ho ⊢
    omega
  have houterLt : svi.outer.spelling < 2 ^ s.outer.length := by
    rw [houterLen]
    omega
  unfold WiringWeights.term WiringWeights.axes WiringInputs.operationWeights WiringSections.inputs
  dsimp only
  rw [Shift.index_run hreach.inner,ok_bind,Shift.index_run hreach.outer,ok_bind,
    hspelling,index_map_range _ hinnerLt,ok_bind,index_map_range _ houterLt,ok_bind,
    index_valueRuns _ hreach.referenceable,ok_bind,index_valueRun _ hreach.inSegment]
  rfl

theorem inReach_of_term {weights : WiringWeights F} (hvalue : weights.value = cs.valueRuns inout s.word) {o : ℕ}
    {svi : ShiftedValueIndex} {x : F} (hx : weights.term o svi = .ok x) : InReach cs svi := by
  obtain ⟨inner,hinner,hrest⟩ := bind_eq_ok.mp hx
  obtain ⟨outer,houter,haxes⟩ := bind_eq_ok.mp hrest
  obtain ⟨_,_,hrest⟩ := bind_eq_ok.mp haxes
  obtain ⟨_,_,hrest⟩ := bind_eq_ok.mp hrest
  obtain ⟨run,hrun,hrest⟩ := bind_eq_ok.mp hrest
  obtain ⟨word,hword,-⟩ := bind_eq_ok.mp hrest
  rw [hvalue] at hrun
  have hreferenceable : svi.valueIndex.segment.isReferenceable = true := by
    have htag : svi.valueIndex.segment.tag < 3 := lt_of_index hrun
    cases hsegment : svi.valueIndex.segment with
    | scratch =>
      rw [hsegment] at htag
      exact absurd htag (by decide)
    | constant | inOut | priv => rfl
  rw [index_valueRuns _ hreferenceable] at hrun
  cases hrun
  have hindex := lt_of_index hword
  rw [System.valueRun,List.length_map,List.length_range] at hindex
  exact ⟨Shift.amount_lt_of_index hinner,Shift.amount_lt_of_index houter,hreferenceable,hindex⟩

end TermWeights

section Operations

variable {s : WiringSections F} {cs : System} {inout : InoutSegment}

theorem System.logConstraints_eq (cs : System) :
    cs.logConstraints = cs.operations.map fun rows => (logRows rows.length).getD 0 := by
  simp only [System.operations,List.map_cons,List.length_map,List.map_nil]
  rfl

omit [Field F] in
theorem length_section (h : s.Fits (cs.wiringShape inout)) (operation : ℕ) :
    (s.rXPrime.getD operation []).length = cs.logConstraints.getD operation 0 := by
  have hlens : s.rXPrime.map List.length = cs.logConstraints := h.rXPrime
  rw [←hlens]
  exact (List.getD_map _ [] List.length).symm

omit [Field F] in
theorem rows_le (h : s.Fits (cs.wiringShape inout)) (operation : ℕ) :
    (cs.operations.getD operation []).length ≤ 2 ^ (s.rXPrime.getD operation []).length := by
  have hlog : cs.logConstraints.getD operation 0 =
      (logRows (cs.operations.getD operation []).length).getD 0 := by
    rw [cs.logConstraints_eq]
    exact List.getD_map _ [] fun rows : List (List Operand) => (logRows rows.length).getD 0
  rw [length_section h,hlog,logRows]
  split
  · rename_i hzero
    rw [hzero]
    exact Nat.zero_le _
  · exact Nat.le_pow_clog Nat.one_lt_two _

def WiringSections.table (s : WiringSections F) (cs : System) (scale : ℕ → F) (operation : ℕ) : List F :=
  if (cs.operations.getD operation []).length = 0 then []
  else scaledTable (s.rXPrime.getD operation []) (scale operation)

def WiringSections.weights (s : WiringSections F) (cs : System) (inout : InoutSegment) (scale : ℕ → F)
    (operation : ℕ) : WiringWeights F :=
  (s.inputs cs inout scale).operationWeights (cs.valueRuns inout s.word) (s.table cs scale operation)

theorem rows_le_table (h : s.Fits (cs.wiringShape inout)) (scale : ℕ → F) (operation : ℕ) :
    (cs.operations.getD operation []).length ≤ (s.table cs scale operation).length := by
  rw [WiringSections.table]
  split
  · omega
  · rw [scaledTable,List.length_map,List.length_range]
    exact rows_le h operation

/-- The sum over the terms of an operation, without its scale. -/
def WiringSections.operationValue (s : WiringSections F) (cs : System) (inout : InoutSegment) (operation : ℕ) : F :=
  ((OperationEvalFn.mk (cs.operations.getD operation [])).terms.map fun x =>
    eqTensor (s.rXPrime.getD operation []) x.1 * s.termValue cs inout x.2).sum

theorem termSum_table (h : s.Fits (cs.wiringShape inout)) (scale : ℕ → F) (operation : ℕ) :
    (OperationEvalFn.mk (cs.operations.getD operation [])).termSum (s.table cs scale operation)
      (s.termValue cs inout) = scale operation * s.operationValue cs inout operation := by
  rw [OperationEvalFn.termSum,WiringSections.operationValue,←List.sum_map_mul_left]
  refine congrArg List.sum (List.map_congr_left fun x hx => ?_)
  obtain ⟨row,hrow,-⟩ := OperationEvalFn.mem_terms.mp hx
  have hc : x.1 < (cs.operations.getD operation []).length := (List.getElem?_eq_some_iff.mp hrow).1
  have hentry : (s.table cs scale operation).getD x.1 0 =
      scale operation * eqTensor (s.rXPrime.getD operation []) x.1 := by
    rw [WiringSections.table,if_neg (by omega),scaledTable,List.getD_eq_getElem?_getD,List.getElem?_map,
      List.getElem?_range (hc.trans_le (rows_le h operation)),Option.map_some,Option.getD_some]
  rw [hentry,mul_assoc]

theorem operations_mem (cs : System) {operation : ℕ} (hoperation : operation < operationCount) :
    cs.operations.getD operation [] ∈ cs.operations := by
  have hrows : operation < cs.operations.length := hoperation
  rw [List.getD_eq_getElem _ _ hrows]
  exact List.getElem_mem hrows

theorem terms_ok (h : s.Fits (cs.wiringShape inout)) (href : cs.Referenced) (scale : ℕ → F) {operation : ℕ}
    (hoperation : operation < operationCount) :
    ∀ x ∈ (OperationEvalFn.mk (cs.operations.getD operation [])).terms,
      (s.weights cs inout scale operation).term x.2.1 x.2.2 = .ok (s.termValue cs inout x.2) := by
  intro x hx
  have hrows := operations_mem cs hoperation
  exact term_ok h scale _ (cs.operand_lt hrows hx) (cs.referenced_iff.mp href _ hrows x hx)

structure Evaluates (eval : OperationEvalFn → WiringWeights F → Except AssertFailure F) : Prop where
  /-- The sum over the terms, when they have their weights and the table covers the constraints. -/
  ok : ∀ {op : OperationEvalFn} {weights : WiringWeights F} {g : ℕ × ShiftedValueIndex → F},
    op.constraints.length ≤ weights.constraint.length →
    (∀ x ∈ op.terms, weights.term x.2.1 x.2.2 = .ok (g x.2)) →
    eval op weights = .ok (op.termSum weights.constraint g)
  stop : ∀ {op : OperationEvalFn} {weights : WiringWeights F} {x : ℕ × ℕ × ShiftedValueIndex},
    op.constraints.length ≤ weights.constraint.length → x ∈ op.terms →
    weights.term x.2.1 x.2.2 = .error .failed → eval op weights = .error .failed

theorem evaluates_call : Evaluates (OperationEvalFn.call (F := F)) where
  ok := OperationEvalFn.call_ok
  stop hlen hterm := OperationEvalFn.call_stop hlen hterm

theorem evaluates_callNative (mul : WideMul 0 F) : Evaluates (OperationEvalFn.callNative mul) where
  ok := OperationEvalFn.callNative_ok mul
  stop hlen hterm := OperationEvalFn.callNative_stop mul hlen hterm

variable {eval : OperationEvalFn → WiringWeights F → Except AssertFailure F}

theorem operationEvals_ok [DecidableEq F] (heval : Evaluates eval) (h : s.Fits (cs.wiringShape inout))
    (href : cs.Referenced) (scale : ℕ → F) :
    (⟨cs,cs.wiringShape inout⟩ : WiringEvalFn).operationEvals (s.inputs cs inout scale) eval =
      .ok ((List.range operationCount).map fun operation =>
        scale operation * s.operationValue cs inout operation) := by
  unfold WiringEvalFn.operationEvals
  dsimp only [System.wiringShape]
  rw [operationInputs_value,ok_bind]
  refine mapM_eq_map fun operation hoperation => ?_
  have hi := List.mem_range.mp hoperation
  have hrows : operation < cs.operations.length := hi
  have htable : index (s.inputs cs inout scale).constraintTables operation = .ok (s.table cs scale operation) :=
    index_map_range _ hi
  rw [index_getD hrows [],ok_bind,htable,ok_bind,←termSum_table h scale operation]
  exact heval.ok (rows_le_table h scale operation) (terms_ok h href scale hi)

theorem operationEvals_stop [DecidableEq F] (heval : Evaluates eval) (h : s.Fits (cs.wiringShape inout))
    (href : ¬cs.Referenced) (scale : ℕ → F) :
    (⟨cs,cs.wiringShape inout⟩ : WiringEvalFn).operationEvals (s.inputs cs inout scale) eval = .error .failed := by
  rw [cs.referenced_iff] at href
  push Not at href
  obtain ⟨rows,hrows,x,hx,hreach⟩ := href
  obtain ⟨operation,hi,rfl⟩ := List.mem_iff_getElem.mp hrows
  rw [←List.getD_eq_getElem _ [] hi] at hx
  have hterm : (s.weights cs inout scale operation).term x.2.1 x.2.2 = .error .failed := by
    cases hrun : (s.weights cs inout scale operation).term x.2.1 x.2.2 with
    | ok weight => exact absurd (inReach_of_term rfl hrun) hreach
    | error e => rfl
  have htable : index (s.inputs cs inout scale).constraintTables operation = .ok (s.table cs scale operation) :=
    index_map_range _ hi
  unfold WiringEvalFn.operationEvals
  dsimp only [System.wiringShape]
  rw [operationInputs_value,ok_bind]
  obtain ⟨e,he⟩ := mapM_stop (List.mem_range.mpr hi) (e := .failed) (f := fun operation => do
    let constraints ← index cs.operations operation
    eval ⟨constraints⟩ ((s.inputs cs inout scale).operationWeights (cs.valueRuns inout s.word)
      (← index (s.inputs cs inout scale).constraintTables operation))) (by
    rw [index_getD hi [],ok_bind,htable,ok_bind]
    exact heval.stop (rows_le_table h scale operation) hx hterm)
  cases e
  exact he

end Operations

theorem sum_eqTensor_count {α : Type} {xs : List α} {point : List F} {address : α → ℕ}
    (h : ∀ x ∈ xs, address x < 2 ^ point.length) :
    (xs.map fun x => eqTensor point (address x)).sum =
      mle point fun a => ((xs.countP fun x => address x = a : ℕ) : F) := by
  induction xs with
  | nil => simp only [List.map_nil,List.sum_nil,List.countP_nil,Nat.cast_zero,mle_const]
  | cons x xs ih =>
    rw [List.map_cons,List.sum_cons,ih fun y hy => h y (List.mem_cons_of_mem _ hy),
      ←mle_single point (h x List.mem_cons_self),←mle_add]
    refine mle_congr fun a _ => ?_
    rw [List.countP_cons,Nat.cast_add,add_comm]
    by_cases hx : address x = a
    · simp only [hx,decide_true,if_true,Nat.cast_one]
    · simp only [hx,Ne.symm hx,decide_false,if_false,Bool.false_eq_true,Nat.cast_zero]

theorem natCast_parity [CharP F 2] (n : ℕ) : (n : F) = if n % 2 = 1 then 1 else 0 := by
  rw [CharP.cast_eq_mod F 2 n]
  rcases Nat.mod_two_eq_zero_or_one n with h | h
  · rw [h,Nat.cast_zero,if_neg (by decide)]
  · rw [h,Nat.cast_one,if_pos rfl]

section Extension

variable {s : WiringSections F} {cs : System} {inout : InoutSegment}

def WiringSections.point (s : WiringSections F) (operation : ℕ) : List F :=
  s.rXPrime.getD operation [] ++ s.operandBatch ++ s.above

def entryOf (x : ℕ × ℕ × ShiftedValueIndex) : WiringEntry :=
  ⟨x.1,x.2.1,x.2.2.inner.spelling,x.2.2.outer.spelling,x.2.2.valueIndex⟩

theorem entries_ok {op : OperationEvalFn} (h : ∀ x ∈ op.terms, InReach cs x.2.2) :
    op.entries = .ok (op.terms.map entryOf) := by
  refine mapM_eq_map fun x hx => ?_
  rw [Shift.index_run (h x hx).inner,ok_bind,Shift.index_run (h x hx).outer]
  rfl

theorem paddedAddress_lt (inout : InoutSegment) {v : ValueIndex} (hsegment : v.segment.isReferenceable = true)
    (hindex : v.index < cs.segmentLen v.segment) :
    cs.paddedAddress inout v < 2 ^ (cs.logSegmentWords inout + 1) := by
  have hpublic := cs.nPublicWords_le inout
  have hlow : 2 ^ cs.logPublicWords inout ≤ 2 ^ cs.logSegmentWords inout :=
    Nat.pow_le_pow_right Nat.two_pos (cs.logPublicWords_le inout)
  have hhidden := cs.nHiddenWords_le inout
  have htotal : cs.nPublicWords inout + cs.nHiddenWords inout = cs.valueVecLen := by
    cases inout with
    | shared => rfl
    | hidden => exact (Nat.add_assoc _ _ _).symm
  have hoffset : cs.wordOffset v < cs.valueVecLen := by
    rw [wordOffset_eq]
    unfold System.valueVecLen System.nPublicValues
    cases hv : v.segment with
    | scratch =>
      rw [hv] at hsegment
      cases hsegment
    | constant | inOut | priv =>
      simp only [hv,System.segmentLen,System.segmentStart,System.nPublicValues] at hindex ⊢
      omega
  rw [System.paddedAddress,System.addressAt,pow_succ]
  split <;> omega

theorem eqTensor_axis {low high : List F} {n l k : ℕ} (hn : low.length = n) (hl : l < 2 ^ n)
    (hk : k < 2 ^ high.length) :
    k * 2 ^ n + l < 2 ^ (low ++ high).length ∧
      eqTensor (low ++ high) (k * 2 ^ n + l) = eqTensor low l * eqTensor high k := by
  refine ⟨?_,eqTensor_split low high hn hl⟩
  have hmul : (k + 1) * 2 ^ n ≤ 2 ^ high.length * 2 ^ n := Nat.mul_le_mul_right _ hk
  rw [List.length_append,hn,add_comm n,pow_add]
  rw [Nat.succ_mul] at hmul
  omega

theorem eqTensor_address (h : s.Fits (cs.wiringShape inout)) (operation : ℕ) {x : ℕ × ℕ × ShiftedValueIndex}
    (hc : x.1 < 2 ^ (s.rXPrime.getD operation []).length) (ho : x.2.1 < 2 ^ logMaxArity)
    (hreach : InReach cs x.2.2) :
    (entryOf x).address cs inout (cs.logConstraints.getD operation 0) < 2 ^ (s.point operation).length ∧
      eqTensor (s.point operation) ((entryOf x).address cs inout (cs.logConstraints.getD operation 0)) =
        eqTensor (s.rXPrime.getD operation []) x.1 * s.termValue cs inout x.2 := by
  have hinner := Shift.spelling_lt hreach.inner
  have houter := Shift.spelling_lt hreach.outer
  have hword := paddedAddress_lt inout hreach.referenceable hreach.inSegment
  have hspelling : (s.rSInner ++ s.rVInner).length = logShiftCount := by
    rw [List.length_append,h.rSInner,h.rVInner]
    rfl
  have houterLen : (s.rSOuter ++ s.rVOuter).length = logShiftCount := by
    rw [List.length_append,h.rSOuter,h.rVOuter]
    rfl
  have hwordLen : s.word.length = cs.logSegmentWords inout + 1 := by
    rw [WiringSections.word,List.length_append,h.rY]
    rfl
  have hpoint : s.point operation = s.rXPrime.getD operation [] ++ (s.operandBatch ++
      ((s.rSInner ++ s.rVInner) ++ ((s.rSOuter ++ s.rVOuter) ++ s.word))) := by
    simp only [WiringSections.point,WiringSections.above,WiringSections.word,List.append_assoc]
  obtain ⟨hlt,hvalue⟩ := eqTensor_axis houterLen houter (hword.trans_eq (congrArg (2 ^ ·) hwordLen.symm))
  obtain ⟨hlt,hinnerValue⟩ := eqTensor_axis hspelling hinner hlt
  obtain ⟨hlt,hoperand⟩ := eqTensor_axis h.operandBatch ho hlt
  obtain ⟨hlt,hconstraint⟩ := eqTensor_axis rfl hc hlt
  have htable : eqTensor s.operandInner (x.2.2.inner.spelling * 2 ^ logMaxArity + x.2.1) =
      eqTensor s.operandBatch x.2.1 * eqTensor (s.rSInner ++ s.rVInner) x.2.2.inner.spelling := by
    rw [WiringSections.operandInner,List.append_assoc]
    exact eqTensor_split _ _ h.operandBatch ho
  rw [WiringEntry.address,hpoint,←length_section h]
  refine ⟨hlt,?_⟩
  rw [WiringSections.termValue,htable,WiringSections.outer]
  unfold entryOf
  dsimp only
  rw [hconstraint,hoperand,hinnerValue,hvalue,mul_assoc,mul_assoc]

theorem operationValue_extension [CharP F 2] (h : s.Fits (cs.wiringShape inout)) (href : cs.Referenced)
    {operation : ℕ} (hoperation : operation < operationCount) :
    ∃ entries, (OperationEvalFn.mk (cs.operations.getD operation [])).entries = .ok entries ∧
      s.operationValue cs inout operation = mle (s.point operation)
        (wiringTensor cs inout (cs.logConstraints.getD operation 0) entries) := by
  have hrows := operations_mem cs hoperation
  have hreach := cs.referenced_iff.mp href _ hrows
  have haddress (x : ℕ × ℕ × ShiftedValueIndex)
      (hx : x ∈ (OperationEvalFn.mk (cs.operations.getD operation [])).terms) :=
    eqTensor_address h operation (x := x) (by
      obtain ⟨row,hrow,-⟩ := OperationEvalFn.mem_terms.mp hx
      have hc : x.1 < (cs.operations.getD operation []).length := (List.getElem?_eq_some_iff.mp hrow).1
      exact hc.trans_le (rows_le h operation)) (cs.operand_lt hrows hx) (hreach x hx)
  refine ⟨_,entries_ok hreach,?_⟩
  have hsum := sum_eqTensor_count fun x hx => (haddress x hx).1
  rw [WiringSections.operationValue,
    List.map_congr_left fun x hx => (haddress x hx).2.symm,hsum]
  refine mle_congr fun a _ => ?_
  rw [natCast_parity,wiringTensor,List.countP_map]
  rfl

end Extension

section Whole

variable {s : WiringSections F} {cs : System} {inout : InoutSegment} {batch : List F}

theorem operationScales_run (hbatch : batch.length = logOperationCount) (rest : List F) :
    operationScales (batch ++ rest) = .ok ((List.range operationCount).map (eqTensor batch)) := by
  have hslice : slice (batch ++ rest) 0 logOperationCount = .ok batch :=
    slice_middle (show ([] : List F).length = 0 from rfl) ((Nat.zero_add _).trans hbatch)
  have hcount : 2 ^ batch.length = operationCount := by
    rw [hbatch]
    rfl
  rw [operationScales,hslice,ok_bind,eqIndPartialEvalScalars_oneCube,hcount]
  exact mapM_eq_map fun operation hoperation => index_map_range _ (List.mem_range.mp hoperation)

variable [DecidableEq F] (hbatch : batch.length = logOperationCount) (h : s.Fits (cs.wiringShape inout))
include hbatch h

theorem call_run (href : cs.Referenced) :
    (⟨cs,cs.wiringShape inout⟩ : WiringEvalFn).call (batch ++ s.flat) =
      .ok ((List.range operationCount).map fun operation =>
        eqTensor batch operation * s.operationValue cs inout operation).sum := by
  rw [WiringEvalFn.call,operationScales_run hbatch,ok_bind,wiringWeights_run hbatch h scalarExpand_run,ok_bind,
    operationEvals_ok evaluates_call h href]
  rfl

theorem callNative_run (mul : WideMul 0 F) (href : cs.Referenced) :
    (⟨cs,cs.wiringShape inout⟩ : WiringEvalFn).callNative mul (batch ++ s.flat) =
      .ok ((List.range operationCount).map fun operation =>
        eqTensor batch operation * s.operationValue cs inout operation).sum := by
  rw [WiringEvalFn.callNative,operationScales_run hbatch,ok_bind,wiringWeights_run hbatch h packedExpand_run,
    ok_bind,operationEvals_ok (evaluates_callNative mul) h href]
  rfl

theorem wiringWeights_unscaled :
    (⟨cs,cs.wiringShape inout⟩ : WiringEvalFn).wiringWeights (batch ++ s.flat) scalarExpand
      (List.replicate operationCount 1) = .ok (s.inputs cs inout fun _ => 1) := by
  have hones : List.replicate operationCount (1 : F) = (List.range operationCount).map fun _ => 1 := rfl
  rw [hones]
  exact wiringWeights_run hbatch h scalarExpand_run fun _ => 1

theorem splitByOperation_run (href : cs.Referenced) :
    (⟨cs,cs.wiringShape inout⟩ : WiringEvalFn).splitByOperation (batch ++ s.flat) =
      .ok ((List.range operationCount).map fun operation =>
        ⟨s.operationValue cs inout operation,s.point operation,eqTensor batch operation⟩) := by
  have hoperand : slice (batch ++ s.flat) logOperationCount (logOperationCount + logMaxArity) = .ok s.operandBatch :=
    slice_middle hbatch (by rw [h.operandBatch])
  have hrest : RestAt (batch ++ s.flat) (logOperationCount + logMaxArity) (s.rXPrime.flatten ++ s.above) :=
    ⟨batch ++ s.operandBatch,(List.append_assoc _ _ _).symm,by rw [List.length_append,hbatch,h.operandBatch]⟩
  obtain ⟨hruns,done,hdone,hoff⟩ := takeRuns_run hrest
  rw [h.rXPrime] at hruns hoff
  have habove : slice (batch ++ s.flat) (logOperationCount + logMaxArity + (cs.wiringShape inout).rXPrimeLens.sum)
      (batch ++ s.flat).length = .ok s.above := by
    have hslice : slice (done ++ (s.above ++ [])) _ _ = .ok s.above :=
      slice_middle hoff (Eq.refl (_ + s.above.length))
    rw [List.append_nil,←hdone] at hslice
    rw [←hslice,hdone,List.length_append,hoff]
  have hevals := operationEvals_ok evaluates_call h href fun _ => 1
  simp only [one_mul] at hevals
  unfold WiringEvalFn.splitByOperation
  dsimp only
  rw [wiringWeights_unscaled hbatch h,ok_bind,hevals,ok_bind,hoperand,ok_bind,hruns,ok_bind]
  dsimp only
  rw [habove,ok_bind,operationScales_run hbatch,ok_bind]
  refine mapM_eq_map fun operation hoperation => ?_
  have hi := List.mem_range.mp hoperation
  rw [index_map_range _ hi,ok_bind,index_getD (hi.trans_eq (length_rXPrime h).symm) [],ok_bind,
    index_map_range _ hi]
  rfl

theorem call_stops (href : ¬cs.Referenced) :
    (⟨cs,cs.wiringShape inout⟩ : WiringEvalFn).call (batch ++ s.flat) = .error .failed := by
  rw [WiringEvalFn.call,operationScales_run hbatch,ok_bind,wiringWeights_run hbatch h scalarExpand_run,ok_bind,
    operationEvals_stop evaluates_call h href]
  rfl

theorem callNative_stops (mul : WideMul 0 F) (href : ¬cs.Referenced) :
    (⟨cs,cs.wiringShape inout⟩ : WiringEvalFn).callNative mul (batch ++ s.flat) = .error .failed := by
  rw [WiringEvalFn.callNative,operationScales_run hbatch,ok_bind,wiringWeights_run hbatch h packedExpand_run,
    ok_bind,operationEvals_stop (evaluates_callNative mul) h href]
  rfl

theorem splitByOperation_stops (href : ¬cs.Referenced) :
    (⟨cs,cs.wiringShape inout⟩ : WiringEvalFn).splitByOperation (batch ++ s.flat) = .error .failed := by
  rw [WiringEvalFn.splitByOperation,wiringWeights_unscaled hbatch h,ok_bind,
    operationEvals_stop evaluates_call h href]
  rfl

end Whole

/-- The evaluation of the wiring at an input of the recorded length. The native evaluation and the weighted
sum of the shares agree with the generic one, also on where they stop, and it returns exactly on a system
whose terms are in reach. There it is the sum of the operations' weighted tensor extensions. -/
theorem wiring_exact [DecidableEq F] [CharP F 2] (mul : WideMul 0 F) (cs : System) (inout : InoutSegment)
    {vals : List F} (hvals : vals.length = (cs.wiringShape inout).inputLen) :
    let f : WiringEvalFn := ⟨cs,cs.wiringShape inout⟩
    f.callNative mul vals = f.call vals ∧
    f.call vals = (do return ((← f.splitByOperation vals).map fun share => share.weight * share.eval).sum) ∧
    ((∃ value, f.call vals = .ok value) ↔ cs.Referenced) ∧
    ∃ (batch : List F) (s : WiringSections F), batch.length = logOperationCount ∧
      s.Fits (cs.wiringShape inout) ∧ vals = batch ++ s.flat ∧
      (cs.Referenced → ∃ (shares : List (OperationShare F)) (entries : ℕ → List WiringEntry),
        f.splitByOperation vals = .ok shares ∧ shares.length = operationCount ∧
        f.call vals = .ok (∑ operation ∈ range operationCount, eqTensor batch operation *
          mle (s.point operation) (wiringTensor cs inout (cs.logConstraints.getD operation 0) (entries operation))) ∧
        ∀ operation share, shares[operation]? = some share → ∃ rows, cs.operations[operation]? = some rows ∧
          (OperationEvalFn.mk rows).entries = .ok (entries operation) ∧
          share.weight = eqTensor batch operation ∧ share.point = s.point operation ∧
          share.eval = mle share.point
            (wiringTensor cs inout (cs.logConstraints.getD operation 0) (entries operation)) ∧
          (rows = [] → share.eval = 0)) ∧
      ∃ scales inputs runs, operationScales vals = .ok scales ∧
        f.wiringWeights vals scalarExpand scales = .ok inputs ∧ f.wiringWeights vals packedExpand scales = .ok inputs ∧
        inputs.valueTensor cs inout = .ok runs ∧
        ∀ v : ValueIndex, v.segment.isReferenceable = true → v.index < cs.segmentLen v.segment →
          (do index (← index runs v.segment.tag) v.index) =
            .ok (eqTensor (s.rY ++ [s.rSegment]) (cs.paddedAddress inout v)) := by
  obtain ⟨batch,s,hbatch,h,rfl⟩ := exists_sections hvals
  dsimp only
  have htables : ∃ scales inputs runs, operationScales (batch ++ s.flat) = .ok scales ∧
      (⟨cs,cs.wiringShape inout⟩ : WiringEvalFn).wiringWeights (batch ++ s.flat) scalarExpand scales = .ok inputs ∧
      (⟨cs,cs.wiringShape inout⟩ : WiringEvalFn).wiringWeights (batch ++ s.flat) packedExpand scales = .ok inputs ∧
      inputs.valueTensor cs inout = .ok runs ∧
      ∀ v : ValueIndex, v.segment.isReferenceable = true → v.index < cs.segmentLen v.segment →
        (do index (← index runs v.segment.tag) v.index) =
          .ok (eqTensor (s.rY ++ [s.rSegment]) (cs.paddedAddress inout v)) := by
    refine ⟨_,_,_,operationScales_run hbatch _,wiringWeights_run hbatch h scalarExpand_run _,
      wiringWeights_run hbatch h packedExpand_run _,operationInputs_value _,fun v hsegment hindex => ?_⟩
    rw [index_valueRuns _ hsegment,ok_bind]
    exact index_valueRun _ hindex
  by_cases href : cs.Referenced
  · have hextension (operation : ℕ) (hi : operation < operationCount) :=
      operationValue_extension h href hi
    choose! entries hentries hvalue using hextension
    have hsum : ((List.range operationCount).map fun operation =>
        eqTensor batch operation * s.operationValue cs inout operation).sum =
        ∑ operation ∈ range operationCount, eqTensor batch operation *
          mle (s.point operation) (wiringTensor cs inout (cs.logConstraints.getD operation 0) (entries operation)) := by
      have hrange : ((List.range operationCount).map fun operation =>
          eqTensor batch operation * s.operationValue cs inout operation).sum =
          ∑ operation ∈ range operationCount, eqTensor batch operation * s.operationValue cs inout operation := rfl
      rw [hrange]
      exact sum_congr rfl fun operation hoperation => by rw [hvalue operation (mem_range.mp hoperation)]
    rw [callNative_run hbatch h mul href,call_run hbatch h href,splitByOperation_run hbatch h href]
    refine ⟨rfl,?_,⟨fun _ => href,fun _ => ⟨_,rfl⟩⟩,batch,s,hbatch,h,rfl,fun _ => ⟨_,entries,rfl,?_,
      congrArg Except.ok hsum,fun operation share hshare => ?_⟩,htables⟩
    · rw [ok_bind,List.map_map]
      rfl
    · rw [List.length_map,List.length_range]
    · rw [List.getElem?_map,Option.map_eq_some_iff] at hshare
      obtain ⟨i,hi,rfl⟩ := hshare
      obtain ⟨hlt,hget⟩ := List.getElem?_eq_some_iff.mp hi
      rw [List.getElem_range] at hget
      subst hget
      rw [List.length_range] at hlt
      have hrows : operation < cs.operations.length := hlt
      refine ⟨cs.operations.getD operation [],?_,hentries operation hlt,rfl,rfl,hvalue operation hlt,fun hempty => ?_⟩
      · rw [List.getD_eq_getElem _ _ hrows,List.getElem?_eq_getElem hrows]
      · rw [WiringSections.operationValue,hempty]
        rfl
  · rw [callNative_stops hbatch h mul href,call_stops hbatch h href,splitByOperation_stops hbatch h href]
    refine ⟨rfl,rfl,⟨fun hrun => ?_,fun hreach => absurd hreach href⟩,batch,s,hbatch,h,rfl,
      fun hreach => absurd hreach href,htables⟩
    obtain ⟨_,hvalue⟩ := hrun
    cases hvalue

/-- One AND constraint between an inout value, a private value named twice and a shifted one. -/
def oneConjunction : System where
  constants := []
  nInout := 1
  nPrivate := 3
  zeroConstraints := []
  andConstraints := [⟨[.plain ⟨.inOut,0,zero_lt_segmentCapacity⟩],[.plain ⟨.priv,0,zero_lt_segmentCapacity⟩,.plain ⟨.priv,0,zero_lt_segmentCapacity⟩],
    [.single ⟨.priv,2,by decide⟩ ⟨.sll,5⟩]⟩]
  imulConstraints := []
  bmulConstraints := []

/-- The evaluations agree on one constraint, at a vertex of its tensor. -/
theorem wiring_exact_conjunction :
    (oneConjunction.wiringShape .shared).inputLen = 26 ∧
      (⟨oneConjunction,oneConjunction.wiringShape .shared⟩ : WiringEvalFn).callNative (.eager 0 (ZMod 2))
        (List.replicate 26 1) =
      (⟨oneConjunction,oneConjunction.wiringShape .shared⟩ : WiringEvalFn).call (List.replicate 26 1) :=
  ⟨by decide,(wiring_exact (.eager 0 (ZMod 2)) oneConjunction .shared (by decide)).1⟩

end Binius64.ConstraintSystem
