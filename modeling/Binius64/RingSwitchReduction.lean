import Binius64.RingSwitch
import Mathlib.FieldTheory.Finite.GaloisField

/-!
# What ring switching reduces

The folds of the bit columns recombine to the claim about the multilinear of bits, and their batch
is the claim about the packed multilinear against the indicator.
-/

namespace Binius64.RingSwitch

open Finset Ntt CheckedRun InplaceEvaluation EqualityTensor RowFold SumcheckVerify VerifierChannel
open ExtensionField
open Binius64.RingSwitch.TensorAlgebra
open LogupStar (sampleMany)
open List (getD_eq_getElem getElem?_map getElem_map getElem_range length_append length_map
  length_range range' replicate)
open LinearMap (comp_apply ext mulRight mulRight_apply)

variable {F : Type} [Field F] [Algebra (ZMod 2) F] [ExtensionField F] {w : ℕ}

section Slices

omit [Algebra (ZMod 2) F] [ExtensionField F]

theorem asRef_getD (buffer : Buffer F) (i : ℕ) :
    (asRef buffer).getD i 0 = if i < 2 ^ buffer.logLen then buffer.scalars i else 0 := by
  rw [asRef,Nat.shiftLeft_eq,one_mul,List.getD_eq_getElem?_getD,getElem?_map]
  by_cases hi : i < 2 ^ buffer.logLen
  · rw [if_pos hi,List.getElem?_range hi]
    rfl
  · rw [if_neg hi,List.getElem?_eq_none (by rw [length_range]; exact not_lt.mp hi)]
    rfl

omit [Field F] in
theorem asRef_length (buffer : Buffer F) : (asRef buffer).length = 2 ^ buffer.logLen := by
  rw [asRef,length_map,length_range,Nat.shiftLeft_eq,one_mul]

theorem asRef_eqIndPartialEval (point : List F) :
    asRef (eqIndPartialEval point) = eqIndPartialEvalScalars point := by
  refine List.ext_getElem ?_ fun i hi hi' => ?_
  · rw [asRef_length,eqIndPartialEvalScalars_length]
    rfl
  · simp only [asRef,eqIndPartialEval,getElem_map,getElem_range]
    exact getD_eq_getElem _ _ hi'

theorem eqIndPartialEval_scalars (point : List F) {i : ℕ} (hi : i < 2 ^ point.length) :
    (eqIndPartialEval point).scalars i = eqTensor point i := by
  rw [eqIndPartialEval,eqIndPartialEvalScalars_eq]
  simp only
  rw [getD_eq_getElem _ _ (by rw [length_map,length_range]; exact hi),
    getElem_map,getElem_range]

def blockRow (mat : PackedBuffer w F) (lo block r : ℕ) : F :=
  (iterSlice ((range' (block * 1 <<< (lo - w)) (1 <<< (lo - w))).map mat.elems)).getD r 0

theorem blockRow_eq (mat : PackedBuffer w F) {lo block r : ℕ} (h : w ≤ lo ∨ block = 0)
    (hr : r < 2 ^ lo) : blockRow mat lo block r = mat.get (block * 2 ^ lo + r) := by
  have hlt : r / 2 ^ w < 2 ^ (lo - w) := by
    rw [Nat.div_lt_iff_lt_mul (Nat.two_pow_pos w),←pow_add]
    exact hr.trans_le (Nat.pow_le_pow_right (by decide) (by omega))
  have hdiv : (block * 2 ^ lo + r) / 2 ^ w = block * 2 ^ (lo - w) + r / 2 ^ w ∧
      (block * 2 ^ lo + r) % 2 ^ w = r % 2 ^ w := by
    rcases h with hw | rfl
    · have hpow : block * 2 ^ lo = 2 ^ w * (block * 2 ^ (lo - w)) := by
        rw [mul_left_comm,←pow_add,Nat.add_sub_cancel' hw]
      rw [hpow,Nat.mul_add_div (Nat.two_pow_pos w),Nat.mul_add_mod]
      exact ⟨rfl,rfl⟩
    · rw [zero_mul,zero_add,zero_mul,zero_add]
      exact ⟨rfl,rfl⟩
  have hlen : r / 2 ^ w < ((range' (block * 2 ^ (lo - w)) (2 ^ (lo - w))).map mat.elems).length := by
    rw [length_map,List.length_range']
    exact hlt
  rw [blockRow,Nat.shiftLeft_eq,one_mul,iterSlice_getD _ hlen,getElem_map,List.getElem_range',
    one_mul,PackedBuffer.get,hdiv.1,hdiv.2]

end Slices

def factorTensor (eqLo eqHi : Buffer F) (x : ℕ) : F :=
  eqLo.scalars (x % 2 ^ eqLo.logLen) * eqHi.scalars (x / 2 ^ eqLo.logLen)

omit [Algebra (ZMod 2) F] [ExtensionField F] in
theorem factorTensor_block (eqLo eqHi : Buffer F) (block : ℕ) {r : ℕ} (hr : r < 2 ^ eqLo.logLen) :
    factorTensor eqLo eqHi (block * 2 ^ eqLo.logLen + r) = eqLo.scalars r * eqHi.scalars block := by
  rw [factorTensor,mul_comm block,Nat.mul_add_mod,Nat.mod_eq_of_lt hr,
    Nat.mul_add_div (Nat.two_pow_pos _),Nat.div_eq_of_lt hr,add_zero]

variable (mat packed : PackedBuffer w F)

theorem foldBlock_run (eqLo : Buffer F) {block : ℕ}
    (hw : w ≤ eqLo.logLen ∨ block = 0) (hlo : eqLo.logLen ≤ logDegree F) :
    ∃ sums : ColumnSums F, foldInto (rowFoldTable (asRef eqLo))
        (fun g t => castBases (blockRow mat eqLo.logLen block (8 * g + t))) (fun _ _ => 0) = .ok sums ∧
      ∀ v < degree F, sums.column v = ∑ r ∈ range (2 ^ eqLo.logLen),
        coord (mat.get (block * 2 ^ eqLo.logLen + r)) v • eqLo.scalars r := by
  obtain ⟨sums,hsums,hcols⟩ := foldInto_run byteWide (asRef eqLo)
    (fun r => castBases (blockRow mat eqLo.logLen block r)) fun _ _ => 0
  refine ⟨sums,hsums,fun v hv => ?_⟩
  have hinside : range (2 ^ eqLo.logLen) ⊆ range (2 ^ logDegree F) :=
    range_subset_range.mpr (Nat.pow_le_pow_right (by decide) hlo)
  rw [hcols v (by rw [←degree_eq]; exact hv),ColumnSums.column,zero_add,←sum_subset hinside]
  · refine sum_congr rfl fun r hr => ?_
    have hr' := mem_range.mp hr
    rw [asRef_getD,if_pos hr',blockRow_eq mat hw hr',coord]
  · intro r _ hr
    rw [asRef_getD,if_neg fun h => hr (mem_range.mpr h),smul_zero]

theorem foldBlocks_run (eqLo eqHi : Buffer F)
    (hw : w ≤ eqLo.logLen ∨ eqHi.logLen = 0) (hlo : eqLo.logLen ≤ logDegree F) {n : ℕ}
    (hn : n ≤ 2 ^ eqHi.logLen) :
    ∃ acc : Memory F, (List.range n).foldlM (fun acc block => do
        let sums ← foldInto (rowFoldTable (asRef eqLo))
          (fun g t => castBases (blockRow mat eqLo.logLen block (8 * g + t))) fun _ _ => 0
        return fun i => acc i + sums.column i * eqHi.scalars block) (fun _ => 0) =
          (.ok acc : Except AssertFailure (Memory F)) ∧
      ∀ v < degree F, acc v = ∑ block ∈ range n, (∑ r ∈ range (2 ^ eqLo.logLen),
        coord (mat.get (block * 2 ^ eqLo.logLen + r)) v • eqLo.scalars r) * eqHi.scalars block := by
  induction n with
  | zero => exact ⟨fun _ => 0,rfl,fun v _ => rfl⟩
  | succ n ih =>
    obtain ⟨acc,hacc,hvals⟩ := ih (by omega)
    have haligned : w ≤ eqLo.logLen ∨ n = 0 := by
      refine hw.imp id fun hhi => ?_
      rw [hhi,pow_zero] at hn
      omega
    obtain ⟨sums,hsums,hcols⟩ := foldBlock_run mat eqLo haligned hlo
    refine ⟨fun i => acc i + sums.column i * eqHi.scalars n,?_,fun v hv => ?_⟩
    · rw [List.range_succ,List.foldlM_append,hacc,ok_bind,List.foldlM_cons,hsums,ok_bind]
      rfl
    · rw [sum_range_succ,←hvals v hv,←hcols v hv]

theorem fold_run (eqLo eqHi : Buffer F)
    (hlen : mat.logLen = eqLo.logLen + eqHi.logLen) (hw : w ≤ eqLo.logLen ∨ eqHi.logLen = 0)
    (hlo : eqLo.logLen ≤ logDegree F) :
    ∃ out, fold1bRowsForB128Split mat eqLo eqHi = .ok out ∧ out.logLen = logDegree F ∧
      ∀ v < degree F, out.scalars v = rowFold mat (factorTensor eqLo eqHi) v := by
  have hblocks : min (mat.packedLen / 1 <<< (eqLo.logLen - w)) (1 <<< eqHi.logLen) =
      2 ^ eqHi.logLen := by
    rw [PackedBuffer.packedLen,Nat.shiftLeft_eq,Nat.shiftLeft_eq,Nat.shiftLeft_eq,one_mul,one_mul,
      one_mul,Nat.pow_div (by omega) (by decide)]
    refine min_eq_right (Nat.pow_le_pow_right (by decide) ?_)
    omega
  obtain ⟨acc,hacc,hvals⟩ := foldBlocks_run mat eqLo eqHi hw hlo le_rfl
  refine ⟨⟨logDegree F,acc⟩,?_,rfl,fun v hv => ?_⟩
  · rw [fold1bRowsForB128Split,require_true hlen,require_true hw,require_true hlo]
    simp only [ok_bind,hblocks]
    have hrun := congrArg (fun run : Except AssertFailure (Memory F) =>
      run.bind fun acc => pure (⟨logDegree F,acc⟩ : Buffer F)) hacc
    exact hrun
  · rw [rowFold,hlen,pow_add,sum_range_mul]
    refine (hvals v hv).trans (sum_congr rfl fun block _ => ?_)
    rw [sum_mul]
    refine sum_congr rfl fun r hr => ?_
    rw [factorTensor_block eqLo eqHi block (mem_range.mp hr),smul_mul_assoc]

theorem rsEqInd_run (eqLo eqHi rowBatchQuery : Buffer F)
    (hw : w ≤ eqLo.logLen ∨ eqHi.logLen = 0) (hquery : rowBatchQuery.logLen = logDegree F) :
    ∃ out, rsEqIndFromFactors w eqLo eqHi rowBatchQuery = .ok out ∧
      out.logLen = eqLo.logLen + eqHi.logLen ∧ ∀ x < 2 ^ (eqLo.logLen + eqHi.logLen),
        out.get x = rowBatch rowBatchQuery.scalars (factorTensor eqLo eqHi x) := by
  have hcols : (asRef rowBatchQuery).length = 2 ^ logDegree F := by rw [asRef_length,hquery]
  refine ⟨_,by rw [rsEqIndFromFactors,require_true hw,require_true hquery,ok_bind,ok_bind,
    bytewiseLookup_run hcols,ok_bind]; rfl,rfl,fun x hx => ?_⟩
  have hlane : x % 2 ^ w < 2 ^ w := Nat.mod_lt x (Nat.two_pow_pos w)
  have hlow : x % 2 ^ eqLo.logLen < 2 ^ eqLo.logLen := Nat.mod_lt x (Nat.two_pow_pos _)
  -- the slot of an entry in its block, and its place in the low factor
  have hsplit : x / 2 ^ w / 2 ^ (eqLo.logLen - w) = x / 2 ^ eqLo.logLen ∧
      x / 2 ^ w % 2 ^ (eqLo.logLen - w) * 2 ^ w + x % 2 ^ w = x % 2 ^ eqLo.logLen := by
    rcases Nat.lt_or_ge eqLo.logLen w with hshort | hlong
    · have hhi := hw.resolve_left (not_le.mpr hshort)
      rw [hhi,add_zero] at hx
      have hxw : x < 2 ^ w := hx.trans (Nat.pow_lt_pow_right (by decide) hshort)
      rw [Nat.div_eq_of_lt hxw,Nat.div_eq_of_lt hx,Nat.zero_div,Nat.zero_mod,zero_mul,zero_add,
        Nat.mod_eq_of_lt hxw,Nat.mod_eq_of_lt hx]
      exact ⟨rfl,rfl⟩
    · have hpow : 2 ^ eqLo.logLen = 2 ^ w * 2 ^ (eqLo.logLen - w) := by
        rw [←pow_add,Nat.add_sub_cancel' hlong]
      rw [hpow,Nat.div_div_eq_div_mul,Nat.mod_mul]
      exact ⟨rfl,by ring⟩
  have hentry : ∀ y : F, transform (fun i => expandSubsetSumsArray
      (((asRef rowBatchQuery).drop (8 * i)).take 8)) (castBases y) = rowBatch rowBatchQuery.scalars y := by
    intro y
    rw [transform_eq byteWide hcols,rowBatch_apply,degree_eq]
    refine sum_congr rfl fun j hj => ?_
    rw [asRef_getD,hquery,if_pos (mem_range.mp hj),coord]
  have hlo : (asRef eqLo)[x / 2 ^ w % 2 ^ (eqLo.logLen - w) * 2 ^ w + x % 2 ^ w]? =
      some (eqLo.scalars (x % 2 ^ eqLo.logLen)) := by
    rw [hsplit.2,asRef,getElem?_map,Nat.shiftLeft_eq,one_mul,List.getElem?_range hlow,
      Option.map_some]
  rw [PackedBuffer.get,PackedField.get,dif_pos hlane]
  simp only [fromScalars,Nat.shiftLeft_eq,one_mul]
  rw [List.getD_eq_getElem?_getD,getElem?_map,List.getElem?_take_of_lt hlane,List.getElem?_drop,
    hlo,Option.map_some,Option.getD_some,hentry,hsplit.1,factorTensor]

omit [Algebra (ZMod 2) F] [ExtensionField F] in
theorem factorTensor_expansions (lo hi : List F) {x : ℕ} (hx : x < 2 ^ (lo.length + hi.length)) :
    factorTensor (eqIndPartialEval lo) (eqIndPartialEval hi) x = eqTensor (lo ++ hi) x := by
  have hhigh : x / 2 ^ lo.length < 2 ^ hi.length := by
    rw [Nat.div_lt_iff_lt_mul (Nat.two_pow_pos _),←pow_add,add_comm]
    exact hx
  have hlow : x % 2 ^ lo.length < 2 ^ lo.length := Nat.mod_lt x (Nat.two_pow_pos _)
  calc factorTensor (eqIndPartialEval lo) (eqIndPartialEval hi) x
      = eqTensor lo (x % 2 ^ lo.length) * eqTensor hi (x / 2 ^ lo.length) := by
        rw [←eqIndPartialEval_scalars lo hlow,←eqIndPartialEval_scalars hi hhigh]
        rfl
    _ = eqTensor (lo ++ hi) x := by rw [eqTensor_mod,eqTensor_append]

theorem rowFold_congr {a b : ℕ → F} (h : ∀ x < 2 ^ packed.logLen, a x = b x)
    (v : ℕ) : rowFold packed a v = rowFold packed b v :=
  sum_congr rfl fun x hx => by rw [h x (mem_range.mp hx)]

theorem rowFold_recombine {low high : List F}
    (hlow : low.length = logDegree F) (hhigh : high.length = packed.logLen) :
    evaluateLoop low (rowFold packed (eqTensor high)) 0 =
      evaluateLoop (low ++ high) (bitPolynomial packed) 0 := by
  rw [evaluateLoop_eq_sum,evaluateLoop_eq_sum,length_append,pow_add,sum_range_mul,hlow,hhigh]
  simp only [rowFold,mul_sum]
  rw [sum_comm]
  refine sum_congr rfl fun x _ => sum_congr rfl fun v hv => ?_
  have hv' := mem_range.mp hv
  have hdiv : (x * 2 ^ logDegree F + v) / 2 ^ logDegree F = x := by
    rw [mul_comm,Nat.mul_add_div (Nat.two_pow_pos _),Nat.div_eq_of_lt hv',add_zero]
  have hmod : (x * 2 ^ logDegree F + v) % 2 ^ logDegree F = v := by
    rw [mul_comm,Nat.mul_add_mod,Nat.mod_eq_of_lt hv']
  have htensor : eqTensor low (x * 2 ^ logDegree F + v) = eqTensor low v := by
    rw [←eqTensor_mod,hlow,hmod]
  rw [eqTensor_append,htensor,hlow,hdiv,bitPolynomial,hdiv,hmod,Algebra.smul_def]
  ring

theorem batched_claim (tensor c : ℕ → F) {t : TensorAlgebra F}
    (ht : ∀ v < degree F, t.elem v = rowFold packed tensor v) :
    ∑ j ∈ range (degree F), c j * t.transpose.elem j =
      ∑ x ∈ range (2 ^ packed.logLen), packed.get x * rowBatch c (tensor x) := by
  calc ∑ j ∈ range (degree F), c j * t.transpose.elem j = t.against (rowBatch c) := by
        rw [against_eq_transpose]
        exact sum_congr rfl fun j hj => by rw [rowBatch_basis c (mem_range.mp hj)]
    _ = ∑ v ∈ range (degree F), ∑ x ∈ range (2 ^ packed.logLen),
          coord (packed.get x) v • basis v * rowBatch c (tensor x) := by
        refine sum_congr rfl fun v hv => ?_
        rw [ht v (mem_range.mp hv),rowFold,map_sum,mul_sum]
        refine sum_congr rfl fun x _ => ?_
        rw [map_smul,mul_smul_comm,smul_mul_assoc]
    _ = ∑ x ∈ range (2 ^ packed.logLen), packed.get x * rowBatch c (tensor x) := by
        rw [sum_comm]
        refine sum_congr rfl fun x _ => ?_
        rw [←sum_mul,sum_coord_basis]

theorem against_indicator (ψ : F →ₗ[ZMod 2] F) (zs qs : List F) (h : zs.length = qs.length)
    (t : TensorAlgebra F) :
    ((zs.zip qs).foldl (fun eval entry =>
      (eval.add (eval.scaleVertical entry.1)).add (eval.scaleHorizontal entry.2)) t).against ψ =
        ∑ x ∈ range (2 ^ qs.length),
          eqTensor qs x * t.against (ψ ∘ₗ mulRight (ZMod 2) (eqTensor zs x)) := by
  induction zs generalizing qs t with
  | nil =>
    cases qs with
    | cons q qs => cases h
    | nil =>
      rw [List.zip_nil_left,List.foldl_nil,List.length_nil,pow_zero,sum_range_one,eqTensor,
        one_mul,LinearMap.mulRight_one]
      rfl
  | cons z zs ih =>
    cases qs with
    | nil => cases h
    | cons q qs =>
      rw [List.zip_cons_cons,List.foldl_cons,ih qs (Nat.succ.inj h),List.length_cons,pow_succ',
        sum_range_even_odd]
      refine sum_congr rfl fun x _ => ?_
      -- the map after the scaling of one coordinate, at its two values
      have hone : t.against ((ψ ∘ₗ mulRight (ZMod 2) (eqTensor zs x)) ∘ₗ
          mulRight (ZMod 2) z) =
            t.against (ψ ∘ₗ mulRight (ZMod 2) (z * eqTensor zs x)) := by
        refine congrArg (fun φ => t.against φ) (ext fun y => ?_)
        exact congrArg ψ (mul_assoc y z _)
      have hzero : t.against (ψ ∘ₗ mulRight (ZMod 2) ((1 - z) * eqTensor zs x)) =
          t.against (ψ ∘ₗ mulRight (ZMod 2) (eqTensor zs x)) -
            t.against (ψ ∘ₗ mulRight (ZMod 2) (z * eqTensor zs x)) := by
        rw [against,against,against,←sum_sub_distrib]
        refine sum_congr rfl fun v _ => ?_
        rw [←mul_sub,comp_apply,comp_apply,comp_apply,←map_sub]
        refine congrArg (fun y => basis v * ψ y) ?_
        rw [mulRight_apply,mulRight_apply,mulRight_apply]
        ring
      have hchar : (2 : F) = 0 := by
        have htwo := map_ofNat (algebraMap (ZMod 2) F) 2
        rw [←htwo,show (OfNat.ofNat 2 : ZMod 2) = 0 by rfl,map_zero]
      have heven : ∀ (r : F) (rs : List F), eqTensor (r :: rs) (2 * x) = (1 - r) * eqTensor rs x := by
        intro r rs
        rw [eqTensor,Nat.mul_mod_right,if_pos rfl,Nat.mul_div_cancel_left x Nat.two_pos]
      have hnext : ∀ (r : F) (rs : List F), eqTensor (r :: rs) (2 * x + 1) = r * eqTensor rs x := by
        intro r rs
        rw [eqTensor,if_neg (by omega : ¬(2 * x + 1) % 2 = 0),(by omega : (2 * x + 1) / 2 = x)]
      rw [against_add,against_add,against_scaleVertical,against_scaleHorizontal,hone,heven,heven,hnext,
        hnext,hzero]
      linear_combination (eqTensor qs x * q * (t.against (ψ ∘ₗ mulRight (ZMod 2) (eqTensor zs x)) -
        t.against (ψ ∘ₗ mulRight (ZMod 2) (z * eqTensor zs x))) + eqTensor qs x *
          t.against (ψ ∘ₗ mulRight (ZMod 2) (z * eqTensor zs x))) * hchar

theorem evalRsEq_run {zVals query coeffs : List F} (h : zVals.length = query.length)
    (hcoeffs : coeffs.length = degree F) : evalRsEq zVals query coeffs =
      .ok (∑ x ∈ range (2 ^ query.length),
        eqTensor query x * rowBatch (fun j => coeffs.getD j 0) (eqTensor zVals x)) := by
  rw [evalRsEq,require_true h,require_true hcoeffs,ok_bind,ok_bind]
  refine congrArg Except.ok ?_
  rw [foldVertical_eq _ hcoeffs,against_indicator _ _ _ h]
  refine sum_congr rfl fun x _ => ?_
  rw [against_fromVertical,comp_apply,mulRight_apply,one_mul]

def columnFolds (packed : PackedBuffer w F) (tensor : ℕ → F) : List F :=
  (List.range (degree F)).map (rowFold packed tensor)

theorem columnFolds_length (tensor : ℕ → F) :
    (columnFolds packed tensor).length = degree F := by
  rw [columnFolds,length_map,length_range]

theorem columnFolds_getD (tensor : ℕ → F) {v : ℕ} (hv : v < degree F) :
    (columnFolds packed tensor).getD v 0 = rowFold packed tensor v := by
  rw [getD_eq_getElem _ _ (by rw [columnFolds_length]; exact hv)]
  simp only [columnFolds,getElem_map,getElem_range]

theorem elem_new {elems : List F} (h : elems.length = degree F) (v : ℕ) :
    (TensorAlgebra.new elems).elem v = elems.getD v 0 := by
  have hsame : (TensorAlgebra.new elems).elems = elems := by
    simp only [TensorAlgebra.new,LogupStar.resize]
    rw [h,Nat.sub_self,List.replicate_zero,List.append_nil,←h,List.take_length]
  rw [elem,hsame]

theorem rowBatch_congr {c c' : ℕ → F} (h : ∀ j < degree F, c j = c' j) : rowBatch c = rowBatch c' :=
  ext fun x => by
    rw [rowBatch_apply,rowBatch_apply]
    exact sum_congr rfl fun j hj => by rw [h j (mem_range.mp hj)]

def batchOf (folds : List F) (challenges : ℕ → F) : F :=
  ∑ j ∈ range (degree F),
    eqTensor ((List.range (logDegree F)).map challenges) j * (TensorAlgebra.new folds).transpose.elem j

theorem verify_run [DecidableEq F] (claim : F) {point folds : List F} (messages : List F)
    (challenges : ℕ → F) (hpoint : logDegree F ≤ point.length) (hfolds : folds.length = degree F) :
    verify claim point ⟨folds ++ messages,challenges⟩ =
      if claim = evaluateLoop (point.take (logDegree F)) (fun i => folds.getD i 0) 0 then
        .ok (⟨eqIndPartialEvalScalars ((List.range (logDegree F)).map challenges),
          batchOf folds challenges⟩,⟨messages,fun i => challenges (i + logDegree F)⟩)
      else .error (.channel .invalidAssert) := by
  have hrecv := recvMany_run folds messages challenges
  rw [hfolds,degree] at hrecv
  have hlow : (valuesOf folds).len = 1 <<< (point.take (logDegree F)).length := by
    rw [valuesOf,List.length_take_of_le hpoint,hfolds,degree]
  have hhigh : (valuesOf (TensorAlgebra.new folds).transpose.elems).len =
      1 <<< ((List.range (logDegree F)).map challenges).length := by
    rw [valuesOf,(TensorAlgebra.new folds).transpose.len,length_map,length_range,degree]
  have hrecombined := evaluateInplaceScalars_run hlow
  have hbatch := evaluateInplaceScalars_run hhigh
  have hvalue : evaluateLoop ((List.range (logDegree F)).map challenges)
      (valuesOf (TensorAlgebra.new folds).transpose.elems).scalars 0 = batchOf folds challenges := by
    rw [evaluateLoop_eq_sum,length_map,length_range,batchOf,degree_eq]
    rfl
  have hassert : assertZero (claim - evaluateLoop (point.take (logDegree F)) (fun i => folds.getD i 0) 0)
      (⟨messages,challenges⟩ : Channel F) =
        if claim = evaluateLoop (point.take (logDegree F)) (fun i => folds.getD i 0) 0 then
          .ok ((),⟨messages,challenges⟩) else .error .invalidAssert := by
    rw [assertZero]
    simp only [sub_eq_zero]
  rw [hvalue] at hbatch
  have hrun : verify claim point ⟨folds ++ messages,challenges⟩ = (do
      onChannel (assertZero (claim -
        evaluateLoop (point.take (logDegree F)) (fun i => folds.getD i 0) 0))
      let rDoublePrime ← onChannel (sampleMany (logDegree F))
      let sumcheckClaim ← asserting
        (evaluateInplaceScalars (valuesOf (TensorAlgebra.new folds).transpose.elems) rDoublePrime)
      return ⟨eqIndPartialEvalScalars rDoublePrime,sumcheckClaim⟩ :
        RingSwitchM F (RingSwitchVerifyOutput F)) ⟨messages,challenges⟩ := by
    simp only [verify,bind,StateT.bind,Except.bind,onChannel,asserting,require_true hpoint,hrecv,
      Except.mapError,Except.map,hrecombined]
    rfl
  rw [hrun]
  simp only [bind,StateT.bind,Except.bind,onChannel,asserting,hassert]
  by_cases hclaim : claim = evaluateLoop (point.take (logDegree F)) (fun i => folds.getD i 0) 0
  · rw [if_pos hclaim,if_pos hclaim]
    simp only [Except.mapError,sampleMany_run,hbatch,Except.map]
    rfl
  · rw [if_neg hclaim,if_neg hclaim]
    rfl

theorem expandTensorFactors_eq (point : List F) :
    ∃ lo hi, expandTensorFactors point = (eqIndPartialEval lo,eqIndPartialEval hi) ∧ lo ++ hi = point ∧
      lo.length = min point.length (logDegree F) :=
  ⟨_,_,rfl,List.take_append_drop _ _,by
    rw [List.length_take]
    omega⟩

theorem batch_differs {folds other : List F} (hfolds : folds.length = degree F)
    (hother : other.length = degree F) (hne : other ≠ folds) :
    ∃ Q : MvPolynomial ℕ F, Q ≠ 0 ∧ (∀ i, Q.degreeOf i ≤ if i < logDegree F then 1 else 0) ∧
      ∀ challenges, batchOf other challenges - batchOf folds challenges =
        MvPolynomial.eval challenges Q := by
  have hdiffer : ∃ j < degree F,
      (TensorAlgebra.new other).transpose.elem j ≠ (TensorAlgebra.new folds).transpose.elem j := by
    by_contra hsame
    push Not at hsame
    refine hne (List.ext_getElem (hother.trans hfolds.symm) fun v hv hv' => ?_)
    have hlt : v < degree F := by
      rw [←hother]
      exact hv
    have helem : (TensorAlgebra.new other).elem v = (TensorAlgebra.new folds).elem v := by
      refine eq_of_coord fun j hj => ?_
      rw [←coord_transpose _ hj hlt,←coord_transpose _ hj hlt,hsame j hj]
    rw [elem_new hother,elem_new hfolds,getD_eq_getElem _ _ hv,getD_eq_getElem _ _ hv'] at helem
    exact helem
  obtain ⟨j,hj,hdiff⟩ := hdiffer
  rw [degree_eq] at hj
  refine ⟨extension 0 (logDegree F) fun j => (TensorAlgebra.new other).transpose.elem j -
    (TensorAlgebra.new folds).transpose.elem j,extension_ne_zero hj (sub_ne_zero.mpr hdiff),fun i => ?_,
      fun challenges => ?_⟩
  · by_cases hi : i < logDegree F
    · rw [if_pos hi]
      exact degreeOf_extension_le i 0 _ _
    · rw [if_neg hi,degreeOf_extension_outside (by omega)]
  · rw [eval_extension,evaluateLoop_eq_sum,length_map,List.length_range',batchOf,batchOf,
      ←sum_sub_distrib,List.range_eq_range',degree_eq]
    exact sum_congr rfl fun j _ => by rw [mul_sub]

def bitEvaluation (packed : PackedBuffer w F) (point : List F) : Except AssertFailure F :=
  evaluateInplaceScalars ⟨1 <<< (packed.logLen + logDegree F),bitPolynomial packed⟩ point

def sentFolds (packed : PackedBuffer w F) (point : List F) : List F :=
  columnFolds packed (eqTensor (point.drop (logDegree F)))

section Parts

variable {packed : PackedBuffer w F} {point : List F}

theorem bitEvaluation_run (hpoint : packed.logLen + logDegree F = point.length) :
    bitEvaluation packed point = .ok (evaluateLoop point (bitPolynomial packed) 0) :=
  evaluateInplaceScalars_run (by rw [hpoint])

theorem suffix_length (hpoint : packed.logLen + logDegree F = point.length) :
    (point.drop (logDegree F)).length = packed.logLen := by
  rw [List.length_drop]
  omega

theorem sentFolds_recombine (hpoint : packed.logLen + logDegree F = point.length) :
    evaluateLoop (point.take (logDegree F)) (fun i => (sentFolds packed point).getD i 0) 0 =
      evaluateLoop point (bitPolynomial packed) 0 := by
  have hlow : (point.take (logDegree F)).length = logDegree F := List.length_take_of_le (by omega)
  have hsame := rowFold_recombine packed hlow (suffix_length hpoint)
  rw [List.take_append_drop] at hsame
  rw [←hsame]
  refine evaluateLoop_congr _ fun v hv => columnFolds_getD packed _ ?_
  rw [degree_eq,←hlow]
  exact hv

theorem sentFolds_batch {challenges : ℕ → F} {ind : PackedBuffer w F}
    (hentries : ∀ x < 2 ^ packed.logLen, ind.get x =
      rowBatch (eqTensor ((List.range (logDegree F)).map challenges)) (eqTensor (point.drop (logDegree F)) x)) :
    batchOf (sentFolds packed point) challenges =
      ∑ x ∈ range (2 ^ packed.logLen), packed.get x * ind.get x := by
  have helem : ∀ v < degree F, (TensorAlgebra.new (sentFolds packed point)).elem v =
      rowFold packed (eqTensor (point.drop (logDegree F))) v := fun v hv => by
    rw [sentFolds,elem_new (columnFolds_length packed _),columnFolds_getD packed _ hv]
  rw [batchOf,batched_claim packed _ _ helem]
  exact sum_congr rfl fun x hx => by rw [hentries x (mem_range.mp hx)]

theorem evalRsEq_indicator {challenges : ℕ → F} {ind : PackedBuffer w F}
    (hpoint : packed.logLen + logDegree F = point.length)
    (hentries : ∀ x < 2 ^ packed.logLen, ind.get x =
      rowBatch (eqTensor ((List.range (logDegree F)).map challenges)) (eqTensor (point.drop (logDegree F)) x))
    {query : List F} (hquery : query.length = packed.logLen) :
    evalRsEq (point.drop (logDegree F)) query
        (eqIndPartialEvalScalars ((List.range (logDegree F)).map challenges)) =
      evaluateInplaceScalars ⟨1 <<< packed.logLen,ind.get⟩ query := by
  have hexpansion : (eqIndPartialEvalScalars ((List.range (logDegree F)).map challenges)).length =
      degree F := by
    rw [eqIndPartialEvalScalars_length,length_map,length_range,degree_eq]
  rw [evalRsEq_run ((suffix_length hpoint).trans hquery.symm) hexpansion,
    evaluateInplaceScalars_run (by rw [hquery]),evaluateLoop_eq_sum,hquery]
  refine congrArg Except.ok (sum_congr rfl fun x hx => ?_)
  simp only [hentries x (mem_range.mp hx)]
  refine congrArg (fun φ : F →ₗ[ZMod 2] F => eqTensor query x * φ _) (rowBatch_congr fun j hj => ?_)
  rw [degree_eq] at hj
  exact eqIndPartialEval_scalars _ (by rw [length_map,length_range]; exact hj)

theorem split_run (hpoint : packed.logLen + logDegree F = point.length) {lo hi : List F}
    (hjoin : lo ++ hi = point.drop (logDegree F)) (haligned : w ≤ lo.length ∨ hi.length = 0) :
    (lo.length ≤ logDegree F → ∃ folds,
      fold1bRowsForB128Split packed (eqIndPartialEval lo) (eqIndPartialEval hi) = .ok folds ∧
        asRef folds = sentFolds packed point) ∧
    ∀ query : Buffer F, query.logLen = logDegree F → ∃ ind : PackedBuffer w F,
      rsEqIndFromFactors w (eqIndPartialEval lo) (eqIndPartialEval hi) query = .ok ind ∧
        ind.logLen = packed.logLen ∧ ∀ x < 2 ^ packed.logLen,
          ind.get x = rowBatch query.scalars (eqTensor (point.drop (logDegree F)) x) := by
  have hsum : packed.logLen = lo.length + hi.length := by
    rw [←suffix_length hpoint,←hjoin,length_append]
  have htensor : ∀ x < 2 ^ packed.logLen, factorTensor (eqIndPartialEval lo) (eqIndPartialEval hi) x =
      eqTensor (point.drop (logDegree F)) x := by
    intro x hx
    rw [factorTensor_expansions lo hi (by rw [←hsum]; exact hx),hjoin]
  refine ⟨fun hlo => ?_,fun query hquery => ?_⟩
  · obtain ⟨folds,hfold,hfoldLen,hvals⟩ :=
      fold_run packed (eqIndPartialEval lo) (eqIndPartialEval hi) hsum haligned hlo
    refine ⟨folds,hfold,?_⟩
    rw [asRef,hfoldLen]
    refine List.map_congr_left fun v hv => ?_
    rw [hvals v (List.mem_range.mp hv)]
    exact rowFold_congr packed htensor v
  · obtain ⟨ind,hind,hindLen,hentries⟩ :=
      rsEqInd_run (w := w) (eqIndPartialEval lo) (eqIndPartialEval hi) query haligned hquery
    refine ⟨ind,hind,hindLen.trans hsum.symm,fun x hx => ?_⟩
    have hx' : x < 2 ^ ((eqIndPartialEval lo).logLen + (eqIndPartialEval hi).logLen) := by
      rw [hsum] at hx
      exact hx
    rw [hentries x hx',htensor x hx]

theorem prove_run (hpoint : packed.logLen + logDegree F = point.length)
    (hw : w ≤ logDegree F ∨ packed.logLen ≤ logDegree F) (channel : ProverChannel F) :
    ∃ out, prove packed point channel = .ok (out,⟨channel.sent ++ sentFolds packed point,
        fun i => channel.challenges (i + logDegree F)⟩) ∧
      out.sumcheckClaim = batchOf (sentFolds packed point) channel.challenges ∧
      ∀ x < 2 ^ packed.logLen, out.rsEqInd.get x =
        rowBatch (eqTensor ((List.range (logDegree F)).map channel.challenges))
          (eqTensor (point.drop (logDegree F)) x) := by
  obtain ⟨lo,hi,hfactors,hjoin,hlo⟩ := expandTensorFactors_eq (point.drop (logDegree F))
  have hsum : lo.length + hi.length = packed.logLen := by
    rw [←length_append,hjoin,suffix_length hpoint]
  rw [suffix_length hpoint] at hlo
  have haligned : w ≤ lo.length ∨ hi.length = 0 := by omega
  obtain ⟨hfold,hindicator⟩ := split_run hpoint hjoin haligned
  obtain ⟨folds,hfolds,hsent⟩ := hfold (by omega)
  obtain ⟨ind,hind,-,hentries⟩ :=
    hindicator (eqIndPartialEval ((List.range (logDegree F)).map channel.challenges))
      (by rw [eqIndPartialEval,length_map,length_range])
  have hexpansion : (eqIndPartialEvalScalars ((List.range (logDegree F)).map
      channel.challenges)).length = degree F := by
    rw [eqIndPartialEvalScalars_length,length_map,length_range,degree_eq]
  have hscalars : ∀ j < degree F, (eqIndPartialEval ((List.range (logDegree F)).map
      channel.challenges)).scalars j = eqTensor ((List.range (logDegree F)).map channel.challenges) j := by
    intro j hj
    rw [degree_eq] at hj
    exact eqIndPartialEval_scalars _ (by rw [length_map,length_range]; exact hj)
  refine ⟨⟨ind,(List.zipWith (fun a b => b * a)
    (TensorAlgebra.new (sentFolds packed point)).transpose.elems
      (asRef (eqIndPartialEval ((List.range (logDegree F)).map channel.challenges)))).sum⟩,?_,?_,
        fun x hx => ?_⟩
  · rw [prove,require_true hpoint]
    simp only [ok_bind,hfactors,hfolds,hind,hsent]
    rfl
  · simp only
    rw [asRef_eqIndPartialEval,sum_zipWith (TensorAlgebra.new _).transpose.len hexpansion,batchOf]
    refine sum_congr rfl fun j hj => ?_
    rw [←hscalars j (mem_range.mp hj)]
    rfl
  · rw [hentries x hx,rowBatch_congr hscalars]

end Parts

/-- Ring switching: the folds that the prover sends recombine to the claim about the bits; its claim is the
sum of the packed elements against its indicator, and the verifier accepts the folds and is left with that
claim and with the indicator's extension. Other folds that the verifier accepts leave it with another claim,
but at the roots of a multilinear polynomial in the challenges that is not zero. -/
theorem ringSwitch_reduces [DecidableEq F] (packed : PackedBuffer w F) (point : List F)
    (hpoint : packed.logLen + logDegree F = point.length)
    (hw : w ≤ logDegree F ∨ packed.logLen ≤ logDegree F) :
    evaluateInplaceScalars (valuesOf (sentFolds packed point)) (point.take (logDegree F)) =
        bitEvaluation packed point ∧
      (∀ channel : ProverChannel F, ∃ out, prove packed point channel = .ok (out,
          ⟨channel.sent ++ sentFolds packed point,fun i => channel.challenges (i + logDegree F)⟩) ∧
        out.sumcheckClaim = ∑ x ∈ range (2 ^ packed.logLen), packed.get x * out.rsEqInd.get x ∧
        (∀ claim messages, bitEvaluation packed point = .ok claim →
          verify claim point ⟨sentFolds packed point ++ messages,channel.challenges⟩ =
            .ok (⟨eqIndPartialEvalScalars ((List.range (logDegree F)).map channel.challenges),
              out.sumcheckClaim⟩,⟨messages,fun i => channel.challenges (i + logDegree F)⟩)) ∧
        ∀ query : List F, query.length = packed.logLen →
          evalRsEq (point.drop (logDegree F)) query
              (eqIndPartialEvalScalars ((List.range (logDegree F)).map channel.challenges)) =
            evaluateInplaceScalars ⟨1 <<< packed.logLen,out.rsEqInd.get⟩ query) ∧
      (∀ lo hi : List F, lo ++ hi = point.drop (logDegree F) → (w ≤ lo.length ∨ hi.length = 0) →
        (lo.length ≤ logDegree F → ∃ folds,
          fold1bRowsForB128Split packed (eqIndPartialEval lo) (eqIndPartialEval hi) = .ok folds ∧
            asRef folds = (List.range (degree F)).map fun v => ∑ x ∈ range (2 ^ packed.logLen),
              coord (packed.get x) v • eqTensor (point.drop (logDegree F)) x) ∧
        ∀ query : Buffer F, query.logLen = logDegree F → ∃ ind : PackedBuffer w F,
          rsEqIndFromFactors w (eqIndPartialEval lo) (eqIndPartialEval hi) query = .ok ind ∧
            ind.logLen = packed.logLen ∧ ∀ x < 2 ^ packed.logLen, ind.get x =
              ∑ j ∈ range (degree F), coord (eqTensor (point.drop (logDegree F)) x) j • query.scalars j) ∧
      ∀ other : List F, other.length = degree F → other ≠ sentFolds packed point →
        ∃ Q : MvPolynomial ℕ F, Q ≠ 0 ∧ (∀ i, Q.degreeOf i ≤ if i < logDegree F then 1 else 0) ∧
          ∀ claim messages challenges out out' rest rest',
            verify claim point ⟨other ++ messages,challenges⟩ = .ok (out',rest') →
            prove packed point ⟨[],challenges⟩ = .ok (out,rest) →
              (out'.sumcheckClaim = out.sumcheckClaim ↔ MvPolynomial.eval challenges Q = 0) := by
  have hlen : (sentFolds packed point).length = degree F := columnFolds_length packed _
  have hbits := bitEvaluation_run hpoint
  have hfolds := sentFolds_recombine hpoint
  refine ⟨?_,fun channel => ?_,fun lo hi hjoin haligned => ?_,fun other hother hne => ?_⟩
  · have hlow : (valuesOf (sentFolds packed point)).len = 1 <<< (point.take (logDegree F)).length := by
      rw [valuesOf,hlen,List.length_take_of_le (by omega),degree]
    rw [evaluateInplaceScalars_run hlow,hbits]
    exact congrArg Except.ok hfolds
  · obtain ⟨out,hout,hclaim,hentries⟩ := prove_run hpoint hw channel
    refine ⟨out,hout,hclaim.trans (sentFolds_batch hentries),fun claim messages hbit => ?_,
      fun query hquery => evalRsEq_indicator hpoint hentries hquery⟩
    rw [hbits] at hbit
    cases hbit
    rw [verify_run _ messages channel.challenges (by omega) hlen,if_pos hfolds.symm,hclaim]
  · obtain ⟨hfold,hindicator⟩ := split_run hpoint hjoin haligned
    exact ⟨hfold,hindicator⟩
  · obtain ⟨Q,hQ,hdegree,heval⟩ := batch_differs hlen hother hne
    refine ⟨Q,hQ,hdegree,fun claim messages challenges out out' rest rest' hverify hprove => ?_⟩
    obtain ⟨honest,hhonest,hclaim,-⟩ := prove_run hpoint hw ⟨[],challenges⟩
    rw [hhonest] at hprove
    cases hprove
    rw [verify_run claim messages challenges (by omega) hother] at hverify
    split at hverify
    · cases hverify
      rw [hclaim,←heval challenges,sub_eq_zero]
    · cases hverify

noncomputable def unitBasis : Module.Basis (Fin (2 ^ 7)) (ZMod 2) (GaloisField 2 128) :=
  let b := Module.finBasisOfFinrankEq (ZMod 2) (GaloisField 2 128) (GaloisField.finrank 2 (by decide))
  b.map ((LinearEquiv.smulOfNeZero (GaloisField 2 128) (GaloisField 2 128) (b 0)⁻¹
    (inv_ne_zero (b.ne_zero 0))).restrictScalars (ZMod 2))

theorem unitBasis_zero : unitBasis 0 = 1 := by
  have hne := (Module.finBasisOfFinrankEq (ZMod 2) (GaloisField 2 128)
    (GaloisField.finrank 2 (by decide : 128 ≠ 0)) : Module.Basis (Fin (2 ^ 7)) _ _).ne_zero 0
  rw [unitBasis,Module.Basis.map_apply]
  exact inv_mul_cancel₀ hne

noncomputable instance : ExtensionField (GaloisField 2 128) where
  logDegree := 7
  byteWide := by decide
  castBases := unitBasis.equivFun
  castBases_one := by
    funext j
    have hself := unitBasis.equivFun_self 0 j
    rw [unitBasis_zero] at hself
    rw [hself]
    refine if_congr ⟨fun h => ?_,fun h => ?_⟩ rfl rfl
    · rw [←h]
      rfl
    · exact Fin.ext h.symm

/-- One element in a packed element of two lanes. -/
noncomputable def onePacked : PackedBuffer 1 (GaloisField 2 128) := ⟨0,fun _ _ => 1⟩

open Classical in
theorem ringSwitch_reduces_onePacked :
    evaluateInplaceScalars (valuesOf (sentFolds onePacked (replicate 7 0)))
        ((replicate 7 0).take 7) = bitEvaluation onePacked (replicate 7 0) :=
  (ringSwitch_reduces onePacked (replicate 7 0) rfl (.inr (Nat.zero_le _))).1

end Binius64.RingSwitch
