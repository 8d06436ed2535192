import Binius64.EncodingLaws
import Binius64.GaoMateerContexts
import Binius64.PackedFolding

/-!
# The induced basis

Opening rows of a codeword asserts inner products of the message with rows of the generator matrix.
-/

namespace Binius64.Whir

open Ntt CheckedRun EqualityTensor SubsetProducts SubspacePolynomials NovelBasis Finset
open ButterflyNetwork (layers)
open Fri (place sum_reverseBits)
open InplaceEvaluation (Values updates_apply)
open LayerChecks (extrapolateLine)
open PackedFolding (foldHighestVars_run fromValues fromValues_run mle_append)

variable {F : Type} [Field F]

def innerProduct (a b : List F) : Except AssertFailure F := do
  require (a.length = b.length)
  return (List.zipWith (fun a b => b * a) a b).sum

def powers (val : F) (count : ℕ) : List F := List.iterate (· * val) 1 count

def expandSubsetProducts (elems : List F) : Except AssertFailure (List F) := do
  require (elems.length < usizeBits)
  return elems.foldl (fun expanded elem => expanded ++ expanded.map (· * elem)) [1]

/-- The weight vector that opened rows induce on the message of a level. -/
structure InducedBasis (F : Type) where
  factors : List (List F)
  batching : List F
  nVars : ℕ
  factors_length : ∀ row ∈ factors, row.length = nVars
  batching_length : batching.length = factors.length

def subspaceContext (context : DomainInterface F) : SubspaceContext F :=
  ⟨context.logDomainSize,context.subspace⟩

def generatorRow (domainContext : SubspaceContext F) (logDim idx : ℕ) : Except AssertFailure (List F) := do
  let evals ← evalsAtDomainIndex domainContext idx
  return (evals.take logDim).reverse

theorem generatorRow_length {domainContext : SubspaceContext F} {logDim idx : ℕ} {row : List F}
    (hdim : logDim ≤ domainContext.logDomainSize) (h : generatorRow domainContext logDim idx = .ok row) :
    row.length = logDim := by
  rw [generatorRow,bind_eq_ok] at h
  obtain ⟨evals,hevals,h⟩ := h
  rw [evalsAtDomainIndex,bind_eq_ok] at hevals
  obtain ⟨_,-,hevals⟩ := hevals
  have hlen := (mapM_getElem hevals).1
  rw [List.length_range] at hlen
  rw [←pure_eq_ok.mp h,List.length_reverse,List.length_take,hlen,Nat.min_eq_left hdim]

def queryRow (padded : List (List F)) (word : ℕ) : Except AssertFailure (List F) := do
  let row ← padded.mapM fun elems => subsetSumWord elems word
  return row.reverse

theorem queryRow_length {padded : List (List F)} {word : ℕ} {row : List F}
    (h : queryRow padded word = .ok row) : row.length = padded.length := by
  rw [queryRow,bind_eq_ok] at h
  obtain ⟨sums,hsums,h⟩ := h
  rw [←pure_eq_ok.mp h,List.length_reverse,(mapM_getElem hsums).1]

def paddedTables {K : Type} [Field K] [Algebra K F] (domainContext : SubspaceContext K) (logDim : ℕ) :
    Except AssertFailure (List (List F)) :=
  (List.range logDim).mapM fun k => do
    let subspace ← domainContext.subspace (domainContext.logDomainSize - k)
    return List.replicate k 0 ++ subspace.basis.map (algebraMap K F)

theorem paddedTables_length {K : Type} [Field K] [Algebra K F] {domainContext : SubspaceContext K}
    {logDim : ℕ} {padded : List (List F)} (h : paddedTables domainContext logDim = .ok padded) :
    padded.length = logDim := by
  rw [(mapM_getElem h).1,List.length_range]

namespace InducedBasis

def ofRows (row : ℕ → Except AssertFailure (List F)) (logDim : ℕ) (indices : List ℕ) (alpha : F)
    (hrow : ∀ {idx : ℕ} {factors : List F}, row idx = .ok factors → factors.length = logDim) :
    Except AssertFailure (InducedBasis F) :=
  match hrows : indices.mapM row with
  | .error e => .error e
  | .ok factors => .ok {
      factors := factors
      batching := powers alpha indices.length
      nVars := logDim
      factors_length := fun factor hmem => by
        obtain ⟨idx,-,hidx⟩ := (mapM_mem hrows).2 factor hmem
        exact hrow hidx
      batching_length := by rw [powers,List.length_iterate,(mapM_getElem hrows).1] }

/-- The basis that opening a code at some positions induces. -/
def new (domainContext : SubspaceContext F) (logDim : ℕ) (indices : List ℕ) (alpha : F) :
    Except AssertFailure (InducedBasis F) :=
  if hdim : logDim ≤ domainContext.logDomainSize then do
    let size ← indexPow domainContext.logDomainSize
    require (∀ idx ∈ indices, idx < size)
    ofRows (generatorRow domainContext logDim) logDim indices alpha (generatorRow_length hdim)
  else .error .failed

def fromQueryWords {K : Type} [Field K] [Algebra K F] (domainContext : SubspaceContext K) (logDim : ℕ)
    (indices : List ℕ) (alpha : F) : Except AssertFailure (InducedBasis F) := do
  require (logDim ≤ domainContext.logDomainSize)
  match hpadded : paddedTables (F := F) domainContext logDim with
  | .error e => .error e
  | .ok padded => ofRows (queryRow padded) logDim indices alpha fun h =>
    (queryRow_length h).trans (paddedTables_length hpadded)

def nRows (basis : InducedBasis F) : ℕ := basis.factors.length

def scale (row coordinates : List F) : F :=
  (List.zipWith (fun factor coordinate => 1 + coordinate * (1 + factor)) row coordinates).prod

/-- The multilinear extension of the weight vector at a point. -/
def evaluate (basis : InducedBasis F) (point : List F) : Except AssertFailure F := do
  require (point.length = basis.nVars)
  innerProduct basis.batching (basis.factors.map fun row => scale row point)

def foldHigh (basis : InducedBasis F) (challenges : List F) : Except AssertFailure (InducedBasis F) :=
  if hvars : challenges.length ≤ basis.nVars then
    let nVars := basis.nVars - challenges.length
    .ok {
      factors := basis.factors.map (List.take nVars)
      batching := List.zipWith (fun coefficient row =>
        coefficient * scale (row.drop nVars).reverse challenges) basis.batching basis.factors
      nVars := nVars
      factors_length := fun row hmem => by
        obtain ⟨full,hfull,rfl⟩ := List.mem_map.mp hmem
        rw [List.length_take,basis.factors_length full hfull]
        omega
      batching_length := by
        rw [List.length_zipWith,List.length_map,basis.batching_length,Nat.min_self] }
  else .error .failed

def stripVariable (folded : Values F) (factor : F) : Values F :=
  let half := folded.len / 2
  ⟨half,(List.range half).foldl (fun scalars j =>
    Function.update scalars j (scalars (2 * j) + factor * scalars (2 * j + 1))) folded.scalars⟩

def pairRow (message : Values F) (factors : List F) : Except AssertFailure F := do
  let folded := factors.foldl stripVariable message
  require (folded.len ≠ 0)
  return folded.scalars (folded.len - 1)

def pair (basis : InducedBasis F) (message : Values F) : Except AssertFailure F := do
  let size ← indexPow basis.nVars
  require (message.len = size)
  let rows ← basis.factors.mapM (pairRow message)
  innerProduct basis.batching rows

/-- The weight vector. -/
def toDense (basis : InducedBasis F) : Except AssertFailure (List F) := do
  let size ← indexPow basis.nVars
  (basis.factors.zip basis.batching).foldlM (fun dense entry => do
    let weights ← expandSubsetProducts entry.1
    return List.zipWith (fun acc weight => acc + entry.2 * weight) dense weights) (List.replicate size 0)

def enforcedSum (basis : InducedBasis F) (rowValues : List F) : Except AssertFailure F := do
  require (rowValues.length = basis.nRows)
  innerProduct basis.batching rowValues

end InducedBasis

theorem innerProduct_eq {a b : List F} (h : a.length = b.length) :
    innerProduct a b = .ok (List.zipWith (fun a b => b * a) a b).sum := by
  rw [innerProduct,require_true h]
  rfl

theorem getD_map_range (f : ℕ → F) {n j : ℕ} (hj : j < n) : ((List.range n).map f).getD j 0 = f j := by
  rw [List.getD_eq_getElem _ _ (by simpa using hj),List.getElem_map,List.getElem_range]

theorem innerProduct_range (n : ℕ) (f g : ℕ → F) :
    innerProduct ((List.range n).map f) ((List.range n).map g) = .ok (∑ j ∈ range n, g j * f j) := by
  have hlen : ∀ f : ℕ → F, ((List.range n).map f).length = n := fun f => by
    rw [List.length_map,List.length_range]
  rw [innerProduct_eq ((hlen f).trans (hlen g).symm),sum_zipWith (hlen f) (hlen g)]
  refine congrArg Except.ok (sum_congr rfl fun j hj => ?_)
  have hj' := mem_range.mp hj
  rw [getD_map_range f hj',getD_map_range g hj']

theorem expandSubsetProducts_eq {elems : List F} (h : elems.length < usizeBits) :
    expandSubsetProducts elems = .ok ((List.range (2 ^ elems.length)).map (subsetProduct elems)) := by
  rw [expandSubsetProducts,require_true h,ok_bind,subsetProducts_loop]
  rfl

namespace InducedBasis

theorem stripVariable_apply (folded : Values F) (factor : F) {j : ℕ} (hj : j < folded.len / 2) :
    (stripVariable folded factor).scalars j =
      folded.scalars (2 * j) + factor * folded.scalars (2 * j + 1) := by
  have hloop := updates_apply (f := fun j scalars => scalars (2 * j) + factor * scalars (2 * j + 1))
    (d := folded.scalars) (fun i x hx => by rw [hx _ (by omega),hx _ (by omega)]) (folded.len / 2) j
  rw [if_pos hj] at hloop
  exact hloop

variable {message : Values F} (basis : InducedBasis F) {challenges : List F}

theorem stripVariables_run (factors : List F) (h : message.len = 2 ^ factors.length) :
    (factors.foldl stripVariable message).len = 1 ∧ (factors.foldl stripVariable message).scalars 0 =
      ∑ j ∈ range (2 ^ factors.length), subsetProduct factors j * message.scalars j := by
  induction factors generalizing message with
  | nil =>
    rw [List.length_nil,pow_zero] at h
    rw [List.foldl_nil,List.length_nil,pow_zero,sum_range_one,subsetProduct,one_mul]
    exact ⟨h,rfl⟩
  | cons f fs ih =>
    have hhalf : message.len / 2 = 2 ^ fs.length := by
      rw [h,List.length_cons,pow_succ,Nat.mul_div_cancel _ Nat.two_pos]
    have hlen : (stripVariable message f).len = 2 ^ fs.length := hhalf
    obtain ⟨hone,hsum⟩ := ih hlen
    refine ⟨hone,?_⟩
    rw [List.foldl_cons,hsum,List.length_cons,pow_succ',sum_range_even_odd]
    refine sum_congr rfl fun j hj => ?_
    rw [stripVariable_apply _ _ (hhalf.symm ▸ mem_range.mp hj),subsetProduct_even,subsetProduct_odd]
    ring

theorem pairRow_eq (factors : List F) (h : message.len = 2 ^ factors.length) :
    pairRow message factors =
      .ok (∑ j ∈ range (2 ^ factors.length), subsetProduct factors j * message.scalars j) := by
  obtain ⟨hone,hsum⟩ := stripVariables_run factors h
  have hsome : (factors.foldl stripVariable message).len ≠ 0 := by omega
  rw [pairRow,require_true hsome,ok_bind,hone,Nat.sub_self,hsum]
  rfl

theorem mle_subsetProduct [CharP F 2] {row point : List F} (h : row.length = point.length) :
    mle point (subsetProduct row) = scale row point := by
  induction point generalizing row with
  | nil =>
    rw [List.length_nil,List.length_eq_zero_iff] at h
    rw [h,mle_nil,subsetProduct]
    rfl
  | cons p point ih =>
    cases row with
    | nil => cases h
    | cons f row =>
      have hfactor : ∀ i, (1 - p) * subsetProduct (f :: row) (2 * i) + p * subsetProduct (f :: row) (2 * i + 1) =
          (1 + p * (1 + f)) * subsetProduct row i := by
        intro i
        rw [subsetProduct_even,subsetProduct_odd,CharTwo.sub_eq_add]
        ring
      rw [mle_cons]
      simp only [hfactor]
      rw [mle_mul_left,ih (Nat.succ.inj h),scale,scale,List.zipWith_cons_cons,List.prod_cons]

theorem scale_reverse {row coordinates : List F} (h : row.length = coordinates.length) :
    scale row.reverse coordinates.reverse = scale row coordinates := by
  rw [scale,scale,←List.reverse_zipWith h,List.prod_reverse]

theorem scale_append {row row' coordinates coordinates' : List F} (h : row.length = coordinates.length) :
    scale (row ++ row') (coordinates ++ coordinates') = scale row coordinates * scale row' coordinates' := by
  rw [scale,List.zipWith_append h,List.prod_append]
  rfl

/-- The rows with their coefficients. -/
def entries (basis : InducedBasis F) : List (List F × F) := basis.factors.zip basis.batching

/-- The weight that some rows give an index. -/
def weight (entries : List (List F × F)) (x : ℕ) : F := (entries.map fun e => e.2 * subsetProduct e.1 x).sum

omit [Field F] in
theorem entries_length {e : List F × F} (h : e ∈ basis.entries) :
    e.1.length = basis.nVars := basis.factors_length e.1 (List.of_mem_zip h).1

theorem sum_weight (n : ℕ) (a : ℕ → F) (σ : ℕ → ℕ) (entries : List (List F × F)) :
    ∑ j ∈ range n, a j * weight entries (σ j) =
      (entries.map fun e => e.2 * ∑ j ∈ range n, a j * subsetProduct e.1 (σ j)).sum := by
  induction entries with
  | nil => exact sum_eq_zero fun j _ => mul_zero (a j)
  | cons e entries ih =>
    have hcons : ∀ j, a j * weight (e :: entries) (σ j) =
        e.2 * (a j * subsetProduct e.1 (σ j)) + a j * weight entries (σ j) := by
      intro j
      rw [weight,List.map_cons,List.sum_cons,weight]
      ring
    rw [sum_congr rfl fun j _ => hcons j,sum_add_distrib,ih,←mul_sum,List.map_cons,List.sum_cons]

theorem innerProduct_rows (g : List F → F) :
    innerProduct basis.batching (basis.factors.map g) = .ok (basis.entries.map fun e => e.2 * g e.1).sum := by
  have hlen : basis.batching.length = (basis.factors.map g).length := by
    rw [List.length_map,basis.batching_length]
  rw [innerProduct_eq hlen,entries,List.zip,List.map_zipWith,List.zipWith_map_right,List.zipWith_comm]
  simp only [mul_comm]

theorem accumulate_row (n : ℕ) (done : List (List F × F)) (e : List F × F) :
    List.zipWith (fun acc weight => acc + e.2 * weight) ((List.range n).map (weight done))
      ((List.range n).map (subsetProduct e.1)) = (List.range n).map (weight (done ++ [e])) := by
  rw [List.zipWith_map,List.zipWith_self]
  refine List.map_congr_left fun x _ => ?_
  rw [weight,weight,List.map_append,List.sum_append,List.map_singleton,List.sum_singleton]

theorem toDense_eq (h : basis.nVars < usizeBits) :
    basis.toDense = .ok ((List.range (2 ^ basis.nVars)).map (weight basis.entries)) := by
  have hstart : List.replicate (2 ^ basis.nVars) (0 : F) = (List.range (2 ^ basis.nVars)).map (weight []) := by
    have hzero : weight ([] : List (List F × F)) = fun _ => 0 := rfl
    rw [hzero,List.map_const',List.length_range]
  have hloop : ∃ dense, basis.entries.foldlM (fun dense entry => (expandSubsetProducts entry.1 >>= fun weights =>
      pure (List.zipWith (fun acc weight => acc + entry.2 * weight) dense weights)))
        (List.replicate (2 ^ basis.nVars) 0) = .ok dense ∧
          dense = (List.range (2 ^ basis.nVars)).map (weight basis.entries) := by
    refine exists_foldlM (I := fun done dense => dense = (List.range (2 ^ basis.nVars)).map (weight done)) hstart
      fun done e rest dense hentries hdense => ?_
    have hmem : e ∈ basis.entries := by
      rw [hentries]
      exact List.mem_append_right _ List.mem_cons_self
    have hlen := basis.entries_length hmem
    refine ⟨_,?_,rfl⟩
    rw [expandSubsetProducts_eq (hlen.symm ▸ h),ok_bind,hlen,hdense,accumulate_row]
    rfl
  obtain ⟨dense,hrun,hdense⟩ := hloop
  rw [toDense,indexPow_ok h,ok_bind,←hdense]
  exact hrun

theorem innerProduct_weight (n : ℕ) (a : ℕ → F) :
    innerProduct basis.batching (basis.factors.map fun row => ∑ j ∈ range n, a j * subsetProduct row j) =
      .ok (∑ j ∈ range n, a j * weight basis.entries j) := by
  rw [innerProduct_rows,sum_weight _ _ fun j => j]

theorem pair_run (h : basis.nVars < usizeBits)
    (hlen : message.len = 2 ^ basis.nVars) : basis.pair message =
      .ok (∑ j ∈ range (2 ^ basis.nVars), message.scalars j * weight basis.entries j) := by
  have hrows : basis.factors.mapM (pairRow message) = .ok (basis.factors.map fun row =>
      ∑ j ∈ range (2 ^ basis.nVars), message.scalars j * subsetProduct row j) := by
    refine mapM_eq_map fun row hmem => ?_
    have hrow := basis.factors_length row hmem
    rw [pairRow_eq row (hrow.symm ▸ hlen),hrow]
    simp only [mul_comm]
  rw [pair,indexPow_ok h,ok_bind,require_true hlen,ok_bind,hrows,ok_bind,innerProduct_weight]

theorem evaluate_run [CharP F 2] {point : List F} (h : point.length = basis.nVars) :
    basis.evaluate point = .ok (mle point (weight basis.entries)) := by
  have hrows : (basis.factors.map fun row => scale row point) =
      basis.factors.map fun row => ∑ j ∈ range (2 ^ point.length), eqTensor point j * subsetProduct row j := by
    refine List.map_congr_left fun row hmem => ?_
    rw [←mle_subsetProduct ((basis.factors_length row hmem).trans h.symm),mle]
  rw [evaluate,require_true h,ok_bind,hrows,innerProduct_weight,mle]

omit [Field F] in
theorem eq_of_entries {a b : InducedBasis F} (hentries : a.entries = b.entries) (hvars : a.nVars = b.nVars) :
    a = b := by
  have hfactors : a.factors = b.factors := by
    rw [←List.map_fst_zip a.batching_length.ge,←List.map_fst_zip b.batching_length.ge]
    exact congrArg (List.map Prod.fst) hentries
  have hbatching : a.batching = b.batching := by
    rw [←List.map_snd_zip a.batching_length.le,←List.map_snd_zip b.batching_length.le]
    exact congrArg (List.map Prod.snd) hentries
  cases a
  cases b
  cases hfactors
  cases hbatching
  cases hvars
  rfl

/-- What binding the highest variables makes of a row. -/
def foldEntry (nVars : ℕ) (challenges : List F) (e : List F × F) : List F × F :=
  (e.1.take nVars,e.2 * scale (e.1.drop nVars).reverse challenges)

theorem zip_foldEntry (nVars : ℕ) (challenges : List F) (rows : List (List F)) (coefficients : List F) :
    (rows.map (List.take nVars)).zip (List.zipWith (fun coefficient row =>
      coefficient * scale (row.drop nVars).reverse challenges) coefficients rows) =
        (rows.zip coefficients).map (foldEntry nVars challenges) := by
  induction rows generalizing coefficients with
  | nil => rfl
  | cons row rows ih =>
    cases coefficients with
    | nil => rfl
    | cons c coefficients =>
      rw [List.map_cons,List.zipWith_cons_cons,List.zip_cons_cons,ih,List.zip_cons_cons,List.map_cons]
      rfl

theorem foldHigh_run (h : challenges.length ≤ basis.nVars) :
    ∃ folded, basis.foldHigh challenges = .ok folded ∧ folded.nVars = basis.nVars - challenges.length ∧
      folded.entries = basis.entries.map (foldEntry (basis.nVars - challenges.length) challenges) := by
  rw [foldHigh,dif_pos h]
  exact ⟨_,rfl,rfl,zip_foldEntry _ _ _ _⟩

theorem foldHigh_nil : basis.foldHigh [] = .ok basis := by
  have hnone : ([] : List F).length ≤ basis.nVars := Nat.zero_le _
  obtain ⟨folded,hrun,hvars,hentries⟩ := basis.foldHigh_run hnone
  have hsame : basis.entries.map (foldEntry (basis.nVars - 0) []) = basis.entries := by
    refine (List.map_congr_left fun e hmem => ?_).trans (List.map_id _)
    have hlen := basis.entries_length hmem
    rw [foldEntry,Nat.sub_zero,List.take_of_length_le hlen.le,scale,List.zipWith_nil_right,List.prod_nil,mul_one]
    rfl
  rw [hrun,eq_of_entries (hentries.trans hsame) hvars]

theorem foldHigh_append {first rest : List F}
    (h : first.length + rest.length ≤ basis.nVars) :
    (basis.foldHigh first >>= fun folded => folded.foldHigh rest) = basis.foldHigh (first ++ rest) := by
  have hfirstFits : first.length ≤ basis.nVars := by omega
  have hwholeFits : (first ++ rest).length ≤ basis.nVars := by rwa [List.length_append]
  obtain ⟨folded,hfirst,hvars,hentries⟩ := basis.foldHigh_run hfirstFits
  have hrestFits : rest.length ≤ folded.nVars := by omega
  obtain ⟨last,hrest,hlastVars,hlastEntries⟩ := folded.foldHigh_run hrestFits
  obtain ⟨whole,hwhole,hwholeVars,hwholeEntries⟩ := basis.foldHigh_run hwholeFits
  have hsum : basis.nVars - first.length - rest.length = basis.nVars - (first ++ rest).length := by
    rw [List.length_append,Nat.sub_sub]
  rw [hfirst,ok_bind,hrest,hwhole]
  refine congrArg Except.ok (eq_of_entries ?_ ?_)
  · rw [hlastEntries,hentries,hvars,hwholeEntries,hsum,List.map_map]
    refine List.map_congr_left fun e hmem => ?_
    have hlen := basis.entries_length hmem
    -- the challenges of the second fold meet the factors below those of the first
    have hsplit : (e.1.drop (basis.nVars - (first ++ rest).length)).reverse =
        (e.1.drop (basis.nVars - first.length)).reverse ++
          ((e.1.take (basis.nVars - first.length)).drop (basis.nVars - (first ++ rest).length)).reverse := by
      rw [←List.reverse_append]
      congr 1
      conv_lhs => rw [←List.take_append_drop (basis.nVars - first.length) e.1]
      rw [List.drop_append_of_le_length]
      rw [List.length_take,hlen,List.length_append]
      omega
    have hfirstLen : (e.1.drop (basis.nVars - first.length)).reverse.length = first.length := by
      rw [List.length_reverse,List.length_drop,hlen]
      omega
    rw [Function.comp_apply,foldEntry,foldEntry,foldEntry,hsplit,scale_append hfirstLen,List.take_take,
      List.length_append,mul_assoc]
    congr 2
    omega
  · rw [hlastVars,hvars,hwholeVars,hsum]

theorem foldHighs_eq {folds : List (List F)}
    (h : folds.flatten.length ≤ basis.nVars) :
    folds.foldlM foldHigh basis = basis.foldHigh folds.flatten := by
  induction folds generalizing basis with
  | nil => exact basis.foldHigh_nil.symm
  | cons first folds ih =>
    rw [List.flatten_cons,List.length_append] at h
    have hfits : first.length ≤ basis.nVars := by omega
    obtain ⟨folded,hfirst,hvars,-⟩ := basis.foldHigh_run hfits
    rw [List.flatten_cons,←basis.foldHigh_append h,List.foldlM_cons,hfirst,ok_bind,ok_bind]
    exact ih folded (by omega)

theorem weight_foldEntry [CharP F 2] {n : ℕ}
    (h : basis.nVars = n + challenges.length) {x : ℕ} (hx : x < 2 ^ n) :
    weight (basis.entries.map (foldEntry n challenges)) x =
      mle challenges.reverse fun t => weight basis.entries (t * 2 ^ n + x) := by
  have hlen : challenges.reverse.length = challenges.length := List.length_reverse
  rw [mle,sum_weight _ _ (fun t => t * 2 ^ n + x),weight,List.map_map]
  refine congrArg List.sum (List.map_congr_left fun e hmem => ?_)
  have hrow := basis.entries_length hmem
  have hlow : (e.1.take n).length = n := by
    rw [List.length_take,hrow]
    omega
  have hhigh : (e.1.drop n).length = challenges.length := by
    rw [List.length_drop,hrow]
    omega
  have hsplit : ∀ t, subsetProduct e.1 (t * 2 ^ n + x) =
      subsetProduct (e.1.take n) x * subsetProduct (e.1.drop n) t := by
    intro t
    have hparts := subsetProduct_split (e.1.take n) (e.1.drop n) (h := t) (hlow.symm ▸ hx)
    rwa [hlow,List.take_append_drop] at hparts
  have hscale : scale (e.1.drop n).reverse challenges = mle challenges.reverse (subsetProduct (e.1.drop n)) := by
    rw [mle_subsetProduct (hhigh.trans hlen.symm),←scale_reverse (hhigh.trans hlen.symm),List.reverse_reverse]
  rw [Function.comp_apply,foldEntry,hscale,mle]
  simp only [hsplit,mul_left_comm _ (subsetProduct (e.1.take n) x)]
  rw [←mul_sum]
  ring

theorem foldHigh_dense [CharP F 2]
    (hlen : challenges.length ≤ basis.nVars) :
    ∃ folded, basis.foldHigh challenges = .ok folded ∧ folded.nVars ≤ basis.nVars ∧
      ∀ w, ∃ values r : FieldBuffer w F,
        fromValues ((List.range (2 ^ basis.nVars)).map (weight basis.entries)) = .ok values ∧
        challenges.foldlM PackedFolding.foldHighestVarInplace values = .ok r ∧
        r.scalars = (List.range (2 ^ folded.nVars)).map (weight folded.entries) := by
  obtain ⟨folded,hfold,hvars,hentries⟩ := basis.foldHigh_run hlen
  have hsum : basis.nVars = folded.nVars + challenges.length := by omega
  refine ⟨folded,hfold,by omega,fun w => ?_⟩
  have hdense : ((List.range (2 ^ basis.nVars)).map (weight basis.entries)).length = 2 ^ basis.nVars := by
    rw [List.length_map,List.length_range]
  obtain ⟨values,hvalues,hlog,hscalar⟩ := fromValues_run (w := w) hdense
  obtain ⟨r,hr,hrLen,hrRun⟩ := foldHighestVars_run (n := folded.nVars) challenges.reverse values
    (by rw [hlog,List.length_reverse,hsum])
  rw [List.reverse_reverse] at hr
  refine ⟨values,r,hvalues,hr,?_⟩
  rw [FieldBuffer.scalars,hrLen]
  refine List.map_congr_left fun x hx => ?_
  have hx' := List.mem_range.mp hx
  rw [hrRun x hx',hentries,←hvars,basis.weight_foldEntry hsum hx']
  refine mle_congr fun t ht => ?_
  rw [List.length_reverse] at ht
  have hfits : t * 2 ^ folded.nVars + x < 2 ^ basis.nVars := by
    have hle := Nat.mul_le_mul_right (2 ^ folded.nVars) (Nat.succ_le_of_lt ht)
    rw [Nat.succ_mul,←pow_add,Nat.add_comm challenges.length,←hsum] at hle
    omega
  rw [hscalar _ hfits,getD_map_range _ hfits]

end InducedBasis

theorem subsetProduct_reverse (fs : List F) (i : ℕ) :
    subsetProduct fs.reverse (reverseBits i fs.length) = subsetProduct fs i := by
  induction fs generalizing i with
  | nil => rfl
  | cons f fs ih =>
    have hlt := reverseBits_lt (i / 2) fs.length
    have hlen : fs.reverse.length = fs.length := List.length_reverse
    have hsplit := subsetProduct_split fs.reverse [f] (h := i % 2) (hlen.symm ▸ hlt)
    rw [hlen] at hsplit
    rw [List.reverse_cons,List.length_cons,reverseBits,hsplit,ih,subsetProduct,subsetProduct,subsetProduct,
      Nat.mod_mod,mul_one,mul_comm]

theorem networkCodeword_row (t : ℕ → ℕ → F) (k ρ : ℕ) (m : Memory F) {i : ℕ} (hi : i < 2 ^ (k + ρ)) :
    networkCodeword t k ρ 0 m i = ∑ j ∈ range (2 ^ k),
      subsetProduct ((List.range k).map (bitFactor t (k + ρ) i)).reverse j * m j := by
  have hplace := layers_place t (Nat.le_add_left ρ k) (le_refl (k + ρ)) (fun j => m (reverseBits j k)) hi
  have hle : 2 ^ k ≤ 2 ^ (k + ρ) := Nat.pow_le_pow_right Nat.two_pos (Nat.le_add_right k ρ)
  have hlen : ((List.range k).map (bitFactor t (k + ρ) i)).length = k := by
    rw [List.length_map,List.length_range]
  have hlow : ∀ j < 2 ^ k, subsetProduct ((List.range (k + ρ)).map (bitFactor t (k + ρ) i)) j =
      subsetProduct ((List.range k).map (bitFactor t (k + ρ) i)) j := by
    intro j hj
    rw [List.range_add,List.map_append,subsetProduct_low _ _ (hlen.symm ▸ hj)]
  rw [networkCodeword,Nat.add_zero,←hplace,layers_all _ _ _ hi,
    ←sum_subset (range_subset_range.mpr hle) fun j _ hj => ?_,sum_reverseBits]
  · refine sum_congr rfl fun j hj => ?_
    have hrev := reverseBits_lt j k
    have hback := subsetProduct_reverse ((List.range k).map (bitFactor t (k + ρ) i)).reverse j
    rw [List.reverse_reverse,List.length_reverse,hlen] at hback
    rw [place,if_pos hrev,reverseBits_reverseBits (mem_range.mp hj),hlow _ hrev,hback,mul_comm]
  · have hout : ¬j < 2 ^ k := fun hlt => hj (mem_range.mpr hlt)
    rw [place,if_neg hout,zero_mul]

section Code

variable {K : Type} [Field K] [BinaryField K]

theorem domain_basis [DecidableEq K] {ntt : AdditiveNtt K} {code : ReedSolomonCode} (h : Admits ntt code)
    {d : ℕ} (hpos : 0 < d) (hd : d ≤ code.logLen) : (ntt.domain d).basis = gaoMateerPrefix K d := by
  have hwhole : Admits ntt ⟨code.logLen,0⟩ := ⟨h.domain,h.degree,h.nonempty,h.unit,h.basis⟩
  have hbelow := (hwhole.descend (n := code.logLen - d) (by omega) (by omega)).basis
  have hlen : (⟨code.logLen - (code.logLen - d),0⟩ : ReedSolomonCode).logLen = d := Nat.sub_sub_self hd
  rw [hlen] at hbelow
  exact hbelow

theorem subsetSum_initial [DecidableEq K] {ntt : AdditiveNtt K} {code : ReedSolomonCode}
    (h : Admits ntt code) {idx s : ℕ} (hidx : idx < 2 ^ code.logLen) (hs : s < code.logLen) :
    subsetSum (gaoMateerPrefix K (code.logLen - s)) (idx / 2 ^ s) =
      bitFactor ntt.twiddle code.logLen idx s := by
  obtain ⟨layer,hlayer⟩ : ∃ layer, code.logLen = layer + 1 + s := ⟨code.logLen - 1 - s,by omega⟩
  have hdim : code.logLen - s = layer + 1 := by omega
  have habove : code.logLen - 1 - s = layer := by omega
  have hblock : idx / 2 ^ (s + 1) < 2 ^ layer := by
    have hsum : layer + (s + 1) = code.logLen := by omega
    rw [Nat.div_lt_iff_lt_mul (Nat.two_pow_pos _),←pow_add,hsum]
    exact hidx
  have hdomain : layer < ntt.logDomainSize := by
    have hfits := h.domain
    omega
  have hbasis := domain_basis h (d := layer + 1) (Nat.succ_pos layer) (by omega)
  have hfirst : gaoMateerPrefix K (layer + 1) = 1 :: (gaoMateerPrefix K (layer + 1)).tail := by
    rw [gaoMateerPrefix,List.range_succ_eq_map,List.map_cons,h.unit,List.tail_cons]
  rw [hdim,hfirst,SubspacePolynomials.subsetSum,bitFactor,habove,ntt.twiddle_eq layer hdomain _ hblock,hbasis,elementAt_eq,
    ButterflyNetwork.div_pow_succ]

def rowFactors (ntt : AdditiveNtt K) (code : ReedSolomonCode) (idx : ℕ) : List K :=
  ((List.range code.logDimension).map (bitFactor ntt.twiddle code.logLen idx)).reverse

variable [DecidableEq K] {ntt : AdditiveNtt K} {code : ReedSolomonCode} {context : DomainInterface K}
  {layerBasis : ℕ → List K} {idx : ℕ}

theorem generatorRow_run (h : Admits ntt code)
    (hcontext : Serves context code.logLen (gaoMateerPrefix K) layerBasis) (hidx : idx < 2 ^ code.logLen) :
    generatorRow (subspaceContext context) code.logDimension idx = .ok (rowFactors ntt code idx) := by
  have hsize : (subspaceContext context).logDomainSize = code.logLen := hcontext.size
  have hevals : evalsAtDomainIndex (subspaceContext context) idx =
      .ok ((List.range code.logLen).map (bitFactor ntt.twiddle code.logLen idx)) := by
    rw [evalsAtDomainIndex,hsize,Nat.one_shiftLeft,require_true hidx]
    refine mapM_eq_map fun s hs => ?_
    rw [List.mem_range] at hs
    have hsubspace : (subspaceContext context).subspace (code.logLen - s) =
        .ok ⟨gaoMateerPrefix K (code.logLen - s)⟩ := hcontext.subspace _ (Nat.sub_le _ _)
    have hposition : idx >>> s < 1 <<< (⟨gaoMateerPrefix K (code.logLen - s)⟩ : BinarySubspace K).dim := by
      rw [BinarySubspace.dim,gaoMateerPrefix_length,Nat.one_shiftLeft,Nat.shiftRight_eq_div_pow,
        Nat.div_lt_iff_lt_mul (Nat.two_pow_pos s),←pow_add,Nat.sub_add_cancel hs.le]
      exact hidx
    rw [hsubspace,ok_bind,BinarySubspace.get,require_true hposition,ok_bind,elementAt_eq,
      Nat.shiftRight_eq_div_pow,←subsetSum_initial h hidx hs]
    rfl
  have hle : code.logDimension ≤ code.logLen := Nat.le_add_right _ _
  rw [generatorRow,hevals,ok_bind,←List.map_take,List.take_range,Nat.min_eq_left hle]
  rfl

variable [Algebra K F]

theorem queryRow_run (h : Admits ntt code)
    (hcontext : Serves context code.logLen (gaoMateerPrefix K) layerBasis) (hsize : code.logLen < usizeBits) :
    ∃ padded, paddedTables (F := F) (subspaceContext context) code.logDimension = .ok padded ∧
      ∀ idx < 2 ^ code.logLen, queryRow padded idx = .ok ((rowFactors ntt code idx).map (algebraMap K F)) := by
  have hdomain : (subspaceContext context).logDomainSize = code.logLen := hcontext.size
  have hle : code.logDimension ≤ code.logLen := Nat.le_add_right _ _
  have hpadded : paddedTables (F := F) (subspaceContext context) code.logDimension =
      .ok ((List.range code.logDimension).map fun s =>
        List.replicate s 0 ++ (gaoMateerPrefix K (code.logLen - s)).map (algebraMap K F)) := by
    refine mapM_eq_map fun s _ => ?_
    have hsubspace : (subspaceContext context).subspace (code.logLen - s) =
        .ok ⟨gaoMateerPrefix K (code.logLen - s)⟩ := hcontext.subspace _ (Nat.sub_le _ _)
    rw [hdomain,hsubspace]
    rfl
  refine ⟨_,hpadded,fun idx hidx => ?_⟩
  have hrow : ((List.range code.logDimension).map fun s =>
      (List.replicate s 0 ++ (gaoMateerPrefix K (code.logLen - s)).map (algebraMap K F) : List F)).mapM
        (fun elems => subsetSumWord elems idx) = .ok ((List.range code.logDimension).map fun s =>
          algebraMap K F (bitFactor ntt.twiddle code.logLen idx s)) := by
    rw [List.mapM_map]
    refine mapM_eq_map fun s hs => ?_
    have hs' : s < code.logLen := (List.mem_range.mp hs).trans_le hle
    have hlen : (List.replicate s 0 ++
        (gaoMateerPrefix K (code.logLen - s)).map (algebraMap K F) : List F).length ≤ 64 := by
      rw [List.length_append,List.length_replicate,List.length_map,gaoMateerPrefix_length,
        Nat.add_sub_cancel' hs'.le]
      exact hsize.le
    rw [Function.comp_apply,subsetSumWord_eq hlen,subsetSum_append,subsetSum_replicate,zero_add,
      List.length_replicate,
      ←subsetSum_map (map_zero _) (map_add _),subsetSum_initial h hidx hs']
  rw [queryRow,hrow,ok_bind,rowFactors,List.map_reverse,List.map_map]
  rfl

variable {indices : List ℕ}

omit [Algebra K F] in
theorem ofRows_run {row : ℕ → Except AssertFailure (List F)} {logDim : ℕ} {alpha : F}
    (hrow : ∀ {idx : ℕ} {factors : List F}, row idx = .ok factors → factors.length = logDim)
    {g : ℕ → List F} (h : ∀ idx ∈ indices, row idx = .ok (g idx)) :
    ∃ basis, InducedBasis.ofRows row logDim indices alpha hrow = .ok basis ∧ basis.nVars = logDim ∧
      basis.factors = indices.map g ∧ basis.batching = powers alpha indices.length := by
  have hmap := mapM_eq_map h
  unfold InducedBasis.ofRows
  split
  · rename_i e hrun
    rw [hmap] at hrun
    cases hrun
  · rename_i factors hrun
    rw [hmap] at hrun
    exact ⟨_,rfl,rfl,(Except.ok.inj hrun).symm,rfl⟩

theorem new_run (h : Admits ntt code) (hcontext : Serves context code.logLen (gaoMateerPrefix K) layerBasis)
    (hsize : code.logLen < usizeBits) (hindices : ∀ idx ∈ indices, idx < 2 ^ code.logLen)
    (alpha : K) :
    ∃ basis, InducedBasis.new (subspaceContext context) code.logDimension indices alpha = .ok basis ∧
      basis.nVars = code.logDimension ∧ basis.factors = indices.map (rowFactors ntt code) ∧
        basis.batching = powers alpha indices.length := by
  have hdomain : (subspaceContext context).logDomainSize = code.logLen := hcontext.size
  have hdim : code.logDimension ≤ (subspaceContext context).logDomainSize := by
    rw [hdomain]
    exact Nat.le_add_right _ _
  rw [InducedBasis.new,dif_pos hdim]
  simp only [hdomain,indexPow_ok hsize,ok_bind,require_true hindices]
  exact ofRows_run _ fun idx hmem => generatorRow_run h hcontext (hindices idx hmem)

theorem fromQueryWords_run (h : Admits ntt code)
    (hcontext : Serves context code.logLen (gaoMateerPrefix K) layerBasis) (hsize : code.logLen < usizeBits)
    (hindices : ∀ idx ∈ indices, idx < 2 ^ code.logLen) (alpha : F) :
    ∃ basis, InducedBasis.fromQueryWords (subspaceContext context) code.logDimension indices alpha = .ok basis ∧
      basis.nVars = code.logDimension ∧
        basis.factors = indices.map (fun idx => (rowFactors ntt code idx).map (algebraMap K F)) ∧
          basis.batching = powers alpha indices.length := by
  have hdim : code.logDimension ≤ (subspaceContext context).logDomainSize := by
    rw [show (subspaceContext context).logDomainSize = code.logLen from hcontext.size]
    exact Nat.le_add_right _ _
  obtain ⟨padded,hpadded,hrow⟩ := queryRow_run (F := F) h hcontext hsize
  rw [InducedBasis.fromQueryWords,require_true hdim,ok_bind]
  split
  · rename_i e hrun
    rw [hpadded] at hrun
    cases hrun
  · rename_i tables hrun
    rw [hpadded] at hrun
    cases hrun
    exact ofRows_run (fun hrun => (queryRow_length hrun).trans (paddedTables_length hpadded))
      fun idx hmem => hrow idx (hindices idx hmem)

theorem symbol_row (h : Admits ntt code) {message : Buffer K} (hlen : message.logLen = code.logDimension) :
    ∃ codeword, code.encodeBatch ntt message 0 = .ok codeword ∧ ∀ idx < 2 ^ code.logLen,
      codeword.scalars idx = ∑ j ∈ range (2 ^ code.logDimension),
        message.scalars j * subsetProduct (rowFactors ntt code idx) j := by
  obtain ⟨codeword,hrun,hlog,hvalue⟩ := @encodeBatch_run K _ _ _ ntt code h message 0 hlen
  refine ⟨codeword,hrun,fun idx hidx => ?_⟩
  rw [hvalue idx (hlog ▸ hidx),networkCodeword_row _ _ _ _ hidx]
  exact sum_congr rfl fun j _ => mul_comm _ _

omit [BinaryField K] [DecidableEq K] in
theorem rowFactors_length (idx : ℕ) : (rowFactors ntt code idx).length = code.logDimension := by
  rw [rowFactors,List.length_reverse,List.length_map,List.length_range]

end Code

open InducedBasis in
/-- Over a context of the code's domains, the basis of any positions carries the tensor factors of their
generator rows: the message pairs with it, and with its weight vector, to the batched symbols; from query
words the factors are the same. -/
theorem induced_basis_exact {K : Type} [Field K] [BinaryField K] [DecidableEq K] [CharP F 2] [Algebra K F]
    {ntt : AdditiveNtt K} {code : ReedSolomonCode} (h : Admits ntt code) {context : DomainInterface K}
    {layerBasis : ℕ → List K} (hcontext : Serves context code.logLen (gaoMateerPrefix K) layerBasis)
    (hsize : code.logLen < usizeBits) {indices : List ℕ} (hindices : ∀ idx ∈ indices, idx < 2 ^ code.logLen)
    (alpha : K) :
    (∃ basis dense, new (subspaceContext context) code.logDimension indices alpha = .ok basis ∧
      basis.nVars = code.logDimension ∧ basis.batching = powers alpha indices.length ∧
      basis.toDense = .ok dense ∧
      (∀ message : Buffer K, message.logLen = code.logDimension →
        ∃ codeword claim, code.encodeBatch ntt message 0 = .ok codeword ∧
          List.Forall₂ (fun idx row => ∃ weights, expandSubsetProducts row = .ok weights ∧
            codeword.scalars idx = ∑ j ∈ range (2 ^ code.logDimension),
              message.scalars j * weights.getD j 0) indices basis.factors ∧
          basis.pair ⟨1 <<< code.logDimension,message.scalars⟩ = .ok claim ∧
          innerProduct dense ((List.range (2 ^ code.logDimension)).map message.scalars) = .ok claim ∧
          basis.enforcedSum (indices.map codeword.scalars) = .ok claim) ∧
      ∀ alpha' : F, ∃ lifted,
        fromQueryWords (subspaceContext context) code.logDimension indices alpha' = .ok lifted ∧
          lifted.nVars = basis.nVars ∧ lifted.batching = powers alpha' indices.length ∧
            lifted.factors = basis.factors.map (List.map (algebraMap K F))) ∧
    ∀ basis : InducedBasis F, basis.nVars < usizeBits →
      ∃ dense, basis.toDense = .ok dense ∧ dense.length = 2 ^ basis.nVars ∧
        (∀ point, point.length = basis.nVars →
          basis.evaluate point = .ok (mle point fun x => dense.getD x 0)) ∧
        ∀ folds : List (List F), folds.flatten.length ≤ basis.nVars →
          ∃ folded denseFolded, folds.foldlM foldHigh basis = .ok folded ∧
            folded.toDense = .ok denseFolded ∧ ∀ w, ∃ values r : FieldBuffer w F,
              fromValues dense = .ok values ∧
              folds.flatten.foldlM PackedFolding.foldHighestVarInplace values = .ok r ∧
              r.scalars = denseFolded := by
  have hle : code.logDimension ≤ code.logLen := Nat.le_add_right _ _
  refine ⟨?_,fun basis hvars => ⟨_,basis.toDense_eq hvars,?_,fun point hpoint => ?_,fun folds hfolds => ?_⟩⟩
  · obtain ⟨basis,hnew,hvars,hfactors,hbatching⟩ := new_run h hcontext hsize hindices alpha
    have hdense := basis.toDense_eq (by omega)
    refine ⟨basis,_,hnew,hvars,hbatching,hdense,fun message hmessage => ?_,fun alpha' => ?_⟩
    · obtain ⟨codeword,hencode,hsymbol⟩ := symbol_row h hmessage
      have hpower : (⟨1 <<< code.logDimension,message.scalars⟩ : Values K).len = 2 ^ basis.nVars := by
        rw [hvars]
        exact Nat.one_shiftLeft _
      have hpair := basis.pair_run (by omega) hpower
      rw [hvars] at hpair
      refine ⟨codeword,_,hencode,?_,hpair,?_,?_⟩
      · rw [hfactors,List.forall₂_map_right_iff,List.forall₂_same]
        intro idx hmem
        have hlen := @rowFactors_length K _ ntt code idx
        refine ⟨_,expandSubsetProducts_eq (by omega),?_⟩
        rw [hsymbol idx (hindices idx hmem),hlen]
        refine sum_congr rfl fun j hj => ?_
        rw [getD_map_range _ (mem_range.mp hj)]
      · have hvector : (List.range (2 ^ basis.nVars)).map (weight basis.entries) =
            (List.range (2 ^ code.logDimension)).map (weight basis.entries) := by rw [hvars]
        rw [hvector,innerProduct_range]
      · have hcount : (indices.map codeword.scalars).length = basis.nRows := by
          rw [nRows,hfactors,List.length_map,List.length_map]
        have hrows : indices.map codeword.scalars = basis.factors.map fun row =>
            ∑ j ∈ range (2 ^ code.logDimension), message.scalars j * subsetProduct row j := by
          rw [hfactors,List.map_map]
          exact List.map_congr_left fun idx hmem => hsymbol idx (hindices idx hmem)
        rw [enforcedSum,require_true hcount,ok_bind,hrows,innerProduct_weight]
    · obtain ⟨lifted,hlifted,hliftedVars,hliftedFactors,hliftedBatching⟩ :=
        fromQueryWords_run h hcontext hsize hindices alpha'
      refine ⟨lifted,hlifted,hliftedVars.trans hvars.symm,hliftedBatching,?_⟩
      rw [hliftedFactors,hfactors,List.map_map]
      rfl
  · rw [List.length_map,List.length_range]
  · rw [basis.evaluate_run hpoint]
    refine congrArg Except.ok (mle_congr fun x hx => ?_)
    rw [getD_map_range _ (hpoint ▸ hx)]
  · obtain ⟨folded,hfold,hfoldVars,hwords⟩ := basis.foldHigh_dense hfolds
    exact ⟨folded,_,(basis.foldHighs_eq hfolds).trans hfold,folded.toDense_eq (by omega),hwords⟩

/-- Three positions, one of them twice, of a code over the field of four elements. -/
theorem induced_basis_exact_repeated : ∃ basis dense,
    InducedBasis.new (subspaceContext (⟨gaoMateerPrefix Quaternary 2⟩ : GaoMateerOnTheFly Quaternary).interface)
      1 [1,3,1] Quaternary.root = .ok basis ∧ basis.nVars = 1 ∧ basis.toDense = .ok dense := by
  have hpositions : ∀ idx ∈ [1,3,1], idx < 2 ^ (⟨1,1⟩ : ReedSolomonCode).logLen := by decide
  have hadmits : Admits quaternaryNtt ⟨1,1⟩ := ⟨by decide,by decide,by decide,by decide,rfl⟩
  obtain ⟨⟨basis,dense,hnew,hvars,-,hdense,-⟩,-⟩ := induced_basis_exact (F := Quaternary) hadmits
    (GaoMateerOnTheFly.serves (n := 2) (by decide)) (by decide) hpositions Quaternary.root
  exact ⟨basis,dense,hnew,hvars,hdense⟩

end Binius64.Whir
