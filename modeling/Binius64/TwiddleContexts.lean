import Binius64.ReedSolomon

/-!
# Four domain contexts

Twiddles computed when they are asked for, or tabulated beforehand, over any subspace or over the
Gao–Mateer one, whose subspace polynomials take its elements to each other and need no computing.
-/

namespace Binius64.Ntt

open CheckedRun SubspacePolynomials List

def usizeBits : ℕ := 64

def indexPow (k : ℕ) : Except AssertFailure ℕ := do
  require (k < usizeBits)
  return 1 <<< k

def slice {α : Type} (xs : List α) (start stop : ℕ) : Except AssertFailure (List α) := do
  require (start ≤ stop ∧ stop ≤ xs.length)
  return (xs.take stop).drop start

def stepBy {α : Type} (step : ℕ) (xs : List α) : List α :=
  (range xs.length).filterMap fun j => xs[j * step]?

variable {F : Type} [Field F]

/-- Walks over every element of a subspace, in index order. -/
structure BinarySubspaceIterator (F : Type) where
  basis : List F
  idx : ℕ
  next : Option F

/-- The length of the run of ones at the low end of an index. -/
def trailingOnes : ℕ → ℕ → ℕ
  | 0, _ => 0
  | bits + 1, n => if n % 2 = 1 then trailingOnes bits (n / 2) + 1 else 0

namespace BinarySubspaceIterator

/-- A walk from index zero. -/
def new (basis : List F) : Except AssertFailure (BinarySubspaceIterator F) := do
  require (basis.length < usizeBits)
  return ⟨basis,0,some 0⟩

variable (it : BinarySubspaceIterator F)

/-- The element at hand, and the walk moved on to the next index. -/
def advance : Except AssertFailure (Option F × BinarySubspaceIterator F) :=
  match it.next with
  | none => return (none,it)
  | some ret => do
    let ones := trailingOnes usizeBits it.idx
    -- The run of ones flips to zeros, the zero after it to a one.
    let flipped ← slice it.basis 0 ones
    let next := flipped.foldl (· - ·) ret
    return (some ret,{it with idx := it.idx + 1,next := it.basis[ones]?.map (next + ·)})

/-- The number of elements ahead. -/
def len : ℕ := 1 <<< it.basis.length - it.idx

/-- The elements up to the end, or to a number of them. -/
def collect : ℕ → BinarySubspaceIterator F → Except AssertFailure (List F)
  | 0, _ => return []
  | n + 1, it => do
    match ← it.advance with
    | (none,_) => return []
    | (some x,it) => return x :: (← collect n it)

/-- The elements up to the end: asked once more than there are elements, the walk has ended. -/
def elements : Except AssertFailure (List F) :=
  collect (it.len + 1) it

end BinarySubspaceIterator

structure DomainInterface (F : Type) where
  logDomainSize : ℕ
  subspace : ℕ → Except AssertFailure (BinarySubspace F)
  twiddle : ℕ → ℕ → Except AssertFailure F
  /-- The twiddles of a layer at the blocks whose low bits are zero. -/
  iterTwiddles : ℕ → ℕ → Except AssertFailure (List F)

def eachTwiddle (twiddle : ℕ → ℕ → Except AssertFailure F) (layer logStepBy : ℕ) :
    Except AssertFailure (List F) := do
  require (logStepBy ≤ layer)
  let count ← indexPow (layer - logStepBy)
  (range count).mapM fun block => twiddle layer (block <<< logStepBy)

/-- Every subset sum of the elements after the first, in index order. -/
def expand (basis : List F) : List F :=
  basis.tail.foldl (fun expanded b => expanded ++ expanded.map (· + b)) [0]

def GenericOnTheFly.interface (context : GenericOnTheFly F) : DomainInterface F :=
  ⟨context.logDomainSize,context.subspace,context.twiddle,eachTwiddle context.twiddle⟩

/-- A domain context of any subspace that tabulates its twiddles. -/
structure GenericPreExpanded (F : Type) where
  /-- The values of the normalised subspace polynomials on the basis. -/
  evals : List (List F)
  expanded : List (List F)

namespace GenericPreExpanded

def generateFromSubspace (subspace : BinarySubspace F) :
    Except AssertFailure (GenericPreExpanded F) := do
  let evals ← generateEvalsFromSubspace subspace
  let expanded ← evals.reverse.mapM fun basis => do
    require (1 ≤ basis.length)
    let capacity ← indexPow (basis.length - 1)
    let expandedI := expand basis
    require (expandedI.length = capacity)
    return expandedI
  require (expanded.length = evals.length)
  return ⟨evals,expanded⟩

/-- The number of layers. -/
def logDomainSize (context : GenericPreExpanded F) : ℕ := context.evals.length

/-- The domain of a dimension. -/
def subspace (context : GenericPreExpanded F) (i : ℕ) : Except AssertFailure (BinarySubspace F) := do
  if i = 0 then return ⟨[]⟩
  require (i ≤ context.logDomainSize)
  let basis ← index context.evals (context.logDomainSize - i)
  return ⟨basis⟩

def twiddle (context : GenericPreExpanded F) (layer block : ℕ) : Except AssertFailure F := do
  let row ← index context.expanded layer
  index row block

/-- The twiddles of a layer at the blocks whose low bits are zero. -/
def iterTwiddles (context : GenericPreExpanded F) (layer logStepBy : ℕ) :
    Except AssertFailure (List F) := do
  let row ← index context.expanded layer
  let step ← indexPow logStepBy
  return stepBy step row

def interface (context : GenericPreExpanded F) : DomainInterface F :=
  ⟨context.logDomainSize,context.subspace,context.twiddle,context.iterTwiddles⟩

end GenericPreExpanded

/-- The domain context of the Gao–Mateer basis that computes its twiddles when they are asked for. -/
structure GaoMateerOnTheFly (F : Type) where
  basis : List F

namespace GaoMateerOnTheFly

def generate (F : Type) [Field F] [BinaryField F] [DecidableEq F] (logDomainSize : ℕ) :
    Except AssertFailure (GaoMateerOnTheFly F) := do
  let basis ← gaoMateerBasis F logDomainSize
  return ⟨basis⟩

/-- The number of layers. -/
def logDomainSize (context : GaoMateerOnTheFly F) : ℕ := context.basis.length

/-- The domain of a dimension. -/
def subspace (context : GaoMateerOnTheFly F) (i : ℕ) : Except AssertFailure (BinarySubspace F) := do
  let basis ← slice context.basis 0 i
  return ⟨basis⟩

def twiddle (context : GaoMateerOnTheFly F) (layer block : ℕ) : Except AssertFailure F := do
  let basis ← slice context.basis 1 (layer + 1)
  (⟨basis⟩ : BinarySubspace F).get block

/-- The twiddles of a layer at the blocks whose low bits are zero. -/
def iterTwiddles (context : GaoMateerOnTheFly F) (layer logStepBy : ℕ) :
    Except AssertFailure (List F) := do
  let basis ← slice context.basis (1 + logStepBy) (layer + 1)
  let it ← BinarySubspaceIterator.new basis
  it.elements

def interface (context : GaoMateerOnTheFly F) : DomainInterface F :=
  ⟨context.logDomainSize,context.subspace,context.twiddle,context.iterTwiddles⟩

end GaoMateerOnTheFly

/-- The domain context of the Gao–Mateer basis that tabulates its twiddles. -/
structure GaoMateerPreExpanded (F : Type) where
  basis : List F
  /-- The twiddles of the last layer, which start with those of every other. -/
  expanded : List F

namespace GaoMateerPreExpanded

def generate (F : Type) [Field F] [BinaryField F] [DecidableEq F] (logDomainSize : ℕ) :
    Except AssertFailure (GaoMateerPreExpanded F) := do
  let basis ← gaoMateerBasis F logDomainSize
  let _capacity ← indexPow logDomainSize
  let expanded := expand basis
  let size ← indexPow (logDomainSize - 1)
  require (expanded.length = size)
  return ⟨basis,expanded⟩

/-- The number of layers. -/
def logDomainSize (context : GaoMateerPreExpanded F) : ℕ := context.basis.length

/-- The domain of a dimension. -/
def subspace (context : GaoMateerPreExpanded F) (i : ℕ) :
    Except AssertFailure (BinarySubspace F) := do
  let basis ← slice context.basis 0 i
  return ⟨basis⟩

def twiddle (context : GaoMateerPreExpanded F) (_layer block : ℕ) : Except AssertFailure F :=
  index context.expanded block

/-- The twiddles of a layer at the blocks whose low bits are zero. -/
def iterTwiddles (context : GaoMateerPreExpanded F) (layer logStepBy : ℕ) :
    Except AssertFailure (List F) := do
  let count ← indexPow layer
  let row ← slice context.expanded 0 count
  let step ← indexPow logStepBy
  return stepBy step row

def interface (context : GaoMateerPreExpanded F) : DomainInterface F :=
  ⟨context.logDomainSize,context.subspace,context.twiddle,context.iterTwiddles⟩

end GaoMateerPreExpanded

/-- The answers of a context: its domains, and its twiddles, which are the subset sums of a basis of
each layer. -/
structure Serves (context : DomainInterface F) (n : ℕ) (domain layerBasis : ℕ → List F) : Prop where
  size : context.logDomainSize = n
  subspace : ∀ i ≤ n, context.subspace i = .ok ⟨domain i⟩
  length_layerBasis : ∀ layer < n, (layerBasis layer).length = layer
  twiddle : ∀ layer < n, ∀ block < 2 ^ layer,
    context.twiddle layer block = .ok (subsetSum (layerBasis layer) block)
  twiddle_xor : ∀ layer < n, ∀ a < 2 ^ layer, ∀ b < 2 ^ layer, ∃ x y,
    context.twiddle layer a = .ok x ∧ context.twiddle layer b = .ok y ∧
      context.twiddle layer (a ^^^ b) = .ok (x + y)
  /-- The iterator lists the twiddles at the multiples of its step. -/
  iterTwiddles : ∀ layer < n, ∀ logStepBy ≤ layer, context.iterTwiddles layer logStepBy =
    (range (2 ^ (layer - logStepBy))).mapM fun j => context.twiddle layer (j * 2 ^ logStepBy)

theorem foldl_sub (flipped : List F) (x : F) : flipped.foldl (· - ·) x = x - flipped.sum := by
  induction flipped generalizing x with
  | nil => rw [foldl_nil,sum_nil,sub_zero]
  | cons b rest ih => rw [foldl_cons,ih,sum_cons,sub_sub]

variable (basis : List F)

theorem subsetSum_succ {bits n : ℕ} (hbits : basis.length ≤ bits)
    (hn : n < 2 ^ basis.length) : trailingOnes bits n ≤ basis.length ∧
      match basis[trailingOnes bits n]? with
      | some b => n + 1 < 2 ^ basis.length ∧
          subsetSum basis n - (basis.take (trailingOnes bits n)).sum + b = subsetSum basis (n + 1)
      | none => n + 1 = 2 ^ basis.length := by
  induction basis generalizing bits n with
  | nil =>
    have hzero : n = 0 := by
      rw [length_nil,pow_zero] at hn
      omega
    subst hzero
    have hones : trailingOnes bits 0 = 0 := by cases bits <;> rfl
    rw [hones]
    exact ⟨le_rfl,rfl⟩
  | cons b rest ih =>
    obtain ⟨bits,rfl⟩ : ∃ k, bits = k + 1 :=
      ⟨bits - 1,by rw [length_cons] at hbits; omega⟩
    have hrest : rest.length ≤ bits := Nat.le_of_succ_le_succ hbits
    rw [length_cons,pow_succ] at hn
    by_cases hodd : n % 2 = 1
    · -- The low one flips, and the rest counts up.
      have hhalf : n / 2 < 2 ^ rest.length := by omega
      have hnext : (n + 1) / 2 = n / 2 + 1 := by omega
      have heven : ¬(n + 1) % 2 = 1 := by omega
      obtain ⟨hle,hstep⟩ := ih hrest hhalf
      have hones : trailingOnes (bits + 1) n = trailingOnes bits (n / 2) + 1 := by
        rw [trailingOnes,if_pos hodd]
      rw [hones,length_cons,getElem?_cons_succ]
      refine ⟨Nat.succ_le_succ hle,?_⟩
      cases hget : rest[trailingOnes bits (n / 2)]? with
      | some c =>
        rw [hget] at hstep
        obtain ⟨hlt,hsum⟩ := hstep
        refine ⟨by rw [pow_succ]; omega,?_⟩
        rw [subsetSum,subsetSum,if_pos hodd,if_neg heven,hnext,←hsum,take_succ_cons,
          sum_cons]
        ring
      | none =>
        rw [hget] at hstep
        change n / 2 + 1 = 2 ^ rest.length at hstep
        change n + 1 = 2 ^ (rest.length + 1)
        rw [pow_succ]
        omega
    · -- Only the low zero flips.
      have hhalf : (n + 1) / 2 = n / 2 := by omega
      have hone : (n + 1) % 2 = 1 := by omega
      have hones : trailingOnes (bits + 1) n = 0 := by rw [trailingOnes,if_neg hodd]
      rw [hones,length_cons]
      refine ⟨Nat.zero_le _,?_⟩
      refine ⟨by rw [pow_succ]; omega,?_⟩
      rw [subsetSum,subsetSum,if_neg hodd,if_pos hone,hhalf,take_zero,sum_nil]
      ring

namespace BinarySubspaceIterator

/-- The element of a walk at an index, none past the end. -/
def at_ (basis : List F) (n : ℕ) : BinarySubspaceIterator F :=
  ⟨basis,n,if n < 2 ^ basis.length then some (subsetSum basis n) else none⟩

variable {basis : List F}

theorem advance_at (hbasis : basis.length < usizeBits) {n : ℕ}
    (hn : n < 2 ^ basis.length) :
    (at_ basis n).advance = .ok (some (subsetSum basis n),at_ basis (n + 1)) := by
  obtain ⟨hle,hstep⟩ := subsetSum_succ basis hbasis.le hn
  have hnext : (at_ basis n).next = some (subsetSum basis n) := if_pos hn
  have hslice : slice basis 0 (trailingOnes usizeBits n) =
      .ok (basis.take (trailingOnes usizeBits n)) := by
    rw [slice,require_true ⟨Nat.zero_le _,hle⟩,ok_bind,drop_zero]
    rfl
  unfold advance
  rw [hnext]
  change (slice basis 0 (trailingOnes usizeBits n) >>= fun flipped => pure (some (subsetSum basis n),
    (⟨basis,n + 1,basis[trailingOnes usizeBits n]?.map
      (flipped.foldl (· - ·) (subsetSum basis n) + ·)⟩ : BinarySubspaceIterator F))) = _
  rw [hslice,ok_bind,foldl_sub]
  cases hget : basis[trailingOnes usizeBits n]? with
  | some b =>
    rw [hget] at hstep
    obtain ⟨hlt,hsum⟩ := hstep
    rw [Option.map_some,hsum,at_,if_pos hlt]
    rfl
  | none =>
    rw [hget] at hstep
    change n + 1 = 2 ^ basis.length at hstep
    rw [Option.map_none,at_,if_neg (by omega)]
    rfl

theorem collect_at (hbasis : basis.length < usizeBits) (k : ℕ) : ∀ {n : ℕ},
    n + k = 2 ^ basis.length → collect (k + 1) (at_ basis n) =
      .ok ((range' n k).map (subsetSum basis)) := by
  induction k with
  | zero =>
    intro n hn
    have hend : (at_ basis n).next = none := if_neg (by omega)
    have hadvance : (at_ basis n).advance = .ok (none,at_ basis n) := by
      unfold advance
      rw [hend]
      rfl
    rw [collect,hadvance]
    rfl
  | succ k ih =>
    intro n hn
    rw [collect,advance_at hbasis (by omega),ok_bind]
    change (collect (k + 1) (at_ basis (n + 1)) >>= fun rest =>
      pure (subsetSum basis n :: rest)) = _
    rw [ih (by omega),range'_succ,map_cons]
    rfl

theorem elements_new (hbasis : basis.length < usizeBits) :
    (new basis >>= elements) = .ok ((range (2 ^ basis.length)).map (subsetSum basis)) := by
  have hstart : at_ basis 0 = ⟨basis,0,some 0⟩ := by
    rw [at_,if_pos (Nat.two_pow_pos _),subsetSum_zero]
  have hlen : (at_ basis 0).len = 2 ^ basis.length := by
    rw [len,at_,Nat.sub_zero,Nat.one_shiftLeft]
  have hall := collect_at hbasis (2 ^ basis.length) (Nat.zero_add _)
  rw [new,require_true hbasis]
  change elements ⟨basis,0,some 0⟩ = _
  rw [←hstart,elements,hlen,hall,range_eq_range']

end BinarySubspaceIterator

theorem expand_eq :
    expand basis = (range (2 ^ basis.tail.length)).map (subsetSum basis.tail) := by
  have hgrow : ∀ rest front : List F,
      rest.foldl (fun expanded b => expanded ++ expanded.map (· + b))
        ((range (2 ^ front.length)).map (subsetSum front)) =
        (range (2 ^ (front ++ rest).length)).map (subsetSum (front ++ rest)) := by
    intro rest
    induction rest with
    | nil =>
      intro front
      rw [foldl_nil,append_nil]
    | cons b rest ih =>
      intro front
      have hdouble : (range (2 ^ front.length)).map (subsetSum front) ++
          ((range (2 ^ front.length)).map (subsetSum front)).map (· + b) =
            (range (2 ^ (front ++ [b]).length)).map (subsetSum (front ++ [b])) := by
        rw [length_append,length_singleton,pow_succ,mul_two,range_add,
          map_append,map_map,map_map]
        congr 1
        · refine map_congr_left fun i hi => ?_
          exact (subsetSum_concat_low front b (mem_range.mp hi)).symm
        · refine map_congr_left fun i hi => ?_
          exact (subsetSum_concat_high front b (mem_range.mp hi)).symm
      rw [foldl_cons,hdouble,ih,append_assoc,singleton_append]
  have hstart : ([0] : List F) =
      (range (2 ^ ([] : List F).length)).map (subsetSum []) := rfl
  rw [expand,hstart,hgrow,nil_append]

theorem stepBy_map {α : Type} (f : ℕ → α) {layer logStepBy : ℕ} (hs : logStepBy ≤ layer) :
    stepBy (2 ^ logStepBy) ((range (2 ^ layer)).map f) =
      (range (2 ^ (layer - logStepBy))).map fun j => f (j * 2 ^ logStepBy) := by
  have hsplit : 2 ^ layer = 2 ^ (layer - logStepBy) * 2 ^ logStepBy := by
    rw [←pow_add,Nat.sub_add_cancel hs]
  have hle : 2 ^ (layer - logStepBy) ≤ 2 ^ layer :=
    Nat.pow_le_pow_right Nat.two_pos (Nat.sub_le _ _)
  have hget : ∀ j, ((range (2 ^ layer)).map f)[j * 2 ^ logStepBy]? =
      if j < 2 ^ (layer - logStepBy) then some (f (j * 2 ^ logStepBy)) else none := by
    intro j
    rw [getElem?_map]
    split
    · rename_i hj
      rw [getElem?_range]
      · rfl
      · rw [hsplit]
        exact Nat.mul_lt_mul_of_pos_right hj (Nat.two_pow_pos _)
    · rename_i hj
      rw [getElem?_eq_none]
      · rfl
      · rw [length_range,hsplit]
        exact Nat.mul_le_mul_right _ (not_lt.mp hj)
  obtain ⟨rest,hrest⟩ := Nat.exists_eq_add_of_le hle
  rw [stepBy,length_map,length_range]
  simp only [hget]
  rw [hrest,range_add,filterMap_append]
  have hlow : (range (2 ^ (layer - logStepBy))).filterMap (fun j =>
      if j < 2 ^ (layer - logStepBy) then some (f (j * 2 ^ logStepBy)) else none) =
        (range (2 ^ (layer - logStepBy))).map fun j => f (j * 2 ^ logStepBy) := by
    rw [←filterMap_eq_map]
    refine filterMap_congr fun j hj => ?_
    rw [if_pos (mem_range.mp hj)]
    rfl
  have hhigh : ((range rest).map (2 ^ (layer - logStepBy) + ·)).filterMap (fun j =>
      if j < 2 ^ (layer - logStepBy) then some (f (j * 2 ^ logStepBy)) else none) = [] := by
    rw [filterMap_eq_nil_iff]
    intro j hj
    obtain ⟨i,-,rfl⟩ := mem_map.mp hj
    exact if_neg (by omega)
  rw [hlow,hhigh,append_nil]

theorem subsetSum_shift {k : ℕ} (hk : k ≤ basis.length) (j : ℕ) :
    subsetSum basis (j * 2 ^ k) = subsetSum (basis.drop k) j := by
  rw [subsetSum_split basis hk,Nat.mul_mod_left,subsetSum_zero,zero_add,
    Nat.mul_div_cancel _ (Nat.two_pow_pos k)]

theorem index_map_range {α : Type} (f : ℕ → α) {n i : ℕ} (hi : i < n) :
    index ((range n).map f) i = .ok (f i) := by
  rw [index,getElem?_map,getElem?_range hi]
  rfl

theorem indexPow_ok {k : ℕ} (hk : k < usizeBits) : indexPow k = .ok (2 ^ k) := by
  rw [indexPow,require_true hk,ok_bind,Nat.one_shiftLeft]
  rfl

section Serves

variable [CharP F 2] {context : DomainInterface F} {n : ℕ} {domain layerBasis : ℕ → List F}

theorem Serves.of_subsetSums (hsize : context.logDomainSize = n)
    (hsubspace : ∀ i ≤ n, context.subspace i = .ok ⟨domain i⟩)
    (hlength : ∀ layer < n, (layerBasis layer).length = layer)
    (htwiddle : ∀ layer < n, ∀ block < 2 ^ layer,
      context.twiddle layer block = .ok (subsetSum (layerBasis layer) block))
    (hiter : ∀ layer < n, ∀ s ≤ layer, context.iterTwiddles layer s =
      .ok ((range (2 ^ (layer - s))).map fun j => subsetSum (layerBasis layer) (j * 2 ^ s))) :
    Serves context n domain layerBasis where
  size := hsize
  subspace := hsubspace
  length_layerBasis := hlength
  twiddle := htwiddle
  twiddle_xor layer hl a ha b hb := by
    refine ⟨_,_,htwiddle layer hl a ha,htwiddle layer hl b hb,?_⟩
    rw [htwiddle layer hl _ (Nat.xor_lt_two_pow ha hb),subsetSum_xor]
  iterTwiddles layer hl s hs := by
    rw [hiter layer hl s hs]
    refine (mapM_eq_map fun j hj => htwiddle layer hl _ ?_).symm
    have hsplit : 2 ^ layer = 2 ^ (layer - s) * 2 ^ s := by rw [←pow_add,Nat.sub_add_cancel hs]
    rw [hsplit]
    exact Nat.mul_lt_mul_of_pos_right (mem_range.mp hj) (Nat.two_pow_pos s)

omit [CharP F 2] in
theorem eachTwiddle_ok {twiddle : ℕ → ℕ → Except AssertFailure F} {basis : List F} {layer s : ℕ}
    (hs : s ≤ layer) (hbits : layer < usizeBits)
    (htwiddle : ∀ block < 2 ^ layer, twiddle layer block = .ok (subsetSum basis block)) :
    eachTwiddle twiddle layer s =
      .ok ((range (2 ^ (layer - s))).map fun j => subsetSum basis (j * 2 ^ s)) := by
  have hcount : layer - s < usizeBits := (Nat.sub_le _ _).trans_lt hbits
  rw [eachTwiddle,require_true hs,ok_bind,indexPow_ok hcount,ok_bind]
  refine mapM_eq_map fun j hj => ?_
  have hsplit : 2 ^ layer = 2 ^ (layer - s) * 2 ^ s := by rw [←pow_add,Nat.sub_add_cancel hs]
  rw [Nat.shiftLeft_eq]
  refine htwiddle _ ?_
  rw [hsplit]
  exact Nat.mul_lt_mul_of_pos_right (mem_range.mp hj) (Nat.two_pow_pos s)

end Serves

/-- The rows of a generic context: one shorter than the other. -/
structure Rows (evals : List (List F)) (n : ℕ) (row : ℕ → List F) : Prop where
  evals_eq : evals = (range n).map row
  length_row : ∀ k < n, (row k).length = n - k

namespace Rows

variable {evals : List (List F)} {n : ℕ} {row : ℕ → List F}

def domain (n : ℕ) (row : ℕ → List F) (i : ℕ) : List F := if i = 0 then [] else row (n - i)

def layerBasis (n : ℕ) (row : ℕ → List F) (layer : ℕ) : List F := (row (n - 1 - layer)).tail

omit [Field F] in
theorem length_layerBasis (h : Rows evals n row) {layer : ℕ} (hl : layer < n) :
    (layerBasis n row layer).length = layer := by
  rw [layerBasis,length_tail,h.length_row _ (by omega)]
  omega

omit [Field F] in
theorem length_evals (h : Rows evals n row) : evals.length = n := by
  rw [h.evals_eq,length_map,length_range]

omit [Field F] in
theorem subspace_eq (h : Rows evals n row) {i : ℕ} (hi : i ≤ n) :
    (⟨evals⟩ : GenericOnTheFly F).subspace i = .ok ⟨domain n row i⟩ := by
  have hsize : (⟨evals⟩ : GenericOnTheFly F).logDomainSize = n := h.length_evals
  unfold GenericOnTheFly.subspace domain
  rw [hsize]
  split
  · rfl
  · rw [require_true hi,ok_bind]
    change (index evals (n - i) >>= fun basis => pure (⟨basis⟩ : BinarySubspace F)) = _
    rw [h.evals_eq,index_map_range row (by omega)]
    rfl

theorem onTheFly [CharP F 2] (h : Rows evals n row) (hn : n ≤ usizeBits) :
    Serves (⟨evals⟩ : GenericOnTheFly F).interface n (domain n row) (layerBasis n row) := by
  have hsize : (⟨evals⟩ : GenericOnTheFly F).logDomainSize = n := h.length_evals
  have htwiddle : ∀ layer < n, ∀ block < 2 ^ layer, (⟨evals⟩ : GenericOnTheFly F).twiddle layer
      block = .ok (subsetSum (layerBasis n row layer) block) := by
    intro layer hl block hb
    have hplace : n - layer - 1 = n - 1 - layer := by omega
    have hdim : (⟨(row (n - 1 - layer)).tail⟩ : BinarySubspace F).dim = layer :=
      h.length_layerBasis hl
    rw [GenericOnTheFly.twiddle,hsize,require_true (Nat.succ_le_of_lt hl),ok_bind,hplace]
    change (index evals (n - 1 - layer) >>= fun v => (⟨v.tail⟩ : BinarySubspace F).get block) = _
    rw [h.evals_eq,index_map_range row (by omega),ok_bind,BinarySubspace.get,hdim,
      Nat.one_shiftLeft,require_true hb,ok_bind,elementAt_eq]
    rfl
  exact .of_subsetSums hsize (fun i hi => h.subspace_eq hi) (fun layer hl => h.length_layerBasis hl)
    htwiddle fun layer hl s hs => eachTwiddle_ok hs (hl.trans_le hn) (htwiddle layer hl)

def tables (n : ℕ) (row : ℕ → List F) : List (List F) :=
  (range n).map fun layer => expand (row (n - 1 - layer))

theorem expand_layer (h : Rows evals n row) {layer : ℕ} (hl : layer < n) :
    expand (row (n - 1 - layer)) =
      (range (2 ^ layer)).map (subsetSum (layerBasis n row layer)) := by
  have hlen := h.length_layerBasis hl
  rw [layerBasis] at hlen
  rw [expand_eq,hlen]
  rfl

theorem preExpanded [CharP F 2] (h : Rows evals n row) (hn : n ≤ usizeBits) :
    Serves (⟨evals,tables n row⟩ : GenericPreExpanded F).interface n (domain n row)
      (layerBasis n row) := by
  have hrow : ∀ layer < n, index (tables n row) layer =
      .ok ((range (2 ^ layer)).map (subsetSum (layerBasis n row layer))) := by
    intro layer hl
    rw [tables,index_map_range _ hl,h.expand_layer hl]
  refine .of_subsetSums h.length_evals (fun i hi => h.subspace_eq hi)
    (fun layer hl => h.length_layerBasis hl) (fun layer hl block hb => ?_)
    fun layer hl s hs => ?_
  · change (index (tables n row) layer >>= fun row => index row block) = _
    rw [hrow layer hl,ok_bind,index_map_range _ hb]
  · change (index (tables n row) layer >>= fun row => indexPow s >>= fun step =>
      pure (stepBy step row)) = _
    rw [hrow layer hl,ok_bind,indexPow_ok (by omega),ok_bind,stepBy_map _ hs]
    rfl

theorem generate_preExpanded (h : Rows evals n row) (hn : n ≤ usizeBits)
    {subspace : BinarySubspace F} (hevals : generateEvalsFromSubspace subspace = .ok evals) :
    GenericPreExpanded.generateFromSubspace subspace = .ok ⟨evals,tables n row⟩ := by
  have hreverse : evals.reverse = (range n).map fun layer => row (n - 1 - layer) := by
    refine ext_getElem (by rw [length_reverse,h.length_evals]; simp) fun i hi _ => ?_
    simp only [h.evals_eq,getElem_reverse,getElem_map,getElem_range,
      length_map,length_range]
  have htables : (evals.reverse.mapM fun basis => do
      require (1 ≤ basis.length)
      let capacity ← indexPow (basis.length - 1)
      let expandedI := expand basis
      require (expandedI.length = capacity)
      return expandedI) = .ok (tables n row) := by
    rw [hreverse,mapM_map]
    refine mapM_eq_map fun layer hl => ?_
    have hlt : layer < n := mem_range.mp hl
    have hlen := h.length_row (n - 1 - layer) (by omega)
    have hsize : (expand (row (n - 1 - layer))).length = 2 ^ layer := by
      rw [h.expand_layer hlt,length_map,length_range]
    have hlast : (row (n - 1 - layer)).length - 1 = layer := by omega
    simp only [Function.comp_apply]
    rw [require_true (by omega),ok_bind,hlast,indexPow_ok (by omega),ok_bind,require_true hsize]
    rfl
  have hcount : (tables n row).length = evals.length := by
    rw [h.length_evals,tables,length_map,length_range]
  rw [GenericPreExpanded.generateFromSubspace,hevals,ok_bind,htables,ok_bind,require_true hcount]
  rfl

end Rows

end Binius64.Ntt
