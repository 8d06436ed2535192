import Binius64.BitTranspose
import Binius64.EqualityTensor
import Binius64.FriFolding

/-!
# Folding rows of bits

A matrix of single bits is folded along its rows, eight rows at a time.
-/

namespace Binius64.RowFold

open Ntt CheckedRun SubspacePolynomials BitTranspose InplaceEvaluation List
open Function (update)

section Bytes

variable {k : ℕ}

/-- The number that bits spell, the lowest first. -/
def wordOf : ℕ → (ℕ → ZMod 2) → ℕ
  | 0,_ => 0
  | n + 1,b => (b 0).val + 2 * wordOf n fun t => b (t + 1)

def byteOf (row : PackedField k (ZMod 2)) (i : ℕ) : ℕ := wordOf 8 fun t => row.get (8 * i + t)

end Bytes

variable {k : ℕ} {F : Type} [Field F]

def expandSubsetSumsArray (elems : List F) : List F :=
  elems.foldl (fun expanded elem => expanded ++ expanded.map (· + elem)) [0]

def rowFoldTable (weights : List F) (group : ℕ) : List F :=
  let start := min (group * 8) weights.length
  let available := min (weights.length - start) 8
  expandSubsetSumsArray ((weights.drop start).take available ++ replicate (8 - available) 0)

abbrev ColumnSums (F : Type) := ℕ → ℕ → F

def ColumnSums.column (sums : ColumnSums F) (c : ℕ) : F := sums (c / 8) (c % 8)

def foldGroup (table : List F) (group : ℕ → PackedField k (ZMod 2)) (sums : ColumnSums F) :
    Except AssertFailure (ColumnSums F) := do
  let group ← transposeSquareBlocks 3 3 group
  return (List.range 8).foldl (fun sums j =>
    (List.range (2 ^ (k - 3))).foldl (fun sums i => update sums i
      (update (sums i) j (sums i j + table.getD (byteOf (group j) i) 0))) sums) sums

def foldInto (tables : ℕ → List F) (groups : ℕ → ℕ → PackedField k (ZMod 2)) (sums : ColumnSums F) :
    Except AssertFailure (ColumnSums F) :=
  (List.range (2 ^ (k - 3))).foldlM (fun sums g => foldGroup (tables g) (groups g) sums) sums

/-- The tables of a linear map, given by what it makes of each bit. -/
def bytewiseLookup (k : ℕ) (cols : List F) : Except AssertFailure (ℕ → List F) := do
  require (cols.length = 2 ^ k)
  return fun i => expandSubsetSumsArray ((cols.drop (8 * i)).take 8)

/-- Look up the bytes of the input and add the results. -/
def transform (lookup : ℕ → List F) (data : PackedField k (ZMod 2)) : F :=
  ((List.range (2 ^ (k - 3))).map fun i => (lookup i).getD (byteOf data i) 0).sum

theorem bytewiseLookup_run {cols : List F} (h : cols.length = 2 ^ k) : bytewiseLookup k cols =
    .ok fun i => expandSubsetSumsArray ((cols.drop (8 * i)).take 8) := by
  rw [bytewiseLookup,require_true h]
  rfl

theorem foldLane_apply (n j : ℕ) (value : ℕ → F) (sums : ColumnSums F) (i c : ℕ) :
    (List.range n).foldl (fun sums i => update sums i
      (update (sums i) j (sums i j + value i))) sums i c =
        if i < n ∧ c = j then sums i c + value i else sums i c := by
  have hloop := updates_apply (F := ℕ → F)
    (f := fun i x => update (x i) j (x i j + value i)) (d := sums)
    (fun i x hx => by rw [hx i le_rfl]) n i
  rw [hloop]
  by_cases hi : i < n
  · rw [if_pos hi]
    by_cases hc : c = j
    · rw [hc,Function.update_self,if_pos ⟨hi,rfl⟩]
    · rw [Function.update_of_ne hc,if_neg fun h => hc h.2]
  · rw [if_neg hi,if_neg fun h => hi h.1]

theorem foldLanes_apply (m n : ℕ) (value : ℕ → ℕ → F) (sums : ColumnSums F) (i c : ℕ) :
    (List.range m).foldl (fun sums j => (List.range n).foldl (fun sums i => update sums i
      (update (sums i) j (sums i j + value j i))) sums) sums i c =
        if i < n ∧ c < m then sums i c + value c i else sums i c := by
  induction m with
  | zero => rw [range_zero,foldl_nil,if_neg fun h => Nat.not_lt_zero c h.2]
  | succ m ih =>
    rw [range_succ,foldl_append,foldl_cons,foldl_nil,foldLane_apply,ih]
    by_cases hi : i < n
    · by_cases hc : c = m
      · rw [hc,if_pos ⟨hi,rfl⟩,if_neg fun h => lt_irrefl m h.2,if_pos ⟨hi,Nat.lt_succ_self m⟩]
      · have hsame : c < m ↔ c < m + 1 := by omega
        rw [if_neg fun h => hc h.2]
        simp only [hsame]
    · rw [if_neg fun h => hi h.1,if_neg fun h => hi h.1,if_neg fun h => hi h.1]

section Lookups

variable [Algebra (ZMod 2) F]

theorem wordOf_lt (n : ℕ) (b : ℕ → ZMod 2) : wordOf n b < 2 ^ n := by
  induction n generalizing b with
  | zero => exact Nat.one_pos
  | succ n ih =>
    have hbit := ZMod.val_lt (b 0)
    have hrest := ih fun t => b (t + 1)
    rw [wordOf,pow_succ']
    omega

theorem subsetSum_wordOf (bs : List F) (b : ℕ → ZMod 2) :
    subsetSum bs (wordOf bs.length b) = ∑ t ∈ Finset.range bs.length, b t • bs.getD t 0 := by
  induction bs generalizing b with
  | nil => rfl
  | cons e bs ih =>
    have hbit : ∀ x : ZMod 2, (if x.val = 1 then e else 0) = x • e := by
      intro x
      fin_cases x
      · exact (zero_smul _ e).symm
      · exact (one_smul _ e).symm
    have hlow : ((b 0).val + 2 * wordOf bs.length fun t => b (t + 1)) % 2 = (b 0).val := by
      have := ZMod.val_lt (b 0)
      omega
    have hhigh : ((b 0).val + 2 * wordOf bs.length fun t => b (t + 1)) / 2 =
        wordOf bs.length fun t => b (t + 1) := by
      have := ZMod.val_lt (b 0)
      omega
    rw [length_cons,wordOf,subsetSum,hlow,hhigh,ih,Finset.sum_range_succ',hbit,add_comm]
    rfl

theorem lookup_wordOf {elems : List F} {n : ℕ} (h : elems.length = n) (b : ℕ → ZMod 2) :
    (expandSubsetSumsArray elems).getD (wordOf n b) 0 =
      ∑ t ∈ Finset.range n, b t • elems.getD t 0 := by
  subst h
  rw [expandSubsetSumsArray,subsetSums_loop,getD_eq_getElem _ _ (by
    rw [length_map,length_range]
    exact wordOf_lt _ b),getElem_map,getElem_range,subsetSum_wordOf]

theorem wordOf_congr {n : ℕ} {b b' : ℕ → ZMod 2} (h : ∀ t < n, b t = b' t) :
    wordOf n b = wordOf n b' := by
  induction n generalizing b b' with
  | zero => rfl
  | succ n ih =>
    rw [wordOf,wordOf,h 0 (Nat.succ_pos n),ih fun t ht => h (t + 1) (Nat.succ_lt_succ ht)]

theorem rowFoldTable_wordOf (weights : List F) (group : ℕ) (b : ℕ → ZMod 2) :
    (rowFoldTable weights group).getD (wordOf 8 b) 0 =
      ∑ t ∈ Finset.range 8, b t • weights.getD (8 * group + t) 0 := by
  have hlen : ((weights.drop (min (group * 8) weights.length)).take
      (min (weights.length - min (group * 8) weights.length) 8) ++ replicate
        (8 - min (weights.length - min (group * 8) weights.length) 8) (0 : F)).length = 8 := by
    rw [length_append,length_take,length_drop,length_replicate]
    omega
  rw [rowFoldTable,lookup_wordOf hlen]
  refine Finset.sum_congr rfl fun t ht => congrArg (b t • ·) ?_
  have ht8 := Finset.mem_range.mp ht
  simp only [getD_eq_getElem?_getD,getElem?_append,length_take,length_drop]
  by_cases hin : 8 * group + t < weights.length
  · have hlt : t < min (min (weights.length - min (group * 8) weights.length) 8)
        (weights.length - min (group * 8) weights.length) := by omega
    have hstart : min (group * 8) weights.length + t = 8 * group + t := by omega
    rw [if_pos hlt,getElem?_take_of_lt (by omega),getElem?_drop,hstart]
  · have hge : ¬t < min (min (weights.length - min (group * 8) weights.length) 8)
        (weights.length - min (group * 8) weights.length) := by omega
    rw [if_neg hge,getElem?_eq_none (not_lt.mp hin),getElem?_replicate]
    split <;> rfl

theorem eight_mul_pow (hk : 3 ≤ k) : 2 ^ k = 8 * 2 ^ (k - 3) := by
  have hsplit : 2 ^ k = 2 ^ 3 * 2 ^ (k - 3) := by rw [←pow_add,Nat.add_sub_cancel' hk]
  exact hsplit

theorem transform_eq (hk : 3 ≤ k) {cols : List F} (h : cols.length = 2 ^ k) (data : PackedField k (ZMod 2)) :
    transform (fun i => expandSubsetSumsArray ((cols.drop (8 * i)).take 8)) data =
      ∑ v ∈ Finset.range (2 ^ k), data.get v • cols.getD v 0 := by
  have hrange : transform (fun i => expandSubsetSumsArray ((cols.drop (8 * i)).take 8)) data =
      ∑ i ∈ Finset.range (2 ^ (k - 3)),
        (expandSubsetSumsArray ((cols.drop (8 * i)).take 8)).getD (byteOf data i) 0 := rfl
  rw [hrange,eight_mul_pow hk,EqualityTensor.sum_range_mul]
  refine Finset.sum_congr rfl fun i hi => ?_
  have hi' := Finset.mem_range.mp hi
  have hlen : ((cols.drop (8 * i)).take 8).length = 8 := by
    rw [length_take,length_drop,h,eight_mul_pow hk]
    omega
  rw [byteOf,lookup_wordOf hlen]
  refine Finset.sum_congr rfl fun t ht => ?_
  have ht' := Finset.mem_range.mp ht
  rw [mul_comm i 8,getD_eq_getElem?_getD,getD_eq_getElem?_getD,getElem?_take_of_lt ht',
    getElem?_drop]

theorem byteOf_congr {row : PackedField k (ZMod 2)} {i : ℕ} {b : ℕ → ZMod 2}
    (h : ∀ t < 8, row.get (8 * i + t) = b t) : byteOf row i = wordOf 8 b := wordOf_congr h

theorem foldGroup_run (hk : 3 ≤ k) (weights : List F) (g : ℕ) (group : ℕ → PackedField k (ZMod 2))
    (sums : ColumnSums F) : ∃ out, foldGroup (rowFoldTable weights g) group sums = .ok out ∧
      ∀ c < 2 ^ k, out.column c =
        sums.column c + ∑ t ∈ Finset.range 8, (group t).get c • weights.getD (8 * g + t) 0 := by
  refine ⟨_,by rw [foldGroup,transposeSquareBlocks_run hk,ok_bind]; rfl,fun c hc => ?_⟩
  have hi : c / 8 < 2 ^ (k - 3) := by
    rw [eight_mul_pow hk] at hc
    omega
  have hj : c % 8 < 8 := Nat.mod_lt c (by decide)
  rw [ColumnSums.column,foldLanes_apply 8 (2 ^ (k - 3))
    (fun j i => (rowFoldTable weights g).getD (byteOf (transposeRounds 3 0 group j) i) 0),if_pos ⟨hi,hj⟩]
  have hbyte : byteOf (transposeRounds 3 0 group (c % 8)) (c / 8) = wordOf 8 fun t => (group t).get c := by
    refine byteOf_congr fun t ht => ?_
    have hlt : 8 * (c / 8) + t < 2 ^ k := by
      rw [eight_mul_pow hk]
      omega
    have hlane := transposeRounds_apply hk group hj ⟨8 * (c / 8) + t,hlt⟩
    have hmod : (8 * (c / 8) + t) % 2 ^ 3 = t := by omega
    have hcol : (8 * (c / 8) + t) / 2 ^ 3 * 2 ^ 3 + c % 8 = c := by omega
    simp only [hmod,hcol] at hlane
    rw [PackedField.get,dif_pos hlt,hlane]
  rw [hbyte,rowFoldTable_wordOf]
  rfl

theorem foldInto_run (hk : 3 ≤ k) (weights : List F) (rows : ℕ → PackedField k (ZMod 2))
    (sums : ColumnSums F) :
    ∃ out, foldInto (rowFoldTable weights) (fun g t => rows (8 * g + t)) sums = .ok out ∧
      ∀ c < 2 ^ k, out.column c =
        sums.column c + ∑ r ∈ Finset.range (2 ^ k), (rows r).get c • weights.getD r 0 := by
  have hgen : ∀ n, ∃ out, (List.range n).foldlM (fun sums g =>
      foldGroup (rowFoldTable weights g) (fun t => rows (8 * g + t)) sums) sums = .ok out ∧
        ∀ c < 2 ^ k, out.column c =
          sums.column c + ∑ r ∈ Finset.range (8 * n), (rows r).get c • weights.getD r 0 := by
    intro n
    induction n with
    | zero => exact ⟨sums,rfl,fun c _ => by rw [mul_zero,Finset.sum_range_zero,add_zero]⟩
    | succ n ih =>
      obtain ⟨out,hout,hcols⟩ := ih
      obtain ⟨next,hnext,hcols'⟩ := foldGroup_run hk weights n (fun t => rows (8 * n + t)) out
      refine ⟨next,?_,fun c hc => ?_⟩
      · rw [range_succ,foldlM_append,hout,ok_bind,foldlM_cons,hnext,ok_bind,
          foldlM_nil]
        rfl
      · rw [hcols' c hc,hcols c hc,mul_add,mul_one,Finset.sum_range_add,add_assoc]
  obtain ⟨out,hout,hcols⟩ := hgen (2 ^ (k - 3))
  rw [←eight_mul_pow hk] at hcols
  exact ⟨out,hout,hcols⟩

end Lookups

end Binius64.RowFold
