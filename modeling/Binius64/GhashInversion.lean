import Binius64.GhashPortable

/-!
# Inversion in the GHASH field

The powers of an element whose exponent is one less than a power of two, along an addition chain.
-/

namespace Binius64.GhashPortable

open GhashField (Ghash128b)
open CarrylessProducts
open Finset (range mem_range sum_congr)
open scoped Polynomial
open List (getElem_map getElem_range length_map length_range map_cons sum sum_cons)

def bitsPerByte : ℕ := 1 <<< 3

/-- The exclusive sums of the elements that the bits of an index select: every element fills the half
above the ones before. -/
def expandSubsetXors (elems : List (BitVec 128)) : ℕ → BitVec 128 :=
  elems.zipIdx.foldl (fun expanded entry => fun mask =>
    if 1 <<< entry.2 ≤ mask ∧ mask < 1 <<< (entry.2 + 1) then expanded (mask - 1 <<< entry.2) ^^^ entry.1
    else expanded mask) fun _ => 0

/-- A linear map, by tables for the bytes of its argument. -/
structure BytewiseLookupTransformation where
  lookup : List (ℕ → BitVec 128)

namespace BytewiseLookupTransformation

/-- The tables of a matrix, its columns given. -/
def new (cols : List (BitVec 128)) : BytewiseLookupTransformation :=
  ⟨(List.range (cols.length / bitsPerByte)).map fun i =>
    expandSubsetXors ((cols.drop (i * bitsPerByte)).take bitsPerByte)⟩

def bytes (data : BitVec 128) : List (BitVec 8) :=
  (List.range (128 / bitsPerByte)).map fun i => (data >>> (i * bitsPerByte)).setWidth 8

/-- Apply a map. -/
def transform (self : BytewiseLookupTransformation) (data : BitVec 128) : BitVec 128 :=
  match ((bytes data).zipIdx.take (1 <<< (7 - 3))).map fun entry =>
      (self.lookup.getD entry.2 fun _ => 0) entry.1.toNat with
  | [] => 0
  | first :: rest => rest.foldl (· ^^^ ·) first

end BytewiseLookupTransformation

def basis (i : ℕ) : BitVec 128 := BitVec.twoPow 128 i

/-- The columns of the map that squares some number of times. -/
def computePowerMapMatrix (n : ℕ) : List (BitVec 128) :=
  (List.range 128).map fun i => ghashSquare^[n] (basis i)

/-- The tables of the map that squares some number of times. -/
def computePowerMapTransform (n : ℕ) : BytewiseLookupTransformation :=
  BytewiseLookupTransformation.new (computePowerMapMatrix n)

/-- Some elements, one a lane. -/
abbrev PackedGhash (n : ℕ) := Fin n → BitVec 128

namespace PackedGhash

variable {n : ℕ}

def square (x : PackedGhash n) : PackedGhash n := fun lane => ghashSquare (x lane)

def mul (x y : PackedGhash n) : PackedGhash n := fun lane => ghashMul (x lane) (y lane)

def pow2N (x : PackedGhash n) (powerMap : BytewiseLookupTransformation) : PackedGhash n := fun lane =>
  powerMap.transform (x lane)

def invertB128 (x : PackedGhash n) : PackedGhash n :=
  let beta1 := x
  let beta2 := beta1.square.mul beta1
  let beta3 := beta2.square.mul beta1
  let beta6 := (beta3.pow2N (computePowerMapTransform 3)).mul beta3
  let beta7 := beta6.square.mul beta1
  let beta14 := (beta7.pow2N (computePowerMapTransform 7)).mul beta7
  let beta28 := (beta14.pow2N (computePowerMapTransform 14)).mul beta14
  let beta56 := (beta28.pow2N (computePowerMapTransform 28)).mul beta28
  let beta63 := (beta56.pow2N (computePowerMapTransform 7)).mul beta7
  let beta126 := (beta63.pow2N (computePowerMapTransform 63)).mul beta63
  let beta127 := beta126.square.mul beta1
  beta127.square

end PackedGhash

variable (elems : ℕ → BitVec 128)

/-- The sum of the elements that the bits of a number select. -/
def selected (mask n : ℕ) : Ghash128b :=
  ∑ i ∈ range n, if mask.testBit i then ⟨elems i⟩ else 0

theorem selected_succ (mask n : ℕ) : selected elems mask (n + 1) =
    selected elems mask n + if mask.testBit n then ⟨elems n⟩ else 0 := Finset.sum_range_succ _ n

theorem selected_congr {elems elems' : ℕ → BitVec 128} {mask mask' n : ℕ}
    (helems : ∀ i < n, elems i = elems' i) (hmask : ∀ i < n, mask.testBit i = mask'.testBit i) :
    selected elems mask n = selected elems' mask' n := by
  refine sum_congr rfl fun i hi => ?_
  rw [helems i (mem_range.mp hi),hmask i (mem_range.mp hi)]

theorem expandSubsetXors_eq (elems : List (BitVec 128)) :
    ∀ mask < 2 ^ elems.length,
      (⟨expandSubsetXors elems mask⟩ : Ghash128b) = selected (elems.getD · 0) mask elems.length := by
  induction elems using List.reverseRecOn with
  | nil => exact fun _ _ => rfl
  | append_singleton elems elem ih =>
    intro mask hmask
    rw [List.length_append,List.length_singleton] at hmask
    have hloop : expandSubsetXors (elems ++ [elem]) mask =
        if 1 <<< elems.length ≤ mask ∧ mask < 1 <<< (elems.length + 1) then
          expandSubsetXors elems (mask - 1 <<< elems.length) ^^^ elem else expandSubsetXors elems mask := by
      unfold expandSubsetXors
      rw [List.zipIdx_append,List.foldl_append]
      simp only [List.zipIdx_cons,List.zipIdx_nil,List.foldl_cons,List.foldl_nil,Nat.zero_add]
    have hold : ∀ i < elems.length, (elems ++ [elem]).getD i 0 = elems.getD i 0 := fun i hi => by
      rw [List.getD_append _ _ _ _ hi]
    have hnew : (elems ++ [elem]).getD elems.length 0 = elem := by
      rw [List.getD_append_right _ _ _ _ le_rfl,Nat.sub_self]
      rfl
    rw [hloop,List.length_append,List.length_singleton,selected_succ,hnew,Nat.one_shiftLeft,Nat.one_shiftLeft]
    by_cases hhigh : 2 ^ elems.length ≤ mask
    · have hsplit : mask = 2 ^ elems.length + (mask - 2 ^ elems.length) := by omega
      have hrest : mask - 2 ^ elems.length < 2 ^ elems.length := by
        rw [pow_succ] at hmask
        omega
      have htop : mask.testBit elems.length = true := by
        rw [hsplit,Nat.testBit_two_pow_add_eq,Nat.testBit_lt_two_pow hrest]
        rfl
      have hbits : ∀ i < elems.length, (mask - 2 ^ elems.length).testBit i = mask.testBit i := by
        intro i hi
        conv_rhs => rw [hsplit,Nat.testBit_two_pow_add_gt hi]
      rw [if_pos ⟨hhigh,hmask⟩,htop,if_pos rfl]
      change (⟨expandSubsetXors elems (mask - 2 ^ elems.length)⟩ : Ghash128b) + ⟨elem⟩ = _
      rw [ih _ hrest]
      exact congrArg₂ (· + ·) (selected_congr (fun i hi => (hold i hi).symm) hbits) rfl
    · have hlow := not_le.mp hhigh
      rw [if_neg fun h => hhigh h.1,Nat.testBit_lt_two_pow hlow,if_neg Bool.false_ne_true,add_zero,ih mask hlow]
      exact selected_congr (fun i hi => (hold i hi).symm) fun _ _ => rfl

theorem selected_blocks (mask size n : ℕ) : selected elems mask (n * size) =
      ∑ i ∈ range n, selected (fun j => elems (i * size + j)) (mask >>> (i * size)) size := by
  induction n with
  | zero =>
    rw [Nat.zero_mul]
    rfl
  | succ n ih =>
    rw [Nat.succ_mul,Finset.sum_range_succ,← ih]
    unfold selected
    rw [Finset.sum_range_add]
    refine congrArg₂ (· + ·) rfl (sum_congr rfl fun j _ => ?_)
    rw [Nat.testBit_shiftRight]

theorem foldl_xor_eq (first : BitVec 128) (rest : List (BitVec 128)) :
    (⟨rest.foldl (· ^^^ ·) first⟩ : Ghash128b) = ((first :: rest).map Ghash128b.mk).sum := by
  induction rest generalizing first with
  | nil => exact (add_zero _).symm
  | cons x rest ih =>
    rw [List.foldl_cons,ih,map_cons,sum_cons,map_cons,map_cons,sum_cons,sum_cons,
      ← add_assoc]
    rfl

theorem lookups_eq {cols : List (BitVec 128)} (hcols : cols.length = 128) (data : BitVec 128) :
    (((BytewiseLookupTransformation.bytes data).zipIdx.take (1 <<< (7 - 3))).map fun entry =>
        ((BytewiseLookupTransformation.new cols).lookup.getD entry.2 fun _ => 0) entry.1.toNat) =
      (List.range 16).map fun i => expandSubsetXors ((cols.drop (i * 8)).take 8)
        ((data >>> (i * 8)).setWidth 8).toNat := by
  have hbytes : (BytewiseLookupTransformation.bytes data).length = 16 := by
    unfold BytewiseLookupTransformation.bytes
    rw [length_map,length_range]
    rfl
  refine List.ext_getElem ?_ fun i hi hi' => ?_
  · rw [length_map,List.length_take,List.length_zipIdx,hbytes,length_map,length_range]
    rfl
  · rw [length_map,length_range] at hi'
    have htable : (BytewiseLookupTransformation.new cols).lookup.getD i (fun _ => 0) =
        expandSubsetXors ((cols.drop (i * 8)).take 8) := by
      unfold BytewiseLookupTransformation.new
      rw [hcols,List.getD_eq_getElem _ _ (by rw [length_map,length_range]; exact hi'),getElem_map,
        getElem_range]
      rfl
    rw [getElem_map,List.getElem_take,List.getElem_zipIdx,Nat.zero_add,htable,getElem_map,
      getElem_range]
    unfold BytewiseLookupTransformation.bytes
    rw [getElem_map,getElem_range]
    rfl

theorem transform_eq {cols : List (BitVec 128)} (hcols : cols.length = 128) (data : BitVec 128) :
    (⟨(BytewiseLookupTransformation.new cols).transform data⟩ : Ghash128b) =
      selected (cols.getD · 0) data.toNat 128 := by
  have hsum : ∀ entries : List (BitVec 128), (⟨match entries with
      | [] => 0
      | first :: rest => rest.foldl (· ^^^ ·) first⟩ : Ghash128b) = (entries.map Ghash128b.mk).sum := by
    intro entries
    cases entries with
    | nil => rfl
    | cons first rest => exact foldl_xor_eq first rest
  have hblock : ∀ i < 16, (⟨expandSubsetXors ((cols.drop (i * 8)).take 8)
      ((data >>> (i * 8)).setWidth 8).toNat⟩ : Ghash128b) =
      selected (fun j => cols.getD (i * 8 + j) 0) (data.toNat >>> (i * 8)) 8 := by
    intro i hi
    have hlen : ((cols.drop (i * 8)).take 8).length = 8 := by
      rw [List.length_take,List.length_drop,hcols]
      omega
    have hentry := expandSubsetXors_eq ((cols.drop (i * 8)).take 8) ((data >>> (i * 8)).setWidth 8).toNat
      (by rw [hlen]; exact BitVec.isLt _)
    rw [hentry,hlen]
    refine selected_congr (fun j hj => ?_) fun j hj => ?_
    · rw [List.getD_eq_getElem?_getD,List.getD_eq_getElem?_getD,List.getElem?_take_of_lt hj,List.getElem?_drop]
    · rw [BitVec.toNat_setWidth,Nat.testBit_mod_two_pow,decide_eq_true hj,Bool.true_and,BitVec.toNat_ushiftRight]
  have hblocks := selected_blocks (cols.getD · 0) data.toNat 8 16
  unfold BytewiseLookupTransformation.transform
  rw [hsum,lookups_eq hcols,List.map_map]
  refine Eq.trans ?_ hblocks.symm
  have hlist : ∀ f : ℕ → Ghash128b, ∑ i ∈ range 16, f i = ((List.range 16).map f).sum := fun _ => rfl
  rw [hlist]
  exact congrArg sum (List.map_congr_left fun i hi => hblock i (List.mem_range.mp hi))

theorem ghashSquare_pow (x : BitVec 128) : (⟨ghashSquare x⟩ : Ghash128b) = ⟨x⟩ ^ 2 := by
  rw [ghashSquare_eq,ghashMul_eq,pow_two]
  rfl

theorem iterate_ghashSquare (n : ℕ) (x : BitVec 128) : (⟨ghashSquare^[n] x⟩ : Ghash128b) = ⟨x⟩ ^ 2 ^ n := by
  induction n with
  | zero => rw [Function.iterate_zero,id_eq,pow_zero,pow_one]
  | succ n ih => rw [Function.iterate_succ_apply',ghashSquare_pow,ih,← pow_mul,pow_succ]

theorem selected_basis (x : BitVec 128) : selected basis x.toNat 128 = ⟨x⟩ := by
  have hvalue : ∀ n ≤ 128, ∀ k < 128, (selected basis x.toNat n).value.getLsbD k =
      (decide (k < n) && x.getLsbD k) := by
    intro n
    induction n with
    | zero =>
      intro _ k _
      have hzero : (selected basis x.toNat 0).value = 0 := rfl
      rw [hzero,BitVec.ofNat_eq_ofNat,BitVec.getLsbD_zero,decide_eq_false (Nat.not_lt_zero k),Bool.false_and]
    | succ n ih =>
      intro hn k hk
      have hterm : ((if x.toNat.testBit n then ⟨basis n⟩ else 0 : Ghash128b)).value.getLsbD k =
          (x.getLsbD n && decide (n = k)) := by
        rw [BitVec.testBit_toNat]
        cases x.getLsbD n with
        | false =>
          rw [if_neg Bool.false_ne_true,Bool.false_and]
          exact BitVec.getLsbD_zero
        | true =>
          rw [if_pos rfl,Bool.true_and]
          change (BitVec.twoPow 128 n).getLsbD k = _
          rw [BitVec.getLsbD_twoPow,decide_eq_true (by omega : n < 128),Bool.true_and]
      rw [selected_succ,Ghash128b.add_value,BitVec.getLsbD_xor,ih (by omega) k hk,hterm]
      by_cases hkn : n = k
      · rw [hkn,decide_eq_false (lt_irrefl k),decide_eq_true (Nat.lt_succ_self k),decide_eq_true rfl,
          Bool.false_and,Bool.false_xor,Bool.and_true,Bool.true_and]
      · rw [decide_eq_false hkn,Bool.and_false,Bool.xor_false]
        congr 1
        exact decide_eq_decide.mpr (by omega)
  refine Ghash128b.eq_of_value (BitVec.eq_of_getLsbD_eq fun k hk => ?_)
  rw [hvalue 128 le_rfl k hk,decide_eq_true hk,Bool.true_and]

theorem transform_powerMap (n : ℕ) (x : BitVec 128) :
    (⟨(computePowerMapTransform n).transform x⟩ : Ghash128b) = ⟨x⟩ ^ 2 ^ n := by
  have hlen : (computePowerMapMatrix n).length = 128 := by
    unfold computePowerMapMatrix
    rw [length_map,length_range]
  have hcol : ∀ i < 128, (computePowerMapMatrix n).getD i 0 = ghashSquare^[n] (basis i) := by
    intro i hi
    unfold computePowerMapMatrix
    rw [List.getD_eq_getElem _ _ (by rw [length_map,length_range]; exact hi),getElem_map,
      getElem_range]
  unfold computePowerMapTransform
  rw [transform_eq hlen,selected_congr hcol fun _ _ => rfl,← selected_basis x]
  unfold selected
  rw [sum_pow_char_pow]
  refine sum_congr rfl fun i _ => ?_
  split_ifs
  · exact iterate_ghashSquare n (basis i)
  · exact (zero_pow (by positivity)).symm

theorem chain_step {F : Type} [CommMonoid F] {x a b : F} {i j : ℕ} (ha : a = x ^ (2 ^ i - 1))
    (hb : b = x ^ (2 ^ j - 1)) : a ^ 2 ^ j * b = x ^ (2 ^ (i + j) - 1) := by
  have hi : 0 < 2 ^ i := Nat.two_pow_pos i
  have hj : 0 < 2 ^ j := Nat.two_pow_pos j
  have hexp : (2 ^ i - 1) * 2 ^ j + (2 ^ j - 1) = 2 ^ (i + j) - 1 := by
    have hle : 2 ^ j ≤ 2 ^ i * 2 ^ j := Nat.le_mul_of_pos_left _ hi
    rw [Nat.sub_mul,Nat.one_mul,pow_add]
    omega
  rw [ha,hb,← pow_mul,← pow_add,hexp]

namespace PackedGhash

variable {n : ℕ} (x y : PackedGhash n) (lane : Fin n)

theorem square_lane : (⟨x.square lane⟩ : Ghash128b) = ⟨x lane⟩ ^ 2 ^ 1 := ghashSquare_pow (x lane)

theorem mul_lane : (⟨x.mul y lane⟩ : Ghash128b) = ⟨x lane⟩ * ⟨y lane⟩ :=
  congrArg Ghash128b.mk (ghashMul_eq (x lane) (y lane))

theorem pow2N_lane (m : ℕ) :
    (⟨x.pow2N (computePowerMapTransform m) lane⟩ : Ghash128b) = ⟨x lane⟩ ^ 2 ^ m := transform_powerMap m (x lane)

theorem invertB128_lane : (⟨x.invertB128 lane⟩ : Ghash128b) = ⟨x lane⟩⁻¹ := by
  set v : Ghash128b := ⟨x lane⟩ with hv
  have hsquare : ∀ {a : PackedGhash n} {i : ℕ}, (⟨a lane⟩ : Ghash128b) = v ^ (2 ^ i - 1) →
      (⟨a.square.mul x lane⟩ : Ghash128b) = v ^ (2 ^ (i + 1) - 1) := by
    intro a i ha
    rw [mul_lane,square_lane]
    exact chain_step ha (pow_one v).symm
  have hstep : ∀ {a b : PackedGhash n} {i : ℕ} (j : ℕ), (⟨a lane⟩ : Ghash128b) = v ^ (2 ^ i - 1) →
      (⟨b lane⟩ : Ghash128b) = v ^ (2 ^ j - 1) →
      (⟨(a.pow2N (computePowerMapTransform j)).mul b lane⟩ : Ghash128b) = v ^ (2 ^ (i + j) - 1) := by
    intro a b i j ha hb
    rw [mul_lane,pow2N_lane]
    exact chain_step ha hb
  have h1 : (⟨x lane⟩ : Ghash128b) = v ^ (2 ^ 1 - 1) := (pow_one v).symm
  have h2 := hsquare h1
  have h3 := hsquare h2
  have h6 := hstep 3 h3 h3
  have h7 := hsquare h6
  have h14 := hstep 7 h7 h7
  have h28 := hstep 14 h14 h14
  have h56 := hstep 28 h28 h28
  have h63 := hstep 7 h56 h7
  have h126 := hstep 63 h63 h63
  have h127 := hsquare h126
  have hlast : (⟨x.invertB128 lane⟩ : Ghash128b) = (v ^ (2 ^ 127 - 1)) ^ 2 ^ 1 := by
    rw [← h127,← square_lane]
    rfl
  rw [hlast,← pow_mul]
  by_cases hzero : v = 0
  · rw [hzero,inv_zero]
    exact zero_pow (by decide)
  · exact (if_neg hzero).symm

end PackedGhash

/-- The arithmetic of the field: products are remainders of the products of the polynomials, a sum of
products may be reduced once, also after it has been scaled, squares are products, and inverses are
inverses. -/
theorem arithmetic_exact :
    (∀ x y, bitPoly (ghashMul x y) = (bitPoly x * bitPoly y) %ₘ modulus) ∧
    (∀ pairs : List (BitVec 128 × BitVec 128),
      (WideGhashProduct.sum (pairs.map fun pair => ghashWideMul pair.1 pair.2)).reduce =
        xorSum (pairs.map fun pair => ghashMul pair.1 pair.2) ∧
      (WideGhashProduct.sum (pairs.map fun pair => ghashWideMul pair.1 pair.2)).mulX.reduce =
        ghashMulX (xorSum (pairs.map fun pair => ghashMul pair.1 pair.2))) ∧
    (∀ x, ghashSquare x = ghashMul x x) ∧
    (∀ x, bitPoly (ghashMulX x) = (Polynomial.X * bitPoly x) %ₘ modulus) ∧
    ∀ (n : ℕ) (x : PackedGhash n) (lane : Fin n),
      (x lane = 0 → x.invertB128 lane = 0) ∧ (x lane ≠ 0 → ghashMul (x lane) (x.invertB128 lane) = 1) := by
  refine ⟨bitPoly_ghashMul,fun pairs => ⟨reduce_sum pairs,reduce_mulX_sum pairs⟩,ghashSquare_eq,bitPoly_ghashMulX,
    fun n x lane => ?_⟩
  have hinverse := x.invertB128_lane lane
  constructor
  · intro hzero
    have hfield : (⟨x lane⟩ : Ghash128b) = 0 := congrArg Ghash128b.mk hzero
    rw [hfield,inv_zero] at hinverse
    exact congrArg Ghash128b.value hinverse
  · intro hne
    have hfield : (⟨x lane⟩ : Ghash128b) ≠ 0 := fun h => hne (congrArg Ghash128b.value h)
    have hproduct := mul_inv_cancel₀ hfield
    rw [← hinverse] at hproduct
    rw [ghashMul_eq]
    exact congrArg Ghash128b.value hproduct

end Binius64.GhashPortable
