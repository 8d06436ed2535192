import Binius64.PackedBuffers

/-!
# Expansions over a cube

A cube is fixed by the two basis polynomials that a variable contributes.
-/

namespace Binius64.PackedExpansion

open Ntt CheckedRun EqualityTensor Finset
open RingSwitch (fromScalars)

/-- The cubes that coefficients are indexed by. -/
inductive Hypercube where
  /-- Vertices zero and one, the basis `1 - X` and `X`. -/
  | oneCube
  /-- Vertices zero and infinity, the basis `1` and `X`. -/
  | infCube
deriving DecidableEq

namespace Hypercube

variable {R : Type} [CommRing R]

def basis (cube : Hypercube) (coord : R) : R × R :=
  match cube with
  | oneCube => (1 - coord,coord)
  | infCube => (1,coord)

def expandVar (cube : Hypercube) (value coord : R) : R × R :=
  match cube with
  | oneCube =>
    let prod := value * coord
    (value - prod,prod)
  | infCube => (value,value * coord)

/-- Strip a variable from the two halves of an expansion. -/
def contractVar (cube : Hypercube) (lo hi : R) : R :=
  match cube with
  | oneCube => lo + hi
  | infCube => lo

/-- The equality indicator of one variable. -/
def eqOneVar {F : Type} [Field F] [DecidableEq F] (cube : Hypercube) (x y : F) : F :=
  match cube with
  | oneCube => EqualityTensor.eqOneVar x y
  | infCube => 1 + x * y

def basisAt (cube : Hypercube) (coord : R) (bit : Bool) : R :=
  if bit then (cube.basis coord).2 else (cube.basis coord).1

/-- The product of the basis functions that the bits of an index select. -/
def tensor (cube : Hypercube) : List R → ℕ → R
  | [],_ => 1
  | r :: rs,v => cube.basisAt r (v.testBit 0) * cube.tensor rs (v / 2)

end Hypercube

open Hypercube

variable {F : Type} [Field F] {w : ℕ}

def scaledEqIndPartialEvalScalars (cube : Hypercube) (point : List F) (scale : F) : List F :=
  point.foldl (fun result r =>
    (List.range result.length).foldl (fun result j =>
      let pair := cube.expandVar (result.getD j 0) r
      result.set j pair.1 ++ [pair.2]) result) [scale]

def eqIndPartialEvalScalars (cube : Hypercube) (point : List F) : List F :=
  scaledEqIndPartialEvalScalars cube point 1

/-- The equality indicator of two points. -/
def eqInd [DecidableEq F] (cube : Hypercube) (x y : List F) : Except AssertFailure F := do
  require (x.length = y.length)
  return (List.zipWith cube.eqOneVar x y).prod

def packedWords (w logLen : ℕ) : ℕ := 1 <<< (logLen - w)

/-- A round inside one word: both halves of the result share it. -/
def subWidthRound (cube : Hypercube) (data : List (PackedField w F)) (logLen : ℕ) (r : F) :
    List (PackedField w F) :=
  data.modify 0 fun word =>
    let lo := (word.interleave 0 logLen).1
    let pair := cube.expandVar lo (PackedField.broadcast r)
    (pair.1.interleave pair.2 logLen).1

/-- A round on whole words: the result takes twice as many. -/
def packedRound (cube : Hypercube) (data : List (PackedField w F)) (r : F) : List (PackedField w F) :=
  let pairs := data.map fun word => cube.expandVar word (PackedField.broadcast r)
  pairs.map Prod.fst ++ pairs.map Prod.snd

/-- Append a variable for each coordinate, in a store with room for so many words. -/
def tensorProdEqIndReserved (cube : Hypercube) (capacity : ℕ) (values : FieldBuffer w F)
    (extraQueryCoordinates : List F) : Except AssertFailure (FieldBuffer w F) := do
  let startLogLen := values.logLen
  let finalLogLen := startLogLen + extraQueryCoordinates.length
  require (capacity ≥ packedWords w finalLogLen)
  let subWidthCount := min extraQueryCoordinates.length (w - startLogLen)
  let data := (extraQueryCoordinates.take subWidthCount).zipIdx.foldl
    (fun data entry => subWidthRound cube data (startLogLen + entry.2) entry.1) values.words
  let data := (extraQueryCoordinates.drop subWidthCount).foldl (packedRound cube) data
  FieldBuffer.new finalLogLen data

/-- Append a variable for each coordinate, in a store that is grown first. -/
def tensorProdEqInd (cube : Hypercube) (values : FieldBuffer w F) (extraQueryCoordinates : List F) :
    Except AssertFailure (FieldBuffer w F) :=
  let finalPackedLen := packedWords w (values.logLen + extraQueryCoordinates.length)
  let capacity := values.words.length + (finalPackedLen - values.words.length)
  tensorProdEqIndReserved cube capacity values extraQueryCoordinates

def scaledEqIndPartialEvalInto (cube : Hypercube) (point : List F) (scale : F) (capacity : ℕ) :
    Except AssertFailure (FieldBuffer w F) := do
  require (capacity ≥ packedWords w point.length)
  let seed ← FieldBuffer.new 0 [fromScalars [scale]]
  -- blocks are whole words, so the cut never falls inside a word
  let lowLen := min (max (point.length / 2) w) point.length
  let low ← tensorProdEqIndReserved cube capacity seed (point.take lowLen)
  if (point.drop lowLen).isEmpty then return low
  let high := eqIndPartialEvalScalars cube (point.drop lowLen)
  let spare := (high.drop 1).flatMap fun coeff => low.words.map (· * PackedField.broadcast coeff)
  -- the first block is scaled last, since every other one read it
  let first := low.words.map (· * PackedField.broadcast (high.getD 0 0))
  FieldBuffer.new point.length (first ++ spare)

def eqIndPartialEval (cube : Hypercube) (point : List F) : Except AssertFailure (FieldBuffer w F) :=
  scaledEqIndPartialEvalInto cube point 1 (packedWords w point.length)

/-- Contract the two halves of an expansion, and keep the low one. -/
def stripHighestVar (cube : Hypercube) (values : FieldBuffer w F) (logLen : ℕ) :
    Except AssertFailure (FieldBuffer w F) := do
  let contracted ← values.splitHalfMut (.zipLow cube.contractVar)
  contracted.truncate logLen

/-- Strip the highest variables of an expansion, one after another. -/
def eqIndTruncateLowInplace (cube : Hypercube) (values : FieldBuffer w F) (truncatedLogLen : ℕ) :
    Except AssertFailure (FieldBuffer w F) := do
  require (truncatedLogLen ≤ values.logLen)
  (List.range' truncatedLogLen (values.logLen - truncatedLogLen)).reverse.foldlM
    (stripHighestVar cube) values

section Tensor

variable {R : Type} [CommRing R]

variable (cube : Hypercube)

theorem expandVar_eq (value coord : R) :
    cube.expandVar value coord = (value * cube.basisAt coord false,value * cube.basisAt coord true) := by
  cases cube with
  | oneCube =>
    rw [expandVar,basisAt,basisAt,basis,if_neg Bool.false_ne_true,if_pos rfl,mul_sub,mul_one]
  | infCube => rw [expandVar,basisAt,basisAt,basis,if_neg Bool.false_ne_true,if_pos rfl,mul_one]

theorem contractVar_eq (value coord : R) :
    cube.contractVar (value * cube.basisAt coord false) (value * cube.basisAt coord true) = value := by
  cases cube with
  | oneCube =>
    rw [contractVar,basisAt,basisAt,basis,if_neg Bool.false_ne_true,if_pos rfl,←mul_add,sub_add_cancel,
      mul_one]
  | infCube => rw [contractVar,basisAt,basis,if_neg Bool.false_ne_true,mul_one]

theorem tensor_append (as bs : List R) (v : ℕ) :
    cube.tensor (as ++ bs) v = cube.tensor as v * cube.tensor bs (v / 2 ^ as.length) := by
  induction as generalizing v with
  | nil => rw [List.nil_append,tensor,one_mul,List.length_nil,pow_zero,Nat.div_one]
  | cons a as ih =>
    rw [List.cons_append,tensor,tensor,ih,List.length_cons,pow_succ',←Nat.div_div_eq_div_mul,mul_assoc]

theorem tensor_mod (as : List R) (v : ℕ) :
    cube.tensor as (v % 2 ^ as.length) = cube.tensor as v := by
  induction as generalizing v with
  | nil => rfl
  | cons a as ih =>
    have hlow : (v % 2 ^ (as.length + 1)).testBit 0 = v.testBit 0 := by
      rw [Nat.testBit_mod_two_pow,decide_eq_true (Nat.succ_pos _),Bool.true_and]
    have hhigh : v % 2 ^ (as.length + 1) / 2 = v / 2 % 2 ^ as.length := by
      rw [pow_succ',Nat.mod_mul_right_div_self]
    rw [tensor,tensor,List.length_cons,hlow,hhigh,ih]

theorem tensor_singleton (r : R) (v : ℕ) :
    cube.tensor [r] v = cube.basisAt r (v.testBit 0) := by rw [tensor,tensor,mul_one]

theorem tensor_eq_prod (point : List R) (v : ℕ) :
    cube.tensor point v = ∏ i ∈ range point.length, cube.basisAt (point.getD i 0) (v.testBit i) := by
  induction point generalizing v with
  | nil => rw [tensor,List.length_nil,range_zero,prod_empty]
  | cons r rs ih =>
    rw [tensor,ih,List.length_cons,prod_range_succ',mul_comm]
    refine congrArg₂ (· * ·) (prod_congr rfl fun i _ => ?_) rfl
    rw [List.getD_cons_succ,Nat.testBit_succ]

theorem tensor_oneCube (point : List F) (v : ℕ) : oneCube.tensor point v = eqTensor point v := by
  induction point generalizing v with
  | nil => rfl
  | cons r rs ih =>
    rw [tensor,eqTensor,ih,basisAt,basis,Nat.testBit_zero]
    rcases Nat.mod_two_eq_zero_or_one v with h | h
    · have hbit : ¬decide (v % 2 = 1) = true := by simp [h]
      rw [if_neg hbit,if_pos h]
    · have hbit : decide (v % 2 = 1) = true := by simp [h]
      rw [if_pos hbit,if_neg (by omega)]

end Tensor

section Scalars

variable (cube : Hypercube)

theorem appendVar_eq (result : List F) (r : F) :
    (List.range result.length).foldl (fun result j =>
        let pair := cube.expandVar (result.getD j 0) r
        result.set j pair.1 ++ [pair.2]) result =
      result.map (· * cube.basisAt r false) ++ result.map (· * cube.basisAt r true) := by
  have hsteps : ∀ n ≤ result.length, (List.range n).foldl (fun result j =>
        let pair := cube.expandVar (result.getD j 0) r
        result.set j pair.1 ++ [pair.2]) result =
      (result.take n).map (· * cube.basisAt r false) ++ result.drop n ++
        (result.take n).map (· * cube.basisAt r true) := by
    intro n hn
    induction n with
    | zero => simp only [List.range_zero,List.foldl_nil,List.take_zero,List.map_nil,List.nil_append,
        List.drop_zero,List.append_nil]
    | succ n ih =>
      have hlt : n < result.length := hn
      have hfront : ((result.take n).map (· * cube.basisAt r false)).length = n := by
        rw [List.length_map,List.length_take,Nat.min_eq_left hlt.le]
      have hread : ((result.take n).map (· * cube.basisAt r false) ++ result.drop n ++
          (result.take n).map (· * cube.basisAt r true)).getD n 0 = result[n] := by
        rw [List.append_assoc,List.getD_append_right _ _ _ _ hfront.le,hfront,Nat.sub_self,
          List.drop_eq_getElem_cons hlt]
        rfl
      have hset : ((result.take n).map (· * cube.basisAt r false) ++ result.drop n ++
          (result.take n).map (· * cube.basisAt r true)).set n (result[n] * cube.basisAt r false) =
          (result.take (n + 1)).map (· * cube.basisAt r false) ++ result.drop (n + 1) ++
            (result.take n).map (· * cube.basisAt r true) := by
        rw [List.append_assoc,List.set_append_right _ _ hfront.le,hfront,Nat.sub_self,
          List.drop_eq_getElem_cons hlt,List.cons_append,List.set_cons_zero,List.take_add_one,
          List.getElem?_eq_getElem hlt,Option.toList_some,List.map_append,List.map_singleton,
          List.append_assoc,List.append_assoc,List.singleton_append]
      rw [List.range_succ,List.foldl_append,ih hlt.le,List.foldl_cons,List.foldl_nil]
      simp only [expandVar_eq,hread,hset]
      rw [List.append_assoc,List.take_add_one (i := n),List.getElem?_eq_getElem hlt,Option.toList_some,
        List.map_append (f := (· * cube.basisAt r true)),List.map_singleton]
  have hall := hsteps _ le_rfl
  rw [List.take_length,List.drop_length,List.append_nil] at hall
  exact hall

variable (point : List F)

theorem scaledEqIndPartialEvalScalars_concat (r scale : F) :
    scaledEqIndPartialEvalScalars cube (point ++ [r]) scale =
      (scaledEqIndPartialEvalScalars cube point scale).map (· * cube.basisAt r false) ++
        (scaledEqIndPartialEvalScalars cube point scale).map (· * cube.basisAt r true) := by
  rw [scaledEqIndPartialEvalScalars,List.foldl_append,List.foldl_cons,List.foldl_nil]
  exact appendVar_eq cube _ r

theorem tensor_concat (r : F) {v : ℕ} :
    cube.tensor (point ++ [r]) v =
      cube.tensor point (v % 2 ^ point.length) * cube.basisAt r (v.testBit point.length) := by
  rw [tensor_append,tensor_mod,tensor_singleton,Nat.testBit_div_two_pow,Nat.zero_add]

theorem scaledEqIndPartialEvalScalars_eq (scale : F) :
    scaledEqIndPartialEvalScalars cube point scale =
      (List.range (2 ^ point.length)).map fun v => scale * cube.tensor point v := by
  induction point using List.reverseRecOn with
  | nil =>
    rw [List.length_nil,pow_zero,List.range_one,List.map_singleton,tensor,mul_one]
    rfl
  | append_singleton point r ih =>
    have hlen : 2 ^ (point ++ [r]).length = 2 ^ point.length + 2 ^ point.length := by
      rw [List.length_append,List.length_singleton,pow_succ,mul_two]
    rw [scaledEqIndPartialEvalScalars_concat,ih,hlen,List.range_add,List.map_append,List.map_map,
      List.map_map,List.map_map]
    refine congrArg₂ (· ++ ·) (List.map_congr_left fun v hv => ?_) (List.map_congr_left fun v hv => ?_)
    · rw [List.mem_range] at hv
      rw [Function.comp_apply,tensor_concat,Nat.mod_eq_of_lt hv,Nat.testBit_lt_two_pow hv,mul_assoc]
    · rw [List.mem_range] at hv
      rw [Function.comp_apply,Function.comp_apply,tensor_concat,Nat.add_mod_left,Nat.mod_eq_of_lt hv,
        Nat.testBit_two_pow_add_eq,Nat.testBit_lt_two_pow hv,Bool.not_false,mul_assoc]

end Scalars

section Rounds

variable (cube : Hypercube)

/-- Words that hold given scalars, so many of them. -/
structure Holds (data : List (PackedField w F)) (n : ℕ) (f : ℕ → F) : Prop where
  length : data.length = 1 <<< (n - w)
  scalar : ∀ x < 2 ^ n, (data.getD (x / 2 ^ w) 0).get (x % 2 ^ w) = f x

variable {data : List (PackedField w F)} {n : ℕ} {f : ℕ → F}

theorem Holds.congr {g : ℕ → F} (h : Holds data n f)
    (hfg : ∀ x < 2 ^ n, f x = g x) : Holds data n g :=
  ⟨h.length,fun x hx => (h.scalar x hx).trans (hfg x hx)⟩

variable (word : PackedField w F)

theorem expandVar_lane (r : F) {y : ℕ} (hy : y < 2 ^ w) :
    (cube.expandVar word (PackedField.broadcast r)).1.get y = word.get y * cube.basisAt r false ∧
      (cube.expandVar word (PackedField.broadcast r)).2.get y = word.get y * cube.basisAt r true := by
  cases cube with
  | oneCube =>
    simp only [expandVar,basisAt,basis,PackedField.get_of_lt _ hy,Pi.sub_apply,Pi.mul_apply,
      PackedField.broadcast,Bool.false_eq_true,if_false,if_true,mul_sub,mul_one,and_self]
  | infCube =>
    simp only [expandVar,basisAt,basis,PackedField.get_of_lt _ hy,Pi.mul_apply,
      PackedField.broadcast,Bool.false_eq_true,if_false,if_true,mul_one,and_self]

theorem high_bit {x : ℕ} (hx : x < 2 ^ (n + 1)) :
    (x < 2 ^ n ∧ x % 2 ^ n = x ∧ x.testBit n = false) ∨
      (∃ y < 2 ^ n, x = 2 ^ n + y ∧ x % 2 ^ n = y ∧ x.testBit n = true) := by
  by_cases hlow : x < 2 ^ n
  · exact .inl ⟨hlow,Nat.mod_eq_of_lt hlow,Nat.testBit_lt_two_pow hlow⟩
  · rw [pow_succ] at hx
    have hy : x - 2 ^ n < 2 ^ n := by omega
    have hsum : x = 2 ^ n + (x - 2 ^ n) := by omega
    refine .inr ⟨x - 2 ^ n,hy,hsum,?_,?_⟩
    · rw [hsum,Nat.add_mod_left,Nat.add_sub_cancel_left,Nat.mod_eq_of_lt hy]
    · rw [hsum,Nat.testBit_two_pow_add_eq,Nat.testBit_lt_two_pow hy,Bool.not_false]

theorem Holds.subWidthRound (h : Holds data n f)
    (hn : n < w) (r : F) : Holds (subWidthRound cube data n r) (n + 1)
      fun x => f (x % 2 ^ n) * cube.basisAt r (x.testBit n) := by
  have hone : data.length = 1 := by
    rw [h.length,Nat.sub_eq_zero_of_le hn.le]
    rfl
  have hpos : 0 < data.length := by omega
  have hle : 2 ^ (n + 1) ≤ 2 ^ w := Nat.pow_le_pow_right (by omega) hn
  have hdouble : 2 ^ (n + 1) = 2 ^ n + 2 ^ n := by rw [pow_succ,mul_two]
  refine ⟨?_,fun x hx => ?_⟩
  · rw [PackedExpansion.subWidthRound,List.length_modify,hone,Nat.sub_eq_zero_of_le (by omega : n + 1 ≤ w)]
    rfl
  have hread (y : ℕ) (hy : y < 2 ^ n) : data[0].get y = f y := by
    have hscalar := h.scalar y hy
    rw [Nat.div_eq_of_lt (by omega : y < 2 ^ w),Nat.mod_eq_of_lt (by omega : y < 2 ^ w),
      List.getD_eq_getElem _ _ hpos] at hscalar
    exact hscalar
  have hlane (y : ℕ) (hy : y < 2 ^ n) := expandVar_lane cube (data[0].interleave 0 n).1 r
    (by omega : y < 2 ^ w)
  rw [Nat.div_eq_of_lt (by omega : x < 2 ^ w),Nat.mod_eq_of_lt (by omega : x < 2 ^ w),
    PackedExpansion.subWidthRound,List.getD_eq_getElem?_getD,List.getElem?_modify,
    List.getElem?_eq_getElem hpos,Option.map_eq_map,Option.map_some,if_pos rfl,Option.getD_some]
  obtain ⟨hlow,hmod,hbit⟩ | ⟨y,hy,rfl,hmod,hbit⟩ := high_bit hx
  · rw [PackedField.interleave_fst_low _ _ hn hlow,(hlane x hlow).1,
      PackedField.interleave_fst_low _ _ hn hlow,hread x hlow,hmod,hbit]
  · rw [PackedField.interleave_fst_high _ _ hn hy,(hlane y hy).2,
      PackedField.interleave_fst_low _ _ hn hy,hread y hy,hmod,hbit]

theorem Holds.packedRound (h : Holds data n f)
    (hn : w ≤ n) (r : F) : Holds (packedRound cube data r) (n + 1)
      fun x => f (x % 2 ^ n) * cube.basisAt r (x.testBit n) := by
  have hwords : data.length * 2 ^ w = 2 ^ n := by
    rw [h.length,Nat.shiftLeft_eq,one_mul,←pow_add,Nat.sub_add_cancel hn]
  have hround : PackedExpansion.packedRound cube data r =
      data.map (fun word => (cube.expandVar word (PackedField.broadcast r)).1) ++
        data.map (fun word => (cube.expandVar word (PackedField.broadcast r)).2) := by
    rw [PackedExpansion.packedRound,List.map_map,List.map_map]
    rfl
  have hin (y : ℕ) (hy : y < 2 ^ n) : y / 2 ^ w < data.length := by
    rw [Nat.div_lt_iff_lt_mul (Nat.two_pow_pos w),hwords]
    exact hy
  refine ⟨?_,fun x hx => ?_⟩
  · rw [hround,List.length_append,List.length_map,List.length_map,h.length,Nat.succ_sub hn,
      Nat.shiftLeft_eq,Nat.shiftLeft_eq,pow_succ]
    omega
  have hlane : x % 2 ^ w < 2 ^ w := Nat.mod_lt _ (Nat.two_pow_pos w)
  rw [hround]
  obtain ⟨hlow,hmod,hbit⟩ | ⟨y,hy,hxy,hmod,hbit⟩ := high_bit hx
  · have hscalar := h.scalar x hlow
    rw [List.getD_eq_getElem _ _ (hin x hlow)] at hscalar
    rw [List.getD_append _ _ _ _ (by rw [List.length_map]; exact hin x hlow),
      List.getD_eq_getElem?_getD,List.getElem?_map,List.getElem?_eq_getElem (hin x hlow),
      Option.map_some,Option.getD_some,(expandVar_lane cube _ r hlane).1,hscalar,hmod,hbit]
  · have hdiv : x / 2 ^ w = data.length + y / 2 ^ w := by
      rw [hxy,←hwords,Nat.add_comm,Nat.add_mul_div_right _ _ (Nat.two_pow_pos w),Nat.add_comm]
    have hmodw : x % 2 ^ w = y % 2 ^ w := by rw [hxy,←hwords,Nat.mul_add_mod']
    have hscalar := h.scalar y hy
    rw [List.getD_eq_getElem _ _ (hin y hy)] at hscalar
    rw [hdiv,hmodw,List.getD_append_right _ _ _ _ (by rw [List.length_map]; exact Nat.le_add_right _ _),
      List.length_map,Nat.add_sub_cancel_left,List.getD_eq_getElem?_getD,List.getElem?_map,
      List.getElem?_eq_getElem (hin y hy),Option.map_some,Option.getD_some,
      (expandVar_lane cube _ r (Nat.mod_lt _ (Nat.two_pow_pos w))).2,hscalar,hmod,hbit]

theorem tensor_round (f : ℕ → F) (n : ℕ) (r : F) (rest : List F) (x : ℕ) :
    f (x % 2 ^ (n + 1) % 2 ^ n) * cube.basisAt r ((x % 2 ^ (n + 1)).testBit n) *
        cube.tensor rest (x / 2 ^ (n + 1)) =
      f (x % 2 ^ n) * cube.tensor (r :: rest) (x / 2 ^ n) := by
  have hmod : x % 2 ^ (n + 1) % 2 ^ n = x % 2 ^ n :=
    Nat.mod_mod_of_dvd x (pow_dvd_pow 2 (Nat.le_succ n))
  have hbit : (x % 2 ^ (n + 1)).testBit n = x.testBit n := by
    rw [Nat.testBit_mod_two_pow,decide_eq_true (Nat.lt_succ_self n),Bool.true_and]
  rw [hmod,hbit,tensor,Nat.testBit_div_two_pow,Nat.zero_add,Nat.div_div_eq_div_mul,←pow_succ,mul_assoc]

theorem Holds.subWidthRounds (coords : List F) {start done : ℕ}
    (hw : start + done + coords.length ≤ w)
    (h : Holds data (start + done) f) :
    Holds ((coords.zipIdx done).foldl
        (fun data entry => PackedExpansion.subWidthRound cube data (start + entry.2) entry.1) data)
      (start + done + coords.length)
      fun x => f (x % 2 ^ (start + done)) * cube.tensor coords (x / 2 ^ (start + done)) := by
  induction coords generalizing done data f with
  | nil =>
    refine h.congr fun x hx => ?_
    rw [Nat.mod_eq_of_lt hx,tensor,mul_one]
  | cons r rest ih =>
    rw [List.length_cons] at hw
    have hround := h.subWidthRound cube (by omega : start + done < w) r
    have hnext := ih (by omega : start + (done + 1) + rest.length ≤ w) hround
    rw [List.zipIdx_cons,List.foldl_cons,List.length_cons]
    have hlen : start + (done + 1) + rest.length = start + done + (rest.length + 1) := by omega
    rw [hlen] at hnext
    exact hnext.congr fun x _ => tensor_round cube f (start + done) r rest x

theorem Holds.packedRounds (coords : List F) (hw : w ≤ n)
    (h : Holds data n f) :
    Holds (coords.foldl (PackedExpansion.packedRound cube) data) (n + coords.length)
      fun x => f (x % 2 ^ n) * cube.tensor coords (x / 2 ^ n) := by
  induction coords generalizing n data f with
  | nil =>
    refine h.congr fun x hx => ?_
    rw [Nat.mod_eq_of_lt hx,tensor,mul_one]
  | cons r rest ih =>
    have hnext := ih (by omega) (h.packedRound cube hw r)
    have hlen : n + 1 + rest.length = n + (rest.length + 1) := by omega
    rw [List.foldl_cons,List.length_cons]
    rw [hlen] at hnext
    exact hnext.congr fun x _ => tensor_round cube f n r rest x

theorem tensorProdEqIndReserved_run (capacity : ℕ) (values : FieldBuffer w F) (coords : List F)
    (hroom : capacity ≥ packedWords w (values.logLen + coords.length)) :
    ∃ r, tensorProdEqIndReserved cube capacity values coords = .ok r ∧
      r.logLen = values.logLen + coords.length ∧ ∀ x < 2 ^ (values.logLen + coords.length),
        r.scalar x = values.scalar (x % 2 ^ values.logLen) *
          cube.tensor coords (x / 2 ^ values.logLen) := by
  have hstart : Holds values.words values.logLen values.scalar :=
    ⟨values.words_length,fun x _ => rfl⟩
  generalize hcount : min coords.length (w - values.logLen) = count
  have hfirst : (coords.take count).length = count := by
    rw [List.length_take]
    omega
  have hrest : (coords.drop count).length = coords.length - count := List.length_drop
  have hall : Holds ((coords.drop count).foldl (packedRound cube)
      ((coords.take count).zipIdx.foldl (fun data entry =>
        subWidthRound cube data (values.logLen + entry.2) entry.1) values.words))
      (values.logLen + coords.length)
      fun x => values.scalar (x % 2 ^ values.logLen) * cube.tensor coords (x / 2 ^ values.logLen) := by
    have hnarrow : Holds ((coords.take count).zipIdx.foldl (fun data entry =>
        subWidthRound cube data (values.logLen + entry.2) entry.1) values.words)
        (values.logLen + count) fun x => values.scalar (x % 2 ^ values.logLen) *
          cube.tensor (coords.take count) (x / 2 ^ values.logLen) := by
      by_cases hzero : count = 0
      · rw [hzero,List.take_zero]
        exact hstart.congr fun x hx => by rw [Nat.mod_eq_of_lt hx,tensor,mul_one]
      · have hwidth : values.logLen + 0 + (coords.take count).length ≤ w := by omega
        have hrounds := hstart.subWidthRounds cube (coords.take count) hwidth
        rw [hfirst,Nat.add_zero] at hrounds
        exact hrounds
    by_cases hnone : count = coords.length
    · have hempty : coords.drop count = [] := List.drop_eq_nil_of_le hnone.ge
      rw [hempty,List.foldl_nil]
      rw [hnone,List.take_length] at hnarrow ⊢
      exact hnarrow
    · have hwide := hnarrow.packedRounds cube (coords.drop count) (by omega)
      have hlen : values.logLen + count + (coords.drop count).length = values.logLen + coords.length := by
        omega
      rw [hlen] at hwide
      refine hwide.congr fun x _ => ?_
      have hmod : x % 2 ^ (values.logLen + count) % 2 ^ values.logLen = x % 2 ^ values.logLen :=
        Nat.mod_mod_of_dvd x (pow_dvd_pow 2 (Nat.le_add_right _ _))
      have hdiv : x % 2 ^ (values.logLen + count) / 2 ^ values.logLen =
          x / 2 ^ values.logLen % 2 ^ count := by rw [pow_add,Nat.mod_mul_right_div_self]
      have hlow := tensor_mod cube (coords.take count) (x / 2 ^ values.logLen)
      have hsplit := tensor_append cube (coords.take count) (coords.drop count) (x / 2 ^ values.logLen)
      rw [hfirst] at hlow hsplit
      rw [List.take_append_drop,Nat.div_div_eq_div_mul,←pow_add] at hsplit
      rw [hmod,hdiv,hlow,hsplit,mul_assoc]
  rw [tensorProdEqIndReserved,require_true hroom]
  simp only [bind,Except.bind,hcount]
  rw [FieldBuffer.new_ok hall.length]
  exact ⟨_,rfl,rfl,hall.scalar⟩

theorem tensorProdEqInd_run (values : FieldBuffer w F) (coords : List F) :
    ∃ r, tensorProdEqInd cube values coords = .ok r ∧
      r.logLen = values.logLen + coords.length ∧ ∀ x < 2 ^ (values.logLen + coords.length),
        r.scalar x = values.scalar (x % 2 ^ values.logLen) *
          cube.tensor coords (x / 2 ^ values.logLen) :=
  tensorProdEqIndReserved_run cube _ values coords (by omega)

theorem tensorProdEqInd_batches (values : FieldBuffer w F) (batches : List (List F)) :
    ∃ r, batches.foldlM (tensorProdEqInd cube) values = .ok r ∧
      r.logLen = values.logLen + batches.flatten.length ∧
      ∀ x < 2 ^ (values.logLen + batches.flatten.length),
        r.scalar x = values.scalar (x % 2 ^ values.logLen) *
          cube.tensor batches.flatten (x / 2 ^ values.logLen) := by
  induction batches generalizing values with
  | nil =>
    refine ⟨values,rfl,rfl,fun x hx => ?_⟩
    have hx : x < 2 ^ values.logLen := hx
    rw [Nat.mod_eq_of_lt hx,List.flatten_nil,tensor,mul_one]
  | cons coords rest ih =>
    obtain ⟨next,hnext,hlen,hrun⟩ := tensorProdEqInd_run cube values coords
    obtain ⟨r,hr,hrlen,hrrun⟩ := ih next
    have hsum : next.logLen + rest.flatten.length =
        values.logLen + (coords :: rest).flatten.length := by
      rw [hlen,List.flatten_cons,List.length_append,Nat.add_assoc]
    refine ⟨r,?_,hrlen.trans hsum,fun x hx => ?_⟩
    · rw [List.foldlM_cons,hnext,ok_bind,hr]
    · have hdvd : 2 ^ values.logLen ∣ 2 ^ next.logLen := pow_dvd_pow 2 (by omega)
      have hin : x % 2 ^ next.logLen < 2 ^ (values.logLen + coords.length) := by
        rw [←hlen]
        exact Nat.mod_lt _ (Nat.two_pow_pos _)
      have hdiv : x % 2 ^ next.logLen / 2 ^ values.logLen =
          x / 2 ^ values.logLen % 2 ^ coords.length := by
        rw [hlen,pow_add,Nat.mod_mul_right_div_self]
      rw [hrrun x (hsum ▸ hx),hrun _ hin,Nat.mod_mod_of_dvd x hdvd,hdiv,tensor_mod,List.flatten_cons,
        tensor_append,Nat.div_div_eq_div_mul,←pow_add,←hlen,mul_assoc]

theorem packedWords_mono {m : ℕ} (h : m ≤ n) : packedWords w m ≤ packedWords w n := by
  rw [packedWords,packedWords,Nat.shiftLeft_eq,Nat.shiftLeft_eq,one_mul,one_mul]
  exact Nat.pow_le_pow_right (by omega) (by omega)

theorem scaledBlock_lane (coeff : F) {y : ℕ} (hy : y < 2 ^ w) :
    (word * PackedField.broadcast coeff).get y = word.get y * coeff := by
  rw [PackedField.get_of_lt _ hy,PackedField.get_of_lt _ hy]
  rfl

theorem scaledEqIndPartialEvalInto_run (point : List F) (scale : F) {capacity : ℕ}
    (hroom : capacity ≥ packedWords w point.length) :
    ∃ r : FieldBuffer w F, scaledEqIndPartialEvalInto cube point scale capacity = .ok r ∧
      r.logLen = point.length ∧ ∀ x < 2 ^ point.length, r.scalar x = scale * cube.tensor point x := by
  have hone : [(fromScalars [scale] : PackedField w F)].length = 1 <<< (0 - w) := by
    rw [Nat.zero_sub]
    rfl
  have hseed : (⟨0,[fromScalars [scale]],hone⟩ : FieldBuffer w F).scalar 0 = scale := by
    rw [FieldBuffer.scalar_narrow _ (Nat.two_pow_pos w)]
    exact PackedField.get_fromScalars _ (Nat.two_pow_pos w)
  generalize hcut : min (max (point.length / 2) w) point.length = lowLen
  have htake : (point.take lowLen).length = lowLen := by
    rw [List.length_take]
    omega
  obtain ⟨low,hlow,hlowLen,hlowRun⟩ := tensorProdEqIndReserved_run cube capacity
    (⟨0,[fromScalars [scale]],hone⟩ : FieldBuffer w F) (point.take lowLen)
    (hroom.trans' (packedWords_mono (by rw [htake,Nat.zero_add]; omega)))
  rw [htake] at hlowLen hlowRun
  simp only [Nat.zero_add,pow_zero,Nat.mod_one,Nat.div_one,hseed] at hlowLen hlowRun
  rw [scaledEqIndPartialEvalInto,require_true hroom]
  simp only [bind,Except.bind,pure,Except.pure,FieldBuffer.new_ok hone,hcut,hlow]
  by_cases hempty : (point.drop lowLen).isEmpty
  · have hwhole : lowLen = point.length := by
      rw [List.isEmpty_iff,List.drop_eq_nil_iff] at hempty
      omega
    rw [if_pos hempty]
    rw [hwhole,List.take_length] at hlowRun
    exact ⟨low,rfl,hlowLen.trans hwhole,hlowRun⟩
  rw [if_neg hempty]
  have hpast : lowLen < point.length := by
    rw [List.isEmpty_iff,List.drop_eq_nil_iff] at hempty
    omega
  have hw : w ≤ lowLen := by omega
  have hblock := low.words_length_wide (hlowLen ▸ hw)
  rw [hlowLen] at hblock
  have hhigh : eqIndPartialEvalScalars cube (point.drop lowLen) =
      (List.range (2 ^ (point.length - lowLen))).map fun v => cube.tensor (point.drop lowLen) v := by
    rw [eqIndPartialEvalScalars,scaledEqIndPartialEvalScalars_eq,List.length_drop]
    simp only [one_mul]
  obtain ⟨count,hcount⟩ : ∃ count, 2 ^ (point.length - lowLen) = count + 1 :=
    ⟨2 ^ (point.length - lowLen) - 1,(Nat.succ_pred_eq_of_pos (Nat.two_pow_pos _)).symm⟩
  -- the blocks one after another, the first of them put in front
  have hdata : low.words.map (· * PackedField.broadcast
        ((eqIndPartialEvalScalars cube (point.drop lowLen)).getD 0 0)) ++
      ((eqIndPartialEvalScalars cube (point.drop lowLen)).drop 1).flatMap
        (fun coeff => low.words.map (· * PackedField.broadcast coeff)) =
      (List.range (2 ^ (point.length - lowLen))).flatMap fun v =>
        low.words.map (· * PackedField.broadcast (cube.tensor (point.drop lowLen) v)) := by
    rw [hhigh,hcount,List.range_succ_eq_map,List.map_cons,List.getD_cons_zero,List.drop_one,
      List.tail_cons,List.flatMap_cons,List.flatMap_map]
  have hsize : ∀ v < 2 ^ (point.length - lowLen), (low.words.map
      (· * PackedField.broadcast (cube.tensor (point.drop lowLen) v))).length = low.words.length :=
    fun v _ => List.length_map _
  have hlen : ((List.range (2 ^ (point.length - lowLen))).flatMap fun v =>
      low.words.map (· * PackedField.broadcast (cube.tensor (point.drop lowLen) v))).length =
        1 <<< (point.length - w) := by
    rw [List.length_flatMap,List.map_congr_left fun v hv => hsize v (List.mem_range.mp hv),
      List.map_const',List.sum_replicate,List.length_range,smul_eq_mul,low.words_length,hlowLen,
      Nat.shiftLeft_eq,Nat.shiftLeft_eq,one_mul,one_mul,←pow_add]
    congr 1
    omega
  rw [hdata,FieldBuffer.new_ok hlen]
  refine ⟨_,rfl,rfl,fun x hx => ?_⟩
  have hfits : 2 ^ (point.length - lowLen) * low.words.length * 2 ^ w = 2 ^ point.length := by
    rw [Nat.mul_assoc,hblock,←pow_add,Nat.sub_add_cancel hpast.le]
  have hword : x / 2 ^ w < 2 ^ (point.length - lowLen) * low.words.length := by
    rw [Nat.div_lt_iff_lt_mul (Nat.two_pow_pos w),hfits]
    exact hx
  have hpos : 0 < low.words.length := by
    rw [low.words_length,Nat.shiftLeft_eq,one_mul]
    exact Nat.two_pow_pos _
  have hinner := Nat.mod_lt (x / 2 ^ w) hpos
  have hmod : x / 2 ^ w % low.words.length = x % 2 ^ lowLen / 2 ^ w := by
    rw [←hblock,Nat.mul_comm,Nat.mod_mul_right_div_self]
  have hdiv : x / 2 ^ w / low.words.length = x / 2 ^ lowLen := by
    rw [Nat.div_div_eq_div_mul,Nat.mul_comm,hblock]
  have hlane : x % 2 ^ lowLen % 2 ^ w = x % 2 ^ w := Nat.mod_mod_of_dvd x (pow_dvd_pow 2 hw)
  have hlowScalar := hlowRun (x % 2 ^ lowLen) (Nat.mod_lt _ (Nat.two_pow_pos _))
  rw [FieldBuffer.scalar,hlane,←hmod,List.getD_eq_getElem _ _ hinner] at hlowScalar
  have hsplit := tensor_append cube (point.take lowLen) (point.drop lowLen) x
  rw [List.take_append_drop,htake,←tensor_mod cube (point.take lowLen),htake] at hsplit
  rw [FieldBuffer.scalar,List.getD_eq_getElem?_getD]
  simp only
  rw [getElem?_chunks hsize hword,List.getElem?_map,List.getElem?_eq_getElem hinner,Option.map_some,
    Option.getD_some,scaledBlock_lane _ _ (Nat.mod_lt _ (Nat.two_pow_pos w)),hlowScalar,hdiv,hsplit,
    mul_assoc]

end Rounds

section Truncation

variable (cube : Hypercube)

theorem contractVar_lane (a b : PackedField w F) {y : ℕ} (hy : y < 2 ^ w) :
    (cube.contractVar a b).get y = cube.contractVar (a.get y) (b.get y) := by
  cases cube with
  | oneCube => simp only [contractVar,PackedField.get_of_lt _ hy,Pi.add_apply]
  | infCube => rfl

variable {point : List F} {scale : F} {values : FieldBuffer w F}

theorem stripHighestVar_run {r : F}
    (hlen : values.logLen = point.length + 1)
    (hvalues : ∀ x < 2 ^ (point.length + 1), values.scalar x = scale * cube.tensor (point ++ [r]) x) :
    ∃ next, stripHighestVar cube values point.length = .ok next ∧ next.logLen = point.length ∧
      ∀ x < 2 ^ point.length, next.scalar x = scale * cube.tensor point x := by
  obtain ⟨folded,next,hfolded,-,hnext,hnextLen,hrun⟩ :=
    values.foldHalves_run hlen (f := cube.contractVar) fun a b y hy => contractVar_lane cube a b hy
  refine ⟨next,?_,hnextLen,fun x hx => ?_⟩
  · rw [stripHighestVar,hfolded,ok_bind,hnext]
  · have hlow : values.scalar x = scale * cube.tensor point x * cube.basisAt r false := by
      rw [hvalues x (by omega),tensor_concat,Nat.mod_eq_of_lt hx,Nat.testBit_lt_two_pow hx,mul_assoc]
    have hhigh : values.scalar (2 ^ point.length + x) =
        scale * cube.tensor point x * cube.basisAt r true := by
      rw [hvalues _ (by omega),tensor_concat,Nat.add_mod_left,Nat.mod_eq_of_lt hx,
        Nat.testBit_two_pow_add_eq,Nat.testBit_lt_two_pow hx,Bool.not_false,mul_assoc]
    rw [hrun x hx,hlow,hhigh,contractVar_eq]

theorem stripHighestVars_run {k d : ℕ}
    (hpoint : point.length = k + d) (hlen : values.logLen = k + d)
    (hvalues : ∀ x < 2 ^ (k + d), values.scalar x = scale * cube.tensor point x) :
    ∃ r, (List.range' k d).reverse.foldlM (stripHighestVar cube) values = .ok r ∧ r.logLen = k ∧
      ∀ x < 2 ^ k, r.scalar x = scale * cube.tensor (point.take k) x := by
  induction d generalizing point values with
  | zero =>
    have htake : point.take k = point := List.take_of_length_le hpoint.le
    exact ⟨values,rfl,hlen,by rwa [htake]⟩
  | succ d ih =>
    obtain ⟨first,last,rfl⟩ : ∃ first last, point = first ++ [last] :=
      ⟨_,_,(List.dropLast_append_getLast (List.ne_nil_of_length_pos (by omega))).symm⟩
    have hfirst : first.length = k + d := by
      rw [List.length_append,List.length_singleton] at hpoint
      omega
    have hstep : values.logLen = first.length + 1 := by
      rw [hlen,hfirst,Nat.add_assoc]
    obtain ⟨next,hnext,hnextLen,hnextRun⟩ := stripHighestVar_run cube hstep
      fun x hx => hvalues x (by rwa [hfirst,Nat.add_assoc] at hx)
    rw [hfirst] at hnext hnextLen hnextRun
    obtain ⟨r,hr,hrLen,hrRun⟩ := ih hfirst hnextLen hnextRun
    refine ⟨r,?_,hrLen,fun x hx => ?_⟩
    · rw [List.range'_concat,one_mul,List.reverse_append,List.reverse_singleton,List.singleton_append,
        List.foldlM_cons,hnext,ok_bind,hr]
    · rw [hrRun x hx,List.take_append_of_le_length (by omega)]

theorem eqIndTruncateLowInplace_run {k : ℕ}
    (hk : k ≤ point.length) (hlen : values.logLen = point.length)
    (hvalues : ∀ x < 2 ^ point.length, values.scalar x = scale * cube.tensor point x) :
    ∃ r, eqIndTruncateLowInplace cube values k = .ok r ∧ r.logLen = k ∧
      ∀ x < 2 ^ k, r.scalar x = scale * cube.tensor (point.take k) x := by
  have hsum : k + (point.length - k) = point.length := Nat.add_sub_of_le hk
  rw [eqIndTruncateLowInplace,require_true (hlen.symm ▸ hk),ok_bind,hlen]
  exact stripHighestVars_run cube hsum.symm (hlen.trans hsum.symm) (by rwa [hsum])

end Truncation

namespace Hypercube

variable {R : Type} [CommRing R]

def extension (cube : Hypercube) (coefficients point : List R) : R :=
  ∑ v ∈ range (2 ^ point.length), coefficients.getD v 0 * cube.tensor point v

end Hypercube

section Indicator

variable [DecidableEq F] (cube : Hypercube)

theorem eqOneVar_basis (x y : F) :
    cube.eqOneVar x y =
      cube.basisAt x false * cube.basisAt y false + cube.basisAt x true * cube.basisAt y true := by
  cases cube with
  | oneCube =>
    rw [Hypercube.eqOneVar,EqualityTensor.eqOneVar_eq,basisAt,basisAt,basisAt,basisAt,basis,basis,
      if_neg Bool.false_ne_true,if_neg Bool.false_ne_true,if_pos rfl,if_pos rfl,add_comm]
  | infCube =>
    rw [Hypercube.eqOneVar,basisAt,basisAt,basisAt,basisAt,basis,basis,
      if_neg Bool.false_ne_true,if_neg Bool.false_ne_true,if_pos rfl,if_pos rfl,one_mul]

theorem prod_eqOneVar {x y : List F} (h : x.length = y.length) :
    (List.zipWith cube.eqOneVar x y).prod =
      ∑ v ∈ range (2 ^ x.length), cube.tensor y v * cube.tensor x v := by
  induction x generalizing y with
  | nil =>
    cases List.length_eq_zero_iff.mp h.symm
    rw [List.zipWith_nil_left,List.prod_nil,List.length_nil,pow_zero,sum_range_one,tensor,one_mul]
  | cons a x ih =>
    cases y with
    | nil => cases h
    | cons b y =>
      have hodd (j : ℕ) : (2 * j + 1) / 2 = j := by omega
      have heven (j : ℕ) : (2 * j).testBit 0 = false := by
        rw [Nat.testBit_zero,Nat.mul_mod_right]
        rfl
      have hset (j : ℕ) : (2 * j + 1).testBit 0 = true := by
        rw [Nat.testBit_zero,Nat.mul_add_mod]
        rfl
      rw [List.zipWith_cons_cons,List.prod_cons,ih (Nat.succ_injective h),List.length_cons,pow_succ',
        sum_range_even_odd,eqOneVar_basis,mul_sum]
      refine sum_congr rfl fun j _ => ?_
      rw [tensor,tensor,tensor,tensor,heven,hset,Nat.mul_div_cancel_left j Nat.two_pos,hodd]
      ring

theorem eqInd_extension {x y : List F} (h : x.length = y.length) :
    eqInd cube x y = .ok (cube.extension (eqIndPartialEvalScalars cube y) x) := by
  rw [eqInd,require_true h,ok_bind,prod_eqOneVar cube h,Hypercube.extension,eqIndPartialEvalScalars,
    scaledEqIndPartialEvalScalars_eq]
  refine congrArg Except.ok (sum_congr rfl fun v hv => ?_)
  rw [h,mem_range] at hv
  rw [List.getD_eq_getElem?_getD,List.getElem?_map,List.getElem?_range hv,Option.map_some,
    Option.getD_some,one_mul]

end Indicator

theorem scalars_eq_engine (cube : Hypercube) {point : List F} {scale : F} {r : FieldBuffer w F}
    (hlen : r.logLen = point.length)
    (hr : ∀ x < 2 ^ point.length, r.scalar x = scale * cube.tensor point x) :
    r.scalars = scaledEqIndPartialEvalScalars cube point scale := by
  rw [scaledEqIndPartialEvalScalars_eq,FieldBuffer.scalars,hlen]
  exact List.map_congr_left fun x hx => hr x (List.mem_range.mp hx)

theorem scalar_of_engine (cube : Hypercube) {point : List F} {scale : F} {r : FieldBuffer w F}
    (hr : r.scalars = scaledEqIndPartialEvalScalars cube point scale) (hlen : r.logLen = point.length)
    {x : ℕ} (hx : x < 2 ^ point.length) : r.scalar x = scale * cube.tensor point x := by
  rw [←r.scalars_getD (hlen ▸ hx),hr,scaledEqIndPartialEvalScalars_eq,List.getD_eq_getElem?_getD,
    List.getElem?_map,List.getElem?_range hx,Option.map_some,Option.getD_some]

/-- The expansion of a point is one table of products, however it is computed: scalar by scalar, in a given
store with the point cut in the middle, or from a single scalar by appending the coordinates in batches,
whatever the other lanes of its word hold. -/
theorem expansions_agree [DecidableEq F] (w : ℕ) (cube : Hypercube) (point : List F) (scale : F) :
    (∀ v < 2 ^ point.length, (scaledEqIndPartialEvalScalars cube point scale)[v]? =
      some (scale * ∏ i ∈ range point.length, cube.basisAt (point.getD i 0) (v.testBit i))) ∧
    (∀ capacity ≥ packedWords w point.length, ∃ r : FieldBuffer w F,
      scaledEqIndPartialEvalInto cube point scale capacity = .ok r ∧ r.logLen = point.length ∧
        r.scalars = scaledEqIndPartialEvalScalars cube point scale) ∧
    (∀ batches : List (List F), batches.flatten = point → ∀ seed : FieldBuffer w F, seed.logLen = 0 →
      seed.scalar 0 = scale → ∃ r, batches.foldlM (tensorProdEqInd cube) seed = .ok r ∧
        r.logLen = point.length ∧ r.scalars = scaledEqIndPartialEvalScalars cube point scale) ∧
    (∀ k ≤ point.length, ∀ values : FieldBuffer w F, values.logLen = point.length →
      values.scalars = scaledEqIndPartialEvalScalars cube point scale →
        ∃ r, eqIndTruncateLowInplace cube values k = .ok r ∧ r.logLen = k ∧
          r.scalars = scaledEqIndPartialEvalScalars cube (point.take k) scale) ∧
    ∀ x : List F, x.length = point.length →
      eqInd cube x point = .ok (cube.extension (eqIndPartialEvalScalars cube point) x) := by
  refine ⟨fun v hv => ?_,fun capacity hroom => ?_,fun batches hbatches seed hseed hscale => ?_,
    fun k hk values hlen hvalues => ?_,fun x hx => eqInd_extension cube hx⟩
  · rw [scaledEqIndPartialEvalScalars_eq,List.getElem?_map,List.getElem?_range hv,Option.map_some,
      tensor_eq_prod]
  · obtain ⟨r,hr,hlen,hrun⟩ := scaledEqIndPartialEvalInto_run cube point scale hroom
    exact ⟨r,hr,hlen,scalars_eq_engine cube hlen hrun⟩
  · obtain ⟨r,hr,hlen,hrun⟩ := tensorProdEqInd_batches cube seed batches
    rw [hbatches,hseed,Nat.zero_add] at hlen hrun
    refine ⟨r,hr,hlen,scalars_eq_engine cube hlen fun x hx => ?_⟩
    rw [hrun x hx,pow_zero,Nat.mod_one,Nat.div_one,hscale]
  · have htake : (point.take k).length = k := List.length_take_of_le hk
    obtain ⟨r,hr,hrLen,hrun⟩ := eqIndTruncateLowInplace_run cube hk hlen
      fun x hx => scalar_of_engine cube hvalues hlen hx
    exact ⟨r,hr,hrLen,scalars_eq_engine cube (hrLen.trans htake.symm) (htake.symm ▸ hrun)⟩

end Binius64.PackedExpansion
