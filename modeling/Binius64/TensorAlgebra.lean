import Binius64.LogupStar
import Binius64.RowFold

/-!
# The tensor algebra

An element of the tensor product of a field with itself over the field of two elements is a list of
field elements, one for each basis element.
-/

namespace Binius64.RingSwitch

open Finset Ntt BitTranspose EqualityTensor
open LogupStar (resize)

instance ringHomInvPair : RingHomInvPair (RingHom.id (ZMod 2)) (RingHom.id (ZMod 2)) := RingHomInvPair.ids

/-- An extension of the field of two elements whose elements are packed bits. -/
class ExtensionField (F : Type) [Field F] [Algebra (ZMod 2) F] where
  logDegree : ℕ
  byteWide : 3 ≤ logDegree
  castBases : F ≃ₗ[ZMod 2] PackedField logDegree (ZMod 2)
  castBases_one : castBases 1 = fun j => if j.val = 0 then 1 else 0

open ExtensionField

def degree (F : Type) [Field F] [Algebra (ZMod 2) F] [ExtensionField F] : ℕ := 1 <<< logDegree F

structure TensorAlgebra (F : Type) [Field F] [Algebra (ZMod 2) F] [ExtensionField F] where
  /-- The vertical elements, one for each horizontal basis element. -/
  elems : List F
  len : elems.length = degree F

variable {F : Type} [Field F] [Algebra (ZMod 2) F] [ExtensionField F]

theorem degree_eq : degree F = 2 ^ logDegree F := by
  rw [degree,Nat.shiftLeft_eq,one_mul]

namespace TensorAlgebra

def new (elems : List F) : TensorAlgebra F := ⟨resize elems (degree F) 0,by
  rw [resize,List.length_append,List.length_take,List.length_replicate]
  omega⟩

def fromVertical (x : F) : TensorAlgebra F := ⟨x :: List.replicate (degree F - 1) 0,by
  have hpos : 0 < degree F := by
    rw [degree_eq]
    exact Nat.two_pow_pos _
  rw [List.length_cons,List.length_replicate]
  omega⟩

def add (t u : TensorAlgebra F) : TensorAlgebra F := ⟨List.zipWith (· + ·) t.elems u.elems,by
  rw [List.length_zipWith,t.len,u.len,min_self]⟩

def scaleVertical (t : TensorAlgebra F) (scalar : F) : TensorAlgebra F :=
  ⟨t.elems.map (· * scalar),(List.length_map _).trans t.len⟩

/-- Transpose the bits: there are as many elements as bits, so they form one square block. -/
def transpose (t : TensorAlgebra F) : TensorAlgebra F :=
  let rows := transposeRounds (logDegree F) 0 fun i => castBases (t.elems.getD i 0)
  ⟨(List.range (degree F)).map fun i => castBases.symm (rows i),by
    rw [List.length_map,List.length_range]⟩

def scaleHorizontal (t : TensorAlgebra F) (scalar : F) : TensorAlgebra F :=
  (t.transpose.scaleVertical scalar).transpose

/-- Scale the rows and add them up. -/
def foldVertical (t : TensorAlgebra F) (coeffs : List F) : F :=
  (List.zipWith (fun a b => b * a) t.transpose.elems coeffs).sum

end TensorAlgebra

/-- A bit of an element. -/
def coord (x : F) (j : ℕ) : ZMod 2 := (castBases x).get j

def basis (v : ℕ) : F := castBases.symm fun j => if j.val = v then 1 else 0

theorem coord_add (x y : F) (j : ℕ) : coord (x + y) j = coord x j + coord y j := by
  rw [coord,coord,coord,map_add,PackedField.get,PackedField.get,PackedField.get]
  split
  · rfl
  · exact (add_zero 0).symm

theorem coord_smul (b : ZMod 2) (x : F) (j : ℕ) : coord (b • x) j = b * coord x j := by
  rw [coord,coord,map_smul,PackedField.get,PackedField.get]
  split
  · rfl
  · exact (mul_zero b).symm

theorem coord_basis {v j : ℕ} (hj : j < degree F) : coord (basis v : F) j = if j = v then 1 else 0 := by
  rw [degree_eq] at hj
  rw [coord,basis,LinearEquiv.apply_symm_apply,PackedField.get,dif_pos hj]

theorem eq_of_coord {x y : F} (h : ∀ j < degree F, coord x j = coord y j) : x = y := by
  refine castBases.injective (funext fun j => ?_)
  have hj := h j.val (by rw [degree_eq]; exact j.isLt)
  rw [coord,coord,PackedField.get,PackedField.get,dif_pos j.isLt,dif_pos j.isLt] at hj
  exact hj

theorem coord_sum {s : Finset ℕ} (x : ℕ → F) (j : ℕ) :
    coord (∑ i ∈ s, x i) j = ∑ i ∈ s, coord (x i) j := by
  classical
  induction s using Finset.induction_on with
  | empty =>
    rw [sum_empty,sum_empty,coord,map_zero,PackedField.get]
    split <;> rfl
  | insert i s hi ih => rw [sum_insert hi,sum_insert hi,coord_add,ih]

theorem sum_coord_basis (x : F) : ∑ v ∈ range (degree F), coord x v • basis v = x := by
  refine eq_of_coord fun j hj => ?_
  rw [coord_sum,sum_congr rfl fun v _ => by rw [coord_smul,coord_basis hj,mul_ite,mul_one,mul_zero]]
  rw [sum_ite_eq,if_pos (mem_range.mpr hj)]

theorem basis_zero : (basis 0 : F) = 1 := by
  rw [basis,←castBases_one,LinearEquiv.symm_apply_apply]

namespace TensorAlgebra

def elem (t : TensorAlgebra F) (v : ℕ) : F := t.elems.getD v 0

theorem elem_add (t u : TensorAlgebra F) (v : ℕ) : (t.add u).elem v = t.elem v + u.elem v := by
  rw [elem,elem,elem,add,List.getD_eq_getElem?_getD,List.getD_eq_getElem?_getD,
    List.getD_eq_getElem?_getD,List.getElem?_zipWith]
  by_cases hv : v < degree F
  · rw [List.getElem?_eq_getElem (by rw [t.len]; exact hv),
      List.getElem?_eq_getElem (by rw [u.len]; exact hv)]
    rfl
  · rw [List.getElem?_eq_none (by rw [t.len]; exact not_lt.mp hv),
      List.getElem?_eq_none (by rw [u.len]; exact not_lt.mp hv)]
    exact (add_zero 0).symm

variable (t : TensorAlgebra F)

theorem elem_scaleVertical (scalar : F) (v : ℕ) :
    (t.scaleVertical scalar).elem v = t.elem v * scalar := by
  rw [elem,elem,scaleVertical,List.getD_eq_getElem?_getD,List.getD_eq_getElem?_getD,List.getElem?_map]
  cases t.elems[v]? with
  | none => exact (zero_mul scalar).symm
  | some x => rfl

theorem elem_fromVertical (x : F) (v : ℕ) : (fromVertical x).elem v = if v = 0 then x else 0 := by
  cases v with
  | zero => rfl
  | succ v =>
    rw [elem,fromVertical,List.getD_cons_succ,List.getD_eq_getElem?_getD,List.getElem?_replicate,
      if_neg (Nat.succ_ne_zero v)]
    split <;> rfl

theorem coord_transpose {i j : ℕ} (hi : i < degree F) (hj : j < degree F) :
    coord (t.transpose.elem i) j = coord (t.elem j) i := by
  have hlen : i < ((List.range (degree F)).map fun i => castBases.symm
      (transposeRounds (logDegree F) 0 (fun i => castBases (t.elems.getD i 0)) i)).length := by
    rw [List.length_map,List.length_range]
    exact hi
  have helem : t.transpose.elem i = castBases.symm
      (transposeRounds (logDegree F) 0 (fun i => castBases (t.elems.getD i 0)) i) := by
    rw [elem,transpose,List.getD_eq_getElem _ _ hlen,List.getElem_map,List.getElem_range]
  rw [degree_eq] at hi hj
  have hlane := transposeRounds_apply le_rfl (fun i => castBases (t.elems.getD i 0)) hi ⟨j,hj⟩
  simp only [Nat.mod_eq_of_lt hj,Nat.div_eq_of_lt hj,zero_mul,zero_add] at hlane
  rw [helem,coord,LinearEquiv.apply_symm_apply,PackedField.get,dif_pos hj,hlane]
  rfl

theorem transpose_transpose {v : ℕ} (hv : v < degree F) :
    t.transpose.transpose.elem v = t.elem v :=
  eq_of_coord fun j hj => by rw [coord_transpose _ hv hj,coord_transpose _ hj hv]

theorem elem_transpose {j : ℕ} (hj : j < degree F) :
    t.transpose.elem j = ∑ v ∈ range (degree F), coord (t.elem v) j • basis v := by
  rw [←sum_coord_basis (t.transpose.elem j)]
  refine sum_congr rfl fun v hv => ?_
  rw [coord_transpose t hj (mem_range.mp hv)]

variable (ψ : F →ₗ[ZMod 2] F)

/-- A linear map applied on the vertical side, the horizontal basis elements multiplied in. -/
def against (t : TensorAlgebra F) : F :=
  ∑ v ∈ range (degree F), basis v * ψ (t.elem v)

theorem against_add (t u : TensorAlgebra F) : (t.add u).against ψ = t.against ψ + u.against ψ := by
  rw [against,against,against,←sum_add_distrib]
  refine sum_congr rfl fun v _ => ?_
  rw [elem_add,map_add,mul_add]

theorem against_scaleVertical (t : TensorAlgebra F) (scalar : F) :
    (t.scaleVertical scalar).against ψ = t.against (ψ ∘ₗ LinearMap.mulRight (ZMod 2) scalar) := by
  rw [against,against]
  refine sum_congr rfl fun v _ => ?_
  rw [elem_scaleVertical]
  rfl

theorem against_fromVertical (x : F) : (fromVertical x).against ψ = ψ x := by
  rw [against,sum_eq_single 0]
  · rw [elem_fromVertical,if_pos rfl,basis_zero,one_mul]
  · intro v _ hv
    rw [elem_fromVertical,if_neg hv,map_zero,mul_zero]
  · intro hzero
    refine absurd (mem_range.mpr ?_) hzero
    rw [degree_eq]
    exact Nat.two_pow_pos _

theorem against_eq_transpose (t : TensorAlgebra F) :
    t.against ψ = ∑ j ∈ range (degree F), ψ (basis j) * t.transpose.elem j := by
  have hexpand : ∀ v, ψ (t.elem v) = ∑ j ∈ range (degree F), coord (t.elem v) j • ψ (basis j) := by
    intro v
    conv_lhs => rw [←sum_coord_basis (t.elem v),map_sum]
    exact sum_congr rfl fun j _ => map_smul ψ _ _
  calc t.against ψ = ∑ v ∈ range (degree F), ∑ j ∈ range (degree F),
        ψ (basis j) * coord (t.elem v) j • basis v := by
        refine sum_congr rfl fun v _ => ?_
        rw [hexpand,mul_sum]
        refine sum_congr rfl fun j _ => ?_
        rw [mul_smul_comm,mul_smul_comm,mul_comm]
    _ = ∑ j ∈ range (degree F), ∑ v ∈ range (degree F),
        ψ (basis j) * coord (t.elem v) j • basis v := sum_comm
    _ = ∑ j ∈ range (degree F), ψ (basis j) * t.transpose.elem j := by
        refine sum_congr rfl fun j hj => ?_
        rw [elem_transpose t (mem_range.mp hj),mul_sum]

theorem against_scaleHorizontal (t : TensorAlgebra F) (scalar : F) :
    (t.scaleHorizontal scalar).against ψ = t.against ψ * scalar := by
  rw [against_eq_transpose,against_eq_transpose,sum_mul]
  refine sum_congr rfl fun j hj => ?_
  rw [scaleHorizontal,transpose_transpose _ (mem_range.mp hj),elem_scaleVertical,mul_assoc]

end TensorAlgebra

variable (c : ℕ → F)

/-- The linear map that sends a basis element to its coefficient. -/
def rowBatch : F →ₗ[ZMod 2] F where
  toFun x := ∑ j ∈ range (degree F), coord x j • c j
  map_add' x y := by
    rw [←sum_add_distrib]
    exact sum_congr rfl fun j _ => by rw [coord_add,add_smul]
  map_smul' b x := by
    rw [RingHom.id_apply,smul_sum]
    exact sum_congr rfl fun j _ => by rw [coord_smul,mul_smul]

theorem rowBatch_apply (x : F) : rowBatch c x = ∑ j ∈ range (degree F), coord x j • c j := rfl

theorem rowBatch_basis {j : ℕ} (hj : j < degree F) : rowBatch c (basis j) = c j := by
  rw [rowBatch_apply,sum_eq_single j]
  · rw [coord_basis hj,if_pos rfl,one_smul]
  · intro i hi hne
    rw [coord_basis (mem_range.mp hi),if_neg hne,zero_smul]
  · exact fun h => absurd (mem_range.mpr hj) h

theorem TensorAlgebra.foldVertical_eq (t : TensorAlgebra F) {coeffs : List F}
    (h : coeffs.length = degree F) :
    t.foldVertical coeffs = t.against (rowBatch fun j => coeffs.getD j 0) := by
  rw [foldVertical,sum_zipWith t.transpose.len h,against_eq_transpose]
  refine sum_congr rfl fun j hj => ?_
  rw [rowBatch_basis _ (mem_range.mp hj)]
  rfl

end Binius64.RingSwitch
