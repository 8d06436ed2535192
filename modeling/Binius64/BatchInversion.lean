import Binius64.PackedBuffers

/-!
# Batch inversion

Many packed elements are inverted with one inversion.
-/

namespace Binius64

open Ntt CheckedRun List

variable {w : ℕ} {F : Type} [Field F]

/-- An inversion context for a number of packed elements. -/
structure BatchInversion (w : ℕ) (F : Type) where
  n : ℕ
  scratchpad : List (PackedField w F)
  zeroIndices : List ℕ

namespace BatchInversion

/-- The number of scratch slots: one for each product of every level. -/
def minScratchpadSize (n : ℕ) : ℕ :=
  if 1 < n then (n + 1) / 2 + minScratchpadSize ((n + 1) / 2) else 0
termination_by n

/-- The products of the bottom and the top half; an odd element out is copied. -/
def productLayer (input : List (PackedField w F)) (outputLen : ℕ) : List (PackedField w F) :=
  (range outputLen).map fun i =>
    if outputLen + i < input.length then input.getD i 0 * input.getD (outputLen + i) 0
    else input.getD i 0

/-- The inverses of both halves from the inverses of their products. -/
def unproductLayer (input output : List (PackedField w F)) : List (PackedField w F) :=
  (range output.length).map fun j =>
    if j < input.length then
      if input.length + j < output.length then input.getD j 0 * output.getD (input.length + j) 0
      else input.getD j 0
    else input.getD (j - input.length) 0 * output.getD (j - input.length) 0

def batchInvertNonzeroWithScratchpad (elements scratchpad : List (PackedField w F)) :
    Except AssertFailure (List (PackedField w F) × List (PackedField w F)) :=
  if elements.length = 0 then .error .failed
  else if elements.length = 1 then .ok (elements.map (·⁻¹),scratchpad)
  else do
    let nextLayerLen := (elements.length + 1) / 2
    require (nextLayerLen ≤ scratchpad.length)
    let nextLayer := productLayer elements nextLayerLen
    let (nextLayer,remaining) ←
      batchInvertNonzeroWithScratchpad nextLayer (scratchpad.drop nextLayerLen)
    return (unproductLayer nextLayer elements,nextLayer ++ remaining)
termination_by elements.length
decreasing_by
  rw [productLayer,length_map,length_range]
  omega

/-- A context for some packed elements. -/
def new (n : ℕ) : Except AssertFailure (BatchInversion w F) := do
  require (0 < n)
  return ⟨n,replicate (minScratchpadSize n) 0,[]⟩

variable (context : BatchInversion w F)

def invertNonzero (elements : List (PackedField w F)) :
    Except AssertFailure (List (PackedField w F) × BatchInversion w F) := do
  require (elements.length = context.n)
  let (elements,scratchpad) ← batchInvertNonzeroWithScratchpad elements context.scratchpad
  return (elements,{context with scratchpad})

variable [DecidableEq F]

def zerosOf (elements : List (PackedField w F)) : List ℕ :=
  elements.zipIdx.flatMap fun entry =>
    ((range (2 ^ w)).filter fun lane => entry.1.get lane = 0).map fun lane =>
      entry.2 * 2 ^ w + lane

def restoreZeros (zeroIndices : List ℕ) (elements : List (PackedField w F)) :
    List (PackedField w F) :=
  zeroIndices.foldl (fun elements scalarIdx =>
    elements.modify (scalarIdx / 2 ^ w) fun packed => packed.set (scalarIdx % 2 ^ w) 0) elements

def invertOrZero (elements : List (PackedField w F)) :
    Except AssertFailure (List (PackedField w F) × BatchInversion w F) := do
  require (elements.length = context.n)
  let zeroIndices := zerosOf elements
  let swapped := elements.map fun packed lane => if packed lane = 0 then 1 else packed lane
  let (inverted,context) ← {context with zeroIndices}.invertNonzero swapped
  return (restoreZeros zeroIndices inverted,context)

/-- One batch after another, with the same context. -/
def invertAll : BatchInversion w F → List (List (PackedField w F)) →
    Except AssertFailure (List (List (PackedField w F)))
  | _,[] => return []
  | context,batch :: batches => do
    let (inverted,context) ← context.invertOrZero batch
    return inverted :: (← context.invertAll batches)

end BatchInversion

namespace BatchInversion

variable {elements scratchpad : List (PackedField w F)}

omit [Field F] in
theorem ext_getD [Zero F] {a b : List (PackedField w F)} (hlen : a.length = b.length)
    (h : ∀ i < a.length, a.getD i 0 = b.getD i 0) : a = b := by
  refine ext_getElem hlen fun i hi hi' => ?_
  have hget := h i hi
  rwa [getD_eq_getElem _ _ hi,getD_eq_getElem _ _ hi'] at hget

omit [Field F] in
theorem getD_map_range [Zero F] (f : ℕ → PackedField w F) {n i : ℕ} (hi : i < n) :
    ((range n).map f).getD i 0 = f i := by
  rw [getD_eq_getElem _ _ (by rwa [length_map,length_range]),getElem_map,getElem_range]

theorem inverses_getD (xs : List (PackedField w F)) (i : ℕ) :
    (xs.map (·⁻¹)).getD i 0 = (xs.getD i 0)⁻¹ := by
  have hzero : (0 : PackedField w F) = 0⁻¹ := funext fun _ => inv_zero.symm
  rw [hzero,getD_map,←hzero]

theorem length_productLayer (outputLen : ℕ) : (productLayer elements outputLen).length = outputLen := by
  rw [productLayer,length_map,length_range]

theorem unproductLayer_inv {half : ℕ} (hhalf : half = (elements.length + 1) / 2)
    (hnonzero : ∀ i < elements.length, ∀ l, elements.getD i 0 l ≠ 0) :
    unproductLayer ((productLayer elements half).map (·⁻¹)) elements = elements.map (·⁻¹) := by
  have hproduct (i : ℕ) (hi : i < half) : ((productLayer elements half).map (·⁻¹)).getD i 0 =
      (if half + i < elements.length then elements.getD i 0 * elements.getD (half + i) 0
      else elements.getD i 0)⁻¹ := by
    rw [inverses_getD,productLayer,getD_map_range _ hi]
  have hcancel (a b : PackedField w F) (hb : ∀ l, b l ≠ 0) : (a * b)⁻¹ * b = a⁻¹ := by
    funext l
    rw [Pi.mul_apply,Pi.inv_apply,Pi.mul_apply,mul_inv,inv_mul_cancel_right₀ (hb l),Pi.inv_apply]
  refine ext_getD (by rw [unproductLayer,length_map,length_map,length_range]) fun j hj => ?_
  rw [unproductLayer,length_map,length_range] at hj
  rw [unproductLayer,getD_map_range _ hj,length_map,length_productLayer,inverses_getD elements]
  by_cases hlow : j < half
  · rw [if_pos hlow,hproduct j hlow]
    split
    · exact hcancel _ _ (hnonzero _ ‹_›)
    · rfl
  · have hself : half + (j - half) = j := by omega
    rw [if_neg hlow,hproduct _ (by omega),hself,if_pos hj,mul_comm (elements.getD _ 0) (elements.getD j 0)]
    exact hcancel _ _ (hnonzero _ (by omega))

theorem productLayer_nonzero {outputLen : ℕ} (hle : outputLen ≤ elements.length)
    (hnonzero : ∀ i < elements.length, ∀ l, elements.getD i 0 l ≠ 0) :
    ∀ i < (productLayer elements outputLen).length, ∀ l,
      (productLayer elements outputLen).getD i 0 l ≠ 0 := by
  intro i hi l
  rw [length_productLayer] at hi
  rw [productLayer,getD_map_range _ hi]
  split
  · exact mul_ne_zero (hnonzero _ (by omega) l) (hnonzero _ ‹_› l)
  · exact hnonzero _ (by omega) l

theorem batchInvert_ok (elements scratchpad : List (PackedField w F)) (hpos : 0 < elements.length)
    (hroom : minScratchpadSize elements.length ≤ scratchpad.length)
    (hnonzero : ∀ i < elements.length, ∀ l, elements.getD i 0 l ≠ 0) :
    ∃ scratchpad', batchInvertNonzeroWithScratchpad elements scratchpad =
      .ok (elements.map (·⁻¹),scratchpad') ∧ scratchpad'.length = scratchpad.length := by
  induction elements, scratchpad using batchInvertNonzeroWithScratchpad.induct with
  | case1 elements scratchpad hempty => omega
  | case2 elements scratchpad _ hone =>
    refine ⟨scratchpad,?_,rfl⟩
    rw [batchInvertNonzeroWithScratchpad,if_neg (by omega),if_pos hone]
  | case3 elements scratchpad hempty hone nextLayerLen ih =>
    have hnext : nextLayerLen = (elements.length + 1) / 2 := rfl
    rw [minScratchpadSize,if_pos (by omega)] at hroom
    obtain ⟨remaining,hrun,hremaining⟩ := ih (by rw [length_productLayer]; omega)
      (by rw [length_productLayer,length_drop,hnext]; omega) (productLayer_nonzero (by omega) hnonzero)
    refine ⟨(productLayer elements nextLayerLen).map (·⁻¹) ++ remaining,?_,?_⟩
    · rw [batchInvertNonzeroWithScratchpad,if_neg hempty,if_neg hone]
      dsimp only
      rw [require_true (by omega),ok_bind,hrun,ok_bind]
      change Except.ok (unproductLayer ((productLayer elements nextLayerLen).map (·⁻¹)) elements,_) = _
      rw [unproductLayer_inv hnext hnonzero]
    · rw [length_append,length_map,length_productLayer,hremaining,length_drop]
      omega

variable [DecidableEq F]

omit [DecidableEq F] in
theorem length_restoreZeros (zeroIndices : List ℕ) :
    (restoreZeros zeroIndices elements).length = elements.length := by
  induction zeroIndices generalizing elements with
  | nil => rfl
  | cons i zeroIndices ih =>
    rw [restoreZeros,foldl_cons]
    exact ih.trans (length_modify _ _ _)

theorem mul_add_lane_div (p : ℕ) (l : Fin (2 ^ w)) : (p * 2 ^ w + l.val) / 2 ^ w = p := by
  rw [mul_comm,Nat.mul_add_div (Nat.two_pow_pos w),Nat.div_eq_of_lt l.isLt,add_zero]

theorem mul_add_lane_mod (p : ℕ) (l : Fin (2 ^ w)) : (p * 2 ^ w + l.val) % 2 ^ w = l.val := by
  rw [mul_comm,Nat.mul_add_mod,Nat.mod_eq_of_lt l.isLt]

omit [DecidableEq F] in
theorem restoreZeros_getD (zeroIndices : List ℕ) {p : ℕ} (hp : p < elements.length) (l : Fin (2 ^ w)) :
    (restoreZeros zeroIndices elements).getD p 0 l =
      if p * 2 ^ w + l.val ∈ zeroIndices then 0 else elements.getD p 0 l := by
  induction zeroIndices generalizing elements with
  | nil => rfl
  | cons i zeroIndices ih =>
    have hset : (elements.modify (i / 2 ^ w) fun packed => packed.set (i % 2 ^ w) 0).getD p 0 l =
        if p * 2 ^ w + l.val = i then 0 else elements.getD p 0 l := by
      rw [getD_eq_getElem _ _ (by rwa [length_modify]),getElem_modify,getD_eq_getElem _ _ hp]
      by_cases hi : p * 2 ^ w + l.val = i
      · have hdiv : i / 2 ^ w = p := by rw [←hi,mul_add_lane_div]
        have hmod : i % 2 ^ w = l.val := by rw [←hi,mul_add_lane_mod]
        rw [if_pos hdiv,if_pos hi,PackedField.set,if_pos hmod.symm]
      · rw [if_neg hi]
        split
        · rename_i hdiv
          have hmod : l.val ≠ i % 2 ^ w := fun h => hi (by
            rw [h,←hdiv,mul_comm,Nat.div_add_mod])
          rw [PackedField.set,if_neg hmod]
        · rfl
    have hp' : p < (elements.modify (i / 2 ^ w) fun packed => packed.set (i % 2 ^ w) 0).length := by
      rwa [length_modify]
    rw [restoreZeros,foldl_cons]
    refine (ih hp').trans ?_
    rw [hset]
    by_cases hmem : p * 2 ^ w + l.val ∈ zeroIndices
    · rw [if_pos hmem,if_pos (mem_cons_of_mem _ hmem)]
    · by_cases hi : p * 2 ^ w + l.val = i
      · rw [if_neg hmem,if_pos hi,if_pos (by rw [hi]; exact mem_cons_self)]
      · rw [if_neg hmem,if_neg hi,if_neg fun h => (mem_cons.mp h).elim hi hmem]

theorem mem_zerosOf {p : ℕ} (hp : p < elements.length) (l : Fin (2 ^ w)) :
    p * 2 ^ w + l.val ∈ zerosOf elements ↔ elements.getD p 0 l = 0 := by
  have hget : (elements.getD p 0).get l = elements.getD p 0 l := PackedField.get_of_lt _ l.isLt
  rw [zerosOf,mem_flatMap]
  constructor
  · rintro ⟨⟨packed,i⟩,hentry,hlane⟩
    obtain ⟨lane,hlane,heq⟩ := mem_map.mp hlane
    obtain ⟨hlt,hzero⟩ := mem_filter.mp hlane
    have hlt : lane < 2 ^ w := mem_range.mp hlt
    have hi : i = p := by rw [←mul_add_lane_div p l,←heq,mul_add_lane_div i ⟨lane,hlt⟩]
    have hl : lane = l.val := by rw [←mul_add_lane_mod p l,←heq,mul_add_lane_mod i ⟨lane,hlt⟩]
    have hpacked := mem_zipIdx_iff_getElem?.mp hentry
    dsimp only at hpacked
    rw [hi,getElem?_eq_getElem hp] at hpacked
    rw [←hget,getD_eq_getElem _ _ hp,Option.some.inj hpacked,←hl]
    exact of_decide_eq_true hzero
  · intro hzero
    refine ⟨(elements[p],p),mem_zipIdx_iff_getElem?.mpr (getElem?_eq_getElem hp),
      mem_map.mpr ⟨l.val,mem_filter.mpr ⟨mem_range.mpr l.isLt,?_⟩,rfl⟩⟩
    rw [←hget,getD_eq_getElem _ _ hp] at hzero
    exact decide_eq_true hzero

theorem invertOrZero_ok {context : BatchInversion w F} {elements : List (PackedField w F)}
    (hpos : 0 < context.n) (hscratch : context.scratchpad.length = minScratchpadSize context.n)
    (hlen : elements.length = context.n) :
    ∃ next : BatchInversion w F, context.invertOrZero elements = .ok (elements.map (·⁻¹),next) ∧
      next.n = context.n ∧ next.scratchpad.length = minScratchpadSize context.n := by
  obtain ⟨swapped,hswapped⟩ : ∃ swapped : List (PackedField w F),
      swapped = elements.map fun packed lane => if packed lane = 0 then 1 else packed lane := ⟨_,rfl⟩
  have hsize : swapped.length = context.n := by rw [hswapped,length_map,hlen]
  have hlane (p : ℕ) (hp : p < elements.length) (l : Fin (2 ^ w)) : swapped.getD p 0 l =
      if elements.getD p 0 l = 0 then 1 else elements.getD p 0 l := by
    rw [hswapped,getD_eq_getElem _ _ (by rwa [length_map]),getElem_map,getD_eq_getElem _ _ hp]
  obtain ⟨scratchpad,hrun,hscratchpad⟩ := batchInvert_ok swapped context.scratchpad (by omega)
    (by rw [hsize,hscratch]) fun p hp l => by
      rw [hlane p (by omega) l]
      split
      · exact one_ne_zero
      · assumption
  have hrestored : restoreZeros (zerosOf elements) (swapped.map (·⁻¹)) = elements.map (·⁻¹) := by
    refine ext_getD (by rw [length_restoreZeros,length_map,length_map]; omega) fun p hp => ?_
    rw [length_restoreZeros,length_map] at hp
    have hp' : p < elements.length := by omega
    funext l
    rw [restoreZeros_getD _ (by rwa [length_map]),inverses_getD,inverses_getD,Pi.inv_apply,Pi.inv_apply,
      hlane p hp' l]
    by_cases hzero : elements.getD p 0 l = 0
    · rw [if_pos ((mem_zerosOf hp' l).mpr hzero),hzero,inv_zero]
    · rw [if_neg fun h => hzero ((mem_zerosOf hp' l).mp h),if_neg hzero]
  refine ⟨⟨context.n,scratchpad,zerosOf elements⟩,?_,rfl,by rw [hscratchpad,hscratch]⟩
  rw [invertOrZero,require_true hlen,ok_bind]
  dsimp only
  rw [←hswapped,invertNonzero,require_true hsize,ok_bind,hrun,ok_bind]
  change Except.ok (restoreZeros (zerosOf elements) (swapped.map (·⁻¹)),_) = _
  rw [hrestored]

theorem invertAll_ok (batches : List (List (PackedField w F))) (context : BatchInversion w F)
    (hpos : 0 < context.n) (hscratch : context.scratchpad.length = minScratchpadSize context.n)
    (hlen : ∀ batch ∈ batches, batch.length = context.n) :
    context.invertAll batches = .ok (batches.map (·.map (·⁻¹))) := by
  induction batches generalizing context with
  | nil => rfl
  | cons batch batches ih =>
    obtain ⟨next,hrun,hn,hnext⟩ := invertOrZero_ok hpos hscratch (hlen batch mem_cons_self)
    have hrest := ih next (by omega) (by rw [hnext,hn])
      fun batch hbatch => by rw [hn]; exact hlen batch (mem_cons_of_mem _ hbatch)
    rw [invertAll,hrun,ok_bind]
    change (next.invertAll batches >>= fun rest => pure (_ :: rest)) = _
    rw [hrest]
    rfl

theorem inversions_exact {n : ℕ} (hn : 0 < n) (batches : List (List (PackedField w F)))
    (hlen : ∀ batch ∈ batches, batch.length = n) :
    (new n >>= fun context : BatchInversion w F => context.invertAll batches) =
      .ok (batches.map fun batch => batch.map fun packed lane =>
        if packed lane = 0 then 0 else (packed lane)⁻¹) := by
  have hall := invertAll_ok batches ⟨n,replicate (minScratchpadSize n) 0,[]⟩ hn
    length_replicate hlen
  rw [new,require_true hn]
  refine hall.trans (congrArg Except.ok (map_congr_left fun batch _ => map_congr_left fun packed _ => ?_))
  funext lane
  split
  · rename_i hzero
    rw [Pi.inv_apply,hzero,inv_zero]
  · rfl

/-- A zero and a two, and the other way round. -/
theorem inversions_exact_two :
    (new 2 >>= fun context : BatchInversion 0 ℚ => context.invertAll [[0,2],[2,0]]) =
      .ok (([[0,2],[2,0]] : List (List (PackedField 0 ℚ))).map fun batch => batch.map fun packed lane =>
        if packed lane = 0 then 0 else (packed lane)⁻¹) :=
  inversions_exact (w := 0) (F := ℚ) (by decide) [[0,2],[2,0]] (by simp)

end BatchInversion

end Binius64
