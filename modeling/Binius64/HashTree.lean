import Mathlib.Data.Nat.Bitwise

/-!
# Binary hash trees

Layers of digests folded pairwise by an arbitrary two-to-one compression, the climb from one digest
along the bits of its index, and the pairs either of them hands to the compression.
-/

namespace Binius64.HashTree

open List

variable {D : Type} (compress : D × D → D)

/-- The neighbours of a layer, two by two; an odd digest at the end is left out. -/
def pairs : List D → List (D × D)
  | left :: right :: rest => (left,right) :: pairs rest
  | _ => []

def parents (layer : List D) : List D := (pairs layer).map compress

def levelAbove (layer : List D) : ℕ → List D
  | 0 => layer
  | k + 1 => levelAbove (parents compress layer) k

/-- Every pair compressed on the way a number of levels up. -/
def foldedPairs (layer : List D) : ℕ → List (D × D)
  | 0 => []
  | k + 1 => pairs layer ++ foldedPairs (parents compress layer) k

def ordered (index : ℕ) (digest sibling : D) : D × D :=
  if index % 2 = 0 then (digest,sibling) else (sibling,digest)

/-- Climb one level for every sibling, consuming the low bit of the index each time. -/
def climb : ℕ → D → List D → D
  | _, digest, [] => digest
  | index, digest, sibling :: rest =>
    climb (index / 2) (compress (ordered index digest sibling)) rest

def climbedPairs : ℕ → D → List D → List (D × D)
  | _, _, [] => []
  | index, digest, sibling :: rest =>
    ordered index digest sibling ::
      climbedPairs (index / 2) (compress (ordered index digest sibling)) rest

/-- Two evaluations compress different pairs, one in each, to one output. -/
def PairCollision (left right : List (D × D)) : Prop :=
  ∃ p ∈ left, ∃ q ∈ right, p ≠ q ∧ compress p = compress q

@[simp] theorem pairs_length (layer : List D) : (pairs layer).length = layer.length / 2 := by
  induction layer using pairs.induct with
  | case1 left right rest ih =>
    rw [pairs,length_cons,ih,length_cons,length_cons]
    omega
  | case2 layer h =>
    rcases layer with _ | ⟨a,_ | ⟨b,rest⟩⟩
    · simp [pairs]
    · simp [pairs]
    · exact absurd rfl (h a b rest)

@[simp] theorem parents_length (layer : List D) :
    (parents compress layer).length = layer.length / 2 := by
  rw [parents,length_map,pairs_length]

variable (layer : List D) {m index : ℕ} {digest : D}

theorem pairs_getElem? (j : ℕ) {left right : D}
    (hl : layer[2 * j]? = some left) (hr : layer[2 * j + 1]? = some right) :
    (pairs layer)[j]? = some (left,right) := by
  induction layer using pairs.induct generalizing j with
  | case1 a b rest ih =>
    cases j with
    | zero =>
      simp only [Nat.mul_zero,Nat.zero_add,getElem?_cons_zero,getElem?_cons_succ,
        Option.some.injEq] at hl hr
      rw [pairs,getElem?_cons_zero,hl,hr]
    | succ j =>
      have he : 2 * (j + 1) = 2 * j + 1 + 1 := by omega
      rw [he,getElem?_cons_succ,getElem?_cons_succ] at hl
      rw [he,getElem?_cons_succ,getElem?_cons_succ] at hr
      rw [pairs,getElem?_cons_succ]
      exact ih j hl hr
  | case2 layer h =>
    rcases layer with _ | ⟨a,_ | ⟨b,rest⟩⟩
    · simp at hl
    · simp at hr
    · exact absurd rfl (h a b rest)

theorem parents_getElem? (j : ℕ) {left right : D}
    (hl : layer[2 * j]? = some left) (hr : layer[2 * j + 1]? = some right) :
    (parents compress layer)[j]? = some (compress (left,right)) := by
  rw [parents,getElem?_map,pairs_getElem? layer j hl hr,Option.map_some]

theorem parents_take (n : ℕ) :
    parents compress (layer.take (2 * n)) = (parents compress layer).take n := by
  induction layer using pairs.induct generalizing n with
  | case1 a b rest ih =>
    cases n with
    | zero => rfl
    | succ n =>
      have he : 2 * (n + 1) = 2 * n + 1 + 1 := by omega
      have hs := ih n
      simp only [parents] at hs
      rw [he,take_succ_cons,take_succ_cons]
      simp only [parents,pairs,map_cons,take_succ_cons,hs]
  | case2 layer h =>
    rcases layer with _ | ⟨a,_ | ⟨b,rest⟩⟩
    · simp [parents,pairs]
    · rcases n with _ | n
      · rfl
      · have he : 2 * (n + 1) = 2 * n + 1 + 1 := by omega
        rw [he]
        simp [parents,pairs]
    · exact absurd rfl (h a b rest)

theorem parents_drop (n : ℕ) :
    parents compress (layer.drop (2 * n)) = (parents compress layer).drop n := by
  induction layer using pairs.induct generalizing n with
  | case1 a b rest ih =>
    cases n with
    | zero => rfl
    | succ n =>
      have he : 2 * (n + 1) = 2 * n + 1 + 1 := by omega
      rw [he,drop_succ_cons,drop_succ_cons,ih n]
      simp only [parents,pairs,map_cons,drop_succ_cons]
  | case2 layer h =>
    rcases layer with _ | ⟨a,_ | ⟨b,rest⟩⟩
    · simp [parents,pairs]
    · rcases n with _ | n
      · rfl
      · have he : 2 * (n + 1) = 2 * n + 1 + 1 := by omega
        rw [he]
        simp [parents,pairs]
    · exact absurd rfl (h a b rest)

theorem levelAbove_add (j k : ℕ) :
    levelAbove compress layer (j + k) = levelAbove compress (levelAbove compress layer j) k := by
  induction j generalizing layer with
  | zero => rw [Nat.zero_add,levelAbove]
  | succ j ih =>
    rw [Nat.succ_add,levelAbove,ih,levelAbove]

theorem levelAbove_succ (k : ℕ) :
    levelAbove compress layer (k + 1) = parents compress (levelAbove compress layer k) := by
  rw [levelAbove_add compress layer k 1]
  rfl

theorem levelAbove_length {k : ℕ} (h : layer.length = 2 ^ m) (hk : k ≤ m) :
    (levelAbove compress layer k).length = 2 ^ (m - k) := by
  induction k generalizing layer m with
  | zero => exact h
  | succ k ih =>
    obtain ⟨m,rfl⟩ : ∃ n, m = n + 1 := ⟨m - 1,by omega⟩
    have hp : (parents compress layer).length = 2 ^ m := by
      rw [parents_length,h,pow_succ,Nat.mul_div_cancel _ (by omega)]
    rw [levelAbove,ih _ hp (by omega)]
    congr 1
    omega

theorem exists_root (h : layer.length = 2 ^ m) :
    ∃ root, levelAbove compress layer m = [root] := by
  have hl := levelAbove_length compress layer h (le_refl m)
  rw [Nat.sub_self,pow_zero] at hl
  exact length_eq_one_iff.mp hl

/-- All layers one after another, widest first. -/
def flattened (layer : List D) : ℕ → List D
  | 0 => layer
  | m + 1 => layer ++ flattened (parents compress layer) m

theorem flattened_length (h : layer.length = 2 ^ m) :
    (flattened compress layer m).length = 2 ^ (m + 1) - 1 := by
  induction m generalizing layer with
  | zero =>
    rw [flattened,h]
    rfl
  | succ m ih =>
    have hp : (parents compress layer).length = 2 ^ m := by
      rw [parents_length,h,pow_succ,Nat.mul_div_cancel _ (by omega)]
    have hpos := Nat.one_le_two_pow (n := m + 1)
    rw [flattened,length_append,ih _ hp,h,pow_succ 2 (m + 1)]
    omega

def layerStart (m k : ℕ) : ℕ := 2 ^ (m + 1) - 2 ^ (m + 1 - k)

theorem layerStart_succ {k : ℕ} (hk : k ≤ m) :
    layerStart m (k + 1) = layerStart m k + 2 ^ (m - k) := by
  have hpow : 2 ^ (m + 1 - k) = 2 ^ (m - k) + 2 ^ (m - k) := by
    rw [show m + 1 - k = m - k + 1 by omega,pow_succ]
    omega
  have hle : 2 ^ (m + 1 - k) ≤ 2 ^ (m + 1) := Nat.pow_le_pow_right (by omega) (by omega)
  have hpos := Nat.one_le_two_pow (n := m)
  rw [layerStart,layerStart,show m + 1 - (k + 1) = m - k by omega]
  omega

theorem flattened_getElem? {k j : ℕ} (h : layer.length = 2 ^ m) (hk : k ≤ m)
    (hj : j < 2 ^ (m - k)) :
    (flattened compress layer m)[layerStart m k + j]? = (levelAbove compress layer k)[j]? := by
  induction k generalizing layer m with
  | zero =>
    rw [layerStart,Nat.sub_zero,Nat.sub_self,Nat.zero_add,levelAbove]
    cases m with
    | zero => rw [flattened]
    | succ m =>
      rw [Nat.sub_zero] at hj
      rw [flattened,getElem?_append_left (by rw [h]; exact hj)]
  | succ k ih =>
    obtain ⟨m,rfl⟩ : ∃ n, m = n + 1 := ⟨m - 1,by omega⟩
    have hp : (parents compress layer).length = 2 ^ m := by
      rw [parents_length,h,pow_succ,Nat.mul_div_cancel _ (by omega)]
    have hle : 2 ^ (m + 1 - k) ≤ 2 ^ (m + 1) := Nat.pow_le_pow_right (by omega) (by omega)
    have hstart : layerStart (m + 1) (k + 1) = 2 ^ (m + 1) + layerStart m k := by
      rw [layerStart,layerStart,show m + 1 + 1 - (k + 1) = m + 1 - k by omega,pow_succ 2 (m + 1)]
      omega
    rw [hstart,flattened,getElem?_append_right (by rw [h]; omega),h,levelAbove,
      ←ih (parents compress layer) hp (by omega) (by rwa [show m + 1 - (k + 1) = m - k by omega] at hj)]
    congr 1
    omega

theorem exists_layer {p : ℕ} (h : p < 2 ^ (m + 1) - 1) :
    ∃ k j, k ≤ m ∧ j < 2 ^ (m - k) ∧ p = layerStart m k + j := by
  have hq : 2 ^ (m + 1) - 1 - p ≠ 0 := by omega
  have hlow := Nat.log2_self_le hq
  have hhigh : 2 ^ (m + 1) - 1 - p < 2 ^ ((2 ^ (m + 1) - 1 - p).log2 + 1) := Nat.lt_log2_self
  have hd : (2 ^ (m + 1) - 1 - p).log2 < m + 1 :=
    (Nat.pow_lt_pow_iff_right (by omega : 1 < 2)).mp (by omega)
  generalize (2 ^ (m + 1) - 1 - p).log2 = d at hlow hhigh hd
  have hle : 2 ^ (d + 1) ≤ 2 ^ (m + 1) := Nat.pow_le_pow_right (by omega) (by omega)
  rw [pow_succ] at hhigh hle
  have hstart : layerStart m (m - d) = 2 ^ (m + 1) - 2 * 2 ^ d := by
    rw [layerStart,show m + 1 - (m - d) = d + 1 by omega,pow_succ 2 d,Nat.mul_comm]
  refine ⟨m - d,p - layerStart m (m - d),by omega,?_,?_⟩
  · rw [show m - (m - d) = d by omega,hstart]
    omega
  · rw [hstart]
    omega

def sibling (index : ℕ) : ℕ := index ^^^ 1

theorem sibling_of_even (h : index % 2 = 0) : sibling index = index + 1 :=
  Nat.xor_one_of_even (Nat.even_iff.mpr h)

theorem sibling_of_odd (h : index % 2 = 1) : sibling index = index - 1 :=
  Nat.xor_one_of_odd (Nat.odd_iff.mpr h)

theorem sibling_lt (h : index < 2 ^ (m + 1)) : sibling index < 2 ^ (m + 1) := by
  have hp : 2 ^ (m + 1) = 2 * 2 ^ m := by rw [pow_succ,Nat.mul_comm]
  rcases Nat.mod_two_eq_zero_or_one index with he | ho
  · rw [sibling_of_even he]
    omega
  · rw [sibling_of_odd ho]
    omega

def IsBranch (layer : List D) (index : ℕ) (siblings : List D) : Prop :=
  ∀ j, j < siblings.length →
    siblings[j]? = (levelAbove compress layer j)[sibling (index / 2 ^ j)]?

theorem ordered_pair {layer : List D} {other : D}
    (hd : layer[index]? = some digest) (hs : layer[sibling index]? = some other) :
    (pairs layer)[index / 2]? = some (ordered index digest other) := by
  rcases Nat.mod_two_eq_zero_or_one index with he | ho
  · have hi : index = 2 * (index / 2) := by omega
    rw [sibling_of_even he] at hs
    rw [ordered,if_pos he]
    apply pairs_getElem?
    · rwa [←hi]
    · rwa [←hi]
  · have hi : index = 2 * (index / 2) + 1 := by omega
    rw [sibling_of_odd ho] at hs
    rw [ordered,if_neg (by omega)]
    apply pairs_getElem?
    · rwa [show 2 * (index / 2) = index - 1 by omega]
    · rwa [←hi]

theorem climb_branch {layer : List D} {siblings : List D}
    (hd : layer[index]? = some digest) (hb : IsBranch compress layer index siblings) :
    (levelAbove compress layer siblings.length)[index / 2 ^ siblings.length]? =
        some (climb compress index digest siblings) ∧
      climbedPairs compress index digest siblings ⊆
        foldedPairs compress layer siblings.length := by
  induction siblings generalizing layer index digest with
  | nil =>
    refine ⟨?_,nil_subset _⟩
    rw [length_nil,pow_zero,Nat.div_one]
    exact hd
  | cons other rest ih =>
    have hfirst := hb 0 (by simp)
    rw [getElem?_cons_zero,pow_zero,Nat.div_one,levelAbove] at hfirst
    have hpair := ordered_pair hd hfirst.symm
    have hup : (parents compress layer)[index / 2]? =
        some (compress (ordered index digest other)) := by
      rw [parents,getElem?_map,hpair,Option.map_some]
    have hrest : IsBranch compress (parents compress layer) (index / 2) rest := by
      intro j hj
      have h := hb (j + 1) (by rw [length_cons]; omega)
      rw [getElem?_cons_succ,levelAbove] at h
      rw [h,Nat.div_div_eq_div_mul,←pow_succ']
    obtain ⟨he,hp⟩ := ih hup hrest
    constructor
    · rw [length_cons,levelAbove,pow_succ',←Nat.div_div_eq_div_mul]
      exact he
    · rw [climbedPairs,length_cons,foldedPairs]
      apply cons_subset.mpr
      constructor
      · exact mem_append_left _ (mem_of_getElem? hpair)
      · exact fun p h => mem_append_right _ (hp h)

theorem exists_branch {layer : List D} {k : ℕ} (h : layer.length = 2 ^ m) (hk : k ≤ m)
    (hi : index < 2 ^ m) :
    ∃ siblings : List D, siblings.length = k ∧ IsBranch compress layer index siblings := by
  induction k generalizing layer m index with
  | zero => exact ⟨[],rfl,fun j hj => absurd hj (by simp)⟩
  | succ k ih =>
    obtain ⟨m,rfl⟩ : ∃ n, m = n + 1 := ⟨m - 1,by omega⟩
    have hp : (parents compress layer).length = 2 ^ m := by
      rw [parents_length,h,pow_succ,Nat.mul_div_cancel _ (by omega)]
    have hi' : index / 2 < 2 ^ m := by
      rw [pow_succ] at hi
      omega
    obtain ⟨rest,hl,hb⟩ := ih hp (by omega) hi'
    have hs : sibling index < layer.length := h ▸ sibling_lt hi
    refine ⟨layer[sibling index] :: rest,by rw [length_cons,hl],?_⟩
    intro j hj
    cases j with
    | zero =>
      rw [getElem?_cons_zero,levelAbove,pow_zero,Nat.div_one,getElem?_eq_getElem hs]
    | succ j =>
      rw [length_cons] at hj
      rw [getElem?_cons_succ,levelAbove,hb j (by omega),Nat.div_div_eq_div_mul,←pow_succ']

theorem climb_append (index : ℕ) (digest : D) (front back : List D) :
    climb compress index digest (front ++ back) =
      climb compress (index / 2 ^ front.length) (climb compress index digest front) back := by
  induction front generalizing index digest with
  | nil => rw [nil_append,length_nil,pow_zero,Nat.div_one,climb]
  | cons other rest ih =>
    rw [cons_append,climb,ih,climb,length_cons,Nat.div_div_eq_div_mul,←pow_succ']

theorem climbedPairs_append (index : ℕ) (digest : D) (front back : List D) :
    climbedPairs compress index digest (front ++ back) =
      climbedPairs compress index digest front ++
        climbedPairs compress (index / 2 ^ front.length) (climb compress index digest front)
          back := by
  induction front generalizing index digest with
  | nil =>
    rw [nil_append,length_nil,pow_zero,Nat.div_one,climb,climbedPairs,nil_append]
  | cons other rest ih =>
    rw [cons_append,climbedPairs,ih,climbedPairs,climb,length_cons,
      Nat.div_div_eq_div_mul,←pow_succ',cons_append]

theorem ordered_inj {digest' other other' : D}
    (h : ordered index digest other = ordered index digest' other') : digest = digest' := by
  rcases Nat.mod_two_eq_zero_or_one index with he | ho
  · rw [ordered,ordered,if_pos he,if_pos he] at h
    exact congrArg Prod.fst h
  · rw [ordered,ordered,if_neg (by omega),if_neg (by omega)] at h
    exact congrArg Prod.snd h

theorem climb_collision {digest' : D} {siblings siblings' : List D}
    (hl : siblings.length = siblings'.length) (hne : digest ≠ digest')
    (h : climb compress index digest siblings = climb compress index digest' siblings') :
    PairCollision compress (climbedPairs compress index digest siblings)
      (climbedPairs compress index digest' siblings') := by
  induction siblings generalizing index digest digest' siblings' with
  | nil =>
    cases siblings' with
    | nil => exact absurd h hne
    | cons other' rest' => exact absurd hl (by simp)
  | cons other rest ih =>
    cases siblings' with
    | nil => exact absurd hl (by simp)
    | cons other' rest' =>
      have hpair : ordered index digest other ≠ ordered index digest' other' :=
        fun he => hne (ordered_inj he)
      by_cases hc : compress (ordered index digest other) =
          compress (ordered index digest' other')
      · exact ⟨_,mem_cons_self,_,mem_cons_self,hpair,hc⟩
      · have hlen : rest.length = rest'.length := by
          rw [length_cons,length_cons] at hl
          omega
        obtain ⟨p,hp,q,hq,hpq⟩ := ih hlen hc h
        exact ⟨p,mem_cons_of_mem _ hp,q,mem_cons_of_mem _ hq,hpq⟩

theorem PairCollision.mono {left right left' right' : List (D × D)}
    (h : PairCollision compress left right) (hl : left ⊆ left') (hr : right ⊆ right') :
    PairCollision compress left' right' := by
  obtain ⟨p,hp,q,hq,hpq⟩ := h
  exact ⟨p,hl hp,q,hr hq,hpq⟩

end Binius64.HashTree
