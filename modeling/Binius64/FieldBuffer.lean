import Binius64.EqualityTensor

/-!
# Buffers in packed words

A buffer of a power of two of scalars in packed words.
-/

namespace Binius64.Ntt

open EqualityTensor Finset List

variable {F : Type} {w : ℕ}

theorem wordIndex_lt {logLen x : ℕ} (hx : x < 2 ^ logLen) : x / 2 ^ w < 1 <<< (logLen - w) := by
  rw [Nat.shiftLeft_eq,one_mul]
  by_cases hw : w ≤ logLen
  · rw [Nat.div_lt_iff_lt_mul (Nat.two_pow_pos w),←pow_add,Nat.sub_add_cancel hw]
    exact hx
  · have hlow : x < 2 ^ w := hx.trans (Nat.pow_lt_pow_right Nat.one_lt_two (not_le.mp hw))
    rw [Nat.div_eq_of_lt hlow]
    exact Nat.two_pow_pos _

section Words

variable [Zero F]

def iterSlice {w : ℕ} (elems : List (PackedField w F)) : List F :=
  elems.flatMap fun elem => (List.range (2 ^ w)).map elem.get

variable (elems : List (PackedField w F))

theorem iterSlice_getD {r : ℕ} (hr : r / 2 ^ w < elems.length) :
    (iterSlice elems).getD r 0 = elems[r / 2 ^ w].get (r % 2 ^ w) := by
  induction elems generalizing r with
  | nil => exact absurd hr (Nat.not_lt_zero _)
  | cons elem elems ih =>
    have hlen : ((List.range (2 ^ w)).map elem.get).length = 2 ^ w := by
      rw [length_map,length_range]
    rw [iterSlice,flatMap_cons,getD_eq_getElem?_getD,getElem?_append,hlen]
    by_cases hlow : r < 2 ^ w
    · rw [if_pos hlow,getElem?_map,getElem?_range hlow,Option.map_some,Option.getD_some]
      simp only [Nat.div_eq_of_lt hlow,Nat.mod_eq_of_lt hlow,getElem_cons_zero]
    · have hge := not_lt.mp hlow
      have hdiv : r / 2 ^ w = (r - 2 ^ w) / 2 ^ w + 1 := by
        conv_lhs => rw [←Nat.sub_add_cancel hge,Nat.add_div_right _ (Nat.two_pow_pos w)]
      have hmod : (r - 2 ^ w) % 2 ^ w = r % 2 ^ w := by
        conv_rhs => rw [←Nat.sub_add_cancel hge,Nat.add_mod_right]
      have hlt : (r - 2 ^ w) / 2 ^ w < elems.length := by
        rw [hdiv,length_cons] at hr
        omega
      rw [if_neg hlow,←getD_eq_getElem?_getD]
      simp only [hdiv,getElem_cons_succ]
      exact (ih hlt).trans (by rw [hmod])

theorem iterSlice_length :
    (iterSlice elems).length = elems.length * 2 ^ w := by
  simp [iterSlice,List.length_flatMap]

theorem iterSlice_getD_getD (r : ℕ) :
    (iterSlice elems).getD r 0 = (elems.getD (r / 2 ^ w) 0).get (r % 2 ^ w) := by
  by_cases hr : r / 2 ^ w < elems.length
  · rw [iterSlice_getD elems hr,getD_eq_getElem _ _ hr]
  · have hpast : (iterSlice elems).length ≤ r := by
      rw [iterSlice_length]
      exact (Nat.le_div_iff_mul_le (Nat.two_pow_pos w)).mp (not_lt.mp hr)
    rw [getD_eq_default _ _ hpast,getD_eq_default _ _ (not_lt.mp hr),PackedField.get]
    split <;> rfl

end Words

structure FieldBuffer (w : ℕ) (F : Type) where
  logLen : ℕ
  words : List (PackedField w F)
  words_length : words.length = 1 <<< (logLen - w)

namespace FieldBuffer

variable [Field F]

/-- The number of scalars. -/
def len (buffer : FieldBuffer w F) : ℕ := 1 <<< buffer.logLen

/-- The scalar in a lane of a word, without a check. -/
def scalar (buffer : FieldBuffer w F) (index : ℕ) : F :=
  (buffer.words.getD (index / 2 ^ w) 0).get (index % 2 ^ w)

def get (buffer : FieldBuffer w F) (index : ℕ) : Option F := do
  guard (index < buffer.len)
  return buffer.scalar index

def set (buffer : FieldBuffer w F) (index : ℕ) (value : F) : Option (FieldBuffer w F) := do
  guard (index < buffer.len)
  return {
    logLen := buffer.logLen
    words := buffer.words.modify (index / 2 ^ w) fun word => word.set (index % 2 ^ w) value
    words_length := (length_modify ..).trans buffer.words_length }

def zeros (logLen : ℕ) : FieldBuffer w F := ⟨logLen,List.replicate (1 <<< (logLen - w)) 0,length_replicate⟩

def scalars (buffer : FieldBuffer w F) : List F := (List.range (2 ^ buffer.logLen)).map buffer.scalar

def mle (buffer : FieldBuffer w F) (point : List F) : F :=
  ∑ x ∈ range (2 ^ buffer.logLen), eqTensor point x * buffer.scalar x

def innerProduct (a b : FieldBuffer w F) : F := ∑ x ∈ range (2 ^ a.logLen), a.scalar x * b.scalar x

variable (buffer : FieldBuffer w F) {x : ℕ}

theorem scalars_length : buffer.scalars.length = 2 ^ buffer.logLen := by
  rw [scalars,length_map,length_range]

theorem scalars_getD (hx : x < 2 ^ buffer.logLen) :
    buffer.scalars.getD x 0 = buffer.scalar x := by
  rw [scalars,getD_eq_getElem?_getD,getElem?_map,getElem?_range hx]
  rfl

theorem zeros_scalar (logLen x : ℕ) : (zeros logLen : FieldBuffer w F).scalar x = 0 := by
  have hword : ∀ n, (List.replicate n (0 : PackedField w F)).getD (x / 2 ^ w) 0 = 0 := by
    intro n
    rw [getD_eq_getElem?_getD,getElem?_replicate]
    split <;> rfl
  rw [scalar,zeros,hword,PackedField.get]
  split <;> rfl

omit [Field F] in
theorem word_lt (hx : x < 2 ^ buffer.logLen) :
    x / 2 ^ w < buffer.words.length := by
  rw [buffer.words_length]
  exact wordIndex_lt hx

theorem iterSlice_words (hx : x < 2 ^ buffer.logLen) :
    (iterSlice buffer.words).getD x 0 = buffer.scalar x := by
  rw [iterSlice_getD _ (buffer.word_lt hx),scalar,getD_eq_getElem _ _ (buffer.word_lt hx)]

theorem get_of_lt (hx : x < 2 ^ buffer.logLen) :
    buffer.get x = some (buffer.scalar x) := by
  have hlen : x < buffer.len := by
    rw [len,Nat.shiftLeft_eq,one_mul]
    exact hx
  rw [get,guard,if_pos hlen]
  rfl

theorem set_of_lt {index : ℕ} (hindex : index < 2 ^ buffer.logLen) (value : F) :
    ∃ r, buffer.set index value = some r ∧ r.logLen = buffer.logLen ∧
      ∀ x, r.scalar x = if x = index then value else buffer.scalar x := by
  have hlen : index < buffer.len := by
    rw [len,Nat.shiftLeft_eq,one_mul]
    exact hindex
  have hset : buffer.set index value = some ⟨buffer.logLen,
      buffer.words.modify (index / 2 ^ w) fun word => word.set (index % 2 ^ w) value,
      (length_modify ..).trans buffer.words_length⟩ := by
    rw [set,guard,if_pos hlen]
    rfl
  refine ⟨_,hset,rfl,fun x => ?_⟩
  have hword := buffer.word_lt hindex
  have hsplit : x = index ↔ index / 2 ^ w = x / 2 ^ w ∧ x % 2 ^ w = index % 2 ^ w := by
    refine ⟨fun h => by rw [h]; exact ⟨rfl,rfl⟩,fun h => ?_⟩
    rw [←Nat.div_add_mod x (2 ^ w),←h.1,h.2,Nat.div_add_mod]
  have hlane : x % 2 ^ w < 2 ^ w := Nat.mod_lt _ (Nat.two_pow_pos w)
  simp only [scalar,getD_eq_getElem?_getD,getElem?_modify]
  by_cases hsame : index / 2 ^ w = x / 2 ^ w
  · rw [←hsame,List.getElem?_eq_getElem hword,Option.map_eq_map,Option.map_some,Option.getD_some,
      Option.getD_some,if_pos rfl,PackedField.get,dif_pos hlane,PackedField.set,PackedField.get,dif_pos hlane]
    exact if_congr ⟨fun h => hsplit.mpr ⟨hsame,h⟩,fun h => (hsplit.mp h).2⟩ rfl rfl
  · rw [if_neg fun h => hsame (hsplit.mp h).1]
    cases buffer.words[x / 2 ^ w]? with
    | none => rfl
    | some word => rw [Option.map_eq_map,Option.map_some,if_neg hsame]

end FieldBuffer

end Binius64.Ntt
