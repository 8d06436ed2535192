import Binius64.MachineWord

/-!
# Shifts and their composition

The eight shift variants, a shift as a variant with an amount, and the merge rule that folds two
shifts into one, clears the word, or keeps both slots.
-/

namespace Binius64.ShiftAlgebra

open MachineWord
open Bool (false_eq_true)
open Option (bind_some ite_none_right_eq_some)

set_option linter.unusedSimpArgs false

inductive ShiftVariant where
  | sll
  | slr
  | sar
  | rotr
  /-- Shift logical left on 32-bit halves. -/
  | sll32
  /-- Shift logical right on 32-bit halves. -/
  | srl32
  /-- Shift arithmetic right on 32-bit halves. -/
  | sra32
  /-- Rotate right on 32-bit halves. -/
  | rotr32
deriving DecidableEq

namespace ShiftVariant

/-- The discriminant byte. -/
def toU8 : ShiftVariant → ℕ
  | sll => 0
  | slr => 1
  | sar => 2
  | rotr => 3
  | sll32 => 4
  | srl32 => 5
  | sra32 => 6
  | rotr32 => 7

def fromU8 : ℕ → Option ShiftVariant
  | 0 => some sll
  | 1 => some slr
  | 2 => some sar
  | 3 => some rotr
  | 4 => some sll32
  | 5 => some srl32
  | 6 => some sra32
  | 7 => some rotr32
  | _ => none

@[simp] theorem fromU8_toU8 (v : ShiftVariant) : fromU8 v.toU8 = some v := by
  cases v <;> rfl

theorem toU8_of_fromU8 {b : ℕ} {v : ShiftVariant} (h : fromU8 b = some v) : v.toU8 = b := by
  unfold fromU8 at h
  split at h <;> cases h <;> rfl

variable (v : ShiftVariant)

theorem toU8_lt : v.toU8 < 256 := by
  cases v <;> decide

/-- Whether the variant operates on the two 32-bit halves independently. -/
def isHalfWord : ShiftVariant → Bool
  | sll32 | srl32 | sra32 | rotr32 => true
  | _ => false

/-- Whether the variant wraps the bits it moves out. -/
def isCyclic : ShiftVariant → Bool
  | rotr | rotr32 => true
  | _ => false

def maxAmount (v : ShiftVariant) : ℕ :=
  if v.isHalfWord then 32 else 64

def apply : ShiftVariant → Word → ℕ → Word
  | sll, w, n => w <<< n
  | slr, w, n => w >>> n
  | sar, w, n => MachineWord.sar w n
  | rotr, w, n => MachineWord.rotr w n
  | sll32, w, n => MachineWord.sll32 w n
  | srl32, w, n => MachineWord.srl32 w n
  | sra32, w, n => MachineWord.sra32 w n
  | rotr32, w, n => MachineWord.rotr32 w n

/-- The input position an output position copies, or nothing where a zero is shifted in. -/
def source (v : ShiftVariant) (n : ℕ) : ℕ → Option ℕ := fun i =>
  let base := i / v.maxAmount * v.maxAmount
  let out := i % v.maxAmount
  match v with
  | sll | sll32 => if n ≤ out then some (base + (out - n)) else none
  | slr | srl32 => if out + n < v.maxAmount then some (base + (out + n)) else none
  | sar | sra32 => some (base + min (out + n) (v.maxAmount - 1))
  | rotr | rotr32 => some (base + (out + n) % v.maxAmount)

theorem maxAmount_pos : 0 < v.maxAmount := by
  cases v <;> decide

theorem source_zero (i : ℕ) : v.source 0 i = some i := by
  cases v <;>
    simp only [source,maxAmount,isHalfWord,if_true,false_eq_true,if_false,Nat.zero_le,
      Nat.add_zero,Nat.sub_zero,ite_none_right_eq_some,Option.some.injEq] <;>
    omega

end ShiftVariant

variable (w : Word)

def readBit : Option ℕ → Bool
  | none => false
  | some j => w.getLsbD j

@[simp] theorem readBit_none : readBit w none = false := rfl

@[simp] theorem readBit_some (j : ℕ) : readBit w (some j) = w.getLsbD j := rfl

variable {v : ShiftVariant} {i : ℕ}

theorem source_lt {n j : ℕ} (hi : i < 64)
    (h : v.source n i = some j) : j < 64 := by
  cases v <;>
    simp only [ShiftVariant.source,ShiftVariant.maxAmount,ShiftVariant.isHalfWord,if_true,
      false_eq_true,if_false,ite_none_right_eq_some,Option.some.injEq] at h <;>
    omega

theorem apply_bit_full (hv : v.isHalfWord = false) (w : Word) {n : ℕ}
    (hn : n < 64) (hi : i < 64) :
    (v.apply w n).getLsbD i = readBit w (v.source n i) := by
  have hdiv : i / 64 * 64 = 0 := by omega
  have hmod : i % 64 = i := by omega
  cases v with
  | sll =>
    simp only [ShiftVariant.apply,ShiftVariant.source,ShiftVariant.maxAmount,hv,
      false_eq_true,if_false,hdiv,hmod,Nat.zero_add,BitVec.getLsbD_shiftLeft,hi,decide_true,
      Bool.true_and]
    by_cases h : n ≤ i
    · have hlt : ¬i < n := by omega
      simp only [h,if_true,hlt,decide_false,Bool.not_false,Bool.true_and,readBit_some]
    · have hlt : i < n := by omega
      simp only [h,if_false,hlt,decide_true,Bool.not_true,Bool.false_and,readBit_none]
  | slr =>
    simp only [ShiftVariant.apply,ShiftVariant.source,ShiftVariant.maxAmount,hv,
      false_eq_true,if_false,hdiv,hmod,Nat.zero_add,BitVec.getLsbD_ushiftRight]
    by_cases h : i + n < 64
    · simp only [h,if_true,readBit_some,Nat.add_comm n i]
    · simp only [h,if_false,readBit_none]
      exact BitVec.getLsbD_of_ge _ _ (by omega)
  | sar =>
    have hge : ¬64 ≤ i := by omega
    simp only [ShiftVariant.apply,MachineWord.sar,ShiftVariant.source,ShiftVariant.maxAmount,hv,
      false_eq_true,if_false,hdiv,hmod,Nat.zero_add,BitVec.getLsbD_sshiftRight,hge,
      decide_false,Bool.not_false,Bool.true_and,readBit_some]
    by_cases h : n + i < 64
    · have hm : min (i + n) (64 - 1) = n + i := by omega
      simp only [h,if_true,hm]
    · have hm : min (i + n) (64 - 1) = 63 := by omega
      simp only [h,if_false,hm,BitVec.msb_eq_getLsbD_last]
  | rotr =>
    have hnm : n % 64 = n := by omega
    simp only [ShiftVariant.apply,MachineWord.rotr,ShiftVariant.source,ShiftVariant.maxAmount,hv,
      false_eq_true,if_false,hdiv,hmod,Nat.zero_add,BitVec.getLsbD_rotateRight,hnm,
      readBit_some,hi,decide_true,Bool.true_and]
    by_cases h : i < 64 - n
    · have hm : (i + n) % 64 = n + i := by omega
      simp only [h,decide_true,cond_true,hm]
    · have hm : (i + n) % 64 = i - (64 - n) := by omega
      simp only [h,decide_false,cond_false,hm]
  | sll32 | srl32 | sra32 | rotr32 => cases hv

theorem half_bit {j : ℕ} (hi : i < 64) (hj : j < 32) :
    (if i < 32 then (loHalf w).getLsbD j else (hiHalf w).getLsbD j) = w.getLsbD (i / 32 * 32 + j) := by
  rw [loHalf_bit,hiHalf_bit]
  by_cases h : i < 32
  · have hb : i / 32 * 32 + j = j := by omega
    simp only [h,if_true,hj,decide_true,Bool.true_and,hb]
  · have hb : i / 32 * 32 + j = 32 + j := by omega
    simp only [h,if_false,hj,decide_true,Bool.true_and,hb]

theorem lane_bit (op : BitVec 32 → BitVec 32) (hi : i < 64) :
    (ofHalves (op (loHalf w)) (op (hiHalf w))).getLsbD i =
      if i < 32 then (op (loHalf w)).getLsbD (i % 32) else (op (hiHalf w)).getLsbD (i % 32) := by
  rw [ofHalves_bit _ _ hi]
  by_cases h : i < 32
  · have hm : i % 32 = i := by omega
    simp only [h,if_true,hm]
  · have hm : i % 32 = i - 32 := by omega
    simp only [h,if_false,hm]

theorem apply_bit_half (hv : v.isHalfWord = true) (w : Word) {n : ℕ}
    (hn : n < 32) (hi : i < 64) :
    (v.apply w n).getLsbD i = readBit w (v.source n i) := by
  have hnm : n % 32 = n := by omega
  have ho : i % 32 < 32 := by omega
  cases v with
  | sll32 =>
    simp only [ShiftVariant.apply,MachineWord.sll32,ShiftVariant.source,ShiftVariant.maxAmount,hv,
      if_true,hnm]
    rw [lane_bit w (fun h => h <<< n) hi]
    simp only [BitVec.getLsbD_shiftLeft,ho,decide_true,Bool.true_and]
    by_cases h : n ≤ i % 32
    · have hlt : ¬i % 32 < n := by omega
      simp only [h,if_true,hlt,decide_false,Bool.not_false,Bool.true_and,readBit_some]
      exact half_bit w hi (by omega)
    · have hlt : i % 32 < n := by omega
      simp only [h,if_false,hlt,decide_true,Bool.not_true,Bool.false_and,ite_self,readBit_none]
  | srl32 =>
    simp only [ShiftVariant.apply,MachineWord.srl32,ShiftVariant.source,ShiftVariant.maxAmount,hv,
      if_true,hnm]
    rw [lane_bit w (fun h => h >>> n) hi]
    simp only [BitVec.getLsbD_ushiftRight]
    by_cases h : i % 32 + n < 32
    · simp only [h,if_true,readBit_some,Nat.add_comm n]
      exact half_bit w hi h
    · have hge : ∀ x : BitVec 32, x.getLsbD (n + i % 32) = false := fun x =>
        BitVec.getLsbD_of_ge x _ (by omega)
      simp only [h,if_false,hge,ite_self,readBit_none]
  | sra32 =>
    have hge : ¬32 ≤ i % 32 := by omega
    simp only [ShiftVariant.apply,MachineWord.sra32,ShiftVariant.source,ShiftVariant.maxAmount,hv,
      if_true,hnm]
    rw [lane_bit w (fun h => h.sshiftRight n) hi]
    simp only [BitVec.getLsbD_sshiftRight,hge,decide_false,Bool.not_false,Bool.true_and,
      readBit_some]
    by_cases h : n + i % 32 < 32
    · have hm : min (i % 32 + n) (32 - 1) = n + i % 32 := by omega
      simp only [h,if_true,hm]
      exact half_bit w hi h
    · have hm : min (i % 32 + n) (32 - 1) = 31 := by omega
      simp only [h,if_false,hm,BitVec.msb_eq_getLsbD_last]
      exact half_bit w hi (by omega)
  | rotr32 =>
    simp only [ShiftVariant.apply,MachineWord.rotr32,ShiftVariant.source,ShiftVariant.maxAmount,hv,
      if_true,hnm]
    rw [lane_bit w (fun h => h.rotateRight n) hi]
    simp only [BitVec.getLsbD_rotateRight,hnm,ho,decide_true,Bool.true_and,readBit_some]
    by_cases h : i % 32 < 32 - n
    · have hm : (i % 32 + n) % 32 = n + i % 32 := by omega
      simp only [h,decide_true,cond_true,hm]
      exact half_bit w hi (by omega)
    · have hm : (i % 32 + n) % 32 = i % 32 - (32 - n) := by omega
      simp only [h,decide_false,cond_false,hm]
      exact half_bit w hi (by omega)
  | sll | slr | sar | rotr => cases hv

theorem apply_bit (v : ShiftVariant) (w : Word) {n : ℕ} (hn : n < v.maxAmount) (hi : i < 64) :
    (v.apply w n).getLsbD i = readBit w (v.source n i) := by
  cases hv : v.isHalfWord with
  | false =>
    have h64 : n < 64 := by simpa only [ShiftVariant.maxAmount,hv,false_eq_true,if_false] using hn
    exact apply_bit_full hv w h64 hi
  | true =>
    have h32 : n < 32 := by simpa only [ShiftVariant.maxAmount,hv,if_true] using hn
    exact apply_bit_half hv w h32 hi

/-- One shift: an operation paired with the distance it moves by. -/
structure Shift where
  variant : ShiftVariant
  amount : ℕ
deriving DecidableEq

namespace Shift

/-- The canonical shift that leaves a word untouched. -/
def identity : Shift := ⟨.sll,0⟩

/-- The amount is below the variant's upper bound, as the source's constructor asserts. -/
def InRange (s : Shift) : Prop :=
  s.amount < s.variant.maxAmount

instance (s : Shift) : Decidable s.InRange :=
  inferInstanceAs (Decidable (_ < _))

/-- Whether this shift leaves every word untouched. -/
def isIdentity (s : Shift) : Bool :=
  s.amount == 0

/-- Whether this is the canonical spelling of the operation it denotes. -/
def isCanonical (s : Shift) : Bool :=
  !s.isIdentity || s.variant == .sll

def apply (s : Shift) (w : Word) : Word :=
  s.variant.apply w s.amount

def source (s : Shift) : ℕ → Option ℕ :=
  s.variant.source s.amount

@[simp] theorem identity_inRange : identity.InRange := by decide

@[simp] theorem isIdentity_iff (s : Shift) : s.isIdentity = true ↔ s.amount = 0 := by
  simp only [isIdentity,beq_iff_eq]

variable {s : Shift}

theorem apply_bit (hs : s.InRange) (w : Word) {i : ℕ} (hi : i < 64) :
    (s.apply w).getLsbD i = readBit w (s.source i) :=
  ShiftAlgebra.apply_bit s.variant w hs hi

theorem apply_apply_bit {inner outer : Shift} (hi : inner.InRange) (ho : outer.InRange)
    (w : Word) {i : ℕ} (h : i < 64) :
    (outer.apply (inner.apply w)).getLsbD i =
      readBit w ((outer.source i).bind inner.source) := by
  rw [apply_bit ho _ h]
  cases hs : outer.source i with
  | none => rfl
  | some j =>
    rw [readBit_some,bind_some]
    exact apply_bit hi w (source_lt h hs)

theorem apply_of_isIdentity (hs : s.isIdentity = true) (w : Word) :
    s.apply w = w := by
  obtain ⟨v,n⟩ := s
  simp only [isIdentity_iff] at hs
  subst hs
  apply BitVec.eq_of_getLsbD_eq
  intro i hi
  rw [apply_bit (s := ⟨v,0⟩) (ShiftVariant.maxAmount_pos v) w hi]
  simp only [source,ShiftVariant.source_zero,readBit_some]

@[simp] theorem identity_apply (w : Word) : identity.apply w = w :=
  apply_of_isIdentity rfl w

theorem apply_xor (hs : s.InRange) (v w : Word) :
    s.apply (v ^^^ w) = s.apply v ^^^ s.apply w := by
  apply BitVec.eq_of_getLsbD_eq
  intro i hi
  rw [BitVec.getLsbD_xor,apply_bit hs _ hi,apply_bit hs _ hi,apply_bit hs _ hi]
  cases s.source i with
  | none => rfl
  | some j => simp only [readBit_some,BitVec.getLsbD_xor]

@[simp] theorem apply_zero {s : Shift} (hs : s.InRange) : s.apply 0 = 0 := by
  have h := apply_xor hs 0 0
  rw [BitVec.xor_self,BitVec.xor_self] at h
  exact h

end Shift

/-- What the composition of two shifts denotes. -/
inductive Composition where
  /-- The two collapse to this single shift. -/
  | single (shift : Shift)
  | zero
  /-- The two do not collapse; both are needed. -/
  | pair
deriving DecidableEq

/-- Two shifts that chain, as the direction they move bits in and the distance
they cover together. -/
def chained (inner outer : Shift) : Option (ShiftVariant × ℕ) :=
  let distance := inner.amount + outer.amount
  if inner.variant = outer.variant then some (inner.variant,distance)
  else
    match inner.variant, outer.variant with
    | .slr, .sar => some (.slr,distance)
    | .srl32, .sra32 => some (.srl32,distance)
    | .sll, .sll32 => if 32 ≤ inner.amount then some (.sll,distance) else none
    | .sll32, .sll => if 32 ≤ outer.amount then some (.sll,distance) else none
    | .slr, .srl32 => if 32 ≤ inner.amount then some (.slr,distance) else none
    | .srl32, .slr => if 32 ≤ outer.amount then some (.slr,distance) else none
    | .sar, .sra32 => if 32 ≤ inner.amount then some (.sar,distance) else none
    | .sra32, .sar => if 32 ≤ outer.amount then some (.sar,distance) else none
    | .slr, .sra32 => if 33 ≤ inner.amount then some (.slr,distance) else none
    | .srl32, .sar => if 32 ≤ outer.amount then some (.slr,distance) else none
    | _, _ => none

/-- The single shift a composition collapses to because one shift has already
flattened the word past the other's notice. -/
def degenerate (inner outer : Shift) : Option Shift :=
  match inner.variant, outer.variant with
  | .sar, .rotr | .sar, .rotr32 => if inner.amount = 63 then some inner else none
  | .sra32, .rotr32 => if inner.amount = 31 then some inner else none
  | .sar, .slr | .sra32, .slr => if outer.amount = 63 then some outer else none
  | .sra32, .srl32 => if outer.amount = 31 then some outer else none
  | _, _ => none

/-- What a chained shift of the given total distance comes to, once its own
overflow rule applies. -/
def chainedComposition (variant : ShiftVariant) (distance : ℕ) : Composition :=
  let width := variant.maxAmount
  match variant with
  | .sll | .sll32 | .slr | .srl32 =>
    if distance < width then .single ⟨variant,distance⟩ else .zero
  | .sar | .sra32 => .single ⟨variant,min distance (width - 1)⟩
  | .rotr | .rotr32 =>
    if distance % width = 0 then .single Shift.identity else .single ⟨variant,distance % width⟩

def compose (inner outer : Shift) : Composition :=
  if inner.isIdentity then .single outer
  else if outer.isIdentity then .single inner
  else
    match degenerate inner outer with
    | some single => .single single
    | none =>
      match chained inner outer with
      | some (variant,distance) => chainedComposition variant distance
      | none => .pair

def Denotes (c : Composition) (inner outer : Shift) : Prop :=
  match c with
  | .single s => s.InRange ∧ ∀ i, i < 64 → s.source i = (outer.source i).bind inner.source
  | .zero => ∀ i, i < 64 → (outer.source i).bind inner.source = none
  | .pair => True

theorem guarded_congr {p q : Prop} [Decidable p] [Decidable q] {x y : ℕ}
    (hpq : p ↔ q) (hxy : p → x = y) :
    (if p then some x else none) = (if q then some y else none) := by
  by_cases hp : p
  · rw [if_pos hp,if_pos (hpq.mp hp),hxy hp]
  · rw [if_neg hp,if_neg (fun hq => hp (hpq.mpr hq))]

theorem guarded_bind {p r : Prop} [Decidable p] [Decidable r] {q : ℕ → Prop} [DecidablePred q]
    {f : ℕ → ℕ} {x y : ℕ} (hr : p ∧ q x ↔ r) (hxy : r → f x = y) :
    ((if p then some x else none).bind fun k => if q k then some (f k) else none) =
      (if r then some y else none) := by
  by_cases hp : p
  · rw [if_pos hp,bind_some]
    exact guarded_congr ⟨fun hq => hr.mp ⟨hp,hq⟩,fun h => (hr.mpr h).2⟩
      (fun hq => hxy (hr.mp ⟨hp,hq⟩))
  · rw [if_neg hp,Option.bind_none,if_neg (fun h => hp (hr.mpr h).1)]

theorem source_source (v : ShiftVariant) (n m : ℕ) (hi : i < 64) :
    (v.source m i).bind (v.source n) = v.source (n + m) i := by
  cases v with
  | sll | sll32 | slr | srl32 =>
    refine guarded_bind ?_ ?_ <;>
      simp only [ShiftVariant.maxAmount,ShiftVariant.isHalfWord,if_true,false_eq_true,
        if_false] <;> omega
  | sar | sra32 | rotr | rotr32 =>
    simp only [ShiftVariant.source,ShiftVariant.maxAmount,ShiftVariant.isHalfWord,if_true,
      false_eq_true,if_false,bind_some,Option.some.injEq]
    omega

variable {inner outer : Shift}

theorem chained_source {d : ℕ}
    (hi : inner.InRange) (ho : outer.InRange) (hi0 : inner.amount ≠ 0) (ho0 : outer.amount ≠ 0)
    (h : chained inner outer = some (v,d)) (h64 : i < 64) :
    (outer.source i).bind inner.source = v.source d i := by
  obtain ⟨vi,ni⟩ := inner
  obtain ⟨vo,no⟩ := outer
  by_cases hv : vi = vo
  · subst hv
    simp only [chained,if_true,Option.some.injEq,Prod.mk.injEq] at h
    obtain ⟨rfl,rfl⟩ := h
    exact source_source vi ni no h64
  · simp only [Shift.InRange] at hi ho hi0 ho0
    simp only [chained,hv,if_false] at h
    split at h <;>
      simp only [ShiftVariant.maxAmount,ShiftVariant.isHalfWord,
        false_eq_true,if_true,if_false,ite_none_right_eq_some,
      Option.some.injEq,Prod.mk.injEq,reduceCtorEq] at h hi ho
    case h_1 | h_2 =>
      obtain ⟨rfl,rfl⟩ := h
      simp only [Shift.source,ShiftVariant.source,ShiftVariant.maxAmount,ShiftVariant.isHalfWord,if_true,
      false_eq_true,if_false,bind_some]
      exact guarded_congr (by omega) (by omega)
    case h_3 | h_4 | h_5 | h_6 =>
      obtain ⟨hge,rfl,rfl⟩ := h
      refine guarded_bind ?_ ?_ <;>
        simp only [ShiftVariant.maxAmount,ShiftVariant.isHalfWord,if_true,false_eq_true,
          if_false] <;> omega
    case h_7 | h_8 =>
      obtain ⟨hge,rfl,rfl⟩ := h
      simp only [Shift.source,ShiftVariant.source,ShiftVariant.maxAmount,ShiftVariant.isHalfWord,if_true,
      false_eq_true,if_false,bind_some,Option.some.injEq]
      omega
    case h_9 | h_10 =>
      obtain ⟨hge,rfl,rfl⟩ := h
      simp only [Shift.source,ShiftVariant.source,ShiftVariant.maxAmount,ShiftVariant.isHalfWord,if_true,
      false_eq_true,if_false,bind_some]
      exact guarded_congr (by omega) (by omega)
theorem degenerate_source {s : Shift} (hi : inner.InRange)
    (ho : outer.InRange) (h : degenerate inner outer = some s) (h64 : i < 64) :
    (outer.source i).bind inner.source = s.source i := by
  obtain ⟨vi,ni⟩ := inner
  obtain ⟨vo,no⟩ := outer
  simp only [Shift.InRange] at hi ho
  simp only [degenerate] at h
  split at h <;>
    simp only [ShiftVariant.maxAmount,ShiftVariant.isHalfWord,false_eq_true,if_true,if_false,
      ite_none_right_eq_some,Option.some.injEq,reduceCtorEq] at h hi ho
  case h_1 | h_2 | h_3 =>
    obtain ⟨rfl,rfl⟩ := h
    simp only [Shift.source,ShiftVariant.source,ShiftVariant.maxAmount,ShiftVariant.isHalfWord,
      if_true,false_eq_true,if_false,bind_some,Option.some.injEq]
    omega
  case h_4 | h_5 | h_6 =>
    obtain ⟨rfl,rfl⟩ := h
    simp only [Shift.source,ShiftVariant.source,ShiftVariant.maxAmount,ShiftVariant.isHalfWord,
      if_true,false_eq_true,if_false]
    split
    · simp only [ShiftVariant.source,ShiftVariant.maxAmount,ShiftVariant.isHalfWord,if_true,
        false_eq_true,if_false,bind_some,Option.some.injEq]
      omega
    · rfl

theorem degenerate_mem {s : Shift} (h : degenerate inner outer = some s) :
    s = inner ∨ s = outer := by
  unfold degenerate at h
  split at h <;>
    simp only [ite_none_right_eq_some,Option.some.injEq,reduceCtorEq] at h <;>
    first
    | exact Or.inl h.2.symm
    | exact Or.inr h.2.symm

theorem chainedComposition_source (v : ShiftVariant) (d : ℕ) :
    match chainedComposition v d with
    | .single s => s.InRange ∧ ∀ i, i < 64 → s.source i = v.source d i
    | .zero => ∀ i, i < 64 → v.source d i = none
    | .pair => False := by
  have hpos := v.maxAmount_pos
  cases v with
  | sll | sll32 | slr | srl32 =>
    simp only [chainedComposition]
    split
    · rename_i hs
      split at hs
      · cases hs
        exact ⟨by assumption,fun i _ => rfl⟩
      · cases hs
    · rename_i hs
      split at hs
      · cases hs
      rename_i hd
      intro i hi
      simp only [ShiftVariant.maxAmount,ShiftVariant.isHalfWord,if_true,false_eq_true,
        if_false] at hd
      refine if_neg ?_
      simp only [ShiftVariant.maxAmount,ShiftVariant.isHalfWord,if_true,false_eq_true,
        if_false]
      omega
    · rename_i hs
      split at hs <;> cases hs
  | sar | sra32 =>
    simp only [chainedComposition]
    refine ⟨?_,fun i hi => ?_⟩
    · simp only [Shift.InRange]
      omega
    · simp only [Shift.source,ShiftVariant.source,Option.some.injEq]
      omega
  | rotr | rotr32 =>
    simp only [chainedComposition]
    split
    · rename_i _ s hs
      split at hs
      · cases hs
        refine ⟨Shift.identity_inRange,fun i hi => ?_⟩
        rw [Shift.source,Shift.identity,ShiftVariant.source_zero]
        simp only [ShiftVariant.source,ShiftVariant.maxAmount,ShiftVariant.isHalfWord,if_true,
          false_eq_true,if_false,Option.some.injEq] at *
        omega
      · cases hs
        refine ⟨Nat.mod_lt _ hpos,fun i hi => ?_⟩
        simp only [Shift.source,ShiftVariant.source,Nat.add_mod_mod]
    · rename_i hs
      split at hs <;> cases hs
    · rename_i hs
      split at hs <;> cases hs

theorem chained_distance {d : ℕ}
    (h : chained inner outer = some (v,d)) : d = inner.amount + outer.amount := by
  simp only [chained] at h
  repeat' split at h
  all_goals cases h; try rfl

theorem chainedComposition_canonical {d : ℕ} {s : Shift} (hd : d ≠ 0)
    (h : chainedComposition v d = .single s) : s.isCanonical = true := by
  have hne : ∀ {v : ShiftVariant} {n : ℕ}, n ≠ 0 → (⟨v,n⟩ : Shift).isCanonical = true := by
    intro v n hn
    simp only [Shift.isCanonical,Shift.isIdentity,beq_eq_false_iff_ne.mpr hn,Bool.not_false,
      Bool.true_or]
  cases v with
  | sll | sll32 | slr | srl32 =>
    simp only [chainedComposition] at h
    split at h
    · cases h; exact hne hd
    · cases h
  | sar | sra32 =>
    simp only [chainedComposition,Composition.single.injEq] at h
    subst h
    refine hne ?_
    simp only [ShiftVariant.maxAmount,ShiftVariant.isHalfWord,if_true,false_eq_true,if_false]
    omega
  | rotr | rotr32 =>
    simp only [chainedComposition] at h
    split at h
    · cases h; rfl
    · rename_i hm
      cases h; exact hne hm

theorem compose_denotes (hi : inner.InRange) (ho : outer.InRange) :
    Denotes (compose inner outer) inner outer := by
  unfold compose
  by_cases hii : inner.isIdentity = true
  · rw [if_pos hii]
    refine ⟨ho,fun i h64 => ?_⟩
    have hz : inner.source = fun j => some j := by
      funext j
      rw [Shift.source,(Shift.isIdentity_iff inner).mp hii,ShiftVariant.source_zero]
    rw [hz,Option.bind_fun_some]
  · rw [if_neg hii]
    by_cases hoi : outer.isIdentity = true
    · rw [if_pos hoi]
      refine ⟨hi,fun i h64 => ?_⟩
      have hz : outer.source i = some i := by
        rw [Shift.source,(Shift.isIdentity_iff outer).mp hoi,ShiftVariant.source_zero]
      rw [hz,bind_some]
    · rw [if_neg hoi]
      rw [Shift.isIdentity_iff] at hii hoi
      cases hd : degenerate inner outer with
      | some s =>
        refine ⟨?_,fun i h64 => (degenerate_source hi ho hd h64).symm⟩
        rcases degenerate_mem hd with rfl | rfl
        · exact hi
        · exact ho
      | none =>
        cases hc : chained inner outer with
        | none => trivial
        | some p =>
          obtain ⟨v,d⟩ := p
          have hs : ∀ i, i < 64 → (outer.source i).bind inner.source = v.source d i :=
            fun i h64 => chained_source hi ho hii hoi hc h64
          have hcs := chainedComposition_source v d
          dsimp only
          cases hr : chainedComposition v d with
          | single s =>
            rw [hr] at hcs
            exact ⟨hcs.1,fun i h64 => (hcs.2 i h64).trans (hs i h64).symm⟩
          | zero =>
            rw [hr] at hcs
            exact fun i h64 => (hs i h64).trans (hcs i h64)
          | pair => trivial

theorem compose_single {s : Shift} (hi : inner.InRange) (ho : outer.InRange)
    (h : compose inner outer = .single s) :
    s.InRange ∧ ∀ w, s.apply w = outer.apply (inner.apply w) := by
  have hd := compose_denotes hi ho
  rw [h] at hd
  refine ⟨hd.1,fun w => BitVec.eq_of_getLsbD_eq fun i h64 => ?_⟩
  rw [Shift.apply_bit hd.1 w h64,Shift.apply_apply_bit hi ho w h64,hd.2 i h64]

theorem compose_zero (hi : inner.InRange) (ho : outer.InRange)
    (h : compose inner outer = .zero) (w : Word) :
    outer.apply (inner.apply w) = 0 := by
  have hd := compose_denotes hi ho
  rw [h] at hd
  refine BitVec.eq_of_getLsbD_eq fun i h64 => ?_
  rw [Shift.apply_apply_bit hi ho w h64,hd i h64,readBit_none,BitVec.ofNat_eq_ofNat,
    BitVec.getLsbD_zero]

theorem compose_canonical {s : Shift} (hi : inner.isCanonical = true)
    (ho : outer.isCanonical = true) (h : compose inner outer = .single s) :
    s.isCanonical = true := by
  unfold compose at h
  split at h
  · cases h; exact ho
  · split at h
    · cases h; exact hi
    · split at h
      · rename_i _ _ _ t ht
        cases h
        rcases degenerate_mem ht with rfl | rfl
        · exact hi
        · exact ho
      · rename_i hii hoi _ _
        split at h
        · rename_i v d hc
          rw [Shift.isIdentity_iff] at hii hoi
          have hd : d ≠ 0 := by
            have := chained_distance hc
            omega
          exact chainedComposition_canonical hd h
        · cases h

end Binius64.ShiftAlgebra
