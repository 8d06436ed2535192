import Binius64.BignumAddition
import Mathlib.Data.List.GetD

/-!
# Multiplexers

A tree of two-way selections, one level for each bit of the selector, with an odd word out carried
to the next level.
-/

namespace Binius64.Multiplexers

open MachineWord (Word isMsbTrue isMsbTrue_eq)
open WordGates CheckedRun Bignum List

/-- The logarithm of a number, rounded up. -/
def log2CeilUsize (n : ℕ) : ℕ := Nat.clog 2 n

/-- One level: pairs are selected from, an odd word out is carried forward. -/
def muxLevel (selBit : Word) : List Word → List Word
  | lhs :: rhs :: rest => select selBit rhs lhs :: muxLevel selBit rest
  | level => level

/-- Some levels of the tree, the first of which reads the given bit of the selector. -/
def muxLevels (sel : Word) : ℕ → ℕ → List Word → List Word
  | _, 0, level => level
  | bitLevel, count + 1, level =>
    muxLevels sel (bitLevel + 1) count (muxLevel (shl sel (64 - 1 - bitLevel)) level)

def singleWireMultiplex (inputs : List Word) (sel : Word) : Word :=
  if inputs.length = 0 then 0 else (muxLevels sel 0 (log2CeilUsize inputs.length) inputs).getD 0 0

variable (inputs : List (List Word)) (sel : Word)

/-- The group at the selected position. -/
def multiWireMultiplex : Gadget (List Word) := do
  ensure (inputs ≠ []) "Input groups must not be empty"
  let groupSize := (inputs.getD 0 []).length
  ensure (0 < groupSize) "Groups must not be empty"
  ensure (∀ group ∈ inputs, group.length = groupSize) "All groups must have the same length."
  return (range groupSize).map fun position =>
    singleWireMultiplex (inputs.map fun group => group.getD position 0) sel

/-- The width the window has before the stages of some low bits of the shift. -/
def rotationWidth (n nOut : ℕ) : ℕ → ℕ
  | 0 => nOut
  | bit + 1 => min n (rotationWidth n nOut bit + 1 <<< bit)

def rotationStages (n nOut : ℕ) (shift : Word) : ℕ → List Word → List Word
  | 0, current => current
  | bit + 1, current =>
    let shiftBit := shl shift (64 - 1 - bit)
    let amount := 1 <<< bit
    rotationStages n nOut shift bit ((range (rotationWidth n nOut bit)).map fun i =>
      select shiftBit (current.getD ((i + amount) % current.length) 0) (current.getD i 0))

def rotateLeftDynamic (words : List Word) (shift : Word) (nOut : ℕ) : Gadget (List Word) := do
  let n := words.length
  ensure (0 < n) "words must not be empty"
  ensure (nOut ≤ n) s!"n_out ({nOut}) must not exceed words.len() ({n})"
  let nBits := log2CeilUsize n
  return rotationStages n nOut shift nBits (words.take (rotationWidth n nOut nBits))

theorem isMsbTrue_shl {sel : Word} {b : ℕ} (hb : b < 64) :
    isMsbTrue (shl sel (64 - 1 - b)) = sel.getLsbD b := by
  have hshl : shl sel (64 - 1 - b) = sel <<< (64 - 1 - b) := rfl
  have hsub : 63 - (64 - 1 - b) = b := by omega
  have hnot : ¬63 < 64 - 1 - b := by omega
  rw [isMsbTrue_eq,hshl,BitVec.getLsbD_shiftLeft,decide_eq_false hnot,hsub]
  rfl

theorem length_le_one {level : List Word}
    (hshort : ∀ lhs rhs rest, level = lhs :: rhs :: rest → False) : level.length ≤ 1 := by
  cases level with
  | nil => simp
  | cons lhs rest =>
    cases rest with
    | nil => simp
    | cons rhs rest => exact absurd rfl (hshort lhs rhs rest)

variable (selBit : Word)

theorem muxLevel_short {level : List Word} (h : level.length ≤ 1) : muxLevel selBit level = level := by
  unfold muxLevel
  split
  · simp at h
  · rfl

theorem length_muxLevel (level : List Word) :
    (muxLevel selBit level).length = (level.length + 1) / 2 := by
  induction level using muxLevel.induct with
  | case1 lhs rhs rest ih =>
    rw [muxLevel,length_cons,ih,length_cons,length_cons]
    omega
  | case2 level hshort =>
    have hlen := length_le_one hshort
    rw [muxLevel_short selBit hlen]
    omega

theorem muxLevel_getElem? (level : List Word) (j : ℕ) : (muxLevel selBit level)[j]? =
      level[if 2 * j + 1 < level.length then 2 * j + (isMsbTrue selBit).toNat else 2 * j]? := by
  induction level using muxLevel.induct generalizing j with
  | case1 lhs rhs rest ih =>
    rw [muxLevel]
    cases j with
    | zero =>
      have hfirst : 2 * 0 + 1 < (lhs :: rhs :: rest).length := by simp
      rw [if_pos hfirst,getElem?_cons_zero,select]
      cases isMsbTrue selBit with
      | true => rfl
      | false => rfl
    | succ j =>
      have hcond : 2 * (j + 1) + 1 < (lhs :: rhs :: rest).length ↔ 2 * j + 1 < rest.length := by
        rw [length_cons,length_cons]
        omega
      rw [getElem?_cons_succ,ih j]
      by_cases hin : 2 * j + 1 < rest.length
      · rw [if_pos hin,if_pos (hcond.mpr hin)]
        have hpos : 2 * (j + 1) + (isMsbTrue selBit).toNat = 2 * j + (isMsbTrue selBit).toNat + 1 + 1 := by
          omega
        rw [hpos,getElem?_cons_succ,getElem?_cons_succ]
      · rw [if_neg hin,if_neg fun h => hin (hcond.mp h)]
        have hpos : 2 * (j + 1) = 2 * j + 1 + 1 := by omega
        rw [hpos,getElem?_cons_succ,getElem?_cons_succ]
  | case2 level hshort =>
    have hlen := length_le_one hshort
    rw [if_neg (by omega),muxLevel_short selBit hlen]
    cases j with
    | zero => rfl
    | succ j => rw [getElem?_eq_none (by omega),getElem?_eq_none (by omega)]

theorem muxLevels_picks (count : ℕ) {b n : ℕ} (hb : b + count ≤ 64) (hpos : 0 < n)
    (hn : n ≤ 2 ^ count) : ∃ k < n, (∀ level : List Word, level.length = n →
      (muxLevels sel b count level).getD 0 0 = level.getD k 0) ∧
      (sel.toNat / 2 ^ b % 2 ^ count < n → k = sel.toNat / 2 ^ b % 2 ^ count) := by
  induction count generalizing b n with
  | zero =>
    refine ⟨0,hpos,fun level _ => rfl,fun _ => ?_⟩
    rw [Nat.pow_zero,Nat.mod_one]
  | succ count ih =>
    obtain ⟨j,hj,hpick,hsel⟩ := ih (b := b + 1) (n := (n + 1) / 2) (by omega) (by omega)
      (by rw [Nat.pow_succ] at hn; omega)
    have hbit : (isMsbTrue (shl sel (64 - 1 - b))).toNat = sel.toNat / 2 ^ b % 2 := by
      rw [isMsbTrue_shl (by omega),BitVec.getLsbD,Nat.toNat_testBit]
    have hdiv : sel.toNat / 2 ^ (b + 1) = sel.toNat / 2 ^ b / 2 := by
      rw [Nat.pow_succ,Nat.div_div_eq_div_mul]
    have hbits : sel.toNat / 2 ^ b % 2 ^ (count + 1) =
        sel.toNat / 2 ^ b % 2 + 2 * (sel.toNat / 2 ^ b / 2 % 2 ^ count) := by
      rw [Nat.pow_succ',Nat.mod_mul]
    rw [hdiv] at hsel
    generalize sel.toNat / 2 ^ b = bits at hbit hbits hsel
    refine ⟨if 2 * j + 1 < n then 2 * j + bits % 2 else 2 * j,?_,fun level hlevel => ?_,fun hlt => ?_⟩
    · split
      · omega
      · omega
    · have hnext : (muxLevel (shl sel (64 - 1 - b)) level).length = (n + 1) / 2 := by
        rw [length_muxLevel,hlevel]
      rw [muxLevels,hpick _ hnext,getD_eq_getElem?_getD,muxLevel_getElem?,hlevel,hbit,
        getD_eq_getElem?_getD]
    · rw [hbits] at hlt ⊢
      have hj' := hsel (by omega)
      split
      · omega
      · omega

theorem singleWireMultiplex_picks {n : ℕ} (hpos : 0 < n) (hn : n ≤ 2 ^ 64) :
    ∃ k < n, (∀ inputs : List Word, inputs.length = n →
      singleWireMultiplex inputs sel = inputs.getD k 0) ∧ (sel.toNat < n → k = sel.toNat) := by
  have hlog : log2CeilUsize n ≤ 64 := Nat.clog_le_of_le_pow hn
  have hcover : n ≤ 2 ^ log2CeilUsize n := Nat.le_pow_clog (by decide) n
  obtain ⟨k,hk,hpick,hsel⟩ := muxLevels_picks sel (log2CeilUsize n) (b := 0) (by omega) hpos hcover
  refine ⟨k,hk,fun inputs hlen => ?_,fun hlt => ?_⟩
  · rw [singleWireMultiplex,if_neg (by omega),hlen,hpick inputs hlen]
  · rw [Nat.pow_zero,Nat.div_one] at hsel
    have hmod := Nat.mod_eq_of_lt (hlt.trans_le hcover)
    rw [hmod] at hsel
    exact hsel hlt

theorem singleWireMultiplex_eq {inputs : List Word} {sel : Word} (hlt : sel.toNat < inputs.length)
    (hn : inputs.length ≤ 2 ^ 64) :
    singleWireMultiplex inputs sel = inputs.getD sel.toNat 0 := by
  obtain ⟨k,-,hpick,hsel⟩ := singleWireMultiplex_picks sel (by omega) hn
  rw [hpick inputs rfl,hsel hlt]

theorem multiWireMultiplex_picks {n : ℕ}
    (hinputs : 0 < inputs.length) (hroom : inputs.length ≤ 2 ^ 64) (hpos : 0 < n)
    (hsize : ∀ group ∈ inputs, group.length = n) :
    ∃ k < inputs.length, multiWireMultiplex inputs sel = .ok (inputs.getD k []) ∧
      (sel.toNat < inputs.length → k = sel.toNat) := by
  obtain ⟨k,hk,hpick,hsel⟩ := singleWireMultiplex_picks sel hinputs hroom
  refine ⟨k,hk,?_,hsel⟩
  have hmem (k : ℕ) (hk : k < inputs.length) : (inputs.getD k []).length = n := by
    rw [getD_eq_getElem?_getD,getElem?_eq_getElem hk]
    exact hsize _ (getElem_mem hk)
  have hfirst := hmem 0 hinputs
  have hgroup := hmem k hk
  have hne : inputs ≠ [] := ne_nil_of_length_pos hinputs
  rw [multiWireMultiplex,ensure_ok hne,ok_bind]
  dsimp only
  rw [hfirst,ensure_ok hpos,ok_bind,ensure_ok hsize,ok_bind]
  refine congrArg Except.ok (ext_getElem? fun position => ?_)
  rw [getElem?_map]
  by_cases hin : position < n
  · have hget (l : List Word) (h : position < l.length) : l[position]? = some (l.getD position 0) := by
      rw [getD_eq_getElem?_getD,getElem?_eq_getElem h]
      rfl
    rw [getElem?_range hin,Option.map_some,hpick _ (length_map _),hget _ (by omega),
      getD_eq_getElem?_getD,getElem?_map,getD_eq_getElem?_getD (l := inputs),
      getElem?_eq_getElem hk]
    rfl
  · have hpast : (inputs.getD k []).length ≤ position := by omega
    rw [getElem?_eq_none (by simpa using hin),getElem?_eq_none hpast]
    rfl

theorem multiWireMultiplex_eq {inputs : List (List Word)} {sel : Word} {n : ℕ}
    (hlt : sel.toNat < inputs.length) (hroom : inputs.length ≤ 2 ^ 64) (hpos : 0 < n)
    (hsize : ∀ group ∈ inputs, group.length = n) :
    multiWireMultiplex inputs sel = .ok (inputs.getD sel.toNat []) := by
  obtain ⟨k,-,hpick,hsel⟩ := multiWireMultiplex_picks inputs sel (by omega) hroom hpos hsize
  rw [hpick,hsel hlt]

theorem rotationWidth_bounds {n nOut : ℕ} (h : nOut ≤ n) (bit : ℕ) :
    rotationWidth n nOut bit ≤ n := by
  cases bit with
  | zero => exact h
  | succ bit => exact Nat.min_le_left _ _

theorem rotation_index {n width i : ℕ} (amount : ℕ) (hn : 0 < n) (hwidth : width ≤ n) (hi : i < width)
    (h : ℕ) : i < min n (width + amount) ∧
      (i + amount) % min n (width + amount) < min n (width + amount) ∧
      (h + (i + amount) % min n (width + amount)) % n = (h + amount + i) % n := by
  refine ⟨by omega,Nat.mod_lt _ (by omega),?_⟩
  by_cases hwrap : n ≤ width + amount
  · rw [Nat.min_eq_left hwrap,Nat.add_mod_mod]
    congr 1
    omega
  · rw [Nat.min_eq_right (by omega),Nat.mod_eq_of_lt (Nat.add_lt_add_right hi amount)]
    congr 1
    omega

theorem rotationStages_eq {words : List Word} {nOut : ℕ} (shift : Word) (hn : 0 < words.length)
    (hout : nOut ≤ words.length) {bit : ℕ} (hbit : bit ≤ 64) (h : ℕ) {current : List Word}
    (hlen : current.length = rotationWidth words.length nOut bit)
    (hcurrent : ∀ i < current.length, current.getD i 0 = words.getD ((h + i) % words.length) 0) :
    rotationStages words.length nOut shift bit current = (range nOut).map fun i =>
      words.getD ((h + shift.toNat % 2 ^ bit + i) % words.length) 0 := by
  induction bit generalizing h current with
  | zero =>
    rw [rotationStages]
    refine ext_getElem (by rw [hlen,length_map,length_range]; rfl) fun i hi _ => ?_
    have hget := hcurrent i hi
    rw [getD_eq_getElem _ _ hi] at hget
    rw [hget,getElem_map,getElem_range,Nat.pow_zero,Nat.mod_one,Nat.add_zero]
  | succ bit ih =>
    have hwidth := rotationWidth_bounds hout bit
    have hbits := Nat.mod_pow_succ (b := 2) (k := bit) (x := shift.toNat)
    have hmsb : (isMsbTrue (shl shift (64 - 1 - bit))).toNat = shift.toNat / 2 ^ bit % 2 := by
      rw [isMsbTrue_shl hbit,BitVec.getLsbD,Nat.toNat_testBit]
    rw [rotationStages,ih (Nat.le_of_succ_le hbit) (h + 2 ^ bit * (shift.toNat / 2 ^ bit % 2))
      (by rw [length_map,length_range]) fun i hi => ?_,hbits]
    · refine map_congr_left fun i _ => ?_
      congr 2
      omega
    · rw [length_map,length_range] at hi
      obtain ⟨hin,hwrap,hindex⟩ := rotation_index (2 ^ bit) hn hwidth hi h
      have hlen' : current.length = min words.length (rotationWidth words.length nOut bit + 2 ^ bit) := by
        rw [hlen,rotationWidth,Nat.one_shiftLeft]
      rw [←hlen'] at hin hwrap hindex
      rw [getD_eq_getElem _ _ (by rwa [length_map,length_range]),getElem_map,getElem_range,
        Nat.one_shiftLeft,hcurrent _ hwrap,hcurrent _ hin,hindex,←hmsb,select]
      cases isMsbTrue (shl shift (64 - 1 - bit)) with
      | true => rw [if_pos rfl,Bool.toNat_true,Nat.mul_one]
      | false => rfl

theorem rotateLeftDynamic_eq {words : List Word} {nOut : ℕ} (shift : Word) (hn : 0 < words.length)
    (hroom : words.length ≤ 2 ^ 64) (hout : nOut ≤ words.length) :
    rotateLeftDynamic words shift nOut = .ok ((range nOut).map fun i =>
      words.getD ((shift.toNat % 2 ^ log2CeilUsize words.length + i) % words.length) 0) := by
  have hlog : log2CeilUsize words.length ≤ 64 := Nat.clog_le_of_le_pow hroom
  have hwidth := rotationWidth_bounds hout (log2CeilUsize words.length)
  have hstages := rotationStages_eq shift hn hout hlog 0 (length_take_of_le hwidth) fun i hi => by
    have hlt : i < words.length := hi.trans_le (length_take_le' _ _)
    rw [getD_eq_getElem _ _ hi,getElem_take,Nat.zero_add,Nat.mod_eq_of_lt hlt,
      getD_eq_getElem _ _ hlt]
  simp only [Nat.zero_add] at hstages
  rw [rotateLeftDynamic,ensure_ok hn,ok_bind,ensure_ok hout,ok_bind]
  exact congrArg Except.ok hstages

theorem multiplexers_exact (sel : Word) :
    (∀ inputs : List Word, sel.toNat < inputs.length → inputs.length ≤ 2 ^ 64 →
      singleWireMultiplex inputs sel = inputs.getD sel.toNat 0) ∧
    (∀ (inputs : List (List Word)) (n : ℕ), sel.toNat < inputs.length → inputs.length ≤ 2 ^ 64 →
      0 < n → (∀ group ∈ inputs, group.length = n) →
      multiWireMultiplex inputs sel = .ok (inputs.getD sel.toNat [])) ∧
    (∀ (words : List Word) (nOut : ℕ), 0 < words.length → words.length ≤ 2 ^ 64 →
      nOut ≤ words.length → rotateLeftDynamic words sel nOut = .ok ((range nOut).map fun i =>
        words.getD ((sel.toNat % 2 ^ log2CeilUsize words.length + i) % words.length) 0)) :=
  ⟨fun _ hlt hroom => singleWireMultiplex_eq hlt hroom,
    fun _ _ hlt hroom hpos hsize => multiWireMultiplex_eq hlt hroom hpos hsize,
    fun _ _ hn hroom hout => rotateLeftDynamic_eq sel hn hroom hout⟩

theorem multiplexers_exact_three :
    singleWireMultiplex [5,6,7] 2 = 7 ∧ multiWireMultiplex [[5],[6],[7]] 2 = .ok [7] ∧
      rotateLeftDynamic [5,6,7] 2 2 = .ok [7,5] :=
  ⟨(multiplexers_exact 2).1 [5,6,7] (by decide) (by decide),
    (multiplexers_exact 2).2.1 [[5],[6],[7]] 1 (by decide) (by decide) (by decide) (by decide),
    (multiplexers_exact 2).2.2 [5,6,7] 2 (by decide) (by decide) (by decide)⟩

end Binius64.Multiplexers
