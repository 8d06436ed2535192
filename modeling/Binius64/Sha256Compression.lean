import Binius64.AdvisedRuns
import Binius64.BignumReduction
import Binius64.LaneWords

/-!
# SHA-256 compression gadgets

Gadgets over any compression of 32-bit words.
-/

namespace Binius64.Sha256

open MachineWord (Word loHalf hiHalf ofHalves ofHalves_bit loHalf_bit hiHalf_bit ofHalves_halves)
open WordGates CheckedRun Bignum LaneWords
open List (ofFn)

/-- A compression: the state and a block give the next state. -/
abbrev Compression := (Fin 8 → BitVec 32) → (Fin 16 → BitVec 32) → Fin 8 → BitVec 32

abbrev State := Fin 8 → Word

abbrev Block := Fin 16 → Word

def low {n : ℕ} (words : Fin n → Word) : Fin n → BitVec 32 := fun i => loHalf (words i)

def high {n : ℕ} (words : Fin n → Word) : Fin n → BitVec 32 := fun i => hiHalf (words i)

def wide {n : ℕ} (values : Fin n → BitVec 32) : Fin n → Word := fun i => ofU32 (values i)

def clearHighBits (w : Word) (n : ℕ) : Word := shr (shl w n) n

def packU32Words (lo hi : Word) : Word := bxor (clearHighBits lo 32) (shl hi 32)

variable (compress : Compression)

/-- The core on one block; it reads low halves and leaves the high ones empty. -/
def sha256Compress (state : State) (m : Block) : State := wide (compress (low state) (low m))

def sha256Compress2x (state : State) (m : Block) : State := fun i =>
  ofHalves (compress (low state) (low m) i) (compress (high state) (high m) i)

/-- The hint: the state after the first block below the state before it. -/
def sha256CompressHint (_dimensions : List ℕ) (inputs : List Word) : Gadget (List Word) :=
  let stateIn : Fin 8 → BitVec 32 := fun i => loHalf (inputs.getD i 0)
  let block : Fin 16 → BitVec 32 := fun i => loHalf (inputs.getD (8 + i) 0)
  .ok (ofFn fun i => ofHalves (compress stateIn block i) (stateIn i))

/-- Two chained blocks in the two halves of one core. -/
def sha256Compress2xSeq (advice : Advice) (stateIn : State) (first second : Block) : Gadget State := do
  let mergedVec ← callHint advice 24 8 [] (ofFn stateIn ++ ofFn first)
  let merged : State := fun i => mergedVec.getD i 0
  let mergedBlock : Block := fun i => packU32Words (second i) (first i)
  let out := sha256Compress2x compress merged mergedBlock
  (List.finRange 8).forM fun i => assertEq "sha256_compress_2x_seq.merged_state" (merged i)
    (bxor (shl (stateIn i) 32) (shr (out i) 32))
  return out

@[simp] theorem loHalf_ofHalves (lo hi : BitVec 32) : loHalf (ofHalves lo hi) = lo := by
  apply BitVec.eq_of_getLsbD_eq
  intro i hlt
  rw [loHalf_bit,ofHalves_bit _ _ (by omega),if_pos hlt,decide_eq_true hlt,Bool.true_and]

@[simp] theorem hiHalf_ofHalves (lo hi : BitVec 32) : hiHalf (ofHalves lo hi) = hi := by
  apply BitVec.eq_of_getLsbD_eq
  intro i hlt
  rw [hiHalf_bit,ofHalves_bit _ _ (by omega),if_neg (by omega),decide_eq_true hlt,Bool.true_and,
    Nat.add_sub_cancel_left]

@[simp] theorem low_wide {n : ℕ} (values : Fin n → BitVec 32) : low (wide values) = values :=
  funext fun i => loHalf_ofU32 (values i)

theorem bxor_shl_shr (a b : Word) : bxor (shl a 32) (shr b 32) = ofHalves (hiHalf b) (loHalf a) := by
  have hshl : shl a 32 = a <<< 32 := rfl
  have hshr : shr b 32 = b >>> 32 := rfl
  apply BitVec.eq_of_getLsbD_eq
  intro i hi
  rw [ofHalves_bit _ _ hi,bxor,hshl,hshr,BitVec.getLsbD_xor,BitVec.getLsbD_shiftLeft,
    BitVec.getLsbD_ushiftRight,decide_eq_true hi,Bool.true_and,hiHalf_bit,loHalf_bit]
  by_cases hlt : i < 32
  · rw [if_pos hlt,decide_eq_true hlt]
    simp
  · have hsub : i - 32 < 32 := by omega
    rw [if_neg hlt,decide_eq_false hlt,decide_eq_true hsub,BitVec.getLsbD_of_ge b _ (by omega),Bool.xor_false]
    rfl

theorem shr_half (w : Word) : shr w 32 = ofU32 (hiHalf w) := by
  have h := bxor_shl_shr 0 w
  have hzero : shl 0 32 = 0 := by decide
  have hlow : loHalf 0#64 = 0 := by decide
  rw [hzero,bxor,BitVec.ofNat_eq_ofNat,BitVec.zero_xor,hlow,ofHalves_zero] at h
  exact h

theorem clearHighBits_half (w : Word) : clearHighBits w 32 = ofU32 (loHalf w) := by
  have h := bxor_shl_shr w 0
  have hzero : shr 0 32 = 0 := by decide
  rw [hzero,bxor,BitVec.ofNat_eq_ofNat,BitVec.xor_zero] at h
  rw [clearHighBits,shr_half,h,hiHalf_ofHalves]

theorem packU32Words_eq (lo hi : Word) : packU32Words lo hi = ofHalves (loHalf lo) (loHalf hi) := by
  have h := bxor_shl_shr hi (shl lo 32)
  have hcomm : bxor (clearHighBits lo 32) (shl hi 32) = bxor (shl hi 32) (shr (shl lo 32) 32) :=
    BitVec.xor_comm _ _
  have hup := bxor_shl_shr lo 0
  have hzero : shr 0 32 = 0 := by decide
  rw [hzero,bxor,BitVec.ofNat_eq_ofNat,BitVec.xor_zero] at hup
  rw [packU32Words,hcomm,h,hup,hiHalf_ofHalves]

variable {compress : Compression}

theorem sha256Compress2xSeq_settles (advice : Advice) (state : State) (first second : Block) :
    Settles (advice.Follows (sha256CompressHint compress))
      (sha256Compress2xSeq compress advice state first second)
      (· = fun i => ofHalves (compress (compress (low state) (low first)) (low second) i)
        (compress (low state) (low first) i)) := by
  obtain ⟨hinted,hrun,hlen,hfollow⟩ := callHint_ok advice 24 8 [] (ofFn state ++ ofFn first)
    (by decide) (by decide) (by decide) (by simp) (by simp)
  have hlow : low (fun i => packU32Words (second i) (first i)) = low second := by
    funext i
    rw [low,low,packU32Words_eq,loHalf_ofHalves]
  have hhigh : high (fun i => packU32Words (second i) (first i)) = low first := by
    funext i
    rw [high,low,packU32Words_eq,hiHalf_ofHalves]
  unfold sha256Compress2xSeq sha256Compress2x
  rw [hrun,ok_bind]
  dsimp only
  rw [hlow,hhigh]
  constructor
  · intro out hout
    obtain ⟨_,hall,hret⟩ := bind_eq_ok.mp hout
    cases hret
    have hmerged (i : Fin 8) := assertEq_eq_ok.mp (forM_eq_ok.mp hall i (List.mem_finRange i))
    simp only [bxor_shl_shr,hiHalf_ofHalves] at hmerged
    have hstate : high (fun i : Fin 8 => hinted.getD i 0) = low state := by
      funext i
      rw [high,hmerged,hiHalf_ofHalves]
      rfl
    have hfirst : low (fun i : Fin 8 => hinted.getD i 0) = compress (low state) (low first) := by
      funext i
      rw [low,hmerged,loHalf_ofHalves,hstate]
    rw [hstate,hfirst]
  · intro hfollows
    have hhint := hfollow _ _ hfollows rfl (by simp)
    have hin (i : Fin 8) : (ofFn state ++ ofFn first).getD i 0 = state i := by
      rw [List.getD_eq_getElem?_getD,List.getElem?_append_left (by simp),List.getElem?_ofFn,dif_pos i.isLt]
      rfl
    have hblock (i : Fin 16) : (ofFn state ++ ofFn first).getD (8 + i) 0 = first i := by
      rw [List.getD_eq_getElem?_getD,List.getElem?_append_right (by simp),List.length_ofFn,
        Nat.add_sub_cancel_left,List.getElem?_ofFn,dif_pos i.isLt]
      rfl
    have hmerged (i : Fin 8) : hinted.getD i 0 =
        ofHalves (compress (low state) (low first) i) (low state i) := by
      rw [hhint,List.getD_eq_getElem?_getD,List.getElem?_ofFn,dif_pos i.isLt]
      simp only [hin,hblock]
      rfl
    refine ⟨_,bind_eq_ok.mpr ⟨(),forM_eq_ok.mpr fun i _ => assertEq_eq_ok.mpr ?_,rfl⟩⟩
    have hstate : high (fun i : Fin 8 => hinted.getD i 0) = low state := by
      funext j
      rw [high,hmerged,hiHalf_ofHalves]
    rw [bxor_shl_shr,hiHalf_ofHalves,hstate,hmerged]
    rfl

end Binius64.Sha256
