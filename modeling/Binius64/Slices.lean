import Binius64.BitcoinHeaders
import Binius64.WotsChains

/-!
# Slices of byte vectors

A byte offset is a rotation by whole words and a shift that joins neighbouring words.
-/

namespace Binius64.Slices

open MachineWord (Word isMsbTrue)
open Wots (and_then_eq_ok iadd_eq)
open WordGates WordBytes ByteVectors CheckedRun Bignum Multiplexers BitcoinHeaders List

/-- Unsigned comparison, the other way round and negated. -/
def icmpUle (x y : Word) : Word := bnot (icmpUlt y x)

def varShiftBlocks (step : Word → ℕ → Word) (x shift : Word) (shiftBits blockBits : ℕ) : Gadget Word := do
  ensure (shiftBits + blockBits ≤ 6)
    s!"shift_bits={shiftBits} + block_bits={blockBits} > 6 (max for 64-bit word)"
  return (range shiftBits).foldl (fun result i =>
    let cond := shl shift (64 - 1 - i)
    let shifted := step result (1 <<< (i + blockBits))
    select cond shifted result) x

def varSllBlocks : Word → Word → ℕ → ℕ → Gadget Word := varShiftBlocks shl

def varSrlBlocks : Word → Word → ℕ → ℕ → Gadget Word := varShiftBlocks shr

def varSllBytes (x shift : Word) : Gadget Word := varSllBlocks x shift 3 3

def varSrlBytes (x shift : Word) : Gadget Word := varSrlBlocks x shift 3 3

/-- Two words agree on the bytes at their position that lie below the length. -/
def assertWordEq (name : String) (lenBytes : Word) (i : ℕ) (a e : Word) : Gadget Unit := do
  let startByte := BitVec.ofNat 64 (i * 8)
  let (diffRaw,borrow) := isubBinBout lenBytes startByte 0
  let diff := select borrow 0 diffRaw
  let (eightMinusDiff,diffGt8) := isubBinBout 8 diff 0
  let aShifted ← varSllBytes a eightMinusDiff
  let eShifted ← varSllBytes e eightMinusDiff
  let aPart := select diffGt8 a aShifted
  let ePart := select diffGt8 e eShifted
  -- Without a byte below the length the shift reads an amount of eight as none.
  let diffEq0 := icmpEq diff 0
  let aCmp := select diffEq0 0 aPart
  let eCmp := select diffEq0 0 ePart
  assertEq s!"{name}[{i}]" aCmp eCmp

/-- Two byte sequences agree below the length. -/
def assertSliceEq (name : String) (lenBytes : Word) (actual expected : List Word) : Gadget Unit := do
  ensure (actual.length = expected.length)
    "assert_slice_eq: actual and expected must have the same word count"
  (actual.zip expected).zipIdx.forM fun entry => assertWordEq name lenBytes entry.2 entry.1.1 entry.1.2

def slice (lenInput lenSlice : Word) (input : List Word) (offset : Word) (maxNWords : ℕ) :
    Gadget (List Word) := do
  let maxLenInput := input.length <<< 3
  let maxLenSlice := maxNWords <<< 3
  ensure (maxLenInput ≤ 2 ^ 32 - 1) "max_n_input must be < 2^32"
  ensure (maxLenSlice ≤ 2 ^ 32 - 1) "max_n_slice must be < 2^32"
  assertZero "offset_32bit" (shr offset 32)
  assertZero "len_slice_32bit" (shr lenSlice 32)
  assertZero "len_input_32bit" (shr lenInput 32)
  let offsetPlusLenSlice := iadd offset lenSlice
  assertTrue "bounds_check" (icmpUle offsetPlusLenSlice lenInput)
  assertTrue "max_n_words is sufficient" (icmpUle lenSlice (BitVec.ofNat 64 maxLenSlice))
  if maxNWords = 0 then return []
  else
    let wordOffset := shr offset 3
    let byteOffset := band offset 7
    let negByteOffset := (isubBinBout 8 byteOffset 0).1
    let isAligned := icmpEq byteOffset 0
    let window := min (maxNWords + 1) input.length
    let rotated ← rotateLeftDynamic input wordOffset window
    (range maxNWords).mapM fun sliceIdx => do
      let inWord := rotated.getD (sliceIdx % window) 0
      let nextWord := rotated.getD ((sliceIdx + 1) % window) 0
      let low ← varSrlBytes inWord byteOffset
      let high ← varSllBytes nextWord negByteOffset
      return select isAligned inWord (bxor low high)

theorem isMsbTrue_icmpUle (x y : Word) : isMsbTrue (icmpUle x y) = true ↔ x.toNat ≤ y.toNat := by
  rw [icmpUle,isMsbTrue_bnot,isMsbTrue_icmpUlt,Bool.not_eq_true',decide_eq_false_iff_not,Nat.not_lt]

theorem varShiftBlocks_eq {step : Word → ℕ → Word} (hzero : ∀ x, step x 0 = x)
    (hadd : ∀ x a b, step (step x a) b = step x (a + b)) (x shift : Word) {shiftBits blockBits : ℕ}
    (h : shiftBits + blockBits ≤ 6) : varShiftBlocks step x shift shiftBits blockBits =
      .ok (step x (2 ^ blockBits * (shift.toNat % 2 ^ shiftBits))) := by
  rw [varShiftBlocks,ensure_ok h,ok_bind]
  refine congrArg Except.ok ?_
  induction shiftBits with
  | zero => exact ((congrArg (step x) (by rw [Nat.pow_zero,Nat.mod_one,Nat.mul_zero])).trans (hzero x)).symm
  | succ m ih =>
    have hbit : (isMsbTrue (shl shift (64 - 1 - m))).toNat = shift.toNat / 2 ^ m % 2 := by
      rw [isMsbTrue_shl (by omega),BitVec.getLsbD,Nat.toNat_testBit]
    rw [range_succ,foldl_append,ih (by omega),foldl_cons,foldl_nil,Nat.mod_pow_succ,Nat.mul_add,←hbit,
      select]
    cases isMsbTrue (shl shift (64 - 1 - m)) with
    | true =>
      rw [if_pos rfl,hadd,Nat.one_shiftLeft,Bool.toNat_true,Nat.mul_one,Nat.pow_add,Nat.mul_comm (2 ^ m)]
    | false => rfl

theorem varSllBytes_eq (x shift : Word) : varSllBytes x shift = .ok (x <<< (8 * (shift.toNat % 8))) :=
  @varShiftBlocks_eq shl (fun _ => BitVec.shiftLeft_zero _)
    (fun _ _ _ => (BitVec.shiftLeft_add _ _ _).symm) x shift 3 3 (by decide)

theorem varSrlBytes_eq (x shift : Word) : varSrlBytes x shift = .ok (x >>> (8 * (shift.toNat % 8))) :=
  @varShiftBlocks_eq shr (fun _ => BitVec.ushiftRight_zero _)
    (fun _ _ _ => (BitVec.shiftRight_add _ _ _).symm) x shift 3 3 (by decide)

theorem shiftLeft_inj {a e : Word} {s : ℕ} (hs : s ≤ 8) :
    a <<< (8 * s) = e <<< (8 * s) ↔ ∀ k < 8 - s, byteAt a k = byteAt e k := by
  constructor
  · intro h k hk
    have hbyte := congrArg (fun word => byteAt word (s + k)) h
    have hpos : s + k - s = k := by omega
    simp only [byteAt_shiftLeft _ s (show 8 * (s + k) + 8 ≤ 64 by omega),hpos] at hbyte
    rwa [if_neg (by omega),if_neg (by omega)] at hbyte
  · intro h
    refine eq_of_byteAt (n := 8) (by decide) fun k hk => ?_
    rw [byteAt_shiftLeft _ s (by omega),byteAt_shiftLeft _ s (by omega)]
    split
    · rfl
    · exact h _ (by omega)

theorem toNat_diff (lenBytes startByte : Word) : (select (isubBinBout lenBytes startByte 0).2 0
    (isubBinBout lenBytes startByte 0).1).toNat = lenBytes.toNat - startByte.toNat := by
  have hvalue := isubBinBout_value lenBytes startByte 0
  have hlt := (isubBinBout lenBytes startByte 0).1.isLt
  rw [flag_zero] at hvalue
  rw [select]
  unfold flag at hvalue
  cases hborrow : isMsbTrue (isubBinBout lenBytes startByte 0).2 with
  | true =>
    rw [hborrow,Bool.toNat_true] at hvalue
    have hzero : (0 : Word).toNat = 0 := rfl
    rw [if_pos rfl,hzero]
    omega
  | false =>
    rw [hborrow,Bool.toNat_false] at hvalue
    rw [if_neg Bool.false_ne_true]
    omega

theorem assertWordEq_eq_ok (name : String) (lenBytes a e : Word) {i : ℕ} (hi : i * 8 < 2 ^ 64) :
    assertWordEq name lenBytes i a e = .ok () ↔
      ∀ k < 8, 8 * i + k < lenBytes.toNat → byteAt a k = byteAt e k := by
  have hdiff := toNat_diff lenBytes (BitVec.ofNat 64 (i * 8))
  rw [toNat_const hi] at hdiff
  unfold assertWordEq
  dsimp only
  generalize select (isubBinBout lenBytes (BitVec.ofNat 64 (i * 8)) 0).2 0
    (isubBinBout lenBytes (BitVec.ofNat 64 (i * 8)) 0).1 = diff at hdiff ⊢
  have hvalue := isubBinBout_value 8 diff 0
  have height : (8 : Word).toNat = 8 := rfl
  have hdlt := diff.isLt
  have hlt := (isubBinBout 8 diff 0).1.isLt
  rw [flag_zero,height] at hvalue
  rw [varSllBytes_eq,varSllBytes_eq,ok_bind,ok_bind,assertEq_eq_ok,select,select,select,select,
    isMsbTrue_icmpEq]
  by_cases hnone : diff = 0
  · have hzero : diff.toNat = 0 := by rw [hnone]; rfl
    rw [decide_eq_true hnone,if_pos rfl,if_pos rfl]
    exact ⟨fun _ k _ hk => by omega,fun _ => rfl⟩
  · have hpos : diff.toNat ≠ 0 := fun h => hnone (BitVec.eq_of_toNat_eq h)
    rw [decide_eq_false hnone,if_neg Bool.false_ne_true,if_neg Bool.false_ne_true]
    unfold flag at hvalue
    cases hborrow : isMsbTrue (isubBinBout 8 diff 0).2 with
    | true =>
      rw [hborrow,Bool.toNat_true] at hvalue
      rw [if_pos rfl,if_pos rfl]
      exact ⟨fun h k _ _ => by rw [h],
        fun h => eq_of_byteAt (n := 8) (by decide) fun k hk => h k hk (by omega)⟩
    | false =>
      rw [hborrow,Bool.toNat_false] at hvalue
      have hshift : (isubBinBout 8 diff 0).1.toNat % 8 = 8 - diff.toNat := by omega
      rw [if_neg Bool.false_ne_true,if_neg Bool.false_ne_true,hshift,shiftLeft_inj (Nat.sub_le _ _)]
      exact ⟨fun h k _ _ => h k (by omega),fun h k _ => h k (by omega) (by omega)⟩

theorem assertSliceEq_eq_ok (name : String) (lenBytes : Word) {actual expected : List Word}
    (hlen : actual.length = expected.length) (hroom : actual.length < 2 ^ 61) :
    assertSliceEq name lenBytes actual expected = .ok () ↔
      ∀ p < 8 * actual.length, p < lenBytes.toNat →
        byteAt (actual.getD (p / 8) 0) (p % 8) = byteAt (expected.getD (p / 8) 0) (p % 8) := by
  rw [assertSliceEq,ensure_ok hlen,ok_bind,forM_eq_ok]
  constructor
  · intro h p hp hlt
    have hi : p / 8 < actual.length := by omega
    have hmem : ((actual.getD (p / 8) 0,expected.getD (p / 8) 0),p / 8) ∈ (actual.zip expected).zipIdx := by
      rw [mk_mem_zipIdx_iff_getElem?,getElem?_zip_eq_some,getD_eq_getElem _ _ hi,
        getD_eq_getElem _ _ (hlen ▸ hi)]
      exact ⟨getElem?_eq_getElem hi,getElem?_eq_getElem (hlen ▸ hi)⟩
    exact (assertWordEq_eq_ok name lenBytes _ _ (by omega)).mp (h _ hmem) _ (by omega) (by omega)
  · rintro h ⟨⟨a,e⟩,i⟩ hmem
    rw [mk_mem_zipIdx_iff_getElem?,getElem?_zip_eq_some] at hmem
    obtain ⟨ha,he⟩ := hmem
    obtain ⟨hi,rfl⟩ := List.getElem?_eq_some_iff.mp ha
    obtain ⟨hi',rfl⟩ := List.getElem?_eq_some_iff.mp he
    refine (assertWordEq_eq_ok name lenBytes _ _ (by omega)).mpr fun k hk hlt => ?_
    have hbyte := h (8 * i + k) (by omega) hlt
    have hdiv : (8 * i + k) / 8 = i := by omega
    have hmod : (8 * i + k) % 8 = k := by omega
    rw [hdiv,hmod,getD_eq_getElem _ _ hi,getD_eq_getElem _ _ hi'] at hbyte
    exact hbyte

theorem byteAt_joined (x y : Word) {s k : ℕ} (hs : s < 8) (hk : k < 8) :
    byteAt (x >>> (8 * s) ^^^ y <<< (8 * (8 - s))) k =
      if s + k < 8 then byteAt x (s + k) else byteAt y (s + k - 8) := by
  rw [byteAt_xor,byteAt_ushiftRight,byteAt_shiftLeft _ _ (by omega)]
  by_cases hin : s + k < 8
  · rw [if_pos hin,if_pos (by omega)]
    exact BitVec.xor_zero
  · have hback : k - (8 - s) = s + k - 8 := by omega
    rw [if_neg hin,if_neg (by omega),hback,byteAt_past _ (by omega)]
    exact BitVec.zero_xor

theorem byteAt_join (inWord nextWord : Word) {byteOffset : Word} (h : byteOffset.toNat < 8) {k : ℕ}
    (hk : k < 8) : byteAt (select (icmpEq byteOffset 0) inWord
      (bxor (inWord >>> (8 * (byteOffset.toNat % 8)))
        (nextWord <<< (8 * ((isubBinBout 8 byteOffset 0).1.toNat % 8))))) k =
      if byteOffset.toNat + k < 8 then byteAt inWord (byteOffset.toNat + k)
      else byteAt nextWord (byteOffset.toNat + k - 8) := by
  rw [select,isMsbTrue_icmpEq]
  by_cases haligned : byteOffset = 0
  · have hzero : byteOffset.toNat = 0 := by rw [haligned]; rfl
    rw [decide_eq_true haligned,if_pos rfl,hzero,Nat.zero_add,if_pos hk]
  · have hpos : byteOffset.toNat ≠ 0 := fun h => haligned (BitVec.eq_of_toNat_eq h)
    have hvalue := isubBinBout_value 8 byteOffset 0
    have hflag := flag_le (isubBinBout 8 byteOffset 0).2
    have hlt := (isubBinBout 8 byteOffset 0).1.isLt
    have height : (8 : Word).toNat = 8 := rfl
    rw [flag_zero,height] at hvalue
    have hneg : (isubBinBout 8 byteOffset 0).1.toNat % 8 = 8 - byteOffset.toNat := by omega
    rw [decide_eq_false haligned,if_neg Bool.false_ne_true,bxor,Nat.mod_eq_of_lt h,hneg,
      byteAt_joined _ _ h hk]

def windowWord (input : List Word) (offset : Word) (window j : ℕ) : Word :=
  input.getD (((shr offset 3).toNat % 2 ^ log2CeilUsize input.length + j % window) % input.length) 0

def sliceWords (input : List Word) (offset : Word) (maxNWords : ℕ) : List Word :=
  let window := min (maxNWords + 1) input.length
  let byteOffset := band offset 7
  (range maxNWords).map fun i => select (icmpEq byteOffset 0) (windowWord input offset window i)
    (bxor (windowWord input offset window i >>> (8 * (byteOffset.toNat % 8)))
      (windowWord input offset window (i + 1) <<< (8 * ((isubBinBout 8 byteOffset 0).1.toNat % 8))))

variable {input : List Word} {maxNWords : ℕ} {lenInput lenSlice offset : Word}

theorem windowWord_eq {j : ℕ} (hj : j ≤ maxNWords) (hin : offset.toNat / 8 + j < input.length) :
    windowWord input offset (min (maxNWords + 1) input.length) j =
      input.getD (offset.toNat / 8 + j) 0 := by
  have hcover : input.length ≤ 2 ^ log2CeilUsize input.length := Nat.le_pow_clog (by decide) _
  rw [windowWord,toNat_shr,Nat.mod_eq_of_lt (show j < min (maxNWords + 1) input.length by omega),
    Nat.mod_eq_of_lt (show offset.toNat / 2 ^ 3 < 2 ^ log2CeilUsize input.length by omega)]
  exact congrArg (input.getD · 0) (Nat.mod_eq_of_lt hin)

theorem byteAt_sliceWords {p : ℕ} (hp : p < 8 * maxNWords)
    (hin : offset.toNat + p < 8 * input.length) :
    byteAt ((sliceWords input offset maxNWords).getD (p / 8) 0) (p % 8) =
      byteAt (input.getD ((offset.toNat + p) / 8) 0) ((offset.toNat + p) % 8) := by
  have hi : p / 8 < maxNWords := by omega
  have hbyte : (band offset 7).toNat = offset.toNat % 8 := by
    rw [band,BitVec.toNat_and]
    exact Nat.and_two_pow_sub_one_eq_mod offset.toNat 3
  have hlt : (band offset 7).toNat < 8 := by omega
  rw [sliceWords,getD_eq_getElem _ _ (by rwa [length_map,length_range]),getElem_map,getElem_range,
    byteAt_join _ _ hlt (Nat.mod_lt _ (by decide)),hbyte]
  by_cases hfirst : offset.toNat % 8 + p % 8 < 8
  · have hdiv : (offset.toNat + p) / 8 = offset.toNat / 8 + p / 8 := by omega
    have hmod : (offset.toNat + p) % 8 = offset.toNat % 8 + p % 8 := by omega
    rw [if_pos hfirst,windowWord_eq (by omega) (by omega),hdiv,hmod]
  · have hdiv : (offset.toNat + p) / 8 = offset.toNat / 8 + (p / 8 + 1) := by omega
    have hmod : (offset.toNat + p) % 8 = offset.toNat % 8 + p % 8 - 8 := by omega
    rw [if_neg hfirst,windowWord_eq (by omega) (by omega),hdiv,hmod]

theorem sliceLoop_eq (hinput : 0 < input.length) (hroom : input.length < 2 ^ 32) :
    (do
      let window := min (maxNWords + 1) input.length
      let rotated ← rotateLeftDynamic input (shr offset 3) window
      (range maxNWords).mapM fun sliceIdx => do
        let inWord := rotated.getD (sliceIdx % window) 0
        let nextWord := rotated.getD ((sliceIdx + 1) % window) 0
        let low ← varSrlBytes inWord (band offset 7)
        let high ← varSllBytes nextWord (isubBinBout 8 (band offset 7) 0).1
        return select (icmpEq (band offset 7) 0) inWord (bxor low high) : Gadget (List Word)) =
      .ok (sliceWords input offset maxNWords) := by
  have hwindow : 0 < min (maxNWords + 1) input.length := by omega
  dsimp only
  rw [rotateLeftDynamic_eq _ hinput (by omega) (Nat.min_le_right _ _),ok_bind]
  refine mapM_eq_map fun i _ => ?_
  have hget (j : ℕ) : ((range (min (maxNWords + 1) input.length)).map fun k =>
      input.getD (((shr offset 3).toNat % 2 ^ log2CeilUsize input.length + k) % input.length) 0).getD
        (j % min (maxNWords + 1) input.length) 0 =
      windowWord input offset (min (maxNWords + 1) input.length) j := by
    rw [getD_eq_getElem _ _ (by rw [length_map,length_range]; exact Nat.mod_lt _ hwindow),getElem_map,
      getElem_range,windowWord]
  rw [hget,hget,varSrlBytes_eq,varSllBytes_eq]
  rfl

def Fits (lenInput lenSlice offset : Word) (maxNWords : ℕ) : Prop :=
  offset.toNat + lenSlice.toNat ≤ lenInput.toNat ∧ lenSlice.toNat ≤ 8 * maxNWords

theorem slice_eq_ok (hinput : 0 < input.length) (hin : 8 * input.length < 2 ^ 32)
    (hout : 8 * maxNWords < 2 ^ 32) (hlen : lenInput.toNat ≤ 8 * input.length) {out : List Word} :
    slice lenInput lenSlice input offset maxNWords = .ok out ↔
      Fits lenInput lenSlice offset maxNWords ∧ out = sliceWords input offset maxNWords := by
  have hshift (n : ℕ) : n <<< 3 = 8 * n := by rw [Nat.shiftLeft_eq,Nat.mul_comm]
  have htop (x : Word) : shr x 32 = 0 ↔ x.toNat < 2 ^ 32 := by
    rw [←BitVec.toNat_inj,toNat_shr]
    have hzero : (0 : Word).toNat = 0 := rfl
    rw [hzero]
    omega
  have hloop := @sliceLoop_eq input maxNWords offset hinput (by omega)
  unfold slice
  dsimp only at hloop ⊢
  rw [hloop,hshift,hshift,ensure_ok (by omega),ok_bind,ensure_ok (by omega),ok_bind]
  have hwords : (if maxNWords = 0 then (pure [] : Gadget (List Word))
      else .ok (sliceWords input offset maxNWords)) = .ok (sliceWords input offset maxNWords) := by
    split
    · rename_i hnone
      subst hnone
      rfl
    · rfl
  rw [hwords]
  rw [and_then_eq_ok,and_then_eq_ok,and_then_eq_ok,and_then_eq_ok,and_then_eq_ok,assertZero_eq_ok,
    assertZero_eq_ok,assertZero_eq_ok,assertTrue_eq_ok,assertTrue_eq_ok,isMsbTrue_icmpUle,
    isMsbTrue_icmpUle,htop,htop,htop,iadd_eq,BitVec.toNat_add,toNat_const (show 8 * maxNWords < 2 ^ 64 by omega)]
  unfold Fits
  constructor
  · rintro ⟨hoffset,hslice,-,hbounds,hcap,hwords⟩
    exact ⟨⟨by omega,hcap⟩,(Except.ok.inj hwords).symm⟩
  · rintro ⟨⟨hbounds,hcap⟩,rfl⟩
    exact ⟨by omega,by omega,by omega,by omega,hcap,rfl⟩

theorem sliceWords_bytes (hlen : lenInput.toNat ≤ 8 * input.length)
    (hfits : Fits lenInput lenSlice offset maxNWords) {p : ℕ} (hp : p < lenSlice.toNat) :
    byteAt ((sliceWords input offset maxNWords).getD (p / 8) 0) (p % 8) =
      (((messageBytes input lenInput.toNat).drop offset.toNat).take lenSlice.toNat).getD p 0 := by
  obtain ⟨hbounds,hcap⟩ := hfits
  have hget : (((messageBytes input lenInput.toNat).drop offset.toNat).take lenSlice.toNat).getD p 0 =
      (messageBytes input lenInput.toNat).getD (offset.toNat + p) 0 := by
    rw [getD_eq_getElem?_getD,getElem?_take_of_lt hp,getElem?_drop,←getD_eq_getElem?_getD]
  rw [byteAt_sliceWords (by omega) (by omega),hget,messageBytes_getD _ (by omega)]

theorem messageBytes_eq_iff (words : List Word) {bytes : List Byte} {len : ℕ} (h : bytes.length = len) :
    messageBytes words len = bytes ↔
      ∀ p < len, byteAt (words.getD (p / 8) 0) (p % 8) = bytes.getD p 0 := by
  constructor
  · rintro rfl p hp
    exact (messageBytes_getD words hp).symm
  · intro hbytes
    refine ext_getElem (by rw [length_messageBytes,h]) fun p hp hp' => ?_
    rw [length_messageBytes] at hp
    have hget := messageBytes_getD words hp
    rw [hbytes p hp,getD_eq_getElem _ _ (by rwa [length_messageBytes]),getD_eq_getElem _ _ hp'] at hget
    exact hget

theorem slices_exact (name : String) (lenSlice offset : Word) (hinput : 0 < input.length)
    (hin : 8 * input.length < 2 ^ 32) (hout : 8 * maxNWords < 2 ^ 32)
    (hlen : lenInput.toNat ≤ 8 * input.length) :
    let fits := offset.toNat + lenSlice.toNat ≤ lenInput.toNat ∧ lenSlice.toNat ≤ 8 * maxNWords
    let bytes := ((messageBytes input lenInput.toNat).drop offset.toNat).take lenSlice.toNat
    ((∃ out, slice lenInput lenSlice input offset maxNWords = .ok out) ↔ fits) ∧
    (∀ out, slice lenInput lenSlice input offset maxNWords = .ok out →
      out.length = maxNWords ∧ messageBytes out lenSlice.toNat = bytes) ∧
    (∀ actual expected : List Word, actual.length = maxNWords → expected.length = maxNWords →
      (assertSliceEq name lenSlice actual expected = .ok () ↔
        ∀ p < 8 * maxNWords, p < lenSlice.toNat →
          byteAt (actual.getD (p / 8) 0) (p % 8) = byteAt (expected.getD (p / 8) 0) (p % 8))) ∧
    ∀ expected : List Word, expected.length = maxNWords →
      ((do
        let out ← slice lenInput lenSlice input offset maxNWords
        assertSliceEq name lenSlice out expected) = .ok () ↔
          fits ∧ messageBytes expected lenSlice.toNat = bytes) := by
  intro fits bytes
  have hslice {out : List Word} := @slice_eq_ok input maxNWords lenInput lenSlice offset hinput hin hout
    hlen out
  have hwords : (sliceWords input offset maxNWords).length = maxNWords := by
    rw [sliceWords,length_map,length_range]
  have hbytes (hfits : fits) : bytes.length = lenSlice.toNat := by
    rw [length_take,length_drop,length_messageBytes]
    exact Nat.min_eq_left (Nat.le_sub_of_add_le' hfits.1)
  have hcompare {actual expected : List Word} (ha : actual.length = maxNWords)
      (he : expected.length = maxNWords) := assertSliceEq_eq_ok name lenSlice (ha.trans he.symm) (by omega)
  refine ⟨⟨fun ⟨_,h⟩ => (hslice.mp h).1,fun h => ⟨_,hslice.mpr ⟨h,rfl⟩⟩⟩,fun out h => ?_,
    fun actual expected ha he => ?_,fun expected he => ?_⟩
  · obtain ⟨hfits,rfl⟩ := hslice.mp h
    exact ⟨hwords,(messageBytes_eq_iff _ (hbytes hfits)).mpr fun p hp => sliceWords_bytes hlen hfits hp⟩
  · rw [hcompare ha he,ha]
  · rw [bind_eq_ok]
    constructor
    · rintro ⟨out,h,hsame⟩
      obtain ⟨hfits,rfl⟩ := hslice.mp h
      rw [hcompare hwords he,hwords] at hsame
      refine ⟨hfits,(messageBytes_eq_iff _ (hbytes hfits)).mpr fun p hp => ?_⟩
      rw [←hsame p (hp.trans_le hfits.2) hp,sliceWords_bytes hlen hfits hp]
    · rintro ⟨hfits,hsame⟩
      refine ⟨_,hslice.mpr ⟨hfits,rfl⟩,(hcompare hwords he).mpr fun p _ hp => ?_⟩
      rw [sliceWords_bytes hlen hfits hp,(messageBytes_eq_iff _ (hbytes hfits)).mp hsame p hp]

theorem slices_exact_five : (do
    let out ← slice 16 5 [0x0706050403020100,0x0f0e0d0c0b0a0908] 6 1
    assertSliceEq "piece" 5 out [0xffffff0a09080706]) = .ok () :=
  ((slices_exact "piece" 5 6 (by decide) (by decide) (by decide) (by decide)).2.2.2 [0xffffff0a09080706]
    rfl).mpr (by decide)

end Binius64.Slices
