import Binius64.Slices
import Mathlib.Algebra.Order.BigOperators.Group.List

/-!
# Concatenation of byte vectors

The output is a hint, and each input pins its own part of it.
-/

namespace Binius64.Concat

open MachineWord (Word isMsbTrue)
open Wots (and_then_eq_ok iadd_eq)
open WordGates WordBytes ByteVectors CheckedRun Bignum Slices List

/-- A byte vector with the bounds on its length that are known when the circuit is built. -/
structure ByteVec where
  lenBytes : Word
  data : List Word
  lenStart : ℕ
  lenEnd : ℕ
  ordered : lenStart ≤ lenEnd
  room : lenEnd ≤ data.length * 8

/-- A byte vector of any length up to its capacity. -/
def ByteVec.new (data : List Word) (lenBytes : Word) : ByteVec :=
  ⟨lenBytes,data,0,data.length * 8,Nat.zero_le _,Nat.le_refl _⟩

def ByteVec.newWithLenRange (data : List Word) (lenBytes : Word) (lenStart lenEnd : ℕ) : Gadget ByteVec :=
  let capacity := data.length * 8
  if ordered : lenStart ≤ lenEnd then
    if room : lenEnd ≤ data.length * 8 then .ok ⟨lenBytes,data,lenStart,lenEnd,ordered,room⟩
    else .error (.panic s!"len_range.end {lenEnd} exceeds capacity {capacity}")
  else .error (.panic "invalid len_range: start > end")

/-- The bytes of a range that is known when the circuit is built, with whatever fills their last word. -/
def extractConstRange (data : List Word) (start stop : ℕ) : Gadget (List Word) := do
  let capacity := data.length * 8
  ensure (start ≤ stop) "invalid range: start > end"
  ensure (stop ≤ capacity) s!"range.end {stop} exceeds capacity {capacity}"
  let sliceLen := stop - start
  if sliceLen = 0 then return []
  else
    let startWordIdx := start / 8
    let lastWordIndex := (stop - 1) / 8
    let byteOffset := start % 8
    let numOutputWords := divCeil sliceLen 8
    if byteOffset = 0 then return (data.drop startWordIdx).take numOutputWords
    else
      return (range numOutputWords).map fun i =>
        let sourceIdx := startWordIdx + i
        let shiftedCurrent := shr (data.getD sourceIdx 0) (byteOffset * 8)
        if sourceIdx < lastWordIndex then
          let shiftedNext := shl (data.getD (sourceIdx + 1) 0) ((8 - byteOffset) * 8)
          bxor shiftedCurrent shiftedNext
        else shiftedCurrent

def assertConstSliceEq (name : String) (output : List Word) (offset : ℕ) (input : List Word) (len : ℕ) :
    Gadget Unit := do
  let extracted ← extractConstRange output offset (offset + len)
  let nWords := extracted.length
  let finalBytes := len % 8
  extracted.zipIdx.forM fun entry =>
    let k := entry.2
    let e := input.getD k 0
    if k + 1 = nWords ∧ finalBytes ≠ 0 then
      let mask := BitVec.ofNat 64 (1 <<< (finalBytes * 8) - 1)
      let diff := band (bxor entry.1 e) mask
      assertEq s!"{name}[{k}]" diff 0
    else assertEq s!"{name}[{k}]" entry.1 e

/-- Where the next input begins: as a wire, in bounds known at build time, and the words up to it. -/
structure Place where
  offset : Word
  start : ℕ
  stop : ℕ
  words : ℕ

def Place.advance (place : Place) (input : ByteVec) : Place where
  offset :=
    if place.start = place.stop ∧ input.lenStart = input.lenEnd then
      BitVec.ofNat 64 (place.start + input.lenStart)
    else if place.start = place.stop ∧ place.start = 0 then input.lenBytes
    else iadd place.offset input.lenBytes
  start := place.start + input.lenStart
  stop := place.stop + input.lenEnd
  words := place.words + input.data.length

def assertTerm (output : List Word) (i : ℕ) (place : Place) (input : ByteVec) : Gadget Unit := do
  let next := place.advance input
  let name := s!"subslice eq[{i}]"
  if place.start = place.stop then
    if input.lenStart = input.lenEnd then
      assertConstSliceEq name output place.start input.data input.lenStart
    else
      let region ← extractConstRange output place.start (place.start + input.data.length * 8)
      assertSliceEq name input.lenBytes region input.data
  else
    let extracted ← slice next.offset input.lenBytes (output.take next.words) place.offset input.data.length
    assertSliceEq name input.lenBytes extracted input.data

def concatTerm (output : List Word) (i : ℕ) (place : Place) (input : ByteVec) : Gadget Place := do
  assertTerm output i place input
  return place.advance input

/-- The bytes of the inputs one after another, each as far as its length. -/
def hintBytes : List ℕ → List Word → List Word → List Byte
  | d :: dimensions, len :: lenWires, dataWires =>
    messageBytes (dataWires.take d) (min len.toNat (d * 8)) ++
      hintBytes dimensions lenWires (dataWires.drop d)
  | _, _, _ => []

def byteVecConcatHint (dimensions : List ℕ) (inputs : List Word) : Gadget (List Word) :=
  let totalData := dimensions.sum
  let bytes := hintBytes dimensions (inputs.drop totalData) (inputs.take totalData)
  .ok ((range totalData).map (leWordAt bytes))

def concat (advice : Advice) (inputs : List ByteVec) : Gadget ByteVec := do
  let dimensions := inputs.map fun v => v.data.length
  let hintInputs := inputs.flatMap (fun v => v.data) ++ inputs.map fun v => v.lenBytes
  let totalData := dimensions.sum
  let outputData ← callHint advice (totalData + dimensions.length) totalData dimensions hintInputs
  let place ← inputs.zipIdx.foldlM (fun place entry => concatTerm outputData entry.2 place entry.1)
    ⟨0,0,0,0⟩
  ByteVec.newWithLenRange outputData place.offset place.start place.stop

theorem extractConstRange_ok (data : List Word) {start stop : ℕ} (hle : start ≤ stop)
    (hstop : stop ≤ data.length * 8) : ∃ out, extractConstRange data start stop = .ok out ∧
      out.length = divCeil (stop - start) 8 ∧ ∀ p < stop - start,
        byteAt (out.getD (p / 8) 0) (p % 8) = byteAt (data.getD ((start + p) / 8) 0) ((start + p) % 8) := by
  unfold extractConstRange
  dsimp only
  rw [ensure_ok hle,ok_bind,ensure_ok hstop,ok_bind]
  by_cases hnone : stop - start = 0
  · rw [if_pos hnone,hnone]
    exact ⟨[],rfl,rfl,fun p hp => absurd hp (Nat.not_lt_zero p)⟩
  · have hceil : 8 * divCeil (stop - start) 8 < stop - start + 8 ∧ stop - start ≤ 8 * divCeil (stop - start) 8 := by
      rw [divCeil]
      omega
    rw [if_neg hnone]
    by_cases haligned : start % 8 = 0
    · rw [if_pos haligned]
      refine ⟨_,rfl,?_,fun p hp => ?_⟩
      · rw [length_take,length_drop]
        omega
      · have hdiv : (start + p) / 8 = start / 8 + p / 8 := by omega
        have hmod : (start + p) % 8 = p % 8 := by omega
        rw [getD_eq_getElem?_getD,getElem?_take_of_lt (by omega),getElem?_drop,←getD_eq_getElem?_getD,hdiv,
          hmod]
    · rw [if_neg haligned]
      refine ⟨_,rfl,by rw [length_map,length_range],fun p hp => ?_⟩
      have hin : p / 8 < divCeil (stop - start) 8 := by omega
      have hshr (x : Word) : shr x (start % 8 * 8) = x >>> (8 * (start % 8)) := by
        rw [Nat.mul_comm]
        rfl
      have hshl (x : Word) : shl x ((8 - start % 8) * 8) = x <<< (8 * (8 - start % 8)) := by
        rw [Nat.mul_comm]
        rfl
      have hnext : 8 ≤ start % 8 + p % 8 → start / 8 + p / 8 < (stop - 1) / 8 := by omega
      rw [getD_eq_getElem _ _ (by rwa [length_map,length_range]),getElem_map,getElem_range,hshr,hshl]
      by_cases hfirst : start % 8 + p % 8 < 8
      · have hdiv : (start + p) / 8 = start / 8 + p / 8 := by omega
        have hmod : (start + p) % 8 = start % 8 + p % 8 := by omega
        rw [hdiv,hmod]
        split
        · rw [bxor,byteAt_joined _ _ (by omega) (by omega),if_pos hfirst]
        · rw [byteAt_ushiftRight]
      · have hdiv : (start + p) / 8 = start / 8 + p / 8 + 1 := by omega
        have hmod : (start + p) % 8 = start % 8 + p % 8 - 8 := by omega
        rw [hdiv,hmod,if_pos (hnext (by omega)),bxor,byteAt_joined _ _ (by omega) (by omega),
          if_neg hfirst]

theorem band_mask_eq_zero (a e : Word) {f : ℕ} (hf : f < 8) :
    band (bxor a e) (BitVec.ofNat 64 (1 <<< (f * 8) - 1)) = 0 ↔ ∀ k < f, byteAt a k = byteAt e k := by
  have hbyte (k : ℕ) (hk : k < 8) : byteAt (band (bxor a e) (BitVec.ofNat 64 (1 <<< (f * 8) - 1))) k =
      if k < f then byteAt a k ^^^ byteAt e k else 0 := by
    have hmask : byteAt (BitVec.ofNat 64 (1 <<< (f * 8) - 1)) k = if k < f then BitVec.allOnes 8 else 0 := by
      apply BitVec.eq_of_getLsbD_eq
      intro i hi
      rw [byteAt_bit,BitVec.getLsbD_ofNat,Nat.one_shiftLeft,Nat.testBit_two_pow_sub_one,decide_eq_true hi,
        decide_eq_true (show 8 * k + i < 64 by omega),Bool.true_and,Bool.true_and]
      by_cases hin : k < f
      · rw [if_pos hin,decide_eq_true (by omega),BitVec.getLsbD_allOnes,decide_eq_true hi]
      · rw [if_neg hin,decide_eq_false (by omega)]
        exact BitVec.getLsbD_zero.symm
    rw [band,bxor,byteAt_and,byteAt_xor,hmask]
    split
    · exact BitVec.and_allOnes
    · exact BitVec.and_zero
  constructor
  · intro h k hk
    have hzero := hbyte k (by omega)
    rw [h,byteAt_zero,if_pos hk] at hzero
    exact BitVec.xor_eq_zero_iff.mp hzero.symm
  · intro h
    refine eq_of_byteAt (n := 8) (by decide) fun k hk => ?_
    rw [hbyte k hk,byteAt_zero]
    split
    · rename_i hin
      rw [h k hin,BitVec.xor_self]
      rfl
    · rfl

def Holds (output : List Word) (offset : ℕ) (data : List Word) (len : ℕ) : Prop :=
  ∀ p < len, byteAt (output.getD ((offset + p) / 8) 0) ((offset + p) % 8) =
    byteAt (data.getD (p / 8) 0) (p % 8)

theorem assertConstSliceEq_eq_ok (name : String) {output input : List Word} {offset len : ℕ}
    (hout : offset + len ≤ output.length * 8) :
    assertConstSliceEq name output offset input len = .ok () ↔ Holds output offset input len := by
  obtain ⟨out,hrun,hlen,hbytes⟩ := extractConstRange_ok output (Nat.le_add_right offset len) hout
  rw [Nat.add_sub_cancel_left] at hlen hbytes
  have hceil : len ≤ 8 * out.length ∧ 8 * out.length < len + 8 := by
    rw [hlen,divCeil]
    omega
  unfold assertConstSliceEq
  rw [hrun,ok_bind,forM_eq_ok]
  dsimp only
  have hword (k : ℕ) (hk : k < out.length) : (if k + 1 = out.length ∧ len % 8 ≠ 0 then
      assertEq s!"{name}[{k}]" (band (bxor (out.getD k 0) (input.getD k 0))
        (BitVec.ofNat 64 (1 <<< (len % 8 * 8) - 1))) 0
      else assertEq s!"{name}[{k}]" (out.getD k 0) (input.getD k 0)) = .ok () ↔
      ∀ j < 8, 8 * k + j < len → byteAt (out.getD k 0) j = byteAt (input.getD k 0) j := by
    by_cases hlast : k + 1 = out.length ∧ len % 8 ≠ 0
    · rw [if_pos hlast,assertEq_eq_ok,band_mask_eq_zero _ _ (Nat.mod_lt _ (by decide))]
      exact ⟨fun h j _ hin => h j (by omega),fun h j hj => h j (by omega) (by omega)⟩
    · rw [if_neg hlast,assertEq_eq_ok]
      exact ⟨fun h j _ _ => by rw [h],
        fun h => eq_of_byteAt (n := 8) (by decide) fun j hj => h j hj (by omega)⟩
  constructor
  · intro h p hp
    have hk : p / 8 < out.length := by omega
    have hmem : (out.getD (p / 8) 0,p / 8) ∈ out.zipIdx := by
      rw [mk_mem_zipIdx_iff_getElem?,getD_eq_getElem _ _ hk]
      exact getElem?_eq_getElem hk
    rw [←hbytes p hp]
    exact (hword _ hk).mp (h _ hmem) _ (Nat.mod_lt _ (by decide)) (by omega)
  · rintro h ⟨a,k⟩ hmem
    rw [mk_mem_zipIdx_iff_getElem?] at hmem
    obtain ⟨hk,rfl⟩ := List.getElem?_eq_some_iff.mp hmem
    rw [←getD_eq_getElem out 0 hk]
    refine (hword k hk).mpr fun j hj hin => ?_
    have hdiv : (8 * k + j) / 8 = k := by omega
    have hmod : (8 * k + j) % 8 = j := by omega
    have hsame := hbytes (8 * k + j) hin
    have hinput := h (8 * k + j) hin
    rw [hdiv,hmod] at hsame hinput
    rw [hsame,hinput]

theorem assertRegionEq_eq_ok (name : String) {lenBytes : Word} {output region input : List Word}
    {offset : ℕ} (hlen : region.length = input.length) (hroom : region.length < 2 ^ 61)
    (hcap : lenBytes.toNat ≤ 8 * input.length) (hbytes : ∀ p < lenBytes.toNat,
      byteAt (region.getD (p / 8) 0) (p % 8) =
        byteAt (output.getD ((offset + p) / 8) 0) ((offset + p) % 8)) :
    assertSliceEq name lenBytes region input = .ok () ↔ Holds output offset input lenBytes.toNat := by
  rw [assertSliceEq_eq_ok name lenBytes hlen hroom]
  constructor
  · intro h p hp
    rw [←hbytes p hp]
    exact h p (by omega) hp
  · intro h p _ hp
    rw [hbytes p hp]
    exact h p hp

/-- The wire of a place has the lengths before it as its value, within the known bounds. -/
structure Place.At (place : Place) (offset : ℕ) : Prop where
  value : place.offset.toNat = offset
  start_le : place.start ≤ offset
  le_stop : offset ≤ place.stop
  room : place.stop ≤ place.words * 8

/-- The runtime length lies in the declared range. -/
def ByteVec.InRange (v : ByteVec) : Prop :=
  v.lenStart ≤ v.lenBytes.toNat ∧ v.lenBytes.toNat ≤ v.lenEnd

theorem Place.At.advance {place : Place} {offset : ℕ} {v : ByteVec} (hat : place.At offset)
    (hv : v.InRange) (hroom : place.words + v.data.length < 2 ^ 58) :
    (place.advance v).At (offset + v.lenBytes.toNat) := by
  obtain ⟨hvalue,hstart,hstop,hwords⟩ := hat
  obtain ⟨hlo,hhi⟩ := hv
  have hcap := v.room
  refine ⟨?_,Nat.add_le_add hstart hlo,Nat.add_le_add hstop hhi,?_⟩
  · unfold Place.advance
    dsimp only
    by_cases hconst : place.start = place.stop ∧ v.lenStart = v.lenEnd
    · rw [if_pos hconst,toNat_const (by omega)]
      omega
    · rw [if_neg hconst]
      by_cases hzero : place.start = place.stop ∧ place.start = 0
      · rw [if_pos hzero]
        omega
      · rw [if_neg hzero,iadd_eq,BitVec.toNat_add,hvalue]
        exact Nat.mod_eq_of_lt (by omega)
  · rw [Place.advance,Nat.add_mul]
    exact Nat.add_le_add hwords hcap

theorem slice_room {lenInput lenSlice offset : Word} {input out : List Word} {maxNWords : ℕ}
    (h : slice lenInput lenSlice input offset maxNWords = .ok out) : 8 * input.length < 2 ^ 32 := by
  unfold slice at h
  dsimp only at h
  rw [and_then_eq_ok,ensure_eq_ok,Nat.shiftLeft_eq] at h
  omega

/-- A term holds exactly when the output has its bytes, and advances the place. -/
theorem concatTerm_eq_ok {output : List Word} (i : ℕ) {place next : Place} {offset : ℕ} {v : ByteVec}
    (hat : place.At offset) (hv : v.InRange) (hwords : place.words + v.data.length ≤ output.length)
    (hroom : output.length < 2 ^ 58) : concatTerm output i place v = .ok next ↔
      ((place.start ≠ place.stop → 8 * (place.words + v.data.length) < 2 ^ 32) ∧
        Holds output offset v.data v.lenBytes.toNat) ∧ next = place.advance v := by
  have hnext := hat.advance hv (hwords.trans_lt hroom)
  obtain ⟨hvalue,hstart,hstop,hplace⟩ := hat
  obtain ⟨hlo,hhi⟩ := hv
  have hcap := v.room
  rw [concatTerm,and_then_eq_ok,pure_eq_ok,eq_comm (a := place.advance v)]
  refine and_congr_left' ?_
  unfold assertTerm
  dsimp only
  by_cases hconst : place.start = place.stop
  · have hoffset : place.start = offset := by omega
    rw [if_pos hconst]
    refine Iff.trans ?_ (and_iff_right fun hne => absurd hconst hne).symm
    by_cases hlen : v.lenStart = v.lenEnd
    · have hvlen : v.lenStart = v.lenBytes.toNat := by omega
      rw [if_pos hlen,assertConstSliceEq_eq_ok _ (by omega),hoffset,hvlen]
    · obtain ⟨region,hrun,hsize,hbytes⟩ := extractConstRange_ok output (Nat.le_add_right place.start
        (v.data.length * 8)) (by omega)
      rw [Nat.add_sub_cancel_left] at hsize hbytes
      have hdiv : divCeil (v.data.length * 8) 8 = v.data.length := by
        rw [divCeil]
        omega
      rw [hdiv] at hsize
      rw [if_neg hlen,hrun,ok_bind,assertRegionEq_eq_ok _ hsize (by omega) (by omega) fun p hp =>
        hbytes p (by omega),hoffset]
  · rw [if_neg hconst]
    have hinput : (output.take (place.advance v).words).length = place.words + v.data.length :=
      length_take_of_le hwords
    by_cases hfit : 8 * (place.words + v.data.length) < 2 ^ 32
    · have hfits : Fits (place.advance v).offset v.lenBytes place.offset v.data.length := by
        refine ⟨?_,by omega⟩
        rw [hnext.value,hvalue]
      have hslice := (@slice_eq_ok (output.take (place.advance v).words) v.data.length
        (place.advance v).offset v.lenBytes place.offset (by omega) (by omega) (by omega)
        (by rw [hnext.value,hinput]; omega) _).mpr ⟨hfits,rfl⟩
      have hsize : (sliceWords (output.take (place.advance v).words) place.offset
          v.data.length).length = v.data.length := by
        rw [sliceWords,length_map,length_range]
      rw [hslice,ok_bind,assertRegionEq_eq_ok _ hsize (by omega) (by omega) fun p hp => ?_]
      · exact ⟨fun h => ⟨fun _ => hfit,h⟩,fun h => h.2⟩
      · have htake : (output.take (place.advance v).words).getD ((offset + p) / 8) 0 =
            output.getD ((offset + p) / 8) 0 := by
          have hlt : (offset + p) / 8 < (place.advance v).words :=
            show (offset + p) / 8 < place.words + v.data.length by omega
          rw [getD_eq_getElem?_getD,getElem?_take_of_lt hlt,←getD_eq_getElem?_getD]
        rw [byteAt_sliceWords (by omega) (by rw [hinput]; omega),hvalue,htake]
    · constructor
      · intro h
        obtain ⟨extracted,hslice,-⟩ := bind_eq_ok.mp h
        have hlt := slice_room hslice
        rw [hinput] at hlt
        exact absurd hlt hfit
      · intro h
        exact absurd (h.1 hconst) hfit

def allBytes (inputs : List ByteVec) : List Byte :=
  inputs.flatMap fun v => messageBytes v.data v.lenBytes.toNat

def totalLen (inputs : List ByteVec) : ℕ := (inputs.map fun v => v.lenBytes.toNat).sum

def totalWords (inputs : List ByteVec) : ℕ := (inputs.map fun v => v.data.length).sum

theorem length_allBytes (inputs : List ByteVec) : (allBytes inputs).length = totalLen inputs := by
  rw [allBytes,length_flatMap,totalLen]
  exact congrArg List.sum (map_congr_left fun v _ => length_messageBytes _ _)

def Begins (output : List Word) (offset : ℕ) (inputs : List ByteVec) : Prop :=
  ∀ p < totalLen inputs, byteAt (output.getD ((offset + p) / 8) 0) ((offset + p) % 8) =
    (allBytes inputs).getD p 0

theorem begins_cons {output : List Word} {offset : ℕ} {v : ByteVec} {inputs : List ByteVec} :
    Begins output offset (v :: inputs) ↔ Holds output offset v.data v.lenBytes.toNat ∧
      Begins output (offset + v.lenBytes.toNat) inputs := by
  have hsum : totalLen (v :: inputs) = v.lenBytes.toNat + totalLen inputs := sum_cons
  have hall : allBytes (v :: inputs) = messageBytes v.data v.lenBytes.toNat ++ allBytes inputs :=
    flatMap_cons
  have hlow (p : ℕ) (hp : p < v.lenBytes.toNat) : (allBytes (v :: inputs)).getD p 0 =
      byteAt (v.data.getD (p / 8) 0) (p % 8) := by
    rw [hall,getD_append _ _ _ _ (by rwa [length_messageBytes]),messageBytes_getD _ hp]
  have hhigh (p : ℕ) : (allBytes (v :: inputs)).getD (v.lenBytes.toNat + p) 0 =
      (allBytes inputs).getD p 0 := by
    rw [hall,getD_append_right _ _ _ _ (by rw [length_messageBytes]; omega),length_messageBytes,
      Nat.add_sub_cancel_left]
  constructor
  · intro h
    refine ⟨fun p hp => ?_,fun p hp => ?_⟩
    · rw [h p (by omega),hlow p hp]
    · rw [Nat.add_assoc,h _ (by omega),hhigh]
  · rintro ⟨hv,hrest⟩ p hp
    by_cases hlt : p < v.lenBytes.toNat
    · rw [hv p hlt,hlow p hlt]
    · obtain ⟨q,rfl⟩ := Nat.exists_eq_add_of_le (Nat.le_of_not_lt hlt)
      rw [←Nat.add_assoc,hrest q (by omega),hhigh]

/-- The terms of all inputs hold exactly when the output begins with the inputs' bytes. -/
theorem terms_run {output : List Word} {inputs : List ByteVec} (hinputs : ∀ v ∈ inputs, v.InRange)
    (hroom : output.length < 2 ^ 58) {place : Place} {offset : ℕ} (hat : place.At offset)
    (hwords : place.words + totalWords inputs = output.length) (n : ℕ) :
    (∀ final, (inputs.zipIdx n).foldlM (fun place entry => concatTerm output entry.2 place entry.1) place =
      .ok final → Begins output offset inputs ∧ final.At (offset + totalLen inputs) ∧
        final.words = output.length) ∧
    (8 * output.length < 2 ^ 32 → Begins output offset inputs → ∃ final,
      (inputs.zipIdx n).foldlM (fun place entry => concatTerm output entry.2 place entry.1) place =
        .ok final) := by
  induction inputs generalizing place offset n with
  | nil =>
    refine ⟨fun final h => ?_,fun _ _ => ⟨place,rfl⟩⟩
    cases h
    exact ⟨fun p hp => absurd hp (Nat.not_lt_zero p),hat,hwords⟩
  | cons v inputs ih =>
    have hv := hinputs v mem_cons_self
    have hsum : totalWords (v :: inputs) = v.data.length + totalWords inputs := sum_cons
    have hlen : totalLen (v :: inputs) = v.lenBytes.toNat + totalLen inputs := sum_cons
    have hterm {next : Place} := @concatTerm_eq_ok output n place next offset v hat hv (by omega) hroom
    have hnext := hat.advance hv (by omega)
    have hrest := ih (fun u hu => hinputs u (mem_cons_of_mem v hu)) hnext
      (show place.words + v.data.length + totalWords inputs = output.length by omega) (n + 1)
    rw [zipIdx_cons,foldlM_cons,begins_cons,hlen,←Nat.add_assoc]
    constructor
    · intro final h
      obtain ⟨next,hfirst,hrun⟩ := bind_eq_ok.mp h
      obtain ⟨⟨-,hholds⟩,rfl⟩ := hterm.mp hfirst
      obtain ⟨hbegins,hfinal⟩ := hrest.1 final hrun
      exact ⟨⟨hholds,hbegins⟩,hfinal⟩
    · rintro hfit ⟨hholds,hbegins⟩
      obtain ⟨final,hrun⟩ := hrest.2 hfit hbegins
      refine ⟨final,?_⟩
      rw [hterm.mpr ⟨⟨fun _ => by omega,hholds⟩,rfl⟩]
      exact hrun

theorem hintBytes_eq {inputs : List ByteVec} (hinputs : ∀ v ∈ inputs, v.InRange) :
    hintBytes (inputs.map fun v => v.data.length) (inputs.map fun v => v.lenBytes)
      (inputs.flatMap fun v => v.data) = allBytes inputs := by
  induction inputs with
  | nil => rfl
  | cons v inputs ih =>
    have hlen : v.lenBytes.toNat ≤ v.data.length * 8 := (hinputs v mem_cons_self).2.trans v.room
    rw [map_cons,map_cons,flatMap_cons,hintBytes,take_left' rfl,drop_left' rfl,Nat.min_eq_left hlen,
      ih fun u hu => hinputs u (mem_cons_of_mem v hu)]
    rfl

theorem length_data (inputs : List ByteVec) :
    (inputs.flatMap fun v => v.data).length = totalWords inputs := length_flatMap

theorem byteVecConcatHint_ok {inputs : List ByteVec} (hinputs : ∀ v ∈ inputs, v.InRange) :
    byteVecConcatHint (inputs.map fun v => v.data.length)
        (inputs.flatMap (fun v => v.data) ++ inputs.map fun v => v.lenBytes) =
      .ok ((range (totalWords inputs)).map (leWordAt (allBytes inputs))) := by
  have hsum : (inputs.map fun v => v.data.length).sum = totalWords inputs := rfl
  unfold byteVecConcatHint
  dsimp only
  rw [hsum,drop_left' (length_data inputs),take_left' (length_data inputs),hintBytes_eq hinputs]

/-- The honest output begins with the inputs, whatever its last word holds. -/
theorem begins_honest {inputs : List ByteVec} (hinputs : ∀ v ∈ inputs, v.InRange) :
    Begins ((range (totalWords inputs)).map (leWordAt (allBytes inputs))) 0 inputs := by
  have hbound : totalLen inputs ≤ 8 * totalWords inputs := by
    induction inputs with
    | nil => exact Nat.le_refl 0
    | cons v inputs ih =>
      have hv : v.lenBytes.toNat ≤ v.data.length * 8 := (hinputs v mem_cons_self).2.trans v.room
      have hrest := ih fun u hu => hinputs u (mem_cons_of_mem v hu)
      have hsum : totalWords (v :: inputs) = v.data.length + totalWords inputs := sum_cons
      have hlen : totalLen (v :: inputs) = v.lenBytes.toNat + totalLen inputs := sum_cons
      omega
  intro p hp
  rw [Nat.zero_add,getD_eq_getElem _ _ (by rw [length_map,length_range]; omega),getElem_map,
    getElem_range,byteAt_leWordAt _ _ (Nat.mod_lt p (by decide)),Nat.div_add_mod]

theorem newWithLenRange_eq_ok {data : List Word} {lenBytes : Word} {lenStart lenEnd : ℕ} {out : ByteVec}
    (h : ByteVec.newWithLenRange data lenBytes lenStart lenEnd = .ok out) :
    out.data = data ∧ out.lenBytes = lenBytes := by
  unfold ByteVec.newWithLenRange at h
  dsimp only at h
  split at h
  · split at h
    · cases h
      exact ⟨rfl,rfl⟩
    · cases h
  · cases h

/-- Concatenation: what it accepts begins with the inputs in order, and honest hints are accepted. -/
theorem concat_exact {inputs : List ByteVec} (hinputs : ∀ v ∈ inputs, v.InRange) :
    (∀ advice out, concat advice inputs = .ok out →
      out.lenBytes.toNat = totalLen inputs ∧
        messageBytes out.data out.lenBytes.toNat = allBytes inputs) ∧
    ∀ advice : Advice, advice.Follows byteVecConcatHint → 8 * totalWords inputs < 2 ^ 32 →
      totalWords inputs + inputs.length ≤ maxHintField → ∃ out, concat advice inputs = .ok out := by
  have hstart : Place.At ⟨0,0,0,0⟩ 0 := ⟨rfl,Nat.le_refl 0,Nat.le_refl 0,Nat.le_refl 0⟩
  have hrun {output : List Word} (hlen : output.length = totalWords inputs) (hroom : output.length < 2 ^ 58) :=
    terms_run hinputs hroom hstart (show 0 + totalWords inputs = output.length by omega) 0
  refine ⟨fun advice out h => ?_,fun advice hfollows hfit hcount => ?_⟩
  · unfold concat at h
    dsimp only at h
    obtain ⟨output,hcall,hbody⟩ := bind_eq_ok.mp h
    obtain ⟨final,hfinal,hout⟩ := bind_eq_ok.mp hbody
    obtain ⟨hdata,hlenBytes⟩ := newWithLenRange_eq_ok hout
    unfold callHint at hcall
    rw [and_then_eq_ok,and_then_eq_ok,ensure_eq_ok,pure_eq_ok] at hcall
    obtain ⟨⟨-,hcount,-⟩,-,rfl⟩ := hcall
    have hlen : ((range (totalWords inputs)).map (advice (inputs.map fun v => v.data.length)
        (inputs.flatMap (fun v => v.data) ++ inputs.map fun v => v.lenBytes))).length =
        totalWords inputs := by
      rw [length_map,length_range]
    have hmax : totalWords inputs ≤ 2 ^ 32 - 1 := hcount
    obtain ⟨hbegins,hat,-⟩ := (hrun hlen (by omega)).1 final hfinal
    have hvalue : out.lenBytes.toNat = totalLen inputs := by
      rw [hlenBytes,hat.value,Nat.zero_add]
    refine ⟨hvalue,?_⟩
    rw [hdata,messageBytes_eq_iff _ ((length_allBytes inputs).trans hvalue.symm)]
    intro p hp
    have hbyte := hbegins p (by omega)
    rw [Nat.zero_add] at hbyte
    exact hbyte
  · have hmax : maxHintField = 2 ^ 32 - 1 := rfl
    have hdims : (inputs.map fun v => v.data.length).length = inputs.length := length_map _
    have hsum : (inputs.map fun v => v.data.length).sum = totalWords inputs := rfl
    have hall : ∀ d ∈ inputs.map fun v => v.data.length, d ≤ maxHintField := by
      intro d hd
      have hle := List.single_le_sum (fun _ _ => Nat.zero_le _) d hd
      omega
    obtain ⟨output,hcall,hlen,honest⟩ := callHint_ok advice (totalWords inputs + inputs.length)
      (totalWords inputs) (inputs.map fun v => v.data.length)
      (inputs.flatMap (fun v => v.data) ++ inputs.map fun v => v.lenBytes) hcount (by omega)
      (by omega) hall (by rw [length_append,length_data,length_map])
    have hsame := honest _ _ hfollows (byteVecConcatHint_ok hinputs) (by rw [length_map,length_range])
    have hroom : output.length < 2 ^ 58 := by omega
    obtain ⟨final,hfinal⟩ := (hrun hlen hroom).2 (by omega) (by rw [hsame]; exact begins_honest hinputs)
    obtain ⟨-,hat,hwords⟩ := (hrun hlen hroom).1 final hfinal
    have hordered : final.start ≤ final.stop := hat.start_le.trans hat.le_stop
    have hcap : final.stop ≤ output.length * 8 := hwords ▸ hat.room
    refine ⟨⟨final.offset,output,final.start,final.stop,hordered,hcap⟩,?_⟩
    unfold concat
    dsimp only
    rw [hdims,hsum,hcall,ok_bind,hfinal,ok_bind,ByteVec.newWithLenRange,dif_pos hordered,dif_pos hcap]

theorem concat_exact_two : ∃ out, concat (Advice.honest byteVecConcatHint)
    [.new [0xff636261] 3,.new [0xee6564] 2] = .ok out :=
  (concat_exact (by unfold ByteVec.InRange; decide)).2 _ (Advice.honest_follows _) (by decide) (by decide)

end Binius64.Concat
