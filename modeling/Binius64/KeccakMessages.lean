import Binius64.ByteVectors
import Binius64.Multiplexers

/-!
# Keccak-256 of messages

The sponge of a message with multi-rate padding, over any permutation, and the two gadgets that
compute it.
-/

namespace Binius64.Keccak

open MachineWord (Word msbOne isMsbTrue)
open WordGates CheckedRun Bignum Multiplexers WordBytes ByteVectors List
open BitVec (and_zero ofNat_eq_ofNat toNat_inj xor_zero)

def rateBytes : ℕ := 136

def nWordsPerBlock : ℕ := rateBytes / 8

abbrev State := Fin 25 → Word

variable (keccakF1600 : State → State)

def absorb (state : State) (block : ℕ → Word) : State :=
  keccakF1600 fun i => if i.val < nWordsPerBlock then bxor (state i) (block i) else state i

def sponge (word : ℕ → Word) : ℕ → State
  | 0 => fun _ => 0
  | b + 1 => absorb keccakF1600 (sponge word b) fun i => word (nWordsPerBlock * b + i)

variable (bytes : List Byte)

/-- Multi-rate padding behind the domain bit of Keccak: a one, zeros, a one. -/
def pad : List Byte :=
  let q := rateBytes - bytes.length % rateBytes
  bytes ++ if q = 1 then [0x81] else 0x01 :: replicate (q - 2) 0 ++ [0x80]

/-- The first words of the state after the padded message. -/
def digest : Fin 4 → Word :=
  let padded := pad bytes
  fun i => sponge keccakF1600 (leWordAt padded) (padded.length / rateBytes) (i.castLE (by decide))

def delimitedMessage (message : List Word) (lenBytes : ℕ) : List Word :=
  if lenBytes % 8 = 0 then message ++ [0x01]
  else
    let byteInWord := lenBytes % 8
    let mask := BitVec.ofNat 64 (2 ^ (byteInWord * 8) - 1)
    let paddingBit := BitVec.ofNat 64 (2 ^ (byteInWord * 8))
    message.dropLast ++ [bxor (band (message.getD (message.length - 1) 0) mask) paddingBit]

/-- The gadget for a length known when the circuit is built. -/
def keccak256 (message : List Word) (lenBytes : ℕ) : Gadget (Fin 4 → Word) := do
  ensure (message.length = divCeil lenBytes 8) "message.len() must equal len_bytes.div_ceil(8)"
  let nBlocks := divCeil (lenBytes + 1) rateBytes
  let nPaddedWords := nBlocks * nWordsPerBlock
  let started := delimitedMessage message lenBytes
  let resized := started ++ replicate (nPaddedWords - started.length) 0
  let padded := resized.set (nPaddedWords - 1) (bxor (resized.getD (nPaddedWords - 1) 0) ((0x80 : Word) <<< 56))
  return fun i => sponge keccakF1600 (fun j => padded.getD j 0) nBlocks (i.castLE (by decide))

/-- The block that holds the byte behind the message, found by a scan. -/
def endBlockIndex (lenBytes : Word) (nBlocks : ℕ) : Word :=
  (range nBlocks).foldl (fun found blockNo =>
    let gteStart := bnot (icmpUlt lenBytes (BitVec.ofNat 64 (blockNo * rateBytes)))
    let ltEnd := icmpUlt lenBytes (BitVec.ofNat 64 ((blockNo + 1) * rateBytes))
    select (band gteStart ltEnd) (BitVec.ofNat 64 blockNo) found) 0

variable (x : Word)

/-- A word whose first bytes are kept, with the delimiter behind them. -/
def delimited (i : ℕ) : Word :=
  bxor (band x ((0x00ffffffffffffff : Word) >>> ((7 - i) * 8))) ((1 : Word) <<< (i * 8))

variable (data : List Word)

def boundaryWord (lenBytes : Word) : Word :=
  let boundaryMessageWord := singleWireMultiplex data (shr lenBytes 3)
  let candidates := (range 8).map (delimited boundaryMessageWord)
  singleWireMultiplex candidates (band lenBytes 7)

def paddedMessageWord (lenBytes endBlock boundary : Word) (wordIndex : ℕ) : Word :=
  let wBd := shr lenBytes 3
  let isMessageWord := icmpUlt (BitVec.ofNat 64 wordIndex) wBd
  let isBoundaryWord := icmpEq (BitVec.ofNat 64 wordIndex) wBd
  let isEndBlock := icmpEq (BitVec.ofNat 64 (wordIndex / nWordsPerBlock)) endBlock
  let msgWord := if wordIndex < data.length then data.getD wordIndex 0 else 0
  let isLastColumn := wordIndex % nWordsPerBlock = nWordsPerBlock - 1
  let delimiter := if isLastColumn then select isEndBlock msbOne 0 else 0
  let boundaryVal := if isLastColumn then bxor boundary delimiter else boundary
  select isMessageWord msgWord (select isBoundaryWord boundaryVal delimiter)

def keccak256Varlen (message : ByteVec) : Gadget (Fin 4 → Word) := do
  let maxLenBytes := message.data.length * 8
  let nBlocks := divCeil (maxLenBytes + 1) rateBytes
  assertFalse "len_check" (icmpUlt (BitVec.ofNat 64 maxLenBytes) message.lenBytes)
  let endBlock := endBlockIndex message.lenBytes nBlocks
  let boundary := boundaryWord message.data message.lenBytes
  let word := paddedMessageWord message.data message.lenBytes endBlock boundary
  let states := (range nBlocks).map fun blockNo => sponge keccakF1600 word (blockNo + 1)
  let digestVec ← multiWireMultiplex (states.map ofFn) endBlock
  return fun i => digestVec.getD i 0

variable {keccakF1600 : State → State}

theorem sponge_congr {word word' : ℕ → Word} (b : ℕ)
    (h : ∀ j < nWordsPerBlock * b, word j = word' j) :
    sponge keccakF1600 word b = sponge keccakF1600 word' b := by
  induction b with
  | zero => rfl
  | succ b ih =>
    have hprev := ih fun j hj => h j (by rw [Nat.mul_succ]; omega)
    rw [sponge,sponge,hprev,absorb,absorb]
    refine congrArg keccakF1600 (funext fun i => ?_)
    by_cases hi : i.val < nWordsPerBlock
    · rw [if_pos hi,if_pos hi,h _ (by rw [Nat.mul_succ]; omega)]
    · rw [if_neg hi,if_neg hi]

theorem length_pad : (pad bytes).length = rateBytes * (bytes.length / rateBytes + 1) := by
  have hmod := Nat.mod_lt bytes.length (show 0 < rateBytes by decide)
  have hdiv := Nat.div_add_mod bytes.length rateBytes
  unfold pad
  dsimp only
  rw [length_append,Nat.mul_succ]
  split
  · rw [length_singleton]
    omega
  · rw [length_append,length_cons,length_replicate,length_singleton]
    omega

theorem pad_getD {p : ℕ} (hp : p < rateBytes * (bytes.length / rateBytes + 1)) :
    (pad bytes).getD p 0 =
      (if p < bytes.length then bytes.getD p 0 else if p = bytes.length then 1 else 0) ^^^
        (if p + 1 = rateBytes * (bytes.length / rateBytes + 1) then 0x80 else 0) := by
  have hmod := Nat.mod_lt bytes.length (show 0 < rateBytes by decide)
  have hdiv := Nat.div_add_mod bytes.length rateBytes
  rw [Nat.mul_succ] at hp ⊢
  unfold pad
  dsimp only
  by_cases hin : p < bytes.length
  · rw [getD_append _ _ _ _ hin,if_pos hin,if_neg (by omega),ofNat_eq_ofNat,xor_zero]
  · rw [getD_append_right _ _ _ _ (by omega),if_neg hin]
    by_cases hq : rateBytes - bytes.length % rateBytes = 1
    · rw [if_pos hq,if_pos (by omega),if_pos (by omega),show p - bytes.length = 0 by omega]
      rfl
    · rw [if_neg hq,cons_append]
      rcases Nat.eq_or_lt_of_le (Nat.le_of_not_lt hin) with heq | hlt
      · rw [if_pos heq.symm,if_neg (by omega),show p - bytes.length = 0 by omega]
        rfl
      · rw [if_neg (by omega),show p - bytes.length = p - bytes.length - 1 + 1 by omega,getD_cons_succ]
        by_cases hlast : p + 1 = rateBytes * (bytes.length / rateBytes) + rateBytes
        · rw [if_pos hlast,getD_append_right _ _ _ _ (by rw [length_replicate]; omega),
            length_replicate,show p - bytes.length - 1 - (rateBytes - bytes.length % rateBytes - 2) = 0 by omega]
          rfl
        · have hrep : p - bytes.length - 1 < rateBytes - bytes.length % rateBytes - 2 := by omega
          rw [if_neg hlast,getD_append _ _ _ _ (by rwa [length_replicate]),getD_replicate _ hrep]
          rfl

def paddedWord (len j : ℕ) : Word :=
  (if j < len / 8 then data.getD j 0 else if j = len / 8 then delimited (data.getD j 0) (len % 8) else 0) ^^^
    (if j + 1 = nWordsPerBlock * (len / rateBytes + 1) then msbOne else 0)

theorem byteAt_delimited {i k : ℕ} (hi : i < 8) (hk : k < 8) :
    byteAt (delimited x i) k = if k < i then byteAt x k else if k = i then 1 else 0 := by
  have hmask : ∀ i k : Fin 8, byteAt ((0x00ffffffffffffff : Word) >>> ((7 - i.val) * 8)) k.val =
      if k.val < i.val then BitVec.allOnes 8 else 0 := by decide
  have hone : ∀ i k : Fin 8, byteAt ((1 : Word) <<< (i.val * 8)) k.val =
      if k.val = i.val then 1 else 0 := by decide
  rw [delimited,bxor,band,byteAt_xor,byteAt_and,hmask ⟨i,hi⟩ ⟨k,hk⟩,hone ⟨i,hi⟩ ⟨k,hk⟩]
  dsimp only
  by_cases hlt : k < i
  · rw [if_pos hlt,if_pos hlt,if_neg (by omega),BitVec.and_allOnes]
    exact xor_zero
  · rw [if_neg hlt,if_neg hlt]
    by_cases heq : k = i
    · rw [if_pos heq,ofNat_eq_ofNat,and_zero,BitVec.zero_xor]
    · rw [if_neg heq,ofNat_eq_ofNat,and_zero,xor_zero]

theorem byteAt_msbOne {k : ℕ} (hk : k < 8) : byteAt msbOne k = if k = 7 then 0x80 else 0 := by
  have hall : ∀ k : Fin 8, byteAt msbOne k.val = if k.val = 7 then 0x80 else 0 := by decide
  exact hall ⟨k,hk⟩

variable (len : ℕ)

theorem leWordAt_pad {j : ℕ} (hj : j < nWordsPerBlock * (len / rateBytes + 1)) :
    leWordAt (pad (messageBytes data len)) j = paddedWord data len j := by
  refine eq_of_byteAt (n := 8) (by decide) fun k hk => ?_
  have hrate : rateBytes * (len / rateBytes + 1) = 8 * (nWordsPerBlock * (len / rateBytes + 1)) :=
    Nat.mul_assoc 8 nWordsPerBlock _
  have hp : 8 * j + k < rateBytes * ((messageBytes data len).length / rateBytes + 1) := by
    rw [length_messageBytes]
    omega
  have hlast : 8 * j + k + 1 = rateBytes * (len / rateBytes + 1) ↔
      j + 1 = nWordsPerBlock * (len / rateBytes + 1) ∧ k = 7 := by omega
  rw [byteAt_leWordAt _ _ hk,pad_getD _ hp,length_messageBytes,paddedWord,byteAt_xor]
  congr 1
  · by_cases hin : 8 * j + k < len
    · have hword : (8 * j + k) / 8 = j := by omega
      have hbyte : (8 * j + k) % 8 = k := by omega
      rw [if_pos hin,messageBytes_getD _ hin,hword,hbyte]
      by_cases hfull : j < len / 8
      · rw [if_pos hfull]
      · rw [if_neg hfull,if_pos (by omega),byteAt_delimited _ (Nat.mod_lt _ (by decide)) hk,if_pos (by omega)]
    · have hnot : ¬j < len / 8 := by omega
      rw [if_neg hin,if_neg hnot]
      by_cases hbd : j = len / 8
      · have hpast : ¬k < len % 8 := by omega
        rw [if_pos hbd,byteAt_delimited _ (Nat.mod_lt _ (by decide)) hk,if_neg hpast]
        by_cases heq : 8 * j + k = len
        · rw [if_pos heq,if_pos (by omega)]
        · rw [if_neg heq,if_neg (by omega)]
      · rw [if_neg hbd,if_neg (by omega),byteAt_zero]
  · by_cases hend : j + 1 = nWordsPerBlock * (len / rateBytes + 1)
    · rw [if_pos hend,byteAt_msbOne hk]
      by_cases hseven : k = 7
      · rw [if_pos hseven,if_pos (hlast.mpr ⟨hend,hseven⟩)]
      · rw [if_neg hseven,if_neg fun h => hseven (hlast.mp h).2]
    · rw [if_neg hend,if_neg fun h => hend (hlast.mp h).1,byteAt_zero]

theorem digest_eq {word : ℕ → Word}
    (h : ∀ j < nWordsPerBlock * (len / rateBytes + 1), word j = paddedWord data len j) :
    digest keccakF1600 (messageBytes data len) =
      fun i => sponge keccakF1600 word (len / rateBytes + 1) (i.castLE (by decide)) := by
  have hblocks : (pad (messageBytes data len)).length / rateBytes = len / rateBytes + 1 := by
    rw [length_pad,length_messageBytes]
    exact Nat.mul_div_cancel_left _ (by decide)
  funext i
  rw [digest]
  dsimp only
  rw [hblocks,sponge_congr _ fun j hj => (leWordAt_pad data len hj).trans (h j hj).symm]

theorem divCeil_rate : divCeil (len + 1) rateBytes = len / rateBytes + 1 := by
  have hpos : 0 < rateBytes := by decide
  have hsum : len + 1 + rateBytes - 1 = len + rateBytes := by omega
  rw [divCeil,hsum,Nat.add_div_right _ hpos]

theorem delimited_zero : delimited x 0 = 1 := by
  have hmask : (0x00ffffffffffffff : Word) >>> ((7 - 0) * 8) = 0 := by decide
  rw [delimited,hmask,band,ofNat_eq_ofNat,and_zero]
  rfl

theorem delimited_eq {i : ℕ} (hi : i < 8) :
    delimited x i = bxor (band x (BitVec.ofNat 64 (2 ^ (i * 8) - 1))) (BitVec.ofNat 64 (2 ^ (i * 8))) := by
  have hmask : ∀ i : Fin 8, (0x00ffffffffffffff : Word) >>> ((7 - i.val) * 8) =
      BitVec.ofNat 64 (2 ^ (i.val * 8) - 1) := by decide
  have hone : ∀ i : Fin 8, (1 : Word) <<< (i.val * 8) = BitVec.ofNat 64 (2 ^ (i.val * 8)) := by decide
  rw [delimited]
  exact congrArg₂ (fun m d => bxor (band x m) d) (hmask ⟨i,hi⟩) (hone ⟨i,hi⟩)

theorem length_delimitedMessage {message : List Word} {len : ℕ} (h : message.length = divCeil len 8) :
    (delimitedMessage message len).length = len / 8 + 1 := by
  rw [divCeil] at h
  unfold delimitedMessage
  split
  · rw [length_append,length_singleton]
    omega
  · rw [length_append,length_singleton,length_dropLast]
    omega

theorem delimitedMessage_getD {message : List Word} {len : ℕ} (h : message.length = divCeil len 8) (j : ℕ) :
    (delimitedMessage message len).getD j 0 = if j < len / 8 then message.getD j 0
      else if j = len / 8 then delimited (message.getD j 0) (len % 8) else 0 := by
  rw [divCeil] at h
  unfold delimitedMessage
  by_cases hfull : len % 8 = 0
  · have hlen : message.length = len / 8 := by omega
    rw [if_pos hfull,getD_snoc,hlen,hfull,delimited_zero]
  · have hlen : message.dropLast.length = len / 8 := by
      rw [length_dropLast]
      omega
    have hlast : message.length - 1 = len / 8 := by omega
    rw [if_neg hfull]
    dsimp only
    rw [getD_snoc,hlen,hlast,← delimited_eq _ (Nat.mod_lt len (by decide))]
    by_cases hlt : j < len / 8
    · rw [if_pos hlt,if_pos hlt,getD_eq_getElem?_getD,getElem?_dropLast,if_pos (by omega),
        getD_eq_getElem?_getD]
    · rw [if_neg hlt,if_neg hlt]
      by_cases heq : j = len / 8
      · rw [if_pos heq,if_pos heq,heq]
      · rw [if_neg heq,if_neg heq]

theorem keccak256_eq {message : List Word} {len : ℕ} (h : message.length = divCeil len 8) :
    keccak256 keccakF1600 message len = .ok (digest keccakF1600 (messageBytes message len)) := by
  have hlen := length_delimitedMessage h
  have hmod := Nat.div_add_mod len rateBytes
  have hrate : rateBytes = 8 * nWordsPerBlock := rfl
  have hblocks : len / rateBytes = len / 8 / nWordsPerBlock := by
    rw [Nat.div_div_eq_div_mul]
    rfl
  have hroom : len / 8 + 1 ≤ nWordsPerBlock * (len / rateBytes + 1) := by
    rw [hblocks]
    exact Nat.lt_mul_div_succ _ (by decide)
  rw [keccak256,ensure_ok h,ok_bind]
  dsimp only
  rw [divCeil_rate,Nat.mul_comm _ nWordsPerBlock]
  refine congrArg Except.ok (digest_eq message len fun j hj => ?_).symm
  rw [paddedWord,← delimitedMessage_getD h,getD_eq_getElem?_getD,getElem?_set]
  by_cases hlast : j + 1 = nWordsPerBlock * (len / rateBytes + 1)
  · have hmark : (0x80 : Word) <<< 56 = msbOne := by decide
    have hpos : nWordsPerBlock * (len / rateBytes + 1) - 1 = j := by omega
    rw [if_pos hlast,if_pos hpos,if_pos (by rw [length_append,length_replicate]; omega),
      Option.getD_some,getD_resized,hpos,hmark]
    rfl
  · rw [if_neg hlast,if_neg (by omega),← getD_eq_getElem?_getD,getD_resized,ofNat_eq_ofNat,
      xor_zero]

theorem endBlockIndex_eq (lenBytes : Word) {m : ℕ} (hm : m * rateBytes < 2 ^ 64) :
    endBlockIndex lenBytes m = if lenBytes.toNat / rateBytes < m then
      BitVec.ofNat 64 (lenBytes.toNat / rateBytes) else 0 := by
  have hpos : 0 < rateBytes := by decide
  induction m with
  | zero => rfl
  | succ m ih =>
    have hstart : m * rateBytes < 2 ^ 64 := lt_of_le_of_lt (Nat.mul_le_mul_right _ (Nat.le_succ m)) hm
    have hfold : endBlockIndex lenBytes (m + 1) = select
        (band (bnot (icmpUlt lenBytes (BitVec.ofNat 64 (m * rateBytes))))
          (icmpUlt lenBytes (BitVec.ofNat 64 ((m + 1) * rateBytes))))
        (BitVec.ofNat 64 m) (endBlockIndex lenBytes m) := by
      rw [endBlockIndex,range_succ,foldl_append]
      rfl
    have hhere : lenBytes.toNat / rateBytes = m ↔
        ¬lenBytes.toNat < m * rateBytes ∧ lenBytes.toNat < (m + 1) * rateBytes := by
      rw [Nat.div_eq_iff hpos,Nat.succ_mul]
      omega
    rw [hfold,ih hstart,select,isMsbTrue_band,isMsbTrue_bnot,isMsbTrue_icmpUlt,isMsbTrue_icmpUlt,
      toNat_const hstart,toNat_const hm]
    by_cases heq : lenBytes.toNat / rateBytes = m
    · obtain ⟨hge,hlt⟩ := hhere.mp heq
      have hin : lenBytes.toNat / rateBytes < m + 1 := by omega
      rw [decide_eq_false hge,decide_eq_true hlt,if_pos hin,heq]
      rfl
    · have hcond : (!decide (lenBytes.toNat < m * rateBytes) &&
          decide (lenBytes.toNat < (m + 1) * rateBytes)) = false := by
        by_contra htrue
        rw [Bool.not_eq_false,Bool.and_eq_true,Bool.not_eq_true',decide_eq_false_iff_not,
          decide_eq_true_eq] at htrue
        exact heq (hhere.mpr htrue)
      have hnext : lenBytes.toNat / rateBytes < m + 1 ↔ lenBytes.toNat / rateBytes < m := by omega
      rw [hcond,if_neg Bool.false_ne_true]
      simp only [hnext]

theorem boundaryWord_eq {data : List Word} {lenBytes : Word} (hroom : data.length ≤ 2 ^ 64)
    (hlen : lenBytes.toNat ≤ 8 * data.length) :
    boundaryWord data lenBytes =
      delimited (data.getD (lenBytes.toNat / 8) 0) (lenBytes.toNat % 8) := by
  have hsel : (band lenBytes 7).toNat = lenBytes.toNat % 8 := by
    rw [band,BitVec.toNat_and]
    exact Nat.and_two_pow_sub_one_eq_mod lenBytes.toNat 3
  have hlt : (band lenBytes 7).toNat < 8 := by omega
  unfold boundaryWord
  dsimp only
  rw [singleWireMultiplex_eq (by simpa using hlt) (by simp),hsel,getD_eq_getElem?_getD,
    getElem?_map,getElem?_range (by omega)]
  change delimited (singleWireMultiplex data (shr lenBytes 3)) (lenBytes.toNat % 8) = _
  by_cases hfull : lenBytes.toNat % 8 = 0
  · rw [hfull,delimited_zero,delimited_zero]
  · have hshr : (shr lenBytes 3).toNat = lenBytes.toNat / 8 := toNat_shr lenBytes 3
    rw [singleWireMultiplex_eq (by omega) hroom,hshr]

theorem paddedMessageWord_eq {data : List Word} {lenBytes : Word} (hroom : data.length < 2 ^ 58)
    (hlen : lenBytes.toNat ≤ 8 * data.length) {j : ℕ}
    (hj : j < nWordsPerBlock * (lenBytes.toNat / rateBytes + 1)) :
    paddedMessageWord data lenBytes (BitVec.ofNat 64 (lenBytes.toNat / rateBytes))
      (boundaryWord data lenBytes) j = paddedWord data lenBytes.toNat j := by
  have hdiv := Nat.div_add_mod lenBytes.toNat rateBytes
  have hrate : rateBytes * (lenBytes.toNat / rateBytes) = 8 * (nWordsPerBlock * (lenBytes.toNat / rateBytes)) :=
    Nat.mul_assoc 8 nWordsPerBlock _
  have hmod := Nat.mod_lt lenBytes.toNat (show 0 < rateBytes by decide)
  have hconst : rateBytes = 136 := rfl
  have hcols : nWordsPerBlock = 17 := rfl
  have hjsmall : j < 2 ^ 64 := by
    rw [Nat.mul_succ] at hj
    omega
  have hshr : (shr lenBytes 3).toNat = lenBytes.toNat / 8 := toNat_shr lenBytes 3
  have hmessage : isMsbTrue (icmpUlt (BitVec.ofNat 64 j) (shr lenBytes 3)) =
      decide (j < lenBytes.toNat / 8) := by
    rw [isMsbTrue_icmpUlt,toNat_const hjsmall,hshr]
  have hboundary : isMsbTrue (icmpEq (BitVec.ofNat 64 j) (shr lenBytes 3)) =
      decide (j = lenBytes.toNat / 8) := by
    rw [isMsbTrue_icmpEq,decide_eq_decide,← toNat_inj,toNat_const hjsmall,hshr]
  have hend : isMsbTrue (icmpEq (BitVec.ofNat 64 (j / nWordsPerBlock))
      (BitVec.ofNat 64 (lenBytes.toNat / rateBytes))) = decide (j / nWordsPerBlock = lenBytes.toNat / rateBytes) := by
    have hsmall : lenBytes.toNat / rateBytes < 2 ^ 64 :=
      lt_of_le_of_lt (Nat.div_le_self _ _) lenBytes.isLt
    rw [isMsbTrue_icmpEq,decide_eq_decide,← toNat_inj,
      toNat_const (lt_of_le_of_lt (Nat.div_le_self _ _) hjsmall),toNat_const hsmall]
  have hmark : (if j % nWordsPerBlock = nWordsPerBlock - 1 then
      select (icmpEq (BitVec.ofNat 64 (j / nWordsPerBlock)) (BitVec.ofNat 64 (lenBytes.toNat / rateBytes)))
        msbOne 0 else 0) = if j + 1 = nWordsPerBlock * (lenBytes.toNat / rateBytes + 1) then msbOne else 0 := by
    rw [select,hend,hcols]
    generalize lenBytes.toNat / rateBytes = b
    by_cases hcol : j % 17 = 17 - 1
    · by_cases hblock : j / 17 = b
      · have hlast : j + 1 = 17 * (b + 1) := by omega
        rw [if_pos hcol,if_pos hlast,decide_eq_true hblock,if_pos rfl]
      · have hlast : ¬j + 1 = 17 * (b + 1) := by omega
        rw [if_pos hcol,if_neg hlast,decide_eq_false hblock,if_neg Bool.false_ne_true]
    · have hlast : ¬j + 1 = 17 * (b + 1) := by omega
      rw [if_neg hcol,if_neg hlast]
  unfold paddedMessageWord paddedWord
  dsimp only
  rw [hmark,select,hmessage,select,hboundary,boundaryWord_eq (by omega) hlen]
  by_cases hin : j < lenBytes.toNat / 8
  · have hlast : ¬j + 1 = nWordsPerBlock * (lenBytes.toNat / rateBytes + 1) := by
      rw [Nat.mul_succ]
      omega
    rw [decide_eq_true hin,if_pos rfl,if_pos hin,if_pos (by omega),if_neg hlast,ofNat_eq_ofNat,
      xor_zero]
  · rw [decide_eq_false hin,if_neg Bool.false_ne_true,if_neg hin]
    by_cases hbd : j = lenBytes.toNat / 8
    · rw [decide_eq_true hbd,if_pos rfl,if_pos hbd,hbd]
      by_cases hcol : lenBytes.toNat / 8 % nWordsPerBlock = nWordsPerBlock - 1
      · rw [if_pos hcol]
        rfl
      · have hlast : ¬lenBytes.toNat / 8 + 1 = nWordsPerBlock * (lenBytes.toNat / rateBytes + 1) := by
          rw [hcols] at hcol ⊢
          omega
        rw [if_neg hcol,if_neg hlast,ofNat_eq_ofNat,xor_zero]
    · rw [decide_eq_false hbd,if_neg Bool.false_ne_true,if_neg hbd,ofNat_eq_ofNat,BitVec.zero_xor]

theorem keccak256Varlen_eq {message : ByteVec} (h : message.lenBytes.toNat ≤ 8 * message.data.length) :
    keccak256Varlen keccakF1600 message =
      .ok (digest keccakF1600 (messageBytes message.data message.lenBytes.toNat)) := by
  have hroom := message.room
  have hconst : rateBytes = 136 := rfl
  have hfit : message.data.length * 8 < 2 ^ 64 := by omega
  have hcheck : assertFalse "len_check"
      (icmpUlt (BitVec.ofNat 64 (message.data.length * 8)) message.lenBytes) = .ok () := by
    rw [assertFalse_eq_ok,isMsbTrue_icmpUlt,toNat_const hfit]
    exact decide_eq_false (by omega)
  have hin : message.lenBytes.toNat / rateBytes < divCeil (message.data.length * 8 + 1) rateBytes := by
    rw [divCeil_rate]
    exact Nat.lt_succ_of_le (Nat.div_le_div_right (by omega))
  have hscan := endBlockIndex_eq message.lenBytes (m := divCeil (message.data.length * 8 + 1) rateBytes) (by
    rw [divCeil_rate,hconst]
    omega)
  rw [if_pos hin] at hscan
  have hsel : (BitVec.ofNat 64 (message.lenBytes.toNat / rateBytes)).toNat = message.lenBytes.toNat / rateBytes :=
    toNat_const (lt_of_le_of_lt (Nat.div_le_self _ _) message.lenBytes.isLt)
  rw [keccak256Varlen]
  dsimp only
  rw [hcheck,ok_bind,hscan,map_map,multiWireMultiplex_eq (n := 25) (by simpa [hsel] using hin) (by
    rw [length_map,length_range,divCeil_rate,hconst]
    omega) (by decide) (by simp),ok_bind,hsel,getD_eq_getElem?_getD,getElem?_map,
    getElem?_range hin,digest_eq message.data message.lenBytes.toNat fun j hj =>
      paddedMessageWord_eq hroom h hj]
  refine congrArg Except.ok (funext fun i => ?_)
  change (ofFn _).getD i.val 0 = _
  rw [getD_eq_getElem?_getD,List.getElem?_ofFn]
  have hi : i.val < 25 := by omega
  rw [dif_pos hi]
  rfl

/-- Both gadgets return the Keccak-256 digest of the first bytes of the message, over any
permutation, whatever the words hold behind them; they agree wherever both apply. -/
theorem keccak_messages_exact (keccakF1600 : State → State) :
    (∀ (message : List Word) (lenBytes : ℕ), message.length = divCeil lenBytes 8 →
      keccak256 keccakF1600 message lenBytes = .ok (digest keccakF1600 (messageBytes message lenBytes))) ∧
    (∀ message : ByteVec, message.lenBytes.toNat ≤ 8 * message.data.length →
      keccak256Varlen keccakF1600 message =
        .ok (digest keccakF1600 (messageBytes message.data message.lenBytes.toNat))) ∧
    ∀ (message : ByteVec) (words : List Word), message.lenBytes.toNat ≤ 8 * message.data.length →
      words.length = divCeil message.lenBytes.toNat 8 →
      messageBytes words message.lenBytes.toNat = messageBytes message.data message.lenBytes.toNat →
      keccak256Varlen keccakF1600 message = keccak256 keccakF1600 words message.lenBytes.toNat := by
  refine ⟨fun message lenBytes => keccak256_eq,fun message => keccak256Varlen_eq,fun message words h hwords hsame => ?_⟩
  rw [keccak256_eq hwords,keccak256Varlen_eq h,hsame]

end Binius64.Keccak
