import Binius64.Slices

/-!
# Base64 encoding

Three bytes are four characters of six bits each.
-/

namespace Binius64.Base64

open MachineWord (Word isMsbTrue)
open Wots (and_then_eq_ok)
open WordGates WordBytes ByteVectors CheckedRun Bignum Slices List

def icmpUgt (x y : Word) : Word := icmpUlt y x

def icmpUge (x y : Word) : Word := bnot (icmpUlt x y)

def Builder.extractByte (word : Word) (j : ℕ) : Word :=
  let shift := j * 8
  let mask := BitVec.ofNat 64 (0xff <<< shift)
  shr (band word mask) shift

def extractByte (words : List Word) (byteIdx : ℕ) : Word :=
  Builder.extractByte (words.getD (byteIdx / 8) 0) (byteIdx % 8)

def extract6bitValue0 (byte0 : Word) : Word := shr byte0 2

def extract6bitValue1 (byte0 byte1 : Word) : Word := bxor (shl (band byte0 0x03) 4) (shr byte1 4)

def extract6bitValue2 (byte1 byte2 : Word) : Word := bxor (shl (band byte1 0x0f) 2) (shr byte2 6)

def extract6bitValue3 (byte2 : Word) : Word := band byte2 0x3f

def computeExpectedBase64Char (sixBitVal : Word) : Word :=
  let isLowercase := icmpUge sixBitVal 26
  let isDigit := icmpUge sixBitVal 52
  let isSymbol := icmpUge sixBitVal 62
  let offset := select isLowercase (97 - 26) 65
  -- The digits lie four below their values, and the sum carries out of the byte.
  let offset := select isDigit 0xfc offset
  let sum := iadd32 sixBitVal offset
  let alphanumeric := band sum 0xff
  let symbol := select (shl sixBitVal 63) 95 45
  select isSymbol symbol alphanumeric

def verifyBase64Char (expectedEncodedChar actualEncodedChar isActive : Word) : Gadget Unit :=
  assertEq "base64_char" actualEncodedChar (select isActive expectedEncodedChar 0)

def verifyBase64Group (decoded encoded : List Word) (lenBytes : Word) (groupIdx : ℕ) : Gadget Unit := do
  let baseByteIdx := groupIdx * 3
  let baseCharIdx := groupIdx * 4
  let byte0 := extractByte decoded baseByteIdx
  let byte1 := extractByte decoded (baseByteIdx + 1)
  let byte2 := extractByte decoded (baseByteIdx + 2)
  let has1 := icmpUlt (BitVec.ofNat 64 baseByteIdx) lenBytes
  let has2 := icmpUlt (BitVec.ofNat 64 (baseByteIdx + 1)) lenBytes
  let has3 := icmpUlt (BitVec.ofNat 64 (baseByteIdx + 2)) lenBytes
  assertEqCond "past boundary should be empty" byte0 0 (bnot has1)
  assertEqCond "past boundary should be empty" byte1 0 (bnot has2)
  assertEqCond "past boundary should be empty" byte2 0 (bnot has3)
  let expectedChar0 := computeExpectedBase64Char (extract6bitValue0 byte0)
  let expectedChar1 := computeExpectedBase64Char (extract6bitValue1 byte0 byte1)
  let expectedChar2 := computeExpectedBase64Char (extract6bitValue2 byte1 byte2)
  let expectedChar3 := computeExpectedBase64Char (extract6bitValue3 byte2)
  verifyBase64Char expectedChar0 (extractByte encoded baseCharIdx) has1
  verifyBase64Char expectedChar1 (extractByte encoded (baseCharIdx + 1)) has1
  verifyBase64Char expectedChar2 (extractByte encoded (baseCharIdx + 2)) has2
  verifyBase64Char expectedChar3 (extractByte encoded (baseCharIdx + 3)) has3

def verifyLengthBounds (lenBytes : Word) (maxLenBytes : ℕ) : Gadget Unit :=
  assertFalse "length_check" (icmpUgt lenBytes (BitVec.ofNat 64 maxLenBytes))

structure Base64UrlSafe where
  decoded : List Word
  encoded : List Word
  lenBytes : Word

def Base64UrlSafe.new (decoded encoded : List Word) (lenBytes : Word) : Gadget Base64UrlSafe := do
  verifyLengthBounds lenBytes (decoded.length <<< 3)
  let groups := divCeil (decoded.length <<< 3) 3
  (range groups).forM (verifyBase64Group decoded encoded lenBytes)
  return ⟨decoded,encoded,lenBytes⟩

/-- The codes of the capitals, the small letters, the digits, the minus and the underscore. -/
def alphabet : List ℕ := range' 65 26 ++ range' 97 26 ++ range' 48 10 ++ [45,95]

/-- A character of a group: six of the twenty-four bits, the highest first. -/
def groupChar (b0 b1 b2 : Byte) (k : ℕ) : Byte :=
  BitVec.ofNat 8 (alphabet.getD ((b0.toNat * 2 ^ 16 + b1.toNat * 2 ^ 8 + b2.toNat) / 64 ^ (3 - k) % 64) 0)

/-- The encoding without padding: as many characters as cover the bits of the bytes. -/
def encode (bytes : List Byte) : List Byte :=
  (range (divCeil (4 * bytes.length) 3)).map fun p =>
    let byte := fun j => bytes.getD (3 * (p / 4) + j) 0
    groupChar (byte 0) (byte 1) (byte 2) (p % 4)

theorem Builder.extractByte_eq (word : Word) {j : ℕ} (hj : j < 8) :
    Builder.extractByte word j = (byteAt word j).setWidth 64 := by
  apply BitVec.eq_of_getLsbD_eq
  intro i hi
  have hmask : (0xff <<< (j * 8)).testBit (j * 8 + i) = decide (i < 8) := by
    have h255 : 0xff = 2 ^ 8 - 1 := rfl
    rw [Nat.testBit_shiftLeft,h255,Nat.testBit_two_pow_sub_one,Nat.add_sub_cancel_left,
      decide_eq_true (Nat.le_add_right _ _),Bool.true_and]
  have hshr (x : Word) : shr x (j * 8) = x >>> (j * 8) := rfl
  rw [Builder.extractByte,hshr,BitVec.getLsbD_ushiftRight,band,BitVec.getLsbD_and,BitVec.getLsbD_ofNat,
    hmask,BitVec.getLsbD_setWidth,byteAt_bit,decide_eq_true hi,Bool.true_and,Nat.mul_comm j]
  by_cases hlt : i < 8
  · rw [decide_eq_true hlt,decide_eq_true (show 8 * j + i < 64 by omega),Bool.true_and,Bool.true_and,
      Bool.and_true]
  · rw [decide_eq_false hlt,Bool.and_false,Bool.false_and,Bool.and_false]

theorem computeExpectedBase64Char_eq {v : Word} {n : ℕ} (hv : v.toNat = n) (hn : n < 64) :
    computeExpectedBase64Char v = (BitVec.ofNat 8 (alphabet.getD n 0)).setWidth 64 := by
  have hall : ∀ n : Fin 64, computeExpectedBase64Char (BitVec.ofNat 64 n.val) =
      (BitVec.ofNat 8 (alphabet.getD n.val 0)).setWidth 64 := by decide +kernel
  have hword : v = BitVec.ofNat 64 n := BitVec.eq_of_toNat_eq (by rw [toNat_const (by omega),hv])
  rw [hword]
  exact hall ⟨n,hn⟩

theorem toNat_join {x y : Word} {a b s : ℕ} (hx : x.toNat = a) (hy : y.toNat = b) (ha : a < 2 ^ (6 - s))
    (hb : b < 2 ^ s) (hs : s ≤ 6) : (bxor (shl x s) y).toNat = a * 2 ^ s + b := by
  have hshl : (shl x s).toNat = a * 2 ^ s := by
    have hpow : 2 ^ (6 - s) * 2 ^ s = 64 := by rw [←Nat.pow_add,Nat.sub_add_cancel hs]
    have hlt : a * 2 ^ s < 2 ^ (6 - s) * 2 ^ s := Nat.mul_lt_mul_of_pos_right ha (Nat.two_pow_pos s)
    have h : shl x s = x <<< s := rfl
    rw [h,BitVec.toNat_shiftLeft,hx,Nat.shiftLeft_eq,Nat.mod_eq_of_lt (by omega)]
  rw [bxor,BitVec.toNat_xor,hshl,hy]
  apply Nat.eq_of_testBit_eq
  intro i
  rw [Nat.testBit_xor,Nat.mul_comm,Nat.testBit_two_pow_mul_add a hb,Nat.testBit_two_pow_mul]
  by_cases hi : i < s
  · rw [if_pos hi,decide_eq_false (by omega),Bool.false_and,Bool.false_xor]
  · rw [if_neg hi,decide_eq_true (by omega),Bool.true_and,
      Nat.testBit_lt_two_pow (hb.trans_le (Nat.pow_le_pow_right (by decide) (by omega))),Bool.xor_false]

theorem toNat_band_mask {x : Word} {b : Byte} (hx : x = b.setWidth 64) (n : ℕ) (hn : n ≤ 8) :
    (band x (BitVec.ofNat 64 (2 ^ n - 1))).toNat = b.toNat % 2 ^ n := by
  have hpow : 2 ^ n ≤ 2 ^ 8 := Nat.pow_le_pow_right (by decide) hn
  rw [band,BitVec.toNat_and,toNat_const (by omega),Nat.and_two_pow_sub_one_eq_mod,hx,
    BitVec.toNat_setWidth_of_le (by decide)]

section Group

variable (b0 b1 b2 : Byte)

theorem expectedChar0_eq : computeExpectedBase64Char (extract6bitValue0 (b0.setWidth 64)) =
    (groupChar b0 b1 b2 0).setWidth 64 := by
  have h0 := b0.isLt
  have h1 := b1.isLt
  have h2 := b2.isLt
  refine computeExpectedBase64Char_eq ?_ (Nat.mod_lt _ (by decide))
  rw [extract6bitValue0,toNat_shr,BitVec.toNat_setWidth_of_le (by decide)]
  omega

theorem expectedChar1_eq : computeExpectedBase64Char
    (extract6bitValue1 (b0.setWidth 64) (b1.setWidth 64)) = (groupChar b0 b1 b2 1).setWidth 64 := by
  have h0 := b0.isLt
  have h1 := b1.isLt
  have h2 := b2.isLt
  refine computeExpectedBase64Char_eq ?_ (Nat.mod_lt _ (by decide))
  have hhigh := toNat_band_mask (x := b0.setWidth 64) rfl 2 (by decide)
  have hlow : (shr (b1.setWidth 64) 4).toNat = b1.toNat / 2 ^ 4 := by
    rw [toNat_shr,BitVec.toNat_setWidth_of_le (by decide)]
  have hjoin := toNat_join (s := 4) hhigh hlow (by omega) (by omega) (by decide)
  refine hjoin.trans ?_
  omega

theorem expectedChar2_eq : computeExpectedBase64Char
    (extract6bitValue2 (b1.setWidth 64) (b2.setWidth 64)) = (groupChar b0 b1 b2 2).setWidth 64 := by
  have h0 := b0.isLt
  have h1 := b1.isLt
  have h2 := b2.isLt
  refine computeExpectedBase64Char_eq ?_ (Nat.mod_lt _ (by decide))
  have hhigh := toNat_band_mask (x := b1.setWidth 64) rfl 4 (by decide)
  have hlow : (shr (b2.setWidth 64) 6).toNat = b2.toNat / 2 ^ 6 := by
    rw [toNat_shr,BitVec.toNat_setWidth_of_le (by decide)]
  have hjoin := toNat_join (s := 2) hhigh hlow (by omega) (by omega) (by decide)
  refine hjoin.trans ?_
  omega

theorem expectedChar3_eq : computeExpectedBase64Char (extract6bitValue3 (b2.setWidth 64)) =
    (groupChar b0 b1 b2 3).setWidth 64 := by
  have h2 := b2.isLt
  refine computeExpectedBase64Char_eq ?_ (Nat.mod_lt _ (by decide))
  refine (toNat_band_mask (x := b2.setWidth 64) rfl 6 (by decide)).trans ?_
  omega

end Group

def packedByte (words : List Word) (p : ℕ) : Byte := byteAt (words.getD (p / 8) 0) (p % 8)

theorem extractByte_eq (words : List Word) (p : ℕ) :
    extractByte words p = (packedByte words p).setWidth 64 :=
  Builder.extractByte_eq _ (Nat.mod_lt p (by decide))

theorem setWidth_inj {a b : Byte} : (a.setWidth 64 : Word) = b.setWidth 64 ↔ a = b := by
  constructor
  · intro h
    have hnat := congrArg BitVec.toNat h
    rw [BitVec.toNat_setWidth_of_le (by decide),BitVec.toNat_setWidth_of_le (by decide)] at hnat
    exact BitVec.eq_of_toNat_eq hnat
  · rintro rfl
    rfl

theorem pastBoundary_eq_ok {name : String} {lenBytes : Word} {b : Byte} {p : ℕ} (hp : p < 2 ^ 64) :
    assertEqCond name (b.setWidth 64) 0 (bnot (icmpUlt (BitVec.ofNat 64 p) lenBytes)) = .ok () ↔
      (lenBytes.toNat ≤ p → b = 0) := by
  have hzero : (b.setWidth 64 : Word) = 0 ↔ b = 0 := setWidth_inj (b := 0)
  rw [assertEqCond_eq_ok,isMsbTrue_bnot,isMsbTrue_icmpUlt,toNat_const hp,hzero,Bool.not_eq_true',
    decide_eq_false_iff_not,Nat.not_lt]

theorem verifyBase64Char_eq_ok {lenBytes : Word} {expected actual : Byte} {p : ℕ} (hp : p < 2 ^ 64) :
    verifyBase64Char (expected.setWidth 64) (actual.setWidth 64)
        (icmpUlt (BitVec.ofNat 64 p) lenBytes) = .ok () ↔
      actual = if p < lenBytes.toNat then expected else 0 := by
  rw [verifyBase64Char,assertEq_eq_ok,select,isMsbTrue_icmpUlt,toNat_const hp]
  by_cases hin : p < lenBytes.toNat
  · rw [decide_eq_true hin,if_pos rfl,if_pos hin,setWidth_inj]
  · rw [decide_eq_false hin,if_neg Bool.false_ne_true,if_neg hin]
    exact setWidth_inj (b := 0)

theorem verifyBase64Group_eq_ok (decoded encoded : List Word) (lenBytes : Word) {g : ℕ}
    (hg : 3 * g + 3 < 2 ^ 64) : verifyBase64Group decoded encoded lenBytes g = .ok () ↔
      (∀ j < 3, lenBytes.toNat ≤ 3 * g + j → packedByte decoded (3 * g + j) = 0) ∧
      ∀ k < 4, packedByte encoded (4 * g + k) = if 3 * g + (k - 1) < lenBytes.toNat then
        groupChar (packedByte decoded (3 * g)) (packedByte decoded (3 * g + 1))
          (packedByte decoded (3 * g + 2)) k else 0 := by
  have hthree (P : ℕ → Prop) : (∀ j < 3, P j) ↔ P 0 ∧ P 1 ∧ P 2 := by
    refine ⟨fun h => ⟨h 0 (by decide),h 1 (by decide),h 2 (by decide)⟩,fun ⟨h0,h1,h2⟩ j hj => ?_⟩
    match j,hj with
    | 0,_ => exact h0
    | 1,_ => exact h1
    | 2,_ => exact h2
  have hfour (P : ℕ → Prop) : (∀ k < 4, P k) ↔ P 0 ∧ P 1 ∧ P 2 ∧ P 3 := by
    refine ⟨fun h => ⟨h 0 (by decide),h 1 (by decide),h 2 (by decide),h 3 (by decide)⟩,
      fun ⟨h0,h1,h2,h3⟩ k hk => ?_⟩
    match k,hk with
    | 0,_ => exact h0
    | 1,_ => exact h1
    | 2,_ => exact h2
    | 3,_ => exact h3
  unfold verifyBase64Group
  dsimp only
  simp only [extractByte_eq,and_then_eq_ok]
  rw [Nat.mul_comm g 3,Nat.mul_comm g 4,expectedChar0_eq _ (packedByte decoded (3 * g + 1))
    (packedByte decoded (3 * g + 2)),expectedChar1_eq _ _ (packedByte decoded (3 * g + 2)),
    expectedChar2_eq (packedByte decoded (3 * g)),expectedChar3_eq (packedByte decoded (3 * g))
    (packedByte decoded (3 * g + 1)),pastBoundary_eq_ok (by omega),pastBoundary_eq_ok (by omega),
    pastBoundary_eq_ok (by omega),verifyBase64Char_eq_ok (by omega),verifyBase64Char_eq_ok (by omega),
    verifyBase64Char_eq_ok (by omega),verifyBase64Char_eq_ok (by omega),hthree,hfour]
  simp only [and_assoc]
  rfl

theorem encode_getD (decoded : List Word) {len m : ℕ}
    (hzero : ∀ p, len ≤ p → p < 24 * m → packedByte decoded p = 0) {g k : ℕ} (hg : g < 8 * m) (hk : k < 4) :
    (encode (messageBytes decoded len)).getD (4 * g + k) 0 =
      if 3 * g + (k - 1) < len then groupChar (packedByte decoded (3 * g)) (packedByte decoded (3 * g + 1))
        (packedByte decoded (3 * g + 2)) k else 0 := by
  have hbyte (j : ℕ) (hj : j < 3) :
      (messageBytes decoded len).getD (3 * g + j) 0 = packedByte decoded (3 * g + j) := by
    by_cases hin : 3 * g + j < len
    · exact messageBytes_getD decoded hin
    · rw [getD_eq_default _ _ (by rw [length_messageBytes]; omega),hzero _ (by omega) (by omega)]
  have hdiv : (4 * g + k) / 4 = g := by omega
  have hmod : (4 * g + k) % 4 = k := by omega
  rw [encode,length_messageBytes,divCeil]
  by_cases hin : 3 * g + (k - 1) < len
  · have hlt : 4 * g + k < (4 * len + 3 - 1) / 3 := by omega
    rw [getD_eq_getElem _ _ (by rwa [length_map,length_range]),getElem_map,getElem_range,if_pos hin]
    dsimp only
    rw [hdiv,hmod,hbyte 0 (by decide),hbyte 1 (by decide),hbyte 2 (by decide)]
    rfl
  · rw [getD_eq_default _ _ (by rw [length_map,length_range]; omega),if_neg hin]

theorem base64_exact (decoded encoded : List Word) (lenBytes : Word) {m : ℕ}
    (hdecoded : decoded.length = 3 * m) (hroom : decoded.length < 2 ^ 58) :
    let bytes := messageBytes decoded lenBytes.toNat
    (∃ circuit, Base64UrlSafe.new decoded encoded lenBytes = .ok circuit) ↔
      lenBytes.toNat ≤ 24 * m ∧
      messageBytes decoded (24 * m) = bytes ++ replicate (24 * m - lenBytes.toNat) 0 ∧
      messageBytes encoded (32 * m) = encode bytes ++ replicate (32 * m - (encode bytes).length) 0 := by
  intro bytes
  have hgroups : divCeil (decoded.length <<< 3) 3 = 8 * m := by
    rw [divCeil,Nat.shiftLeft_eq,hdecoded]
    omega
  have hcap : decoded.length <<< 3 = 24 * m := by
    rw [Nat.shiftLeft_eq,hdecoded]
    omega
  have hrun : (∃ circuit, Base64UrlSafe.new decoded encoded lenBytes = .ok circuit) ↔
      lenBytes.toNat ≤ 24 * m ∧
        ∀ g < 8 * m, verifyBase64Group decoded encoded lenBytes g = .ok () := by
    rw [Base64UrlSafe.new]
    dsimp only
    rw [hgroups,hcap,verifyLengthBounds,icmpUgt]
    simp only [and_then_eq_ok,assertFalse_eq_ok,isMsbTrue_icmpUlt,toNat_const
      (show 24 * m < 2 ^ 64 by omega),decide_eq_false_iff_not,Nat.not_lt,forM_eq_ok,mem_range]
    constructor
    · rintro ⟨_,hlen,hall,-⟩
      exact ⟨hlen,hall⟩
    · rintro ⟨hlen,hall⟩
      exact ⟨_,hlen,hall,rfl⟩
  rw [hrun]
  refine and_congr_right fun hlen => ?_
  have hbytes : bytes.length = lenBytes.toNat := length_messageBytes _ _
  have hencode : (encode bytes).length ≤ 32 * m := by
    rw [encode,length_map,length_range,hbytes,divCeil]
    omega
  have hpad : (bytes ++ replicate (24 * m - lenBytes.toNat) 0).length = 24 * m := by
    rw [length_append,length_replicate,hbytes]
    omega
  have hpad' : (encode bytes ++ replicate (32 * m - (encode bytes).length) 0).length = 32 * m := by
    rw [length_append,length_replicate]
    omega
  rw [messageBytes_eq_iff _ hpad,messageBytes_eq_iff _ hpad']
  have hzeros : (∀ p < 24 * m, byteAt (decoded.getD (p / 8) 0) (p % 8) =
      (bytes ++ replicate (24 * m - lenBytes.toNat) 0).getD p 0) ↔
        ∀ p, lenBytes.toNat ≤ p → p < 24 * m → packedByte decoded p = 0 := by
    constructor
    · intro h p hle hp
      rw [packedByte,h p hp,getD_resized,getD_eq_default _ _ (by omega)]
    · intro h p hp
      rw [getD_resized]
      by_cases hlt : p < lenBytes.toNat
      · exact (messageBytes_getD decoded hlt).symm
      · have hpast : bytes.getD p 0 = 0 := getD_eq_default _ _ (by omega)
        rw [hpast]
        exact h p (by omega) hp
  rw [hzeros]
  constructor
  · intro hall
    have hgroup {g : ℕ} (hg : g < 8 * m) :=
      (verifyBase64Group_eq_ok decoded encoded lenBytes (by omega)).mp (hall g hg)
    have hzero : ∀ p, lenBytes.toNat ≤ p → p < 24 * m → packedByte decoded p = 0 := by
      intro p hle hp
      have hpos : 3 * (p / 3) + p % 3 = p := Nat.div_add_mod p 3
      have hbyte := (hgroup (show p / 3 < 8 * m by omega)).1 (p % 3) (Nat.mod_lt _ (by decide))
      rw [hpos] at hbyte
      exact hbyte hle
    refine ⟨hzero,fun p hp => ?_⟩
    have hpos : 4 * (p / 4) + p % 4 = p := Nat.div_add_mod p 4
    have hg : p / 4 < 8 * m := by omega
    have hk : p % 4 < 4 := Nat.mod_lt _ (by decide)
    have hchar := (hgroup hg).2 (p % 4) hk
    rw [←encode_getD decoded hzero hg hk,hpos] at hchar
    rw [getD_resized]
    exact hchar
  · rintro ⟨hzero,hchars⟩ g hg
    refine (verifyBase64Group_eq_ok decoded encoded lenBytes (by omega)).mpr
      ⟨fun j hj hle => hzero _ hle (by omega),fun k hk => ?_⟩
    have hchar := hchars (4 * g + k) (by omega)
    rw [getD_resized,encode_getD decoded hzero hg hk] at hchar
    exact hchar

theorem base64_exact_man :
    ∃ circuit, Base64UrlSafe.new [0x6e614d,0,0] [0x75465754,0,0,0] 3 = .ok circuit :=
  (base64_exact [0x6e614d,0,0] [0x75465754,0,0,0] 3 (m := 1) rfl (by decide)).mpr (by decide)

end Binius64.Base64
