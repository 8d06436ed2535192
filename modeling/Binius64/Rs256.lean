import Binius64.BignumProducts
import Binius64.BignumReduction
import Binius64.Sha256Messages

/-!
# RS256 signatures

The gadget raises a signature to the exponent 65537 with sixteen squarings and a product, each
reduced by witnessed quotients and remainders, and compares the last remainder with the encoding of
the digest.
-/

namespace Binius64.Rs256

open MachineWord (Word)
open ShiftAlgebra WordBytes LimbVectors WordGates ByteVectors CheckedRun Bignum Sha256 List

def karatsubaLimbsThreshold : ℕ := 8

/-- A product. -/
def optimalMul (a b : BigUint) : Gadget BigUint :=
  let n := a.limbs.length
  if n = b.limbs.length ∧ n.isPowerOfTwo ∧ karatsubaLimbsThreshold ≤ n then karatsubaMul a b else textbookMul a b

/-- A square. -/
def optimalSqr (a : BigUint) : Gadget BigUint :=
  let n := a.limbs.length
  if n.isPowerOfTwo ∧ karatsubaLimbsThreshold ≤ n then karatsubaMul a a else textbookSquare a

structure ModReduce where
  a : BigUint
  modulus : BigUint
  quotient : BigUint
  remainder : BigUint

def ModReduce.new (a modulus quotient remainder : BigUint) : Gadget ModReduce := do
  let product ← optimalMul quotient modulus
  let remainderPadded := remainder.padLimbsTo product.limbs.length 0
  let reconstructed ← add product remainderPadded
  let nLimbs := max reconstructed.limbs.length a.limbs.length
  BigUint.assertEq "modreduce_a_eq_reconstructed" (reconstructed.padLimbsTo nLimbs 0) (a.padLimbsTo nLimbs 0)
  return ⟨a,modulus,quotient,remainder⟩

def newConstLen (data : List Word) (room : data.length < 2 ^ 58) (len : ℕ) : Gadget ByteVec := do
  ensure (len ≤ data.length * 8) "len_range.end exceeds capacity"
  return ⟨BitVec.ofNat 64 len,data,room⟩

/-- The first words of a vector, all of whose bytes count. -/
def truncate (v : ByteVec) (numWires : ℕ) : Gadget ByteVec := do
  ensure (numWires ≤ v.data.length) "num_wires must be less than self.data.len()"
  newConstLen (v.data.take numWires) (lt_of_le_of_lt (length_take_le' ..) v.room) (numWires <<< 3)

/-- Rotation to the left. -/
def rotl (x : Word) (n : ℕ) : Word := if n = 0 then x else ShiftVariant.rotr.apply x (64 - n)

def swapBytes (input : Word) : Word := rotl (swapBytes32 input) 32

/-- The big-endian number in the words of a vector. -/
def fixedbytevecLeToBiguint (byteVec : ByteVec) : BigUint := ⟨byteVec.data.reverse.map swapBytes⟩

/-- The witnessed quotients and remainders. -/
structure RsaIntermediates where
  squareQuotients : List BigUint
  squareRemainders : List BigUint
  mulQuotient : BigUint
  mulRemainder : BigUint
  /-- Every number is thirty-two limbs of witness. -/
  square_limbs : ∀ i < 16, (squareQuotients.getD i ⟨[]⟩).limbs.length = 32 ∧
    (squareRemainders.getD i ⟨[]⟩).limbs.length = 32
  mul_limbs : mulQuotient.limbs.length = 32 ∧ mulRemainder.limbs.length = 32

def modexp65537Verify (base modulus : BigUint) (squareQuotients squareRemainders : List BigUint)
    (mulQuotient mulRemainder : BigUint) : Gadget Unit := do
  let result ← (range 16).foldlM (fun result i => do
    let squared ← optimalSqr result
    let circuit ← ModReduce.new squared modulus (squareQuotients.getD i ⟨[]⟩) (squareRemainders.getD i ⟨[]⟩)
    return circuit.remainder) base
  let multiplied ← optimalMul result base
  let _ ← ModReduce.new multiplied modulus mulQuotient mulRemainder
  return ()

def expectedPrefixLimbs : List Word :=
  [0x0304020105000420,0x0d06096086480165,0xffffffff00303130] ++ replicate 24 0xffffffffffffffff ++
    [0x0001ffffffffffff]

structure Rs256Verify where
  message : ByteVec
  signature : ByteVec
  modulus : ByteVec
  rsaIntermediates : RsaIntermediates

def fitSignature (signature : ByteVec) : Gadget ByteVec :=
  if 32 < signature.data.length then truncate signature 32 else .ok signature

variable (compress : Compression)

def Rs256Verify.new (advice : Advice) (message signature modulus : ByteVec)
    (rsaIntermediates : RsaIntermediates) : Gadget Rs256Verify := do
  ensure (32 ≤ signature.data.length) "signature must have at least 256 bytes for 2048-bit RSA"
  ensure (32 ≤ modulus.data.length) "modulus must have at least 256 bytes for 2048-bit RSA"
  let signature ← fitSignature signature
  let signatureBignum := fixedbytevecLeToBiguint signature
  assertEq "signature_bytes_len" signature.lenBytes 256
  let modulusBignum := fixedbytevecLeToBiguint modulus
  assertEq "modulus_bytes_len" modulus.lenBytes 256
  let expectedHash ← sha256Varlen compress advice message
  modexp65537Verify signatureBignum modulusBignum rsaIntermediates.squareQuotients
    rsaIntermediates.squareRemainders rsaIntermediates.mulQuotient rsaIntermediates.mulRemainder
  let expectedEm : BigUint := ⟨(ofFn expectedHash).reverse ++ expectedPrefixLimbs⟩
  BigUint.assertEq "mul_remainder_expected_em" rsaIntermediates.mulRemainder expectedEm
  return ⟨message,signature,modulus,rsaIntermediates⟩

def residue (signature modulus : ℕ) : ℕ → ℕ
  | 0 => signature
  | i + 1 => residue signature modulus i * residue signature modulus i % modulus

def populateWitness (signature modulus : List Byte) : Gadget RsaIntermediates := do
  ensure (signature.length = 256) "signature must be exactly 256 bytes"
  ensure (modulus.length = 256) "modulus must be exactly 256 bytes"
  let s := beValue signature
  let m := beValue modulus
  ensure (m ≠ 0) "attempt to divide by zero"
  return {
    squareQuotients := (range 16).map fun i => ⟨fitLimbs 32 (residue s m i * residue s m i / m)⟩
    squareRemainders := (range 16).map fun i => ⟨fitLimbs 32 (residue s m (i + 1))⟩
    mulQuotient := ⟨fitLimbs 32 (residue s m 16 * s / m)⟩
    mulRemainder := ⟨fitLimbs 32 (residue s m 16 * s % m)⟩
    square_limbs := fun i hi => by
      rw [getD_eq_getElem?_getD,getD_eq_getElem?_getD,getElem?_map,getElem?_map,
        getElem?_range hi]
      exact ⟨length_fitLimbs .. ,length_fitLimbs ..⟩
    mul_limbs := ⟨length_fitLimbs .. ,length_fitLimbs ..⟩ }

def digestInfo : List Byte :=
  [0x30,0x31,0x30,0x0d,0x06,0x09,0x60,0x86,0x48,0x01,0x65,0x03,0x04,0x02,0x01,0x05,0x00,0x04,0x20]

variable (d : Fin 8 → BitVec 32)

def digestBytes : List Byte := (finRange 8).flatMap fun i => beBytes (d i) 4

def encode : List Byte :=
  ([0x00,0x01] ++ replicate 202 0xff ++ [0x00] ++ digestInfo) ++ digestBytes d

/-- Whatever satisfies the gadget is a signature by its congruence. -/
def Sound (signatureCapacity modulusCapacity : ℕ) : Prop :=
  ∀ (advice : Advice) (message signature modulus : ByteVec) (rsa : RsaIntermediates) (out : Rs256Verify),
    signature.data.length = signatureCapacity → modulus.data.length = modulusCapacity →
    signature.lenBytes = 256 → modulus.lenBytes = 256 →
    Rs256Verify.new compress advice message signature modulus rsa = .ok out →
    beValue (messageBytes signature.data 256) ^ 65537 ≡
      beValue (encode (digest compress (messageBytes message.data message.lenBytes.toNat)))
      [MOD beValue (messageBytes modulus.data 256)]

/-- A signature below its modulus satisfies the gadget with honest hints. -/
def Complete (signatureCapacity modulusCapacity : ℕ) : Prop :=
  ∀ (advice : Advice) (message signature modulus : ByteVec) (rsa : RsaIntermediates),
    signature.data.length = signatureCapacity → modulus.data.length = modulusCapacity →
    signature.lenBytes = 256 → modulus.lenBytes = 256 →
    message.data.length * 64 < 2 ^ 32 → message.lenBytes.toNat ≤ 8 * message.data.length →
    beValue (messageBytes signature.data 256) < beValue (messageBytes modulus.data 256) →
    beValue (messageBytes signature.data 256) ^ 65537 % beValue (messageBytes modulus.data 256) =
      beValue (encode (digest compress (messageBytes message.data message.lenBytes.toNat))) →
    advice.Follows (sha256CompressHint compress) →
    populateWitness (messageBytes signature.data 256) (messageBytes modulus.data 256) = .ok rsa →
    ∃ out, Rs256Verify.new compress advice message signature modulus rsa = .ok out

/-- The gadget does what it says at two capacities. -/
def Verifies (signatureCapacity modulusCapacity : ℕ) : Prop :=
  Sound compress signatureCapacity modulusCapacity ∧ Complete compress signatureCapacity modulusCapacity

theorem optimalMul_ok (a b : BigUint) : ∃ product, optimalMul a b = .ok product ∧
    product.limbs.length = a.limbs.length + b.limbs.length ∧ product.value = a.value * b.value := by
  unfold optimalMul
  dsimp only
  split
  case isTrue h =>
    obtain ⟨k,hk⟩ := h.2.1
    rw [karatsubaMul_eq hk (h.1.symm.trans hk)]
    exact textbookMul_ok a b
  case isFalse => exact textbookMul_ok a b

theorem optimalSqr_ok (a : BigUint) : ∃ product, optimalSqr a = .ok product ∧
    product.value = a.value * a.value := by
  obtain ⟨product,hmul,-,hvalue⟩ := textbookMul_ok a a
  refine ⟨product,?_,hvalue⟩
  unfold optimalSqr
  dsimp only
  split
  case isTrue h =>
    obtain ⟨k,hk⟩ := h.1
    rw [karatsubaMul_eq hk hk,hmul]
  case isFalse => rw [textbookSquare_eq,hmul]

theorem ModReduce.new_eq_ok {a modulus quotient remainder : BigUint} {check : ModReduce}
    (hlen : remainder.limbs.length ≤ quotient.limbs.length) :
    ModReduce.new a modulus quotient remainder = .ok check ↔
      a.value = quotient.value * modulus.value + remainder.value ∧ ⟨a,modulus,quotient,remainder⟩ = check := by
  obtain ⟨product,hmul,hsize,hvalue⟩ := optimalMul_ok quotient modulus
  have hpad : (remainder.padLimbsTo product.limbs.length 0).limbs.length = product.limbs.length := by
    rw [BigUint.length_padLimbsTo]
    omega
  -- A product and a remainder no longer than the quotient fit into the limbs of the product.
  have hfit : product.value + (remainder.padLimbsTo product.limbs.length 0).value < (2 ^ 64) ^ product.limbs.length := by
    have hq := quotient.value_lt
    have hm := modulus.value_lt
    have hr := remainder.value_lt.trans_le (Nat.pow_le_pow_right (by decide : 0 < 2 ^ 64) hlen)
    have hscaled := Nat.mul_le_mul_left ((2 ^ 64) ^ quotient.limbs.length) (Nat.succ_le_of_lt hm)
    have hless := Nat.mul_le_mul_right modulus.value hq.le
    rw [Nat.mul_succ] at hscaled
    rw [hvalue,BigUint.value_padLimbsTo,hsize,pow_add]
    omega
  obtain ⟨sum,hadd,hsumlen,hsum⟩ := add_ok hpad.symm hfit
  have hsame : (sum.padLimbsTo (max sum.limbs.length a.limbs.length) 0).limbs.length =
      (a.padLimbsTo (max sum.limbs.length a.limbs.length) 0).limbs.length := by
    rw [BigUint.length_padLimbsTo,BigUint.length_padLimbsTo]
    omega
  rw [ModReduce.new,hmul,ok_bind]
  dsimp only
  rw [hadd,ok_bind,bind_eq_ok]
  constructor
  · rintro ⟨_,hassert,hcheck⟩
    rw [BigUint.assertEq_eq_ok hsame,BigUint.value_padLimbsTo,BigUint.value_padLimbsTo,hsum,hvalue,
      BigUint.value_padLimbsTo] at hassert
    exact ⟨hassert.symm,pure_eq_ok.mp hcheck⟩
  · rintro ⟨heq,hcheck⟩
    refine ⟨(),?_,pure_eq_ok.mpr hcheck⟩
    rw [BigUint.assertEq_eq_ok hsame,BigUint.value_padLimbsTo,BigUint.value_padLimbsTo,hsum,hvalue,
      BigUint.value_padLimbsTo,heq]

/-- The numbers the loop goes through. -/
def squared (base : BigUint) (squareRemainders : List BigUint) : ℕ → BigUint
  | 0 => base
  | i + 1 => squareRemainders.getD i ⟨[]⟩

def PowerEquations (base modulus : BigUint) (rsa : RsaIntermediates) : Prop :=
  (∀ i < 16, (squared base rsa.squareRemainders i).value * (squared base rsa.squareRemainders i).value =
    (rsa.squareQuotients.getD i ⟨[]⟩).value * modulus.value + (squared base rsa.squareRemainders (i + 1)).value) ∧
  (squared base rsa.squareRemainders 16).value * base.value =
    rsa.mulQuotient.value * modulus.value + rsa.mulRemainder.value

theorem modexp65537Verify_eq_ok {base modulus : BigUint} {rsa : RsaIntermediates} :
    modexp65537Verify base modulus rsa.squareQuotients rsa.squareRemainders rsa.mulQuotient rsa.mulRemainder =
      .ok () ↔ PowerEquations base modulus rsa := by
  have hloop : ∀ n ≤ 16, ∀ r : BigUint, (range n).foldlM (fun result i => (do
      let squared ← optimalSqr result
      let circuit ← ModReduce.new squared modulus (rsa.squareQuotients.getD i ⟨[]⟩) (rsa.squareRemainders.getD i ⟨[]⟩)
      return circuit.remainder : Gadget BigUint)) base = .ok r ↔
      (∀ i < n, (squared base rsa.squareRemainders i).value * (squared base rsa.squareRemainders i).value =
        (rsa.squareQuotients.getD i ⟨[]⟩).value * modulus.value + (squared base rsa.squareRemainders (i + 1)).value) ∧
        squared base rsa.squareRemainders n = r := by
    intro n hn
    induction n with
    | zero => exact fun r => ⟨fun h => ⟨nofun,Except.ok.inj h⟩,fun h => congrArg _ h.2⟩
    | succ n ih =>
      intro r
      obtain ⟨hq,hr⟩ := rsa.square_limbs n hn
      rw [range_succ,foldlM_append,bind_eq_ok]
      constructor
      · rintro ⟨before,hbefore,hlast⟩
        obtain ⟨heqs,rfl⟩ := (ih (by omega) before).mp hbefore
        rw [foldlM_cons,bind_eq_ok] at hlast
        obtain ⟨r',hstep,hr'⟩ := hlast
        obtain ⟨sq,hsq,hvalue⟩ := optimalSqr_ok (squared base rsa.squareRemainders n)
        rw [hsq,ok_bind,bind_eq_ok] at hstep
        obtain ⟨check,hcheck,hout⟩ := hstep
        obtain ⟨heq,rfl⟩ := (ModReduce.new_eq_ok (hr.trans hq.symm).le).mp hcheck
        rw [hvalue] at heq
        refine ⟨fun i hi => ?_,(pure_eq_ok.mp hout).trans (pure_eq_ok.mp hr')⟩
        rcases Nat.lt_succ_iff_lt_or_eq.mp hi with hlt | rfl
        · exact heqs i hlt
        · exact heq
      · rintro ⟨heqs,rfl⟩
        refine ⟨_,(ih (by omega) _).mpr ⟨fun i hi => heqs i (by omega),rfl⟩,?_⟩
        obtain ⟨sq,hsq,hvalue⟩ := optimalSqr_ok (squared base rsa.squareRemainders n)
        rw [foldlM_cons,hsq,ok_bind,(ModReduce.new_eq_ok (hr.trans hq.symm).le).mpr
          ⟨hvalue.trans (heqs n (Nat.lt_succ_self n)),rfl⟩]
        rfl
  obtain ⟨hq,hr⟩ := rsa.mul_limbs
  obtain ⟨product,hmul,-,hvalue⟩ := optimalMul_ok (squared base rsa.squareRemainders 16) base
  rw [modexp65537Verify,bind_eq_ok,PowerEquations]
  constructor
  · rintro ⟨result,hresult,hlast⟩
    obtain ⟨heqs,rfl⟩ := (hloop 16 (Nat.le_refl 16) result).mp hresult
    rw [hmul,ok_bind,bind_eq_ok] at hlast
    obtain ⟨check,hcheck,-⟩ := hlast
    exact ⟨heqs,hvalue ▸ ((ModReduce.new_eq_ok (hr.trans hq.symm).le).mp hcheck).1⟩
  · rintro ⟨heqs,heq⟩
    refine ⟨_,(hloop 16 (Nat.le_refl 16) _).mpr ⟨heqs,rfl⟩,?_⟩
    rw [hmul,ok_bind,(ModReduce.new_eq_ok (hr.trans hq.symm).le).mpr ⟨hvalue.trans heq,rfl⟩]
    rfl

theorem byteAt_swapBytes (x : Word) {k : ℕ} (hk : k < 8) : byteAt (swapBytes x) k = byteAt x (7 - k) := by
  have hrot (y : Word) : rotl y 32 = y >>> (8 * 4) ||| y <<< (8 * 4) := rfl
  have hzero (b : Byte) : 0 ||| b = b := BitVec.zero_or
  have hright (b : Byte) : b ||| 0 = b := BitVec.or_zero
  have hpast (y : Word) {k : ℕ} (h : 8 ≤ k) : byteAt y k = 0 := by
    rw [byteAt,BitVec.ushiftRight_eq_zero (by omega)]
    rfl
  rw [swapBytes,hrot,byteAt_or,byteAt_ushiftRight,byteAt_shiftLeft _ _ (by omega)]
  by_cases hlow : k < 4
  · have hup : ¬4 + k < 4 := by omega
    have hpos : 11 - (4 + k) = 7 - k := by omega
    rw [if_pos hlow,hright,byteAt_swapBytes32 _ (by omega),if_neg hup,hpos]
  · have hdown : k - 4 < 4 := by omega
    have hpos : 3 - (k - 4) = 7 - k := by omega
    rw [if_neg hlow,hpast _ (by omega),hzero,byteAt_swapBytes32 _ (by omega),if_pos hdown,hpos]

theorem limbValue_reverse (data : List Word) {n : ℕ} (hn : n ≤ data.length) :
    limbValue ((data.take n).reverse.map swapBytes) = beValue (messageBytes data (8 * n)) := by
  induction n with
  | zero => rfl
  | succ n ih =>
    have hbytes : messageBytes data (8 * (n + 1)) =
        messageBytes data (8 * n) ++ beBytes (swapBytes (data.getD n 0)) 8 := by
      rw [messageBytes,messageBytes,beBytes,Nat.mul_succ,range_add,map_append,map_map]
      refine congrArg _ (map_congr_left fun k hk => ?_)
      have hlt := mem_range.mp hk
      have hword : (8 * n + k) / 8 = n := by omega
      have hbyte : (8 * n + k) % 8 = k := by omega
      have hback : 7 - (8 - 1 - k) = k := by omega
      rw [Function.comp_apply,hword,hbyte,byteAt_swapBytes _ (by omega),hback]
    have hlimbs : (data.take (n + 1)).reverse.map swapBytes =
        swapBytes (data.getD n 0) :: (data.take n).reverse.map swapBytes := by
      rw [take_add_one,getElem?_eq_getElem hn,reverse_append,Option.toList_some,reverse_singleton,
        singleton_append,map_cons,getD_eq_getElem _ _ hn]
    rw [hbytes,hlimbs,limbValue_cons,ih (by omega),beValue_append,beValue_beBytes,length_beBytes,
      Nat.mod_eq_of_lt (show _ < 256 ^ 8 from (swapBytes (data.getD n 0)).isLt)]
    omega

theorem value_fixedbytevec (v : ByteVec) :
    (fixedbytevecLeToBiguint v).value = beValue (messageBytes v.data (8 * v.data.length)) := by
  have h := limbValue_reverse v.data (Nat.le_refl _)
  rw [take_length] at h
  exact h

theorem toNat_pack4x64b (j : Fin 4) : (pack4x64b (wide d) j).toNat =
    (d ⟨2 * j,Sha256.double_lt j⟩).toNat * 2 ^ 32 + (d ⟨2 * j + 1,Sha256.double_succ_lt j⟩).toNat := by
  have hpack : pack4x64b (wide d) j = (d ⟨2 * j + 1,Sha256.double_succ_lt j⟩).setWidth 64 ^^^
    (d ⟨2 * j,Sha256.double_lt j⟩).setWidth 64 <<< (8 * 4) := rfl
  have hlow := (d ⟨2 * j + 1,Sha256.double_succ_lt j⟩).isLt
  have hhigh := (d ⟨2 * j,Sha256.double_lt j⟩).isLt
  have hdisjoint : (d ⟨2 * j + 1,Sha256.double_succ_lt j⟩).setWidth 64 &&& (d ⟨2 * j,Sha256.double_lt j⟩).setWidth 64 <<< (8 * 4) =
      0#64 := by
    apply BitVec.eq_of_getLsbD_eq
    intro i hi
    rw [BitVec.getLsbD_and,BitVec.getLsbD_setWidth,BitVec.getLsbD_shiftLeft,BitVec.getLsbD_zero]
    by_cases hlt : i < 32
    · rw [decide_eq_true hlt]
      simp
    · rw [BitVec.getLsbD_of_ge (d ⟨2 * j + 1,Sha256.double_succ_lt j⟩) i (by omega),Bool.and_false,Bool.false_and]
  have hxor (x y : Word) (h : x &&& y = 0#64) : x ^^^ y = x + y := by
    rw [BitVec.add_eq_or_of_and_eq_zero _ _ h]
    apply BitVec.eq_of_getLsbD_eq
    intro i _
    have hbit := congrArg (fun z : Word => z.getLsbD i) h
    rw [BitVec.getLsbD_and,BitVec.getLsbD_zero] at hbit
    rw [BitVec.getLsbD_xor,BitVec.getLsbD_or]
    generalize x.getLsbD i = b at hbit ⊢
    generalize y.getLsbD i = c at hbit ⊢
    revert b c
    decide
  rw [hpack,hxor _ _ hdisjoint,BitVec.toNat_add,BitVec.toNat_shiftLeft,BitVec.toNat_setWidth,
    BitVec.toNat_setWidth,Nat.shiftLeft_eq]
  omega

theorem value_expectedEm :
    limbValue ((ofFn (pack4x64b (wide d))).reverse ++ expectedPrefixLimbs) = beValue (encode d) := by
  have hheader : limbValue expectedPrefixLimbs =
      beValue ([0x00,0x01] ++ replicate 202 0xff ++ [0x00] ++ digestInfo) := by decide +kernel
  have hlimbs : (ofFn (pack4x64b (wide d))).reverse = [pack4x64b (wide d) 3,pack4x64b (wide d) 2,
    pack4x64b (wide d) 1,pack4x64b (wide d) 0] := rfl
  have hword (i : Fin 8) : beValue (beBytes (d i) 4) = (d i).toNat := by
    rw [beValue_beBytes]
    exact Nat.mod_eq_of_lt (d i).isLt
  have hbytes : digestBytes d = beBytes (d 0) 4 ++ (beBytes (d 1) 4 ++ (beBytes (d 2) 4 ++ (beBytes (d 3) 4 ++
    (beBytes (d 4) 4 ++ (beBytes (d 5) 4 ++ (beBytes (d 6) 4 ++ (beBytes (d 7) 4 ++ []))))))) := rfl
  have hhash : beValue (digestBytes d) = limbValue (ofFn (pack4x64b (wide d))).reverse := by
    rw [hbytes,hlimbs]
    simp only [beValue_append,hword,length_append,length_beBytes,length_nil,limbValue_cons,limbValue_nil,
      toNat_pack4x64b]
    have hnil : beValue [] = 0 := rfl
    rw [hnil]
    change _ = (d 6).toNat * 2 ^ 32 + (d 7).toNat + 2 ^ 64 * ((d 4).toNat * 2 ^ 32 + (d 5).toNat + 2 ^ 64 *
      ((d 2).toNat * 2 ^ 32 + (d 3).toNat + 2 ^ 64 * ((d 0).toNat * 2 ^ 32 + (d 1).toNat + 2 ^ 64 * 0)))
    ring
  have hlen : (ofFn (pack4x64b (wide d))).reverse.length = 4 := rfl
  have hdigest : (digestBytes d).length = 32 := rfl
  have hshift : (2 ^ 64) ^ 4 = 256 ^ 32 := by decide +kernel
  rw [limbValue_append,hlen,hheader,encode,beValue_append _ (digestBytes d),hdigest,hhash,hshift,Nat.add_comm,
    Nat.mul_comm]

variable {compress}

theorem fitSignature_ok {signature : ByteVec} (hs : 32 ≤ signature.data.length) (hlen : signature.lenBytes = 256) :
    ∃ v : ByteVec, fitSignature signature = .ok v ∧ v.lenBytes = 256 ∧ v.data = signature.data.take 32 := by
  unfold fitSignature
  by_cases hlong : 32 < signature.data.length
  · have hroom : 32 <<< 3 ≤ (signature.data.take 32).length * 8 := by
      rw [length_take]
      omega
    rw [if_pos hlong,truncate,ensure_ok hs,ok_bind,newConstLen,ensure_ok hroom]
    exact ⟨_,rfl,rfl,rfl⟩
  · rw [if_neg hlong]
    exact ⟨signature,rfl,hlen,(take_of_length_le (by omega)).symm⟩

theorem new_eq_ok {advice : Advice} {message signature modulus : ByteVec} {rsa : RsaIntermediates}
    (hs : 32 ≤ signature.data.length) (hm : 32 ≤ modulus.data.length) (hslen : signature.lenBytes = 256)
    (hmlen : modulus.lenBytes = 256) :
    (∃ out, Rs256Verify.new compress advice message signature modulus rsa = .ok out) ↔
      ∃ hash, sha256Varlen compress advice message = .ok hash ∧
        PowerEquations ⟨(signature.data.take 32).reverse.map swapBytes⟩ (fixedbytevecLeToBiguint modulus) rsa ∧
        rsa.mulRemainder.value = limbValue ((ofFn hash).reverse ++ expectedPrefixLimbs) := by
  obtain ⟨v,hv,hvlen,hvdata⟩ := fitSignature_ok hs hslen
  have hbase : fixedbytevecLeToBiguint v = ⟨(signature.data.take 32).reverse.map swapBytes⟩ := by
    rw [fixedbytevecLeToBiguint,hvdata]
  have hem (hash : Fin 4 → Word) : rsa.mulRemainder.limbs.length =
      ((ofFn hash).reverse ++ expectedPrefixLimbs).length := rsa.mul_limbs.2
  have hassert {name : String} {x : Word} (h : x = 256) : assertEq name x 256 = .ok () := assertEq_eq_ok.mpr h
  rw [Rs256Verify.new,ensure_ok hs,ok_bind,ensure_ok hm,ok_bind,hv,ok_bind]
  dsimp only
  rw [hassert hvlen,ok_bind,hassert hmlen,ok_bind,hbase]
  constructor
  · rintro ⟨out,h⟩
    obtain ⟨hash,hhash,h⟩ := bind_eq_ok.mp h
    obtain ⟨_,hpower,h⟩ := bind_eq_ok.mp h
    obtain ⟨_,hlast,-⟩ := bind_eq_ok.mp h
    exact ⟨hash,hhash,modexp65537Verify_eq_ok.mp hpower,(BigUint.assertEq_eq_ok (hem hash)).mp hlast⟩
  · rintro ⟨hash,hhash,hpower,hlast⟩
    rw [hhash,ok_bind,modexp65537Verify_eq_ok.mpr hpower,ok_bind,(BigUint.assertEq_eq_ok (hem hash)).mpr hlast]
    exact ⟨_,rfl⟩

theorem sha256Varlen_admits {advice : Advice} {message : ByteVec} {hash : Fin 4 → Word}
    (h : sha256Varlen compress advice message = .ok hash) :
    message.data.length * 64 < 2 ^ 32 ∧ message.lenBytes.toNat ≤ 8 * message.data.length := by
  rw [sha256Varlen] at h
  obtain ⟨_,hcap,h⟩ := bind_eq_ok.mp h
  have hsmall := ensure_eq_ok.mp hcap
  dsimp only at h
  obtain ⟨_,hcheck,-⟩ := bind_eq_ok.mp h
  rw [assertFalse_eq_ok,isMsbTrue_icmpUlt,decide_eq_false_iff_not,toNat_const (by omega)] at hcheck
  omega

theorem PowerEquations.power {base modulus : BigUint} {rsa : RsaIntermediates} (h : PowerEquations base modulus rsa) :
    base.value ^ 65537 ≡ rsa.mulRemainder.value [MOD modulus.value] := by
  have hdrop (q r : ℕ) : q * modulus.value + r ≡ r [MOD modulus.value] :=
    Nat.mul_add_mod' q modulus.value r
  have hsquares : ∀ i ≤ 16, base.value ^ 2 ^ i ≡ (squared base rsa.squareRemainders i).value [MOD modulus.value] := by
    intro i hi
    induction i with
    | zero =>
      rw [pow_zero,pow_one]
      rfl
    | succ i ih =>
      have hsquare := (ih (by omega)).mul (ih (by omega))
      rw [h.1 i hi,← pow_add,← two_mul,← pow_succ'] at hsquare
      exact hsquare.trans (hdrop _ _)
  have hlast := (hsquares 16 (Nat.le_refl 16)).mul_right base.value
  rw [h.2,← pow_succ] at hlast
  exact hlast.trans (hdrop _ _)

theorem residue_lt {s m : ℕ} (h : s < m) : ∀ i, residue s m i < m
  | 0 => h
  | _ + 1 => Nat.mod_lt _ (by omega)

theorem residue_power (s m i : ℕ) : s ^ 2 ^ i ≡ residue s m i [MOD m] := by
  induction i with
  | zero => rw [residue,pow_zero,pow_one]
  | succ i ih =>
    have hsquare := ih.mul ih
    rw [← pow_add,← two_mul,← pow_succ'] at hsquare
    exact hsquare.trans (Nat.mod_modEq _ _).symm

theorem populateWitness_values {signature modulus : List Byte} {rsa : RsaIntermediates}
    (h : populateWitness signature modulus = .ok rsa) {s m : ℕ} (hs : beValue signature = s) (hm : beValue modulus = m)
    (hlt : s < m) :
    (∀ i < 16, (rsa.squareQuotients.getD i ⟨[]⟩).value = residue s m i * residue s m i / m ∧
      (rsa.squareRemainders.getD i ⟨[]⟩).value = residue s m (i + 1)) ∧
    rsa.mulQuotient.value = residue s m 16 * s / m ∧ rsa.mulRemainder.value = residue s m 16 * s % m := by
  subst hs hm
  rw [populateWitness] at h
  obtain ⟨_,-,h⟩ := bind_eq_ok.mp h
  obtain ⟨_,hlen,h⟩ := bind_eq_ok.mp h
  dsimp only at h
  obtain ⟨_,-,h⟩ := bind_eq_ok.mp h
  have hbound := beValue_lt modulus
  have hlimbs : (256 : ℕ) ^ 256 = (2 ^ 64) ^ 32 := by decide +kernel
  rw [ensure_eq_ok.mp hlen,hlimbs] at hbound
  have hres := residue_lt hlt
  have hquot {a b : ℕ} (ha : a < beValue modulus) (hb : b < beValue modulus) :
      a * b / beValue modulus < (2 ^ 64) ^ 32 := by
    have hprod := Nat.mul_le_mul_left a hb.le
    exact lt_of_le_of_lt (Nat.div_le_of_le_mul (by rwa [Nat.mul_comm (beValue modulus)])) (ha.trans hbound)
  have hrsa := pure_eq_ok.mp h
  refine ⟨fun i hi => ⟨?_,?_⟩,?_,?_⟩
  · rw [← hrsa,getD_eq_getElem?_getD,getElem?_map,getElem?_range hi]
    exact limbValue_fitLimbs (hquot (hres i) (hres i))
  · rw [← hrsa,getD_eq_getElem?_getD,getElem?_map,getElem?_range hi]
    exact limbValue_fitLimbs ((hres _).trans hbound)
  · rw [← hrsa]
    exact limbValue_fitLimbs (hquot (hres 16) hlt)
  · rw [← hrsa]
    exact limbValue_fitLimbs ((Nat.mod_lt _ (by omega)).trans hbound)

theorem populateWitness_solves {signature modulus : List Byte} {rsa : RsaIntermediates}
    (h : populateWitness signature modulus = .ok rsa) {s m : ℕ} (hs : beValue signature = s) (hm : beValue modulus = m)
    (hlt : s < m) {base n : BigUint} (hbase : base.value = s) (hn : n.value = m) :
    PowerEquations base n rsa ∧ rsa.mulRemainder.value = s ^ 65537 % m := by
  obtain ⟨hsquares,hmq,hmr⟩ := populateWitness_values h hs hm hlt
  have hstate (i : ℕ) (hi : i ≤ 16) : (squared base rsa.squareRemainders i).value = residue s m i := by
    cases i with
    | zero => exact hbase
    | succ i => exact (hsquares i hi).2
  refine ⟨⟨fun i hi => ?_,?_⟩,?_⟩
  · rw [hstate i hi.le,hstate (i + 1) hi,(hsquares i hi).1,hn,residue]
    exact (Nat.div_add_mod' _ _).symm
  · rw [hstate 16 (Nat.le_refl 16),hbase,hmq,hn,hmr]
    exact (Nat.div_add_mod' _ _).symm
  · have hpower := (residue_power s m 16).mul_right s
    rw [← pow_succ] at hpower
    exact hmr.trans hpower.symm

theorem value_signature (signature : ByteVec) (hs : 32 ≤ signature.data.length) :
    (BigUint.mk ((signature.data.take 32).reverse.map swapBytes)).value = beValue (messageBytes signature.data 256) :=
  limbValue_reverse signature.data hs

theorem sound_of_eq (compress : Compression) {c : ℕ} (hc : 32 ≤ c) : Sound compress c 32 := by
  intro advice message signature modulus rsa out hs hm hslen hmlen hrun
  obtain ⟨hash,hhash,hpower,hlast⟩ := (new_eq_ok (hs ▸ hc) hm.ge hslen hmlen).mp ⟨out,hrun⟩
  obtain ⟨hcap,hlen⟩ := sha256Varlen_admits hhash
  have hdigest := (sha256Varlen_settles advice hcap hlen).1 hash hhash
  have hcong := hpower.power
  rw [value_signature signature (hs ▸ hc),value_fixedbytevec,hm,hlast,hdigest,value_expectedEm] at hcong
  exact hcong

theorem complete_of_eq (compress : Compression) {c : ℕ} (hc : 32 ≤ c) : Complete compress c 32 := by
  intro advice message signature modulus rsa hs hm hslen hmlen hcap hlen hlt hvalid hadvice hrsa
  have hmodulus := value_fixedbytevec modulus
  rw [hm] at hmodulus
  obtain ⟨hpower,hlast⟩ := populateWitness_solves hrsa rfl rfl hlt (value_signature signature (hs ▸ hc)) hmodulus
  have hhash := (@sha256Varlen_settles compress advice _ hcap hlen).eq_ok hadvice
  refine (new_eq_ok (hs ▸ hc) hm.ge hslen hmlen).mpr ⟨_,hhash,hpower,?_⟩
  rw [hlast,hvalid,value_expectedEm]

/-- Some words, zeros up to a capacity, and a length of 256 bytes. -/
def zeroPadded (bytes : List Byte) {c : ℕ} (hc : 32 ≤ c) (room : c < 2 ^ 58) : ByteVec where
  lenBytes := 256
  data := (range 32).map (leWordAt bytes) ++ replicate (c - 32) 0
  room := by
    rw [length_append,length_map,length_range,length_replicate]
    omega

theorem length_zeroPadded (bytes : List Byte) {c : ℕ} (hc : 32 ≤ c) (room : c < 2 ^ 58) :
    (zeroPadded bytes hc room).data.length = c := by
  rw [zeroPadded,length_append,length_map,length_range,length_replicate]
  omega

theorem messageBytes_zeroPadded {bytes : List Byte} (h : bytes.length = 256) {c : ℕ} (hc : 32 ≤ c)
    (room : c < 2 ^ 58) : messageBytes (zeroPadded bytes hc room).data 256 = bytes := by
  apply ext_getElem
  · rw [length_messageBytes,h]
  · intro p hp hp'
    rw [length_messageBytes] at hp
    rw [← getD_eq_getElem _ 0,messageBytes_getD _ hp,zeroPadded,getD_resized,getD_eq_getElem?_getD,
      getElem?_map,getElem?_range (by omega),Option.map_some,Option.getD_some,
      byteAt_leWordAt _ _ (Nat.mod_lt _ (by decide)),Nat.div_add_mod,getD_eq_getElem _ _ hp']

theorem value_zeroPadded {bytes : List Byte} (h : bytes.length = 256) {c : ℕ} (hc : 32 ≤ c) (room : c < 2 ^ 58) :
    (fixedbytevecLeToBiguint (zeroPadded bytes hc room)).value = beValue bytes * (2 ^ 64) ^ (c - 32) := by
  have hmodulus : (fixedbytevecLeToBiguint (zeroPadded bytes hc room)).limbs =
      replicate (c - 32) 0 ++ ((zeroPadded bytes hc room).data.take 32).reverse.map swapBytes := by
    have hzero : swapBytes 0 = 0 := by decide
    have htake : (zeroPadded bytes hc room).data.take 32 = (range 32).map (leWordAt bytes) :=
      take_left' (by rw [length_map,length_range])
    rw [htake,fixedbytevecLeToBiguint,zeroPadded,reverse_append,map_append,reverse_replicate,
      map_replicate,hzero]
  have hwords := limbValue_reverse (zeroPadded bytes hc room).data (n := 32) (by rwa [length_zeroPadded])
  rw [BigUint.value,hmodulus,limbValue_append,limbValue_replicate_zero,length_replicate,hwords,
    messageBytes_zeroPadded h,Nat.zero_add,Nat.mul_comm]

theorem length_encode : (encode d).length = 256 := by
  have hheader : ([0x00,0x01] ++ replicate 202 0xff ++ [0x00] ++ digestInfo : List Byte).length = 224 := by
    decide +kernel
  have hdigest : (digestBytes d).length = 32 := rfl
  rw [encode,length_append,hheader,hdigest]

theorem encode_bounds : 2 ≤ beValue (encode d) ∧ beValue (encode d) + 1 < 256 ^ 256 := by
  have hheader : beValue ([0x00,0x01] ++ replicate 202 0xff ++ [0x00] ++ digestInfo) + 1 < 256 ^ 224 ∧
      1 ≤ beValue ([0x00,0x01] ++ replicate 202 0xff ++ [0x00] ++ digestInfo) := by decide +kernel
  have hdigest := beValue_lt (digestBytes d)
  have hlen : (digestBytes d).length = 32 := rfl
  have hpow : (256 : ℕ) ^ 256 = 256 ^ 224 * 256 ^ 32 := by decide +kernel
  have htwo : 2 ≤ 256 ^ 32 := by decide +kernel
  rw [encode,beValue_append _ (digestBytes d),hpow]
  rw [hlen] at hdigest ⊢
  generalize beValue ([0x00,0x01] ++ replicate 202 0xff ++ [0x00] ++ digestInfo) = p at hheader ⊢
  generalize 256 ^ 32 = b at hdigest htwo ⊢
  generalize 256 ^ 224 = a at hheader ⊢
  have hone := Nat.mul_le_mul_right b hheader.2
  have htop := Nat.mul_le_mul_right b (Nat.succ_le_of_lt hheader.1)
  rw [Nat.succ_mul,Nat.succ_mul] at htop
  constructor
  · omega
  · omega

theorem self_signed {e : ℕ} (he : 2 ≤ e) : e * e = (e - 1) * (e + 1) + 1 ∧ e ^ 65537 % (e + 1) = e := by
  obtain ⟨k,rfl⟩ : ∃ k, e = k + 2 := ⟨e - 2,by omega⟩
  have hsquare : (k + 2) * (k + 2) = (k + 2 - 1) * (k + 2 + 1) + 1 := by
    have hpred : k + 2 - 1 = k + 1 := rfl
    rw [hpred]
    ring
  have hone : (k + 2) ^ 2 ≡ 1 [MOD k + 2 + 1] := by
    rw [pow_two,hsquare]
    exact Nat.mul_add_mod' _ _ _
  have hpower := (hone.pow 32768).mul_right (k + 2)
  rw [← pow_mul,one_pow,one_mul,← pow_succ] at hpower
  exact ⟨hsquare,Nat.mod_eq_of_modEq hpower (Nat.lt_succ_self _)⟩

theorem not_complete (compress : Compression) {c m : ℕ} (hc : 32 ≤ c) (hcroom : c < 2 ^ 58) (hm : 32 < m)
    (hmroom : m < 2 ^ 58) : ¬Complete compress c m := by
  intro h
  have hmessage : messageBytes [] (0 : Word).toNat = [] := rfl
  generalize hd : digest compress (messageBytes [] (0 : Word).toNat) = d
  obtain ⟨htwo,hroom⟩ := encode_bounds d
  obtain ⟨hsquare,hpower⟩ := self_signed htwo
  have hsig := messageBytes_zeroPadded (length_encode d) hc hcroom
  have hbytes : (beBytes (BitVec.ofNat 2048 (beValue (encode d) + 1)) 256).length = 256 := length_beBytes ..
  have hmod := messageBytes_zeroPadded hbytes hm.le hmroom
  have hpow : (256 : ℕ) ^ 256 = 2 ^ 2048 := by decide +kernel
  have hvalue : beValue (beBytes (BitVec.ofNat 2048 (beValue (encode d) + 1)) 256) = beValue (encode d) + 1 := by
    rw [beValue_beBytes,BitVec.toNat_ofNat,← hpow,Nat.mod_mod,Nat.mod_eq_of_lt hroom]
  have hwitness : ∃ rsa, populateWitness (encode d) (beBytes (BitVec.ofNat 2048 (beValue (encode d) + 1)) 256) =
      .ok rsa := by
    rw [populateWitness,ensure_ok (length_encode d),ok_bind,ensure_ok hbytes,ok_bind]
    dsimp only
    rw [ensure_ok (by rw [hvalue]; omega)]
    exact ⟨_,rfl⟩
  obtain ⟨rsa,hrsa⟩ := hwitness
  have hrun := h (Advice.honest (sha256CompressHint compress)) ⟨0,[],by decide⟩ (zeroPadded (encode d) hc hcroom)
    (zeroPadded _ hm.le hmroom) rsa (length_zeroPadded ..) (length_zeroPadded ..) rfl rfl (by decide) (Nat.zero_le _)
    (by rw [hsig,hmod,hvalue]; exact Nat.lt_succ_self _) (by rw [hsig,hmod,hvalue,hd,hpower])
    (Advice.honest_follows _) (by rw [hsig,hmod,hrsa])
  obtain ⟨_,-,hequations,-⟩ := (new_eq_ok (by rwa [length_zeroPadded]) (by rw [length_zeroPadded]; exact hm.le)
    rfl rfl).mp hrun
  obtain ⟨hquotient,hremainder⟩ := (populateWitness_values hrsa rfl hvalue (Nat.lt_succ_self _)).1 0 (by decide)
  have hfirst := hequations.1 0 (by decide)
  rw [squared,squared,value_signature _ (by rwa [length_zeroPadded]),hsig,hquotient,hremainder,value_zeroPadded hbytes,
    hvalue] at hfirst
  generalize beValue (encode d) = e at *
  have hzero : residue e (e + 1) 0 = e := rfl
  have hone : residue e (e + 1) (0 + 1) = e * e % (e + 1) := rfl
  have hdiv : e * e / (e + 1) = e - 1 := by
    rw [hsquare,Nat.mul_comm,Nat.mul_add_div (by omega),Nat.div_eq_of_lt (by omega),Nat.add_zero]
  have hrest : e * e % (e + 1) = 1 := by
    rw [hsquare,Nat.mul_add_mod',Nat.mod_eq_of_lt (by omega)]
  have hscale : 2 ≤ (2 ^ 64) ^ (m - 32) :=
    (show 2 ≤ (2 ^ 64) ^ 1 by decide).trans (Nat.pow_le_pow_right (by decide) (by omega))
  have hpos : 0 < (e - 1) * (e + 1) := Nat.mul_pos (by omega) (by omega)
  have hbig := Nat.mul_le_mul_left ((e - 1) * (e + 1)) hscale
  rw [hone,hzero,hdiv,hrest,hsquare,← Nat.mul_assoc] at hfirst
  omega

/-- The gadget does what it says, over any compression and at any capacity of the signature, exactly
where the modulus vector has thirty-two words. -/
theorem rs256_verifies_iff (compress : Compression) {signatureCapacity modulusCapacity : ℕ}
    (hs : 32 ≤ signatureCapacity) (hsroom : signatureCapacity < 2 ^ 58) (hm : 32 ≤ modulusCapacity)
    (hmroom : modulusCapacity < 2 ^ 58) :
    Verifies compress signatureCapacity modulusCapacity ↔ modulusCapacity = 32 := by
  constructor
  · intro h
    by_contra hne
    exact not_complete compress hs hsroom (by omega) hmroom h.2
  · rintro rfl
    exact ⟨sound_of_eq compress hs,complete_of_eq compress hs⟩

theorem rs256_verifies_iff_thirtyThree : Verifies (fun state _ => state) 33 32 :=
  (rs256_verifies_iff _ (by decide) (by decide) (by decide) (by decide)).mpr rfl

/-- With one more word in the modulus vector, over every compression. -/
theorem rs256_fails : ¬∃ compress : Compression, Verifies compress 32 33 := by
  rintro ⟨compress,h⟩
  exact not_complete compress (by decide) (by decide) (by decide) (by decide) h.2

end Binius64.Rs256
