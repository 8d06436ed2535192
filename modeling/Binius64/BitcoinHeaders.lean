import Binius64.Sha256Messages

/-!
# Bitcoin header chains

A chain of block headers is accepted when every header names the double SHA-256 hash of the one
behind it and has a hash below its target.
-/

namespace Binius64.BitcoinHeaders

open MachineWord (Word isMsbTrue loHalf)
open WordGates LimbVectors CheckedRun Bignum LaneWords Multiplexers WordBytes ByteVectors Sha256 List

abbrev Header := Fin 10 → Word

/-- Computes the 32-byte target from the 4-byte compact bits field. -/
def target (bits : Word) : BigUint :=
  let mantissa := band 0x0000000000ffffff bits
  let exponent := band 0x00000000000000ff (shr bits 24)
  let shiftVal := (isubBinBout exponent 3 0).1
  let cond1 := shl shiftVal 63
  let v01 := select cond1 (shl mantissa 8) mantissa
  let cond2 := shl shiftVal 62
  let v02 := select cond2 (shl v01 (2 * 8)) v01
  let cond4 := shl shiftVal 61
  let v04 := select cond4 (shl v02 (4 * 8)) v02
  let v14 := select cond4 (shr v02 (4 * 8)) 0
  let cond8 := shl shiftVal 60
  let v08 := select cond8 0 v04
  let v18 := select cond8 v04 v14
  let v28 := select cond8 v14 0
  let cond16 := shl shiftVal 59
  let v016 := select cond16 0 v08
  let v116 := select cond16 0 v18
  let v216 := select cond16 v08 v28
  let v316 := select cond16 v18 0
  ⟨[v016,v116,v216,v316]⟩

/-- The high half of one word and the low half of the next. -/
def join (b0 b1 : Word) : Word :=
  let c0 := shl b0 32
  let c1 := shr b1 32
  bxor c0 c1

def previousBlockHash (header : Header) : Fin 4 → Word :=
  ![join (header 1) (header 0),join (header 2) (header 1),join (header 3) (header 2),
    join (header 4) (header 3)]

def assertFulfillsTarget (digest : Fin 4 → Word) (bits : Word) : Gadget Unit := do
  let digestAsUint : BigUint := ⟨ofFn digest⟩
  let fulfillsTarget ← biguintLt digestAsUint (target bits)
  assertTrue "PoW fulfills target" fulfillsTarget

/-- The vectors agree. -/
def assertEqV {n : ℕ} (name : String) (x y : Fin n → Word) : Gadget Unit :=
  (finRange n).forM fun i => assertEq s!"{name}[{i}]" (x i) (y i)

variable (compress : Compression)

/-- The hash of the hash of a message, in words with the lowest byte first. -/
def doubleSha256 (advice : Advice) (message : List Word) : Gadget (Fin 4 → Word) := do
  let digest0 ← sha256Fixed compress advice (messageBe message) (message.length * 8)
  let digest1 ← sha256Fixed compress advice (ofFn digest0) 32
  return fun i =>
    let lo := swapBytes32 (digest1 ⟨2 * i,Sha256.double_lt i⟩)
    let hi := swapBytes32 (digest1 ⟨2 * i + 1,Sha256.double_succ_lt i⟩)
    bxor lo (shl hi 32)

def checkOlder (advice : Advice) : Header → List Header → Gadget Unit
  | _,[] => return ()
  | newer,header :: older => do
    let digest ← doubleSha256 compress advice (ofFn header)
    assertEqV "hash chain" digest (previousBlockHash newer)
    assertFulfillsTarget digest (header 9)
    checkOlder advice header older

def headerChain (advice : Advice) : List Header → Gadget (Fin 4 → Word)
  | [] => .error (.panic "index out of bounds")
  | latest :: older => do
    let latestDigest ← doubleSha256 compress advice (ofFn latest)
    assertFulfillsTarget latestDigest (latest 9)
    checkOlder compress advice latest older
    return latestDigest

def digestBytes (d : Fin 8 → BitVec 32) : List Byte := beMessageBytes (ofFn (wide d)) 32

/-- The hash of a header, as a number whose lowest byte comes first. -/
def blockHash (header : Header) : ℕ :=
  beValue (digestBytes (digest compress (digestBytes
    (digest compress (messageBytes (ofFn header) 80))))).reverse

def previousHash (header : Header) : ℕ :=
  beValue ((messageBytes (ofFn header) 36).drop 4).reverse

/-- The number that a compact field stands for: none where it is negative or does not fit. -/
def decodeCompact (bits : ℕ) : Option ℕ :=
  let size := bits / 2 ^ 24 % 256
  let word := bits % 2 ^ 23
  let word := if size ≤ 3 then word / 256 ^ (3 - size) else word
  if word ≠ 0 ∧ bits.testBit 23 then none
  else if word ≠ 0 ∧ (34 < size ∨ 0xff < word ∧ 33 < size ∨ 0xffff < word ∧ 32 < size) then none
  else some (if size ≤ 3 then word else word * 256 ^ (size - 3))

/-- A compact field without a sign that moves its mantissa up, and its target. -/
def PlainTarget (bits : Word) (value : ℕ) : Prop :=
  decodeCompact (bits.toNat % 2 ^ 32) = some value ∧ bits.getLsbD 23 = false ∧
    3 ≤ bits.toNat / 2 ^ 24 % 256

/-- The headers have hashes below their targets. -/
def Works (headers : List Header) : Prop :=
  ∀ header ∈ headers, ∃ value, decodeCompact ((header 9).toNat % 2 ^ 32) = some value ∧
    blockHash compress header < value

def Linked : List Header → Prop
  | newer :: header :: older => blockHash compress header = previousHash newer ∧
    Linked (header :: older)
  | _ => True

section Target

variable {x s c : Word}

theorem toNat_shl (x : Word) (n : ℕ) : (shl x n).toNat = x.toNat * 2 ^ n % 2 ^ 64 := by
  have hshl : shl x n = x <<< n := rfl
  rw [hshl,BitVec.toNat_shiftLeft,Nat.shiftLeft_eq]

theorem select_shl {k : ℕ} (hx : x.toNat * 2 ^ k < 2 ^ 64) :
    (select c (shl x k) x).toNat = x.toNat * (2 ^ k) ^ (isMsbTrue c).toNat := by
  rw [select]
  cases isMsbTrue c with
  | true =>
    rw [if_pos rfl,toNat_shl,Nat.mod_eq_of_lt hx]
    exact (congrArg _ (pow_one _)).symm
  | false => exact (Nat.mul_one _).symm

theorem stages_value (v c4 c8 c16 : Word) : limbValue [
      select c16 0 (select c8 0 (select c4 (shl v (4 * 8)) v)),
      select c16 0 (select c8 (select c4 (shl v (4 * 8)) v) (select c4 (shr v (4 * 8)) 0)),
      select c16 (select c8 0 (select c4 (shl v (4 * 8)) v)) (select c8 (select c4 (shr v (4 * 8)) 0) 0),
      select c16 (select c8 (select c4 (shl v (4 * 8)) v) (select c4 (shr v (4 * 8)) 0)) 0] =
    v.toNat * (2 ^ 32) ^ (isMsbTrue c4).toNat * (2 ^ 64) ^ (isMsbTrue c8).toNat *
      (2 ^ 128) ^ (isMsbTrue c16).toNat % 2 ^ 256 := by
  have hv := v.isLt
  have hlo := toNat_shl v (4 * 8)
  have hhi := toNat_shr v (4 * 8)
  simp only [select,limbValue_cons,limbValue_nil]
  generalize isMsbTrue c4 = b4
  generalize isMsbTrue c8 = b8
  generalize isMsbTrue c16 = b16
  cases b4 <;> cases b8 <;> cases b16 <;> simp [hlo,hhi] <;> omega

theorem toNat_band_mask (x : Word) (k : ℕ) (mask : Word) (hmask : mask.toNat = 2 ^ k - 1) :
    (band mask x).toNat = x.toNat % 2 ^ k := by
  rw [band,BitVec.toNat_and,hmask,Nat.and_comm,Nat.and_two_pow_sub_one_eq_mod]

theorem target_value (bits : Word) : (target bits).value =
    bits.toNat % 2 ^ 24 * 256 ^ ((bits.toNat / 2 ^ 24 % 256 + 29) % 32) % 2 ^ 256 := by
  obtain ⟨m,hm⟩ : ∃ m, m = band 0x0000000000ffffff bits := ⟨_,rfl⟩
  obtain ⟨t,ht⟩ : ∃ t, t = (isubBinBout (band 0x00000000000000ff (shr bits 24)) 3 0).1 := ⟨_,rfl⟩
  have hmantissa : m.toNat = bits.toNat % 2 ^ 24 := by
    rw [hm,toNat_band_mask bits 24 _ rfl]
  have hshift : t.toNat % 32 = (bits.toNat / 2 ^ 24 % 256 + 29) % 32 := by
    have hexponent := toNat_band_mask (shr bits 24) 8 0x00000000000000ff rfl
    have hzero : (0 : Word) >>> 63 = 0#64 := rfl
    rw [toNat_shr] at hexponent
    rw [ht,isubBinBout,MachineWord.isubBinBout,hzero]
    dsimp only
    rw [BitVec.sub_zero,BitVec.toNat_sub,hexponent,show (3 : Word).toNat = 3 from rfl]
    omega
  have hbit (k : ℕ) (hk : k < 64) :
      (isMsbTrue (shl t (64 - 1 - k))).toNat = t.toNat / 2 ^ k % 2 := by
    rw [isMsbTrue_shl hk,BitVec.getLsbD,Nat.toNat_testBit]
  have hlow : m.toNat < 2 ^ 24 := by omega
  have hfirst := select_shl (c := shl t 63) (x := m) (k := 8) (by omega)
  have hlow' : (select (shl t 63) (shl m 8) m).toNat < 2 ^ 32 := by
    rw [hfirst]
    cases isMsbTrue (shl t 63) <;> simp <;> omega
  have hsecond := select_shl (c := shl t 62) (k := 2 * 8) (x := select (shl t 63) (shl m 8) m) (by omega)
  have hsum : t.toNat % 32 = t.toNat / 2 ^ 0 % 2 + 2 * (t.toNat / 2 ^ 1 % 2) +
      4 * (t.toNat / 2 ^ 2 % 2) + 8 * (t.toNat / 2 ^ 3 % 2) + 16 * (t.toNat / 2 ^ 4 % 2) := by
    omega
  have h0 := hbit 0 (by decide)
  have h1 := hbit 1 (by decide)
  have h2 := hbit 2 (by decide)
  have h3 := hbit 3 (by decide)
  have h4 := hbit 4 (by decide)
  have hvalue := stages_value (select (shl t 62) (shl (select (shl t 63) (shl m 8) m) (2 * 8))
    (select (shl t 63) (shl m 8) m)) (shl t 61) (shl t 60) (shl t 59)
  rw [hsecond,hfirst,h0,h1,h2,h3,h4] at hvalue
  rw [hmantissa] at hvalue
  rw [←hshift,hsum]
  simp only [pow_add,pow_mul]
  subst hm ht
  refine hvalue.trans ?_
  norm_num [mul_assoc]

theorem target_plain {bits : Word} {value : ℕ} (h : PlainTarget bits value) :
    (target bits).value = value := by
  obtain ⟨hdecode,hsign,hsize⟩ := h
  have hbit : bits.toNat / 2 ^ 23 % 2 = 0 := by
    rw [←Nat.toNat_testBit]
    exact congrArg Bool.toNat hsign
  have hword : bits.toNat % 2 ^ 32 % 2 ^ 23 = bits.toNat % 2 ^ 24 := by omega
  have hexponent : bits.toNat % 2 ^ 32 / 2 ^ 24 % 256 = bits.toNat / 2 ^ 24 % 256 := by omega
  have htest : (bits.toNat % 2 ^ 32).testBit 23 = false := by
    rw [Nat.testBit_mod_two_pow]
    exact hsign
  rw [decodeCompact] at hdecode
  rw [htest,hword,hexponent] at hdecode
  rw [target_value]
  have hlow : bits.toNat % 2 ^ 24 < 2 ^ 24 := Nat.mod_lt _ (by decide)
  have hhigh : bits.toNat / 2 ^ 24 % 256 < 256 := Nat.mod_lt _ (by decide)
  generalize bits.toNat % 2 ^ 24 = word at *
  generalize bits.toNat / 2 ^ 24 % 256 = size at *
  have hdown : (if size ≤ 3 then word / 256 ^ (3 - size) else word) = word := by
    split
    · rw [Nat.sub_eq_zero_of_le hsize,Nat.pow_zero,Nat.div_one]
    · rfl
  have hup : (if size ≤ 3 then word else word * 256 ^ (size - 3)) = word * 256 ^ (size - 3) := by
    split
    · rw [Nat.sub_eq_zero_of_le ‹_›,Nat.pow_zero,Nat.mul_one]
    · rfl
  simp only [hdown,hup,Bool.false_eq_true,and_false,if_false] at hdecode
  split at hdecode
  · cases hdecode
  · rename_i hfits
    rw [←Option.some.inj hdecode]
    by_cases hzero : word = 0
    · rw [hzero,Nat.zero_mul,Nat.zero_mul,Nat.zero_mod]
    · have hshift : (size + 29) % 32 = size - 3 := by omega
      have hroom : word * 256 ^ (size - 3) < 2 ^ 256 := by
        by_cases hsmall : size ≤ 32
        · have hpow : 256 ^ (size - 3) ≤ 256 ^ 29 := Nat.pow_le_pow_right (by decide) (by omega)
          calc word * 256 ^ (size - 3) ≤ word * 256 ^ 29 := Nat.mul_le_mul_left _ hpow
            _ < 2 ^ 24 * 256 ^ 29 := Nat.mul_lt_mul_of_pos_right hlow (by decide)
            _ = 2 ^ 256 := by norm_num
        · obtain rfl | rfl : size = 33 ∨ size = 34 := by omega
          · omega
          · omega
      rw [hshift,Nat.mod_eq_of_lt hroom]

end Target

variable {compress : Compression}

theorem assertFulfillsTarget_eq_ok {digest : Fin 4 → Word} {bits : Word} :
    assertFulfillsTarget digest bits = .ok () ↔
      limbValue (ofFn digest) < (target bits).value := by
  obtain ⟨lt,hlt,hcompare⟩ := biguintLt_ok (a := ⟨ofFn digest⟩) (b := target bits) rfl
  rw [assertFulfillsTarget,hlt,ok_bind,assertTrue_eq_ok,hcompare]
  rfl

theorem assertEqV_eq_ok {n : ℕ} {name : String} {x y : Fin n → Word} :
    assertEqV name x y = .ok () ↔ x = y := by
  rw [assertEqV,forM_eq_ok]
  exact ⟨fun h => funext fun i => assertEq_eq_ok.mp (h i (mem_finRange i)),
    fun h i _ => assertEq_eq_ok.mpr (congrFun h i)⟩

theorem limbValue_eq_beValue (words : List Word) :
    limbValue words = beValue (messageBytes words (8 * words.length)).reverse := by
  induction words with
  | nil => rfl
  | cons word words ih =>
    have hbytes : messageBytes (word :: words) (8 * (word :: words).length) =
        (beBytes word 8).reverse ++ messageBytes words (8 * words.length) := by
      rw [length_cons,Nat.mul_add,Nat.add_comm,messageBytes,range_add,map_append,map_map]
      refine congrArg₂ _ rfl (map_congr_left fun p _ => ?_)
      have hdiv : (8 * 1 + p) / 8 = p / 8 + 1 := by omega
      have hmod : (8 * 1 + p) % 8 = p % 8 := by omega
      rw [Function.comp_apply,hdiv,hmod,getD_cons_succ]
    have hword : word.toNat % 256 ^ 8 = word.toNat := Nat.mod_eq_of_lt word.isLt
    rw [hbytes,reverse_append,reverse_reverse,beValue_append,beValue_beBytes,length_beBytes,
      limbValue_cons,ih,hword]
    omega

theorem byteAt_past {w : ℕ} (v : BitVec w) {k : ℕ} (h : w ≤ 8 * k) : byteAt v k = 0 := by
  apply BitVec.eq_of_getLsbD_eq
  intro i hi
  rw [byteAt_bit,BitVec.getLsbD_of_ge _ _ (by omega),Bool.and_false]
  exact BitVec.getLsbD_zero.symm

theorem byteAt_shl (x : Word) {k : ℕ} (hk : k < 8) :
    byteAt (shl x 32) k = if k < 4 then 0 else byteAt x (k - 4) := byteAt_shiftLeft x 4 (by omega)

theorem bytes_ext {n : ℕ} {f g : ℕ → Byte} (h : ∀ p < n, f p = g p) :
    (range n).map f = (range n).map g :=
  map_congr_left fun p hp => h p (mem_range.mp hp)

theorem previousBlockHash_value (header : Header) :
    limbValue (ofFn (previousBlockHash header)) = previousHash header := by
  have hbytes : messageBytes (ofFn (previousBlockHash header)) 32 =
      (messageBytes (ofFn header) 36).drop 4 := by
    have hdrop : (messageBytes (ofFn header) 36).drop 4 = (range 32).map fun p =>
      byteAt ((ofFn header).getD ((4 + p) / 8) 0) ((4 + p) % 8) := rfl
    rw [hdrop]
    refine bytes_ext fun p hp => ?_
    have hjoin : (ofFn (previousBlockHash header)).getD (p / 8) 0 =
        join ((ofFn header).getD (p / 8 + 1) 0) ((ofFn header).getD (p / 8) 0) := by
      have hin : p / 8 < 4 := by omega
      generalize p / 8 = i at hin
      interval_cases i <;> rfl
    have hshr (x : Word) (k : ℕ) : byteAt (shr x 32) k = byteAt x (4 + k) := byteAt_ushiftRight x 4 k
    rw [hjoin,join,bxor,byteAt_xor,byteAt_shl _ (by omega),hshr]
    by_cases hlow : p % 8 < 4
    · have hdiv : (4 + p) / 8 = p / 8 := by omega
      have hmod : (4 + p) % 8 = 4 + p % 8 := by omega
      rw [if_pos hlow,hdiv,hmod]
      exact BitVec.zero_xor
    · have hdiv : (4 + p) / 8 = p / 8 + 1 := by omega
      have hmod : (4 + p) % 8 = p % 8 - 4 := by omega
      have hpast : byteAt ((ofFn header).getD (p / 8) 0) (4 + p % 8) = 0 := byteAt_past _ (by omega)
      rw [if_neg hlow,hdiv,hmod,hpast]
      exact BitVec.xor_zero
  rw [limbValue_eq_beValue,length_ofFn,hbytes,previousHash]

theorem repack_bytes (d : Fin 8 → BitVec 32) : messageBytes (ofFn fun i : Fin 4 =>
    bxor (swapBytes32 (wide d ⟨2 * i,Sha256.double_lt i⟩)) (shl (swapBytes32 (wide d ⟨2 * i + 1,Sha256.double_succ_lt i⟩)) 32)) 32 =
      digestBytes d := by
  rw [messageBytes,digestBytes,beMessageBytes]
  refine bytes_ext fun p hp => ?_
  have hget (j : ℕ) (hj : j < 8) : (ofFn (wide d)).getD j 0 = wide d ⟨j,hj⟩ := by
    rw [getD_eq_getElem _ _ (by rwa [length_ofFn]),List.getElem_ofFn]
  have hwide (j : Fin 8) {k : ℕ} (hk : 4 ≤ k) (hk' : k < 8) : byteAt (wide d j) k = 0 := by
    rw [wide,ofU32,byteAt_setWidth _ (by omega),byteAt_past _ (by omega)]
  rw [getD_eq_getElem _ _ (by rw [length_ofFn]; omega),List.getElem_ofFn,bxor,byteAt_xor,
    byteAt_swapBytes32 _ (by omega),byteAt_shl _ (by omega),hget _ (by omega)]
  by_cases hlow : p % 8 < 4
  · have hword : p / 4 = 2 * (p / 8) := by omega
    have hmod : p % 4 = p % 8 := by omega
    simp only [if_pos hlow,hword,hmod]
    exact BitVec.xor_zero
  · have hword : p / 4 = 2 * (p / 8) + 1 := by omega
    have hmod : p % 4 = p % 8 - 4 := by omega
    rw [if_neg hlow,if_neg hlow,byteAt_swapBytes32 _ (by omega),if_pos (by omega),hwide _ (by omega) (by omega)]
    simp only [hword,hmod]
    exact BitVec.zero_xor

theorem doubleSha256_settles (compress : Compression) (advice : Advice) (header : Header) :
    Settles (advice.Follows (sha256CompressHint compress))
      (doubleSha256 compress advice (ofFn header))
      fun digest => limbValue (ofFn digest) = blockHash compress header := by
  have hlen : (ofFn header).length = 10 := length_ofFn
  rw [doubleSha256,hlen]
  refine (sha256Fixed_settles advice (by rw [length_messageBe,hlen]; rfl) (by decide)).bind
    fun digest0 h0 => ?_
  refine (sha256Fixed_settles advice (by rw [length_ofFn]; rfl) (by decide)).bind fun digest1 h1 => ?_
  refine Settles.of_ok rfl ?_
  rw [beMessageBytes_messageBe _ (by rw [hlen])] at h0
  rw [limbValue_eq_beValue,length_ofFn,h1,h0,repack_bytes]
  rfl

variable {newer header : Header} {headers : List Header}

theorem fulfills_iff {digest : Fin 4 → Word} (hplain : ∃ value, PlainTarget (header 9) value)
    (hdigest : limbValue (ofFn digest) = blockHash compress header) :
    assertFulfillsTarget digest (header 9) = .ok () ↔ ∃ value,
      decodeCompact ((header 9).toNat % 2 ^ 32) = some value ∧ blockHash compress header < value := by
  obtain ⟨value,hvalue⟩ := hplain
  rw [assertFulfillsTarget_eq_ok,hdigest,target_plain hvalue,hvalue.1]
  exact ⟨fun h => ⟨value,rfl,h⟩,fun ⟨_,heq,h⟩ => Option.some.inj heq ▸ h⟩

theorem linked_iff {digest : Fin 4 → Word}
    (hdigest : limbValue (ofFn digest) = blockHash compress header) :
    assertEqV "hash chain" digest (previousBlockHash newer) = .ok () ↔
      blockHash compress header = previousHash newer := by
  rw [assertEqV_eq_ok,←hdigest,←previousBlockHash_value]
  exact ⟨fun h => by rw [h],fun h => ofFn_injective (limbValue_inj (by simp) h)⟩

theorem checkOlder_settled (compress : Compression) (advice : Advice) (newer : Header)
    (hplain : ∀ header ∈ headers, ∃ value, PlainTarget (header 9) value) :
    (checkOlder compress advice newer headers = .ok () →
      Works compress headers ∧ Linked compress (newer :: headers)) ∧
    (advice.Follows (sha256CompressHint compress) → Works compress headers →
      Linked compress (newer :: headers) → checkOlder compress advice newer headers = .ok ()) := by
  induction headers generalizing newer with
  | nil => exact ⟨fun _ => ⟨fun _ h => absurd h not_mem_nil,trivial⟩,fun _ _ _ => rfl⟩
  | cons header older ih =>
    obtain ⟨hsound,hcomplete⟩ := ih header fun h hmem => hplain h (mem_cons_of_mem _ hmem)
    have hhash := doubleSha256_settles compress advice header
    have hself := hplain header mem_cons_self
    constructor
    · intro hrun
      obtain ⟨digest,hdigest,hrun⟩ := bind_eq_ok.mp hrun
      obtain ⟨⟨⟩,hlink,hrun⟩ := bind_eq_ok.mp hrun
      obtain ⟨⟨⟩,hwork,hrun⟩ := bind_eq_ok.mp hrun
      obtain ⟨hworks,hlinked⟩ := hsound hrun
      have hvalue := hhash.1 digest hdigest
      exact ⟨forall_mem_cons.mpr ⟨(fulfills_iff hself hvalue).mp hwork,hworks⟩,
        (linked_iff hvalue).mp hlink,hlinked⟩
    · intro hhonest hworks hlinked
      obtain ⟨digest,hdigest⟩ := hhash.2 hhonest
      have hvalue := hhash.1 digest hdigest
      obtain ⟨hwork,hworks⟩ := forall_mem_cons.mp hworks
      rw [checkOlder,hdigest,ok_bind,(linked_iff hvalue).mpr hlinked.1,ok_bind,
        (fulfills_iff hself hvalue).mpr hwork,ok_bind]
      exact hcomplete hhonest hworks hlinked.2

theorem headerChain_settled (advice : Advice)
    (hplain : ∀ header ∈ headers, ∃ value, PlainTarget (header 9) value) :
    (∀ digest, headerChain compress advice headers = .ok digest →
      headers ≠ [] ∧ Works compress headers ∧ Linked compress headers) ∧
    (advice.Follows (sha256CompressHint compress) → headers ≠ [] → Works compress headers →
      Linked compress headers → ∃ digest, headerChain compress advice headers = .ok digest) := by
  cases headers with
  | nil => exact ⟨fun _ h => (nomatch h),fun _ h => absurd rfl h⟩
  | cons latest older =>
    obtain ⟨hsound,hcomplete⟩ := checkOlder_settled compress advice latest
      fun h hmem => hplain h (mem_cons_of_mem _ hmem)
    have hhash := doubleSha256_settles compress advice latest
    have hself := hplain latest mem_cons_self
    constructor
    · intro digest hrun
      obtain ⟨found,hdigest,hrun⟩ := bind_eq_ok.mp hrun
      obtain ⟨⟨⟩,hwork,hrun⟩ := bind_eq_ok.mp hrun
      obtain ⟨⟨⟩,holder,-⟩ := bind_eq_ok.mp hrun
      obtain ⟨hworks,hlinked⟩ := hsound holder
      exact ⟨cons_ne_nil _ _,forall_mem_cons.mpr
        ⟨(fulfills_iff hself (hhash.1 found hdigest)).mp hwork,hworks⟩,hlinked⟩
    · intro hhonest _ hworks hlinked
      obtain ⟨found,hdigest⟩ := hhash.2 hhonest
      obtain ⟨hwork,hworks⟩ := forall_mem_cons.mp hworks
      refine ⟨found,?_⟩
      rw [headerChain,hdigest,ok_bind,(fulfills_iff hself (hhash.1 found hdigest)).mpr hwork,ok_bind,
        hcomplete hhonest hworks hlinked]
      rfl

theorem header_chains_exact (compress : Compression) :
    (∀ (bits : Word) (value : ℕ), PlainTarget bits value → (target bits).value = value) ∧
    ∀ headers : List Header, (∀ header ∈ headers, ∃ value, PlainTarget (header 9) value) →
      ((∃ advice digest, headerChain compress advice headers = .ok digest) ↔
        headers ≠ [] ∧ Works compress headers ∧ Linked compress headers) := by
  refine ⟨fun _ _ => target_plain,fun headers hplain => ⟨?_,?_⟩⟩
  · rintro ⟨advice,digest,hrun⟩
    exact (headerChain_settled advice hplain).1 digest hrun
  · rintro ⟨hne,hworks,hlinked⟩
    exact ⟨_,(headerChain_settled _ hplain).2 (Advice.honest_follows _) hne hworks hlinked⟩

theorem header_chains_exact_one : (target 0x1d00ffff).value = 0xffff * 256 ^ 26 ∧
    ((∃ advice digest, headerChain (fun state _ => state) advice [fun _ => 0x1d00ffff] = .ok digest) ↔
      [(fun _ => 0x1d00ffff : Header)] ≠ [] ∧ Works (fun state _ => state) [fun _ => 0x1d00ffff] ∧
        Linked (fun state _ => state) [fun _ => 0x1d00ffff]) := by
  have hplain : PlainTarget 0x1d00ffff (0xffff * 256 ^ 26) := by
    refine ⟨?_,?_,?_⟩ <;> decide
  exact ⟨(header_chains_exact fun state _ => state).1 _ _ hplain,
    (header_chains_exact fun state _ => state).2 [fun _ => 0x1d00ffff]
      fun header hmem => ⟨0xffff * 256 ^ 26,by rw [mem_singleton.mp hmem]; exact hplain⟩⟩

theorem header_chains_differ :
    (decodeCompact 0x01003456 = some 0 ∧ (target 0x01003456).value ≠ 0) ∧
    (decodeCompact 0x03000001 = some 1 ∧ limbValue (ofFn ![(1 : Word),0,0,0]) = 1 ∧
      assertFulfillsTarget ![1,0,0,0] 0x03000001 ≠ .ok ()) := by
  refine ⟨⟨?_,?_⟩,?_,?_,?_⟩ <;> decide

end Binius64.BitcoinHeaders
