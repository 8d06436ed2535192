import Binius64.LaneWords
import Binius64.WotsChains

/-!
# XMSS signatures

A Merkle tree over the hashes of one-time public keys.
-/

namespace Binius64.Wots

open MachineWord (Word isMsbTrue loHalf)
open WordGates ByteVectors CheckedRun Bignum LaneWords Multiplexers RunLayout List

def tweakTypeWotsPk : ℕ := 1

def tweakTypeMerkle : ℕ := 2

/-- The levels of the tree. -/
def logLifetime : ℕ := 32

structure XmssPublicKey where
  merkleRoot : Digest
  publicParam : Digest

/-- The ground randomness, each chain walked as far as its digit, and the siblings from the leaf up. -/
structure XmssSignature where
  randomness : List Word
  chainTips : ℕ → Digest
  merklePath : Fin logLifetime → Digest

inductive XmssVerifyError where
  | invalidWots
  | invalidMerklePath

variable (tweakHash : TweakHash) (publicParam : Digest)

def digestBit (d : Digest) (j : ℕ) : ℕ := ((if j < 64 then d.1 else d.2).getLsbD (j % 64)).toNat

/-- The digits that a message and randomness encode to: none unless the leftover bits are zero and
the digits sum to the target. -/
def wotsEncode (message : List Word) (epoch : BitVec 32) (randomness : List Word) : Option (ℕ → ℕ) :=
  let digest := tweakHash publicParam tweakTypeEncoding 0 epoch (message ++ randomness)
  if digestBit digest 63 ≠ 0 ∨ digestBit digest 127 ≠ 0 then none
  else
    let pos := fun i => if i < v / 2 then w * i else 64 + w * (i - v / 2)
    let encoding := fun i =>
      (range w).foldl (fun acc k => acc ||| digestBit digest (pos i + k) <<< k) 0
    if ((range v).map encoding).sum = targetSum then some encoding else none

def wotsPublicKeyHash (epoch : BitVec 32) (chainEnds : List Digest) : Digest :=
  tweakHash publicParam tweakTypeWotsPk 0 epoch (chainEnds.flatMap digestWords)

def merkleNode (level : ℕ) (index : BitVec 32) (left right : Digest) : Digest :=
  tweakHash publicParam tweakTypeMerkle (BitVec.ofNat 32 level) index
    (digestWords left ++ digestWords right)

def climb (leaf : Digest) (epoch : BitVec 32) (merklePath : Fin logLifetime → Digest) : Digest :=
  (finRange logLifetime).foldl (fun current level =>
    let sibling := merklePath level
    let isLeft := (epoch >>> level.val) &&& 1 = 0
    let (left,right) := if isLeft then (current,sibling) else (sibling,current)
    let parentIndex := (epoch.setWidth 64 >>> (level.val + 1)).setWidth 32
    merkleNode tweakHash publicParam (level.val + 1) parentIndex left right) leaf

def xmssVerify (publicKey : XmssPublicKey) (message : List Word) (signature : XmssSignature)
    (epoch : BitVec 32) : Except XmssVerifyError Unit :=
  match wotsEncode tweakHash publicKey.publicParam message epoch signature.randomness with
  | none => .error .invalidWots
  | some encoding =>
    let chainEnds := recoverPublicKey tweakHash publicKey.publicParam signature.chainTips encoding epoch
    let leaf := wotsPublicKeyHash tweakHash publicKey.publicParam epoch chainEnds
    if climb tweakHash publicKey.publicParam leaf epoch signature.merklePath = publicKey.merkleRoot then
      .ok ()
    else .error .invalidMerklePath

def circuitWotsPublicKeyHash (epoch : Word) (chainEnds : List Digest) : Digest :=
  circuitTweakHash tweakHash publicParam tweakTypeWotsPk 0 epoch (chainEnds.flatMap digestWords)

def circuitClimb (leaf : Digest) (epoch : Word) (merklePath : Fin logLifetime → Digest) : Digest :=
  (finRange logLifetime).foldl (fun current level =>
    let sibling := merklePath level
    let isRight := shl epoch (64 - 1 - level.val)
    let left := (select isRight sibling.1 current.1,select isRight sibling.2 current.2)
    let right := (select isRight current.1 sibling.1,select isRight current.2 sibling.2)
    let parentIndex := shr epoch (level.val + 1)
    circuitTweakHash tweakHash publicParam tweakTypeMerkle (BitVec.ofNat 64 (level.val + 1)) parentIndex
      (digestWords left ++ digestWords right)) leaf

/-- The signature gadget. -/
def circuitXmssVerify (advice : Advice) (publicKey : XmssPublicKey) (message : List Word) (epoch : Word)
    (signature : XmssSignature) : Gadget Unit := do
  assertZero "xmss_epoch_in_range" (shr epoch logLifetime)
  let digits ← circuitWotsEncode tweakHash publicKey.publicParam epoch message signature.randomness
  let chainEnds ← circuitRecoverPublicKey tweakHash publicKey.publicParam advice epoch
    signature.chainTips digits
  let leaf := circuitWotsPublicKeyHash tweakHash publicKey.publicParam epoch chainEnds
  let root := circuitClimb tweakHash publicKey.publicParam leaf epoch signature.merklePath
  assertEq "xmss_merkle_root[0]" root.1 publicKey.merkleRoot.1
  assertEq "xmss_merkle_root[1]" root.2 publicKey.merkleRoot.2

variable {tweakHash publicParam} {message randomness : List Word} {epoch : BitVec 32}

theorem loHalf_ofNat (n : ℕ) : loHalf (BitVec.ofNat 64 n) = BitVec.ofNat 32 n := by
  apply BitVec.eq_of_toNat_eq
  rw [loHalf,BitVec.toNat_setWidth,BitVec.toNat_ofNat,BitVec.toNat_ofNat]
  omega

theorem climb_eq (leaf : Digest) (merklePath : Fin logLifetime → Digest) :
    circuitClimb tweakHash publicParam leaf (ofU32 epoch) merklePath =
      climb tweakHash publicParam leaf epoch merklePath := by
  refine congrArg (fun step => (finRange logLifetime).foldl step leaf)
    (funext fun current => funext fun level => ?_)
  have hlevel : level.val < 32 := level.isLt
  have hright : isMsbTrue (shl (ofU32 epoch) (64 - 1 - level.val)) = epoch.getLsbD level.val := by
    rw [isMsbTrue_shl (by omega),ofU32,BitVec.getLsbD_setWidth,decide_eq_true (by omega),Bool.true_and]
  have hleft : (epoch >>> level.val) &&& 1 = 0 ↔ epoch.getLsbD level.val = false := by
    have hone : (1 : BitVec 32).toNat = 1 := rfl
    rw [←BitVec.toNat_inj,BitVec.toNat_and,hone,Nat.and_one_is_mod,BitVec.toNat_ushiftRight,
      Nat.shiftRight_eq_div_pow,←Nat.toNat_testBit,←BitVec.testBit_toNat]
    cases epoch.toNat.testBit level.val <;> simp
  have hparent : loHalf (shr (ofU32 epoch) (level.val + 1)) =
      (epoch.setWidth 64 >>> (level.val + 1)).setWidth 32 := rfl
  dsimp only
  rw [circuitTweakHash,loHalf_ofNat,hparent,merkleNode,select,select,select,select,hright]
  cases hbit : epoch.getLsbD level.val with
  | true =>
    have hnot : ¬(epoch >>> level.val) &&& 1 = 0 := fun h => by
      rw [hleft.mp h] at hbit
      cases hbit
    rw [if_neg hnot]
    rfl
  | false =>
    rw [if_pos (hleft.mpr hbit)]
    rfl

theorem fold_three (b : ℕ → ℕ) : (range w).foldl (fun acc k => acc ||| b k <<< k) 0 =
    0 ||| b 0 <<< 0 ||| b 1 <<< 1 ||| b 2 <<< 2 := rfl

theorem bits_eq (x : Word) {s : ℕ} (hs : s ≤ 61) :
    (shr (shl x (64 - s - w)) (64 - w)).toNat =
      (range w).foldl (fun acc k => acc ||| (x.getLsbD (s + k)).toNat <<< k) 0 := by
  have hbit (k : ℕ) : (x.getLsbD (s + k)).toNat = x.toNat / 2 ^ s / 2 ^ k % 2 := by
    rw [BitVec.getLsbD,Nat.toNat_testBit,Nat.pow_add,Nat.div_div_eq_div_mul]
  have hdigit : (shr (shl x (64 - s - w)) (64 - w)).toNat = x.toNat / 2 ^ s % 8 := by
    have hshl : shl x (64 - s - w) = x <<< (64 - s - w) := rfl
    have hword : (2 : ℕ) ^ 64 = 2 ^ (s + 3) * 2 ^ (61 - s) := by
      rw [←Nat.pow_add]
      congr 1
      omega
    have htop : (2 : ℕ) ^ (64 - w) = 2 ^ (61 - s) * 2 ^ s := by
      rw [←Nat.pow_add,w]
      congr 1
      omega
    have hamount : 64 - s - w = 61 - s := by
      rw [w]
      omega
    rw [toNat_shr,hshl,hamount,BitVec.toNat_shiftLeft,Nat.shiftLeft_eq,hword,Nat.mul_mod_mul_right,htop,
      Nat.mul_comm (2 ^ (61 - s)),Nat.mul_comm (2 ^ s),←Nat.div_div_eq_div_mul,
      Nat.mul_div_cancel _ (Nat.two_pow_pos _),Nat.pow_add,Nat.mod_mul_right_div_self]
  rw [fold_three,hdigit,hbit,hbit,hbit]
  generalize x.toNat / 2 ^ s = q
  have h0 : q / 2 ^ 0 % 2 = q % 8 % 2 := by omega
  have h1 : q / 2 ^ 1 % 2 = q % 8 / 2 % 2 := by omega
  have h2 : q / 2 ^ 2 % 2 = q % 8 / 4 % 2 := by omega
  rw [h0,h1,h2]
  have hq : q % 8 < 8 := Nat.mod_lt _ (by decide)
  interval_cases q % 8 <;> rfl

theorem shr_top (x : Word) : shr x 63 = 0 ↔ (x.getLsbD 63).toNat = 0 := by
  have hx := x.isLt
  rw [←BitVec.toNat_inj,toNat_shr,BitVec.getLsbD,Nat.toNat_testBit,show (0 : Word).toNat = 0 from rfl]
  omega

theorem sum_eq_start {f g : ℕ → ℕ} {n : ℕ} (h : ∀ i < n, f i = g i) :
    ((range n).map f).sum = start g n := by
  induction n with
  | zero => rfl
  | succ n ih =>
    rw [range_succ,map_append,sum_append,ih fun i hi => h i (by omega),map_singleton,sum_singleton,
      h n (by omega),start]

theorem circuitWotsEncode_agrees (tweakHash : TweakHash) (publicParam : Digest)
    (message randomness : List Word) (epoch : BitVec 32) :
    (∀ digits, circuitWotsEncode tweakHash publicParam (ofU32 epoch) message randomness = .ok digits →
      ∃ encoding, wotsEncode tweakHash publicParam message epoch randomness = some encoding ∧
        ∀ i < v, encoding i = (digits i).toNat) ∧
    ∀ encoding, wotsEncode tweakHash publicParam message epoch randomness = some encoding →
      ∃ digits, circuitWotsEncode tweakHash publicParam (ofU32 epoch) message randomness = .ok digits := by
  obtain ⟨d,hd⟩ : ∃ d, d = tweakHash publicParam tweakTypeEncoding 0 epoch (message ++ randomness) := ⟨_,rfl⟩
  have hdigest : circuitTweakHash tweakHash publicParam tweakTypeEncoding 0 (ofU32 epoch)
      (message ++ randomness) = d := by
    rw [hd,circuitTweakHash,loHalf_ofU32]
    rfl
  obtain ⟨digits,hdigits⟩ : ∃ digits : ℕ → Word, digits = fun i =>
    shr (shl (if i / (v / 2) = 0 then d.1 else d.2) (64 - w * (i % (v / 2)) - w)) (64 - w) := ⟨_,rfl⟩
  obtain ⟨encoding,hencoding⟩ : ∃ encoding : ℕ → ℕ, encoding = fun i => (range w).foldl
    (fun acc k => acc ||| digestBit d ((if i < v / 2 then w * i else 64 + w * (i - v / 2)) + k) <<< k) 0 :=
    ⟨_,rfl⟩
  have hword : w = 3 := rfl
  have hhalf : v / 2 = 21 := rfl
  have hv : v = 42 := rfl
  have hsame (i : ℕ) (hi : i < v) : encoding i = (digits i).toNat := by
    have hbit (k : ℕ) (hk : k < 3) : digestBit d ((if i < v / 2 then w * i else 64 + w * (i - v / 2)) + k) =
        ((if i / (v / 2) = 0 then d.1 else d.2).getLsbD (w * (i % (v / 2)) + k)).toNat := by
      rw [digestBit,hhalf,hword]
      by_cases hlow : i < 21
      · have hpos : (3 * i + k) % 64 = 3 * (i % 21) + k := by
          rw [Nat.mod_eq_of_lt hlow,Nat.mod_eq_of_lt (by omega)]
        rw [if_pos hlow,if_pos (by omega),if_pos (by omega),hpos]
      · have hmod : i % 21 = i - 21 := by omega
        have hpos : (64 + 3 * (i - 21) + k) % 64 = 3 * (i % 21) + k := by
          rw [hmod,Nat.add_assoc,Nat.add_mod_left,Nat.mod_eq_of_lt (by omega)]
        rw [if_neg hlow,if_neg (by omega),if_neg (by omega),hpos]
    rw [hencoding,hdigits]
    dsimp only
    rw [bits_eq _ (by rw [hhalf,hword]; omega),fold_three,fold_three,hbit 0 (by decide),hbit 1 (by decide),
      hbit 2 (by decide)]
  have hle (i : ℕ) : (digits i).toNat ≤ 7 := by
    have hx := (shl (if i / (v / 2) = 0 then d.1 else d.2) (64 - w * (i % (v / 2)) - w)).isLt
    rw [hdigits]
    dsimp only
    rw [toNat_shr,hword]
    omega
  have hsum : (range v).foldl (fun acc i => iadd acc (digits i)) 0 = BitVec.ofNat 64 targetSum ↔
      ((range v).map encoding).sum = targetSum := by
    rw [sum_eq_start hsame,←BitVec.toNat_inj,sum_digits hle (Nat.le_refl v)]
    rfl
  have hcircuit (out : ℕ → Word) :
      circuitWotsEncode tweakHash publicParam (ofU32 epoch) message randomness = .ok out ↔
        shr d.1 63 = 0 ∧ shr d.2 63 = 0 ∧ ((range v).map encoding).sum = targetSum ∧ digits = out := by
    simp only [hdigits] at hsum
    rw [circuitWotsEncode,hdigest,and_then_eq_ok,and_then_eq_ok,and_then_eq_ok,assertZero_eq_ok,
      assertZero_eq_ok,assertEq_eq_ok,pure_eq_ok]
    dsimp only
    rw [hsum,←hdigits]
  have hnative : wotsEncode tweakHash publicParam message epoch randomness =
      if shr d.1 63 = 0 ∧ shr d.2 63 = 0 ∧ ((range v).map encoding).sum = targetSum then some encoding
      else none := by
    have hfirst : digestBit d 63 = (d.1.getLsbD 63).toNat := rfl
    have hsecond : digestBit d 127 = (d.2.getLsbD 63).toNat := rfl
    rw [wotsEncode,←hd]
    dsimp only
    rw [←hencoding,hfirst,hsecond]
    simp only [shr_top]
    generalize (d.1.getLsbD 63).toNat = b1
    generalize (d.2.getLsbD 63).toNat = b2
    by_cases h1 : b1 = 0
    · by_cases h2 : b2 = 0
      · simp [h1,h2]
      · simp [h2]
    · simp [h1]
  rw [hnative]
  constructor
  · intro out hout
    obtain ⟨h1,h2,h3,rfl⟩ := (hcircuit out).mp hout
    exact ⟨encoding,if_pos ⟨h1,h2,h3⟩,hsame⟩
  · intro out hout
    split at hout
    · rename_i h
      exact ⟨digits,(hcircuit digits).mpr ⟨h.1,h.2.1,h.2.2,rfl⟩⟩
    · cases hout

/-- With honest hints the gadget is satisfied just when the signature verifies at an epoch of the
tree. -/
theorem xmss_agrees {advice : Advice} (hadvice : advice.Follows (chainHashesHint tweakHash))
    (publicKey : XmssPublicKey) (message : List Word) (signature : XmssSignature) (epoch : Word) :
    circuitXmssVerify tweakHash advice publicKey message epoch signature = .ok () ↔
      epoch.toNat < 2 ^ 32 ∧ xmssVerify tweakHash publicKey message signature (loHalf epoch) = .ok () := by
  rw [circuitXmssVerify,and_then_eq_ok,assertZero_eq_ok]
  have hrange : shr epoch logLifetime = 0 ↔ epoch.toNat < 2 ^ 32 := by
    rw [←BitVec.toNat_inj,toNat_shr,show (0 : Word).toNat = 0 from rfl,logLifetime]
    omega
  rw [hrange]
  refine and_congr_right fun hepoch => ?_
  obtain ⟨e,rfl⟩ := exists_ofU32 hepoch
  rw [loHalf_ofU32,xmssVerify]
  obtain ⟨hsound,hcomplete⟩ := circuitWotsEncode_agrees tweakHash publicKey.publicParam message
    signature.randomness e
  cases hencode : wotsEncode tweakHash publicKey.publicParam message e signature.randomness with
  | none =>
    constructor
    · intro hrun
      obtain ⟨digits,hdigits,-⟩ := bind_eq_ok.mp hrun
      obtain ⟨encoding,hsome,-⟩ := hsound digits hdigits
      rw [hencode] at hsome
      cases hsome
    · intro h
      cases h
  | some encoding =>
    obtain ⟨digits,hdigits⟩ := hcomplete encoding hencode
    obtain ⟨found,hfound,hsame⟩ := hsound digits hdigits
    obtain rfl : encoding = found := Option.some.inj (hencode.symm.trans hfound)
    obtain ⟨hle,hstart⟩ := circuitWotsEncode_spec hdigits
    have hends : recoverPublicKey tweakHash publicKey.publicParam signature.chainTips
        (fun i => (digits i).toNat) e =
          recoverPublicKey tweakHash publicKey.publicParam signature.chainTips encoding e :=
      map_congr_left fun i hi => by rw [hsame i (mem_range.mp hi)]
    have hleaf (ends : List Digest) : circuitWotsPublicKeyHash tweakHash publicKey.publicParam (ofU32 e) ends =
        wotsPublicKeyHash tweakHash publicKey.publicParam e ends := by
      rw [circuitWotsPublicKeyHash,circuitTweakHash,loHalf_ofU32]
      rfl
    rw [hdigits,ok_bind,circuitRecoverPublicKey_complete hadvice hle hstart,ok_bind,loHalf_ofU32,hends]
    dsimp only
    rw [hleaf,climb_eq,and_then_eq_ok,assertEq_eq_ok,assertEq_eq_ok,←Prod.ext_iff]
    split
    · exact ⟨fun _ => rfl,fun _ => ‹_›⟩
    · refine ⟨fun h => absurd h ‹_›,fun h => ?_⟩
      cases h

theorem xmss_agrees_sevens :
    circuitXmssVerify sevensHash (Advice.honest (chainHashesHint sevensHash)) ⟨(0,0),(0,0)⟩ [1,2,3,4] 5
        ⟨[5,6],fun i => (BitVec.ofNat 64 i,0),fun _ => (0,0)⟩ = .ok () ↔
      (5 : Word).toNat < 2 ^ 32 ∧ xmssVerify sevensHash ⟨(0,0),(0,0)⟩ [1,2,3,4]
        ⟨[5,6],fun i => (BitVec.ofNat 64 i,0),fun _ => (0,0)⟩ (loHalf 5) = .ok () :=
  xmss_agrees (Advice.honest_follows _) _ _ _ _

end Binius64.Wots
