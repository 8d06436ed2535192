import Binius64.BignumAddition

/-!
# Products of big integers

The textbook product and square push every pair of limbs on columns and add these up.
-/

namespace Binius64.Bignum

open MachineWord (Word isMsbTrue isMsbTrue_eq)
open WordGates LimbVectors CheckedRun List

def pushLimb (limbStacks : LimbStacks) (k : ℕ) (limb : Word) : Gadget LimbStacks := do
  ensure (k < limbStacks.length) "index out of bounds"
  return limbStacks.modify k (· ++ [limb])

/-- One limb times the limbs of the other factor, from column `k` on. -/
def mulRow (ai : Word) : ℕ → List Word → LimbStacks → Gadget LimbStacks
  | _, [], accumulator => .ok accumulator
  | k, bj::bs, accumulator => do
    let hiLo := imul ai bj
    let accumulator ← pushLimb accumulator k hiLo.2
    let accumulator ← pushLimb accumulator (k + 1) hiLo.1
    mulRow ai (k + 1) bs accumulator

def mulRows (b : List Word) : ℕ → List Word → LimbStacks → Gadget LimbStacks
  | _, [], accumulator => .ok accumulator
  | i, ai::as, accumulator => do
    let accumulator ← mulRow ai i b accumulator
    mulRows b (i + 1) as accumulator

/-- The product by all pairs of limbs. -/
def textbookMul (a b : BigUint) : Gadget BigUint := do
  let accumulator ← mulRows b.limbs 0 a.limbs
    (replicate (a.limbs.length + b.limbs.length) [])
  computeStackAdds accumulator

/-- Limb `i` times the limbs from `j` on; a product off the diagonal is pushed twice. -/
def squareRow (ai : Word) (i : ℕ) : ℕ → List Word → LimbStacks → Gadget LimbStacks
  | _, [], accumulator => .ok accumulator
  | j, aj::as, accumulator => do
    let hiLo := imul ai aj
    let accumulator ← pushLimb accumulator (i + j) hiLo.2
    let accumulator ← pushLimb accumulator (i + j + 1) hiLo.1
    if i ≠ j then
      let accumulator ← pushLimb accumulator (i + j) hiLo.2
      let accumulator ← pushLimb accumulator (i + j + 1) hiLo.1
      squareRow ai i (j + 1) as accumulator
    else
      squareRow ai i (j + 1) as accumulator

def squareRows : ℕ → List Word → LimbStacks → Gadget LimbStacks
  | _, [], accumulator => .ok accumulator
  | i, ai::as, accumulator => do
    let accumulator ← squareRow ai i i (ai::as) accumulator
    squareRows (i + 1) as accumulator

/-- The square, by the pairs of limbs on and above the diagonal. -/
def textbookSquare (a : BigUint) : Gadget BigUint := do
  let accumulator ← squareRows 0 a.limbs (replicate (a.limbs.length + a.limbs.length) [])
  computeStackAdds accumulator

variable {limbStacks s : LimbStacks} {k h : ℕ} (ai : Word)

theorem pushLimb_ok (h : k < limbStacks.length) (limb : Word) :
    ∃ pushed, pushLimb limbStacks k limb = .ok pushed ∧ pushed.length = limbStacks.length ∧
      columnsValue pushed = columnsValue limbStacks + (2 ^ 64) ^ k * limb.toNat := by
  refine ⟨_,?_,length_modify _ _ _,columnsValue_modify limbStacks h limb⟩
  unfold pushLimb
  rw [ensure_ok h]
  rfl

theorem pushProduct_ok (h : k + 1 < limbStacks.length)
    (x y : Word) :
    ∃ low high, pushLimb limbStacks k (imul x y).2 = .ok low ∧
      pushLimb low (k + 1) (imul x y).1 = .ok high ∧ high.length = limbStacks.length ∧
      columnsValue high = columnsValue limbStacks + (2 ^ 64) ^ k * (x.toNat * y.toNat) := by
  obtain ⟨low,hlow,hlowlen,hlowvalue⟩ := pushLimb_ok (Nat.lt_of_succ_lt h) (imul x y).2
  obtain ⟨high,hhigh,hhighlen,hhighvalue⟩ := pushLimb_ok (hlowlen ▸ h) (imul x y).1
  refine ⟨low,high,hlow,hhigh,hhighlen.trans hlowlen,?_⟩
  rw [hhighvalue,hlowvalue,←imul_value x y]
  ring

theorem mulRow_ok (k : ℕ) (bs : List Word)
    (h : k + bs.length < s.length) :
    ∃ pushed, mulRow ai k bs s = .ok pushed ∧ pushed.length = s.length ∧
      columnsValue pushed =
        columnsValue s + (2 ^ 64) ^ k * (ai.toNat * limbValue bs) := by
  induction bs generalizing k s with
  | nil => exact ⟨s,rfl,rfl,by rw [limbValue_nil,Nat.mul_zero,Nat.mul_zero,Nat.add_zero]⟩
  | cons bj bs ih =>
    rw [length_cons] at h
    obtain ⟨low,high,hlow,hhigh,hlen,hvalue⟩ :=
      pushProduct_ok (show k + 1 < s.length by omega) ai bj
    obtain ⟨pushed,hrun,hpushed,htotal⟩ := ih (k + 1) (s := high) (by omega)
    refine ⟨pushed,?_,hpushed.trans hlen,?_⟩
    · unfold mulRow
      dsimp only
      rw [hlow,ok_bind,hhigh,ok_bind,hrun]
    · rw [htotal,hvalue,limbValue_cons]
      ring

theorem mulRows_ok (b : List Word) (i : ℕ) (as : List Word)
    (h : i + as.length + b.length ≤ s.length) :
    ∃ pushed, mulRows b i as s = .ok pushed ∧ pushed.length = s.length ∧
      columnsValue pushed =
        columnsValue s + (2 ^ 64) ^ i * (limbValue as * limbValue b) := by
  induction as generalizing i s with
  | nil => exact ⟨s,rfl,rfl,by rw [limbValue_nil,Nat.zero_mul,Nat.mul_zero,Nat.add_zero]⟩
  | cons ai as ih =>
    rw [length_cons] at h
    obtain ⟨row,hrow,hlen,hvalue⟩ := mulRow_ok ai i b (s := s) (by omega)
    obtain ⟨pushed,hrun,hpushed,htotal⟩ := ih (i + 1) (s := row) (by omega)
    refine ⟨pushed,?_,hpushed.trans hlen,?_⟩
    · unfold mulRows
      rw [hrow,ok_bind,hrun]
    · rw [htotal,hvalue,limbValue_cons]
      ring

theorem value_mul_lt (a b : BigUint) :
    a.value * b.value < (2 ^ 64) ^ (a.limbs.length + b.limbs.length) := by
  rw [pow_add]
  exact Nat.mul_lt_mul'' a.value_lt b.value_lt

theorem textbookMul_ok (a b : BigUint) :
    ∃ product, textbookMul a b = .ok product ∧
      product.limbs.length = a.limbs.length + b.limbs.length ∧
      product.value = a.value * b.value := by
  obtain ⟨accumulator,hrows,hlen,hvalue⟩ := mulRows_ok b.limbs 0 a.limbs
    (s := replicate (a.limbs.length + b.limbs.length) [])
    (by rw [length_replicate,Nat.zero_add])
  rw [length_replicate] at hlen
  rw [columnsValue_replicate_nil,pow_zero,Nat.one_mul,Nat.zero_add] at hvalue
  obtain ⟨product,hsum,hproduct,htotal⟩ := computeStackAdds_ok accumulator
    (by rw [hvalue,hlen]; exact value_mul_lt a b)
  refine ⟨product,?_,hproduct.trans hlen,htotal.trans hvalue⟩
  unfold textbookMul
  rw [hrows,ok_bind,hsum]

theorem squareRow_ok {i j : ℕ} (hij : i < j) (as : List Word)
    (h : i + j + as.length < s.length) :
    ∃ pushed, squareRow ai i j as s = .ok pushed ∧
      pushed.length = s.length ∧
      columnsValue pushed =
        columnsValue s + 2 * ((2 ^ 64) ^ (i + j) * (ai.toNat * limbValue as)) := by
  induction as generalizing j s with
  | nil => exact ⟨s,rfl,rfl,by
      rw [limbValue_nil,Nat.mul_zero,Nat.mul_zero,Nat.mul_zero,Nat.add_zero]⟩
  | cons aj as ih =>
    rw [length_cons] at h
    obtain ⟨low,high,hlow,hhigh,hlen,hvalue⟩ :=
      pushProduct_ok (show i + j + 1 < s.length by omega) ai aj
    obtain ⟨low2,high2,hlow2,hhigh2,hlen2,hvalue2⟩ :=
      pushProduct_ok (show i + j + 1 < high.length by omega) ai aj
    obtain ⟨pushed,hrun,hpushed,htotal⟩ := ih (j := j + 1) (by omega) (s := high2) (by omega)
    refine ⟨pushed,?_,hpushed.trans (hlen2.trans hlen),?_⟩
    · unfold squareRow
      dsimp only
      rw [hlow,ok_bind,hhigh,ok_bind,if_pos (Nat.ne_of_lt hij),hlow2,ok_bind,hhigh2,ok_bind,hrun]
    · rw [htotal,hvalue2,hvalue,limbValue_cons]
      ring

theorem squareRow_diagonal (i : ℕ) (as : List Word)
    (h : i + i + 1 + as.length < s.length) :
    ∃ pushed, squareRow ai i i (ai::as) s = .ok pushed ∧
      pushed.length = s.length ∧
      columnsValue pushed = columnsValue s +
        (2 ^ 64) ^ (i + i) * (ai.toNat * ai.toNat + 2 ^ 64 * (2 * (ai.toNat * limbValue as))) := by
  obtain ⟨low,high,hlow,hhigh,hlen,hvalue⟩ :=
    pushProduct_ok (show i + i + 1 < s.length by omega) ai ai
  obtain ⟨pushed,hrun,hpushed,htotal⟩ :=
    squareRow_ok ai (j := i + 1) (Nat.lt_succ_self i) as (s := high) (by omega)
  refine ⟨pushed,?_,hpushed.trans hlen,?_⟩
  · unfold squareRow
    dsimp only
    rw [hlow,ok_bind,hhigh,ok_bind,if_neg (not_not.mpr rfl),hrun]
  · rw [htotal,hvalue]
    ring

theorem squareRows_ok (i : ℕ) (as : List Word)
    (h : i + i + as.length + as.length ≤ s.length) :
    ∃ pushed, squareRows i as s = .ok pushed ∧ pushed.length = s.length ∧
      columnsValue pushed =
        columnsValue s + (2 ^ 64) ^ (i + i) * (limbValue as * limbValue as) := by
  induction as generalizing i s with
  | nil => exact ⟨s,rfl,rfl,by rw [limbValue_nil,Nat.zero_mul,Nat.mul_zero,Nat.add_zero]⟩
  | cons ai as ih =>
    rw [length_cons] at h
    obtain ⟨row,hrow,hlen,hvalue⟩ :=
      squareRow_diagonal ai i as (s := s) (by omega)
    obtain ⟨pushed,hrun,hpushed,htotal⟩ := ih (i + 1) (s := row) (by omega)
    refine ⟨pushed,?_,hpushed.trans hlen,?_⟩
    · unfold squareRows
      rw [hrow,ok_bind,hrun]
    · rw [htotal,hvalue,limbValue_cons]
      ring

theorem textbookSquare_eq (a : BigUint) : textbookSquare a = textbookMul a a := by
  obtain ⟨accumulator,hrows,hlen,hvalue⟩ := squareRows_ok 0 a.limbs
    (s := replicate (a.limbs.length + a.limbs.length) [])
    (by rw [length_replicate]; omega)
  rw [length_replicate] at hlen
  rw [columnsValue_replicate_nil,pow_zero,Nat.one_mul,Nat.zero_add] at hvalue
  obtain ⟨square,hsum,hsquare,htotal⟩ := computeStackAdds_ok accumulator
    (by rw [hvalue,hlen]; exact value_mul_lt a a)
  obtain ⟨product,hmul,hproduct,hexact⟩ := textbookMul_ok a a
  have hsame : square = product := BigUint.eq_of_value
    ((hsquare.trans hlen).trans hproduct.symm) ((htotal.trans hvalue).trans hexact.symm)
  unfold textbookSquare
  rw [hmul,hrows,ok_bind,hsum,hsame]

def pushLimbs : LimbStacks → List Word → LimbStacks
  | limbStack::limbStacks, limb::limbs => (limbStack ++ [limb])::pushLimbs limbStacks limbs
  | limbStacks, _ => limbStacks

def addToStacks (limbStacks : LimbStacks) (offset : ℕ) (a : BigUint) : Gadget LimbStacks := do
  ensure (offset ≤ limbStacks.length) "slice: start past the end"
  ensure (a.limbs.length ≤ (limbStacks.drop offset).length) "limb_stacks.len() >= a.limbs.len()"
  return limbStacks.take offset ++ pushLimbs (limbStacks.drop offset) a.limbs

def reduceCarries : List Word → Gadget Word
  | [] => throw (.panic "at least one carry out")
  | carryOut::carryOuts => .ok (carryOuts.foldl bor carryOut)

/-- The columns of the outer products, the product of the sums, and what the carries of the sums
add to it. -/
def karatsubaStacks (n nHalf : ℕ) (ab0 abInf ab1 a1 b1 : BigUint) (a1CarryOut b1CarryOut : Word) :
    Gadget LimbStacks := do
  let ab1CarryOut := shr (band a1CarryOut b1CarryOut) 63
  let limbStacks ← addToStacks (replicate (2 * n) []) 0 ab0
  let limbStacks ← addToStacks limbStacks n abInf
  let limbStacks ← addToStacks limbStacks nHalf ab1
  let limbStacks ← addToStacks limbStacks n (a1.zeroUnless b1CarryOut)
  let limbStacks ← addToStacks limbStacks n (b1.zeroUnless a1CarryOut)
  addToStacks limbStacks (n + nHalf) ⟨[ab1CarryOut]⟩

def overflowSum (limbStacks : LimbStacks) : Gadget BigUint := do
  let sums ← computeStackAddsWithCarryOuts limbStacks
  let carryOut ← reduceCarries sums.2
  return ⟨sums.1.limbs ++ [shr carryOut 63]⟩

/-- Takes the outer products off the middle; the limb past the product must be zero. -/
def subtractOuter (n nHalf : ℕ) (ab0 abInf sum : BigUint) : Gadget BigUint := do
  let parts ← sum.splitAtLimbs nHalf
  let remainderLen := parts.2.limbs.length
  let rest ← sub parts.2 (ab0.zeroExtend remainderLen)
  let abHiOverflow ← sub rest (abInf.zeroExtend remainderLen)
  let hiParts ← abHiOverflow.splitAtLimbs (2 * n - nHalf)
  ensure (hiParts.2.limbs.length = 1) "overflow_limb.limbs.len() == 1"
  assertZero "karatsuba_mul_overflow_limb" (hiParts.2.limbs.headD 0)
  return parts.1.concatLimbs hiParts.1

/-- The product by halves, to a depth that the number of limbs bounds. -/
def karatsubaMulTo : ℕ → BigUint → BigUint → Gadget BigUint
  | 0, _, _ => throw (.panic "recursion depth")
  | depth + 1, a, b => do
    let n := a.limbs.length
    ensure n.isPowerOfTwo "n.is_power_of_two()"
    ensure (b.limbs.length = n) "b.limbs.len() == n"
    if n = 1 then
      let hiLo := imul (a.limbs.headD 0) (b.limbs.headD 0)
      return ⟨[hiLo.2,hiLo.1]⟩
    else
      let nHalf := n >>> 1
      let aParts ← a.splitAtLimbs nHalf
      let bParts ← b.splitAtLimbs nHalf
      let ab0 ← karatsubaMulTo depth aParts.1 bParts.1
      let abInf ← karatsubaMulTo depth aParts.2 bParts.2
      -- the sums of the halves, and the product of these without their carries
      let a1 ← addWithCarryOut aParts.1 aParts.2
      let b1 ← addWithCarryOut bParts.1 bParts.2
      let ab1 ← karatsubaMulTo depth a1.1 b1.1
      let limbStacks ← karatsubaStacks n nHalf ab0 abInf ab1 a1.1 b1.1 a1.2 b1.2
      let sum ← overflowSum limbStacks
      subtractOuter n nHalf ab0 abInf sum

/-- The product by halves. -/
def karatsubaMul (a b : BigUint) : Gadget BigUint := karatsubaMulTo a.limbs.length a b

/-- The words on all columns. -/
def limbCount (limbStacks : LimbStacks) : ℕ := (limbStacks.map length).sum

theorem pushLimbs_ok {limbs : List Word}
    (h : limbs.length ≤ limbStacks.length) :
    (pushLimbs limbStacks limbs).length = limbStacks.length ∧
    columnsValue (pushLimbs limbStacks limbs) = columnsValue limbStacks + limbValue limbs ∧
    limbCount (pushLimbs limbStacks limbs) = limbCount limbStacks + limbs.length := by
  induction limbStacks generalizing limbs with
  | nil =>
    rw [length_eq_zero_iff.mp (Nat.le_zero.mp h)]
    exact ⟨rfl,rfl,rfl⟩
  | cons limbStack limbStacks ih =>
    cases limbs with
    | nil => exact ⟨rfl,rfl,rfl⟩
    | cons limb limbs =>
      obtain ⟨hlen,hvalue,hcount⟩ := ih (Nat.le_of_succ_le_succ h)
      unfold limbCount at *
      unfold pushLimbs
      refine ⟨congrArg Nat.succ hlen,?_,?_⟩
      · rw [columnsValue_cons,columnsValue_cons,limbValue_cons,hvalue,columnSum_append,
          columnSum_cons,columnSum_nil]
        ring
      · rw [map_cons,map_cons,sum_cons,sum_cons,hcount,length_append,
          length_cons,length_cons,length_nil]
        omega

theorem addToStacks_ok (limbStacks : LimbStacks) (offset : ℕ) (a : BigUint)
    (h : offset + a.limbs.length ≤ limbStacks.length) :
    ∃ pushed, addToStacks limbStacks offset a = .ok pushed ∧
      pushed.length = limbStacks.length ∧
      columnsValue pushed = columnsValue limbStacks + (2 ^ 64) ^ offset * a.value ∧
      limbCount pushed = limbCount limbStacks + a.limbs.length := by
  have hoffset : offset ≤ limbStacks.length := by omega
  have hlow := length_take_of_le hoffset
  have hrest : a.limbs.length ≤ (limbStacks.drop offset).length := by
    rw [length_drop]
    omega
  obtain ⟨hlen,hvalue,hcount⟩ := pushLimbs_ok hrest
  have hsplit := take_append_drop offset limbStacks
  refine ⟨limbStacks.take offset ++ pushLimbs (limbStacks.drop offset) a.limbs,?_,?_,?_,?_⟩
  · unfold addToStacks
    rw [ensure_ok hoffset,ok_bind,ensure_ok hrest]
    rfl
  · rw [length_append,hlen,←length_append,hsplit]
  · have hwhole := columnsValue_append (limbStacks.take offset) (limbStacks.drop offset)
    rw [hsplit,hlow] at hwhole
    rw [columnsValue_append,hlow,hvalue,hwhole,BigUint.value]
    ring
  · unfold limbCount at *
    have hwhole := congrArg (fun l : LimbStacks => (l.map length).sum) hsplit
    rw [map_append,sum_append] at hwhole ⊢
    rw [hcount,←hwhole]
    omega

theorem limbCount_le (h : carryCount limbStacks k = 0) :
    k = 0 ∧ limbCount limbStacks ≤ limbStacks.length := by
  induction limbStacks generalizing k with
  | nil => exact ⟨h,Nat.le_refl 0⟩
  | cons limbStack limbStacks ih =>
    unfold limbCount at *
    rw [map_cons,sum_cons,length_cons]
    have hrest := ih h
    omega

theorem flag_band (x y : Word) : flag (band x y) = flag x * flag y := by
  unfold flag
  rw [isMsbTrue_band]
  cases isMsbTrue x with
  | true => exact (Nat.one_mul _).symm
  | false => exact (Nat.zero_mul _).symm

theorem flag_bor (x y : Word) : flag (bor x y) = min 1 (flag x + flag y) := by
  unfold flag
  rw [isMsbTrue_bor]
  cases isMsbTrue x with
  | true =>
    cases isMsbTrue y with
    | true => rfl
    | false => rfl
  | false =>
    cases isMsbTrue y with
    | true => rfl
    | false => rfl

theorem reduceCarries_ok {carryOuts : List Word} (hne : 0 < carryOuts.length)
    (hone : carryTotal carryOuts ≤ 1) :
    ∃ carryOut, reduceCarries carryOuts = .ok carryOut ∧ flag carryOut = carryTotal carryOuts := by
  have hfold : ∀ (rest : List Word) (w : Word),
      flag (rest.foldl bor w) = min 1 (flag w + carryTotal rest) := by
    intro rest
    induction rest with
    | nil =>
      intro w
      have hw := flag_le w
      rw [foldl_nil,carryTotal_nil]
      omega
    | cons x rest ih =>
      intro w
      rw [foldl_cons,ih,flag_bor,carryTotal_cons]
      omega
  cases carryOuts with
  | nil => cases hne
  | cons carryOut rest =>
    refine ⟨rest.foldl bor carryOut,rfl,?_⟩
    rw [carryTotal_cons] at hone ⊢
    rw [hfold]
    omega

theorem overflowSum_ok (hcount : limbStacks.length < limbCount limbStacks)
    (hvalue : columnsValue limbStacks < 2 * (2 ^ 64) ^ limbStacks.length) :
    ∃ sum, overflowSum limbStacks = .ok sum ∧ sum.limbs.length = limbStacks.length + 1 ∧
      sum.value = columnsValue limbStacks := by
  obtain ⟨low,carryOuts,hrun,hlen,hcarries,htotal⟩ := computeStackAddsWithCarryOuts_value limbStacks
  have hsome : 0 < carryOuts.length := by
    rw [hcarries]
    by_contra hnone
    have hfew := (limbCount_le (Nat.eq_zero_of_not_pos hnone)).2
    omega
  have hone : carryTotal carryOuts ≤ 1 := by
    by_contra hmore
    have hscaled := Nat.mul_le_mul_left ((2 ^ 64) ^ limbStacks.length)
      (show 2 ≤ carryTotal carryOuts by omega)
    omega
  obtain ⟨carryOut,hreduce,hflag⟩ := reduceCarries_ok hsome hone
  refine ⟨⟨low.limbs ++ [shr carryOut 63]⟩,?_,?_,?_⟩
  · unfold overflowSum
    rw [hrun,ok_bind,hreduce]
    rfl
  · rw [length_append,hlen,length_singleton]
  · rw [BigUint.value] at *
    rw [limbValue_append,limbValue_cons,limbValue_nil,toNat_shr_top,hflag,hlen,Nat.mul_zero,
      Nat.add_zero]
    exact htotal

theorem karatsubaStacks_ok {ab0 abInf ab1 a1 b1 : BigUint} (ca cb : Word) (hh : 0 < h)
    (hab0 : ab0.limbs.length = 2 * h) (habInf : abInf.limbs.length = 2 * h)
    (hab1 : ab1.limbs.length = 2 * h) (ha1 : a1.limbs.length = h) (hb1 : b1.limbs.length = h) :
    ∃ limbStacks, karatsubaStacks (2 * h) h ab0 abInf ab1 a1 b1 ca cb = .ok limbStacks ∧
      limbStacks.length = 4 * h ∧ 4 * h < limbCount limbStacks ∧
      columnsValue limbStacks =
        ab0.value + (2 ^ 64) ^ (2 * h) * abInf.value + (2 ^ 64) ^ h * ab1.value +
          (2 ^ 64) ^ (2 * h) * (flag cb * a1.value) + (2 ^ 64) ^ (2 * h) * (flag ca * b1.value) +
          (2 ^ 64) ^ (2 * h + h) * (flag ca * flag cb) := by
  have hstart : (replicate (2 * (2 * h)) ([] : List Word)).length = 4 * h := by
    rw [length_replicate]
    omega
  obtain ⟨s1,hs1,hl1,hv1,hc1⟩ := addToStacks_ok (replicate (2 * (2 * h)) []) 0 ab0 (by omega)
  obtain ⟨s2,hs2,hl2,hv2,hc2⟩ := addToStacks_ok s1 (2 * h) abInf (by omega)
  obtain ⟨s3,hs3,hl3,hv3,hc3⟩ := addToStacks_ok s2 h ab1 (by omega)
  obtain ⟨s4,hs4,hl4,hv4,hc4⟩ := addToStacks_ok s3 (2 * h) (a1.zeroUnless cb)
    (by rw [BigUint.length_zeroUnless]; omega)
  obtain ⟨s5,hs5,hl5,hv5,hc5⟩ := addToStacks_ok s4 (2 * h) (b1.zeroUnless ca)
    (by rw [BigUint.length_zeroUnless]; omega)
  obtain ⟨s6,hs6,hl6,hv6,hc6⟩ := addToStacks_ok s5 (2 * h + h)
    ⟨[shr (band ca cb) 63]⟩ (by rw [length_singleton]; omega)
  have hone : (BigUint.mk [shr (band ca cb) 63]).value = flag ca * flag cb := by
    unfold BigUint.value
    rw [limbValue_cons,limbValue_nil,toNat_shr_top,flag_band,Nat.mul_zero,Nat.add_zero]
  refine ⟨s6,?_,by omega,?_,?_⟩
  · unfold karatsubaStacks
    dsimp only
    rw [hs1,ok_bind,hs2,ok_bind,hs3,ok_bind,hs4,ok_bind,hs5,ok_bind,hs6]
  · rw [BigUint.length_zeroUnless] at hc4 hc5
    rw [length_singleton] at hc6
    omega
  · rw [hv6,hv5,hv4,hv3,hv2,hv1,hone,BigUint.value_zeroUnless,BigUint.value_zeroUnless,
      columnsValue_replicate_nil,pow_zero,Nat.zero_add,Nat.one_mul]

theorem subtractOuter_ok {ab0 abInf sum : BigUint} {product : ℕ}
    (hab0 : ab0.limbs.length = 2 * h) (habInf : abInf.limbs.length = 2 * h)
    (hsum : sum.limbs.length = 4 * h + 1) (hfit : product < (2 ^ 64) ^ (4 * h))
    (hvalue : sum.value = product + (2 ^ 64) ^ h * (ab0.value + abInf.value)) :
    ∃ rest, subtractOuter (2 * h) h ab0 abInf sum = .ok rest ∧ rest.limbs.length = 4 * h ∧
      rest.value = product := by
  have hpow : 0 < (2 ^ 64 : ℕ) ^ h := Nat.pow_pos (Nat.two_pow_pos 64)
  have hcut : h ≤ sum.limbs.length := by omega
  have hhilen : (sum.limbs.drop h).length = 3 * h + 1 := by
    rw [length_drop]
    omega
  obtain ⟨q,hq⟩ : ∃ q, q = product / (2 ^ 64) ^ h := ⟨_,rfl⟩
  have hhi : (BigUint.mk (sum.limbs.drop h)).value = q + (ab0.value + abInf.value) := by
    rw [sum.value_drop hcut,hvalue,Nat.add_mul_div_left _ _ hpow,hq]
  have hlo : (BigUint.mk (sum.limbs.take h)).value = product % (2 ^ 64) ^ h := by
    rw [sum.value_take hcut,hvalue,Nat.add_mul_mod_self_left]
  have hpad0 : (ab0.zeroExtend (3 * h + 1)).limbs.length = 3 * h + 1 := by
    rw [BigUint.zeroExtend,BigUint.length_padLimbsTo]
    omega
  have hpadInf : (abInf.zeroExtend (3 * h + 1)).limbs.length = 3 * h + 1 := by
    rw [BigUint.zeroExtend,BigUint.length_padLimbsTo]
    omega
  have hval0 : (ab0.zeroExtend (3 * h + 1)).value = ab0.value := BigUint.value_padLimbsTo _ _
  have hvalInf : (abInf.zeroExtend (3 * h + 1)).value = abInf.value := BigUint.value_padLimbsTo _ _
  obtain ⟨d1,hd1,hl1,hv1⟩ := sub_ok (a := ⟨sum.limbs.drop h⟩) (b := ab0.zeroExtend (3 * h + 1))
    (hhilen.trans hpad0.symm) (by rw [hval0,hhi]; omega)
  rw [hval0,hhi] at hv1
  obtain ⟨d2,hd2,hl2,hv2⟩ := sub_ok (a := d1) (b := abInf.zeroExtend (3 * h + 1))
    ((hl1.trans hhilen).trans hpadInf.symm) (by rw [hvalInf]; omega)
  rw [hvalInf] at hv2
  have hmiddle : d2.value = q := by omega
  have hd2len : d2.limbs.length = 3 * h + 1 := hl2.trans (hl1.trans hhilen)
  have htop : 2 * (2 * h) - h = 3 * h := by omega
  have hcut2 : 3 * h ≤ d2.limbs.length := by omega
  have hoverlen : (d2.limbs.drop (3 * h)).length = 1 := by
    rw [length_drop]
    omega
  have hlow3 : q < (2 ^ 64) ^ (3 * h) := by
    rw [hq]
    apply Nat.div_lt_of_lt_mul
    rw [←pow_add,show h + 3 * h = 4 * h by omega]
    exact hfit
  have hover : (d2.limbs.drop (3 * h)).headD 0 = 0 := by
    have hzero : (BigUint.mk (d2.limbs.drop (3 * h))).value = 0 := by
      rw [d2.value_drop hcut2,hmiddle,Nat.div_eq_of_lt hlow3]
    obtain ⟨limb,hlimb⟩ := length_eq_one_iff.mp hoverlen
    rw [BigUint.value,hlimb,limbValue_cons,limbValue_nil,Nat.mul_zero,Nat.add_zero] at hzero
    rw [hlimb]
    exact BitVec.eq_of_toNat_eq hzero
  refine ⟨(BigUint.mk (sum.limbs.take h)).concatLimbs ⟨d2.limbs.take (3 * h)⟩,?_,?_,?_⟩
  · unfold subtractOuter
    rw [BigUint.splitAtLimbs_ok sum hcut,ok_bind]
    dsimp only
    rw [hhilen,hd1,ok_bind,hd2,ok_bind,htop,BigUint.splitAtLimbs_ok d2 hcut2,ok_bind]
    dsimp only
    rw [ensure_ok hoverlen,ok_bind,assertZero_eq_ok.mpr hover]
    rfl
  · rw [BigUint.length_concatLimbs,length_take_of_le hcut,length_take_of_le hcut2]
    omega
  · rw [BigUint.value_concatLimbs,length_take_of_le hcut,hlo,d2.value_take hcut2,hmiddle,
      Nat.mod_eq_of_lt hlow3,hq,Nat.mod_add_div]

theorem karatsuba_identity {B a0 aInf b0 bInf a1 b1 ca cb : ℕ} (ha : a1 + B * ca = a0 + aInf)
    (hb : b1 + B * cb = b0 + bInf) :
    a0 * b0 + B ^ 2 * (aInf * bInf) + B * (a1 * b1) + B ^ 2 * (cb * a1) + B ^ 2 * (ca * b1) +
        B ^ 3 * (ca * cb) =
      (a0 + B * aInf) * (b0 + B * bInf) + B * (a0 * b0 + aInf * bInf) := by
  have hsums : (a1 + B * ca) * (b1 + B * cb) = (a0 + aInf) * (b0 + bInf) := by rw [ha,hb]
  calc a0 * b0 + B ^ 2 * (aInf * bInf) + B * (a1 * b1) + B ^ 2 * (cb * a1) + B ^ 2 * (ca * b1) +
        B ^ 3 * (ca * cb)
      = a0 * b0 + B ^ 2 * (aInf * bInf) + B * ((a1 + B * ca) * (b1 + B * cb)) := by ring
    _ = a0 * b0 + B ^ 2 * (aInf * bInf) + B * ((a0 + aInf) * (b0 + bInf)) := by rw [hsums]
    _ = (a0 + B * aInf) * (b0 + B * bInf) + B * (a0 * b0 + aInf * bInf) := by ring

theorem karatsubaCombine_ok (hh : 0 < h) (a0 aInf b0 bInf : BigUint)
    {ab0 abInf ab1 a1 b1 : BigUint} {ca cb : Word} (ha0 : a0.limbs.length = h) (haInf : aInf.limbs.length = h)
    (hb0 : b0.limbs.length = h) (hbInf : bInf.limbs.length = h)
    (hab0 : ab0.limbs.length = 2 * h) (habInf : abInf.limbs.length = 2 * h)
    (hab1 : ab1.limbs.length = 2 * h) (ha1 : a1.limbs.length = h) (hb1 : b1.limbs.length = h)
    (hval0 : ab0.value = a0.value * b0.value) (hvalInf : abInf.value = aInf.value * bInf.value)
    (hval1 : ab1.value = a1.value * b1.value)
    (hvalA : a1.value + (2 ^ 64) ^ h * flag ca = a0.value + aInf.value)
    (hvalB : b1.value + (2 ^ 64) ^ h * flag cb = b0.value + bInf.value) :
    ∃ limbStacks sum product,
      karatsubaStacks (2 * h) h ab0 abInf ab1 a1 b1 ca cb = .ok limbStacks ∧
      overflowSum limbStacks = .ok sum ∧ subtractOuter (2 * h) h ab0 abInf sum = .ok product ∧
      product.limbs.length = 4 * h ∧
      product.value =
        (a0.value + (2 ^ 64) ^ h * aInf.value) * (b0.value + (2 ^ 64) ^ h * bInf.value) := by
  obtain ⟨limbStacks,hstacks,hlen,hcount,hcolumns⟩ :=
    karatsubaStacks_ok ca cb hh hab0 habInf hab1 ha1 hb1
  have hidentity := karatsuba_identity hvalA hvalB
  have htotal : columnsValue limbStacks =
      (a0.value + (2 ^ 64) ^ h * aInf.value) * (b0.value + (2 ^ 64) ^ h * bInf.value) +
        (2 ^ 64) ^ h * (ab0.value + abInf.value) := by
    rw [hcolumns,hval0,hvalInf,hval1,←hidentity]
    ring
  have hfit : (a0.value + (2 ^ 64) ^ h * aInf.value) * (b0.value + (2 ^ 64) ^ h * bInf.value) <
      (2 ^ 64) ^ (4 * h) := by
    have happend := value_mul_lt (a0.concatLimbs aInf) (b0.concatLimbs bInf)
    rw [BigUint.value_concatLimbs,BigUint.value_concatLimbs,BigUint.length_concatLimbs,
      BigUint.length_concatLimbs,ha0,haInf,hb0,hbInf,show h + h + (h + h) = 4 * h by omega] at happend
    exact happend
  have houter : (2 ^ 64) ^ h * (ab0.value + abInf.value) ≤ (2 ^ 64) ^ (4 * h) := by
    have h0 := ab0.value_lt
    have hInf := abInf.value_lt
    have htwo : 2 ≤ (2 ^ 64 : ℕ) ^ h :=
      (show 2 ≤ 2 ^ 64 by decide).trans (Nat.le_self_pow (Nat.ne_of_gt hh) _)
    rw [hab0] at h0
    rw [habInf] at hInf
    calc (2 ^ 64) ^ h * (ab0.value + abInf.value)
        ≤ (2 ^ 64) ^ h * (2 * (2 ^ 64) ^ (2 * h)) := Nat.mul_le_mul_left _ (by omega)
      _ ≤ (2 ^ 64) ^ h * ((2 ^ 64) ^ h * (2 ^ 64) ^ (2 * h)) :=
          Nat.mul_le_mul_left _ (Nat.mul_le_mul_right _ htwo)
      _ = (2 ^ 64) ^ (4 * h) := by
          rw [←pow_add,←pow_add]
          congr 1
          omega
  obtain ⟨sum,hsum,hsumlen,hsumvalue⟩ := overflowSum_ok
    (by rw [hlen]; exact hcount) (by rw [htotal,hlen]; omega)
  obtain ⟨product,hproduct,hproductlen,hproductvalue⟩ := subtractOuter_ok hab0 habInf
    (by rw [hsumlen,hlen]) hfit (hsumvalue.trans htotal)
  exact ⟨limbStacks,sum,product,hstacks,hsum,hproduct,hproductlen,hproductvalue⟩

theorem karatsubaMulTo_ok {t : ℕ} (hdepth : k < t) {a b : BigUint}
    (ha : a.limbs.length = 2 ^ k) (hb : b.limbs.length = 2 ^ k) :
    ∃ product, karatsubaMulTo t a b = .ok product ∧
      product.limbs.length = 2 ^ k + 2 ^ k ∧ product.value = a.value * b.value := by
  induction k generalizing t a b with
  | zero =>
    obtain ⟨d,rfl⟩ : ∃ d, t = d + 1 := ⟨t - 1,by omega⟩
    obtain ⟨x,hx⟩ := length_eq_one_iff.mp ha
    obtain ⟨y,hy⟩ := length_eq_one_iff.mp hb
    refine ⟨⟨[(imul x y).2,(imul x y).1]⟩,?_,rfl,?_⟩
    · have hone : a.limbs.length = 1 := ha
      unfold karatsubaMulTo
      dsimp only
      rw [ensure_ok ⟨0,ha⟩,ok_bind,ensure_ok (hb.trans ha.symm),ok_bind,if_pos hone,hx,hy]
      rfl
    · unfold BigUint.value
      rw [hx,hy,limbValue_cons,limbValue_cons,limbValue_cons,limbValue_cons,limbValue_nil,
        Nat.mul_zero,Nat.add_zero,Nat.add_zero,Nat.add_zero,imul_value]
  | succ k ih =>
    obtain ⟨d,rfl⟩ : ∃ d, t = d + 1 := ⟨t - 1,by omega⟩
    obtain ⟨h,hh⟩ : ∃ h, h = 2 ^ k := ⟨_,rfl⟩
    have hpos : 0 < h := hh ▸ Nat.two_pow_pos k
    have hpower : a.limbs.length.isPowerOfTwo := ⟨k + 1,ha⟩
    have hsame : b.limbs.length = a.limbs.length := hb.trans ha.symm
    rw [pow_succ',←hh] at ha hb
    have hnotOne : ¬a.limbs.length = 1 := by omega
    have hhalf : a.limbs.length >>> 1 = h := by
      rw [ha,Nat.shiftRight_eq_div_pow]
      omega
    have hcutA : h ≤ a.limbs.length := by omega
    have hcutB : h ≤ b.limbs.length := by omega
    have hloA : (a.limbs.take h).length = h := length_take_of_le hcutA
    have hloB : (b.limbs.take h).length = h := length_take_of_le hcutB
    have hhiA : (a.limbs.drop h).length = h := by
      rw [length_drop]
      omega
    have hhiB : (b.limbs.drop h).length = h := by
      rw [length_drop]
      omega
    -- the recursion at the halves and at their sums
    obtain ⟨ab0,hab0,hlen0,hval0⟩ := ih (t := d) (by omega) (a := ⟨a.limbs.take h⟩)
      (b := ⟨b.limbs.take h⟩) (hloA.trans hh) (hloB.trans hh)
    obtain ⟨abInf,habInf,hlenInf,hvalInf⟩ := ih (t := d) (by omega) (a := ⟨a.limbs.drop h⟩)
      (b := ⟨b.limbs.drop h⟩) (hhiA.trans hh) (hhiB.trans hh)
    obtain ⟨a1,ca,ha1,hlenA1,hvalA1⟩ :=
      addWithCarryOut_value (a := ⟨a.limbs.take h⟩) (b := ⟨a.limbs.drop h⟩) (hloA.trans hhiA.symm)
    obtain ⟨b1,cb,hb1,hlenB1,hvalB1⟩ :=
      addWithCarryOut_value (a := ⟨b.limbs.take h⟩) (b := ⟨b.limbs.drop h⟩) (hloB.trans hhiB.symm)
    have hA1 : a1.limbs.length = h := hlenA1.trans hloA
    have hB1 : b1.limbs.length = h := hlenB1.trans hloB
    obtain ⟨ab1,hab1,hlen1,hval1⟩ := ih (t := d) (by omega) (a := a1) (b := b1) (hA1.trans hh)
      (hB1.trans hh)
    rw [hloA] at hvalA1
    rw [hloB] at hvalB1
    obtain ⟨limbStacks,sum,product,hstacks,hsum,hproduct,hproductlen,hproductvalue⟩ :=
      karatsubaCombine_ok hpos ⟨a.limbs.take h⟩ ⟨a.limbs.drop h⟩ ⟨b.limbs.take h⟩
        ⟨b.limbs.drop h⟩ hloA hhiA hloB hhiB (by omega) (by omega) (by omega) hA1 hB1 hval0 hvalInf
        hval1 hvalA1 hvalB1
    refine ⟨product,?_,by rw [hproductlen,pow_succ',←hh]; omega,?_⟩
    · unfold karatsubaMulTo
      dsimp only
      rw [ensure_ok hpower,ok_bind,ensure_ok hsame,ok_bind,if_neg hnotOne,hhalf,
        BigUint.splitAtLimbs_ok a hcutA,ok_bind,BigUint.splitAtLimbs_ok b hcutB,ok_bind,hab0,ok_bind,
        habInf,ok_bind,ha1,ok_bind,hb1,ok_bind,hab1,ok_bind,ha,hstacks,ok_bind,hsum,ok_bind,hproduct]
    · rw [hproductvalue]
      exact congrArg₂ (· * ·) (limbValue_take_drop a.limbs hcutA) (limbValue_take_drop b.limbs hcutB)

theorem karatsubaMul_eq {a b : BigUint} (ha : a.limbs.length = 2 ^ k)
    (hb : b.limbs.length = 2 ^ k) : karatsubaMul a b = textbookMul a b := by
  obtain ⟨fast,hfast,hfastlen,hfastvalue⟩ := karatsubaMulTo_ok (t := a.limbs.length)
    (by rw [ha]; exact Nat.lt_two_pow_self) ha hb
  obtain ⟨product,hmul,hlen,hvalue⟩ := textbookMul_ok a b
  have hsame : fast = product := BigUint.eq_of_value
    (by rw [hfastlen,hlen,ha,hb]) (hfastvalue.trans hvalue.symm)
  unfold karatsubaMul
  rw [hfast,hmul,hsame]

/-- Products agree: the textbook product returns the limbs of the exact product, the square is the product
with itself, the product by halves is the textbook product on equal power-of-two lengths, and multi-operand
addition preserves the value of columns of any heights. -/
theorem products_agree :
    (∀ a b : BigUint, ∃ product, textbookMul a b = .ok product ∧
      product.limbs.length = a.limbs.length + b.limbs.length ∧
      product.value = a.value * b.value) ∧
    (∀ a : BigUint, textbookSquare a = textbookMul a a) ∧
    (∀ a b : BigUint, a.limbs.length = b.limbs.length → a.limbs.length.isPowerOfTwo →
      karatsubaMul a b = textbookMul a b) ∧
    (∀ limbStacks : LimbStacks, ∃ sum carryOuts,
      computeStackAddsWithCarryOuts limbStacks = .ok (sum,carryOuts) ∧
      sum.limbs.length = limbStacks.length ∧
      sum.value + (2 ^ 64) ^ limbStacks.length * carryTotal carryOuts =
        columnsValue limbStacks) := by
  refine ⟨textbookMul_ok,textbookSquare_eq,?_,?_⟩
  · intro a b hsame hpower
    obtain ⟨k,hk⟩ := hpower
    exact karatsubaMul_eq hk (hsame.symm.trans hk)
  · intro limbStacks
    obtain ⟨sum,carryOuts,hrun,hlen,-,hvalue⟩ := computeStackAddsWithCarryOuts_value limbStacks
    exact ⟨sum,carryOuts,hrun,hlen,hvalue⟩

/-- The two products of a two-limb number of set bits only. -/
theorem products_agree_allOnes :
    (BigUint.mk [MachineWord.allOne,MachineWord.allOne]).limbs.length.isPowerOfTwo ∧
    karatsubaMul ⟨[MachineWord.allOne,MachineWord.allOne]⟩
        ⟨[MachineWord.allOne,MachineWord.allOne]⟩ =
      textbookMul ⟨[MachineWord.allOne,MachineWord.allOne]⟩
        ⟨[MachineWord.allOne,MachineWord.allOne]⟩ :=
  ⟨⟨1,rfl⟩,products_agree.2.2.1 _ _ rfl ⟨1,rfl⟩⟩

end Binius64.Bignum
