import Binius64.ShiftAlgebra

/-!
# Carry chains

What the carry constraints of the adders determine.
-/

namespace Binius64.CarryChain

open MachineWord

theorem majority_iff (a b c s : Word) :
    (a ^^^ s) &&& (b ^^^ s) = c ^^^ s ↔
      ∀ i < 64, c.getLsbD i = Bool.atLeastTwo (a.getLsbD i) (b.getLsbD i) (s.getLsbD i) := by
  have hbit : ∀ p q r t : Bool,
      ((p ^^ t) && (q ^^ t)) = (r ^^ t) ↔ r = Bool.atLeastTwo p q t := by decide
  constructor
  · intro h i _
    have hi := congrArg (fun w : Word => w.getLsbD i) h
    simp only [BitVec.getLsbD_and,BitVec.getLsbD_xor] at hi
    exact (hbit _ _ _ _).mp hi
  · intro h
    apply BitVec.eq_of_getLsbD_eq
    intro i hi
    simp only [BitVec.getLsbD_and,BitVec.getLsbD_xor]
    exact (hbit _ _ _ _).mpr (h i hi)

/-- A sum whose carries in are built from its carries out: the position is a
start, where the carry in is given, or takes the carry out of the one below. -/
structure Adder (a b sum : Word) (carryIn : Word → Word) (carry : ℕ → Bool)
    (start : ℕ → Bool) : Prop where
  start_zero : start 0 = true
  carryIn_bit : ∀ c i, i < 64 →
    (carryIn c).getLsbD i = if start i then carry i else c.getLsbD (i - 1)
  carry_succ : ∀ i, i + 1 < 64 → start (i + 1) = false →
    carry (i + 1) = Bool.atLeastTwo (a.getLsbD i) (b.getLsbD i) (carry i)
  sum_bit : ∀ i < 64, sum.getLsbD i = (a.getLsbD i ^^ (b.getLsbD i ^^ carry i))

namespace Adder

variable {a b sum : Word} {carryIn : Word → Word} {carry : ℕ → Bool} {start : ℕ → Bool}

variable {i : ℕ}

theorem carryOut_bit (h : Adder a b sum carryIn carry start) (hi : i < 64) :
    (carryOut a b sum).getLsbD i =
      Bool.atLeastTwo (a.getLsbD i) (b.getLsbD i) (carry i) := by
  have hbit : ∀ p q r : Bool, (p && q || (p ^^ q) && !(p ^^ (q ^^ r))) = Bool.atLeastTwo p q r := by
    decide
  simp only [carryOut,BitVec.getLsbD_or,BitVec.getLsbD_and,BitVec.getLsbD_xor,BitVec.getLsbD_not,
    hi,decide_true,Bool.true_and,h.sum_bit i hi]
  exact hbit _ _ _

theorem carryIn_eq (h : Adder a b sum carryIn carry start) {c : Word}
    (hc : (a ^^^ carryIn c) &&& (b ^^^ carryIn c) = c ^^^ carryIn c) (hi : i < 64) :
    (carryIn c).getLsbD i = carry i := by
  have hmaj := (majority_iff a b c (carryIn c)).mp hc
  induction i with
  | zero => rw [h.carryIn_bit c 0 hi,h.start_zero,if_pos rfl]
  | succ i ih =>
    rw [h.carryIn_bit c (i + 1) hi]
    cases hs : start (i + 1) with
    | true => rw [if_pos rfl]
    | false =>
      have hprev := ih (by omega)
      rw [if_neg Bool.false_ne_true,Nat.add_sub_cancel,hmaj i (by omega),hprev,
        h.carry_succ i hi hs]

theorem carryIn_carryOut (h : Adder a b sum carryIn carry start) (hi : i < 64) :
    (carryIn (carryOut a b sum)).getLsbD i = carry i := by
  rw [h.carryIn_bit _ i hi]
  cases hs : start i with
  | true => rw [if_pos rfl]
  | false =>
    rw [if_neg Bool.false_ne_true]
    cases i with
    | zero =>
      rw [h.start_zero] at hs
      cases hs
    | succ i =>
      rw [Nat.add_sub_cancel,h.carryOut_bit (by omega),h.carry_succ i hi hs]

theorem iff (h : Adder a b sum carryIn carry start) (c : Word) :
    (a ^^^ carryIn c) &&& (b ^^^ carryIn c) = c ^^^ carryIn c ↔ c = carryOut a b sum := by
  constructor
  · intro hc
    apply BitVec.eq_of_getLsbD_eq
    intro i hi
    rw [(majority_iff a b c (carryIn c)).mp hc i hi,h.carryIn_eq hc hi,h.carryOut_bit hi]
  · rintro rfl
    rw [majority_iff]
    intro i hi
    rw [h.carryOut_bit hi,h.carryIn_carryOut hi]

theorem sum_eq (h : Adder a b sum carryIn carry start) :
    a ^^^ (b ^^^ carryIn (carryOut a b sum)) = sum := by
  apply BitVec.eq_of_getLsbD_eq
  intro i hi
  rw [BitVec.getLsbD_xor,BitVec.getLsbD_xor,h.carryIn_carryOut hi,h.sum_bit i hi]

theorem solves (h : Adder a b sum carryIn carry start) (s c : Word) :
    (a ^^^ carryIn c) &&& (b ^^^ carryIn c) = c ^^^ carryIn c ∧ a ^^^ (b ^^^ carryIn c) = s ↔
      s = sum ∧ c = carryOut a b sum := by
  rw [h.iff]
  constructor
  · rintro ⟨rfl,rfl⟩
    exact ⟨h.sum_eq,rfl⟩
  · rintro ⟨rfl,rfl⟩
    exact ⟨rfl,h.sum_eq⟩

end Adder

variable (w : Word)

theorem msb_toBottom : w >>> 63 = (BitVec.ofBool (w.getLsbD 63)).setWidth 64 := by
  apply BitVec.eq_of_getLsbD_eq
  intro i hi
  rw [BitVec.getLsbD_ushiftRight,BitVec.getLsbD_setWidth]
  cases i with
  | zero => simp
  | succ i =>
    have hhigh : w.getLsbD (63 + (i + 1)) = false := BitVec.getLsbD_of_ge _ _ (by omega)
    have hone : (BitVec.ofBool (w.getLsbD 63)).getLsbD (i + 1) = false :=
      BitVec.getLsbD_of_ge _ _ (by omega)
    rw [hhigh,hone,Bool.and_false]

theorem adder_add (a b : Word) (cin : Bool) :
    Adder a b (a + b + (BitVec.ofBool cin).setWidth 64)
      (fun c => (c <<< 1) ^^^ (BitVec.ofBool cin).setWidth 64)
      (fun i => BitVec.carry i a b cin) (fun i => decide (i = 0)) where
  start_zero := rfl
  carryIn_bit c i hi := by
    rw [BitVec.getLsbD_xor,BitVec.getLsbD_shiftLeft,BitVec.getLsbD_setWidth]
    cases i with
    | zero => simp
    | succ i =>
      have hone : (BitVec.ofBool cin).getLsbD (i + 1) = false :=
        BitVec.getLsbD_of_ge _ _ (by omega)
      simp [hi]
  carry_succ i _ _ := BitVec.carry_succ i a b cin
  sum_bit i hi := BitVec.getLsbD_add_add_bool hi a b cin

theorem iaddCinCout_solves (a b cin s c : Word) :
    (a ^^^ ((c <<< 1) ^^^ (cin >>> 63))) &&& (b ^^^ ((c <<< 1) ^^^ (cin >>> 63))) =
          c ^^^ ((c <<< 1) ^^^ (cin >>> 63)) ∧
        a ^^^ (b ^^^ ((c <<< 1) ^^^ (cin >>> 63))) = s ↔
      s = (iaddCinCout a b (cin >>> 63)).1 ∧ c = (iaddCinCout a b (cin >>> 63)).2 := by
  rw [msb_toBottom]
  exact (adder_add a b (cin.getLsbD 63)).solves s c

theorem iaddCarry_carry (a b c : Word) :
    (a ^^^ (c <<< 1)) &&& (b ^^^ (c <<< 1)) = c ^^^ (c <<< 1) ↔ c = (iaddCinCout a b 0).2 := by
  have h := (adder_add a b false).iff c
  have hz : (BitVec.ofBool false).setWidth 64 = (0 : Word) := rfl
  simp only [hz,BitVec.ofNat_eq_ofNat,BitVec.xor_zero] at h
  exact h

theorem allOne_xor : allOne ^^^ w = ~~~w := BitVec.allOnes_xor

theorem sub_eq_not_add (a b bin : Word) : a - b - bin = ~~~(~~~a + b + bin) := by
  rw [BitVec.not_eq_neg_add,BitVec.not_eq_neg_add]
  grind

theorem isubBinBout_eq (a b bin : Word) :
    isubBinBout a b bin = (~~~(iaddCinCout (~~~a) b bin).1,(iaddCinCout (~~~a) b bin).2) := by
  simp only [isubBinBout,iaddCinCout,Prod.mk.injEq]
  refine ⟨sub_eq_not_add a b bin,?_⟩
  rw [sub_eq_not_add,borrowOut,carryOut,BitVec.not_xor_left]

theorem isubBinBout_solves (a b bin d c : Word) :
    (allOne ^^^ (a ^^^ ((c <<< 1) ^^^ (bin >>> 63)))) &&&
            (b ^^^ ((c <<< 1) ^^^ (bin >>> 63))) = c ^^^ ((c <<< 1) ^^^ (bin >>> 63)) ∧
        a ^^^ (b ^^^ ((c <<< 1) ^^^ (bin >>> 63))) = d ↔
      d = (isubBinBout a b (bin >>> 63)).1 ∧ c = (isubBinBout a b (bin >>> 63)).2 := by
  have h := iaddCinCout_solves (~~~a) b bin (~~~d) c
  have hdiff : ~~~a ^^^ (b ^^^ ((c <<< 1) ^^^ (bin >>> 63))) = ~~~d ↔
      a ^^^ (b ^^^ ((c <<< 1) ^^^ (bin >>> 63))) = d := by
    rw [← BitVec.not_xor_left,BitVec.not_inj]
  rw [hdiff] at h
  rw [← BitVec.xor_assoc,allOne_xor,isubBinBout_eq,h]
  refine and_congr_left fun _ => ⟨fun hd => ?_,fun hd => ?_⟩
  · rw [← hd,BitVec.not_not]
  · rw [hd,BitVec.not_not]

theorem lane_cin (cin : Word) (n : ℕ) :
    ((cin >>> n) &&& 1) = (BitVec.ofBool (cin.getLsbD n)).setWidth 64 := by
  apply BitVec.eq_of_getLsbD_eq
  intro i hi
  cases i with
  | zero => simp
  | succ i =>
    rw [BitVec.getLsbD_and,BitVec.getLsbD_setWidth,BitVec.ofNat_eq_ofNat,BitVec.getLsbD_one]
    simp

theorem lane_sum (x y : BitVec 32) (cin : Bool) :
    (x.setWidth 64 + y.setWidth 64 + (BitVec.ofBool cin).setWidth 64 : Word).setWidth 32 =
      x + y + (BitVec.ofBool cin).setWidth 32 := by
  apply BitVec.eq_of_toNat_eq
  simp only [BitVec.toNat_setWidth,BitVec.toNat_add,BitVec.toNat_ofBool]
  omega

def laneCarry (a b cin : Word) (i : ℕ) : Bool :=
  if i < 32 then BitVec.carry i (loHalf a) (loHalf b) (cin.getLsbD 31)
  else BitVec.carry (i - 32) (hiHalf a) (hiHalf b) (cin.getLsbD 63)

theorem sll32_one_bit (c : Word) {i : ℕ} (hi : i < 64) :
    (sll32 c 1).getLsbD i = if i = 0 ∨ i = 32 then false else c.getLsbD (i - 1) := by
  have h := ShiftAlgebra.apply_bit .sll32 c (show 1 < 32 by omega) hi
  simp only [ShiftAlgebra.ShiftVariant.apply,ShiftAlgebra.ShiftVariant.source,
    ShiftAlgebra.ShiftVariant.maxAmount,ShiftAlgebra.ShiftVariant.isHalfWord,if_true] at h
  rw [h]
  by_cases hs : i = 0 ∨ i = 32
  · have hout : ¬1 ≤ i % 32 := by omega
    rw [if_neg hout,if_pos hs]
    rfl
  · have hout : 1 ≤ i % 32 := by omega
    have hread : i / 32 * 32 + (i % 32 - 1) = i - 1 := by omega
    rw [if_pos hout,if_neg hs,hread]
    rfl

theorem srl32_top_bit (cin : Word) {i : ℕ} (hi : i < 64) :
    (srl32 cin 31).getLsbD i =
      if i = 0 then cin.getLsbD 31 else if i = 32 then cin.getLsbD 63 else false := by
  have h := ShiftAlgebra.apply_bit .srl32 cin (show 31 < 32 by omega) hi
  simp only [ShiftAlgebra.ShiftVariant.apply,ShiftAlgebra.ShiftVariant.source,
    ShiftAlgebra.ShiftVariant.maxAmount,ShiftAlgebra.ShiftVariant.isHalfWord,if_true] at h
  rw [h]
  by_cases h0 : i = 0
  · subst h0
    rfl
  · by_cases h32 : i = 32
    · subst h32
      rfl
    · have hout : ¬i % 32 + 31 < 32 := by omega
      rw [if_neg hout,if_neg h0,if_neg h32]
      rfl

theorem adder_lanes (a b cin : Word) :
    Adder a b (iadd32CinCout a b cin).1 (fun c => sll32 c 1 ^^^ srl32 cin 31)
      (laneCarry a b cin) (fun i => decide (i = 0 ∨ i = 32)) where
  start_zero := rfl
  carryIn_bit c i hi := by
    rw [BitVec.getLsbD_xor,sll32_one_bit c hi,srl32_top_bit cin hi]
    by_cases h0 : i = 0
    · subst h0
      simp [laneCarry]
    · by_cases h32 : i = 32
      · subst h32
        simp [laneCarry]
      · simp [h0,h32]
  carry_succ i hi hs := by
    have hne : i + 1 ≠ 32 := by
      simpa only [decide_eq_false_iff_not,not_or,Nat.add_eq_zero_iff,Nat.one_ne_zero,and_false,
        not_false_iff,true_and] using hs
    rw [laneCarry,laneCarry]
    by_cases hlow : i + 1 < 32
    · have hlow' : i < 32 := by omega
      rw [if_pos hlow,if_pos hlow',BitVec.carry_succ,loHalf_bit,loHalf_bit]
      simp only [hlow',decide_true,Bool.true_and]
    · have hlow' : ¬i < 32 := by omega
      have hsub : i + 1 - 32 = i - 32 + 1 := by omega
      have hhigh : i - 32 < 32 := by omega
      have hback : 32 + (i - 32) = i := by omega
      rw [if_neg hlow,if_neg hlow',hsub,BitVec.carry_succ,hiHalf_bit,hiHalf_bit,hback]
      simp only [hhigh,decide_true,Bool.true_and]
  sum_bit i hi := by
    rw [iadd32CinCout]
    dsimp only
    rw [lane_cin,lane_cin,lane_sum,lane_sum,ofHalves_bit _ _ hi,laneCarry]
    by_cases hlow : i < 32
    · rw [if_pos hlow,if_pos hlow,BitVec.getLsbD_add_add_bool hlow,loHalf_bit,loHalf_bit]
      simp only [hlow,decide_true,Bool.true_and]
    · have hhigh : i - 32 < 32 := by omega
      have hback : 32 + (i - 32) = i := by omega
      rw [if_neg hlow,if_neg hlow,BitVec.getLsbD_add_add_bool hhigh,hiHalf_bit,hiHalf_bit,hback]
      simp only [hhigh,decide_true,Bool.true_and]

theorem iadd32CinCout_solves (a b cin s c : Word) :
    (a ^^^ (sll32 c 1 ^^^ srl32 cin 31)) &&& (b ^^^ (sll32 c 1 ^^^ srl32 cin 31)) =
          c ^^^ (sll32 c 1 ^^^ srl32 cin 31) ∧
        a ^^^ (b ^^^ (sll32 c 1 ^^^ srl32 cin 31)) = s ↔
      s = (iadd32CinCout a b cin).1 ∧ c = (iadd32CinCout a b cin).2 :=
  (adder_lanes a b cin).solves s c

theorem iaddCout32_solves (a b s c : Word) :
    (a ^^^ sll32 c 1) &&& (b ^^^ sll32 c 1) = c ^^^ sll32 c 1 ∧ a ^^^ (b ^^^ sll32 c 1) = s ↔
      s = (iaddCout32 a b).1 ∧ c = (iaddCout32 a b).2 := by
  have h := iadd32CinCout_solves a b 0 s c
  have hz : srl32 0#64 31 = 0#64 := rfl
  simp only [BitVec.ofNat_eq_ofNat,hz,BitVec.xor_zero] at h
  exact h

theorem shiftLeft_xor_msbOne : (w ^^^ msbOne) <<< 1 = w <<< 1 := by
  apply BitVec.eq_of_getLsbD_eq
  intro i hi
  rw [BitVec.getLsbD_shiftLeft,BitVec.getLsbD_shiftLeft,BitVec.getLsbD_xor,
    msbOne_bit (show i - 1 < 64 by omega)]
  have hne : i - 1 ≠ 63 := by omega
  simp only [hne,decide_false,Bool.xor_false]

theorem allOne_carry : (iaddCinCout allOne w 0).2 = carryOut allOne w (w - 1) := by
  have hsum : allOne + w + 0 = w - 1 := by
    have hone : allOne = -1 := rfl
    rw [hone]
    grind
  rw [iaddCinCout]
  dsimp only
  rw [hsum]

theorem allOne_carry_msb : isMsbTrue (iaddCinCout allOne w 0).2 = decide (w ≠ 0) := by
  have hbit : ∀ p q : Bool, (p || (true ^^ p) && !q) = (p || !q) := by decide
  have hones : allOne.getLsbD 63 = true := rfl
  have htop : ∀ v : Word, v.getLsbD 63 = decide (2 ^ 63 ≤ v.toNat) := BitVec.msb_eq_decide
  rw [isMsbTrue_eq,allOne_carry,carryOut,BitVec.getLsbD_or,BitVec.getLsbD_and,BitVec.getLsbD_and,
    BitVec.getLsbD_xor,BitVec.getLsbD_not,hones]
  simp only [show 63 < 64 by omega,decide_true,Bool.true_and]
  rw [hbit,htop,htop]
  have hsub : (w - 1).toNat = (2 ^ 64 - 1 + w.toNat) % 2 ^ 64 := BitVec.toNat_sub w 1
  have hlt := w.isLt
  by_cases hw : w = 0
  · subst hw
    rfl
  · have hne : w.toNat ≠ 0 := fun h => hw (BitVec.eq_of_toNat_eq h)
    have hlow : ¬2 ^ 63 ≤ w.toNat → ¬2 ^ 63 ≤ (w - 1).toNat := by omega
    by_cases hhigh : 2 ^ 63 ≤ w.toNat
    · simp only [hhigh,hw,decide_true,Bool.true_or,ne_eq,not_false_iff]
    · simp only [hhigh,hlow hhigh,hw,decide_false,Bool.false_or,Bool.not_false,ne_eq,
        not_false_iff,decide_true]

theorem allOne_carry_eq_zero : (iaddCinCout allOne w 0).2 = 0 ↔ w = 0 := by
  constructor
  · intro h
    have hmsb := allOne_carry_msb w
    rw [h] at hmsb
    have hfalse : isMsbTrue 0 = false := rfl
    rw [hfalse] at hmsb
    simpa using hmsb
  · rintro rfl
    rfl

theorem sar_msb : sar w 63 = if isMsbTrue w then allOne else 0 := by
  rw [isMsbTrue_eq]
  apply BitVec.eq_of_getLsbD_eq
  intro i hi
  have h := ShiftAlgebra.apply_bit .sar w (show 63 < 64 by omega) hi
  have hread : i / 64 * 64 + min (i % 64 + 63) (64 - 1) = 63 := by omega
  simp only [ShiftAlgebra.ShiftVariant.apply,ShiftAlgebra.ShiftVariant.source,
    ShiftAlgebra.ShiftVariant.maxAmount,ShiftAlgebra.ShiftVariant.isHalfWord,Bool.false_eq_true,
    if_false,hread] at h
  rw [h]
  cases hb : w.getLsbD 63 with
  | true =>
    rw [if_pos rfl,allOne,BitVec.getLsbD_allOnes,decide_eq_true hi]
    exact hb
  | false =>
    rw [if_neg Bool.false_ne_true,BitVec.ofNat_eq_ofNat,BitVec.getLsbD_zero]
    exact hb

theorem sar_eq_zero : sar w 63 = 0 ↔ ¬isMsbTrue w = true := by
  have hones : allOne ≠ 0 := by decide
  rw [sar_msb]
  cases isMsbTrue w with
  | true => simp only [if_true,hones,not_true]
  | false => simp only [Bool.false_eq_true,if_false,not_false_iff]

theorem sar_eq_allOne : sar w 63 = allOne ↔ isMsbTrue w = true := by
  have hones : 0 ≠ allOne := by decide
  rw [sar_msb]
  cases isMsbTrue w with
  | true => simp only [if_true]
  | false => simp only [Bool.false_eq_true,if_false,hones]

theorem and_sar_eq_zero (v w : Word) : v &&& sar w 63 = 0 ↔ (isMsbTrue w = true → v = 0) := by
  rw [sar_msb]
  cases isMsbTrue w with
  | true => simp only [if_true,allOne,BitVec.and_allOnes,forall_const]
  | false =>
    simp only [Bool.false_eq_true,if_false,BitVec.ofNat_eq_ofNat,BitVec.and_zero,false_implies]

end Binius64.CarryChain
