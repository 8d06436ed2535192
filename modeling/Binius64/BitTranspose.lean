import Binius64.Footprints
import Binius64.NttBlocks

/-!
# Transposing square blocks

A square matrix whose rows are packed elements is transposed in place.
-/

namespace Binius64.BitTranspose

open Ntt Footprints ButterflyNetwork List

variable {w : ℕ} {F : Type} [Zero F]

def interleaveAt (i idx0 idx1 : ℕ) (elems : ℕ → PackedField w F) : ℕ → PackedField w F :=
  let v := (elems idx0).interleave (elems idx1) i
  Function.update (Function.update elems idx0 v.1) idx1 v.2

def transposeRound (logN logW i : ℕ) (elems : ℕ → PackedField w F) : ℕ → PackedField w F :=
  (range (1 <<< (logN - i - 1))).foldl (fun elems j =>
    (range (1 <<< (logW + i))).foldl (fun elems k =>
      let idx0 := (j <<< (logW + i + 1)) ||| k
      let idx1 := idx0 ||| (1 <<< (logW + i))
      interleaveAt i idx0 idx1 elems) elems) elems

def transposeRounds (logN logW : ℕ) (elems : ℕ → PackedField w F) : ℕ → PackedField w F :=
  (range logN).foldl (fun elems i => transposeRound logN logW i elems) elems

def transposeSquareBlocks (logN logSize : ℕ) (elems : ℕ → PackedField w F) :
    Except AssertFailure (ℕ → PackedField w F) := do
  require (logN ≤ w)
  require (logN ≤ logSize)
  let logW := logSize - logN
  return transposeRounds logN logW elems

def exchanged (i : ℕ) (elems : ℕ → PackedField w F) (e : ℕ) : PackedField w F :=
  if e / 2 ^ i % 2 = 0 then ((elems e).interleave (elems (e + 2 ^ i)) i).1
  else ((elems (e - 2 ^ i)).interleave (elems e) i).2

theorem mem_pair {i j k : ℕ} (hk : k < 2 ^ i) (e : ℕ) :
    e ∈ {e | e ∈ {e | e / 2 ^ (i + 1) = j} ∧ e % 2 ^ i = k} ↔
      e = j * 2 ^ (i + 1) + k ∨ e = j * 2 ^ (i + 1) + k + 2 ^ i := by
  have hpow : 2 ^ (i + 1) = 2 ^ i * 2 := pow_succ 2 i
  have hdiv : e / 2 ^ (i + 1) = e / 2 ^ i / 2 := by rw [hpow,Nat.div_div_eq_div_mul]
  have hsplit := Nat.div_add_mod e (2 ^ i)
  rw [Set.mem_ofPred_eq,Set.mem_ofPred_eq,hdiv]
  have hmul : j * 2 ^ (i + 1) = 2 ^ i * (2 * j) := by rw [hpow]; ring
  rw [hmul]
  constructor
  · rintro ⟨hj,hmod⟩
    rcases Nat.mod_two_eq_zero_or_one (e / 2 ^ i) with hbit | hbit
    · have hq : e / 2 ^ i = 2 * j := by omega
      rw [hq,hmod] at hsplit
      exact .inl hsplit.symm
    · have hq : e / 2 ^ i = 2 * j + 1 := by omega
      rw [hq,hmod,mul_add,mul_one] at hsplit
      exact .inr (by omega)
  · have hpos := Nat.two_pow_pos i
    rintro (rfl | rfl)
    · rw [Nat.mul_add_div hpos,Nat.div_eq_of_lt hk,Nat.mul_add_mod,Nat.mod_eq_of_lt hk]
      exact ⟨by omega,rfl⟩
    · rw [add_assoc,Nat.mul_add_div hpos,Nat.add_div_right _ hpos,Nat.div_eq_of_lt hk,Nat.mul_add_mod,
        Nat.add_mod_right,Nat.mod_eq_of_lt hk]
      exact ⟨by omega,rfl⟩

theorem pair_bit {i j k : ℕ} (hk : k < 2 ^ i) : (j * 2 ^ (i + 1) + k) / 2 ^ i % 2 = 0 ∧
    (j * 2 ^ (i + 1) + k + 2 ^ i) / 2 ^ i % 2 = 1 := by
  have hpos := Nat.two_pow_pos i
  have hmul : j * 2 ^ (i + 1) = 2 ^ i * (2 * j) := by
    rw [pow_succ]
    ring
  have hlow : (j * 2 ^ (i + 1) + k) / 2 ^ i = 2 * j := by
    rw [hmul,Nat.mul_add_div hpos,Nat.div_eq_of_lt hk,add_zero]
  rw [Nat.add_div_right _ hpos,hlow]
  omega

theorem interleaveAt_computes {i j k : ℕ} (hk : k < 2 ^ i) :
    Computes (interleaveAt i ((j <<< (0 + i + 1)) ||| k) (((j <<< (0 + i + 1)) ||| k) ||| (1 <<< (0 + i))))
      (exchanged (w := w) (F := F) i) {e | e ∈ {e | e / 2 ^ (i + 1) = j} ∧ e % 2 ^ i = k} := by
  have hlt : k < 2 ^ (i + 1) := hk.trans (Nat.pow_lt_pow_right (by decide) (Nat.lt_succ_self i))
  obtain ⟨heven,hodd⟩ := pair_bit (j := j) hk
  rw [zero_add,shiftLeft_or hlt,or_two_pow heven]
  have hne : j * 2 ^ (i + 1) + k ≠ j * 2 ^ (i + 1) + k + 2 ^ i := by
    have hpos := Nat.two_pow_pos i
    omega
  intro elems e
  rw [mem_pair hk,interleaveAt]
  refine ⟨?_,fun hout => ?_⟩
  · rintro (rfl | rfl)
    · rw [Function.update_of_ne hne,Function.update_self,exchanged,if_pos heven]
    · rw [Function.update_self,exchanged,hodd,if_neg one_ne_zero,Nat.add_sub_cancel]
  · rw [not_or] at hout
    rw [Function.update_of_ne hout.2,Function.update_of_ne hout.1]

theorem exchanged_closed {i j k : ℕ} (hk : k < 2 ^ i) :
    Closed (exchanged (w := w) (F := F) i) {e | e ∈ {e | e / 2 ^ (i + 1) = j} ∧ e % 2 ^ i = k} := by
  intro x y hxy e he
  obtain ⟨heven,hodd⟩ := pair_bit (j := j) hk
  have hlow := hxy _ ((mem_pair hk _).mpr (.inl rfl))
  have hhigh := hxy _ ((mem_pair hk _).mpr (.inr rfl))
  rcases (mem_pair hk e).mp he with rfl | rfl
  · rw [exchanged,exchanged,if_pos heven,if_pos heven,hlow,hhigh]
  · rw [exchanged,exchanged,hodd,if_neg one_ne_zero,if_neg one_ne_zero,Nat.add_sub_cancel,hlow,hhigh]

theorem transposeRound_apply {n i : ℕ} (hi : i < n) (elems : ℕ → PackedField w F) {e : ℕ}
    (he : e < 2 ^ n) : transposeRound n 0 i elems e = exchanged i elems e := by
  have hblock : ∀ j, Computes (fun elems : ℕ → PackedField w F =>
      (range (1 <<< (0 + i))).foldl (fun elems k => interleaveAt i ((j <<< (0 + i + 1)) ||| k)
        (((j <<< (0 + i + 1)) ||| k) ||| (1 <<< (0 + i))) elems) elems) (exchanged i)
      {e | e / 2 ^ (i + 1) = j} := by
    intro j
    have hrange : ∀ k ∈ range (1 <<< (0 + i)), k < 2 ^ i := fun k hk => by
      rw [zero_add,Nat.shiftLeft_eq,one_mul] at hk
      exact mem_range.mp hk
    refine Computes.foldl_key _ (· % 2 ^ i) nodup_range
      (fun k hk => interleaveAt_computes (hrange k hk)) (fun k hk => exchanged_closed (hrange k hk))
      fun e _ => ?_
    rw [zero_add,Nat.shiftLeft_eq,one_mul]
    exact mem_range.mpr (Nat.mod_lt _ (Nat.two_pow_pos i))
  have hclosed : ∀ j, Closed (exchanged (w := w) (F := F) i) {e | e / 2 ^ (i + 1) = j} := by
    intro j x y hxy e he
    exact exchanged_closed (Nat.mod_lt e (Nat.two_pow_pos i)) x y (fun e he => hxy e he.1) e ⟨he,rfl⟩
  have hlast : ∀ j < 2 ^ (n - i - 1), {e | e ∈ {e | e < 2 ^ n} ∧ e / 2 ^ (i + 1) = j} =
      {e | e / 2 ^ (i + 1) = j} := by
    intro j hj
    ext e
    refine ⟨fun h => h.2,fun h => ⟨?_,h⟩⟩
    have hpow : 2 ^ n = 2 ^ (n - i - 1) * 2 ^ (i + 1) := by
      rw [←pow_add]
      congr 1
      omega
    have hdiv : e / 2 ^ (i + 1) < 2 ^ (n - i - 1) := lt_of_eq_of_lt h hj
    rw [Set.mem_ofPred_eq,hpow]
    exact (Nat.div_lt_iff_lt_mul (Nat.two_pow_pos _)).mp hdiv
  have hmem : ∀ j ∈ range (1 <<< (n - i - 1)), j < 2 ^ (n - i - 1) := fun j hj => by
    rw [Nat.shiftLeft_eq,one_mul] at hj
    exact mem_range.mp hj
  have hround : Computes (transposeRound n 0 i) (exchanged (w := w) (F := F) i) {e | e < 2 ^ n} := by
    refine Computes.foldl_key _ (· / 2 ^ (i + 1)) nodup_range (fun j hj => ?_) (fun j hj => ?_)
      fun e he => ?_
    · rw [hlast j (hmem j hj)]
      exact hblock j
    · rw [hlast j (hmem j hj)]
      exact hclosed j
    · rw [Nat.shiftLeft_eq,one_mul]
      refine mem_range.mpr ((Nat.div_lt_iff_lt_mul (Nat.two_pow_pos _)).mpr ?_)
      rw [←pow_add]
      exact lt_of_lt_of_eq he (by congr 1; omega)
  exact (hround elems e).1 he

/-- The high bits of one index with the low bits of another. -/
def mixed (i e l : ℕ) : ℕ := e / 2 ^ i * 2 ^ i + l % 2 ^ i

theorem mixed_succ (i e l : ℕ) : mixed (i + 1) e l =
    (2 * (e / 2 ^ i / 2) + l / 2 ^ i % 2) * 2 ^ i + l % 2 ^ i := by
  rw [mixed,Nat.mod_pow_succ,pow_succ,←Nat.div_div_eq_div_mul]
  ring

theorem mixed_succ_same {i e l : ℕ} (h : e / 2 ^ i % 2 = l / 2 ^ i % 2) :
    mixed (i + 1) e l = mixed i e l := by
  have hq : 2 * (e / 2 ^ i / 2) + l / 2 ^ i % 2 = e / 2 ^ i := by omega
  rw [mixed_succ,hq,mixed]

theorem mixed_succ_up {i e l : ℕ} (he : e / 2 ^ i % 2 = 0) (hl : l / 2 ^ i % 2 = 1) :
    mixed (i + 1) e l = mixed i (e + 2 ^ i) l := by
  have hq : 2 * (e / 2 ^ i / 2) + l / 2 ^ i % 2 = e / 2 ^ i + 1 := by omega
  rw [mixed_succ,hq,mixed,Nat.add_div_right _ (Nat.two_pow_pos i)]

theorem mixed_succ_down {i e l : ℕ} (he : e / 2 ^ i % 2 = 1) (hl : l / 2 ^ i % 2 = 0) :
    mixed (i + 1) e l = mixed i (e - 2 ^ i) l := by
  have hq : 2 * (e / 2 ^ i / 2) + l / 2 ^ i % 2 = e / 2 ^ i - 1 := by omega
  rw [mixed_succ,hq,mixed,Nat.sub_eq_iff_eq_add (pow_le_of_odd he) |>.mp rfl,
    Nat.add_div_right _ (Nat.two_pow_pos i),Nat.add_sub_cancel,Nat.add_sub_cancel]

theorem mixed_add (i e l : ℕ) : mixed i e (l + 2 ^ i) = mixed i e l := by
  rw [mixed,Nat.add_mod_right,mixed]

theorem mixed_sub {i e l : ℕ} (h : 2 ^ i ≤ l) : mixed i e (l - 2 ^ i) = mixed i e l := by
  conv_rhs => rw [←Nat.sub_add_cancel h,mixed_add]

theorem transposeRound_foldl {n i : ℕ} (hi : i ≤ n) (hw : n ≤ w) (elems : ℕ → PackedField w F) {e : ℕ}
    (he : e < 2 ^ n) (l : Fin (2 ^ w)) :
    (range i).foldl (fun elems i => transposeRound n 0 i elems) elems e l =
      (elems (mixed i e l)).get (mixed i l e) := by
  induction i generalizing e l with
  | zero =>
    have hget : ∀ a b, mixed 0 a b = a := fun a b => by
      rw [mixed,pow_zero,Nat.div_one,mul_one,Nat.mod_one,add_zero]
    rw [hget,hget,PackedField.get,dif_pos l.isLt]
    rfl
  | succ i ih =>
    have hin : i < n := hi
    rw [range_succ,foldl_append,foldl_cons,foldl_nil,
      transposeRound_apply hin _ he,exchanged]
    rcases Nat.mod_two_eq_zero_or_one (e / 2 ^ i) with hbit | hbit
    · rw [if_pos hbit]
      simp only [PackedField.interleave]
      rcases Nat.mod_two_eq_zero_or_one (l.val / 2 ^ i) with hlane | hlane
      · rw [if_pos hlane,ih hin.le he,mixed_succ_same (hbit.trans hlane.symm),
          mixed_succ_same (hlane.trans hbit.symm)]
      · have hup := lane_add_lt hin he hbit
        have hlow := pow_le_of_odd hlane
        have hlt : l.val - 2 ^ i < 2 ^ w := (Nat.sub_le _ _).trans_lt l.isLt
        rw [if_neg (by rw [hlane]; exact one_ne_zero),PackedField.get,dif_pos hlt,ih hin.le hup,
          mixed_succ_up hbit hlane,mixed_succ_down hlane hbit,mixed_sub hlow,mixed_add]
    · rw [if_neg (by rw [hbit]; exact one_ne_zero)]
      simp only [PackedField.interleave]
      have hle := pow_le_of_odd hbit
      rcases Nat.mod_two_eq_zero_or_one (l.val / 2 ^ i) with hlane | hlane
      · have hlt := lane_add_lt (hin.trans_le hw) l.isLt hlane
        rw [if_pos hlane,PackedField.get,dif_pos hlt,ih hin.le ((Nat.sub_le _ _).trans_lt he),
          mixed_succ_down hbit hlane,mixed_succ_up hlane hbit,mixed_sub hle,mixed_add]
      · rw [if_neg (by rw [hlane]; exact one_ne_zero),ih hin.le he,
          mixed_succ_same (hbit.trans hlane.symm),mixed_succ_same (hlane.trans hbit.symm)]

theorem transposeRounds_apply {n : ℕ} (hw : n ≤ w) (elems : ℕ → PackedField w F) {e : ℕ} (he : e < 2 ^ n)
    (l : Fin (2 ^ w)) :
    transposeRounds n 0 elems e l = (elems (l % 2 ^ n)).get (l / 2 ^ n * 2 ^ n + e) := by
  have hrounds := transposeRound_foldl le_rfl hw elems he l
  rw [mixed,mixed,Nat.div_eq_of_lt he,zero_mul,zero_add,Nat.mod_eq_of_lt he] at hrounds
  exact hrounds

theorem transposeSquareBlocks_run {n : ℕ} (hw : n ≤ w) (elems : ℕ → PackedField w F) :
    transposeSquareBlocks n n elems = .ok (transposeRounds n 0 elems) := by
  rw [transposeSquareBlocks,require_true hw,require_true le_rfl,Nat.sub_self]
  rfl

end Binius64.BitTranspose
