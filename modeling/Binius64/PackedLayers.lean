import Binius64.NeighborsLast

/-!
# Layers on packed elements

What a butterfly between two packed elements, and one inside a pair of them, does
to the scalars: the layer of the network whose bit tells the two sides apart.
-/

namespace Binius64.Ntt

open Footprints ButterflyNetwork

variable {F : Type} [Field F] {τ : ℕ → F} {s w : ℕ}

def Slice.cells (w : ℕ) (slice : Slice) : Set ℕ :=
  {i | slice.start ≤ i / 2 ^ w ∧ i / 2 ^ w < slice.start + slice.len}

variable {i p j : ℕ}

theorem mul_add_lane (h : i / 2 ^ w = p) : p * 2 ^ w + i % 2 ^ w = i := by
  rw [←h]
  exact Nat.div_add_mod' i (2 ^ w)

theorem add_mul_lane (hw : w ≤ s) (h : i / 2 ^ w = p) :
    (p + 2 ^ (s - w)) * 2 ^ w + i % 2 ^ w = i + 2 ^ s := by
  have hpow : 2 ^ (s - w) * 2 ^ w = 2 ^ s := by rw [←pow_add,Nat.sub_add_cancel hw]
  have hlane := mul_add_lane h
  rw [add_mul,hpow]
  omega

theorem packed_div (hw : w ≤ s) (h : i / 2 ^ w = p) :
    i / 2 ^ s = p / 2 ^ (s - w) ∧ i / 2 ^ (s + 1) = p / 2 ^ (s - w + 1) := by
  have hsucc : s + 1 - w = s - w + 1 := by omega
  refine ⟨?_,?_⟩
  · rw [div_pow_of_le i hw,h]
  · rw [div_pow_of_le i (hw.trans (Nat.le_succ s)),h,hsucc]

theorem div_add_pow_odd {a : ℕ} (h : p / 2 ^ a % 2 = 0) : (p + 2 ^ a) / 2 ^ a % 2 = 1 := by
  rw [Nat.add_div_right p (Nat.two_pow_pos a)]
  omega

theorem add_pow_div {a : ℕ} (h : p / 2 ^ a % 2 = 0) :
    (p + 2 ^ a) / 2 ^ (a + 1) = p / 2 ^ (a + 1) := by
  rw [div_pow_succ,div_pow_succ,Nat.add_div_right p (Nat.two_pow_pos a)]
  omega

theorem closed_pair (hw : w ≤ s) (hbit : p / 2 ^ (s - w) % 2 = 0) :
    Closed (butterfly τ s) (block w p ∪ block w (p + 2 ^ (s - w))) := by
  refine closed_of_partner (fun i hi hlow => ?_) fun i hi hhigh => ?_
  · rcases hi with hp | hq
    · right
      rw [block,Set.mem_ofPred_eq,add_div_pow hw,hp]
    · have hodd := div_add_pow_odd hbit
      rw [(packed_div hw hq).1] at hlow
      omega
  · rcases hi with hp | hq
    · rw [(packed_div hw hp).1] at hhigh
      omega
    · left
      rw [block,Set.mem_ofPred_eq,sub_div_pow hw (pow_le_of_odd hhigh),hq,Nat.add_sub_cancel]

omit [Field F] in
theorem store_apply {v : PackedField w F} {data : Memory F} (i : ℕ) :
    store w p v data i = if i / 2 ^ w = p then v ⟨i % 2 ^ w,Nat.mod_lt _ (Nat.two_pow_pos w)⟩
      else data i := rfl

theorem butterflyAt_computes (hw : w ≤ s) (hbit : p / 2 ^ (s - w) % 2 = 0) :
    Computes (butterflyAt w (.broadcast (τ (p / 2 ^ (s - w + 1)))) p (p + 2 ^ (s - w)))
      (butterfly τ s) (block w p ∪ block w (p + 2 ^ (s - w))) := by
  have hne : p ≠ p + 2 ^ (s - w) := by
    have hpos := Nat.two_pow_pos (s - w)
    omega
  intro data i
  refine ⟨fun hi => ?_,fun hi => ?_⟩
  · rw [butterflyAt,store_apply,store_apply]
    rcases hi with hp | hq
    · obtain ⟨hdiv,hfactor⟩ := packed_div hw hp
      have hp' : i / 2 ^ w = p := hp
      rw [hp',if_neg hne,if_pos rfl,butterfly,hdiv,if_pos hbit,hfactor]
      simp only [Pi.add_apply,Pi.mul_apply,load,PackedField.broadcast,mul_add_lane hp',
        add_mul_lane hw hp']
    · obtain ⟨hdiv,hfactor⟩ := packed_div hw hq
      have hq' : i / 2 ^ w = p + 2 ^ (s - w) := hq
      have hodd := div_add_pow_odd hbit
      have hle : 2 ^ s ≤ i := by
        refine pow_le_of_odd ?_
        rw [hdiv]
        exact hodd
      have hlow : p * 2 ^ w + i % 2 ^ w = i - 2 ^ s := by
        have hlane := mul_add_lane hq'
        have hpow : 2 ^ (s - w) * 2 ^ w = 2 ^ s := by rw [←pow_add,Nat.sub_add_cancel hw]
        rw [add_mul,hpow] at hlane
        omega
      rw [hq',if_pos rfl,butterfly,hdiv,hodd,if_neg one_ne_zero,hfactor,add_pow_div hbit]
      simp only [Pi.add_apply,Pi.mul_apply,load,PackedField.broadcast,mul_add_lane hq',hlow]
  · have hp : i / 2 ^ w ≠ p := fun h => hi (Or.inl h)
    have hq : i / 2 ^ w ≠ p + 2 ^ (s - w) := fun h => hi (Or.inr h)
    rw [butterflyAt,store_apply,if_neg hq,store_apply,if_neg hp]

theorem addAt_computes (hw : w ≤ s) (hbit : p / 2 ^ (s - w) % 2 = 0)
    (hzero : τ (p / 2 ^ (s - w + 1)) = 0) :
    Computes (addAt w p (p + 2 ^ (s - w))) (butterfly τ s)
      (block w p ∪ block w (p + 2 ^ (s - w))) := by
  have hsame : (addAt w p (p + 2 ^ (s - w)) : Memory F → Memory F) =
      butterflyAt w (.broadcast (τ (p / 2 ^ (s - w + 1)))) p (p + 2 ^ (s - w)) := by
    funext data i
    have hload : load w data p + load w data (p + 2 ^ (s - w)) * .broadcast (0 : F) =
        load w data p := by
      funext j
      simp only [Pi.add_apply,Pi.mul_apply,PackedField.broadcast,mul_zero,add_zero]
    rw [addAt,butterflyAt,hzero,hload,store_apply,store_apply]
    split
    · rfl
    · rw [store_apply]
      split
      · rename_i hp
        rw [load]
        simp only
        rw [mul_add_lane hp]
      · rfl
  rw [hsame]
  exact butterflyAt_computes hw hbit

/-- The block of a lane, those of the second element after those of the first. -/
def laneBlock (w s j : ℕ) : ℕ := if j / 2 ^ s % 2 = 0 then j / 2 ^ (s + 1)
  else 2 ^ (w - s - 1) + j / 2 ^ (s + 1)

theorem get_load {data : Memory F} (h : j < 2 ^ w) :
    (load w data p).get j = data (p * 2 ^ w + j) := by
  rw [PackedField.get,dif_pos h]
  rfl

theorem lane_add_lt (hs : s < w) (hj : j < 2 ^ w) (hbit : j / 2 ^ s % 2 = 0) :
    j + 2 ^ s < 2 ^ w := by
  have hpow : 2 ^ w = 2 ^ (w - s - 1) * 2 * 2 ^ s := by
    rw [mul_assoc,←pow_succ',←pow_add]
    congr 1
    omega
  have hlt : j / 2 ^ s < 2 ^ (w - s - 1) * 2 := by
    rw [Nat.div_lt_iff_lt_mul (Nat.two_pow_pos s),←hpow]
    exact hj
  have hnext : j / 2 ^ s + 1 < 2 ^ (w - s - 1) * 2 := by omega
  have hsucc : (j + 2 ^ s) / 2 ^ s = j / 2 ^ s + 1 := Nat.add_div_right j (Nat.two_pow_pos s)
  rw [←hsucc,Nat.div_lt_iff_lt_mul (Nat.two_pow_pos s),←hpow] at hnext
  exact hnext

theorem mul_pow_add_div (h : s ≤ w) (p j : ℕ) :
    (p * 2 ^ w + j) / 2 ^ s = p * 2 ^ (w - s) + j / 2 ^ s := by
  have hpow : p * 2 ^ w = 2 ^ s * (p * 2 ^ (w - s)) := by
    rw [mul_left_comm,←pow_add,Nat.add_sub_cancel' h]
  rw [hpow,Nat.mul_add_div (Nat.two_pow_pos s)]

theorem lane_div (hs : s < w) (p j : ℕ) :
    (p * 2 ^ w + j) / 2 ^ s % 2 = j / 2 ^ s % 2 ∧
      (p * 2 ^ w + j) / 2 ^ (s + 1) = p * 2 ^ (w - s - 1) + j / 2 ^ (s + 1) := by
  have hhalf : p * 2 ^ (w - s) = 2 * (p * 2 ^ (w - s - 1)) := by
    rw [mul_left_comm,←pow_succ',Nat.sub_add_cancel (Nat.sub_pos_of_lt hs)]
  refine ⟨?_,mul_pow_add_div hs p j⟩
  rw [mul_pow_add_div hs.le,hhalf]
  exact Nat.mul_add_mod _ _ _

theorem lane_add_div (hbit : j / 2 ^ s % 2 = 0) :
    (j + 2 ^ s) / 2 ^ s % 2 = 1 ∧ (j + 2 ^ s) / 2 ^ (s + 1) = j / 2 ^ (s + 1) :=
  ⟨div_add_pow_odd hbit,add_pow_div hbit⟩

theorem lane_sub_div (hbit : j / 2 ^ s % 2 = 1) :
    (j - 2 ^ s) / 2 ^ s % 2 = 0 ∧ (j - 2 ^ s) / 2 ^ (s + 1) = j / 2 ^ (s + 1) := by
  have hle := pow_le_of_odd hbit
  have hone : (j - 2 ^ s) / 2 ^ s = j / 2 ^ s - 1 := by
    have hsub := sub_div_pow (le_refl s) hle
    rw [Nat.sub_self,pow_zero] at hsub
    exact hsub
  refine ⟨?_,?_⟩
  · rw [hone]
    generalize j / 2 ^ s = q at hbit
    omega
  · rw [div_pow_succ,div_pow_succ,hone,half_pred hbit]

/-- The lower cell of the pair that interleaving puts in a lane. -/
def lowCell (w s k j : ℕ) : ℕ :=
  if j / 2 ^ s % 2 = 0 then 2 * k * 2 ^ w + j else (2 * k + 1) * 2 ^ w + (j - 2 ^ s)

theorem lowCell_div (hs : s < w) (k j : ℕ) : lowCell w s k j / 2 ^ s % 2 = 0 ∧
    lowCell w s k j / 2 ^ (s + 1) = k * 2 ^ (w - s) + laneBlock w s j := by
  have hhalf : k * 2 ^ (w - s) = 2 * k * 2 ^ (w - s - 1) := by
    rw [mul_comm 2 k,mul_assoc,←pow_succ',Nat.sub_add_cancel (Nat.sub_pos_of_lt hs)]
  rw [lowCell,laneBlock]
  by_cases hbit : j / 2 ^ s % 2 = 0
  · obtain ⟨hlow,hfactor⟩ := lane_div hs (2 * k) j
    rw [if_pos hbit,if_pos hbit,hlow,hfactor,hhalf]
    exact ⟨hbit,rfl⟩
  · have hodd : j / 2 ^ s % 2 = 1 := by
      generalize j / 2 ^ s = q at hbit
      omega
    obtain ⟨hlow,hfactor⟩ := lane_div hs (2 * k + 1) (j - 2 ^ s)
    obtain ⟨hsub,hsame⟩ := lane_sub_div hodd
    rw [if_neg hbit,if_neg hbit,hlow,hfactor,hsame,hhalf,add_mul,one_mul,add_assoc]
    exact ⟨hsub,rfl⟩

theorem interleave_load (hs : s < w) (k : ℕ) (data : Memory F) (j : Fin (2 ^ w)) :
    ((load w data (2 * k)).interleave (load w data (2 * k + 1)) s).1 j = data (lowCell w s k j.val) ∧
      ((load w data (2 * k)).interleave (load w data (2 * k + 1)) s).2 j =
        data (lowCell w s k j.val + 2 ^ s) := by
  simp only [PackedField.interleave]
  rw [lowCell]
  by_cases hbit : j.val / 2 ^ s % 2 = 0
  · rw [if_pos hbit,if_pos hbit,if_pos hbit,get_load (lane_add_lt hs j.isLt hbit),add_assoc]
    exact ⟨rfl,rfl⟩
  · have hodd : j.val / 2 ^ s % 2 = 1 := by
      generalize j.val / 2 ^ s = q at hbit
      omega
    have hle := pow_le_of_odd hodd
    have hback : (2 * k + 1) * 2 ^ w + (j.val - 2 ^ s) + 2 ^ s = (2 * k + 1) * 2 ^ w + j.val := by
      omega
    rw [if_neg hbit,if_neg hbit,if_neg hbit,get_load (lt_of_le_of_lt (Nat.sub_le _ _) j.isLt),hback]
    exact ⟨rfl,rfl⟩

theorem butterfly_low {x : ℕ → F} (hbit : i / 2 ^ s % 2 = 0) :
    butterfly τ s x i = x i + x (i + 2 ^ s) * τ (i / 2 ^ (s + 1)) := if_pos hbit

theorem butterfly_high {x : ℕ → F} (hbit : i / 2 ^ s % 2 = 0) :
    butterfly τ s x (i + 2 ^ s) = x (i + 2 ^ s) + butterfly τ s x i := by
  obtain ⟨hodd,hfactor⟩ := lane_add_div hbit
  rw [butterfly_low hbit,butterfly,hodd,if_neg one_ne_zero,Nat.add_sub_cancel,hfactor]

theorem butterflyWithin_computes (hs : s < w) {k : ℕ} {twiddle : PackedField w F}
    (htw : ∀ j, twiddle j = τ (k * 2 ^ (w - s) + laneBlock w s j.val)) :
    Computes (butterflyWithin w s twiddle (2 * k) (2 * k + 1)) (butterfly τ s) (block (w + 1) k) := by
  intro data i
  -- the two interleaved elements after the butterfly hold the layer at the cells of each lane
  let u : PackedField w F := fun j => butterfly τ s data (lowCell w s k j.val)
  let v : PackedField w F := fun j => butterfly τ s data (lowCell w s k j.val + 2 ^ s)
  have hu : ((load w data (2 * k)).interleave (load w data (2 * k + 1)) s).1 +
      ((load w data (2 * k)).interleave (load w data (2 * k + 1)) s).2 * twiddle = u := by
    funext j
    obtain ⟨hlow,hhigh⟩ := interleave_load hs k data j
    obtain ⟨hbit,hfactor⟩ := lowCell_div hs k j.val
    rw [Pi.add_apply,Pi.mul_apply,hlow,hhigh,htw,←hfactor]
    exact (butterfly_low hbit).symm
  have hv : ((load w data (2 * k)).interleave (load w data (2 * k + 1)) s).2 + u = v := by
    funext j
    obtain ⟨-,hhigh⟩ := interleave_load hs k data j
    rw [Pi.add_apply,hhigh]
    exact (butterfly_high (lowCell_div hs k j.val).1).symm
  have hall : butterflyWithin w s twiddle (2 * k) (2 * k + 1) data =
      store w (2 * k + 1) (u.interleave v s).2 (store w (2 * k) (u.interleave v s).1 data) := by
    rw [butterflyWithin]
    simp only
    rw [hu,hv]
  rw [hall,store_apply,store_apply]
  refine ⟨fun hi => ?_,fun hi => ?_⟩
  · have hhalves : i / 2 ^ w / 2 = k := by
      rw [←div_pow_succ]
      exact hi
    have hlane : i % 2 ^ w < 2 ^ w := Nat.mod_lt _ (Nat.two_pow_pos w)
    by_cases hupper : i / 2 ^ w = 2 * k + 1
    · have hcell := mul_add_lane hupper
      rw [if_pos hupper]
      simp only [PackedField.interleave]
      by_cases hbit : i % 2 ^ w / 2 ^ s % 2 = 0
      · have hlt := lane_add_lt hs hlane hbit
        have hlow : lowCell w s k (i % 2 ^ w + 2 ^ s) = i := by
          rw [lowCell,(lane_add_div hbit).1,if_neg one_ne_zero,Nat.add_sub_cancel,hcell]
        rw [if_pos hbit,PackedField.get,dif_pos hlt]
        exact congrArg (butterfly τ s data) hlow
      · have hodd : i % 2 ^ w / 2 ^ s % 2 = 1 := by
          generalize i % 2 ^ w / 2 ^ s = q at hbit
          omega
        have hle := pow_le_of_odd hodd
        have hhigh : lowCell w s k (i % 2 ^ w) + 2 ^ s = i := by
          rw [lowCell,if_neg hbit]
          omega
        rw [if_neg hbit]
        exact congrArg (butterfly τ s data) hhigh
    · have hlower : i / 2 ^ w = 2 * k := by omega
      have hcell := mul_add_lane hlower
      rw [if_neg hupper,if_pos hlower]
      simp only [PackedField.interleave]
      by_cases hbit : i % 2 ^ w / 2 ^ s % 2 = 0
      · have hlow : lowCell w s k (i % 2 ^ w) = i := by
          rw [lowCell,if_pos hbit,hcell]
        rw [if_pos hbit]
        exact congrArg (butterfly τ s data) hlow
      · have hodd : i % 2 ^ w / 2 ^ s % 2 = 1 := by
          generalize i % 2 ^ w / 2 ^ s = q at hbit
          omega
        have hle := pow_le_of_odd hodd
        have hhigh : lowCell w s k (i % 2 ^ w - 2 ^ s) + 2 ^ s = i := by
          rw [lowCell,if_pos (lane_sub_div hodd).1]
          omega
        rw [if_neg hbit,PackedField.get,dif_pos (lt_of_le_of_lt (Nat.sub_le _ _) hlane)]
        exact congrArg (butterfly τ s data) hhigh
  · have hhalves : i / 2 ^ w / 2 ≠ k := by
      rw [←div_pow_succ]
      exact hi
    have hup : i / 2 ^ w ≠ 2 * k + 1 := by
      generalize i / 2 ^ w = q at hhalves
      omega
    have hdown : i / 2 ^ w ≠ 2 * k := by
      generalize i / 2 ^ w = q at hhalves
      omega
    rw [if_neg hup,if_neg hdown]

end Binius64.Ntt
