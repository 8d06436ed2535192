import Binius64.Footprints
import Mathlib.Algebra.Ring.Defs
import Mathlib.Tactic.Ring

/-!
# Butterfly layers

A layer of a butterfly network pairs every cell whose index has a zero at one bit with the cell
where it is one, and multiplies by a factor that the higher bits choose.
-/

namespace Binius64.ButterflyNetwork

open Footprints

variable {F : Type} [CommRing F]

/-- Pairs of cells whose index differs at bit `s`; the bits above it choose the factor, and the two
cells of a pair each get a value of their own. -/
def pairLayer (lower upper : F → F → F → F) (τ : ℕ → F) (s : ℕ) (x : ℕ → F) (i : ℕ) : F :=
  if i / 2 ^ s % 2 = 0 then lower (x i) (x (i + 2 ^ s)) (τ (i / 2 ^ (s + 1)))
  else upper (x (i - 2 ^ s)) (x i) (τ (i / 2 ^ (s + 1)))

/-- One layer: bit `s` of the index tells the two cells of a pair apart, the bits above it choose
the factor. -/
def butterfly (τ : ℕ → F) (s : ℕ) (x : ℕ → F) (i : ℕ) : F :=
  if i / 2 ^ s % 2 = 0 then x i + x (i + 2 ^ s) * τ (i / 2 ^ (s + 1))
  else x i + (x (i - 2 ^ s) + x i * τ (i / 2 ^ (s + 1)))

/-- The cells whose index is a given number from bit `m` on. -/
def block (m b : ℕ) : Set ℕ := {i | i / 2 ^ m = b}

variable (t : ℕ → ℕ → F)

def layers (n first last : ℕ) (x : ℕ → F) : ℕ → F :=
  (List.range' first (last - first)).foldl (fun y l => butterfly (t l) (n - 1 - l) y) x

theorem div_pow_add (i a b : ℕ) : i / 2 ^ (a + b) = i / 2 ^ a / 2 ^ b := by
  rw [pow_add,Nat.div_div_eq_div_mul]

theorem div_pow_succ (i a : ℕ) : i / 2 ^ (a + 1) = i / 2 ^ a / 2 := by
  rw [div_pow_add,pow_one]

theorem div_pow_of_le (i : ℕ) {a b : ℕ} (h : a ≤ b) : i / 2 ^ b = i / 2 ^ a / 2 ^ (b - a) := by
  rw [←div_pow_add,Nat.add_sub_cancel' h]

variable {s : ℕ} {τ : ℕ → F}

theorem add_div_pow {w : ℕ} (h : w ≤ s) (i : ℕ) : (i + 2 ^ s) / 2 ^ w = i / 2 ^ w + 2 ^ (s - w) := by
  have hpow : 2 ^ s = 2 ^ w * 2 ^ (s - w) := by rw [←pow_add,Nat.add_sub_cancel' h]
  rw [hpow,Nat.add_mul_div_left _ _ (Nat.two_pow_pos w)]

theorem pow_le_of_odd {i : ℕ} (h : i / 2 ^ s % 2 = 1) : 2 ^ s ≤ i := by
  by_contra hlt
  rw [Nat.div_eq_of_lt (not_le.mp hlt)] at h
  omega

theorem sub_div_pow {w : ℕ} (h : w ≤ s) {i : ℕ} (hi : 2 ^ s ≤ i) :
    (i - 2 ^ s) / 2 ^ w = i / 2 ^ w - 2 ^ (s - w) := by
  have hadd := add_div_pow h (i - 2 ^ s)
  rw [Nat.sub_add_cancel hi] at hadd
  exact Nat.eq_sub_of_add_eq hadd.symm

theorem half_succ {q : ℕ} (h : q % 2 = 0) : (q + 1) / 2 = q / 2 := by omega

theorem half_pred {q : ℕ} (h : q % 2 = 1) : (q - 1) / 2 = q / 2 := by omega

theorem butterfly_eq_pairLayer (τ : ℕ → F) (s : ℕ) : butterfly τ s =
    pairLayer (fun u v t => u + v * t) (fun u v t => v + (u + v * t)) τ s := rfl

omit [CommRing F] in
theorem pairLayer_closed {lower upper : F → F → F → F} {R : Set ℕ}
    (hup : ∀ i ∈ R, i / 2 ^ s % 2 = 0 → i + 2 ^ s ∈ R)
    (hdown : ∀ i ∈ R, i / 2 ^ s % 2 = 1 → i - 2 ^ s ∈ R) :
    Closed (pairLayer lower upper τ s) R := by
  intro x y hxy i hi
  rw [pairLayer,pairLayer]
  by_cases hbit : i / 2 ^ s % 2 = 0
  · rw [if_pos hbit,if_pos hbit,hxy i hi,hxy _ (hup i hi hbit)]
  · have hodd : i / 2 ^ s % 2 = 1 := by omega
    rw [if_neg hbit,if_neg hbit,hxy i hi,hxy _ (hdown i hi hodd)]

theorem closed_of_partner {R : Set ℕ}
    (hup : ∀ i ∈ R, i / 2 ^ s % 2 = 0 → i + 2 ^ s ∈ R)
    (hdown : ∀ i ∈ R, i / 2 ^ s % 2 = 1 → i - 2 ^ s ∈ R) : Closed (butterfly τ s) R := by
  rw [butterfly_eq_pairLayer]
  exact pairLayer_closed hup hdown

theorem block_partner {m b i : ℕ} (h : s < m) (hi : i ∈ block m b) :
    (i / 2 ^ s % 2 = 0 → i + 2 ^ s ∈ block m b) ∧ (i / 2 ^ s % 2 = 1 → i - 2 ^ s ∈ block m b) := by
  have hm : ∀ i, i / 2 ^ m = i / 2 ^ s / 2 / 2 ^ (m - (s + 1)) := by
    intro i
    rw [←div_pow_succ,←div_pow_of_le i h]
  have hpow : 2 ^ (s - s) = 1 := by rw [Nat.sub_self,pow_zero]
  rw [block,Set.mem_ofPred_eq,hm] at hi
  refine ⟨fun hbit => ?_,fun hbit => ?_⟩
  · have hpart := add_div_pow (le_refl s) i
    rw [hpow] at hpart
    rw [block,Set.mem_ofPred_eq,hm,hpart,half_succ hbit]
    exact hi
  · have hpart := sub_div_pow (le_refl s) (pow_le_of_odd hbit)
    rw [hpow] at hpart
    rw [block,Set.mem_ofPred_eq,hm,hpart,half_pred hbit]
    exact hi

theorem closed_block {m b : ℕ} (h : s < m) : Closed (butterfly τ s) (block m b) :=
  closed_of_partner (fun _ hi => (block_partner h hi).1) fun _ hi => (block_partner h hi).2

theorem block_succ (m b : ℕ) : block (m + 1) b = block m (2 * b) ∪ block m (2 * b + 1) := by
  ext i
  rw [block,block,block,Set.mem_union,Set.mem_ofPred_eq,Set.mem_ofPred_eq,Set.mem_ofPred_eq,
    div_pow_succ]
  omega

theorem block_disjoint {m b c : ℕ} (h : b ≠ c) : Disjoint (block m b) (block m c) := by
  rw [Set.disjoint_left]
  intro i hb hc
  exact h (hb.symm.trans hc)

theorem closed_layers {t : ℕ → ℕ → F} {n first last m b : ℕ} (h : n ≤ m + first) (hl : last ≤ n) :
    Closed (layers t n first last) (block m b) := by
  refine Closed.foldl fun l hmem => closed_block ?_
  rw [List.mem_range'_1] at hmem
  omega

def stripe (m e n h k : ℕ) : Set ℕ := {i | i / 2 ^ m / 2 ^ (e + n) = h ∧ i / 2 ^ m % 2 ^ e = k}

theorem mem_stripe {m e n h k i : ℕ} (hk : k < 2 ^ e) :
    i ∈ stripe m e n h k ↔ ∃ j < 2 ^ n, i ∈ block m ((h * 2 ^ n + j) * 2 ^ e + k) := by
  rw [stripe,Set.mem_ofPred_eq]
  generalize hx : i / 2 ^ m = x
  constructor
  · intro hi
    obtain ⟨hhigh,hlow⟩ := hi
    refine ⟨x / 2 ^ e % 2 ^ n,Nat.mod_lt _ (Nat.two_pow_pos n),?_⟩
    rw [block,Set.mem_ofPred_eq,hx,←hhigh,div_pow_add,Nat.div_add_mod',←hlow,Nat.div_add_mod']
  · intro hi
    obtain ⟨j,hj,hi⟩ := hi
    have hi' : x = (h * 2 ^ n + j) * 2 ^ e + k := hx.symm.trans hi
    refine ⟨?_,?_⟩
    · rw [hi',div_pow_add,mul_comm _ (2 ^ e),Nat.mul_add_div (Nat.two_pow_pos e),Nat.div_eq_of_lt hk,
        add_zero,mul_comm h,Nat.mul_add_div (Nat.two_pow_pos n),Nat.div_eq_of_lt hj,add_zero]
    · rw [hi',mul_comm,Nat.mul_add_mod,Nat.mod_eq_of_lt hk]

theorem closed_stripe {m e n h k : ℕ} (hlow : m + e ≤ s) (hhigh : s < m + e + n) :
    Closed (butterfly τ s) (stripe m e n h k) := by
  have hms : m ≤ s := by omega
  have hpow : 2 ^ (s - m) = 2 ^ e * 2 ^ (s - m - e) := by
    rw [←pow_add]
    congr 1
    omega
  have hblock : ∀ i, i / 2 ^ m / 2 ^ (e + n) = i / 2 ^ s / 2 / 2 ^ (m + (e + n) - (s + 1)) := by
    intro i
    rw [←div_pow_add,←div_pow_succ,←div_pow_of_le i (by omega : s + 1 ≤ m + (e + n))]
  have hone : 2 ^ (s - s) = 1 := by rw [Nat.sub_self,pow_zero]
  refine closed_of_partner (fun i hi hbit => ?_) fun i hi hbit => ?_
  · obtain ⟨hi,hik⟩ := hi
    have hpart := add_div_pow (le_refl s) i
    rw [hone] at hpart
    refine ⟨?_,?_⟩
    · rw [hblock] at hi ⊢
      rw [hpart,half_succ hbit]
      exact hi
    · rw [add_div_pow hms,hpow,Nat.add_mul_mod_self_left]
      exact hik
  · obtain ⟨hi,hik⟩ := hi
    have hle := pow_le_of_odd hbit
    have hpart := sub_div_pow (le_refl s) hle
    rw [hone] at hpart
    refine ⟨?_,?_⟩
    · rw [hblock] at hi ⊢
      rw [hpart,half_pred hbit]
      exact hi
    · have hback := add_div_pow hms (i - 2 ^ s)
      rw [Nat.sub_add_cancel hle,hpow] at hback
      rw [←hik,hback,Nat.add_mul_mod_self_left]

theorem layers_succ {n first last : ℕ} (h : first < last) (x : ℕ → F) :
    layers t n first last x = layers t n (first + 1) last (butterfly (t first) (n - 1 - first) x) := by
  have hlen : last - first = (last - (first + 1)) + 1 := by omega
  rw [layers,hlen,List.range'_succ,List.foldl_cons]
  rfl

theorem layers_concat {n first last : ℕ} (h : first ≤ last) (x : ℕ → F) :
    layers t n first (last + 1) x = butterfly (t last) (n - 1 - last) (layers t n first last x) := by
  have hlen : last + 1 - first = (last - first) + 1 := by omega
  have hend : first + (last - first) = last := by omega
  rw [layers,hlen,List.range'_1_concat,hend,List.foldl_append]
  rfl

theorem layers_empty {n first last : ℕ} (h : last ≤ first) (x : ℕ → F) : layers t n first last x = x := by
  rw [layers,Nat.sub_eq_zero_of_le h]
  rfl

end Binius64.ButterflyNetwork
