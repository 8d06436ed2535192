import Mathlib.Data.Set.Function
import Mathlib.Tactic.Linarith

/-!
# Consecutive range claims

Items of a list claim runs of consecutive numbers from counters selected by a key, each run starting
where the counter stands.
-/

namespace Binius64.RangeClaims

open List

variable {α κ : Type} [DecidableEq κ] (key : α → κ) (first count : α → ℕ)

def claimed (k : κ) : List α → ℕ
  | [] => 0
  | a :: as => (if key a = k then count a else 0) + claimed k as

/-- Each item starts where its counter stands, the counters starting at a base. -/
def ConsecutiveFrom (base : κ → ℕ) : List α → Prop
  | [] => True
  | a :: as => first a = base (key a) ∧
      ConsecutiveFrom (fun k => base k + if key a = k then count a else 0) as

theorem claimed_append (k : κ) (as bs : List α) :
    claimed key count k (as ++ bs) = claimed key count k as + claimed key count k bs := by
  induction as with
  | nil => rw [nil_append,claimed,Nat.zero_add]
  | cons a as ih => rw [cons_append,claimed,claimed,ih,Nat.add_assoc]

variable {base : κ → ℕ}

theorem consecutiveFrom_append (as bs : List α) :
    ConsecutiveFrom key first count base (as ++ bs) ↔
      ConsecutiveFrom key first count base as ∧
        ConsecutiveFrom key first count (fun k => base k + claimed key count k as) bs := by
  induction as generalizing base with
  | nil => simp only [nil_append,ConsecutiveFrom,claimed,Nat.add_zero,true_and]
  | cons a as ih =>
    simp only [cons_append,ConsecutiveFrom,ih,claimed,and_assoc,Nat.add_assoc]

variable {key first count}

variable {as : List α}

theorem base_le_first
    (h : ConsecutiveFrom key first count base as) {a : α} (ha : a ∈ as) :
    base (key a) ≤ first a := by
  induction as generalizing base with
  | nil => cases ha
  | cons b bs ih =>
    rcases mem_cons.mp ha with rfl | hb
    · exact h.1.ge
    · exact (Nat.le_add_right _ _).trans (ih h.2 hb)

theorem first_add_count_le
    (h : ConsecutiveFrom key first count base as) {a : α} (ha : a ∈ as) :
    first a + count a ≤ base (key a) + claimed key count (key a) as := by
  induction as generalizing base with
  | nil => cases ha
  | cons b bs ih =>
    rw [claimed]
    rcases mem_cons.mp ha with rfl | hb
    · rw [h.1,if_pos rfl]
      omega
    · have := ih h.2 hb
      omega

theorem pairwise_disjoint
    (h : ConsecutiveFrom key first count base as) :
    as.Pairwise fun a b => key a = key b → first a + count a ≤ first b := by
  induction as generalizing base with
  | nil => exact List.Pairwise.nil
  | cons a as ih =>
    refine List.Pairwise.cons (fun b hb hk => ?_) (ih h.2)
    have hlow := base_le_first h.2 hb
    simp only [hk,if_true] at hlow
    rw [h.1,hk]
    exact hlow

theorem eq_of_common
    (h : ConsecutiveFrom key first count base as) {a b : α} (ha : a ∈ as) (hb : b ∈ as)
    (hk : key a = key b) {n : ℕ} (hna : first a ≤ n ∧ n < first a + count a)
    (hnb : first b ≤ n ∧ n < first b + count b) : a = b := by
  have hp := pairwise_disjoint h
  induction as generalizing base with
  | nil => cases ha
  | cons c cs ih =>
    rw [pairwise_cons] at hp
    rcases mem_cons.mp ha with rfl | ha'
    · rcases mem_cons.mp hb with rfl | hb'
      · rfl
      · have := hp.1 b hb' hk
        omega
    · rcases mem_cons.mp hb with rfl | hb'
      · have := hp.1 a ha' hk.symm
        omega
      · exact ih h.2 ha' hb' hp.2

theorem exists_claim
    (h : ConsecutiveFrom key first count base as) {k : κ} {n : ℕ} (hlow : base k ≤ n)
    (hhigh : n < base k + claimed key count k as) :
    ∃ a ∈ as, key a = k ∧ first a ≤ n ∧ n < first a + count a := by
  induction as generalizing base with
  | nil =>
    rw [claimed] at hhigh
    omega
  | cons a as ih =>
    rw [claimed] at hhigh
    by_cases hk : key a = k
    · rw [if_pos hk] at hhigh
      by_cases hn : n < base k + count a
      · exact ⟨a,mem_cons_self,hk,by rw [h.1,hk]; exact hlow,by rw [h.1,hk]; exact hn⟩
      · obtain ⟨b,hb,hc⟩ := ih h.2 (by simp only [hk,if_true]; omega)
          (by simp only [hk,if_true]; omega)
        exact ⟨b,mem_cons_of_mem _ hb,hc⟩
    · rw [if_neg hk] at hhigh
      obtain ⟨b,hb,hc⟩ := ih h.2 (by simp only [hk,if_false]; omega)
        (by simp only [hk,if_false]; omega)
      exact ⟨b,mem_cons_of_mem _ hb,hc⟩

def places (key : α → κ) (count : α → ℕ) (k : κ) (as : List α) : Set (α × ℕ) :=
  {p | p.1 ∈ as ∧ key p.1 = k ∧ p.2 < count p.1}

theorem bijOn_places (h : ConsecutiveFrom key first count (fun _ => 0) as) (k : κ) :
    Set.BijOn (fun p : α × ℕ => first p.1 + p.2) (places key count k as)
      (Set.Iio (claimed key count k as)) := by
  refine ⟨?_,?_,?_⟩
  · rintro ⟨a,i⟩ ⟨ha,rfl,hi⟩
    have hle := first_add_count_le h ha
    simp only [Set.mem_Iio] at hi hle ⊢
    omega
  · rintro ⟨a,i⟩ ⟨ha,hka,hi⟩ ⟨b,j⟩ ⟨hb,hkb,hj⟩ he
    simp only at hka hi hkb hj he
    have hab : a = b := eq_of_common h ha hb (hka.trans hkb.symm) (n := first a + i)
      ⟨by omega,by omega⟩ ⟨by omega,by omega⟩
    subst hab
    rw [Nat.add_left_cancel he]
  · intro n hn
    obtain ⟨a,ha,hk,hlow,hhigh⟩ := exists_claim h (Nat.zero_le n)
      (by simpa only [Nat.zero_add,Set.mem_Iio] using hn)
    exact ⟨(a,n - first a),⟨ha,hk,by dsimp only; omega⟩,by dsimp only; omega⟩

end Binius64.RangeClaims
