import Mathlib.Data.List.Chain
import Mathlib.Order.Lattice

/-!
# Memories checked by sorting

Rows of an address, a time and a value, sorted by address and then strictly by time.
-/

namespace Binius64.SortedMemory

open List

/-- What a row is read as. -/
structure Columns (R A T V : Type) where
  addr : R → A
  ts : R → T
  val : R → V
  Copies : R → Prop
  Starts : R → Prop

variable {R A T V : Type} [LinearOrder A] [LinearOrder T] (c : Columns R A T V)

/-- Rows in order: by address, then by time. -/
def Before (p q : R) : Prop := c.addr p < c.addr q ∨ c.addr p = c.addr q ∧ c.ts p < c.ts q

theorem Before.trans {p q r : R} (h : Before c p q) (h' : Before c q r) : Before c p r := by
  rcases h with h | ⟨he,ht⟩ <;> rcases h' with h' | ⟨he',ht'⟩
  · exact .inl (h.trans h')
  · exact .inl (he' ▸ h)
  · exact .inl (he ▸ h')
  · exact .inr ⟨he.trans he',ht.trans ht'⟩

instance : Trans (Before c) (Before c) (Before c) := ⟨Before.trans c⟩

theorem Before.irrefl (p : R) : ¬Before c p p := by
  rintro (h | ⟨_,h⟩)
  · exact lt_irrefl _ h
  · exact lt_irrefl _ h

theorem Before.ts_lt {p q : R} (h : Before c p q) (he : c.addr p = c.addr q) : c.ts p < c.ts q := by
  rcases h with h | ⟨_,h⟩
  · exact absurd he h.ne
  · exact h

/-- The checks on two rows next to each other. -/
structure Adjacent (p q : R) : Prop where
  before : Before c p q
  /-- Within an address, a copying row has the value of the one before it. -/
  copied : c.addr p = c.addr q → c.Copies q → c.val p = c.val q
  started : c.addr p ≠ c.addr q → c.Starts q

structure Checked (rows : List R) : Prop where
  head : ∀ r ∈ rows.head?, c.Starts r
  chain : rows.IsChain (Adjacent c)

/-- The latest earlier row of an address among rows in any order. -/
structure Latest (rows : List R) (a : A) (t : T) (p : R) : Prop where
  mem : p ∈ rows
  addr : c.addr p = a
  earlier : c.ts p < t
  latest : ∀ q ∈ rows, c.addr q = a → c.ts q < t → c.ts q ≤ c.ts p

variable {c}

omit [LinearOrder A] in
theorem Latest.perm {rows rows' : List R} {a : A} {t : T} {p : R} (h : Latest c rows a t p)
    (hp : rows.Perm rows') : Latest c rows' a t p where
  mem := hp.mem_iff.mp h.mem
  addr := h.addr
  earlier := h.earlier
  latest q hq := h.latest q (hp.mem_iff.mpr hq)

namespace Checked

variable {rows : List R}

theorem pairwise (h : Checked c rows) : rows.Pairwise (Before c) :=
  isChain_iff_pairwise.mp (h.chain.imp fun _ _ ha => ha.before)

theorem unique (h : Checked c rows) {p q : R} (hp : p ∈ rows) (hq : q ∈ rows)
    (ha : c.addr p = c.addr q) (ht : c.ts p = c.ts q) : p = q := by
  obtain ⟨i,hi,rfl⟩ := getElem_of_mem hp
  obtain ⟨j,hj,rfl⟩ := getElem_of_mem hq
  have hpair := pairwise_iff_getElem.mp h.pairwise
  rcases Nat.lt_trichotomy i j with hlt | heq | hlt
  · exact absurd ht (Before.ts_lt c (hpair i j hi hj hlt) ha).ne
  · subst heq
    rfl
  · exact absurd ht.symm (Before.ts_lt c (hpair j i hj hi hlt) ha.symm).ne

theorem copies (h : Checked c rows) {r : R} (hr : r ∈ rows) (hc : c.Copies r)
    (hs : ¬c.Starts r) : ∃ p, Latest c rows (c.addr r) (c.ts r) p ∧ c.val p = c.val r := by
  obtain ⟨front,back,rfl⟩ := append_of_mem hr
  cases front using reverseRecOn with
  | nil => exact absurd (h.head r rfl) hs
  | append_singleton front p =>
    have hsplit : front ++ [p] ++ r :: back = front ++ p :: r :: back := by
      rw [append_assoc,singleton_append]
    rw [hsplit] at h ⊢
    have hadj : Adjacent c p r := (isChain_append_cons_cons.mp h.chain).2.1
    have haddr : c.addr p = c.addr r := by
      by_contra hne
      exact hs (hadj.started hne)
    have hpair := pairwise_append.mp h.pairwise
    have htail := pairwise_cons.mp hpair.2.1
    have hback := pairwise_cons.mp htail.2
    refine ⟨p,⟨by simp,haddr,Before.ts_lt c hadj.before haddr,fun q hq hqa hqt => ?_⟩,
      hadj.copied haddr hc⟩
    rcases mem_append.mp hq with hq | hq
    · exact (Before.ts_lt c (hpair.2.2 q hq p (mem_cons_self ..)) (hqa.trans haddr.symm)).le
    · rcases mem_cons.mp hq with rfl | hq
      · exact le_rfl
      · rcases mem_cons.mp hq with rfl | hq
        · exact absurd hqt (lt_irrefl _)
        · exact absurd (Before.ts_lt c (hback.1 q hq) hqa.symm) hqt.not_gt

end Checked

end Binius64.SortedMemory
