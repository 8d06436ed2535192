import Binius64.WireConstraints

/-!
# Summaries of shift paths

The commit-set decision remembers a path of shifts as at most two runs, each the set of variants
seen and the distance accumulated.
-/

namespace Binius64.ShiftSummary

open ShiftAlgebra WireConstraints
open Option (getD_none getD_some map_none map_some)

/-- The largest number of slots any caller asks for. -/
def maxShiftSlots : ℕ := 2

def overBudget : ℕ := maxShiftSlots + 1

def bitOf (variant : ShiftVariant) : ℕ := 1 <<< variant.toU8

/-- One run of shifts on a path that collapse into a single slot. -/
structure Run where
  variants : ℕ
  /-- Total distance covered by the farthest path of the run, saturating at a byte. -/
  totalAmount : ℕ
deriving DecidableEq

namespace Run

def default : Run := ⟨0,0⟩

def of (shift : Shift) : Run := ⟨bitOf shift.variant,shift.amount⟩

def absorb (run : Run) (shift : Shift) : Option Run :=
  if run.variants ≠ bitOf shift.variant then none
  else
    let totalAmount := min (run.totalAmount + shift.amount) 255
    if !shift.variant.isCyclic && decide (shift.variant.maxAmount ≤ totalAmount) then none
    else some ⟨run.variants,totalAmount⟩

def union (first second : Run) : Run :=
  ⟨first.variants ||| second.variants,max first.totalAmount second.totalAmount⟩

/-- The run has seen the shift's variant and covers its distance. -/
def Admits (run : Run) (shift : Shift) : Prop :=
  run.variants.testBit shift.variant.toU8 = true ∧ shift.amount ≤ run.totalAmount

end Run

/-- The shifts on a path, grouped into the slots a term needs to spell them, outermost first. -/
structure Summary where
  slot0 : Run
  slot1 : Run
  len : ℕ
deriving DecidableEq

namespace Summary

def default : Summary := ⟨.default,.default,0⟩

def absorbInnermost (s : Summary) (shift : Shift) : Option Summary :=
  match s.len with
  | 1 => (s.slot0.absorb shift).map fun run => {s with slot0 := run}
  | 2 => (s.slot1.absorb shift).map fun run => {s with slot1 := run}
  | _ => none

/-- Give a shift a slot of its own; past the recorded runs only the count matters. -/
def openSlot (s : Summary) (shift : Shift) : Summary :=
  match s.len with
  | 0 => {s with slot0 := .of shift, len := 1}
  | 1 => {s with slot1 := .of shift, len := 2}
  | n => {s with len := min (n + 1) overBudget}

/-- The summary of the path extended by one more shift, applied inside everything on it. -/
def withShift (s : Summary) (shift : Shift) : Summary :=
  if shift.isIdentity then s
  else (s.absorbInnermost shift).getD (s.openSlot shift)

def of (shift : Shift) : Summary := default.withShift shift

def union (first second : Summary) : Summary :=
  ⟨first.slot0.union second.slot0,first.slot1.union second.slot1,max first.len second.len⟩

def unionAll (summaries : List Summary) : Summary :=
  summaries.foldl union default

def composable (s : Summary) (shift : Shift) (slots : ℕ) : Bool :=
  (s.withShift shift).len ≤ slots

end Summary

theorem testBit_bitOf (v w : ShiftVariant) :
    (bitOf v).testBit w.toU8 = true ↔ v = w := by
  cases v <;> cases w <;> decide

namespace Run

theorem of_admits (shift : Shift) : (of shift).Admits shift :=
  ⟨(testBit_bitOf _ _).mpr rfl,Nat.le_refl _⟩

variable {shift : Shift}

theorem amount_lt (h : shift.InRange) : shift.amount < 64 := by
  have hw : shift.variant.maxAmount ≤ 64 := by cases shift.variant <;> decide
  exact Nat.lt_of_lt_of_le h hw

theorem absorb_eq_some {run run' : Run} :
    run.absorb shift = some run' ↔
      run.variants = bitOf shift.variant ∧
      run' = ⟨run.variants,min (run.totalAmount + shift.amount) 255⟩ ∧
      (shift.variant.isCyclic = true ∨
        min (run.totalAmount + shift.amount) 255 < shift.variant.maxAmount) := by
  unfold absorb
  by_cases hv : run.variants = bitOf shift.variant
  · rw [if_neg (not_not.mpr hv)]
    by_cases hc : shift.variant.isCyclic = true
    · simp only [hv,hc,Bool.not_true,Bool.false_and,Bool.false_eq_true,if_false,
        Option.some.injEq,true_or,and_true,true_and]
      exact eq_comm
    · have hcf : shift.variant.isCyclic = false := Bool.not_eq_true _ |>.mp hc
      simp only [hv,hcf,Bool.not_false,Bool.true_and,decide_eq_true_eq,
        Option.ite_none_left_eq_some,Option.some.injEq,Bool.false_eq_true,false_or,true_and,
        not_le]
      exact ⟨fun h => ⟨h.2.symm,h.1⟩,fun h => ⟨h.2,h.1.symm⟩⟩
  · simp only [hv,ne_eq,not_false_eq_true,if_true,reduceCtorEq,false_and]

theorem absorb_admits {run run' : Run} (hs : shift.InRange)
    (h : run.absorb shift = some run') : run'.Admits shift := by
  obtain ⟨hv,rfl,_⟩ := absorb_eq_some.mp h
  have hlt := amount_lt hs
  refine ⟨(testBit_bitOf _ _).mpr rfl |> fun ht => hv ▸ ht,?_⟩
  dsimp only
  omega

theorem absorb_compose {run run' : Run} {inner : Shift} (hs : shift.InRange)
    (hi : inner.InRange) (h : run.absorb shift = some run')
    (ha : inner.isIdentity = true ∨ run.Admits inner) :
    ∃ merged, compose shift inner = .single merged ∧
      (merged.isIdentity = true ∨ run'.Admits merged) := by
  by_cases hsi : shift.isIdentity = true
  · refine ⟨inner,by rw [compose,if_pos hsi],?_⟩
    rcases ha with hid | had
    · exact .inl hid
    · obtain ⟨_,rfl,_⟩ := absorb_eq_some.mp h
      have hlt := amount_lt hi
      refine .inr ⟨had.1,?_⟩
      have := had.2
      dsimp only
      omega
  by_cases hii : inner.isIdentity = true
  · exact ⟨shift,by rw [compose,if_neg hsi,if_pos hii],.inr (absorb_admits hs h)⟩
  have had := ha.resolve_left hii
  obtain ⟨hv,hrun,hfit⟩ := absorb_eq_some.mp h
  -- The run holds one variant, so the two shifts share it and their distances add up.
  have hvar : shift.variant = inner.variant := (testBit_bitOf _ _).mp (hv ▸ had.1)
  have hbit : run'.variants.testBit inner.variant.toU8 = true := hrun ▸ had.1
  have htotal : run'.totalAmount = min (run.totalAmount + shift.amount) 255 := by rw [hrun]
  have hamount := had.2
  have hsl := amount_lt hs
  have hil := amount_lt hi
  obtain ⟨v,n⟩ := shift
  obtain ⟨w,m⟩ := inner
  dsimp only at hvar hbit hfit hamount htotal hsl hil
  subst hvar
  have hchain : compose ⟨v,n⟩ ⟨v,m⟩ = chainedComposition v (n + m) := by
    rw [compose,if_neg hsi,if_neg hii]
    cases v <;> simp only [degenerate,chained,if_true]
  rw [hchain]
  have hle : ∀ d, d ≤ n + m → d < 64 → (⟨v,d⟩ : Shift).isIdentity = true ∨ run'.Admits ⟨v,d⟩ := by
    intro d hd hlt
    refine .inr ⟨hbit,?_⟩
    dsimp only
    omega
  cases v with
  | sll | slr =>
    have hlt : n + m < 64 := by
      simp only [ShiftVariant.isCyclic,ShiftVariant.maxAmount,ShiftVariant.isHalfWord,
        Bool.false_eq_true,if_false,false_or] at hfit
      omega
    refine ⟨⟨_,n + m⟩,?_,hle _ (Nat.le_refl _) hlt⟩
    simp only [chainedComposition,ShiftVariant.maxAmount,ShiftVariant.isHalfWord,
      Bool.false_eq_true,if_false,hlt,if_true]
  | sll32 | srl32 =>
    have hlt : n + m < 32 := by
      simp only [ShiftVariant.isCyclic,ShiftVariant.maxAmount,ShiftVariant.isHalfWord,
        Bool.false_eq_true,if_true,false_or] at hfit
      omega
    refine ⟨⟨_,n + m⟩,?_,hle _ (Nat.le_refl _) (by omega)⟩
    simp only [chainedComposition,ShiftVariant.maxAmount,ShiftVariant.isHalfWord,
      if_true,hlt]
  | sar | sra32 =>
    refine ⟨⟨_,min (n + m) _⟩,rfl,hle _ (Nat.min_le_left _ _) ?_⟩
    simp only [ShiftVariant.maxAmount,ShiftVariant.isHalfWord,Bool.false_eq_true,if_false,if_true]
    omega
  | rotr | rotr32 =>
    simp only [chainedComposition,ShiftVariant.maxAmount,ShiftVariant.isHalfWord,
      Bool.false_eq_true,if_false,if_true]
    split
    · exact ⟨_,rfl,.inl rfl⟩
    · exact ⟨_,rfl,hle _ (Nat.mod_le _ _) (by omega)⟩

/-- One run covers at least what another does. -/
structure Le (first second : Run) : Prop where
  variants : ∀ k, first.variants.testBit k = true → second.variants.testBit k = true
  total : first.totalAmount ≤ second.totalAmount

theorem Le.refl (run : Run) : Le run run := ⟨fun _ h => h,Nat.le_refl _⟩

theorem Le.trans {a b c : Run} (hab : Le a b) (hbc : Le b c) : Le a c :=
  ⟨fun k h => hbc.variants k (hab.variants k h),hab.total.trans hbc.total⟩

theorem le_union_left (first second : Run) : Le first (first.union second) :=
  ⟨fun k h => by rw [union,Nat.testBit_or,h,Bool.true_or],Nat.le_max_left _ _⟩

theorem le_union_right (first second : Run) : Le second (first.union second) :=
  ⟨fun k h => by rw [union,Nat.testBit_or,h,Bool.or_true],Nat.le_max_right _ _⟩

theorem Admits.mono {first second : Run} (ha : first.Admits shift)
    (h : Le first second) : second.Admits shift :=
  ⟨h.variants _ ha.1,ha.2.trans h.total⟩

end Run

namespace Summary

/-- Every sequence inlining can arrive at along the path, as far as the two
slots tell: with no slot in use nothing is shifted, with one the inner slot
holds at most what the outermost run admits, with two a genuine pair's inner
shift lies in the run inside. -/
def Covers (s : Summary) (seq : ShiftSeq) : Prop :=
  match s.len with
  | 0 => seq.inner.isIdentity = true ∧ seq.outer.isIdentity = true
  | 1 => seq.outer.isIdentity = true ∧ (seq.inner.isIdentity = true ∨ s.slot0.Admits seq.inner)
  | 2 => seq.outer.isIdentity = true ∨ s.slot1.Admits seq.inner
  | _ => True

/-- One summary covers at least what another does. -/
structure Le (first second : Summary) : Prop where
  slot0 : first.slot0.Le second.slot0
  slot1 : first.slot1.Le second.slot1
  len : first.len ≤ second.len

theorem Le.refl (s : Summary) : Le s s := ⟨.refl _,.refl _,Nat.le_refl _⟩

theorem Le.trans {a b c : Summary} (hab : Le a b) (hbc : Le b c) : Le a c :=
  ⟨hab.slot0.trans hbc.slot0,hab.slot1.trans hbc.slot1,hab.len.trans hbc.len⟩

variable {seq : ShiftSeq} {s : Summary} {shift : Shift}

theorem Covers.mono {first second : Summary} (hc : first.Covers seq)
    (h : Le first second) : second.Covers seq := by
  have hlen := h.len
  unfold Covers at hc ⊢
  split
  · rename_i h2
    have h1 : first.len = 0 := by omega
    simpa only [h1] using hc
  · rename_i h2
    have h1 : first.len = 0 ∨ first.len = 1 := by omega
    rcases h1 with h1 | h1
    · simp only [h1] at hc
      exact ⟨hc.2,.inl hc.1⟩
    · simp only [h1] at hc
      exact ⟨hc.1,hc.2.imp_right fun ha => ha.mono h.slot0⟩
  · rename_i h2
    have h1 : first.len = 0 ∨ first.len = 1 ∨ first.len = 2 := by omega
    rcases h1 with h1 | h1 | h1
    · simp only [h1] at hc
      exact .inl hc.2
    · simp only [h1] at hc
      exact .inl hc.1
    · simp only [h1] at hc
      exact hc.imp_right fun ha => ha.mono h.slot1
  · trivial

theorem le_unionAll {summaries : List Summary} (h : s ∈ summaries) :
    Le s (unionAll summaries) := by
  have hacc : ∀ (rest : List Summary) (acc : Summary), Le acc (rest.foldl union acc) := by
    intro rest
    induction rest with
    | nil => exact fun acc => .refl acc
    | cons t rest ih =>
      intro acc
      have hstep : Le acc (acc.union t) :=
        ⟨Run.le_union_left _ _,Run.le_union_left _ _,Nat.le_max_left _ _⟩
      exact hstep.trans (ih (acc.union t))
  have hmem : ∀ (rest : List Summary) (acc : Summary), s ∈ rest → Le s (rest.foldl union acc) := by
    intro rest
    induction rest with
    | nil => exact fun _ hs => absurd hs List.not_mem_nil
    | cons t rest ih =>
      intro acc hs
      rcases List.mem_cons.mp hs with rfl | hs
      · have hstep : Le s (acc.union s) :=
          ⟨Run.le_union_right _ _,Run.le_union_right _ _,Nat.le_max_right _ _⟩
        exact hstep.trans (hacc rest (acc.union s))
      · exact ih (acc.union t) hs
  exact hmem summaries default h

theorem withShift_covers (s : Summary) {outer : Shift} (hs : shift.InRange)
    (ho : outer.isIdentity = true) : (s.withShift shift).Covers ⟨shift,outer⟩ := by
  unfold withShift
  by_cases hid : shift.isIdentity = true
  · rw [if_pos hid]
    unfold Covers
    split
    · exact ⟨hid,ho⟩
    · exact ⟨ho,.inl hid⟩
    · exact .inl ho
    · trivial
  · rw [if_neg hid]
    obtain ⟨slot0,slot1,len⟩ := s
    match len with
    | 0 => exact ⟨ho,.inr (Run.of_admits shift)⟩
    | 1 =>
      cases ha : slot0.absorb shift with
      | none =>
        simp only [absorbInnermost,ha,map_none,getD_none,openSlot]
        exact .inl ho
      | some run =>
        simp only [absorbInnermost,ha,map_some,getD_some]
        exact ⟨ho,.inr (Run.absorb_admits hs ha)⟩
    | 2 =>
      cases ha : slot1.absorb shift with
      | none =>
        simp only [absorbInnermost,ha,map_none,getD_none,openSlot]
        trivial
      | some run =>
        simp only [absorbInnermost,ha,map_some,getD_some]
        exact .inl ho
    | n + 3 =>
      have hlen : min (n + 3 + 1) overBudget = 3 := by
        rw [overBudget,maxShiftSlots]
        omega
      simp only [absorbInnermost,getD_none,openSlot,hlen]
      trivial

/-- A fold stays within a summary: it is covered, it vanishes, or the summary
itself is past two slots. -/
def CoversFold (s : Summary) : PushInner → Prop
  | .seq out => s.Covers out
  | .zero => True
  | .overBudget => maxShiftSlots < s.len

theorem pushOutward_lone (merged : Shift) {outer : Shift} (ho : outer.isIdentity = true) :
    ∃ out, pushOutward merged outer = .seq out ∧ out.outer.isIdentity = true ∧
      (out.inner.isIdentity = true ∨ out.inner = merged) := by
  have hlone : ∀ c : Shift, (lone c).outer.isIdentity = true := by
    intro c
    unfold lone
    split <;> rfl
  by_cases hm : merged.isIdentity = true
  · refine ⟨lone outer,?_,hlone outer,.inl ?_⟩
    · rw [pushOutward,compose,if_pos hm]
    · rw [lone,if_pos ho]
      rfl
  · refine ⟨lone merged,?_,hlone merged,.inr ?_⟩
    · rw [pushOutward,compose,if_neg hm,if_pos ho]
    · rw [lone,if_neg hm]

theorem pushOutward_cases (merged outer : Shift) :
    (∃ out, pushOutward merged outer = .seq out ∧ out.outer.isIdentity = true) ∨
      pushOutward merged outer = .zero ∨
      (pushOutward merged outer = .seq ⟨merged,outer⟩ ∧ merged.isIdentity = false) := by
  unfold pushOutward
  cases hc : compose merged outer with
  | single collapsed =>
    refine .inl ⟨lone collapsed,rfl,?_⟩
    unfold lone
    split <;> rfl
  | zero => exact .inr (.inl rfl)
  | pair => exact .inr (.inr ⟨rfl,(compose_pair hc).1⟩)

theorem covers_push_identity
    (hid : shift.isIdentity = true) (hc : s.Covers seq) :
    s.CoversFold (pushInner seq shift maxShiftSlots) := by
  have hpush : pushInner seq shift maxShiftSlots = pushOutward seq.inner seq.outer := by
    rw [pushInner,compose,if_pos hid]
  rw [hpush]
  unfold Covers at hc
  split at hc
  · rename_i hlen
    obtain ⟨out,hout,hoo,hoi⟩ := pushOutward_lone seq.inner hc.2
    have hin : out.inner.isIdentity = true := hoi.elim id fun heq => heq ▸ hc.1
    rw [hout]
    simp only [CoversFold,Covers,hlen]
    exact ⟨hin,hoo⟩
  · rename_i hlen
    obtain ⟨out,hout,hoo,hoi⟩ := pushOutward_lone seq.inner hc.1
    rw [hout]
    simp only [CoversFold,Covers,hlen]
    refine ⟨hoo,?_⟩
    rcases hoi with hoi | heq
    · exact .inl hoi
    · exact heq ▸ hc.2
  · rename_i hlen
    rcases pushOutward_cases seq.inner seq.outer with ⟨out,hout,hoo⟩ | hz | ⟨hp,_⟩
    · rw [hout]
      simp only [CoversFold,Covers,hlen]
      exact .inl hoo
    · rw [hz]
      trivial
    · rw [hp]
      simp only [CoversFold,Covers,hlen]
      exact hc
  · rename_i h0 h1 h2
    cases hr : pushOutward seq.inner seq.outer with
    | seq out =>
      simp only [CoversFold,Covers]
    | zero => trivial
    | overBudget =>
      rcases pushOutward_cases seq.inner seq.outer with ⟨_,h,_⟩ | h | ⟨h,_⟩ <;>
        rw [hr] at h <;> cases h

theorem covers_push_lone
    (hlen : s.len = 1) (ho : seq.outer.isIdentity = true)
    (hm : ∃ merged, compose shift seq.inner = .single merged ∧
      (merged.isIdentity = true ∨ s.slot0.Admits merged)) :
    s.CoversFold (pushInner seq shift maxShiftSlots) := by
  obtain ⟨merged,hc,ha⟩ := hm
  obtain ⟨out,hout,hoo,hoi⟩ := pushOutward_lone merged ho
  have hpush : pushInner seq shift maxShiftSlots = .seq out := by
    rw [pushInner,hc]
    exact hout
  rw [hpush]
  simp only [CoversFold,Covers,hlen]
  refine ⟨hoo,?_⟩
  rcases hoi with hoi | heq
  · exact .inl hoi
  · exact heq ▸ ha

theorem covers_push_free (hlen : s.len = 2)
    (ho : seq.outer.isIdentity = true) (ha : s.slot1.Admits shift) :
    s.CoversFold (pushInner seq shift maxShiftSlots) := by
  unfold pushInner
  cases hc : compose shift seq.inner with
  | single merged =>
    obtain ⟨out,hout,hoo,_⟩ := pushOutward_lone merged ho
    simp only [hout,CoversFold,Covers,hlen]
    exact .inl hoo
  | zero => trivial
  | pair =>
    simp only [maxShiftSlots,Nat.le_refl,ho,and_self,if_true,CoversFold,Covers,hlen]
    exact .inr ha

theorem covers_push_pair (hlen : s.len = 2)
    (hm : ∃ merged, compose shift seq.inner = .single merged ∧
      (merged.isIdentity = true ∨ s.slot1.Admits merged)) :
    s.CoversFold (pushInner seq shift maxShiftSlots) := by
  obtain ⟨merged,hc,ha⟩ := hm
  have hpush : pushInner seq shift maxShiftSlots = pushOutward merged seq.outer := by
    rw [pushInner,hc]
  rw [hpush]
  rcases pushOutward_cases merged seq.outer with ⟨out,hout,hoo⟩ | hz | ⟨hp,hne⟩
  · rw [hout]
    simp only [CoversFold,Covers,hlen]
    exact .inl hoo
  · rw [hz]
    trivial
  · rw [hp]
    simp only [CoversFold,Covers,hlen]
    refine .inr (ha.resolve_left ?_)
    rw [hne]
    exact Bool.false_ne_true

theorem covers_push_over (hlen : s.len = overBudget) (result : PushInner) :
    s.CoversFold result := by
  cases result with
  | seq out => simp only [CoversFold,Covers,hlen,overBudget,maxShiftSlots]
  | zero => trivial
  | overBudget =>
    rw [CoversFold,hlen]
    exact Nat.lt_succ_self _

theorem withShift_coversFold (hq : seq.InRange)
    (hs : shift.InRange) (hc : s.Covers seq) :
    (s.withShift shift).CoversFold (pushInner seq shift maxShiftSlots) := by
  unfold withShift
  by_cases hid : shift.isIdentity = true
  · rw [if_pos hid]
    exact covers_push_identity hid hc
  rw [if_neg hid]
  obtain ⟨slot0,slot1,len⟩ := s
  match len with
  | 0 =>
    -- The sequence shifts nothing, so the shift lands alone in the run it opens.
    refine covers_push_lone rfl hc.2 ⟨shift,?_,.inr (Run.of_admits shift)⟩
    rw [compose,if_neg hid,if_pos hc.1]
  | 1 =>
    cases ha : slot0.absorb shift with
    | some run =>
      simp only [absorbInnermost,ha,map_some,getD_some]
      exact covers_push_lone rfl hc.1 (Run.absorb_compose hs hq.inner ha hc.2)
    | none =>
      simp only [absorbInnermost,ha,map_none,getD_none,openSlot]
      exact covers_push_free rfl hc.1 (Run.of_admits shift)
  | 2 =>
    cases ha : slot1.absorb shift with
    | some run =>
      simp only [absorbInnermost,ha,map_some,getD_some]
      rcases hc with ho | had
      · exact covers_push_free rfl ho (Run.absorb_admits hs ha)
      · exact covers_push_pair rfl (Run.absorb_compose hs hq.inner ha (.inr had))
    | none =>
      simp only [absorbInnermost,ha,map_none,getD_none,openSlot]
      exact covers_push_over rfl _
  | n + 3 =>
    refine covers_push_over ?_ _
    simp only [absorbInnermost,getD_none,openSlot,overBudget,maxShiftSlots]
    omega

end Summary

end Binius64.ShiftSummary
