import Binius64.WordGates
import Binius64.SortedMemory

/-!
# The sorted memory argument

The memory columns of the register machine's circuit.
-/

namespace Binius64.SortedRam

open MachineWord WordGates SortedMemory List

def kInit : Word := 0

def kRead : Word := 1

def kWrite : Word := 2

def kFinal : Word := 3

def padAddr : Word := 0xffff

/-- One row of the memory columns. -/
structure Visit where
  addr : Word
  ts : Word
  val : Word
  kind : Word
deriving DecidableEq

/-- What two consecutive rows of the sorted side are asserted to satisfy. -/
structure SortedPair (p q : Visit) : Prop where
  nondesc : select (icmpUlt q.addr p.addr) 1 0 = 0
  tsInc : select (band (icmpEq p.addr q.addr) (bnot (icmpUlt p.ts q.ts))) 1 0 = 0
  /-- Within an address, a read or final row carries the value before it. -/
  valCons : select (band (icmpEq p.addr q.addr)
    (band (bor (icmpEq q.kind kRead) (icmpEq q.kind kFinal)) (bnot (icmpEq p.val q.val)))) 1 0 = 0
  newInit : select (band (bnot (icmpEq p.addr q.addr)) (bnot (icmpEq q.kind 0))) 1 0 = 0

structure AssertSortedness (s : List Visit) : Prop where
  firstKind : ∀ r ∈ s[0]?, select (bnot (icmpEq r.kind 0)) 1 0 = 0
  pairs : ∀ (j : ℕ) (h : j + 1 < s.length), SortedPair s[j] s[j + 1]

structure EventWires where
  isStore : Word
  isLoad : Word
  stAddr : Word
  ldAddr : Word
  stVal : Word
  ldVal : Word
deriving DecidableEq

namespace EventWires

def Stores (e : EventWires) : Prop := isMsbTrue e.isStore

def Loads (e : EventWires) : Prop := ¬isMsbTrue e.isStore ∧ isMsbTrue e.isLoad

instance (e : EventWires) : Decidable e.Stores := inferInstanceAs (Decidable (_ = true))

instance (e : EventWires) : Decidable e.Loads := inferInstanceAs (Decidable (_ ∧ _))

/-- The one row of a cycle: a write at odd time, a read at even time, or a placeholder. -/
def row (t : ℕ) (e : EventWires) : Visit where
  addr := select e.isStore e.stAddr (select e.isLoad e.ldAddr padAddr)
  ts := iadd (BitVec.ofNat 64 (2 * t)) (select e.isStore 1 0)
  val := select e.isStore e.stVal (select e.isLoad e.ldVal 0)
  kind := select e.isStore kWrite (select e.isLoad kRead kInit)

end EventWires

structure PinnedEvents (initZero : Bool) (nTouch : ℕ) (events : List EventWires)
    (d : List Visit) : Prop where
  /-- Initial rows carry time zero and the initial kind, and zero in the default mode. -/
  init : ∀ k < nTouch, ∀ r ∈ d[k]?, r.ts = 0 ∧ r.kind = kInit ∧ (initZero = true → r.val = 0)
  event : ∀ t, ∀ e ∈ events[t]?, ∀ r ∈ d[nTouch + t]?, r = e.row t
  final : ∀ k < nTouch + 1, ∀ r ∈ d[nTouch + events.length + k]?,
    r.ts = BitVec.ofNat 64 (2 * events.length + 1) ∧ r.kind = kFinal

/-- Whether a row is a final row of the output address. -/
def hit (outAddr : Word) (r : Visit) : Word :=
  band (icmpEq r.addr outAddr) (icmpEq r.kind kFinal)

def pickOutput (outAddr : Word) (s : List Visit) : Word × Word :=
  s.foldl (fun acc r =>
    (bxor acc.1 (select (hit outAddr r) r.val 0),iadd acc.2 (select (hit outAddr r) 1 0))) (0,0)

/-- The value of the latest store to an address, zero if there is none. -/
def stored (events : List EventWires) (a : Word) : Word :=
  match events.reverse.find? fun e => e.Stores ∧ e.stAddr = a with
  | some e => e.stVal
  | none => 0

/-- The latest store to the placeholder address, of a non-zero value, and the
cycles after it. -/
structure LatestPadStore (events : List EventWires) (e : EventWires)
    (back : List EventWires) : Prop where
  split : ∃ front, events = front ++ e :: back
  stores : e.Stores
  addr : e.stAddr = padAddr
  nonzero : e.stVal ≠ 0
  latest : ∀ e' ∈ back, e'.Stores → e'.stAddr ≠ padAddr

/-- No placeholder follows the latest store to the placeholder address, if that
store is of a non-zero value. -/
def Undisturbed (events : List EventWires) : Prop :=
  ∀ e back, LatestPadStore events e back → ∀ e' ∈ back, e'.Stores ∨ e'.Loads

/-- The value the rows of an address carry: a placeholder clears its address. -/
def carried (events : List EventWires) (a : Word) : Word :=
  events.foldl (fun v e =>
    if e.Stores then (if e.stAddr = a then e.stVal else v)
    else if e.Loads then v
    else if padAddr = a then 0 else v) 0

variable (l : List EventWires) {a : Word} {e : EventWires}

theorem carried_concat (e : EventWires) (a : Word) :
    carried (l ++ [e]) a =
      if e.Stores then (if e.stAddr = a then e.stVal else carried l a)
      else if e.Loads then carried l a
      else if padAddr = a then 0 else carried l a := by
  rw [carried,foldl_append]
  rfl

theorem stored_concat (e : EventWires) (a : Word) :
    stored (l ++ [e]) a = if e.Stores ∧ e.stAddr = a then e.stVal else stored l a := by
  rw [stored,reverse_append,reverse_singleton,singleton_append]
  by_cases h : e.Stores ∧ e.stAddr = a
  · rw [find?_cons_of_pos (by simpa using h),if_pos h]
  · rw [find?_cons_of_neg (by simpa using h),if_neg h,stored]

theorem carried_eq_stored (h : padAddr ≠ a) (l : List EventWires) :
    carried l a = stored l a := by
  induction l using reverseRecOn with
  | nil => rfl
  | append_singleton l e ih =>
    rw [carried_concat,stored_concat,ih,if_neg h]
    by_cases hs : e.Stores
    · simp only [hs,if_true,true_and]
    · simp only [hs,if_false,false_and,ite_self]

theorem latestPadStore_concat {l : List EventWires} {last : EventWires}
    {back : List EventWires} : LatestPadStore (l ++ [last]) e back ↔
      (back = [] ∧ last = e ∧ e.Stores ∧ e.stAddr = padAddr ∧ e.stVal ≠ 0) ∨
      ∃ back', back = back' ++ [last] ∧ LatestPadStore l e back' ∧
        ¬(last.Stores ∧ last.stAddr = padAddr) := by
  constructor
  · rintro ⟨⟨front,hl⟩,hs,ha,hv,hback⟩
    cases back using reverseRecOn with
    | nil =>
      obtain ⟨_,heq⟩ := append_inj' hl rfl
      exact .inl ⟨rfl,(cons.inj heq).1,hs,ha,hv⟩
    | append_singleton back' last' =>
      have hl' : l ++ [last] = (front ++ e :: back') ++ [last'] := by
        rw [hl,append_assoc,cons_append]
      obtain ⟨heq,hlast⟩ := append_inj' hl' rfl
      obtain rfl := (cons.inj hlast).1
      rw [forall_mem_append,forall_mem_singleton] at hback
      exact .inr ⟨back',rfl,⟨⟨front,heq⟩,hs,ha,hv,hback.1⟩,fun h => hback.2 h.1 h.2⟩
  · rintro (⟨rfl,rfl,hs,ha,hv⟩ | ⟨back',rfl,⟨⟨front,rfl⟩,hs,ha,hv,hback⟩,hlast⟩)
    · exact ⟨⟨l,rfl⟩,hs,ha,hv,nofun⟩
    · refine ⟨⟨front,by rw [append_assoc,cons_append]⟩,hs,ha,hv,?_⟩
      rw [forall_mem_append,forall_mem_singleton]
      exact ⟨hback,fun h h' => hlast ⟨h,h'⟩⟩

theorem stored_pad_eq_zero_iff :
    stored l padAddr = 0 ↔ ∀ e back, ¬LatestPadStore l e back := by
  induction l using reverseRecOn with
  | nil =>
    refine iff_of_true rfl fun e back h => ?_
    obtain ⟨front,hl⟩ := h.split
    simp at hl
  | append_singleton l last ih =>
    rw [stored_concat]
    by_cases hs : last.Stores ∧ last.stAddr = padAddr
    · rw [if_pos hs]
      constructor
      · intro hz e back h
        rcases latestPadStore_concat.mp h with ⟨_,rfl,_,_,hv⟩ | ⟨_,_,_,hn⟩
        · exact hv hz
        · exact hn hs
      · intro h
        by_contra hv
        exact h last [] (latestPadStore_concat.mpr (.inl ⟨rfl,rfl,hs.1,hs.2,hv⟩))
    · rw [if_neg hs,ih]
      constructor
      · intro hl e back h
        rcases latestPadStore_concat.mp h with ⟨_,rfl,he,ha,_⟩ | ⟨back',_,hlp,_⟩
        · exact hs ⟨he,ha⟩
        · exact hl e back' hlp
      · intro h e back hlp
        exact h e (back ++ [last]) (latestPadStore_concat.mpr (.inr ⟨back,rfl,hlp,hs⟩))

theorem carried_pad_iff :
    carried l padAddr = stored l padAddr ↔ Undisturbed l := by
  induction l using reverseRecOn with
  | nil =>
    refine iff_of_true rfl fun e back h => ?_
    obtain ⟨front,hl⟩ := h.split
    simp at hl
  | append_singleton l last ih =>
    rw [carried_concat,stored_concat]
    by_cases hp : last.Stores ∧ last.stAddr = padAddr
    · -- A store to the address leaves nothing to disturb.
      rw [if_pos hp.1,if_pos hp.2,if_pos hp]
      refine iff_of_true rfl fun e back h => ?_
      rcases latestPadStore_concat.mp h with ⟨rfl,_⟩ | ⟨_,_,_,hn⟩
      · exact nofun
      · exact absurd hp hn
    · rw [if_neg hp]
      by_cases ha : last.Stores ∨ last.Loads
      · -- Any other access keeps both sides.
        have hkeep : (if last.Stores then (if last.stAddr = padAddr then last.stVal else carried l padAddr)
            else if last.Loads then carried l padAddr
            else if padAddr = padAddr then 0 else carried l padAddr) = carried l padAddr := by
          by_cases hs : last.Stores
          · rw [if_pos hs,if_neg fun h => hp ⟨hs,h⟩]
          · rw [if_neg hs,if_pos (ha.resolve_left hs)]
        rw [hkeep,ih]
        constructor
        · intro hu e back h
          rcases latestPadStore_concat.mp h with ⟨rfl,_⟩ | ⟨back',rfl,hlp,_⟩
          · exact nofun
          · rw [forall_mem_append,forall_mem_singleton]
            exact ⟨hu e back' hlp,ha⟩
        · intro hu e back h e' he'
          exact hu e (back ++ [last]) (latestPadStore_concat.mpr (.inr ⟨back,rfl,h,hp⟩)) e'
            (mem_append_left _ he')
      · -- A placeholder clears the address.
        rw [not_or] at ha
        rw [if_neg ha.1,if_neg ha.2,if_pos rfl,eq_comm,stored_pad_eq_zero_iff]
        constructor
        · intro hz e back h
          rcases latestPadStore_concat.mp h with ⟨rfl,_⟩ | ⟨back',_,hlp,_⟩
          · exact nofun
          · exact absurd hlp (hz e back')
        · intro hu e back h
          have hlast := hu e (back ++ [last])
            (latestPadStore_concat.mpr (.inr ⟨back,rfl,h,hp⟩)) last (by simp)
          exact hlast.elim ha.1 ha.2

/-- How a row is read: unsigned keys, reads and final rows copying. -/
def columns : Columns Visit ℕ ℕ Word where
  addr r := r.addr.toNat
  ts r := r.ts.toNat
  val := Visit.val
  Copies r := r.kind = kRead ∨ r.kind = kFinal
  Starts r := r.kind = kInit

theorem SortedPair.adjacent {p q : Visit} (h : SortedPair p q) : Adjacent columns p q := by
  obtain ⟨hnd,hts,hval,hnew⟩ := h
  simp only [select_one_zero_eq_zero,isMsbTrue_band,isMsbTrue_bnot,isMsbTrue_bor,isMsbTrue_icmpEq,
    isMsbTrue_icmpUlt,decide_eq_false_iff_not,Bool.and_eq_false_iff,Bool.not_eq_false',
    decide_eq_true_eq,Bool.or_eq_false_iff] at hnd hts hval hnew
  have haddr : columns.addr p = columns.addr q ↔ p.addr = q.addr := BitVec.toNat_inj
  refine ⟨?_,fun he hc => ?_,fun he => ?_⟩
  · rcases (Nat.not_lt.mp hnd).lt_or_eq with hlt | heq
    · exact .inl hlt
    · exact .inr ⟨heq,hts.resolve_left (not_not.mpr (haddr.mp heq))⟩
  · rcases hval.resolve_left (not_not.mpr (haddr.mp he)) with hk | hv
    · exact absurd hc (not_or.mpr hk)
    · exact hv
  · exact hnew.resolve_left fun h => he (haddr.mpr h)

theorem AssertSortedness.checked {s : List Visit} (h : AssertSortedness s) :
    Checked columns s where
  head r hr := by
    have hfirst := h.firstKind r (by rwa [head?_eq_getElem?] at hr)
    have hkind : r.kind = 0 := by
      simpa only [select_one_zero_eq_zero,isMsbTrue_bnot,isMsbTrue_icmpEq,Bool.not_eq_false',
        decide_eq_true_eq] using hfirst
    exact hkind
  chain := isChain_iff_getElem.mpr fun j hj => (h.pairs j hj).adjacent

/-- The address a cycle's row is at. -/
def EventWires.at (e : EventWires) : Word :=
  if e.Stores then e.stAddr else if e.Loads then e.ldAddr else padAddr

namespace EventWires

variable {t : ℕ} {e : EventWires}

theorem row_addr (t : ℕ) (e : EventWires) : (e.row t).addr = e.at := by
  simp only [row,EventWires.at,select,Stores,Loads]
  by_cases hs : isMsbTrue e.isStore = true
  · simp only [hs,if_true]
  · simp only [hs,not_false_iff,true_and,Bool.false_eq_true,if_false]

theorem row_ts (h : 2 * t + 1 < 2 ^ 64) :
    (e.row t).ts.toNat = 2 * t + if e.Stores then 1 else 0 := by
  have hadd : ∀ v : Word, (iadd (BitVec.ofNat 64 (2 * t)) v).toNat = (2 * t + v.toNat) % 2 ^ 64 := by
    intro v
    change (BitVec.ofNat 64 (2 * t) + v + 0#64).toNat = _
    rw [BitVec.add_zero,BitVec.toNat_add,BitVec.toNat_ofNat,Nat.mod_add_mod]
  rw [row,hadd,select]
  by_cases hs : isMsbTrue e.isStore = true
  · rw [if_pos hs,if_pos (show e.Stores from hs)]
    exact Nat.mod_eq_of_lt h
  · rw [if_neg hs,if_neg (show ¬e.Stores from hs)]
    exact Nat.mod_eq_of_lt (Nat.lt_of_succ_lt h)

theorem row_val_of_stores (h : e.Stores) : (e.row t).val = e.stVal :=
  select_of_true h _ _

theorem row_of_loads (h : e.Loads) : (e.row t).val = e.ldVal ∧ (e.row t).kind = kRead := by
  have hs : isMsbTrue e.isStore = false := Bool.eq_false_iff.mpr h.1
  simp only [row,select_of_false hs,select_of_true h.2,and_self]

theorem row_val_of_none (hs : ¬e.Stores) (hl : ¬e.Loads) : (e.row t).val = 0 := by
  have hstore : isMsbTrue e.isStore = false := Bool.eq_false_iff.mpr hs
  have hload : isMsbTrue e.isLoad = false := by
    rw [Bool.eq_false_iff]
    exact fun h => hl ⟨hs,h⟩
  simp only [row,select_of_false hstore,select_of_false hload]

theorem row_kind_ne (t : ℕ) (e : EventWires) : (e.row t).kind ≠ kFinal := by
  simp only [row,select]
  split
  · decide
  · split
    · decide
    · decide

end EventWires

theorem carried_concat_of_ne {l : List EventWires} (h : e.at ≠ a) :
    carried (l ++ [e]) a = carried l a := by
  rw [carried_concat]
  rw [EventWires.at] at h
  by_cases hs : e.Stores
  · rw [if_pos hs] at h
    rw [if_pos hs,if_neg h]
  · rw [if_neg hs] at h ⊢
    by_cases hl : e.Loads
    · rw [if_pos hl]
    · rw [if_neg hl] at h
      rw [if_neg hl,if_neg h]

theorem carried_concat_of_loads {l : List EventWires}
    (h : e.Loads) : carried (l ++ [e]) a = carried l a := by
  rw [carried_concat,if_neg (show ¬e.Stores from h.1),if_pos h]

theorem carried_concat_of_not_loads {l : List EventWires} (t : ℕ)
    (h : ¬e.Loads) : carried (l ++ [e]) e.at = (e.row t).val := by
  rw [carried_concat,EventWires.at]
  by_cases hs : e.Stores
  · rw [if_pos hs,if_pos hs,if_pos rfl,EventWires.row_val_of_stores hs]
  · rw [if_neg hs,if_neg hs,if_neg h,if_neg h,if_pos rfl,EventWires.row_val_of_none hs h]

variable {events : List EventWires}

theorem carried_take_eq {u t : ℕ} (hut : u ≤ t)
    (h : ∀ i, u ≤ i → i < t → ∀ e ∈ events[i]?, e.at ≠ a) :
    carried (events.take t) a = carried (events.take u) a := by
  induction t, hut using Nat.le_induction with
  | base => rfl
  | succ t hut ih =>
    have hprev := ih fun i hi hit => h i hi (Nat.lt_succ_of_lt hit)
    rw [take_add_one]
    cases he : events[t]? with
    | none => rw [Option.toList_none,append_nil,hprev]
    | some e =>
      rw [Option.toList_some,carried_concat_of_ne (h t hut (Nat.lt_succ_self t) e he),hprev]

theorem PinnedEvents.cases {nTouch : ℕ} {d : List Visit}
    (h : PinnedEvents true nTouch events d) (hlen : d.length = events.length + 2 * nTouch + 1)
    {r : Visit} (hr : r ∈ d) :
    (r.ts = 0 ∧ r.val = 0 ∧ r.kind = kInit) ∨
      (∃ t, ∃ e : EventWires, events[t]? = some e ∧ r = e.row t) ∨
      (r.ts = BitVec.ofNat 64 (2 * events.length + 1) ∧ r.kind = kFinal) := by
  obtain ⟨i,hget⟩ := getElem?_of_mem hr
  have hi := (List.getElem?_eq_some_iff.mp hget).1
  rcases Nat.lt_or_ge i nTouch with hlow | hge
  · have hinit := h.init i hlow r hget
    exact .inl ⟨hinit.1,hinit.2.2 rfl,hinit.2.1⟩
  · obtain ⟨t,rfl⟩ := Nat.exists_eq_add_of_le hge
    rcases Nat.lt_or_ge t events.length with hmid | hhigh
    · have he : events[t]? = some events[t] := getElem?_eq_getElem hmid
      exact .inr (.inl ⟨t,events[t],he,h.event t _ he _ hget⟩)
    · obtain ⟨k,rfl⟩ := Nat.exists_eq_add_of_le hhigh
      rw [← Nat.add_assoc] at hget
      have hfinal := h.final k (by omega) _ hget
      exact .inr (.inr hfinal)

theorem PinnedEvents.row_mem {initZero : Bool} {nTouch : ℕ}
    {d : List Visit} (h : PinnedEvents initZero nTouch events d)
    (hlen : d.length = events.length + 2 * nTouch + 1) {t : ℕ}
    (he : events[t]? = some e) : e.row t ∈ d := by
  have hlt : nTouch + t < d.length := by
    have := (List.getElem?_eq_some_iff.mp he).1
    omega
  rw [← h.event t e he _ (getElem?_eq_getElem hlt)]
  exact getElem_mem hlt

theorem exists_last {P : ℕ → Prop} {t : ℕ} (h : ∃ u < t, P u) :
    ∃ u < t, P u ∧ ∀ v, u < v → v < t → ¬P v := by
  induction t with
  | zero =>
    obtain ⟨u,hu,_⟩ := h
    exact absurd hu (Nat.not_lt_zero u)
  | succ t ih =>
    by_cases ht : P t
    · exact ⟨t,Nat.lt_succ_self t,ht,fun v hv hvt => absurd hv (by omega)⟩
    · obtain ⟨u,hu,hp⟩ := h
      have hut : u ≠ t := fun he => ht (he ▸ hp)
      obtain ⟨w,hw,hpw,hlast⟩ := ih ⟨u,by omega,hp⟩
      refine ⟨w,Nat.lt_succ_of_lt hw,hpw,fun v hv hvt => ?_⟩
      rcases Nat.lt_succ_iff_lt_or_eq.mp hvt with hlt | rfl
      · exact hlast v hv hlt
      · exact ht

section Argument

variable {nTouch : ℕ} {events : List EventWires} {s d : List Visit}

/-- What both sides of the argument are asserted to satisfy. -/
structure Argued (nTouch : ℕ) (events : List EventWires) (s d : List Visit) : Prop where
  sorted : AssertSortedness s
  pinned : PinnedEvents true nTouch events d
  perm : s.Perm d
  length : d.length = events.length + 2 * nTouch + 1
  cycles : 1 ≤ events.length
  timeFits : 2 * events.length + 1 < 2 ^ 64
  rowsFit : d.length < 2 ^ 64

namespace Argued

theorem unique (h : Argued nTouch events s d) {p q : Visit} (hp : p ∈ d) (hq : q ∈ d)
    (ha : p.addr = q.addr) (ht : p.ts.toNat = q.ts.toNat) : p = q :=
  h.sorted.checked.unique (h.perm.mem_iff.mpr hp) (h.perm.mem_iff.mpr hq)
    (congrArg BitVec.toNat ha) ht

theorem copies (h : Argued nTouch events s d) {r : Visit} (hr : r ∈ s)
    (hk : r.kind = kRead ∨ r.kind = kFinal) :
    ∃ p, Latest columns d r.addr.toNat r.ts.toNat p ∧ p.val = r.val := by
  have hs : ¬columns.Starts r := by
    have hread : kRead ≠ kInit := by decide
    have hfinal : kFinal ≠ kInit := by decide
    rcases hk with hk | hk
    · exact fun h => hread (hk.symm.trans h)
    · exact fun h => hfinal (hk.symm.trans h)
  obtain ⟨p,hp,hv⟩ := h.sorted.checked.copies hr hk hs
  exact ⟨p,hp.perm h.perm,hv⟩

theorem latest_val (h : Argued nTouch events s d) {t : ℕ} (ht : t ≤ events.length) {a : Word}
    {p : Visit} (hp : Latest columns d a.toNat (2 * t) p)
    (hrows : ∀ u < t, ∀ e : EventWires, events[u]? = some e →
      (e.row u).val = carried (events.take (u + 1)) e.at) :
    p.val = carried (events.take t) a := by
  have haddr : p.addr = a := BitVec.eq_of_toNat_eq hp.addr
  have hearly : p.ts.toNat < 2 * t := hp.earlier
  have hfit := h.timeFits
  -- A row of a cycle is timed within the cycle's two ticks.
  have hrow : ∀ {u : ℕ} {e : EventWires}, events[u]? = some e →
      2 * u ≤ (e.row u).ts.toNat ∧ (e.row u).ts.toNat ≤ 2 * u + 1 := by
    intro u e he
    have hu := (List.getElem?_eq_some_iff.mp he).1
    rw [EventWires.row_ts (by omega)]
    split <;> omega
  -- The latest row is no final row.
  have hcases : (p.ts = 0 ∧ p.val = 0) ∨ ∃ u < t, ∃ e : EventWires,
      events[u]? = some e ∧ p = e.row u := by
    rcases h.pinned.cases h.length hp.mem with ⟨hz,hv,_⟩ | ⟨u,e,he,heq⟩ | ⟨hfinal,_⟩
    · exact .inl ⟨hz,hv⟩
    · have hbound := (hrow he).1
      rw [← heq] at hbound
      exact .inr ⟨u,by omega,e,he,heq⟩
    · rw [hfinal,BitVec.toNat_ofNat,Nat.mod_eq_of_lt hfit] at hearly
      omega
  by_cases hex : ∃ u < t, ∃ e : EventWires, events[u]? = some e ∧ e.at = a
  · -- The row of the last cycle at the address is the latest row.
    obtain ⟨u,hu,⟨e,he,hat⟩,hlast⟩ := exists_last hex
    have hmem := h.pinned.row_mem h.length he
    have hra : (e.row u).addr = a := (e.row_addr u).trans hat
    have hrowEarly : (e.row u).ts.toNat < 2 * t := by
      have := (hrow he).2
      omega
    have hle : (e.row u).ts.toNat ≤ p.ts.toNat :=
      hp.latest _ hmem (congrArg BitVec.toNat hra) hrowEarly
    have heq : p = e.row u := by
      rcases hcases with ⟨hz,_⟩ | ⟨v,hv,e',he',heq⟩
      · refine h.unique hp.mem hmem (haddr.trans hra.symm) (Nat.le_antisymm ?_ hle)
        rw [hz]
        exact Nat.zero_le _
      · have hva : e'.at = a := by rw [← e'.row_addr v,← heq,haddr]
        have hvu : ¬u < v := fun hlt => hlast v hlt hv ⟨e',he',hva⟩
        have hb := (hrow he').2
        rw [← heq] at hb
        have huv : u = v := by
          have := (hrow he).1
          omega
        subst huv
        rw [he,Option.some.injEq] at he'
        rw [heq,he']
    rw [heq,hrows u hu e he,hat]
    refine (carried_take_eq (Nat.succ_le_of_lt hu) fun i hi hit e' he' hat' => ?_).symm
    exact hlast i hi hit ⟨e',he',hat'⟩
  · -- No cycle has been at the address, so the latest row is an initial one.
    rcases hcases with ⟨_,hz⟩ | ⟨v,hv,e,he,heq⟩
    · rw [hz,carried_take_eq (Nat.zero_le t) fun i _ hit e he hat => hex ⟨i,hit,e,he,hat⟩]
      rfl
    · exact absurd ⟨v,hv,e,he,by rw [← e.row_addr v,← heq,haddr]⟩ hex

theorem row_val (h : Argued nTouch events s d) (t : ℕ) (e : EventWires)
    (he : events[t]? = some e) : (e.row t).val = carried (events.take (t + 1)) e.at := by
  induction t using Nat.strong_induction_on generalizing e with
  | _ t ih =>
    have hlt := (List.getElem?_eq_some_iff.mp he).1
    have htake : events.take (t + 1) = events.take t ++ [e] := by
      rw [take_add_one,he,Option.toList_some]
    rw [htake]
    by_cases hl : e.Loads
    · have hmem := h.perm.mem_iff.mpr (h.pinned.row_mem h.length he)
      obtain ⟨p,hp,hval⟩ := h.copies hmem (.inl (EventWires.row_of_loads hl).2)
      have hfit := h.timeFits
      rw [EventWires.row_addr,EventWires.row_ts (by omega),
        if_neg (show ¬e.Stores from hl.1),Nat.add_zero] at hp
      rw [← hval,h.latest_val hlt.le hp fun u hu e' he' => ih u hu e' he',
        carried_concat_of_loads hl]
    · exact (carried_concat_of_not_loads t hl).symm

theorem ldVal_eq (h : Argued nTouch events s d) {t : ℕ} {e : EventWires}
    (he : events[t]? = some e) (hl : e.Loads) : e.ldVal = carried (events.take t) e.ldAddr := by
  have htake : events.take (t + 1) = events.take t ++ [e] := by
    rw [take_add_one,he,Option.toList_some]
  have hat : e.at = e.ldAddr := by
    rw [EventWires.at,if_neg (show ¬e.Stores from hl.1),if_pos hl]
  have hrow := h.row_val t e he
  rwa [(EventWires.row_of_loads hl).1,htake,carried_concat_of_loads hl,hat] at hrow

theorem final_val (h : Argued nTouch events s d) {r : Visit} (hr : r ∈ s)
    (hk : r.kind = kFinal) : r.val = carried events r.addr := by
  have hcycles := h.cycles
  have hfit := h.timeFits
  have hts : r.ts.toNat = 2 * events.length + 1 := by
    rcases h.pinned.cases h.length (h.perm.mem_iff.mp hr) with ⟨_,_,hi⟩ | ⟨u,e,_,rfl⟩ | ⟨ht,_⟩
    · rw [hi] at hk
      exact absurd hk (by decide)
    · exact absurd hk (e.row_kind_ne u)
    · rw [ht,BitVec.toNat_ofNat,Nat.mod_eq_of_lt hfit]
  obtain ⟨p,hp,hval⟩ := h.copies hr (.inr hk)
  rw [hts] at hp
  -- No row is timed at the tick before the final one.
  have hearly : ∀ q ∈ d, q.ts.toNat < 2 * events.length + 1 → q.ts.toNat < 2 * events.length := by
    intro q hq hlt
    rcases h.pinned.cases h.length hq with ⟨hz,_⟩ | ⟨u,e,he,rfl⟩ | ⟨ht,_⟩
    · rw [hz]
      change 0 < _
      omega
    · have hu := (List.getElem?_eq_some_iff.mp he).1
      rw [EventWires.row_ts (by omega)]
      split <;> omega
    · rw [ht,BitVec.toNat_ofNat,Nat.mod_eq_of_lt hfit] at hlt
      omega
  have hlatest : Latest columns d r.addr.toNat (2 * events.length) p := by
    refine ⟨hp.mem,hp.addr,hearly p hp.mem hp.earlier,fun q hq ha hlt => ?_⟩
    exact hp.latest q hq ha (Nat.lt_succ_of_lt hlt)
  rw [← hval,h.latest_val le_rfl hlatest fun u _ => h.row_val u,take_length]

end Argued

end Argument

theorem isMsbTrue_hit (outAddr : Word) (r : Visit) :
    isMsbTrue (hit outAddr r) = decide (r.addr = outAddr ∧ r.kind = kFinal) := by
  rw [hit,isMsbTrue_band,isMsbTrue_icmpEq,isMsbTrue_icmpEq,Bool.decide_and]

theorem pickOutput_eq (outAddr : Word) (s : List Visit) :
    pickOutput outAddr s =
      (((s.filter fun r => r.addr = outAddr ∧ r.kind = kFinal).map Visit.val).foldl (· ^^^ ·) 0,
        BitVec.ofNat 64 (s.filter fun r => r.addr = outAddr ∧ r.kind = kFinal).length) := by
  induction s using reverseRecOn with
  | nil => rfl
  | append_singleton s r ih =>
    rw [pickOutput,foldl_append,foldl_cons,foldl_nil]
    change (bxor (pickOutput outAddr s).1 _,iadd (pickOutput outAddr s).2 _) = _
    rw [ih,filter_append,select,select,isMsbTrue_hit]
    have hadd : ∀ (n : ℕ) (v : Word), iadd (BitVec.ofNat 64 n) v = BitVec.ofNat 64 n + v := by
      intro n v
      change BitVec.ofNat 64 n + v + 0#64 = _
      rw [BitVec.add_zero]
    by_cases hr : r.addr = outAddr ∧ r.kind = kFinal
    · have hf : [r].filter (fun r => r.addr = outAddr ∧ r.kind = kFinal) = [r] :=
        filter_cons_of_pos (by simpa using hr)
      rw [hf,decide_eq_true hr,if_pos rfl,if_pos rfl,map_append,foldl_append,
        length_append,hadd]
      refine Prod.ext rfl ?_
      exact (BitVec.ofNat_add _ 1).symm
    · have hf : [r].filter (fun r => r.addr = outAddr ∧ r.kind = kFinal) = [] :=
        filter_cons_of_neg (by simpa using hr)
      rw [hf,decide_eq_false hr,if_neg Bool.false_ne_true,if_neg Bool.false_ne_true,
        append_nil,hadd,bxor,BitVec.ofNat_eq_ofNat,BitVec.xor_zero,BitVec.add_zero]

theorem pickOutput_unique {outAddr : Word} {s : List Visit} (hlen : s.length < 2 ^ 64)
    (h : (pickOutput outAddr s).2 = 1) :
    ∃ r ∈ s, r.addr = outAddr ∧ r.kind = kFinal ∧ (pickOutput outAddr s).1 = r.val := by
  rw [pickOutput_eq] at h ⊢
  have hle := length_filter_le (fun r : Visit => r.addr = outAddr ∧ r.kind = kFinal) s
  have hone := congrArg BitVec.toNat h
  rw [BitVec.toNat_ofNat,Nat.mod_eq_of_lt (by omega)] at hone
  obtain ⟨r,hr⟩ := length_eq_one_iff.mp hone
  have hmem : r ∈ s.filter fun r => r.addr = outAddr ∧ r.kind = kFinal := by
    rw [hr]
    exact mem_singleton_self r
  obtain ⟨hs,hp⟩ := mem_filter.mp hmem
  have hp' : r.addr = outAddr ∧ r.kind = kFinal := by simpa using hp
  refine ⟨r,hs,hp'.1,hp'.2,?_⟩
  rw [hr,map_singleton,foldl_cons,foldl_nil,BitVec.ofNat_eq_ofNat,BitVec.zero_xor]

/-- Loads read the latest earlier store to their address, and the output, where
its final row is unique, is the latest store to the output address. -/
structure ReadsStored (events : List EventWires) (s : List Visit) (outAddr finalOut : Word) :
    Prop where
  load : ∀ t, ∀ e : EventWires, events[t]? = some e → e.Loads →
    e.ldVal = stored (events.take t) e.ldAddr
  output : (pickOutput outAddr s).2 = 1 → finalOut = stored events outAddr

/-- Nothing reads the placeholder address after a placeholder has cleared a
non-zero value there. -/
structure PadUndisturbed (events : List EventWires) (s : List Visit) (outAddr : Word) : Prop where
  load : ∀ t, ∀ e : EventWires, events[t]? = some e → e.Loads → e.ldAddr = padAddr →
    Undisturbed (events.take t)
  output : (pickOutput outAddr s).2 = 1 → outAddr = padAddr → Undisturbed events

theorem carried_eq_stored_iff (a : Word) :
    carried l a = stored l a ↔ (a = padAddr → Undisturbed l) := by
  by_cases ha : a = padAddr
  · subst ha
    rw [carried_pad_iff]
    exact ⟨fun h _ => h,fun h => h rfl⟩
  · exact iff_of_true (carried_eq_stored (Ne.symm ha) l) fun h => absurd h ha

/-- The argument makes every read agree with the memory exactly when nothing
reads a value of the placeholder address that a placeholder has cleared. -/
theorem readsStored_iff {nTouch : ℕ} {events : List EventWires} {s d : List Visit}
    (h : Argued nTouch events s d) (outAddr finalOut : Word)
    (hout : finalOut = (pickOutput outAddr s).1) :
    ReadsStored events s outAddr finalOut ↔ PadUndisturbed events s outAddr := by
  have hload : ∀ t, ∀ e : EventWires, events[t]? = some e → e.Loads →
      (e.ldVal = stored (events.take t) e.ldAddr ↔
        (e.ldAddr = padAddr → Undisturbed (events.take t))) := by
    intro t e he hl
    rw [h.ldVal_eq he hl]
    exact carried_eq_stored_iff _ _
  have houtput : (pickOutput outAddr s).2 = 1 →
      (finalOut = stored events outAddr ↔ (outAddr = padAddr → Undisturbed events)) := by
    intro hone
    obtain ⟨r,hr,ha,hk,hv⟩ := pickOutput_unique (h.perm.length_eq ▸ h.rowsFit) hone
    rw [hout,hv,h.final_val hr hk,ha]
    exact carried_eq_stored_iff _ _
  constructor
  · rintro ⟨hreads,hfinal⟩
    exact ⟨fun t e he hl => (hload t e he hl).mp (hreads t e he hl),
      fun hone => (houtput hone).mp (hfinal hone)⟩
  · rintro ⟨hreads,hfinal⟩
    exact ⟨fun t e he hl => (hload t e he hl).mpr (hreads t e he hl),
      fun hone => (houtput hone).mpr (hfinal hone)⟩

instance (p q : Visit) : Decidable (SortedPair p q) :=
  decidable_of_iff (select (icmpUlt q.addr p.addr) 1 0 = 0 ∧
      select (band (icmpEq p.addr q.addr) (bnot (icmpUlt p.ts q.ts))) 1 0 = 0 ∧
      select (band (icmpEq p.addr q.addr) (band (bor (icmpEq q.kind kRead) (icmpEq q.kind kFinal))
        (bnot (icmpEq p.val q.val)))) 1 0 = 0 ∧
      select (band (bnot (icmpEq p.addr q.addr)) (bnot (icmpEq q.kind 0))) 1 0 = 0)
    ⟨fun h => ⟨h.1,h.2.1,h.2.2.1,h.2.2.2⟩,fun h => ⟨h.nondesc,h.tsInc,h.valCons,h.newInit⟩⟩

theorem assertSortedness_iff (s : List Visit) : AssertSortedness s ↔
    (∀ r ∈ s[0]?, select (bnot (icmpEq r.kind 0)) 1 0 = 0) ∧ s.IsChain SortedPair := by
  rw [isChain_iff_getElem]
  constructor
  · rintro ⟨hfirst,hpairs⟩
    exact ⟨hfirst,hpairs⟩
  · rintro ⟨hfirst,hpairs⟩
    exact ⟨hfirst,hpairs⟩

instance (s : List Visit) : Decidable (AssertSortedness s) :=
  decidable_of_iff' _ (assertSortedness_iff s)

instance (initZero : Bool) (nTouch : ℕ) (events : List EventWires) (d : List Visit) :
    Decidable (PinnedEvents initZero nTouch events d) :=
  decidable_of_iff ((∀ k < nTouch, ∀ r ∈ d[k]?,
      r.ts = 0 ∧ r.kind = kInit ∧ (initZero = true → r.val = 0)) ∧
      (∀ t < events.length, ∀ e ∈ events[t]?, ∀ r ∈ d[nTouch + t]?, r = e.row t) ∧
      ∀ k < nTouch + 1, ∀ r ∈ d[nTouch + events.length + k]?,
        r.ts = BitVec.ofNat 64 (2 * events.length + 1) ∧ r.kind = kFinal)
    ⟨fun h => ⟨h.1,fun t e he => h.2.1 t (List.getElem?_eq_some_iff.mp he).1 e he,h.2.2⟩,
      fun h => ⟨h.init,fun t _ => h.event t,h.final⟩⟩

def storeLoadRun : List EventWires :=
  [⟨0,0,0,0,0,0⟩,⟨msbOne,0,4,0,7,0⟩,⟨0,0,0,0,0,0⟩,⟨0,msbOne,0,4,0,7⟩,⟨0,0,0,0,0,0⟩]

/-- The rows of that run, in the order of the event side. -/
def storeLoadRows : List Visit :=
  [⟨4,0,0,kInit⟩,⟨padAddr,0,0,kInit⟩,⟨4,3,7,kWrite⟩,⟨padAddr,4,0,kInit⟩,⟨4,6,7,kRead⟩,
    ⟨padAddr,8,0,kInit⟩,⟨4,11,7,kFinal⟩,⟨padAddr,11,0,kFinal⟩]

def storeLoadSorted : List Visit :=
  [⟨4,0,0,kInit⟩,⟨4,3,7,kWrite⟩,⟨4,6,7,kRead⟩,⟨4,11,7,kFinal⟩,⟨padAddr,0,0,kInit⟩,
    ⟨padAddr,4,0,kInit⟩,⟨padAddr,8,0,kInit⟩,⟨padAddr,11,0,kFinal⟩]

theorem readsStored_iff_storeLoad :
    Argued 1 storeLoadRun storeLoadSorted storeLoadRows ∧
      (ReadsStored storeLoadRun storeLoadSorted 4 7 ↔
        PadUndisturbed storeLoadRun storeLoadSorted 4) := by
  have h : Argued 1 storeLoadRun storeLoadSorted storeLoadRows :=
    ⟨by decide +kernel,by decide +kernel,by decide +kernel,by decide,by decide,by decide,by decide⟩
  exact ⟨h,readsStored_iff h 4 7 (by decide +kernel)⟩

/-- The same run at the placeholder address, whose load reads zero. -/
def padRun : List EventWires :=
  [⟨0,0,0,0,0,0⟩,⟨msbOne,0,padAddr,0,7,0⟩,⟨0,0,0,0,0,0⟩,⟨0,msbOne,0,padAddr,0,0⟩,⟨0,0,0,0,0,0⟩]

/-- The rows of that run, in the order of both sides. -/
def padRows : List Visit :=
  [⟨padAddr,0,0,kInit⟩,⟨padAddr,3,7,kWrite⟩,⟨padAddr,4,0,kInit⟩,⟨padAddr,6,0,kRead⟩,
    ⟨padAddr,8,0,kInit⟩,⟨padAddr,11,0,kFinal⟩]

/-- At the placeholder address the argument accepts a load that misses the
latest store. -/
theorem readsStored_fails :
    ¬∀ (nTouch : ℕ) (events : List EventWires) (s d : List Visit) (outAddr finalOut : Word),
      Argued nTouch events s d → finalOut = (pickOutput outAddr s).1 →
        ReadsStored events s outAddr finalOut := by
  intro hall
  have h : Argued 0 padRun padRows padRows :=
    ⟨by decide +kernel,by decide +kernel,.refl _,by decide,by decide,by decide,by decide⟩
  have hreads := hall 0 padRun padRows padRows padAddr 0 h (by decide +kernel)
  have hval := hreads.load 3 ⟨0,msbOne,0,padAddr,0,0⟩ rfl (by decide +kernel)
  exact absurd hval (by decide +kernel)

end Binius64.SortedRam
