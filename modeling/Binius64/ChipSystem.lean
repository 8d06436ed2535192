import Binius64.ConstraintSystem
import Binius64.RangeClaims

/-!
# M4 constraint systems

Chips composed by chip calls: structural validation, the bookkeeping that hands each call a run of
its callee's instances, and the reference verifier over any source of chip instances.
-/

namespace Binius64.ChipSystem

open MachineWord ValueVector ConstraintSystem RangeClaims List

/-- The number of values of the machine-size integer. -/
def usizeBound : ℕ := 2 ^ 64

/-- Addition refused on overflow. -/
def checkedAdd (a b : ℕ) : Option ℕ :=
  if a + b < usizeBound then some (a + b) else none

theorem checkedAdd_eq_some {a b c : ℕ} :
    checkedAdd a b = some c ↔ a + b < usizeBound ∧ c = a + b := by
  unfold checkedAdd
  split
  · rename_i h
    simp only [Option.some.injEq,h,true_and]
    exact eq_comm
  · rename_i h
    simp only [reduceCtorEq,h,false_and]

structure ChipCall where
  chipId : ℕ
  /-- The instance of the callee that the caller's first instance invokes. -/
  firstInstance : ℕ
  /-- The words passed as the callee's inout values, as operands over the caller. -/
  inout : List Operand
deriving DecidableEq

structure EmbeddedConstraintSystem where
  cs : System
  /-- The chips this one delegates to, one entry per call per instance. -/
  chipCalls : List ChipCall
deriving DecidableEq

/-- Check the operands of one call, numbering them from the given position. -/
def validateCallOperands (cs : System) (callIndex : ℕ) :
    ℕ → List Operand → Except ConstraintSystemError Unit
  | _, [] => .ok ()
  | i, operand :: rest =>
    match operandFault cs operand with
    | some source => .error (.chipCallOperand callIndex i source)
    | none => validateCallOperands cs callIndex (i + 1) rest

/-- Check the operands of every call, numbering the calls from the given position. -/
def validateCallList (cs : System) : ℕ → List ChipCall → Except ConstraintSystemError Unit
  | _, [] => .ok ()
  | i, call :: rest =>
    match validateCallOperands cs i 0 call.inout with
    | .error e => .error e
    | .ok () => validateCallList cs (i + 1) rest

def EmbeddedConstraintSystem.validate (chip : EmbeddedConstraintSystem) :
    Except ConstraintSystemError Unit := do
  chip.cs.validate
  validateCallList chip.cs 0 chip.chipCalls

structure SystemM4 where
  main : EmbeddedConstraintSystem
  chips : List (EmbeddedConstraintSystem × ℕ)
deriving DecidableEq

namespace SystemM4

/-- Check that one caller's calls name existing chips, run only to later chips,
and pass no more operands than the callee has inout values. -/
def validateCalls (s : SystemM4) (chipIndex : Option ℕ) :
    ℕ → List ChipCall → Except ConstraintSystemError Unit
  | _, [] => .ok ()
  | i, call :: rest =>
    match s.chips[call.chipId]? with
    | none => .error (.outOfRangeChipId chipIndex call.chipId s.chips.length)
    | some (callee,_) =>
      match chipIndex.filter (call.chipId ≤ ·) with
      | some caller => .error (.callOutOfOrder caller call.chipId)
      | none =>
        if callee.cs.nInout < call.inout.length then
          .error (.wrongCallArity chipIndex i call.chipId call.inout.length callee.cs.nInout)
        else validateCalls s chipIndex (i + 1) rest

/-- Check every chip and its calls, numbering the chips from the given position. -/
def validateChips (s : SystemM4) :
    ℕ → List (EmbeddedConstraintSystem × ℕ) → Except ConstraintSystemError Unit
  | _, [] => .ok ()
  | i, (chip,_) :: rest => do
    chip.validate
    s.validateCalls (some i) 0 chip.chipCalls
    validateChips s (i + 1) rest

/-- The callers in the order their calls claim instances: main, then the chips. -/
def callers (s : SystemM4) : List (Option ℕ × EmbeddedConstraintSystem × ℕ) :=
  (none,s.main,1) :: s.chips.zipIdx.map fun ((chip,nActive),i) => (some i,chip,nActive)

def claimCalls (chipIndex : Option ℕ) (nActive : ℕ) :
    ℕ → List ChipCall → (ℕ → ℕ) → Except ConstraintSystemError (ℕ → ℕ)
  | _, [], nClaimed => .ok nClaimed
  | i, call :: rest, nClaimed =>
    if call.firstInstance ≠ nClaimed call.chipId then
      .error (.wrongCallInstance chipIndex i call.firstInstance (nClaimed call.chipId))
    else
      match checkedAdd (nClaimed call.chipId) nActive with
      | none => .error (.tooManyInstances call.chipId)
      | some total =>
        claimCalls chipIndex nActive (i + 1) rest (Function.update nClaimed call.chipId total)

/-- Claim the callee instances of every caller in order. -/
def claimAll : List (Option ℕ × EmbeddedConstraintSystem × ℕ) → (ℕ → ℕ) →
    Except ConstraintSystemError (ℕ → ℕ)
  | [], nClaimed => .ok nClaimed
  | (chipIndex,caller,nActive) :: rest, nClaimed => do
    let nClaimed ← claimCalls chipIndex nActive 0 caller.chipCalls nClaimed
    claimAll rest nClaimed

def checkCounts (nClaimed : ℕ → ℕ) :
    ℕ → List (EmbeddedConstraintSystem × ℕ) → Except ConstraintSystemError Unit
  | _, [] => .ok ()
  | i, (_,nActive) :: rest =>
    if nClaimed i ≠ nActive then .error (.wrongActiveInstanceCount i nActive (nClaimed i))
    else checkCounts nClaimed (i + 1) rest

/-- Check that the calls claim each chip's active instances exactly once between them. -/
def validateInstances (s : SystemM4) : Except ConstraintSystemError Unit := do
  let nClaimed ← claimAll s.callers fun _ => 0
  checkCounts nClaimed 0 s.chips

/-- Check every chip and every chip call, the order of the chips, and the
instances the calls name. -/
def validate (s : SystemM4) : Except ConstraintSystemError Unit := do
  s.main.validate
  s.validateCalls none 0 s.main.chipCalls
  s.validateChips 0 s.chips
  s.validateInstances

end SystemM4

structure CallSite where
  caller : Option ℕ
  index : ℕ
  call : ChipCall
  nActive : ℕ

namespace SystemM4

def sitesFrom (caller : Option ℕ) (nActive : ℕ) : ℕ → List ChipCall → List CallSite
  | _, [] => []
  | i, call :: rest => ⟨caller,i,call,nActive⟩ :: sitesFrom caller nActive (i + 1) rest

def callSites (s : SystemM4) : List CallSite :=
  s.callers.flatMap fun (caller,chip,nActive) => sitesFrom caller nActive 0 chip.chipCalls

variable {caller : Option ℕ} {nActive i : ℕ} {site : CallSite} {calls : List ChipCall}
   {s : SystemM4} {base : ℕ → ℕ}

theorem mem_sitesFrom
    :
    site ∈ sitesFrom caller nActive i calls ↔
      site.caller = caller ∧ site.nActive = nActive ∧ i ≤ site.index ∧
        calls[site.index - i]? = some site.call := by
  induction calls generalizing i with
  | nil => simp only [sitesFrom,not_mem_nil,getElem?_nil,reduceCtorEq,and_false]
  | cons call rest ih =>
    obtain ⟨c,j,k,n⟩ := site
    simp only [sitesFrom,mem_cons,ih,CallSite.mk.injEq]
    constructor
    · rintro (⟨rfl,rfl,rfl,rfl⟩ | ⟨rfl,rfl,hj,hk⟩)
      · refine ⟨rfl,rfl,le_refl _,?_⟩
        rw [Nat.sub_self]
        rfl
      · refine ⟨rfl,rfl,by omega,?_⟩
        have he : j - i = j - (i + 1) + 1 := by omega
        rw [he,getElem?_cons_succ]
        exact hk
    · rintro ⟨rfl,rfl,hj,hk⟩
      rcases Nat.eq_or_lt_of_le hj with rfl | hlt
      · rw [Nat.sub_self,getElem?_cons_zero,Option.some.injEq] at hk
        exact Or.inl ⟨rfl,rfl,hk.symm,rfl⟩
      · have he : j - i = j - (i + 1) + 1 := by omega
        rw [he,getElem?_cons_succ] at hk
        exact Or.inr ⟨rfl,rfl,by omega,hk⟩

theorem mem_callSites :
    site ∈ s.callSites ↔
      (site.caller = none ∧ site.nActive = 1 ∧ s.main.chipCalls[site.index]? = some site.call) ∨
        ∃ i chip, site.caller = some i ∧ s.chips[i]? = some (chip,site.nActive) ∧
          chip.chipCalls[site.index]? = some site.call := by
  simp only [callSites,callers,flatMap_cons,mem_append,mem_flatMap,mem_map,
    mem_sitesFrom,Nat.zero_le,true_and,Nat.sub_zero]
  constructor
  · rintro (⟨h1,h2,h3⟩ | ⟨_,⟨⟨⟨chip,n⟩,i⟩,hm,rfl⟩,h1,h2,h3⟩)
    · exact Or.inl ⟨h1,h2,h3⟩
    · rw [mem_zipIdx_iff_getElem?] at hm
      exact Or.inr ⟨i,chip,h1,by rw [h2]; exact hm,h3⟩
  · rintro (⟨h1,h2,h3⟩ | ⟨i,chip,h1,hm,h3⟩)
    · exact Or.inl ⟨h1,h2,h3⟩
    · exact Or.inr ⟨_,⟨⟨⟨chip,site.nActive⟩,i⟩,mem_zipIdx_iff_getElem?.mpr hm,rfl⟩,h1,rfl,h3⟩

abbrev Consecutive (base : ℕ → ℕ) (sites : List CallSite) : Prop :=
  ConsecutiveFrom (fun site => site.call.chipId) (fun site => site.call.firstInstance)
    CallSite.nActive base sites

abbrev claimedOf (chip : ℕ) (sites : List CallSite) : ℕ :=
  claimed (fun site : CallSite => site.call.chipId) CallSite.nActive chip sites

theorem update_add (base : ℕ → ℕ) (k n : ℕ) :
    Function.update base k (base k + n) = fun j => base j + if k = j then n else 0 := by
  funext j
  by_cases hk : k = j
  · subst hk
    rw [Function.update_self,if_pos rfl]
  · rw [Function.update_of_ne (Ne.symm hk),if_neg hk,Nat.add_zero]

theorem claimCalls_ok
    {final : ℕ → ℕ} (h : claimCalls caller nActive i calls base = .ok final) :
    Consecutive base (sitesFrom caller nActive i calls) ∧
      (final = fun k => base k + claimedOf k (sitesFrom caller nActive i calls)) ∧
      ((∀ k, base k < usizeBound) → ∀ k, final k < usizeBound) := by
  induction calls generalizing i base with
  | nil =>
    cases h
    exact ⟨trivial,by funext k; rw [sitesFrom,claimedOf,claimed,Nat.add_zero],fun hb => hb⟩
  | cons call rest ih =>
    rw [claimCalls] at h
    split at h
    · cases h
    · rename_i hf
      rw [not_not] at hf
      cases ha : checkedAdd (base call.chipId) nActive with
      | none =>
        rw [ha] at h
        cases h
      | some total =>
        rw [ha] at h
        obtain ⟨hlt,rfl⟩ := checkedAdd_eq_some.mp ha
        dsimp only at h
        rw [update_add] at h
        obtain ⟨hc,hfin,hb⟩ := ih h
        refine ⟨⟨hf,hc⟩,?_,fun hbase => hb fun k => ?_⟩
        · rw [hfin]
          funext k
          rw [claimedOf,claimedOf,sitesFrom,claimed,Nat.add_assoc]
        · split
          · rename_i hk
            subst hk
            exact hlt
          · exact hbase k

theorem claimAll_ok {callers : List (Option ℕ × EmbeddedConstraintSystem × ℕ)}
    {final : ℕ → ℕ} (h : claimAll callers base = .ok final) :
    Consecutive base (callers.flatMap fun (c,chip,n) => sitesFrom c n 0 chip.chipCalls) ∧
      (final = fun k => base k +
        claimedOf k (callers.flatMap fun (c,chip,n) => sitesFrom c n 0 chip.chipCalls)) ∧
      ((∀ k, base k < usizeBound) → ∀ k, final k < usizeBound) := by
  induction callers generalizing base with
  | nil =>
    cases h
    exact ⟨trivial,by funext k; rw [flatMap_nil,claimedOf,claimed,Nat.add_zero],fun hb => hb⟩
  | cons caller rest ih =>
    obtain ⟨c,chip,n⟩ := caller
    simp only [claimAll,bind,Except.bind] at h
    cases hc : claimCalls c n 0 chip.chipCalls base with
    | error e =>
      rw [hc] at h
      cases h
    | ok mid =>
      rw [hc] at h
      obtain ⟨h1,rfl,h3⟩ := claimCalls_ok hc
      obtain ⟨g1,rfl,g3⟩ := ih h
      rw [flatMap_cons]
      refine ⟨(consecutiveFrom_append _ _ _ _ _).mpr ⟨h1,g1⟩,?_,fun hb => g3 (h3 hb)⟩
      funext k
      simp only [claimedOf,claimed_append,Nat.add_assoc]

theorem checkCounts_ok {nClaimed : ℕ → ℕ} {chips : List (EmbeddedConstraintSystem × ℕ)} :
    checkCounts nClaimed i chips = .ok () ↔
      ∀ j chip nActive, chips[j]? = some (chip,nActive) → nClaimed (i + j) = nActive := by
  induction chips generalizing i with
  | nil => simp only [checkCounts,getElem?_nil,reduceCtorEq,false_implies,implies_true]
  | cons head rest ih =>
    obtain ⟨chip,nActive⟩ := head
    rw [checkCounts]
    constructor
    · intro h j chip' n' hj
      split at h
      · cases h
      · rename_i hn
        cases j with
        | zero =>
          cases hj
          exact not_not.mp hn
        | succ j =>
          have := ih.mp h j chip' n' hj
          rwa [Nat.add_right_comm,Nat.add_assoc] at this
    · intro h
      have h0 := h 0 chip nActive rfl
      rw [Nat.add_zero] at h0
      rw [if_neg (not_not.mpr h0)]
      refine ih.mpr fun j chip' n' hj => ?_
      rw [Nat.add_right_comm,Nat.add_assoc]
      exact h (j + 1) chip' n' hj

/-- What instance validation says of the call sites and the declared counts. -/
structure InstancesValid (s : SystemM4) : Prop where
  consecutive : Consecutive (fun _ => 0) s.callSites
  counts : ∀ j chip nActive, s.chips[j]? = some (chip,nActive) →
    claimedOf j s.callSites = nActive
  fits : ∀ j, claimedOf j s.callSites < usizeBound

theorem claimCalls_complete
    (hc : Consecutive base (sitesFrom caller nActive i calls))
    (hb : ∀ k, base k + claimedOf k (sitesFrom caller nActive i calls) < usizeBound) :
    ∃ final, claimCalls caller nActive i calls base = .ok final := by
  induction calls generalizing i base with
  | nil => exact ⟨base,rfl⟩
  | cons call rest ih =>
    obtain ⟨hf,hc⟩ := hc
    simp only at hf hc
    have hlt : base call.chipId + nActive < usizeBound := by
      have := hb call.chipId
      simp only [sitesFrom,claimedOf,claimed,if_true] at this
      omega
    have ha := checkedAdd_eq_some.mpr ⟨hlt,rfl⟩
    obtain ⟨final,hfin⟩ := ih hc fun k => by
      have := hb k
      simp only [sitesFrom,claimedOf,claimed] at this ⊢
      omega
    refine ⟨final,?_⟩
    rw [claimCalls,if_neg (not_not.mpr hf),ha]
    simp only [update_add]
    exact hfin

theorem claimAll_complete {callers : List (Option ℕ × EmbeddedConstraintSystem × ℕ)}
    (hc : Consecutive base (callers.flatMap fun (c,chip,n) => sitesFrom c n 0 chip.chipCalls))
    (hb : ∀ k, base k + claimedOf k
      (callers.flatMap fun (c,chip,n) => sitesFrom c n 0 chip.chipCalls) < usizeBound) :
    ∃ final, claimAll callers base = .ok final := by
  induction callers generalizing base with
  | nil => exact ⟨base,rfl⟩
  | cons caller rest ih =>
    obtain ⟨c,chip,n⟩ := caller
    rw [flatMap_cons] at hc hb
    simp only [claimedOf,claimed_append] at hb
    obtain ⟨h1,h2⟩ := (consecutiveFrom_append _ _ _ _ _).mp hc
    obtain ⟨mid,hmid⟩ := claimCalls_complete h1 fun k => by
      have := hb k
      simp only [claimedOf]
      omega
    obtain ⟨-,rfl,-⟩ := claimCalls_ok hmid
    obtain ⟨final,hfin⟩ := ih h2 fun k => by
      have := hb k
      simp only [claimedOf]
      omega
    exact ⟨final,by simp only [claimAll,bind,Except.bind,hmid]; exact hfin⟩

theorem validateInstances_eq_ok :
    s.validateInstances = .ok () ↔ InstancesValid s := by
  constructor
  · intro h
    simp only [validateInstances,bind,Except.bind] at h
    cases hc : claimAll s.callers (fun _ => 0) with
    | error e =>
      rw [hc] at h
      cases h
    | ok final =>
      rw [hc] at h
      obtain ⟨h1,rfl,h3⟩ := claimAll_ok hc
      have hcount := checkCounts_ok.mp h
      refine ⟨h1,fun j chip n hj => ?_,fun j => ?_⟩
      · have hj' := hcount j chip n hj
        rw [Nat.zero_add,Nat.zero_add] at hj'
        exact hj'
      · exact (Nat.zero_add _).symm.trans_lt (h3 (fun _ => by decide) j)
  · intro h
    obtain ⟨final,hfin⟩ := claimAll_complete h.consecutive fun k => by
      rw [Nat.zero_add]
      exact h.fits k
    obtain ⟨-,rfl,-⟩ := claimAll_ok hfin
    simp only [validateInstances,bind,Except.bind,hfin]
    refine checkCounts_ok.mpr fun j chip n hj => ?_
    rw [Nat.zero_add,Nat.zero_add]
    exact h.counts j chip n hj

structure CallValid (s : SystemM4) (chipIndex : Option ℕ) (call : ChipCall) : Prop where
  callee : ∃ chip nActive, s.chips[call.chipId]? = some (chip,nActive) ∧
    call.inout.length ≤ chip.cs.nInout
  later : ∀ caller, chipIndex = some caller → caller < call.chipId

theorem validateCalls_eq_ok {chipIndex : Option ℕ}
    :
    s.validateCalls chipIndex i calls = .ok () ↔ ∀ call ∈ calls, CallValid s chipIndex call := by
  induction calls generalizing i with
  | nil => simp only [validateCalls,not_mem_nil,false_implies,implies_true]
  | cons call rest ih =>
    rw [validateCalls,forall_mem_cons]
    cases hs : s.chips[call.chipId]? with
    | none =>
      simp only [reduceCtorEq,false_iff]
      rintro ⟨⟨⟨chip,n,hc,-⟩,-⟩,-⟩
      rw [hs] at hc
      cases hc
    | some p =>
      obtain ⟨callee,n⟩ := p
      have hcallee : (∃ chip nActive, s.chips[call.chipId]? = some (chip,nActive) ∧
          call.inout.length ≤ chip.cs.nInout) ↔ call.inout.length ≤ callee.cs.nInout := by
        rw [hs]
        constructor
        · rintro ⟨chip,n',hc,hle⟩
          cases hc
          exact hle
        · exact fun hle => ⟨callee,n,rfl,hle⟩
      cases ho : chipIndex.filter (call.chipId ≤ ·) with
      | some caller =>
        rw [Option.filter_eq_some_iff,decide_eq_true_eq] at ho
        simp only [reduceCtorEq,false_iff]
        rintro ⟨hv,-⟩
        have := hv.later caller ho.1
        omega
      | none =>
        have hlater : ∀ caller, chipIndex = some caller → caller < call.chipId := by
          rintro caller rfl
          simp only [Option.filter_eq_none_iff,Option.some.injEq,decide_eq_true_eq,forall_eq',
            not_le] at ho
          exact ho
        simp only
        by_cases hlt : callee.cs.nInout < call.inout.length
        · simp only [hlt,if_true,reduceCtorEq,false_iff]
          rintro ⟨hv,-⟩
          have := hcallee.mp hv.callee
          omega
        · simp only [hlt,if_false,ih]
          exact ⟨fun h => ⟨⟨hcallee.mpr (by omega),hlater⟩,h⟩,fun h => h.2⟩

theorem validateCallOperands_eq_ok {cs : System} (callIndex i : ℕ) {operands : List Operand} :
    validateCallOperands cs callIndex i operands = .ok () ↔
      ∀ operand ∈ operands, ∀ t ∈ operand, WellFormedTerm cs t := by
  induction operands generalizing i with
  | nil => simp only [validateCallOperands,not_mem_nil,false_implies,implies_true]
  | cons operand rest ih =>
    rw [validateCallOperands,forall_mem_cons,← operandFault_eq_none]
    cases operandFault cs operand with
    | some source => simp only [reduceCtorEq,false_and]
    | none => simp only [ih,true_and]

theorem validateCallList_eq_ok {cs : System} :
    validateCallList cs i calls = .ok () ↔
      ∀ call ∈ calls, ∀ operand ∈ call.inout, ∀ t ∈ operand, WellFormedTerm cs t := by
  induction calls generalizing i with
  | nil => simp only [validateCallList,not_mem_nil,false_implies,implies_true]
  | cons call rest ih =>
    rw [validateCallList,forall_mem_cons,← validateCallOperands_eq_ok i 0]
    cases validateCallOperands cs i 0 call.inout with
    | error e => simp only [reduceCtorEq,false_and]
    | ok u => simp only [ih,true_and]

structure ChipValid (chip : EmbeddedConstraintSystem) : Prop where
  cs : chip.cs.validate = .ok ()
  operands : ∀ call ∈ chip.chipCalls, ∀ operand ∈ call.inout, ∀ t ∈ operand,
    WellFormedTerm chip.cs t

theorem chip_validate_eq_ok {chip : EmbeddedConstraintSystem} :
    chip.validate = .ok () ↔ ChipValid chip := by
  rw [EmbeddedConstraintSystem.validate,check_bind_ok,validateCallList_eq_ok]
  exact ⟨fun h => ⟨h.1,h.2⟩,fun h => ⟨h.cs,h.operands⟩⟩

theorem validateChips_eq_ok
    {chips : List (EmbeddedConstraintSystem × ℕ)} :
    s.validateChips i chips = .ok () ↔
      ∀ j chip nActive, chips[j]? = some (chip,nActive) →
        ChipValid chip ∧ ∀ call ∈ chip.chipCalls, CallValid s (some (i + j)) call := by
  induction chips generalizing i with
  | nil => simp only [validateChips,getElem?_nil,reduceCtorEq,false_implies,implies_true]
  | cons head rest ih =>
    obtain ⟨chip,nActive⟩ := head
    rw [validateChips,check_bind_ok,check_bind_ok,chip_validate_eq_ok,validateCalls_eq_ok,ih]
    constructor
    · rintro ⟨hc,hcalls,hrest⟩ j chip' n' hj
      cases j with
      | zero =>
        cases hj
        exact ⟨hc,hcalls⟩
      | succ j =>
        have := hrest j chip' n' hj
        rwa [Nat.add_right_comm,Nat.add_assoc] at this
    · intro h
      obtain ⟨hc,hcalls⟩ := h 0 chip nActive rfl
      refine ⟨hc,hcalls,fun j chip' n' hj => ?_⟩
      rw [Nat.add_right_comm,Nat.add_assoc]
      exact h (j + 1) chip' n' hj

structure Valid (s : SystemM4) : Prop where
  main : ChipValid s.main
  mainCalls : ∀ call ∈ s.main.chipCalls, CallValid s none call
  chips : ∀ j chip nActive, s.chips[j]? = some (chip,nActive) →
    ChipValid chip ∧ ∀ call ∈ chip.chipCalls, CallValid s (some j) call
  instances : InstancesValid s

theorem validate_eq_ok : s.validate = .ok () ↔ s.Valid := by
  simp only [validate,check_bind_ok,chip_validate_eq_ok,validateCalls_eq_ok,validateChips_eq_ok,
    validateInstances_eq_ok,Nat.zero_add]
  exact ⟨fun ⟨h1,h2,h3,h4⟩ => ⟨h1,h2,h3,h4⟩,fun h => ⟨h.main,h.mainCalls,h.chips,h.instances⟩⟩

theorem Valid.callee (h : s.Valid) (hs : site ∈ s.callSites) :
    ∃ chip nActive, s.chips[site.call.chipId]? = some (chip,nActive) := by
  have hcall : ∃ chipIndex, CallValid s chipIndex site.call := by
    rcases mem_callSites.mp hs with ⟨-,-,hm⟩ | ⟨i,chip,-,hc,hm⟩
    · exact ⟨none,h.mainCalls _ (mem_of_getElem? hm)⟩
    · exact ⟨some i,(h.chips i chip _ hc).2 _ (mem_of_getElem? hm)⟩
  obtain ⟨chipIndex,hv⟩ := hcall
  obtain ⟨chip,n,hc,-⟩ := hv.callee
  exact ⟨chip,n,hc⟩

end SystemM4

structure ChipInstances where
  nChips : ℕ
  nInstances : ℕ → ℕ
  /-- The value vector of one instance; a row past the table is a panic. -/
  instanceAt : ℕ → ℕ → Checked ValueVec

/-- Reason a witness fails to satisfy an M4 constraint system. -/
inductive VerificationM4Error where
  /-- The witness covers another number of chips. -/
  | wrongChipCount (nWitnessChips nChips : ℕ)
  /-- The main chip is not satisfied. -/
  | main (source : VerificationError)
  /-- A chip instance is not satisfied. -/
  | chipInstance (chipId row : ℕ) (source : VerificationError)
  /-- A chip has fewer instances than active ones. -/
  | missingInstances (chipId nInstances nActive : ℕ)
  /-- A call passes another word than its instance holds. -/
  | callMismatch (chipId row : ℕ) (caller : Option (ℕ × ℕ)) (callIndex word : ℕ)
      (passed served : Word)
deriving DecidableEq

def mapError {ε δ : Type} (f : ε → δ) (x : Checked (Except ε Unit)) :
    Checked (Except δ Unit) := do
  match ← x with
  | .error e => return .error (f e)
  | .ok () => return .ok ()

/-- Run one check per item, in order, up to the first failure. -/
def checkEach {α ε : Type} (check : α → Checked (Except ε Unit)) :
    List α → Checked (Except ε Unit)
  | [] => .ok (.ok ())
  | a :: as => andThen (check a) (checkEach check as)

def lookupChecked {α : Type} (p : Panic) (xs : List α) (i : ℕ) : Checked α :=
  match xs[i]? with
  | some a => .ok a
  | none => .error p

namespace SystemM4

def passedWord (values : ValueVec) (call : ChipCall) (word : ℕ) : Checked Word :=
  match call.inout[word]? with
  | some operand => evalOperandChecked values operand
  | none => .ok 0

def checkWord (values : ValueVec) (caller : Option (ℕ × ℕ)) (callIndex : ℕ) (call : ChipCall)
    (row : ℕ) (served : List Word) (word : ℕ) : Checked (Except VerificationM4Error Unit) := do
  let passed ← passedWord values call word
  let held ← lookupChecked .wordOutOfRange served word
  return if held ≠ passed then
    .error (.callMismatch call.chipId row caller callIndex word passed held) else .ok ()

def checkCall (s : SystemM4) (values : ValueVec) (instances : ChipInstances)
    (caller : Option (ℕ × ℕ)) (call : ChipCall) (callIndex : ℕ) :
    Checked (Except VerificationM4Error Unit) := do
  let callerInstance := (caller.map Prod.snd).getD 0
  let (chip,_) ← lookupChecked .chipOutOfRange s.chips call.chipId
  let row := call.firstInstance + callerInstance
  let held ← instances.instanceAt call.chipId row
  let served ← held.inoutChecked
  checkEach (checkWord values caller callIndex call row served) (range chip.cs.nInout)

def checkCaller (s : SystemM4) (caller : Option (ℕ × ℕ)) (calls : List ChipCall)
    (values : ValueVec) (instances : ChipInstances) : Checked (Except VerificationM4Error Unit) :=
  checkEach (fun (call,callIndex) => s.checkCall values instances caller call callIndex)
    calls.zipIdx

def checkInstances (instances : ChipInstances) (chip : EmbeddedConstraintSystem)
    (nActive chipId : ℕ) : Checked (Except VerificationM4Error Unit) :=
  if instances.nInstances chipId < nActive then
    .ok (.error (.missingInstances chipId (instances.nInstances chipId) nActive))
  else
    checkEach (fun row => do
      let values ← instances.instanceAt chipId row
      mapError (.chipInstance chipId row) (chip.cs.verify values))
      (range (instances.nInstances chipId))

def checkChipCalls (s : SystemM4) (instances : ChipInstances) (chip : EmbeddedConstraintSystem)
    (nActive chipId : ℕ) : Checked (Except VerificationM4Error Unit) :=
  checkEach (fun row => do
    let values ← instances.instanceAt chipId row
    s.checkCaller (some (chipId,row)) chip.chipCalls values instances) (range nActive)

/-- Check that a witness satisfies the system: main, every instance of every
chip, then every call against the instance it names. -/
def verify (s : SystemM4) (main : ValueVec) (instances : ChipInstances) :
    Checked (Except VerificationM4Error Unit) :=
  if instances.nChips ≠ s.chips.length then
    .ok (.error (.wrongChipCount instances.nChips s.chips.length))
  else
    andThen (mapError .main (s.main.cs.verify main)) <|
    andThen (checkEach (fun ((chip,nActive),chipId) => checkInstances instances chip nActive chipId)
      s.chips.zipIdx) <|
    andThen (s.checkCaller none s.main.chipCalls main instances) <|
    checkEach (fun ((chip,nActive),chipId) => s.checkChipCalls instances chip nActive chipId)
      s.chips.zipIdx

end SystemM4

section Avoidance

variable {ε δ α : Type} {p : Panic}

theorem avoids_andThen {x y : Checked (Except ε Unit)} (hx : Avoids p x) (hy : Avoids p y) :
    Avoids p (andThen x y) :=
  avoids_bind hx fun r _ => by
    cases r with
    | error e => exact avoids_ok _
    | ok u => exact hy

theorem avoids_mapError {f : ε → δ} {x : Checked (Except ε Unit)} (hx : Avoids p x) :
    Avoids p (mapError f x) :=
  avoids_bind hx fun r _ => by
    cases r with
    | error e => exact avoids_ok _
    | ok u => exact avoids_ok _

theorem avoids_checkEach {check : α → Checked (Except ε Unit)} {as : List α}
    (h : ∀ a ∈ as, Avoids p (check a)) : Avoids p (checkEach check as) := by
  induction as with
  | nil => exact avoids_ok _
  | cons a as ih =>
    rw [forall_mem_cons] at h
    exact avoids_andThen h.1 (ih h.2)

theorem avoids_lookupChecked {q : Panic} {xs : List α} {i : ℕ} (h : q ≠ p) :
    Avoids p (lookupChecked q xs i) := by
  unfold lookupChecked
  split
  · exact avoids_ok _
  · exact fun he => h (by cases he; rfl)

theorem evalOperandChecked_avoids (hw : p ≠ .wordOutOfRange) (hs : p ≠ .shiftOutOfWidth)
    (values : ValueVec) (operand : Operand) : Avoids p (evalOperandChecked values operand) := by
  have hread : ∀ v, Avoids p (values.read v) := fun v => by
    unfold ValueVec.read ValueVec.readOffset
    split
    · exact avoids_ok _
    · exact fun h => hw (by cases h; rfl)
  have happly : ∀ s w, Avoids p (applyChecked s w) := fun s w => by
    unfold applyChecked
    split
    · exact avoids_ok _
    · exact fun h => hs (by cases h; rfl)
  have hfold : ∀ acc, Avoids p (operand.foldlM (fun acc t => do
      let w ← evalTermChecked values t
      return acc ^^^ w) acc) := by
    induction operand with
    | nil => exact fun acc => avoids_ok acc
    | cons t rest ih =>
      intro acc
      rw [foldlM_cons]
      refine avoids_bind (avoids_bind ?_ fun w _ => avoids_ok _) fun acc' _ => ih acc'
      exact avoids_bind (hread _) fun w _ => avoids_bind (happly _ _) fun w' _ => happly _ _
  exact hfold 0

theorem verify_avoids (hw : p ≠ .wordOutOfRange) (hs : p ≠ .shiftOutOfWidth)
    (hv : p ≠ .valueIndexOutOfRange) (cs : System) (values : ValueVec) :
    Avoids p (cs.verify values) := by
  have heval := evalOperandChecked_avoids hw hs values
  have hall : ∀ {C : Type} {check : C → Checked (Except ConstraintViolation Unit)},
      (∀ c, Avoids p (check c)) → ∀ i cs, Avoids p (verifyAll check i cs) := by
    intro C check hc i cs
    induction cs generalizing i with
    | nil => exact avoids_ok _
    | cons c rest ih =>
      refine avoids_bind (hc c) fun r _ => ?_
      cases r with
      | error e => exact avoids_ok _
      | ok u => exact ih (i + 1)
  have hconst : ∀ i constants, Avoids p (verifyConstants values i constants) := by
    intro i constants
    induction constants generalizing i with
    | nil => exact avoids_ok _
    | cons c rest ih =>
      refine avoids_bind ?_ fun index _ => avoids_bind ?_ fun actual _ => ?_
      · unfold ValueIndex.new
        split
        · exact avoids_ok _
        · exact fun h => hv (by cases h; rfl)
      · unfold ValueVec.read ValueVec.readOffset
        split
        · exact avoids_ok _
        · exact fun h => hw (by cases h; rfl)
      · split
        · exact avoids_ok _
        · exact ih (i + 1)
  refine avoids_andThen (hconst 0 _) (avoids_andThen (hall (fun c => ?_) 0 _)
    (avoids_andThen (hall (fun c => ?_) 0 _) (avoids_andThen (hall (fun c => ?_) 0 _)
    (hall (fun c => ?_) 0 _))))
  · exact avoids_bind (heval _) fun _ _ => avoids_ok _
  · exact avoids_bind (heval _) fun _ _ => avoids_bind (heval _) fun _ _ =>
      avoids_bind (heval _) fun _ _ => avoids_ok _
  · exact avoids_bind (heval _) fun _ _ => avoids_bind (heval _) fun _ _ =>
      avoids_bind (heval _) fun _ _ => avoids_bind (heval _) fun _ _ => avoids_ok _
  · have helem : ∀ lo hi, Avoids p (evalElement values lo hi) := fun lo hi =>
      avoids_bind (heval _) fun _ _ => avoids_bind (heval _) fun _ _ => avoids_ok _
    exact avoids_bind (helem _ _) fun _ _ => avoids_bind (helem _ _) fun _ _ =>
      avoids_bind (helem _ _) fun _ _ => avoids_ok _

end Avoidance

namespace SystemM4

/-- The places at which one chip is called: a call site and an active instance
of its caller. -/
def callPlaces (s : SystemM4) (chip : ℕ) : Set (CallSite × ℕ) :=
  {p | p.1 ∈ s.callSites ∧ p.1.call.chipId = chip ∧ p.2 < p.1.nActive}

def rowOf (p : CallSite × ℕ) : ℕ := p.1.call.firstInstance + p.2

variable {s : SystemM4}

theorem Valid.rowOf_lt (h : s.Valid) {site : CallSite} (hs : site ∈ s.callSites)
    {i : ℕ} (hi : i < site.nActive) {chip : EmbeddedConstraintSystem} {nActive : ℕ}
    (hc : s.chips[site.call.chipId]? = some (chip,nActive)) : rowOf (site,i) < nActive := by
  have hle := first_add_count_le h.instances.consecutive hs
  have hn := h.instances.counts _ chip nActive hc
  simp only [rowOf] at hle ⊢
  simp only [claimedOf] at hn
  omega

theorem checkCaller_avoids {caller : Option (ℕ × ℕ)} {calls : List ChipCall}
    {values : ValueVec} {instances : ChipInstances}
    (hrow : ∀ call ∈ calls, Avoids .rowOutOfRange (instances.instanceAt call.chipId
      (call.firstInstance + (caller.map Prod.snd).getD 0))) :
    Avoids .rowOutOfRange (s.checkCaller caller calls values instances) := by
  refine avoids_checkEach fun p hp => ?_
  obtain ⟨call,j⟩ := p
  have hcall : call ∈ calls :=
    mem_of_getElem? (mem_zipIdx_iff_getElem?.mp hp)
  refine avoids_bind (avoids_lookupChecked (by decide)) fun q _ => avoids_bind (hrow call hcall)
    fun held _ => avoids_bind ?_ fun served _ => avoids_checkEach fun word _ => ?_
  · unfold ValueVec.inoutChecked
    split
    · exact avoids_ok _
    · exact nofun
  · refine avoids_bind ?_ fun passed _ => avoids_bind (avoids_lookupChecked (by decide)) fun w _ =>
      avoids_ok _
    unfold passedWord
    split
    · exact evalOperandChecked_avoids (by decide) (by decide) _ _
    · exact avoids_ok _

theorem verify_avoids_row (h : s.Valid) {main : ValueVec}
    {instances : ChipInstances}
    (hrows : ∀ chip row, row < instances.nInstances chip →
      Avoids .rowOutOfRange (instances.instanceAt chip row))
    (hcount : ∀ j chip nActive, s.chips[j]? = some (chip,nActive) →
      nActive ≤ instances.nInstances j) :
    Avoids .rowOutOfRange (s.verify main instances) := by
  have hsite : ∀ site ∈ s.callSites, ∀ i < site.nActive,
      Avoids .rowOutOfRange (instances.instanceAt site.call.chipId
        (site.call.firstInstance + i)) := by
    intro site hs i hi
    obtain ⟨chip,n,hc⟩ := h.callee hs
    exact hrows _ _ ((h.rowOf_lt hs hi hc).trans_le (hcount _ chip n hc))
  unfold verify
  split
  · exact avoids_ok _
  refine avoids_andThen (avoids_mapError (verify_avoids (by decide) (by decide) (by decide) _ _))
    (avoids_andThen (avoids_checkEach fun p hp => ?_)
    (avoids_andThen (checkCaller_avoids fun call hcall => ?_) (avoids_checkEach fun p hp => ?_)))
  · obtain ⟨⟨chip,n⟩,j⟩ := p
    simp only [checkInstances]
    split
    · exact avoids_ok _
    · exact avoids_checkEach fun row hr => avoids_bind (hrows _ _ (mem_range.mp hr))
        fun values _ => avoids_mapError (verify_avoids (by decide) (by decide) (by decide) _ _)
  · obtain ⟨k,hk⟩ := getElem?_of_mem hcall
    exact hsite ⟨none,k,call,1⟩ (mem_callSites.mpr (Or.inl ⟨rfl,rfl,hk⟩)) 0 Nat.one_pos
  · obtain ⟨⟨chip,n⟩,j⟩ := p
    have hj := mem_zipIdx_iff_getElem?.mp hp
    refine avoids_checkEach fun row hr => ?_
    rw [mem_range] at hr
    refine avoids_bind (hrows _ _ (hr.trans_le (hcount j chip n hj))) fun values _ =>
      checkCaller_avoids fun call hcall => ?_
    obtain ⟨k,hk⟩ := getElem?_of_mem hcall
    exact hsite ⟨some j,k,call,n⟩ (mem_callSites.mpr (Or.inr ⟨j,chip,rfl,hj,hk⟩)) row hr

/-- On every system that validates, the calls of a chip and the active instances
of their callers correspond one to one to the chip's active instances, no total
or offset outgrows the machine integer, and every row a call names is inside a
table with the validated number of instances. -/
theorem call_bookkeeping {s : SystemM4} (hv : s.validate = .ok ()) :
    (∀ j chip nActive, s.chips[j]? = some (chip,nActive) →
      Set.BijOn rowOf (s.callPlaces j) (Set.Iio nActive)) ∧
    (∀ site ∈ s.callSites,
      site.call.firstInstance + site.nActive ≤ claimedOf site.call.chipId s.callSites) ∧
    (∀ j, claimedOf j s.callSites < usizeBound) ∧
    (∀ j chip nActive, s.chips[j]? = some (chip,nActive) →
      nActive = claimedOf j s.callSites) ∧
    ∀ (main : ValueVec) (instances : ChipInstances),
      (∀ chip row, row < instances.nInstances chip →
        Avoids .rowOutOfRange (instances.instanceAt chip row)) →
      (∀ j chip nActive, s.chips[j]? = some (chip,nActive) →
        nActive ≤ instances.nInstances j) →
      (∀ p : CallSite × ℕ, p ∈ s.callPlaces p.1.call.chipId →
        rowOf p < instances.nInstances p.1.call.chipId) ∧
      Avoids .rowOutOfRange (s.verify main instances) := by
  have h := validate_eq_ok.mp hv
  refine ⟨fun j chip n hj => ?_,fun site hs => ?_,h.instances.fits,
    fun j chip n hj => (h.instances.counts j chip n hj).symm,
    fun main instances hrows hcount => ⟨fun p hp => ?_,verify_avoids_row h hrows hcount⟩⟩
  · have hb := bijOn_places h.instances.consecutive j
    rw [← h.instances.counts j chip n hj]
    exact hb
  · have hle := first_add_count_le h.instances.consecutive hs
    rwa [Nat.zero_add] at hle
  · obtain ⟨site,i⟩ := p
    obtain ⟨hs,-,hi⟩ := hp
    obtain ⟨chip,n,hc⟩ := h.callee hs
    exact (h.rowOf_lt hs hi hc).trans_le (hcount _ chip n hc)

def bareChip (calls : List ChipCall) : EmbeddedConstraintSystem :=
  ⟨⟨[],1,0,[],[],[],[]⟩,calls⟩

/-- Main calls both chips, the first twice; the first chip calls the second twice. -/
def fanSystem : SystemM4 where
  main := bareChip [⟨0,0,[]⟩,⟨1,0,[]⟩,⟨0,1,[]⟩]
  chips := [(bareChip [⟨1,1,[]⟩,⟨1,3,[]⟩],2),(bareChip [],5)]

/-- The five invocations of the second chip fill its five instances. -/
theorem call_bookkeeping_fan : Set.BijOn rowOf (fanSystem.callPlaces 1) (Set.Iio 5) :=
  (call_bookkeeping (s := fanSystem) (by decide)).1 1 (bareChip []) 5 rfl

end SystemM4

end Binius64.ChipSystem
