import Binius64.TwiddleContexts

/-!
# Walks over a subspace

A walk is asked for the next element, for one some places ahead, or for the number of elements left.
-/

namespace Binius64.Ntt

open CheckedRun SubspacePolynomials List

inductive WalkCall where
  | next
  | nth (n : ℕ)
  | len

inductive WalkReply (F : Type) where
  | element (x : Option F)
  | count (n : ℕ)

variable {F : Type}

def WalkCall.reply (ahead : List F) : WalkCall → WalkReply F × List F
  | .next => (.element ahead.head?,ahead.tail)
  | .nth n => (.element (ahead.drop n).head?,(ahead.drop n).tail)
  | .len => (.count ahead.length,ahead)

def listReplies (ahead : List F) : List WalkCall → List (WalkReply F)
  | [] => []
  | call :: calls => (call.reply ahead).1 :: listReplies (call.reply ahead).2 calls

namespace BinarySubspaceIterator

variable [Field F]

/-- Skip some elements, and take the one there; past the end the walk is over. -/
def nth (n : ℕ) (it : BinarySubspaceIterator F) :
    Except AssertFailure (Option F × BinarySubspaceIterator F) :=
  let newIndex := it.idx + n
  if newIndex < 2 ^ usizeBits ∧ newIndex < 1 <<< it.basis.length then
    advance {it with idx := newIndex,next := some (elementAt it.basis newIndex)}
  else
    advance {it with idx := 1 <<< it.basis.length,next := none}

/-- One call. -/
def step (it : BinarySubspaceIterator F) :
    WalkCall → Except AssertFailure (WalkReply F × BinarySubspaceIterator F)
  | .next => do
    let (x,it) ← it.advance
    return (.element x,it)
  | .nth n => do
    let (x,it) ← it.nth n
    return (.element x,it)
  | .len => return (.count it.len,it)

def replies : BinarySubspaceIterator F → List WalkCall → Except AssertFailure (List (WalkReply F))
  | _,[] => return []
  | it,call :: calls => do
    let (reply,it) ← it.step call
    return reply :: (← it.replies calls)

/-- The elements from an index on. -/
def ahead (basis : List F) (n : ℕ) : List F :=
  ((range (2 ^ basis.length)).map (elementAt basis)).drop n

variable {basis : List F} {n : ℕ}

theorem length_ahead : (ahead basis n).length = 2 ^ basis.length - n := by
  rw [ahead,length_drop,length_map,length_range]

theorem head?_ahead :
    (ahead basis n).head? = if n < 2 ^ basis.length then some (subsetSum basis n) else none := by
  rw [ahead,head?_drop,getElem?_map]
  split
  · rw [getElem?_range ‹_›,Option.map_some,elementAt_eq]
  · rw [getElem?_eq_none (by rw [length_range]; omega)]
    rfl

theorem drop_ahead (k : ℕ) : (ahead basis n).drop k = ahead basis (n + k) := drop_drop

theorem ahead_end : ahead basis (2 ^ basis.length) = [] := by
  rw [←length_eq_zero_iff,length_ahead,Nat.sub_self]

theorem advance_ahead (hbasis : basis.length < usizeBits) (hn : n ≤ 2 ^ basis.length) :
    ∃ m ≤ 2 ^ basis.length, (at_ basis n).advance = .ok ((ahead basis n).head?,at_ basis m) ∧
      ahead basis m = (ahead basis n).tail := by
  by_cases hlt : n < 2 ^ basis.length
  · refine ⟨n + 1,hlt,?_,?_⟩
    · rw [advance_at hbasis hlt,head?_ahead,if_pos hlt]
    · rw [←drop_one,drop_ahead]
  · have hend : n = 2 ^ basis.length := by omega
    have hnext : (at_ basis n).next = none := if_neg hlt
    refine ⟨n,hn,?_,?_⟩
    · rw [head?_ahead,if_neg hlt,advance,hnext]
      rfl
    · rw [hend,ahead_end]
      rfl

theorem step_ahead (hbasis : basis.length < usizeBits) (hn : n ≤ 2 ^ basis.length)
    (call : WalkCall) : ∃ m ≤ 2 ^ basis.length,
      (at_ basis n).step call = .ok ((call.reply (ahead basis n)).1,at_ basis m) ∧
      ahead basis m = (call.reply (ahead basis n)).2 := by
  cases call with
  | next =>
    obtain ⟨m,hm,hadvance,hahead⟩ := advance_ahead hbasis hn
    refine ⟨m,hm,?_,hahead⟩
    rw [step,hadvance]
    rfl
  | nth k =>
    have hroom : 2 ^ basis.length < 2 ^ usizeBits := Nat.pow_lt_pow_right (by decide) hbasis
    by_cases hin : n + k < 2 ^ basis.length
    · obtain ⟨m,hm,hadvance,hahead⟩ := advance_ahead hbasis hin.le
      have hjump : (at_ basis n).idx + k < 2 ^ usizeBits ∧
          (at_ basis n).idx + k < 1 <<< (at_ basis n).basis.length := by
        rw [Nat.one_shiftLeft]
        exact ⟨hin.trans hroom,hin⟩
      have hnth : (at_ basis n).nth k = (at_ basis (n + k)).advance := by
        refine (if_pos hjump).trans ?_
        rw [at_,at_,if_pos hin,elementAt_eq]
      refine ⟨m,hm,?_,by rw [hahead,←drop_ahead]; rfl⟩
      rw [step,hnth,hadvance,←drop_ahead]
      rfl
    · obtain ⟨m,hm,hadvance,hahead⟩ := advance_ahead hbasis (Nat.le_refl (2 ^ basis.length))
      have hpast : (ahead basis n).drop k = ahead basis (2 ^ basis.length) := by
        rw [ahead_end,drop_ahead,←length_eq_zero_iff,length_ahead]
        omega
      have hjump : ¬((at_ basis n).idx + k < 2 ^ usizeBits ∧
          (at_ basis n).idx + k < 1 <<< (at_ basis n).basis.length) := by
        rw [Nat.one_shiftLeft]
        exact fun h => hin h.2
      have hnth : (at_ basis n).nth k = (at_ basis (2 ^ basis.length)).advance := by
        refine (if_neg hjump).trans ?_
        rw [at_,at_,if_neg (lt_irrefl _),Nat.one_shiftLeft]
      refine ⟨m,hm,?_,by rw [hahead,←hpast]; rfl⟩
      rw [step,hnth,hadvance,←hpast]
      rfl
  | len =>
    refine ⟨n,hn,?_,rfl⟩
    have hlen : (at_ basis n).len = (ahead basis n).length := by
      rw [length_ahead,len,at_,Nat.one_shiftLeft]
    rw [step,hlen]
    rfl

theorem replies_ahead (hbasis : basis.length < usizeBits) (hn : n ≤ 2 ^ basis.length)
    (calls : List WalkCall) :
    (at_ basis n).replies calls = .ok (listReplies (ahead basis n) calls) := by
  induction calls generalizing n with
  | nil => rfl
  | cons call calls ih =>
    obtain ⟨m,hm,hstep,hahead⟩ := step_ahead hbasis hn call
    rw [replies,hstep,ok_bind]
    change ((at_ basis m).replies calls >>= fun rest => pure (_ :: rest)) = _
    rw [ih hm,listReplies,hahead]
    rfl

end BinarySubspaceIterator

variable [Field F]

theorem walks_exact (subspace : BinarySubspace F) (calls : List WalkCall) :
    ∃ elements : List F, (range (2 ^ subspace.dim)).mapM subspace.get = .ok elements ∧
      (BinarySubspaceIterator.new subspace.basis >>= fun it => it.replies calls) =
        if subspace.dim < usizeBits then .ok (listReplies elements calls) else .error .failed := by
  refine ⟨(range (2 ^ subspace.dim)).map (elementAt subspace.basis),?_,?_⟩
  · refine mapM_eq_map fun i hi => ?_
    have hi : i < 1 <<< subspace.dim := by rwa [Nat.one_shiftLeft,←mem_range]
    rw [BinarySubspace.get,require_true hi]
    rfl
  · rw [BinarySubspaceIterator.new]
    by_cases hdim : subspace.dim < usizeBits
    · have hstart : (⟨subspace.basis,0,some 0⟩ : BinarySubspaceIterator F) =
          .at_ subspace.basis 0 := by
        rw [BinarySubspaceIterator.at_,if_pos (Nat.two_pow_pos _),subsetSum_zero]
      rw [require_true (show subspace.basis.length < usizeBits from hdim),if_pos hdim]
      change (⟨subspace.basis,0,some 0⟩ : BinarySubspaceIterator F).replies calls = _
      rw [hstart,BinarySubspaceIterator.replies_ahead hdim (Nat.zero_le _)]
      rfl
    · have hstop : require (subspace.basis.length < usizeBits) = .error .failed := if_neg hdim
      rw [if_neg hdim,hstop]
      rfl

end Binius64.Ntt
