import Binius64.BignumReduction
import Binius64.ByteVectors
import Binius64.Multiplexers
import Binius64.RunLayout

/-!
# Winternitz chains on a hinted list

A verifier walks each chain from its digit to the end.
-/

namespace Binius64.Wots

open MachineWord (Word loHalf isMsbTrue)
open WordGates ByteVectors CheckedRun Bignum Multiplexers RunLayout List

/-- The number of chains. -/
def v : ℕ := 42

/-- The bits of a digit. -/
def w : ℕ := 3

def chainLength : ℕ := 2 ^ w

def numChainHashes : ℕ := 99

def targetSum : ℕ := v * (chainLength - 1) - numChainHashes

def tweakTypeChain : ℕ := 0

def tweakTypeEncoding : ℕ := 3

abbrev Digest := Word × Word

def digestWords (d : Digest) : List Word := [d.1,d.2]

/-- A tweak hash: public parameter, type, sub-position, index, and the words of the payload. -/
abbrev TweakHash := Digest → ℕ → BitVec 32 → BitVec 32 → List Word → Digest

variable (tweakHash : TweakHash) (publicParam : Digest)

def circuitTweakHash (tweakType : ℕ) (subPosition index : Word) (payload : List Word) : Digest :=
  tweakHash publicParam tweakType (loHalf subPosition) (loHalf index) payload

def chainStep (epoch : BitVec 32) (chainIndex step : ℕ) (x : Digest) : Digest :=
  tweakHash publicParam tweakTypeChain (BitVec.ofNat 32 (chainIndex * chainLength + step)) epoch (digestWords x)

def iterateHash (a : Digest) (n : ℕ) (epoch : BitVec 32) (chainIndex startStep : ℕ) : Digest :=
  (range n).foldl (fun acc j => chainStep tweakHash publicParam epoch chainIndex (startStep + j) acc) a

def recoverPublicKey (chainTips : ℕ → Digest) (encoding : ℕ → ℕ) (epoch : BitVec 32) : List Digest :=
  (range v).map fun i =>
    iterateHash tweakHash publicParam (chainTips i) (chainLength - 1 - encoding i) epoch i (encoding i)

def circuitWotsEncode (epoch : Word) (message randomness : List Word) : Gadget (ℕ → Word) := do
  let digest := circuitTweakHash tweakHash publicParam tweakTypeEncoding 0 epoch (message ++ randomness)
  assertZero "encoding_leftover_bit[0]" (shr digest.1 63)
  assertZero "encoding_leftover_bit[1]" (shr digest.2 63)
  let digits : ℕ → Word := fun i =>
    let word := if i / (v / 2) = 0 then digest.1 else digest.2
    let shift := w * (i % (v / 2))
    shr (shl word (64 - shift - w)) (64 - w)
  let sum := (range v).foldl (fun acc i => iadd acc (digits i)) 0
  assertEq "encoding_target_sum" sum (BitVec.ofNat 64 targetSum)
  return digits

/-- An entry of the list: the input of a hash, its chain, the hashes done before it, and the digit. -/
structure Entry where
  input : Digest
  chain : Word
  step : Word
  digit : Word

def Entry.words (e : Entry) : List Word := [e.input.1,e.input.2,e.chain,e.step,e.digit]

def Entry.ofWords (hinted : List Word) (k : ℕ) : Entry where
  input := (hinted.getD (k * 5) 0,hinted.getD (k * 5 + 1) 0)
  chain := hinted.getD (k * 5 + 2) 0
  step := hinted.getD (k * 5 + 3) 0
  digit := hinted.getD (k * 5 + 4) 0

/-- What the hint has written: entries, and where each chain's last one sits. -/
structure Written where
  hashes : List Entry
  offsets : List Word

/-- The tail of one chain, unless the list is full. -/
def writeChain (epoch : BitVec 32) (i digit : ℕ) (tip : Digest) (written : Written) : Written :=
  ((range (chainLength - 1 - digit)).foldl (fun state step =>
    if state.2.hashes.length = numChainHashes then state
    else
      (chainStep tweakHash publicParam epoch i (digit + step) state.1,
        ⟨state.2.hashes ++ [⟨state.1,BitVec.ofNat 64 i,BitVec.ofNat 64 step,BitVec.ofNat 64 digit⟩],
          state.2.offsets.set i (BitVec.ofNat 64 state.2.hashes.length)⟩)) (tip,written)).2

/-- The hint: the tails of all chains, then the place of each chain's last entry. -/
def chainHashesHint (_dimensions : List ℕ) (inputs : List Word) : Gadget (List Word) :=
  let publicParam := (inputs.getD 0 0,inputs.getD 1 0)
  let epoch := loHalf (inputs.getD 2 0)
  let written := (range v).foldl (fun written i =>
    writeChain tweakHash publicParam epoch i (inputs.getD (3 + i) 0).toNat
      (inputs.getD (3 + v + 2 * i) 0,inputs.getD (3 + v + 2 * i + 1) 0) written) ⟨[],replicate v 0⟩
  .ok (written.hashes.flatMap Entry.words ++
    replicate ((numChainHashes - written.hashes.length) * 5) 0 ++ written.offsets)

def hashEntry (epoch : Word) (e : Entry) : Digest :=
  circuitTweakHash tweakHash publicParam tweakTypeChain (bxor (shl e.chain w) (iadd e.digit e.step)) epoch
    (digestWords e.input)

def checkEntry (epoch : Word) (entry : ℕ → Entry) : ℕ → Gadget Unit
  | 0 => assertEq "first_step_is_zero" (entry 0).step 0
  | previous + 1 => do
    let before := entry previous
    let e := entry (previous + 1)
    let continues := icmpEq e.chain before.chain
    let opens := bnot continues
    assertTrue "chain_non_decreasing" (bnot (icmpUlt e.chain before.chain))
    let nextStep := iadd before.step 1
    assertEq "step_advances" (select continues e.step nextStep) nextStep
    assertEq "digit_holds" (select continues e.digit before.digit) before.digit
    let carried := hashEntry tweakHash publicParam epoch before
    assertEq "input_continues[0]" (select continues e.input.1 carried.1) carried.1
    assertEq "input_continues[1]" (select continues e.input.2 carried.2) carried.2
    assertEq "opens_at_zero" (select opens e.step 0) 0

/-- The first place where the last entry of a chain can sit. -/
def earliest (i : ℕ) : ℕ := numChainHashes - (v - i) * (chainLength - 1)

/-- The last place where the last entry of a chain can sit. -/
def latest (i : ℕ) : ℕ := min ((i + 1) * (chainLength - 1) - 1) (numChainHashes - 1)

def chainEnd (epoch : Word) (chainTips : ℕ → Digest) (digits : ℕ → Word) (entry : ℕ → Entry)
    (offset : ℕ → Word) (i : ℕ) : Gadget Digest := do
  let rows := (range (latest i + 1 - earliest i)).map fun j =>
    let e := entry (earliest i + j)
    let output := hashEntry tweakHash publicParam epoch e
    [e.chain,e.step,e.digit,output.1,output.2]
  let index := (isubBinBout (offset i) (BitVec.ofNat 64 (earliest i)) 0).1
  let found ← multiWireMultiplex rows index
  let walks := bnot (icmpEq (digits i) (BitVec.ofNat 64 (chainLength - 1)))
  let expectedChain := BitVec.ofNat 64 i
  assertEq "chain_is_this_one" (select walks (found.getD 0 0) expectedChain) expectedChain
  assertEq "digit_is_the_encoding" (select walks (found.getD 2 0) (digits i)) (digits i)
  let lastPosition := BitVec.ofNat 64 (chainLength - 2)
  let position := iadd (found.getD 2 0) (found.getD 1 0)
  assertEq "ends_at_the_last_position" (select walks position lastPosition) lastPosition
  return (select walks (found.getD 3 0) (chainTips i).1,select walks (found.getD 4 0) (chainTips i).2)

/-- Walks every chain from its tip to its end, on a hinted list of the hashes. -/
def circuitRecoverPublicKey (advice : Advice) (epoch : Word) (chainTips : ℕ → Digest)
    (digits : ℕ → Word) : Gadget (List Digest) := do
  let hinted ← callHint advice (2 + 1 + v + v * 2) (numChainHashes * 5 + v) []
    (digestWords publicParam ++ [epoch] ++ (range v).map digits ++
      (range v).flatMap fun i => digestWords (chainTips i))
  let entry := Entry.ofWords hinted
  (range numChainHashes).forM (checkEntry tweakHash publicParam epoch entry)
  (range v).mapM (chainEnd tweakHash publicParam epoch chainTips digits entry fun i =>
    hinted.getD (numChainHashes * 5 + i) 0)

theorem iadd_eq (x y : Word) : iadd x y = x + y := by
  have h : iadd x y = x + y + 0#64 := rfl
  rw [h,BitVec.add_zero]

theorem select_left_eq {cond t f : Word} : select cond t f = f ↔ (isMsbTrue cond = true → t = f) := by
  cases h : isMsbTrue cond with
  | true => rw [select_of_true h]; exact ⟨fun heq _ => heq,fun himp => himp rfl⟩
  | false => rw [select_of_false h]; exact ⟨fun _ => nofun,fun _ => rfl⟩

theorem and_then_eq_ok {ε β : Type} {x : Except ε Unit} {y : Except ε β} {b : β} :
    (x >>= fun _ => y) = .ok b ↔ x = .ok () ∧ y = .ok b := by
  rw [bind_eq_ok]
  exact ⟨fun ⟨_,hx,hy⟩ => ⟨hx,hy⟩,fun ⟨hx,hy⟩ => ⟨(),hx,hy⟩⟩

theorem sum_digits {digits : ℕ → Word} (h : ∀ i, (digits i).toNat ≤ 7) {n : ℕ} (hn : n ≤ 42) :
    ((range n).foldl (fun acc i => iadd acc (digits i)) 0).toNat =
      start (fun i => (digits i).toNat) n := by
  induction n with
  | zero => rfl
  | succ n ih =>
    have hbound := start_le_add h 0 n
    have hlast := h n
    rw [Nat.zero_add,start] at hbound
    rw [range_succ,foldl_append,foldl_cons,foldl_nil,iadd_eq,BitVec.toNat_add,
      ih (by omega),start]
    exact Nat.mod_eq_of_lt (by omega)

variable {tweakHash publicParam}

theorem circuitWotsEncode_spec {epoch : Word} {message randomness : List Word} {digits : ℕ → Word}
    (h : circuitWotsEncode tweakHash publicParam epoch message randomness = .ok digits) :
    (∀ i, (digits i).toNat ≤ 7) ∧ start (fun i => 7 - (digits i).toNat) v = numChainHashes := by
  rw [circuitWotsEncode] at h
  obtain ⟨-,h⟩ := and_then_eq_ok.mp h
  obtain ⟨-,h⟩ := and_then_eq_ok.mp h
  obtain ⟨hsum,h⟩ := and_then_eq_ok.mp h
  rw [pure_eq_ok] at h
  rw [h,assertEq_eq_ok] at hsum
  have hle (i : ℕ) : (digits i).toNat ≤ 7 := by
    have hlt (x : Word) : (shr x (64 - w)).toNat < 8 := by
      have hx := x.isLt
      rw [toNat_shr,w]
      omega
    rw [← h]
    exact Nat.le_of_lt_succ (hlt _)
  have htarget := congrArg BitVec.toNat hsum
  rw [sum_digits hle (Nat.le_refl v)] at htarget
  have hleft := start_sub_add hle v
  have hvalue : (BitVec.ofNat 64 targetSum).toNat = 195 := by decide
  have hconst : v * 7 = 294 := rfl
  have hlist : numChainHashes = 99 := rfl
  exact ⟨hle,by omega⟩

section Entries

variable {epoch : Word}

/-- The rules between neighbours: chains go up, and an entry continues the run before it or opens one
at step zero. -/
def Linked (tweakHash : TweakHash) (publicParam : Digest) (epoch : Word) (before e : Entry) : Prop :=
  before.chain.toNat ≤ e.chain.toNat ∧
  (e.chain = before.chain → e.step = iadd before.step 1 ∧ e.digit = before.digit ∧
    e.input = hashEntry tweakHash publicParam epoch before) ∧
  (e.chain ≠ before.chain → e.step = 0)

theorem checkEntry_zero {entry : ℕ → Entry} :
    checkEntry tweakHash publicParam epoch entry 0 = .ok () ↔ (entry 0).step = 0 :=
  assertEq_eq_ok

theorem checkEntry_succ {entry : ℕ → Entry} {k : ℕ} :
    checkEntry tweakHash publicParam epoch entry (k + 1) = .ok () ↔
      Linked tweakHash publicParam epoch (entry k) (entry (k + 1)) := by
  rw [checkEntry]
  dsimp only
  rw [and_then_eq_ok,and_then_eq_ok,and_then_eq_ok,and_then_eq_ok,and_then_eq_ok,assertTrue_eq_ok,
    assertEq_eq_ok,assertEq_eq_ok,assertEq_eq_ok,assertEq_eq_ok,assertEq_eq_ok,select_left_eq,
    select_left_eq,select_left_eq,select_left_eq,select_left_eq,isMsbTrue_bnot,isMsbTrue_bnot,
    isMsbTrue_icmpEq,isMsbTrue_icmpUlt,decide_eq_true_eq,Bool.not_eq_true',Bool.not_eq_true',
    decide_eq_false_iff_not,decide_eq_false_iff_not,Nat.not_lt]
  constructor
  · rintro ⟨hchain,hstep,hdigit,hfst,hsnd,hopen⟩
    exact ⟨hchain,fun heq => ⟨hstep heq,hdigit heq,Prod.ext (hfst heq) (hsnd heq)⟩,hopen⟩
  · rintro ⟨hchain,hsame,hopen⟩
    exact ⟨hchain,fun heq => (hsame heq).1,fun heq => (hsame heq).2.1,
      fun heq => congrArg Prod.fst (hsame heq).2.2,fun heq => congrArg Prod.snd (hsame heq).2.2,hopen⟩

theorem position_eq {i d s : ℕ} (hi : i < v) (h : d + s < 8) :
    loHalf (bxor (shl (BitVec.ofNat 64 i) w) (iadd (BitVec.ofNat 64 d) (BitVec.ofNat 64 s))) =
      BitVec.ofNat 32 (i * chainLength + (d + s)) := by
  have hall : ∀ (i : Fin 42) (p : Fin 8), loHalf (bxor (shl (BitVec.ofNat 64 i) 3) (BitVec.ofNat 64 p)) =
      BitVec.ofNat 32 (i * 8 + p) := by decide
  rw [iadd_eq,← BitVec.ofNat_add]
  exact hall ⟨i,hi⟩ ⟨d + s,h⟩

theorem hashEntry_eq {e : Entry} {i d s : ℕ} (hi : i < v) (h : d + s < 8)
    (hchain : e.chain = BitVec.ofNat 64 i) (hstep : e.step = BitVec.ofNat 64 s)
    (hdigit : e.digit = BitVec.ofNat 64 d) :
    hashEntry tweakHash publicParam epoch e =
      chainStep tweakHash publicParam (loHalf epoch) i (d + s) e.input := by
  rw [hashEntry,circuitTweakHash,hchain,hstep,hdigit,position_eq hi h]
  rfl

theorem iterateHash_succ (x : Digest) (n : ℕ) (e : BitVec 32) (i d : ℕ) :
    iterateHash tweakHash publicParam x (n + 1) e i d =
      chainStep tweakHash publicParam e i (d + n) (iterateHash tweakHash publicParam x n e i d) := by
  rw [iterateHash,range_succ,foldl_append]
  rfl

theorem walk_of_linked {entry : ℕ → Entry} {n : ℕ} (hzero : (entry 0).step = 0)
    (hlinked : ∀ k, k + 1 < n → Linked tweakHash publicParam epoch (entry k) (entry (k + 1)))
    {i d s k : ℕ} (hi : i < v) (hk : k < n) (hs : d + s < 8)
    (hchain : (entry k).chain = BitVec.ofNat 64 i) (hdigit : (entry k).digit = BitVec.ofNat 64 d)
    (hstep : (entry k).step = BitVec.ofNat 64 s) :
    ∃ x, hashEntry tweakHash publicParam epoch (entry k) =
      iterateHash tweakHash publicParam x (s + 1) (loHalf epoch) i d := by
  rw [hashEntry_eq hi hs hchain hstep hdigit]
  -- Induction on the step: the entry before a later step is the step before it in the same chain.
  induction s generalizing k with
  | zero => exact ⟨(entry k).input,by rw [iterateHash_succ]; rfl⟩
  | succ s ih =>
    have hpos : (entry k).step ≠ 0 := by
      rw [hstep]
      intro heq
      have hnat := congrArg BitVec.toNat heq
      rw [toNat_const (by omega)] at hnat
      exact Nat.succ_ne_zero s hnat
    cases k with
    | zero => exact absurd hzero hpos
    | succ k =>
      obtain ⟨-,hsame,hopen⟩ := hlinked k hk
      by_cases heq : (entry (k + 1)).chain = (entry k).chain
      · obtain ⟨hnext,hholds,hinput⟩ := hsame heq
        have hbefore : (entry k).step = BitVec.ofNat 64 s := by
          rw [hstep,iadd_eq,BitVec.ofNat_add] at hnext
          exact (add_right_cancel hnext).symm
        obtain ⟨x,hx⟩ := ih (by omega) (by omega) (heq ▸ hchain) (hholds ▸ hdigit) hbefore
        refine ⟨x,?_⟩
        rw [iterateHash_succ,hinput,
          hashEntry_eq hi (by omega) (heq ▸ hchain) hbefore (hholds ▸ hdigit),hx]
      · exact absurd (hopen heq) hpos

end Entries

section Ends

variable (tweakHash publicParam) (epoch : Word) (chainTips : ℕ → Digest) (digits : ℕ → Word)
  (entry : ℕ → Entry) (offset : ℕ → Word)

theorem earliest_le_latest {i : ℕ} (hi : i < v) : earliest i ≤ latest i := by
  have hall : ∀ i : Fin 42, earliest i ≤ latest i := by decide
  exact hall ⟨i,hi⟩

theorem latest_lt (i : ℕ) : latest i < numChainHashes :=
  lt_of_le_of_lt (Nat.min_le_right _ _) (by decide)

theorem chainEnd_eq_ok {i : ℕ} (hi : i < v) : ∃ k, k < numChainHashes ∧
    (∀ m, offset i = BitVec.ofNat 64 m → earliest i ≤ m → m ≤ latest i → k = m) ∧
    ∀ d, chainEnd tweakHash publicParam epoch chainTips digits entry offset i = .ok d ↔
      (digits i ≠ 7 → (entry k).chain = BitVec.ofNat 64 i ∧ (entry k).digit = digits i ∧
        (entry k).digit + (entry k).step = 6) ∧
      (if digits i = 7 then chainTips i else hashEntry tweakHash publicParam epoch (entry k)) = d := by
  have hwindow := earliest_le_latest hi
  have hlast := latest_lt i
  have hlist : numChainHashes = 99 := rfl
  obtain ⟨j,hj,hfound,hsel⟩ := multiWireMultiplex_picks (n := 5)
    ((range (latest i + 1 - earliest i)).map fun j =>
      [(entry (earliest i + j)).chain,(entry (earliest i + j)).step,(entry (earliest i + j)).digit,
        (hashEntry tweakHash publicParam epoch (entry (earliest i + j))).1,
        (hashEntry tweakHash publicParam epoch (entry (earliest i + j))).2])
    (isubBinBout (offset i) (BitVec.ofNat 64 (earliest i)) 0).1 (by
      rw [length_map,length_range]; omega) (by rw [length_map,length_range]; omega)
    (by decide) (by simp)
  rw [length_map,length_range] at hj hsel
  rw [getD_eq_getElem?_getD,getElem?_map,getElem?_range hj,Option.map_some,Option.getD_some] at hfound
  refine ⟨earliest i + j,by omega,fun m hm hlow hhigh => ?_,fun d => ?_⟩
  · have hsub := isubBinBout_value (offset i) (BitVec.ofNat 64 (earliest i)) 0
    have hlt := (isubBinBout (offset i) (BitVec.ofNat 64 (earliest i)) 0).1.isLt
    rw [hm,toNat_const (by omega),toNat_const (by omega),flag_zero,← hm] at hsub
    have hplace := hsel (by omega)
    omega
  · have hwalks : isMsbTrue (bnot (icmpEq (digits i) (BitVec.ofNat 64 (chainLength - 1)))) =
        decide (digits i ≠ 7) := by
      rw [isMsbTrue_bnot,isMsbTrue_icmpEq,decide_not]
      rfl
    rw [chainEnd]
    dsimp only
    rw [hfound,ok_bind,and_then_eq_ok,and_then_eq_ok,and_then_eq_ok,assertEq_eq_ok,assertEq_eq_ok,assertEq_eq_ok,select_left_eq,
      select_left_eq,select_left_eq,pure_eq_ok,hwalks,decide_eq_true_eq,select,select,hwalks,iadd_eq]
    by_cases heq : digits i = 7
    · rw [if_pos heq,decide_eq_false (not_not_intro heq),if_neg Bool.false_ne_true,if_neg Bool.false_ne_true]
      exact ⟨fun h => ⟨fun hne => absurd heq hne,h.2.2.2⟩,
        fun h => ⟨fun hne => absurd heq hne,fun hne => absurd heq hne,fun hne => absurd heq hne,h.2⟩⟩
    · rw [if_neg heq,decide_eq_true heq,if_pos rfl,if_pos rfl]
      exact ⟨fun h => ⟨fun hne => ⟨h.1 hne,h.2.1 hne,h.2.2.1 hne⟩,h.2.2.2⟩,
        fun h => ⟨fun hne => (h.1 hne).1,fun hne => (h.1 hne).2.1,fun hne => (h.1 hne).2.2,h.2⟩⟩

end Ends

theorem circuitRecoverPublicKey_sound {advice : Advice} {epoch : Word} {chainTips : ℕ → Digest}
    {digits : ℕ → Word} {ends : List Digest}
    (h : circuitRecoverPublicKey tweakHash publicParam advice epoch chainTips digits = .ok ends) :
    ends.length = v ∧ ∀ i < v,
      ((digits i).toNat < chainLength - 1 → ∃ x, ends[i]? = some
        (iterateHash tweakHash publicParam x (chainLength - 1 - (digits i).toNat) (loHalf epoch) i (digits i).toNat)) ∧
      ((digits i).toNat = chainLength - 1 → ends[i]? = some (chainTips i)) := by
  rw [circuitRecoverPublicKey] at h
  obtain ⟨hinted,-,h⟩ := bind_eq_ok.mp h
  dsimp only at h
  obtain ⟨hlist,hends⟩ := and_then_eq_ok.mp h
  rw [forM_eq_ok] at hlist
  have hzero := checkEntry_zero.mp (hlist 0 (mem_range.mpr (by decide)))
  have hlinked (k : ℕ) (hk : k + 1 < numChainHashes) :=
    checkEntry_succ.mp (hlist (k + 1) (mem_range.mpr hk))
  obtain ⟨hlen,hget⟩ := mapM_getElem hends
  rw [length_range] at hlen
  refine ⟨hlen,fun i hi => ?_⟩
  obtain ⟨y,hy,hat⟩ := hget i (by rwa [length_range])
  obtain ⟨k,hk,-,hend⟩ := chainEnd_eq_ok tweakHash publicParam epoch chainTips digits (Entry.ofWords hinted)
    (fun i => hinted.getD (numChainHashes * 5 + i) 0) hi
  rw [getElem_range,hend] at hy
  obtain ⟨hwalks,rfl⟩ := hy
  have hseven : digits i = 7 ↔ (digits i).toNat = 7 := BitVec.toNat_inj.symm
  refine ⟨fun hlt => ?_,fun heq => by rw [hat,if_pos (hseven.mpr heq)]⟩
  have hne : digits i ≠ 7 := fun heq => Nat.ne_of_lt hlt (hseven.mp heq)
  obtain ⟨hchain,hdigit,hsum⟩ := hwalks hne
  have hof : digits i = BitVec.ofNat 64 (digits i).toNat := by
    rw [BitVec.ofNat_toNat,BitVec.setWidth_eq]
  have hle : (digits i).toNat ≤ 6 := Nat.le_of_lt_succ hlt
  have hstep : ((Entry.ofWords hinted k).step) = BitVec.ofNat 64 (6 - (digits i).toNat) := by
    have hsix : (6 : Word) = BitVec.ofNat 64 (digits i).toNat + BitVec.ofNat 64 (6 - (digits i).toNat) := by
      rw [← BitVec.ofNat_add,Nat.add_sub_of_le hle]
      rfl
    rw [hdigit,hsix,← hof] at hsum
    exact add_left_cancel hsum
  obtain ⟨x,hx⟩ := walk_of_linked hzero hlinked hi hk (by omega) hchain (hdigit.trans hof) hstep
  have hcount : 6 - (digits i).toNat + 1 = chainLength - 1 - (digits i).toNat := by
    have hseven : chainLength - 1 = 7 := rfl
    omega
  refine ⟨x,?_⟩
  rw [hat,if_neg hne,hx,hcount]

section Hint

variable (tweakHash publicParam) in
def tailEntry (epoch : BitVec 32) (i digit : ℕ) (tip : Digest) (s : ℕ) : Entry where
  input := iterateHash tweakHash publicParam tip s epoch i digit
  chain := BitVec.ofNat 64 i
  step := BitVec.ofNat 64 s
  digit := BitVec.ofNat 64 digit

variable (tweakHash publicParam) in
def chainTail (epoch : BitVec 32) (i digit : ℕ) (tip : Digest) (n : ℕ) : List Entry :=
  (range n).map (tailEntry tweakHash publicParam epoch i digit tip)

variable (tweakHash publicParam) in
@[simp] theorem length_chainTail (epoch : BitVec 32) (i digit : ℕ) (tip : Digest) (n : ℕ) :
    (chainTail tweakHash publicParam epoch i digit tip n).length = n := by
  rw [chainTail,length_map,length_range]

theorem chainTail_succ (epoch : BitVec 32) (i digit : ℕ) (tip : Digest) (n : ℕ) :
    chainTail tweakHash publicParam epoch i digit tip (n + 1) =
      chainTail tweakHash publicParam epoch i digit tip n ++
        [tailEntry tweakHash publicParam epoch i digit tip n] := by
  rw [chainTail,range_succ,map_append]
  rfl

theorem writeChain_eq {epoch : BitVec 32} {i digit : ℕ} {tip : Digest} {written : Written}
    (h : written.hashes.length + (chainLength - 1 - digit) ≤ numChainHashes) :
    writeChain tweakHash publicParam epoch i digit tip written =
      ⟨written.hashes ++ chainTail tweakHash publicParam epoch i digit tip (chainLength - 1 - digit),
        if 0 < chainLength - 1 - digit then written.offsets.set i
          (BitVec.ofNat 64 (written.hashes.length + (chainLength - 1 - digit) - 1)) else written.offsets⟩ := by
  rw [writeChain]
  -- The state of the walk is the last hash and what has been written up to it.
  suffices hall : ∀ n, written.hashes.length + n ≤ numChainHashes → (range n).foldl _ (tip,written) =
      (iterateHash tweakHash publicParam tip n epoch i digit,
        (⟨written.hashes ++ chainTail tweakHash publicParam epoch i digit tip n,if 0 < n then
          written.offsets.set i (BitVec.ofNat 64 (written.hashes.length + n - 1)) else written.offsets⟩ : Written)) by
    rw [hall _ h]
  intro n hn
  induction n with
  | zero =>
    rw [if_neg (Nat.lt_irrefl 0),chainTail,range_zero,map_nil,append_nil]
    rfl
  | succ n ih =>
    have hroom : ¬written.hashes.length + n = numChainHashes := by omega
    have hset (c : Prop) [Decidable c] (a b : Word) :
        (if c then written.offsets.set i a else written.offsets).set i b = written.offsets.set i b := by
      split
      · exact set_set ..
      · rfl
    rw [range_succ,foldl_append,ih (by omega),foldl_cons,foldl_nil]
    dsimp only
    rw [length_append,length_chainTail,if_neg hroom,iterateHash_succ,hset,if_pos (Nat.succ_pos n),
      chainTail_succ,append_assoc]
    rfl

variable {d : ℕ → ℕ} {tips : ℕ → Digest}

variable (tweakHash publicParam) in
theorem exists_written (epoch : BitVec 32) (tips : ℕ → Digest)
    (hstart : start (fun i => chainLength - 1 - d i) v = numChainHashes) {n : ℕ} (hn : n ≤ v) :
    ∃ offsets : List Word, (range n).foldl (fun written i =>
        writeChain tweakHash publicParam epoch i (d i) (tips i) written) ⟨[],replicate v 0⟩ =
        ⟨flat (fun i => chainTail tweakHash publicParam epoch i (d i) (tips i) (chainLength - 1 - d i)) n,offsets⟩ ∧
      offsets.length = v ∧ ∀ i < n, 0 < chainLength - 1 - d i →
        offsets.getD i 0 = BitVec.ofNat 64 (start (fun i => chainLength - 1 - d i) (i + 1) - 1) := by
  induction n with
  | zero => exact ⟨replicate v 0,rfl,length_replicate,nofun⟩
  | succ n ih =>
    obtain ⟨offsets,hfold,hlen,hget⟩ := ih (by omega)
    have hsize := length_flat (fun i => length_chainTail tweakHash publicParam epoch i (d i) (tips i)
      (chainLength - 1 - d i)) n
    have hend := start_mono (fun i => chainLength - 1 - d i) hn
    rw [hstart] at hend
    refine ⟨_,by rw [range_succ,foldl_append,hfold,foldl_cons,foldl_nil,
      writeChain_eq (by rw [hsize]; exact hend),flat_succ],?_,fun i hi hwalks => ?_⟩
    · split
      · rw [length_set,hlen]
      · exact hlen
    · dsimp only
      rw [hsize]
      by_cases heq : i = n
      · subst heq
        rw [if_pos hwalks,getD_eq_getElem?_getD,getElem?_set_self (by omega)]
        rfl
      · have hold := hget i (by omega) hwalks
        split
        · rw [getD_eq_getElem?_getD,getElem?_set_ne (Ne.symm heq),← getD_eq_getElem?_getD,hold]
        · exact hold

theorem hint_inputs (publicParam : Digest) (epoch : Word) (digits : ℕ → Word) (chainTips : ℕ → Digest) {i : ℕ}
    (hi : i < v) :
    let inputs := digestWords publicParam ++ [epoch] ++ (range v).map digits ++
      (range v).flatMap fun i => digestWords (chainTips i)
    inputs.getD (3 + i) 0 = digits i ∧
      (inputs.getD (3 + v + 2 * i) 0,inputs.getD (3 + v + 2 * i + 1) 0) = chainTips i := by
  have hleft : (digestWords publicParam ++ [epoch] ++ (range v).map digits).length = 3 + v := by
    rw [length_append,length_map,length_range]
    rfl
  have htip (r : ℕ) (hr : r < 2) : (digestWords publicParam ++ [epoch] ++ (range v).map digits ++
      (range v).flatMap fun i => digestWords (chainTips i)).getD (3 + v + 2 * i + r) 0 =
      (digestWords (chainTips i)).getD r 0 := by
    have hplace : 3 + v + 2 * i + r - (3 + v) = i * 2 + r := by omega
    rw [getD_append_right _ _ _ _ (by rw [hleft]; omega),hleft,hplace,
      flatMap_getD (m := 2) (fun _ => rfl) (by rwa [length_range]) hr,getElem_range]
  refine ⟨?_,Prod.ext (htip 0 (by decide)) (htip 1 (by decide))⟩
  rw [getD_append _ _ _ _ (by rw [hleft]; omega),getD_append_right _ _ _ _ (Nat.le_add_right 3 i),
    getD_eq_getElem?_getD,getElem?_map]
  have hplace : 3 + i - (digestWords publicParam ++ [epoch]).length = i := Nat.add_sub_cancel_left 3 i
  rw [hplace,getElem?_range hi]
  rfl

theorem length_words (e : Entry) : e.words.length = 5 := rfl

theorem ofWords_eq {hashes : List Entry} {offsets : List Word} {k : ℕ} (hk : k < hashes.length) :
    Entry.ofWords (hashes.flatMap Entry.words ++ offsets) k = hashes[k] := by
  have hget (r : ℕ) (hr : r < 5) :
      (hashes.flatMap Entry.words ++ offsets).getD (k * 5 + r) 0 = hashes[k].words.getD r 0 := by
    rw [getD_append _ _ _ _ (by rw [length_flatMap length_words]; omega),flatMap_getD length_words hk hr]
  have hfirst := hget 0 (by decide)
  rw [Nat.add_zero] at hfirst
  rw [Entry.ofWords,hfirst,hget 1 (by decide),hget 2 (by decide),hget 3 (by decide),hget 4 (by decide)]
  rfl

variable (tweakHash publicParam) in
theorem exists_chainHashesHint (epoch : Word) (chainTips : ℕ → Digest) {digits : ℕ → Word}
    (hstart : start (fun i => chainLength - 1 - (digits i).toNat) v = numChainHashes) :
    ∃ offsets : List Word, chainHashesHint tweakHash [] (digestWords publicParam ++ [epoch] ++
        (range v).map digits ++ (range v).flatMap fun i => digestWords (chainTips i)) =
        .ok ((flat (fun i => chainTail tweakHash publicParam (loHalf epoch) i (digits i).toNat (chainTips i)
          (chainLength - 1 - (digits i).toNat)) v).flatMap Entry.words ++ offsets) ∧
      offsets.length = v ∧ ∀ i < v, 0 < chainLength - 1 - (digits i).toNat → offsets.getD i 0 =
        BitVec.ofNat 64 (start (fun i => chainLength - 1 - (digits i).toNat) (i + 1) - 1) := by
  obtain ⟨offsets,hfold,hlen,hget⟩ := exists_written tweakHash publicParam (loHalf epoch) chainTips hstart
    (Nat.le_refl v)
  have hsize := length_flat (fun i => length_chainTail tweakHash publicParam (loHalf epoch) i (digits i).toNat
    (chainTips i) (chainLength - 1 - (digits i).toNat)) v
  refine ⟨offsets,?_,hlen,hget⟩
  rw [chainHashesHint,foldl_ext _ (fun written i => writeChain tweakHash publicParam (loHalf epoch) i (digits i).toNat
    (chainTips i) written) _ fun written i hi => by
      obtain ⟨hdigit,htip⟩ := hint_inputs publicParam epoch digits chainTips (mem_range.mp hi)
      rw [hdigit,htip]
      rfl,hfold,hsize,hstart,Nat.sub_self,Nat.zero_mul,replicate_zero,append_nil]

section Honest

variable {epoch : Word} {entry : ℕ → Entry}
  (hentry : ∀ i < v, ∀ s < chainLength - 1 - d i, entry (start (fun i => chainLength - 1 - d i) i + s) =
    tailEntry tweakHash publicParam (loHalf epoch) i (d i) (tips i) s)
include hentry

theorem hashEntry_honest {i s : ℕ} (hi : i < v) (hs : s < chainLength - 1 - d i) :
    hashEntry tweakHash publicParam epoch (entry (start (fun i => chainLength - 1 - d i) i + s)) =
      iterateHash tweakHash publicParam (tips i) (s + 1) (loHalf epoch) i (d i) := by
  have hseven : chainLength - 1 = 7 := rfl
  rw [hentry i hi s hs,iterateHash_succ]
  exact hashEntry_eq hi (by omega) rfl rfl rfl

theorem linked_honest {k : ℕ} (hk : k + 1 < start (fun i => chainLength - 1 - d i) v) :
    Linked tweakHash publicParam epoch (entry k) (entry (k + 1)) := by
  obtain ⟨i,hi,s,hs,heq⟩ := exists_run hk
  cases s with
  | succ s =>
    have hbefore : k = start (fun i => chainLength - 1 - d i) i + s := Nat.succ.inj heq
    have hoff : s < chainLength - 1 - d i := Nat.lt_of_succ_lt hs
    have hout := hashEntry_honest hentry hi hoff
    rw [hbefore,Nat.add_assoc,Linked,hout,hentry i hi (s + 1) hs,hentry i hi s hoff,iadd_eq]
    exact ⟨Nat.le_refl _,fun _ => ⟨BitVec.ofNat_add s 1,rfl,rfl⟩,fun hne => absurd rfl hne⟩
  | zero =>
    obtain ⟨j,hj,t,ht,hbefore⟩ := exists_run (Nat.lt_of_succ_lt hk)
    have hlt : j < i := by
      by_contra hge
      have hmono := start_mono (fun i => chainLength - 1 - d i) (Nat.le_of_not_lt hge)
      omega
    have hv : v = 42 := rfl
    have hne : BitVec.ofNat 64 i ≠ BitVec.ofNat 64 j := by
      intro h
      have hnat := congrArg BitVec.toNat h
      rw [toNat_const (by omega),toNat_const (by omega)] at hnat
      omega
    rw [heq,hbefore,hentry i hi 0 hs,hentry j hj t ht]
    refine ⟨?_,fun h => absurd h hne,fun _ => rfl⟩
    rw [tailEntry,tailEntry,toNat_const (by omega),toNat_const (by omega)]
    exact hlt.le

end Honest

end Hint

theorem last_in_window {d : ℕ → ℕ} (hstart : start (fun i => chainLength - 1 - d i) v = numChainHashes) {i : ℕ}
    (hi : i < v) (hwalks : 0 < chainLength - 1 - d i) :
    earliest i ≤ start (fun i => chainLength - 1 - d i) (i + 1) - 1 ∧
      start (fun i => chainLength - 1 - d i) (i + 1) - 1 ≤ latest i := by
  have hmax (i : ℕ) : chainLength - 1 - d i ≤ 7 := Nat.sub_le _ _
  have hbefore := start_le_add hmax 0 (i + 1)
  have hbehind := start_le_add hmax i (v - i)
  have hend := start_mono (fun i => chainLength - 1 - d i) (show i + 1 ≤ v from hi)
  have hlist : numChainHashes = 99 := rfl
  have hearliest : earliest i = 99 - (v - i) * 7 := rfl
  have hlatest : latest i = min ((i + 1) * 7 - 1) 98 := rfl
  rw [Nat.zero_add,start] at hbefore
  rw [Nat.add_sub_of_le hi.le,hstart] at hbehind
  rw [hstart] at hend
  rw [hearliest,hlatest,Nat.le_min]
  rw [start] at hbefore hend ⊢
  omega

theorem circuitRecoverPublicKey_complete {advice : Advice} (hadvice : advice.Follows (chainHashesHint tweakHash))
    {epoch : Word} {chainTips : ℕ → Digest} {digits : ℕ → Word} (hdigits : ∀ i, (digits i).toNat ≤ 7)
    (hstart : start (fun i => chainLength - 1 - (digits i).toNat) v = numChainHashes) :
    circuitRecoverPublicKey tweakHash publicParam advice epoch chainTips digits =
      .ok (recoverPublicKey tweakHash publicParam chainTips (fun i => (digits i).toNat) (loHalf epoch)) := by
  have hseven : chainLength - 1 = 7 := rfl
  have hv : v = 42 := rfl
  have hlist : numChainHashes = 99 := rfl
  have hlen (i : ℕ) := length_chainTail tweakHash publicParam (loHalf epoch) i
    (digits i).toNat (chainTips i) (chainLength - 1 - (digits i).toNat)
  have hsize := length_flat hlen v
  have hwords := length_flatMap length_words (flat (fun i => chainTail tweakHash publicParam (loHalf epoch) i
    (digits i).toNat (chainTips i) (chainLength - 1 - (digits i).toNat)) v)
  obtain ⟨offsets,hhint,hoffsets,hplace⟩ := exists_chainHashesHint tweakHash publicParam epoch chainTips hstart
  obtain ⟨hinted,hcall,-,hhonest⟩ := callHint_ok advice (2 + 1 + v + v * 2) (numChainHashes * 5 + v) []
    (digestWords publicParam ++ [epoch] ++ (range v).map digits ++
      (range v).flatMap fun i => digestWords (chainTips i)) (by decide) (by decide) (by decide) nofun (by
        rw [length_append,length_flatMap (m := 2) fun _ => rfl]
        rfl)
  have heq := hhonest _ _ hadvice hhint (by rw [length_append,hwords,hsize,hstart,hoffsets])
  have hentry (i : ℕ) (hi : i < v) (s : ℕ) (hs : s < chainLength - 1 - (digits i).toNat) :
      Entry.ofWords hinted (start (fun i => chainLength - 1 - (digits i).toNat) i + s) =
        tailEntry tweakHash publicParam (loHalf epoch) i (digits i).toNat (chainTips i) s := by
    have hend := start_mono (fun i => chainLength - 1 - (digits i).toNat) (Nat.succ_le_of_lt hi)
    have hcell := flat_getD hlen hi hs ⟨(0,0),0,0,0⟩
    rw [start] at hend
    rw [getD_eq_getElem _ _ (by omega),chainTail,getD_eq_getElem _ _ (by
      rwa [length_map,length_range]),getElem_map,getElem_range] at hcell
    rw [heq,ofWords_eq (by omega),hcell]
  rw [circuitRecoverPublicKey,hcall,ok_bind]
  dsimp only
  have hchecks : (range numChainHashes).forM
      (checkEntry tweakHash publicParam epoch (Entry.ofWords hinted)) = .ok () := by
    refine forM_eq_ok.mpr fun k hk => ?_
    have hlt := mem_range.mp hk
    cases k with
    | zero =>
      obtain ⟨i,hi,s,hs,hzero⟩ := exists_run (hstart.symm ▸ hlt)
      have hs0 : s = 0 := (Nat.add_eq_zero_iff.mp hzero.symm).2
      rw [checkEntry_zero,hzero,hentry i hi s hs,hs0]
      rfl
    | succ k => exact checkEntry_succ.mpr (linked_honest hentry (hstart.symm ▸ hlt))
  rw [hchecks,ok_bind]
  refine mapM_eq_map fun i hi => ?_
  have hlt := mem_range.mp hi
  obtain ⟨k,-,hat,hend⟩ := chainEnd_eq_ok tweakHash publicParam epoch chainTips digits (Entry.ofWords hinted)
    (fun i => hinted.getD (numChainHashes * 5 + i) 0) hlt
  have hof : digits i = BitVec.ofNat 64 (digits i).toNat := by
    rw [BitVec.ofNat_toNat,BitVec.setWidth_eq]
  rw [hend]
  by_cases hlast : digits i = 7
  · refine ⟨fun hne => absurd hlast hne,?_⟩
    have hdigit : (digits i).toNat = 7 := congrArg BitVec.toNat hlast
    rw [if_pos hlast]
    dsimp only
    rw [hdigit]
    rfl
  · have hdigit : (digits i).toNat ≤ 6 := by
      have hle := hdigits i
      have hne : (digits i).toNat ≠ 7 := fun h => hlast (BitVec.toNat_inj.mp h)
      omega
    have hs : 6 - (digits i).toNat < chainLength - 1 - (digits i).toNat := by omega
    have hwalks : 0 < chainLength - 1 - (digits i).toNat := by omega
    obtain ⟨hlow,hhigh⟩ := last_in_window hstart hlt hwalks
    have hk := hat _ (by
      rw [heq,getD_append_right _ _ _ _ (by omega),hwords,hsize,hstart,Nat.add_sub_cancel_left]
      exact hplace i hlt hwalks) hlow hhigh
    have hlastEntry : start (fun i => chainLength - 1 - (digits i).toNat) (i + 1) - 1 =
        start (fun i => chainLength - 1 - (digits i).toNat) i + (6 - (digits i).toNat) := by
      rw [start]
      omega
    have hcount : 6 - (digits i).toNat + 1 = chainLength - 1 - (digits i).toNat := by omega
    rw [if_neg hlast,hk,hlastEntry,hashEntry_honest hentry hlt hs,hentry i hlt _ hs,hcount]
    refine ⟨fun _ => ⟨rfl,hof.symm,?_⟩,rfl⟩
    have hsix : BitVec.ofNat 64 (digits i).toNat + BitVec.ofNat 64 (6 - (digits i).toNat) = 6 := by
      rw [← BitVec.ofNat_add,Nat.add_sub_of_le hdigit]
      rfl
    exact hsix

/-- On accepted digits, whatever satisfies the list gadget ends walks from the digits where there is
one to make and returns the tips elsewhere, and the list of the hint satisfies it for all tips and
returns the recovered public key. -/
theorem wots_chains_exact {tweakHash : TweakHash} {publicParam : Digest} {epoch : Word}
    {message randomness : List Word} {digits : ℕ → Word}
    (hencode : circuitWotsEncode tweakHash publicParam epoch message randomness = .ok digits)
    (chainTips : ℕ → Digest) :
    (∀ (advice : Advice) (ends : List Digest),
      circuitRecoverPublicKey tweakHash publicParam advice epoch chainTips digits = .ok ends →
      ends.length = v ∧ ∀ i < v,
        ((digits i).toNat < chainLength - 1 → ∃ x, ends[i]? = some (iterateHash tweakHash publicParam x
          (chainLength - 1 - (digits i).toNat) (loHalf epoch) i (digits i).toNat)) ∧
        ((digits i).toNat = chainLength - 1 → ends[i]? = some (chainTips i))) ∧
    (∀ i, (digits i).toNat ≤ chainLength - 1) ∧
    ∀ advice : Advice, advice.Follows (chainHashesHint tweakHash) →
      circuitRecoverPublicKey tweakHash publicParam advice epoch chainTips digits =
        .ok (recoverPublicKey tweakHash publicParam chainTips (fun i => (digits i).toNat) (loHalf epoch)) := by
  obtain ⟨hdigits,hstart⟩ := circuitWotsEncode_spec hencode
  exact ⟨fun advice ends => circuitRecoverPublicKey_sound,hdigits,
    fun advice hadvice => circuitRecoverPublicKey_complete hadvice hdigits hstart⟩

def sevensHash : TweakHash := fun _ _ _ _ _ => (0x7fffffffffffffff,0x1bffff)

def sevensDigits : ℕ → Word := fun i =>
  shr (shl (if i / (v / 2) = 0 then 0x7fffffffffffffff else 0x1bffff) (64 - w * (i % (v / 2)) - w)) (64 - w)

theorem sevensHash_accepted :
    circuitWotsEncode sevensHash (0,0) 5 [1,2,3,4] [5,6] = .ok sevensDigits := by
  have hfirst : shr (0x7fffffffffffffff : Word) 63 = 0 := by decide
  have hsecond : shr (0x1bffff : Word) 63 = 0 := by decide
  have hsum : (range v).foldl (fun acc i => iadd acc (sevensDigits i)) 0 = BitVec.ofNat 64 targetSum := by
    decide +kernel
  rw [circuitWotsEncode]
  exact and_then_eq_ok.mpr ⟨assertZero_eq_ok.mpr hfirst,and_then_eq_ok.mpr ⟨assertZero_eq_ok.mpr hsecond,
    and_then_eq_ok.mpr ⟨assertEq_eq_ok.mpr hsum,rfl⟩⟩⟩

theorem wots_chains_exact_sevens :
    circuitRecoverPublicKey sevensHash (0,0) (Advice.honest (chainHashesHint sevensHash)) 5
      (fun i => (BitVec.ofNat 64 i,0)) sevensDigits =
      .ok (recoverPublicKey sevensHash (0,0) (fun i => (BitVec.ofNat 64 i,0)) (fun i => (sevensDigits i).toNat) 5) :=
  (wots_chains_exact sevensHash_accepted _).2.2 _ (Advice.honest_follows _)

end Binius64.Wots
