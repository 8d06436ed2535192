import Binius64.EqualityTensor
import Binius64.EventCoverage
import Binius64.GhashRing
import Mathlib.Data.Nat.Size

/-!
# Columns anchored by powers of a challenge

One functional of a column, its inner product with the powers of a challenge, is computed in four
places.
-/

namespace Binius64.SortedRam

open MachineWord WordGates GhashField Finset EqualityTensor
open List (foldl_append foldl_cons foldl_nil getD_cons_succ getD_eq_getElem?_getD length_cons
  length_map length_replicate range_succ replicate)

/-- The columns of the memory rows, in the order of their claims. -/
inductive Column where
  | addr
  | val
  | ts
  | kind

def Column.read : Column → Visit → Word
  | addr, r => r.addr
  | val, r => r.val
  | ts, r => r.ts
  | kind, r => r.kind

/-- The instruction that ends a run; instructions are padded with it. -/
def ecall : Word := 0x73

def padSlot (mp : ℕ) : Word := (1 : Word) <<< mp - 1

/-- A product of two elements on wires. -/
def bmul (x y : Word × Word) : Word × Word := ghashMul x.1 x.2 y.1 y.2

/-- A sum of two elements on wires. -/
def bxorPair (x y : Word × Word) : Word × Word := (bxor x.1 y.1,bxor x.2 y.2)

/-- The circuit's running sums over the memory columns. -/
structure MemoryDots where
  acc : Column → Word × Word
  pw : Word × Word
  pwOff : Word × Word

/-- One row of each side. -/
def memoryRound (chi : Word × Word) (s d : List Visit) (dots : MemoryDots) (j : ℕ) : MemoryDots :=
  let acc := fun c => bxorPair (dots.acc c) (bmul ((s.map (Column.read c)).getD j 0,0) dots.pw)
  let pw := bmul chi dots.pw
  let acc := fun c => bxorPair (acc c) (bmul ((d.map (Column.read c)).getD j 0,0) dots.pwOff)
  ⟨acc,pw,bmul chi dots.pwOff⟩

def circuitMemory (chi : Word × Word) (s d : List Visit) (ts : ℕ) : MemoryDots :=
  (List.range ts).foldl (memoryRound chi s d)
    ⟨fun _ => (0,0),(1,0),(List.range ts).foldl (fun pwOff _ => bmul chi pwOff) (1,0)⟩

/-- The circuit's running sums over the fetch columns. -/
structure FetchDots where
  accInst : Word × Word
  accPc : Word × Word
  pwi : Word × Word

/-- The slot a program counter names, on wires. -/
def pcSlot (pc : Word) : Word := band (WordGates.srl32 pc 2) 0xffff

/-- One row of the fetch columns; rows past the cycles are padded. -/
def fetchRound (chi : Word × Word) (inst pc : List Word) (mp : ℕ) (dots : FetchDots) (j : ℕ) : FetchDots :=
  let iv := inst.getD j ecall
  let pv := (pc.map pcSlot).getD j (padSlot mp)
  ⟨bxorPair dots.accInst (bmul (iv,0) dots.pwi),bxorPair dots.accPc (bmul (pv,0) dots.pwi),
    bmul chi dots.pwi⟩

def circuitFetch (chi : Word × Word) (inst pc : List Word) (mp total : ℕ) : FetchDots :=
  (List.range total).foldl (fetchRound chi inst pc mp) ⟨(0,0),(0,0),(1,0)⟩

def circuitDots (chi : Word × Word) (s d : List Visit) (inst pc : List Word) (ts mp total : ℕ) :
    List Word :=
  let memory := circuitMemory chi s d ts
  let fetch := circuitFetch chi inst pc mp total
  [memory.acc .addr,memory.acc .val,memory.acc .ts,memory.acc .kind,fetch.accInst,fetch.accPc].flatMap
    fun w => [w.1,w.2]

/-- One row of each side. -/
def dot128Round (s d : List Word) (chi : Ghash128b) (state : Ghash128b × Ghash128b × Ghash128b) (j : ℕ) :
    Ghash128b × Ghash128b × Ghash128b :=
  let (acc,pw,pwOff) := state
  let acc := acc + pw * ofWord (s.getD j 0)
  let pw := pw * chi
  let acc := acc + pwOff * ofWord (d.getD j 0)
  (acc,pw,pwOff * chi)

/-- The sum over a memory column. -/
def dot128Mem (s d : List Word) (chi : Ghash128b) (ts : ℕ) : Ghash128b :=
  ((List.range ts).foldl (dot128Round s d chi)
    (0,1,(List.range ts).foldl (fun pwOff _ => pwOff * chi) 1)).1

def paddedRound (col : List Word) (pad : Word) (chi : Ghash128b) (state : Ghash128b × Ghash128b) (j : ℕ) :
    Ghash128b × Ghash128b :=
  let (acc,pw) := state
  (acc + pw * ofWord (col.getD j pad),pw * chi)

def dot128Padded (col : List Word) (pad : Word) (chi : Ghash128b) (total : ℕ) : Ghash128b :=
  ((List.range total).foldl (paddedRound col pad chi) (0,1)).1

def dotWordsFrom (sorted side : List Visit) (chi : Ghash128b) (ts liPow2 : ℕ) (colInst colPc : List Word)
    (instPad pcPad : Word) : List Word :=
  let mem := fun c => dot128Mem (sorted.map (Column.read c)) (side.map (Column.read c)) chi ts
  [mem .addr,mem .val,mem .ts,mem .kind,dot128Padded colInst instPad chi liPow2,
    dot128Padded colPc pcPad chi liPow2].flatMap fun v => [(lfWords v).1,(lfWords v).2]

def writeFrom (col : List Word) (start : ℕ) : List Word → Option (List Word)
  | [] => some col
  | w :: ws => if start < col.length then writeFrom (col.set start w) (start + 1) ws else none

def committedMemory (c : Column) (sorted side : List Visit) (ts nrows : ℕ) : Option (List Word) := do
  let col ← writeFrom (replicate nrows 0) 0 (sorted.map (Column.read c))
  writeFrom col ts (side.map (Column.read c))

structure CommittedColumns where
  addr : List Word
  val : List Word
  ts : List Word
  kind : List Word
  inst : List Word
  pc : List Word

def committedColumns (sorted side : List Visit) (inst pc : List Word) (ts mp nrows : ℕ) :
    Option CommittedColumns := do
  let addr ← committedMemory .addr sorted side ts nrows
  let val ← committedMemory .val sorted side ts nrows
  let time ← committedMemory .ts sorted side ts nrows
  let kind ← committedMemory .kind sorted side ts nrows
  let colInst ← writeFrom (replicate nrows ecall) 0 inst
  let colPc ← writeFrom (replicate nrows (padSlot mp)) 0 (pc.map fun (w : Word) => w >>> 2 &&& 0xffff)
  return ⟨addr,val,time,kind,colInst,colPc⟩

/-- The inner product of a committed column with the powers of the challenge. -/
def columnDot (chi : Ghash128b) (col : List Word) : Ghash128b :=
  ∑ j ∈ range col.length, chi ^ j * ofWord (col.getD j 0)

/-- The words of the inner products, in the order of their claims. -/
def CommittedColumns.dots (cols : CommittedColumns) (chi : Ghash128b) : List Word :=
  [cols.addr,cols.val,cols.ts,cols.kind,cols.inst,cols.pc].flatMap fun col =>
    [(lfWords (columnDot chi col)).1,(lfWords (columnDot chi col)).2]

section Transparent

variable {F : Type} [Field F]

def powersFrom (chi : F) : ℕ → F → List F
  | 0, _ => []
  | n + 1, c => c :: powersFrom chi n (c * chi)

/-- The coefficients of the functional: powers on the support, zeros after it. -/
def chiTransparentBuffer (chi : F) (logLen support : ℕ) : List F :=
  let n := 2 ^ logLen
  let v := powersFrom chi (min support n) 1
  v ++ replicate (n - v.length) 0

def chiSquares : ℕ → F → List F
  | 0, _ => []
  | n + 1, c => c :: chiSquares n (c * c)

/-- The verifier's product over the bits. -/
def chiTransparentFn (chi : F) (l : ℕ) (p : List F) : F :=
  (List.range l).foldl (fun acc i =>
    acc * ((1 - p.getD i 0) + p.getD i 0 * (chiSquares l chi).getD i 0)) 1

end Transparent

theorem iterate_power {F : Type} [CommRing F] (chi : F) (n : ℕ) (start : F) :
    (List.range n).foldl (fun pw _ => pw * chi) start = start * chi ^ n := by
  induction n with
  | zero => rw [pow_zero,mul_one]; rfl
  | succ n ih => rw [range_succ,foldl_append,ih,pow_succ,←mul_assoc]; rfl

theorem dot128Round_run (s d : List Word) (chi : Ghash128b) (n : ℕ) (pwOff : Ghash128b) :
    (List.range n).foldl (dot128Round s d chi) (0,1,pwOff) =
      (∑ j ∈ range n, chi ^ j * ofWord (s.getD j 0) + ∑ j ∈ range n, pwOff * chi ^ j * ofWord (d.getD j 0),
        chi ^ n,pwOff * chi ^ n) := by
  induction n with
  | zero => rw [range_zero,sum_empty,sum_empty,add_zero,pow_zero,mul_one]; rfl
  | succ n ih =>
    rw [range_succ,foldl_append,ih,foldl_cons,foldl_nil,dot128Round,sum_range_succ,
      sum_range_succ]
    refine Prod.ext ?_ (Prod.ext ?_ ?_)
    · dsimp only
      ring
    · exact (pow_succ chi n).symm
    · dsimp only
      rw [pow_succ,mul_assoc]

theorem dot128Mem_eq (s d : List Word) (chi : Ghash128b) (ts : ℕ) : dot128Mem s d chi ts =
    ∑ j ∈ range ts, chi ^ j * ofWord (s.getD j 0) +
      ∑ j ∈ range ts, chi ^ (ts + j) * ofWord (d.getD j 0) := by
  rw [dot128Mem,iterate_power,one_mul,dot128Round_run]
  simp only [pow_add]

theorem dot128Padded_eq (col : List Word) (pad : Word) (chi : Ghash128b) (total : ℕ) :
    dot128Padded col pad chi total = ∑ j ∈ range total, chi ^ j * ofWord (col.getD j pad) := by
  have hrun : ∀ n, (List.range n).foldl (paddedRound col pad chi) (0,1) =
      (∑ j ∈ range n, chi ^ j * ofWord (col.getD j pad),chi ^ n) := by
    intro n
    induction n with
    | zero => rw [range_zero,sum_empty,pow_zero]; rfl
    | succ n ih => rw [range_succ,foldl_append,ih,sum_range_succ,pow_succ]; rfl
  exact congrArg Prod.fst (hrun total)

theorem wordsLf_bmul (x y : Word × Word) : wordsLf (bmul x y) = wordsLf x * wordsLf y := wordsLf_ghashMul x y

theorem wordsLf_bxorPair (x y : Word × Word) : wordsLf (bxorPair x y) = wordsLf x + wordsLf y :=
  wordsLf_xor x y

variable (chi : Word × Word) {col : List Word}

theorem circuitMemory_run (s d : List Visit) (c : Column) (n : ℕ)
    (dots : MemoryDots) :
    let dots' := (List.range n).foldl (memoryRound chi s d) dots
    (wordsLf (dots'.acc c),wordsLf dots'.pw,wordsLf dots'.pwOff) =
      (List.range n).foldl (dot128Round (s.map (Column.read c)) (d.map (Column.read c)) (wordsLf chi))
        (wordsLf (dots.acc c),wordsLf dots.pw,wordsLf dots.pwOff) := by
  induction n with
  | zero => rfl
  | succ n ih =>
    dsimp only at ih ⊢
    rw [range_succ,foldl_append,foldl_append,←ih,foldl_cons,foldl_nil,
      foldl_cons,foldl_nil,memoryRound,dot128Round]
    dsimp only
    simp only [wordsLf_bxorPair,wordsLf_bmul,wordsLf_low]
    refine Prod.ext ?_ (Prod.ext ?_ ?_)
    · dsimp only
      ring
    · exact mul_comm _ _
    · exact mul_comm _ _

theorem pcSlot_eq (pc : Word) : pcSlot pc = pc >>> 2 &&& 0xffff := by
  refine BitVec.eq_of_getLsbD_eq fun i hi => ?_
  have hmask : (0xffff : Word).getLsbD i = decide (i < 16) := Nat.testBit_two_pow_sub_one 16 i
  rw [pcSlot,band,BitVec.getLsbD_and,BitVec.getLsbD_and,hmask]
  by_cases hlow : i < 16
  · have hhalf : i < 32 := by omega
    have hlane : 2 + i < 32 := by omega
    refine congrArg (· && decide (i < 16)) ?_
    change (ofHalves (loHalf pc >>> (2 % 32)) (hiHalf pc >>> (2 % 32))).getLsbD i = _
    rw [ofHalves_bit _ _ hi,if_pos hhalf,BitVec.getLsbD_ushiftRight,BitVec.getLsbD_ushiftRight,loHalf_bit,
      Nat.mod_eq_of_lt (by decide : 2 < 32),decide_eq_true hlane,Bool.true_and]
  · rw [decide_eq_false hlow,Bool.and_false,Bool.and_false]

theorem wordsLf_iterate (n : ℕ) (start : Word × Word) :
    wordsLf ((List.range n).foldl (fun pw _ => bmul chi pw) start) =
      (List.range n).foldl (fun pw _ => pw * wordsLf chi) (wordsLf start) := by
  induction n with
  | zero => rfl
  | succ n ih =>
    rw [range_succ,foldl_append,foldl_append,←ih,foldl_cons,foldl_nil,
      foldl_cons,foldl_nil,wordsLf_bmul,mul_comm]

theorem circuitMemory_acc (s d : List Visit) (ts : ℕ) (c : Column) :
    wordsLf ((circuitMemory chi s d ts).acc c) =
      dot128Mem (s.map (Column.read c)) (d.map (Column.read c)) (wordsLf chi) ts := by
  have hoff := wordsLf_iterate chi ts (1,0)
  rw [wordsLf_one] at hoff
  have hrun := circuitMemory_run chi s d c ts
    ⟨fun _ => (0,0),(1,0),(List.range ts).foldl (fun pwOff _ => bmul chi pwOff) (1,0)⟩
  dsimp only at hrun
  rw [hoff] at hrun
  exact congrArg Prod.fst hrun

theorem circuitFetch_acc (inst pc : List Word) (mp total : ℕ) :
    wordsLf (circuitFetch chi inst pc mp total).accInst = dot128Padded inst ecall (wordsLf chi) total ∧
      wordsLf (circuitFetch chi inst pc mp total).accPc =
        dot128Padded (pc.map pcSlot) (padSlot mp) (wordsLf chi) total := by
  have hrun : ∀ n, let dots := (List.range n).foldl (fetchRound chi inst pc mp) ⟨(0,0),(0,0),(1,0)⟩
      (wordsLf dots.accInst,wordsLf dots.pwi) =
        (List.range n).foldl (paddedRound inst ecall (wordsLf chi)) (0,1) ∧
      (wordsLf dots.accPc,wordsLf dots.pwi) =
        (List.range n).foldl (paddedRound (pc.map pcSlot) (padSlot mp) (wordsLf chi)) (0,1) := by
    intro n
    induction n with
    | zero => exact ⟨Prod.ext wordsLf_zero wordsLf_one,Prod.ext wordsLf_zero wordsLf_one⟩
    | succ n ih =>
      dsimp only at ih ⊢
      rw [range_succ,foldl_append,foldl_append,foldl_append,←ih.1,←ih.2,foldl_cons,
        foldl_nil,foldl_cons,foldl_nil,foldl_cons,foldl_nil,fetchRound,paddedRound,
        paddedRound]
      dsimp only
      simp only [wordsLf_bxorPair,wordsLf_bmul,wordsLf_low]
      refine ⟨Prod.ext ?_ (mul_comm _ _),Prod.ext ?_ (mul_comm _ _)⟩
      · dsimp only
        ring
      · dsimp only
        ring
  exact ⟨congrArg Prod.fst (hrun total).1,congrArg Prod.fst (hrun total).2⟩

theorem writeFrom_getD {ws : List Word} {col' : List Word} {start : ℕ}
    (h : writeFrom col start ws = some col') (d : Word) : col'.length = col.length ∧
      ∀ j < col.length, col'.getD j d =
        if start ≤ j ∧ j < start + ws.length then ws.getD (j - start) d else col.getD j d := by
  induction ws generalizing col start with
  | nil =>
    cases h
    refine ⟨rfl,fun j _ => ?_⟩
    rw [List.length_nil,if_neg (by omega)]
  | cons w ws ih =>
    rw [writeFrom] at h
    split at h
    · next hstart =>
      obtain ⟨hlen,hget⟩ := ih h
      rw [List.length_set] at hlen hget
      refine ⟨hlen,fun j hj => ?_⟩
      rw [hget j hj,length_cons]
      rcases Nat.lt_trichotomy j start with hlt | heq | hgt
      · rw [if_neg (by omega),if_neg (by omega),getD_eq_getElem?_getD,
          List.getElem?_set_ne (by omega),getD_eq_getElem?_getD]
      · rw [if_neg (by omega),if_pos (by omega),heq,Nat.sub_self,getD_eq_getElem?_getD,
          List.getElem?_set_self hstart]
        rfl
      · obtain ⟨k,rfl⟩ := Nat.exists_eq_add_of_lt hgt
        have hsub : start + k + 1 - (start + 1) = k := by omega
        have hsub' : start + k + 1 - start = k + 1 := by omega
        rw [hsub,hsub',getD_cons_succ,getD_eq_getElem?_getD (l := col.set start w),
          List.getElem?_set_ne (by omega),←getD_eq_getElem?_getD]
        exact if_congr (by omega) rfl rfl
    · cases h

theorem exists_writeFrom (ws col : List Word) (start : ℕ)
    (h : start + ws.length ≤ col.length) : ∃ col', writeFrom col start ws = some col' := by
  induction ws generalizing col start with
  | nil => exact ⟨col,rfl⟩
  | cons w ws ih =>
    rw [length_cons] at h
    rw [writeFrom,if_pos (by omega)]
    refine ih _ _ ?_
    rw [List.length_set]
    omega

theorem columnDot_memory {c : Column} {s d : List Visit} {ts nrows : ℕ}
    (hs : s.length = ts) (hd : d.length = ts) (hts : 2 * ts ≤ nrows)
    (h : committedMemory c s d ts nrows = some col) (chi : Ghash128b) :
    columnDot chi col = dot128Mem (s.map (Column.read c)) (d.map (Column.read c)) chi ts := by
  obtain ⟨first,hfirst,hrest⟩ := Option.bind_eq_some_iff.mp h
  obtain ⟨hlen₁,hget₁⟩ := writeFrom_getD hfirst 0
  obtain ⟨hlen₂,hget₂⟩ := writeFrom_getD hrest 0
  rw [length_replicate] at hlen₁ hget₁
  rw [hlen₁] at hlen₂ hget₂
  rw [length_map,hs] at hget₁
  rw [length_map,hd] at hget₂
  obtain ⟨rest,rfl⟩ := Nat.exists_eq_add_of_le hts
  have hsorted : ∀ j ∈ range ts, chi ^ j * ofWord (col.getD j 0) =
      chi ^ j * ofWord ((s.map (Column.read c)).getD j 0) := by
    intro j hj
    have hj' := mem_range.mp hj
    rw [hget₂ j (by omega),if_neg (by omega),hget₁ j (by omega),if_pos (by omega),Nat.sub_zero]
  have hside : ∀ j ∈ range ts, chi ^ (ts + j) * ofWord (col.getD (ts + j) 0) =
      chi ^ (ts + j) * ofWord ((d.map (Column.read c)).getD j 0) := by
    intro j hj
    have hj' := mem_range.mp hj
    rw [hget₂ (ts + j) (by omega),if_pos (by omega),Nat.add_sub_cancel_left]
  have hpadding : ∀ j ∈ range rest, chi ^ (2 * ts + j) * ofWord (col.getD (2 * ts + j) 0) = 0 := by
    intro j hj
    have hj' := mem_range.mp hj
    rw [hget₂ _ (by omega),if_neg (by omega),hget₁ _ (by omega),if_neg (by omega),
      List.getD_replicate _ (by omega),ofWord_zero,mul_zero]
  rw [columnDot,hlen₂,sum_range_add,sum_eq_zero hpadding,add_zero,two_mul,sum_range_add,
    sum_congr rfl hsorted,sum_congr rfl hside,dot128Mem_eq]

theorem columnDot_padded {ws : List Word} {pad : Word} {n : ℕ}
    (h : writeFrom (replicate n pad) 0 ws = some col) (chi : Ghash128b) :
    columnDot chi col = dot128Padded ws pad chi n ∧ dot128Padded col pad chi n = dot128Padded ws pad chi n := by
  obtain ⟨hlen,hget⟩ := writeFrom_getD h pad
  rw [length_replicate] at hlen hget
  have hentry : ∀ j < n, col.getD j pad = ws.getD j pad := by
    intro j hj
    rw [hget j hj,Nat.sub_zero]
    split
    · rfl
    · next hpast =>
      rw [List.getD_replicate _ hj,List.getD_eq_default _ _ (by omega)]
  have hzero : ∀ j < n, col.getD j 0 = col.getD j pad := by
    intro j hj
    rw [List.getD_eq_getElem _ _ (hlen ▸ hj),List.getD_eq_getElem _ _ (hlen ▸ hj)]
  refine ⟨?_,?_⟩
  · rw [columnDot,hlen,dot128Padded_eq]
    refine sum_congr rfl fun j hj => ?_
    rw [hzero j (mem_range.mp hj),hentry j (mem_range.mp hj)]
  · rw [dot128Padded_eq,dot128Padded_eq]
    exact sum_congr rfl fun j hj => by rw [hentry j (mem_range.mp hj)]

section Products

variable {F : Type} [Field F]

variable (chi : F)

theorem powersFrom_getD {n j : ℕ} (hj : j < n) (c : F) :
    (powersFrom chi n c).getD j 0 = c * chi ^ j := by
  induction n generalizing j c with
  | zero => cases hj
  | succ n ih =>
    cases j with
    | zero => rw [powersFrom,List.getD_cons_zero,pow_zero,mul_one]
    | succ j => rw [powersFrom,getD_cons_succ,ih (Nat.lt_of_succ_lt_succ hj),mul_assoc,pow_succ']

theorem powersFrom_length (n : ℕ) (c : F) : (powersFrom chi n c).length = n := by
  induction n generalizing c with
  | zero => rfl
  | succ n ih => rw [powersFrom,length_cons,ih]

theorem chiTransparentBuffer_getD {l j : ℕ} (hj : j < 2 ^ l) :
    (chiTransparentBuffer chi l (2 ^ l)).getD j 0 = chi ^ j := by
  have hlen : (powersFrom chi (2 ^ l) 1).length = 2 ^ l := powersFrom_length chi _ 1
  rw [chiTransparentBuffer,min_self,List.getD_append _ _ _ _ (hlen.symm ▸ hj),powersFrom_getD chi hj,one_mul]

theorem chiSquares_getD {n i : ℕ} (hi : i < n) (c : F) : (chiSquares n c).getD i 0 = c ^ 2 ^ i := by
  induction n generalizing i c with
  | zero => cases hi
  | succ n ih =>
    cases i with
    | zero => rw [chiSquares,List.getD_cons_zero,pow_zero,pow_one]
    | succ i =>
      rw [chiSquares,getD_cons_succ,ih (Nat.lt_of_succ_lt_succ hi),←pow_two,←pow_mul,←pow_succ']

theorem prod_powers (p : List F) (chi : F) :
    ∏ i ∈ range p.length, ((1 - p.getD i 0) + p.getD i 0 * chi ^ 2 ^ i) =
      ∑ j ∈ range (2 ^ p.length), eqTensor p j * chi ^ j := by
  induction p generalizing chi with
  | nil => rw [List.length_nil,range_zero,prod_empty,pow_zero,sum_range_one,eqTensor,pow_zero,mul_one]
  | cons r p ih =>
    have hsquare : ∀ i, (1 - (r :: p).getD (i + 1) 0) + (r :: p).getD (i + 1) 0 * chi ^ 2 ^ (i + 1) =
        (1 - p.getD i 0) + p.getD i 0 * (chi ^ 2) ^ 2 ^ i := by
      intro i
      rw [getD_cons_succ,pow_succ' 2 i,pow_mul]
    rw [sum_eqTensor_cons,length_cons,prod_range_succ',prod_congr rfl fun i _ => hsquare i,ih,sum_mul]
    refine sum_congr rfl fun j _ => ?_
    rw [List.getD_cons_zero,pow_zero,pow_one,←pow_mul,pow_succ]
    ring

theorem chiTransparentFn_eq {l : ℕ} {p : List F} (hp : p.length = l) :
    chiTransparentFn chi l p =
      ∑ j ∈ range (2 ^ l), eqTensor p j * (chiTransparentBuffer chi l (2 ^ l)).getD j 0 := by
  have hloop : ∀ n ≤ l, (List.range n).foldl (fun acc i =>
      acc * ((1 - p.getD i 0) + p.getD i 0 * (chiSquares l chi).getD i 0)) 1 =
        ∏ i ∈ range n, ((1 - p.getD i 0) + p.getD i 0 * chi ^ 2 ^ i) := by
    intro n hn
    induction n with
    | zero => rfl
    | succ n ih =>
      rw [range_succ,foldl_append,ih (by omega),prod_range_succ,foldl_cons,foldl_nil,
        chiSquares_getD (by omega)]
  rw [chiTransparentFn,hloop l (Nat.le_refl l),←hp,prod_powers]
  exact sum_congr rfl fun j hj => by rw [chiTransparentBuffer_getD chi (mem_range.mp hj)]

end Products

theorem circuitDots_eq (chi : Ghash128b) (s d : List Visit) (inst pc : List Word) (ts mp total : ℕ) :
    circuitDots (lfWords chi) s d inst pc ts mp total =
      dotWordsFrom s d chi ts total inst (pc.map fun (w : Word) => w >>> 2 &&& 0xffff) ecall (padSlot mp) := by
  have hslots : pc.map pcSlot = pc.map fun (w : Word) => w >>> 2 &&& 0xffff :=
    List.map_congr_left fun w _ => pcSlot_eq w
  have hmemory : ∀ c, (circuitMemory (lfWords chi) s d ts).acc c =
      lfWords (dot128Mem (s.map (Column.read c)) (d.map (Column.read c)) chi ts) := by
    intro c
    have hacc := circuitMemory_acc (lfWords chi) s d ts c
    rw [wordsLf_lfWords] at hacc
    rw [←hacc,lfWords_wordsLf]
  obtain ⟨hinst,hpc⟩ := circuitFetch_acc (lfWords chi) inst pc mp total
  rw [wordsLf_lfWords] at hinst hpc
  have hinst' : (circuitFetch (lfWords chi) inst pc mp total).accInst =
      lfWords (dot128Padded inst ecall chi total) := by rw [←hinst,lfWords_wordsLf]
  have hpc' : (circuitFetch (lfWords chi) inst pc mp total).accPc =
      lfWords (dot128Padded (pc.map pcSlot) (padSlot mp) chi total) := by rw [←hpc,lfWords_wordsLf]
  rw [circuitDots,dotWordsFrom]
  dsimp only
  rw [hmemory,hmemory,hmemory,hmemory,hinst',hpc',hslots]
  rfl

theorem exists_committedColumns {s d : List Visit} {inst pc : List Word} {ts mp n : ℕ}
    (hs : s.length = ts) (hd : d.length = ts) (hts : 2 * ts ≤ n) (hinst : inst.length ≤ n)
    (hpc : pc.length ≤ n) : ∃ cols, committedColumns s d inst pc ts mp n = some cols := by
  have hmemory : ∀ c, ∃ col, committedMemory c s d ts n = some col := by
    intro c
    have hfits : 0 + (s.map (Column.read c)).length ≤ (replicate n (0 : Word)).length := by
      rw [length_map,length_replicate,hs]
      omega
    obtain ⟨first,hfirst⟩ := exists_writeFrom _ _ _ hfits
    have hfits' : ts + (d.map (Column.read c)).length ≤ first.length := by
      rw [(writeFrom_getD hfirst 0).1,length_map,length_replicate,hd]
      omega
    obtain ⟨col,hcol⟩ := exists_writeFrom _ _ _ hfits'
    exact ⟨col,Option.bind_eq_some_iff.mpr ⟨first,hfirst,hcol⟩⟩
  have hpadded : ∀ (pad : Word) (ws : List Word), ws.length ≤ n →
      ∃ col, writeFrom (replicate n pad) 0 ws = some col := by
    intro pad ws hws
    refine exists_writeFrom _ _ _ ?_
    rw [length_replicate]
    omega
  obtain ⟨addr,haddr⟩ := hmemory .addr
  obtain ⟨val,hval⟩ := hmemory .val
  obtain ⟨time,htime⟩ := hmemory .ts
  obtain ⟨kind,hkind⟩ := hmemory .kind
  obtain ⟨colInst,hcolInst⟩ := hpadded ecall inst hinst
  obtain ⟨colPc,hcolPc⟩ := hpadded (padSlot mp) (pc.map fun (w : Word) => w >>> 2 &&& 0xffff)
    (by rwa [length_map])
  refine ⟨⟨addr,val,time,kind,colInst,colPc⟩,?_⟩
  rw [committedColumns,haddr,hval,htime,hkind,hcolInst,hcolPc]
  rfl

theorem committedColumns_eq_some {s d : List Visit} {inst pc : List Word} {ts mp n : ℕ}
    {cols : CommittedColumns} (h : committedColumns s d inst pc ts mp n = some cols) :
    committedMemory .addr s d ts n = some cols.addr ∧ committedMemory .val s d ts n = some cols.val ∧
      committedMemory .ts s d ts n = some cols.ts ∧ committedMemory .kind s d ts n = some cols.kind ∧
      writeFrom (replicate n ecall) 0 inst = some cols.inst ∧
      writeFrom (replicate n (padSlot mp)) 0 (pc.map fun (w : Word) => w >>> 2 &&& 0xffff) =
        some cols.pc := by
  obtain ⟨addr,haddr,h⟩ := Option.bind_eq_some_iff.mp h
  obtain ⟨val,hval,h⟩ := Option.bind_eq_some_iff.mp h
  obtain ⟨time,htime,h⟩ := Option.bind_eq_some_iff.mp h
  obtain ⟨kind,hkind,h⟩ := Option.bind_eq_some_iff.mp h
  obtain ⟨colInst,hinst,h⟩ := Option.bind_eq_some_iff.mp h
  obtain ⟨colPc,hpc,h⟩ := Option.bind_eq_some_iff.mp h
  cases h
  exact ⟨haddr,hval,htime,hkind,hinst,hpc⟩

/-- The circuit's words, the prover's words over the plain or the committed columns and the inner
products of the committed columns agree, and the verifier's product is the multilinear extension of
the powers. -/
theorem chiDots_agree (chi : Ghash128b) (s d : List Visit) (inst pc : List Word) {tLen ts : ℕ}
    (mp L : ℕ) (hs : s.length = ts) (hd : d.length = ts) (hinst : inst.length = tLen) (hpc : pc.length = tLen)
    (hL : 2 * ts ≤ 2 ^ L) :
    circuitDots (lfWords chi) s d inst pc ts mp (2 ^ L) = dotWordsFrom s d chi ts (2 ^ L) inst
        (pc.map fun (w : Word) => w >>> 2 &&& 0xffff) ecall (padSlot mp) ∧
      (∀ cols, committedColumns s d inst pc ts mp (2 ^ L) = some cols →
        circuitDots (lfWords chi) s d inst pc ts mp (2 ^ L) =
            dotWordsFrom s d chi ts (2 ^ L) cols.inst cols.pc ecall (padSlot mp) ∧
          circuitDots (lfWords chi) s d inst pc ts mp (2 ^ L) = cols.dots chi) ∧
      (tLen ≤ 2 ^ L → ∃ cols, committedColumns s d inst pc ts mp (2 ^ L) = some cols) ∧
      ∀ p : List Ghash128b, p.length = L → chiTransparentFn chi L p =
        ∑ j ∈ range (2 ^ L), eqTensor p j * (chiTransparentBuffer chi L (2 ^ L)).getD j 0 := by
  have hplain := circuitDots_eq chi s d inst pc ts mp (2 ^ L)
  refine ⟨hplain,fun cols hcols => ?_,fun ht => ?_,fun p hp => chiTransparentFn_eq chi hp⟩
  · obtain ⟨haddr,hval,htime,hkind,hcolInst,hcolPc⟩ := committedColumns_eq_some hcols
    have hpadInst := columnDot_padded hcolInst chi
    have hpadPc := columnDot_padded hcolPc chi
    rw [hplain,dotWordsFrom,dotWordsFrom,CommittedColumns.dots]
    dsimp only
    rw [hpadInst.2,hpadPc.2]
    refine ⟨rfl,?_⟩
    simp only [List.flatMap_cons,columnDot_memory hs hd hL haddr,columnDot_memory hs hd hL hval,
      columnDot_memory hs hd hL htime,columnDot_memory hs hd hL hkind,hpadInst.1,hpadPc.1,
      List.flatMap_nil]
  · exact exists_committedColumns hs hd hL (hinst ▸ ht) (hpc ▸ ht)

/-- A run that ends at once: the placeholder's two rows on either side, four words a column. -/
theorem chiDots_agree_ecall :
    ∃ cols, committedColumns [⟨padAddr,0,0,kInit⟩,⟨padAddr,3,0,kFinal⟩]
        [⟨padAddr,0,0,kInit⟩,⟨padAddr,3,0,kFinal⟩] [ecall] [0] 2 5 (2 ^ 2) = some cols ∧
      circuitDots (lfWords ⟨2⟩) [⟨padAddr,0,0,kInit⟩,⟨padAddr,3,0,kFinal⟩]
        [⟨padAddr,0,0,kInit⟩,⟨padAddr,3,0,kFinal⟩] [ecall] [0] 2 5 (2 ^ 2) = cols.dots ⟨2⟩ := by
  have h := chiDots_agree ⟨2⟩ [⟨padAddr,0,0,kInit⟩,⟨padAddr,3,0,kFinal⟩]
    [⟨padAddr,0,0,kInit⟩,⟨padAddr,3,0,kFinal⟩] [ecall] [0] 5 2 rfl rfl rfl rfl (by decide)
  obtain ⟨cols,hcols⟩ := h.2.2.1 (by decide)
  exact ⟨cols,hcols,(h.2.1 cols hcols).2⟩

end Binius64.SortedRam
