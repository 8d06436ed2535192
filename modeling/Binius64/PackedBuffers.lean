import Binius64.EncodingLaws
import Binius64.RingSwitch

/-!
# Packed buffers as lists

A buffer in packed words behaves like the list of its scalars.
-/

namespace Binius64.Ntt

open CheckedRun List
open RingSwitch (fromScalars)

variable {F : Type} {w : ℕ} [Field F]

namespace FieldBuffer

def new (logLen : ℕ) (words : List (PackedField w F)) : Except AssertFailure (FieldBuffer w F) :=
  if h : words.length = 1 <<< (logLen - w) then .ok ⟨logLen,words,h⟩ else .error .failed

def iterScalars (buffer : FieldBuffer w F) : List F := (iterSlice buffer.words).take buffer.len

/-- Two buffers are equal when their lengths and their scalars are. -/
def eq [DecidableEq F] (self other : FieldBuffer w F) : Bool :=
  if self.logLen ≠ other.logLen then false
  else if self.logLen < w then
    -- the lanes past the scalars of the one word are left out
    (iterSlice (self.words.take 1)).take (1 <<< self.logLen) =
      (iterSlice (other.words.take 1)).take (1 <<< self.logLen)
  else
    let wordCount := 1 <<< (self.logLen - w)
    self.words.take wordCount = other.words.take wordCount

def zeroExtendIn (buffer : FieldBuffer w F) (logLen : ℕ) : Except AssertFailure (FieldBuffer w F) := do
  require (logLen ≥ buffer.logLen)
  if logLen = buffer.logLen then return buffer
  let extended : FieldBuffer w F := zeros logLen
  if buffer.logLen < w then
    -- only the scalars of the one word are carried over
    new logLen (extended.words.set 0 (fromScalars buffer.iterScalars))
  else new logLen (buffer.words ++ extended.words.drop buffer.words.length)

/-- Shorten a buffer; the lanes this leaves in the last word are zeroed. -/
def truncate (buffer : FieldBuffer w F) (newLogLen : ℕ) : Except AssertFailure (FieldBuffer w F) :=
  if newLogLen ≥ buffer.logLen then .ok buffer
  else
    let words := if newLogLen < w then
        buffer.words.modify 0 fun word =>
          (List.range' (1 <<< newLogLen) (2 ^ w - 1 <<< newLogLen)).foldl (fun word i => word.set i 0) word
      else buffer.words
    new newLogLen (words.take (1 <<< (newLogLen - w)))

def splitHalf (buffer : FieldBuffer w F) :
    Except AssertFailure (FieldBuffer w F × FieldBuffer w F) := do
  require (buffer.logLen > 0)
  let newLogLen := buffer.logLen - 1
  if newLogLen < w then
    let halves := (buffer.words.getD 0 0).interleave 0 newLogLen
    return (←new newLogLen [halves.1],←new newLogLen [halves.2])
  else
    let halfLen := 1 <<< (newLogLen - w)
    return (←new newLogLen (buffer.words.take halfLen),
      ←new newLogLen ((buffer.words.drop halfLen).take halfLen))

end FieldBuffer

/-- The guard of the two halves of a buffer. -/
structure SplitMut (w : ℕ) (F : Type) where
  logLen : ℕ
  singles : Option (PackedField w F × PackedField w F)
  data : List (PackedField w F)

namespace SplitMut

/-- Guard the halves of a store. -/
def new (logLen : ℕ) (data : List (PackedField w F)) : SplitMut w F :=
  ⟨logLen,if logLen < w then some ((data.getD 0 0).interleave 0 logLen) else none,data⟩

variable (guard : SplitMut w F)

/-- The two halves as they are lent out. -/
def halves : Except AssertFailure (FieldBuffer w F × FieldBuffer w F) := do
  match guard.singles with
  | some (loHalf,hiHalf) =>
    return (←FieldBuffer.new guard.logLen [loHalf],←FieldBuffer.new guard.logLen [hiHalf])
  | none =>
    let halfLen := 1 <<< (guard.logLen - w)
    return (←FieldBuffer.new guard.logLen (guard.data.take halfLen),
      ←FieldBuffer.new guard.logLen (guard.data.drop halfLen))

/-- The guard after the halves it lent out have been edited. -/
def edited (lo hi : FieldBuffer w F) : SplitMut w F :=
  match guard.singles with
  | some _ => { guard with singles := some (lo.words.getD 0 0,hi.words.getD 0 0) }
  | none => { guard with data := lo.words ++ hi.words }

/-- What the guard leaves in the store. -/
def drop : List (PackedField w F) :=
  match guard.singles with
  | some (loHalf,hiHalf) => guard.data.set 0 (loHalf.interleave hiHalf guard.logLen).1
  | none => guard.data

end SplitMut

/-- What a user does to the two halves: any change to their words. -/
structure HalvesEdit (w : ℕ) (F : Type) where
  apply : FieldBuffer w F → FieldBuffer w F → FieldBuffer w F × FieldBuffer w F
  low : ∀ lo hi, (apply lo hi).1.logLen = lo.logLen
  high : ∀ lo hi, (apply lo hi).2.logLen = hi.logLen

/-- Combine the words of the low half with those of the high half. -/
def HalvesEdit.zipLow (f : PackedField w F → PackedField w F → PackedField w F) : HalvesEdit w F where
  apply lo hi := ({
    logLen := lo.logLen
    words := lo.words.mapIdx fun i word =>
      match hi.words[i]? with
      | some other => f word other
      | none => word
    words_length := length_mapIdx.trans lo.words_length },hi)
  low _ _ := rfl
  high _ _ := rfl

namespace FieldBuffer

def splitHalfMut (buffer : FieldBuffer w F) (edit : HalvesEdit w F) :
    Except AssertFailure (FieldBuffer w F) := do
  require (buffer.logLen > 0)
  let split := SplitMut.new (buffer.logLen - 1) buffer.words
  let (lo,hi) ← split.halves
  let (lo,hi) := edit.apply lo hi
  new buffer.logLen (split.edited lo hi).drop

end FieldBuffer

structure SubWordChunk where
  wordIndex : ℕ
  laneOffset : ℕ
  logLen : ℕ

namespace SubWordChunk

def new (w logChunkSize chunkIndex : ℕ) : SubWordChunk :=
  let logChunksPerWord := w - logChunkSize
  let chunkSubindex := chunkIndex &&& (1 <<< logChunksPerWord - 1)
  ⟨chunkIndex >>> logChunksPerWord,chunkSubindex <<< logChunkSize,logChunkSize⟩

variable (chunk : SubWordChunk)

def scalars (word : PackedField w F) : List F :=
  (List.range (1 <<< chunk.logLen)).map fun i => word.get (chunk.laneOffset ||| i)

def repack (words : List (PackedField w F)) : PackedField w F :=
  fromScalars (chunk.scalars (words.getD chunk.wordIndex 0))

/-- Write an edited chunk back into its lanes. -/
def mergeInto (location : SubWordChunk) (word chunk : PackedField w F) : PackedField w F :=
  (List.range (1 <<< location.logLen)).foldl
    (fun word i => word.set (location.laneOffset ||| i) (chunk.get i)) word

end SubWordChunk

inductive ChunkMut (w : ℕ) (F : Type) where
  /-- A chunk below a word, in a copy, beside the store it is merged back into. -/
  | detached (location : SubWordChunk) (chunk : PackedField w F) (words : List (PackedField w F))
  /-- A run of whole words of the store. -/
  | borrowed (logLen start : ℕ) (words : List (PackedField w F))

namespace ChunkMut

def new (logChunkSize chunkIndex : ℕ) (words : List (PackedField w F)) : ChunkMut w F :=
  if logChunkSize ≥ w then .borrowed logChunkSize (chunkIndex * 1 <<< (logChunkSize - w)) words
  else
    let location := SubWordChunk.new w logChunkSize chunkIndex
    .detached location (location.repack words) words

def chunk : ChunkMut w F → Except AssertFailure (FieldBuffer w F)
  | detached location chunk _ => FieldBuffer.new location.logLen [chunk]
  | borrowed logLen start words =>
    FieldBuffer.new logLen ((words.drop start).take (1 <<< (logLen - w)))

def edited (view : FieldBuffer w F) : ChunkMut w F → ChunkMut w F
  | detached location _ words => detached location (view.words.getD 0 0) words
  | borrowed logLen start words =>
    borrowed logLen start (words.take start ++ view.words ++ words.drop (start + view.words.length))

/-- What the guard leaves in the store. -/
def drop : ChunkMut w F → List (PackedField w F)
  | detached location chunk words =>
    words.modify location.wordIndex fun word => location.mergeInto word chunk
  | borrowed _ _ words => words

end ChunkMut

/-- What a user does to a chunk: any change to its words. -/
structure ChunkEdit (w : ℕ) (F : Type) where
  apply : FieldBuffer w F → FieldBuffer w F
  length : ∀ view, (apply view).logLen = view.logLen

namespace FieldBuffer

def chunk (buffer : FieldBuffer w F) (logChunkSize chunkIndex : ℕ) :
    Except AssertFailure (FieldBuffer w F) := do
  require (logChunkSize ≤ buffer.logLen)
  require (chunkIndex < 1 <<< (buffer.logLen - logChunkSize))
  if logChunkSize ≥ w then
    let wordsPerChunk := 1 <<< (logChunkSize - w)
    new logChunkSize ((buffer.words.drop (chunkIndex * wordsPerChunk)).take wordsPerChunk)
  else new logChunkSize [(SubWordChunk.new w logChunkSize chunkIndex).repack buffer.words]

/-- The runs of so many words of a slice, the last one possibly shorter. -/
def wordRuns (words : List (PackedField w F)) (wordsPerChunk : ℕ) : List (List (PackedField w F)) :=
  (List.range ((words.length + wordsPerChunk - 1) / wordsPerChunk)).map fun i =>
    (words.drop (i * wordsPerChunk)).take wordsPerChunk

def chunks (buffer : FieldBuffer w F) (logChunkSize : ℕ) :
    Except AssertFailure (List (FieldBuffer w F)) := do
  require (logChunkSize ≤ buffer.logLen)
  let chunkCount := 1 <<< (buffer.logLen - logChunkSize)
  if logChunkSize ≥ w then
    ((wordRuns buffer.words (1 <<< (logChunkSize - w))).take chunkCount).mapM (new logChunkSize)
  else
    (List.range chunkCount).mapM fun i =>
      new logChunkSize [(SubWordChunk.new w logChunkSize i).repack buffer.words]

def parChunks (buffer : FieldBuffer w F) (logChunkSize : ℕ) :
    Except AssertFailure (List (FieldBuffer w F)) := do
  require (logChunkSize ≤ buffer.logLen)
  if logChunkSize ≥ w then (wordRuns buffer.words (1 <<< (logChunkSize - w))).mapM (new logChunkSize)
  else
    (List.range (1 <<< (buffer.logLen - logChunkSize))).mapM fun i =>
      new logChunkSize [(SubWordChunk.new w logChunkSize i).repack buffer.words]

def parChunkScalars (buffer : FieldBuffer w F) (logChunkSize : ℕ) :
    Except AssertFailure (List (List F)) := do
  require (logChunkSize ≤ buffer.logLen)
  if logChunkSize ≥ w then return (wordRuns buffer.words (1 <<< (logChunkSize - w))).map iterSlice
  else
    return (List.range (1 <<< (buffer.logLen - logChunkSize))).map fun i =>
      let chunk := SubWordChunk.new w logChunkSize i
      chunk.scalars (buffer.words.getD chunk.wordIndex 0)

def chunkMut (buffer : FieldBuffer w F) (logChunkSize chunkIndex : ℕ) (edit : ChunkEdit w F) :
    Except AssertFailure (FieldBuffer w F) := do
  require (logChunkSize ≤ buffer.logLen)
  require (chunkIndex < 1 <<< (buffer.logLen - logChunkSize))
  let guard := ChunkMut.new logChunkSize chunkIndex buffer.words
  let view ← guard.chunk
  new buffer.logLen (guard.edited (edit.apply view)).drop

end FieldBuffer

namespace PackedField

variable {x : ℕ}

theorem get_of_lt (p : PackedField w F) (hx : x < 2 ^ w) : p.get x = p ⟨x,hx⟩ := dif_pos hx

theorem get_set (p : PackedField w F) (hx : x < 2 ^ w) (i : ℕ) (v : F) :
    (p.set i v).get x = if x = i then v else p.get x := by
  rw [get_of_lt _ hx,get_of_lt _ hx,set]

theorem interleave_fst_low (a b : PackedField w F) {k : ℕ} (hk : k < w) (hx : x < 2 ^ k) :
    (a.interleave b k).1.get x = a.get x := by
  have hlt : x < 2 ^ w := hx.trans (Nat.pow_lt_pow_right Nat.one_lt_two hk)
  rw [get_of_lt _ hlt,get_of_lt _ hlt,interleave]
  exact if_pos (by rw [Nat.div_eq_of_lt hx,Nat.zero_mod])

theorem interleave_fst_high (a b : PackedField w F) {k : ℕ} (hk : k < w) (hx : x < 2 ^ k) :
    (a.interleave b k).1.get (2 ^ k + x) = b.get x := by
  have hle : 2 ^ (k + 1) ≤ 2 ^ w := Nat.pow_le_pow_right (by omega) hk
  have hlt : 2 ^ k + x < 2 ^ w := by
    rw [pow_succ] at hle
    omega
  have hodd : ¬(2 ^ k + x) / 2 ^ k % 2 = 0 := by
    rw [Nat.add_div_left _ (Nat.two_pow_pos k),Nat.div_eq_of_lt hx]
    decide
  rw [get_of_lt _ hlt,interleave]
  simp only [if_neg hodd,Nat.add_sub_cancel_left]

theorem interleave_snd_low (a b : PackedField w F) {k : ℕ} (hk : k < w) (hx : x < 2 ^ k) :
    (a.interleave b k).2.get x = a.get (2 ^ k + x) := by
  have hlt : x < 2 ^ w := hx.trans (Nat.pow_lt_pow_right Nat.one_lt_two hk)
  have heven : x / 2 ^ k % 2 = 0 := by rw [Nat.div_eq_of_lt hx,Nat.zero_mod]
  rw [get_of_lt _ hlt,interleave]
  simp only [if_pos heven,Nat.add_comm x]

theorem get_fromScalars (l : List F) (hx : x < 2 ^ w) :
    (fromScalars l : PackedField w F).get x = l.getD x 0 := get_of_lt _ hx

end PackedField

namespace FieldBuffer

omit [Field F] in
theorem new_ok {logLen : ℕ} {words : List (PackedField w F)}
    (h : words.length = 1 <<< (logLen - w)) : new logLen words = .ok ⟨logLen,words,h⟩ := dif_pos h

variable (buffer : FieldBuffer w F) {x n : ℕ}

theorem scalars_getElem? (hx : x < 2 ^ buffer.logLen) :
    buffer.scalars[x]? = some (buffer.scalar x) := by
  rw [scalars,getElem?_map,getElem?_range hx,Option.map_some]

theorem scalars_eq {l : List F} (hl : l.length = 2 ^ buffer.logLen)
    (h : ∀ x < 2 ^ buffer.logLen, l[x]? = some (buffer.scalar x)) : buffer.scalars = l := by
  refine ext_getElem? fun x => ?_
  by_cases hx : x < 2 ^ buffer.logLen
  · rw [scalars_getElem? _ hx,h x hx]
  · rw [getElem?_eq_none (by rw [scalars_length]; exact not_lt.mp hx),
      getElem?_eq_none (by rw [hl]; exact not_lt.mp hx)]

theorem scalars_run {run buffer : FieldBuffer w F} {start : ℕ}
    (hfits : start + 2 ^ run.logLen ≤ 2 ^ buffer.logLen)
    (h : ∀ x < 2 ^ run.logLen, run.scalar x = buffer.scalar (start + x)) :
    run.scalars = (buffer.scalars.drop start).take (2 ^ run.logLen) := by
  refine run.scalars_eq ?_ fun x hx => ?_
  · rw [length_take,length_drop,scalars_length]
    omega
  · rw [getElem?_take_of_lt hx,getElem?_drop,scalars_getElem? _ (by omega),h x hx]

theorem scalar_narrow (hx : x < 2 ^ w) :
    buffer.scalar x = (buffer.words.getD 0 0).get x := by
  rw [scalar,Nat.div_eq_of_lt hx,Nat.mod_eq_of_lt hx]

theorem scalar_wide (words : List (PackedField w F)) (start count : ℕ)
    (hx : x < count * 2 ^ w) :
    (((words.drop start).take count).getD (x / 2 ^ w) 0).get (x % 2 ^ w) =
      (words.getD ((start * 2 ^ w + x) / 2 ^ w) 0).get ((start * 2 ^ w + x) % 2 ^ w) := by
  have hdiv : (start * 2 ^ w + x) / 2 ^ w = start + x / 2 ^ w := by
    rw [Nat.add_comm,Nat.add_mul_div_right _ _ (Nat.two_pow_pos w),Nat.add_comm]
  have hmod : (start * 2 ^ w + x) % 2 ^ w = x % 2 ^ w := Nat.mul_add_mod' ..
  have hlt : x / 2 ^ w < count := (Nat.div_lt_iff_lt_mul (Nat.two_pow_pos w)).mpr hx
  rw [hdiv,hmod,getD_eq_getElem?_getD,getElem?_take_of_lt hlt,getElem?_drop,
    ←getD_eq_getElem?_getD]

omit [Field F] in
theorem words_length_wide (h : w ≤ buffer.logLen) :
    buffer.words.length * 2 ^ w = 2 ^ buffer.logLen := by
  rw [buffer.words_length,Nat.shiftLeft_eq,one_mul,←pow_add,Nat.sub_add_cancel h]

omit [Field F] in
theorem words_length_narrow (h : buffer.logLen ≤ w) :
    buffer.words.length = 1 := by
  rw [buffer.words_length,Nat.sub_eq_zero_of_le h,Nat.shiftLeft_zero]

theorem iterScalars_eq : buffer.iterScalars = buffer.scalars := by
  have hlong : 2 ^ buffer.logLen ≤ (iterSlice buffer.words).length := by
    rw [iterSlice_length]
    rcases Nat.le_total w buffer.logLen with h | h
    · rw [buffer.words_length_wide h]
    · rw [buffer.words_length_narrow h,one_mul]
      exact Nat.pow_le_pow_right (by omega) h
  have hlen : buffer.len = 2 ^ buffer.logLen := by rw [len,Nat.shiftLeft_eq,one_mul]
  refine (buffer.scalars_eq ?_ fun x hx => ?_).symm
  · rw [iterScalars,length_take,hlen,Nat.min_eq_left hlong]
  · have hin : x < (iterSlice buffer.words).length := hx.trans_le hlong
    rw [iterScalars,hlen,getElem?_take_of_lt hx,getElem?_eq_getElem hin,
      ←getD_eq_getElem _ 0 hin,iterSlice_words _ hx]

theorem splitHalf_run (hn : buffer.logLen = n + 1) :
    ∃ lo hi, buffer.splitHalf = .ok (lo,hi) ∧ lo.logLen = n ∧ hi.logLen = n ∧
      (∀ x < 2 ^ n, lo.scalar x = buffer.scalar x) ∧
      ∀ x < 2 ^ n, hi.scalar x = buffer.scalar (2 ^ n + x) := by
  have hlast : buffer.logLen - 1 = n := by omega
  have hpos : buffer.logLen > 0 := by omega
  rw [splitHalf,require_true hpos,hlast]
  by_cases hw : n < w
  · have hone : [(0 : PackedField w F)].length = 1 <<< (n - w) := by
      rw [Nat.sub_eq_zero_of_le hw.le]
      rfl
    have hle : 2 ^ (n + 1) ≤ 2 ^ w := Nat.pow_le_pow_right (by omega) hw
    rw [pow_succ] at hle
    simp only [if_pos hw,bind,Except.bind,pure,Except.pure]
    rw [new_ok (by exact hone),new_ok (by exact hone)]
    refine ⟨_,_,rfl,rfl,rfl,fun x hx => ?_,fun x hx => ?_⟩
    · rw [scalar_narrow _ (by omega),scalar_narrow _ (by omega)]
      exact PackedField.interleave_fst_low _ _ hw hx
    · rw [scalar_narrow _ (by omega),scalar_narrow _ (by omega)]
      exact PackedField.interleave_snd_low _ _ hw hx
  · have hwide := buffer.words_length_wide (by omega)
    have hhalf : 1 <<< (n - w) * 2 ^ w = 2 ^ n := by
      rw [Nat.shiftLeft_eq,one_mul,←pow_add,Nat.sub_add_cancel (not_lt.mp hw)]
    have hwords : buffer.words.length = 2 * 1 <<< (n - w) := by
      rw [hn,pow_succ',←hhalf,←Nat.mul_assoc] at hwide
      exact Nat.eq_of_mul_eq_mul_right (Nat.two_pow_pos w) hwide
    have hfirst : (buffer.words.take (1 <<< (n - w))).length = 1 <<< (n - w) := by
      rw [length_take]
      omega
    have hsecond : ((buffer.words.drop (1 <<< (n - w))).take (1 <<< (n - w))).length =
        1 <<< (n - w) := by
      rw [length_take,length_drop]
      omega
    simp only [if_neg hw,bind,Except.bind,pure,Except.pure]
    rw [new_ok hfirst,new_ok hsecond]
    refine ⟨_,_,rfl,rfl,rfl,fun x hx => ?_,fun x hx => ?_⟩
    · have hrun := scalar_wide buffer.words 0 (1 <<< (n - w)) (x := x) (by omega)
      rw [drop_zero,Nat.zero_mul,Nat.zero_add] at hrun
      exact hrun
    · have hrun := scalar_wide buffer.words (1 <<< (n - w)) (1 <<< (n - w)) (x := x)
        (by omega)
      rw [hhalf] at hrun
      exact hrun

theorem halves_eq_splitHalf (hn : buffer.logLen = n + 1) :
    (SplitMut.new n buffer.words).halves = buffer.splitHalf := by
  have hlast : buffer.logLen - 1 = n := by omega
  have hpos : buffer.logLen > 0 := by omega
  rw [splitHalf,require_true hpos,hlast,SplitMut.halves,SplitMut.new]
  by_cases hw : n < w
  · simp only [if_pos hw]
    rfl
  · have hrest : (buffer.words.drop (1 <<< (n - w))).length ≤ 1 <<< (n - w) := by
      have hexp : n + 1 - w = n - w + 1 := by omega
      rw [length_drop,buffer.words_length,hn,hexp,Nat.shiftLeft_eq,Nat.shiftLeft_eq,pow_succ]
      omega
    simp only [if_neg hw,bind,Except.bind,take_of_length_le hrest]

theorem splitHalfMut_run (hn : buffer.logLen = n + 1)
    (edit : HalvesEdit w F) :
    ∃ lo hi r, buffer.splitHalf = .ok (lo,hi) ∧ buffer.splitHalfMut edit = .ok r ∧
      r.logLen = n + 1 ∧ (∀ x < 2 ^ n, r.scalar x = (edit.apply lo hi).1.scalar x) ∧
      ∀ x < 2 ^ n, r.scalar (2 ^ n + x) = (edit.apply lo hi).2.scalar x := by
  obtain ⟨lo,hi,hsplit,hlo,hhi,-,-⟩ := buffer.splitHalf_run hn
  have hlast : buffer.logLen - 1 = n := by omega
  have hpos : buffer.logLen > 0 := by omega
  have hhalves := buffer.halves_eq_splitHalf hn
  rw [splitHalfMut,require_true hpos]
  simp only [hlast,bind,Except.bind,hhalves,hsplit]
  generalize hlo' : (edit.apply lo hi).1 = lo'
  generalize hhi' : (edit.apply lo hi).2 = hi'
  have hlen : lo'.logLen = n := by rw [←hlo',edit.low,hlo]
  have hlen' : hi'.logLen = n := by rw [←hhi',edit.high,hhi]
  by_cases hw : n < w
  · have hdata : (buffer.words.set 0 ((lo'.words.getD 0 0).interleave (hi'.words.getD 0 0) n).1).length =
        1 <<< (buffer.logLen - w) := by rw [length_set,buffer.words_length]
    have hdrop : ((SplitMut.new n buffer.words).edited lo' hi').drop =
        buffer.words.set 0 ((lo'.words.getD 0 0).interleave (hi'.words.getD 0 0) n).1 := by
      rw [SplitMut.new,if_pos hw]
      rfl
    have hle : 2 ^ (n + 1) ≤ 2 ^ w := Nat.pow_le_pow_right (by omega) hw
    have hword : (buffer.words.set 0
        ((lo'.words.getD 0 0).interleave (hi'.words.getD 0 0) n).1).getD 0 0 =
          ((lo'.words.getD 0 0).interleave (hi'.words.getD 0 0) n).1 := by
      rw [getD_eq_getElem?_getD,getElem?_set_self (by
        rw [buffer.words_length,Nat.shiftLeft_eq,one_mul]
        exact Nat.two_pow_pos _),Option.getD_some]
    rw [pow_succ] at hle
    rw [hdrop,new_ok hdata]
    refine ⟨lo,hi,_,rfl,rfl,hn,fun x hx => ?_,fun x hx => ?_⟩
    · rw [scalar_narrow _ (by omega),hword,hlo',scalar_narrow _ (by omega)]
      exact PackedField.interleave_fst_low _ _ hw hx
    · rw [scalar_narrow _ (by omega),hword,hhi',scalar_narrow _ (by omega)]
      exact PackedField.interleave_fst_high _ _ hw hx
  · have hdrop : ((SplitMut.new n buffer.words).edited lo' hi').drop = lo'.words ++ hi'.words := by
      rw [SplitMut.new,if_neg hw]
      rfl
    have hhalf : lo'.words.length * 2 ^ w = 2 ^ n := by
      rw [lo'.words_length_wide (by omega),hlen]
    have hdata : (lo'.words ++ hi'.words).length = 1 <<< (buffer.logLen - w) := by
      have hexp : n + 1 - w = n - w + 1 := by omega
      rw [length_append,lo'.words_length,hi'.words_length,hlen,hlen',hn,hexp,Nat.shiftLeft_eq,
        Nat.shiftLeft_eq,pow_succ]
      omega
    rw [hdrop,new_ok hdata]
    refine ⟨lo,hi,_,rfl,rfl,hn,fun x hx => ?_,fun x hx => ?_⟩
    · have hin : x / 2 ^ w < lo'.words.length := by
        rw [Nat.div_lt_iff_lt_mul (Nat.two_pow_pos w),hhalf]
        exact hx
      rw [hlo',scalar,scalar,getD_append _ _ _ _ hin]
    · have hplace : 2 ^ n + x = lo'.words.length * 2 ^ w + x := by rw [hhalf]
      have hdiv : (lo'.words.length * 2 ^ w + x) / 2 ^ w = lo'.words.length + x / 2 ^ w := by
        rw [Nat.add_comm,Nat.add_mul_div_right _ _ (Nat.two_pow_pos w),Nat.add_comm]
      rw [hhi',hplace,scalar,scalar,hdiv,Nat.mul_add_mod',
        getD_append_right _ _ _ _ (Nat.le_add_right _ _),Nat.add_sub_cancel_left]

end FieldBuffer

namespace SubWordChunk

variable {k i : ℕ}

variable {x : ℕ}

theorem new_place (hk : k < w) (hx : x < 2 ^ k) :
    (i * 2 ^ k + x) / 2 ^ w = (new w k i).wordIndex ∧
      (i * 2 ^ k + x) % 2 ^ w = (new w k i).laneOffset ||| x := by
  have hsplit : 2 ^ w = 2 ^ k * 2 ^ (w - k) := by rw [←pow_add,Nat.add_sub_cancel' hk.le]
  have hplace : i * 2 ^ k + x = 2 ^ k * i + x := by rw [Nat.mul_comm]
  have hdiv : (2 ^ k * i + x) / 2 ^ k = i := by
    rw [Nat.mul_add_div (Nat.two_pow_pos k),Nat.div_eq_of_lt hx,add_zero]
  have hmod : (2 ^ k * i + x) % 2 ^ k = x := by rw [Nat.mul_add_mod,Nat.mod_eq_of_lt hx]
  constructor
  · rw [hplace,hsplit,←Nat.div_div_eq_div_mul,hdiv,new,Nat.shiftRight_eq_div_pow]
  · rw [hplace,hsplit,Nat.mod_mul,hmod,hdiv,new,Nat.shiftLeft_eq 1,one_mul,
      Nat.and_two_pow_sub_one_eq_mod,shiftLeft_or hx,add_comm,Nat.mul_comm]

theorem new_lane (hx : x < 2 ^ k) :
    (new w k i).laneOffset ||| x = (new w k i).laneOffset + x := by
  show (i &&& (1 <<< (w - k) - 1)) <<< k ||| x = (i &&& (1 <<< (w - k) - 1)) <<< k + x
  rw [shiftLeft_or hx,Nat.shiftLeft_eq _ k]

theorem new_lane_inj {j : ℕ} (hx : x < 2 ^ k)
    (hword : (new w k j).wordIndex = (new w k i).wordIndex)
    (hlow : (new w k i).laneOffset ≤ (new w k j).laneOffset + x)
    (hhigh : (new w k j).laneOffset + x < (new w k i).laneOffset + 2 ^ k) : j = i := by
  simp only [new,Nat.shiftLeft_eq,one_mul,Nat.and_two_pow_sub_one_eq_mod,
    Nat.shiftRight_eq_div_pow] at hword hlow hhigh
  have hoffset : j % 2 ^ (w - k) = i % 2 ^ (w - k) := by
    rcases Nat.lt_trichotomy (j % 2 ^ (w - k)) (i % 2 ^ (w - k)) with h | h | h
    · have hle := Nat.mul_le_mul_right (2 ^ k) (Nat.succ_le_of_lt h)
      rw [Nat.succ_mul] at hle
      omega
    · exact h
    · have hle := Nat.mul_le_mul_right (2 ^ k) (Nat.succ_le_of_lt h)
      rw [Nat.succ_mul] at hle
      omega
  rw [←Nat.div_add_mod j (2 ^ (w - k)),hword,hoffset,Nat.div_add_mod]

theorem repack_get (words : List (PackedField w F)) (hk : k < w) (hx : x < 2 ^ k) :
    ((new w k i).repack words).get x =
      (words.getD ((i * 2 ^ k + x) / 2 ^ w) 0).get ((i * 2 ^ k + x) % 2 ^ w) := by
  have hlt : x < 2 ^ w := hx.trans (Nat.pow_lt_pow_right Nat.one_lt_two hk)
  have hin : x < 1 <<< (new w k i).logLen := by
    rw [Nat.shiftLeft_eq,one_mul]
    exact hx
  obtain ⟨hword,hlane⟩ := new_place (i := i) hk hx
  rw [repack,PackedField.get_fromScalars _ hlt,scalars,getD_eq_getElem?_getD,getElem?_map,
    getElem?_range hin,Option.map_some,Option.getD_some,hword,hlane]

theorem mergeInto_get (location : SubWordChunk) (word chunk : PackedField w F) {y : ℕ}
    (hy : y < 2 ^ w) (hlanes : ∀ x < 2 ^ location.logLen,
      location.laneOffset ||| x = location.laneOffset + x) :
    (location.mergeInto word chunk).get y =
      if location.laneOffset ≤ y ∧ y < location.laneOffset + 2 ^ location.logLen then
        chunk.get (y - location.laneOffset)
      else word.get y := by
  have hsteps : ∀ n ≤ 2 ^ location.logLen,
      ((List.range n).foldl (fun word i => word.set (location.laneOffset ||| i) (chunk.get i))
        word).get y =
      if location.laneOffset ≤ y ∧ y < location.laneOffset + n then
        chunk.get (y - location.laneOffset)
      else word.get y := by
    intro n hn
    induction n with
    | zero => rw [range_zero,foldl_nil,if_neg (by omega)]
    | succ n ih =>
      rw [range_succ,foldl_append,foldl_cons,foldl_nil,
        PackedField.get_set _ hy,ih (by omega),hlanes n hn]
      by_cases hlast : y = location.laneOffset + n
      · rw [if_pos hlast,if_pos (by omega),hlast,Nat.add_sub_cancel_left]
      · rw [if_neg hlast]
        exact if_congr (by omega) rfl rfl
  have hall := hsteps _ le_rfl
  rw [mergeInto,Nat.shiftLeft_eq,one_mul]
  exact hall

end SubWordChunk

namespace FieldBuffer

variable {k : ℕ} (buffer : FieldBuffer w F)

theorem chunk_fits {n i : ℕ} (hk : k ≤ n) (hi : i < 2 ^ (n - k)) : i * 2 ^ k + 2 ^ k ≤ 2 ^ n := by
  have hsucc : (i + 1) * 2 ^ k ≤ 2 ^ (n - k) * 2 ^ k := Nat.mul_le_mul_right _ hi
  rw [←pow_add,Nat.sub_add_cancel hk,Nat.succ_mul] at hsucc
  exact hsucc

omit [Field F] in
theorem chunk_words {i : ℕ} (hw : w ≤ k) (hk : k ≤ buffer.logLen)
    (hi : i < 2 ^ (buffer.logLen - k)) :
    i * 1 <<< (k - w) + 1 <<< (k - w) ≤ buffer.words.length ∧ 1 <<< (k - w) * 2 ^ w = 2 ^ k := by
  have hfits : i * 2 ^ (k - w) + 2 ^ (k - w) ≤ 2 ^ (buffer.logLen - w) :=
    chunk_fits (by omega) (by rwa [show buffer.logLen - w - (k - w) = buffer.logLen - k by omega])
  rw [buffer.words_length,Nat.shiftLeft_eq,Nat.shiftLeft_eq,one_mul,one_mul,←pow_add,
    Nat.sub_add_cancel hw]
  exact ⟨hfits,rfl⟩

theorem chunk_run {i : ℕ} (hk : k ≤ buffer.logLen)
    (hi : i < 2 ^ (buffer.logLen - k)) :
    ∃ view, buffer.chunk k i = .ok view ∧ view.logLen = k ∧
      ∀ x < 2 ^ k, view.scalar x = buffer.scalar (i * 2 ^ k + x) := by
  have hcount : i < 1 <<< (buffer.logLen - k) := by
    rw [Nat.shiftLeft_eq,one_mul]
    exact hi
  rw [chunk,require_true hk,require_true hcount]
  simp only [bind,Except.bind]
  by_cases hw : w ≤ k
  · obtain ⟨hin,hsize⟩ := buffer.chunk_words hw hk hi
    have hlen : ((buffer.words.drop (i * 1 <<< (k - w))).take (1 <<< (k - w))).length =
        1 <<< (k - w) := by
      rw [length_take,length_drop]
      omega
    rw [if_pos hw,new_ok hlen]
    refine ⟨_,rfl,rfl,fun x hx => ?_⟩
    have hrun := scalar_wide buffer.words (i * 1 <<< (k - w)) (1 <<< (k - w)) (x := x)
      (by omega)
    rw [Nat.mul_assoc,hsize] at hrun
    exact hrun
  · have hone : [(SubWordChunk.new w k i).repack buffer.words].length = 1 <<< (k - w) := by
      rw [Nat.sub_eq_zero_of_le (by omega)]
      rfl
    rw [if_neg hw,new_ok hone]
    refine ⟨_,rfl,rfl,fun x hx => ?_⟩
    have hlt : x < 2 ^ w := hx.trans (Nat.pow_lt_pow_right Nat.one_lt_two (by omega))
    rw [scalar_narrow _ hlt,scalar]
    exact SubWordChunk.repack_get _ (by omega) hx

theorem chunkMut_view {i : ℕ} (hk : k ≤ buffer.logLen)
    (hi : i < 2 ^ (buffer.logLen - k)) :
    (ChunkMut.new k i buffer.words).chunk = buffer.chunk k i := by
  have hcount : i < 1 <<< (buffer.logLen - k) := by
    rw [Nat.shiftLeft_eq,one_mul]
    exact hi
  rw [chunk,require_true hk,require_true hcount,ChunkMut.new]
  by_cases hw : w ≤ k
  · rw [if_pos hw,ChunkMut.chunk]
    simp only [bind,Except.bind,if_pos hw]
  · rw [if_neg hw]
    simp only [bind,Except.bind,if_neg hw]
    rfl

theorem chunkMut_run {i : ℕ} (hk : k ≤ buffer.logLen)
    (hi : i < 2 ^ (buffer.logLen - k)) (edit : ChunkEdit w F) :
    ∃ view r, buffer.chunk k i = .ok view ∧ buffer.chunkMut k i edit = .ok r ∧
      r.logLen = buffer.logLen ∧ ∀ x < 2 ^ buffer.logLen, r.scalar x =
        if x / 2 ^ k = i then (edit.apply view).scalar (x % 2 ^ k) else buffer.scalar x := by
  obtain ⟨view,hview,hlen,-⟩ := buffer.chunk_run hk hi
  have hlend := buffer.chunkMut_view hk hi
  have hcount : i < 1 <<< (buffer.logLen - k) := by
    rw [Nat.shiftLeft_eq,one_mul]
    exact hi
  rw [chunkMut,require_true hk,require_true hcount]
  simp only [bind,Except.bind,hlend,hview]
  generalize hedited : edit.apply view = edited
  have hlen' : edited.logLen = k := by rw [←hedited,edit.length,hlen]
  by_cases hw : w ≤ k
  · obtain ⟨hin,hsize⟩ := buffer.chunk_words hw hk hi
    have hsize' : edited.words.length = 1 <<< (k - w) := by rw [edited.words_length,hlen']
    generalize hc : 1 <<< (k - w) = c at hin hsize hsize'
    have hdrop : ((ChunkMut.new k i buffer.words).edited edited).drop =
        buffer.words.take (i * c) ++ edited.words ++ buffer.words.drop (i * c + c) := by
      rw [ChunkMut.new,if_pos hw,ChunkMut.edited,ChunkMut.drop,hsize',hc]
    have hdata : (buffer.words.take (i * c) ++ edited.words ++ buffer.words.drop (i * c + c)).length =
        1 <<< (buffer.logLen - w) := by
      rw [length_append,length_append,length_take,length_drop,hsize',
        ←buffer.words_length]
      omega
    have hword : ∀ j, (buffer.words.take (i * c) ++ edited.words ++
        buffer.words.drop (i * c + c)).getD j 0 =
          if j / c = i then edited.words.getD (j % c) 0 else buffer.words.getD j 0 := by
      intro j
      have hc0 : 0 < c := hc ▸ (Nat.shiftLeft_eq 1 _ ▸ by positivity)
      have hjc := Nat.div_add_mod j c
      have hjm := Nat.mod_lt j hc0
      have hfront : (buffer.words.take (i * c)).length = i * c := by
        rw [length_take]
        omega
      rw [append_assoc]
      by_cases hlow : j < i * c
      · have hne : ¬j / c = i := by
          rintro rfl
          rw [Nat.mul_comm] at hlow
          omega
        rw [if_neg hne,getD_append _ _ _ _ (by rw [hfront]; exact hlow),
          getD_eq_getElem?_getD,getElem?_take_of_lt hlow,←getD_eq_getElem?_getD]
      rw [getD_append_right _ _ _ _ (by rw [hfront]; exact not_lt.mp hlow),hfront]
      by_cases hmid : j < i * c + c
      · have hdiv : j / c = i := by
          refine Nat.div_eq_of_lt_le (not_lt.mp hlow) ?_
          rw [Nat.succ_mul]
          exact hmid
        have hrest : j - i * c = j % c := by
          rw [hdiv,Nat.mul_comm] at hjc
          omega
        rw [if_pos hdiv,hrest,getD_append _ _ _ _ (by rw [hsize']; exact hjm)]
      · have hne : ¬j / c = i := by
          rintro rfl
          rw [Nat.mul_comm] at hmid
          omega
        rw [if_neg hne,getD_append_right _ _ _ _ (by omega),hsize',getD_eq_getElem?_getD,
          getElem?_drop,←getD_eq_getElem?_getD]
        congr 1
        omega
    rw [hdrop,new_ok hdata]
    refine ⟨view,_,rfl,rfl,rfl,fun x hx => ?_⟩
    have hdiv : x / 2 ^ w / c = x / 2 ^ k := by rw [Nat.div_div_eq_div_mul,Nat.mul_comm,hsize]
    have hmod : x % 2 ^ k / 2 ^ w = x / 2 ^ w % c := by
      rw [←hsize,Nat.mul_comm,Nat.mod_mul_right_div_self]
    have hlane : x % 2 ^ k % 2 ^ w = x % 2 ^ w :=
      Nat.mod_mod_of_dvd x (pow_dvd_pow 2 hw)
    rw [scalar,hword,hdiv,hedited,scalar,scalar,hmod,hlane]
    exact apply_ite (fun word : PackedField w F => word.get (x % 2 ^ w)) _ _ _
  · have hk' : k < w := by omega
    have hdrop : ((ChunkMut.new k i buffer.words).edited edited).drop =
        buffer.words.modify (SubWordChunk.new w k i).wordIndex fun word =>
          (SubWordChunk.new w k i).mergeInto word (edited.words.getD 0 0) := by
      rw [ChunkMut.new,if_neg hw]
      rfl
    rw [hdrop,new_ok ((length_modify ..).trans buffer.words_length)]
    refine ⟨view,_,rfl,rfl,rfl,fun x hx => ?_⟩
    have hlow : x % 2 ^ k < 2 ^ k := Nat.mod_lt _ (Nat.two_pow_pos k)
    have hx' : x / 2 ^ k * 2 ^ k + x % 2 ^ k = x := Nat.div_add_mod' x (2 ^ k)
    obtain ⟨hword,hlane⟩ := SubWordChunk.new_place (i := x / 2 ^ k) hk' hlow
    rw [hx',SubWordChunk.new_lane hlow] at hlane
    rw [hx'] at hword
    have hlt : x % 2 ^ w < 2 ^ w := Nat.mod_lt _ (Nat.two_pow_pos w)
    have hget : x / 2 ^ w < buffer.words.length := buffer.word_lt hx
    have hmerge := SubWordChunk.mergeInto_get (SubWordChunk.new w k i)
      (buffer.words.getD (x / 2 ^ w) 0) (edited.words.getD 0 0) hlt
      fun y hy => SubWordChunk.new_lane hy
    have hlog : (SubWordChunk.new w k i).logLen = k := rfl
    rw [hlog] at hmerge
    rw [scalar,getD_eq_getElem?_getD,getElem?_modify,getElem?_eq_getElem hget,
      Option.map_eq_map,Option.map_some,Option.getD_some,hedited]
    rw [getD_eq_getElem _ _ hget] at hmerge
    by_cases hsame : x / 2 ^ k = i
    · have hnarrow : x % 2 ^ k < 2 ^ w := hlow.trans (Nat.pow_lt_pow_right Nat.one_lt_two hk')
      rw [hsame] at hword hlane
      rw [if_pos hsame,if_pos hword.symm,hmerge,hlane,if_pos (by omega),Nat.add_sub_cancel_left,
        scalar_narrow _ hnarrow]
    · rw [if_neg hsame,scalar,getD_eq_getElem _ _ hget]
      by_cases hindex : (SubWordChunk.new w k i).wordIndex = x / 2 ^ w
      · rw [if_pos hindex,hmerge,hlane,if_neg]
        rintro ⟨hfrom,hto⟩
        exact hsame (SubWordChunk.new_lane_inj hlow (hword.symm.trans hindex.symm) hfrom hto)
      · rw [if_neg hindex]

theorem mapM_chunk (hk : k ≤ buffer.logLen) {α : Type}
    (xs : List α) {f : α → Except AssertFailure (FieldBuffer w F)}
    (hlen : xs.length = 2 ^ (buffer.logLen - k))
    (h : ∀ i (hi : i < xs.length), f xs[i] = buffer.chunk k i) :
    ∃ views, xs.mapM f = .ok views ∧ views.length = 2 ^ (buffer.logLen - k) ∧
      ∀ i < 2 ^ (buffer.logLen - k), ∃ view, views[i]? = some view ∧ buffer.chunk k i = .ok view := by
  have hall : ∀ x ∈ xs, ∃ view, f x = .ok view := by
    intro x hx
    obtain ⟨i,hi,rfl⟩ := mem_iff_getElem.mp hx
    obtain ⟨view,hview,-⟩ := buffer.chunk_run hk (hlen ▸ hi)
    exact ⟨view,(h i hi).trans hview⟩
  obtain ⟨views,hviews⟩ := exists_mapM hall
  obtain ⟨hsame,hget⟩ := mapM_getElem hviews
  refine ⟨views,hviews,hsame.trans hlen,fun i hi => ?_⟩
  obtain ⟨view,hview,hin⟩ := hget i (hlen ▸ hi)
  exact ⟨view,hin,(h i (hlen ▸ hi)).symm.trans hview⟩

omit [Field F] in
theorem wordRuns_eq {words : List (PackedField w F)} {count size : ℕ} (hs : 0 < size)
    (h : words.length = count * size) :
    wordRuns words size = (List.range count).map fun i => (words.drop (i * size)).take size := by
  have hround : (count * size + size - 1) / size = count := by
    rw [show count * size + size - 1 = count * size + (size - 1) by omega,Nat.mul_comm,
      Nat.mul_add_div hs,Nat.div_eq_of_lt (by omega),Nat.add_zero]
  rw [wordRuns,h,hround]

omit [Field F] in
theorem words_length_runs (hw : w ≤ k) (hk : k ≤ buffer.logLen) :
    buffer.words.length = 2 ^ (buffer.logLen - k) * 1 <<< (k - w) ∧ 0 < 1 <<< (k - w) := by
  rw [buffer.words_length,Nat.shiftLeft_eq,Nat.shiftLeft_eq,one_mul,one_mul,←pow_add]
  refine ⟨?_,Nat.two_pow_pos _⟩
  congr 1
  omega

theorem chunk_wide {i : ℕ} (hw : w ≤ k) (hk : k ≤ buffer.logLen)
    (hi : i < 2 ^ (buffer.logLen - k)) : buffer.chunk k i =
      new k ((buffer.words.drop (i * 1 <<< (k - w))).take (1 <<< (k - w))) := by
  have hcount : i < 1 <<< (buffer.logLen - k) := by
    rw [Nat.shiftLeft_eq,one_mul]
    exact hi
  rw [chunk,require_true hk,require_true hcount]
  simp only [bind,Except.bind,if_pos hw]

theorem chunk_narrow {i : ℕ} (hw : ¬w ≤ k) (hk : k ≤ buffer.logLen)
    (hi : i < 2 ^ (buffer.logLen - k)) : buffer.chunk k i =
      new k [(SubWordChunk.new w k i).repack buffer.words] := by
  have hcount : i < 1 <<< (buffer.logLen - k) := by
    rw [Nat.shiftLeft_eq,one_mul]
    exact hi
  rw [chunk,require_true hk,require_true hcount]
  simp only [bind,Except.bind,if_neg hw]

theorem chunks_run (hk : k ≤ buffer.logLen) :
    ∃ views, buffer.chunks k = .ok views ∧ buffer.parChunks k = .ok views ∧
      views.length = 2 ^ (buffer.logLen - k) ∧
      ∀ i < 2 ^ (buffer.logLen - k), ∃ view, views[i]? = some view ∧ buffer.chunk k i = .ok view := by
  have hpow : 1 <<< (buffer.logLen - k) = 2 ^ (buffer.logLen - k) := by rw [Nat.shiftLeft_eq,one_mul]
  rw [chunks,parChunks,require_true hk,hpow]
  simp only [bind,Except.bind]
  by_cases hw : w ≤ k
  · obtain ⟨hruns,hpos⟩ := buffer.words_length_runs hw hk
    have hlist := wordRuns_eq hpos hruns
    have hlen : (wordRuns buffer.words (1 <<< (k - w))).length = 2 ^ (buffer.logLen - k) := by
      rw [hlist,length_map,length_range]
    rw [if_pos hw,if_pos hw,take_of_length_le hlen.le]
    obtain ⟨views,hviews,hrest⟩ := buffer.mapM_chunk hk _ (f := new k) hlen fun i hi => by
      rw [buffer.chunk_wide hw hk (hlen ▸ hi)]
      simp only [hlist,getElem_map,getElem_range]
    exact ⟨views,hviews,hviews,hrest⟩
  · rw [if_neg hw,if_neg hw]
    obtain ⟨views,hviews,hrest⟩ := buffer.mapM_chunk hk (List.range (2 ^ (buffer.logLen - k)))
      (f := fun i => new k [(SubWordChunk.new w k i).repack buffer.words]) length_range
      fun i hi => by
        rw [length_range] at hi
        rw [getElem_range,buffer.chunk_narrow hw hk hi]
    exact ⟨views,hviews,hviews,hrest⟩

theorem chunk_scalars {i : ℕ} (hk : k ≤ buffer.logLen)
    (hi : i < 2 ^ (buffer.logLen - k)) {view : FieldBuffer w F} (h : buffer.chunk k i = .ok view) :
    view.logLen = k ∧ view.scalars = (buffer.scalars.drop (i * 2 ^ k)).take (2 ^ k) := by
  obtain ⟨view',hview,hlen,hrun⟩ := buffer.chunk_run hk hi
  rw [h] at hview
  cases hview
  refine ⟨hlen,?_⟩
  have hscalars : view.scalars = (buffer.scalars.drop (i * 2 ^ k)).take (2 ^ view.logLen) :=
    scalars_run (by rw [hlen]; exact chunk_fits hk hi) (by rw [hlen]; exact hrun)
  rwa [hlen] at hscalars

theorem parChunkScalars_run (hk : k ≤ buffer.logLen) :
    buffer.parChunkScalars k = .ok ((List.range (2 ^ (buffer.logLen - k))).map fun i =>
      (buffer.scalars.drop (i * 2 ^ k)).take (2 ^ k)) := by
  have hpow : 1 <<< (buffer.logLen - k) = 2 ^ (buffer.logLen - k) := by rw [Nat.shiftLeft_eq,one_mul]
  rw [parChunkScalars,require_true hk,hpow]
  simp only [bind,Except.bind,pure,Except.pure]
  by_cases hw : w ≤ k
  · obtain ⟨hruns,hpos⟩ := buffer.words_length_runs hw hk
    rw [if_pos hw,wordRuns_eq hpos hruns,map_map]
    congr 1
    refine map_congr_left fun i hi => ?_
    rw [mem_range] at hi
    obtain ⟨hin,hsize⟩ := buffer.chunk_words hw hk hi
    have hlen : ((buffer.words.drop (i * 1 <<< (k - w))).take (1 <<< (k - w))).length =
        1 <<< (k - w) := by
      rw [length_take,length_drop]
      omega
    have hview := (buffer.chunk_wide hw hk hi).trans (new_ok hlen)
    obtain ⟨-,hscalars⟩ := buffer.chunk_scalars hk hi hview
    have hwhole : (iterSlice ((buffer.words.drop (i * 1 <<< (k - w))).take (1 <<< (k - w)))).length ≤
        1 <<< k := by
      rw [iterSlice_length,hlen,hsize,Nat.shiftLeft_eq,one_mul]
    rw [←hscalars,←iterScalars_eq]
    exact (take_of_length_le hwhole).symm
  · rw [if_neg hw]
    congr 1
    refine map_congr_left fun i hi => ?_
    rw [mem_range] at hi
    obtain ⟨view,hview,hlen,hrun⟩ := buffer.chunk_run hk hi
    rw [←(buffer.chunk_scalars hk hi hview).2,scalars,SubWordChunk.scalars,hlen,
      show (SubWordChunk.new w k i).logLen = k from rfl,Nat.shiftLeft_eq,one_mul]
    refine map_congr_left fun x hx => ?_
    rw [mem_range] at hx
    obtain ⟨hword,hlane⟩ := SubWordChunk.new_place (i := i) (not_le.mp hw) hx
    rw [hrun x hx,scalar,hword,hlane]

theorem zeroExtendIn_run {n : ℕ} (hn : buffer.logLen ≤ n) :
    ∃ r, buffer.zeroExtendIn n = .ok r ∧ r.logLen = n ∧ ∀ x < 2 ^ n,
      r.scalar x = if x < 2 ^ buffer.logLen then buffer.scalar x else 0 := by
  have hge : n ≥ buffer.logLen := hn
  rw [zeroExtendIn,require_true hge]
  simp only [bind,Except.bind,pure,Except.pure]
  by_cases hsame : n = buffer.logLen
  · rw [if_pos hsame]
    exact ⟨buffer,rfl,hsame.symm,fun x hx => (if_pos (hsame ▸ hx)).symm⟩
  rw [if_neg hsame]
  have hzeros : (zeros n : FieldBuffer w F).words = List.replicate (1 <<< (n - w)) 0 := rfl
  by_cases hw : buffer.logLen < w
  · have hpos : 0 < (List.replicate (1 <<< (n - w)) (0 : PackedField w F)).length := by
      rw [length_replicate,Nat.shiftLeft_eq,one_mul]
      exact Nat.two_pow_pos _
    have hlen : ((zeros n : FieldBuffer w F).words.set 0 (fromScalars buffer.iterScalars)).length =
        1 <<< (n - w) := by rw [length_set,hzeros,length_replicate]
    have hle : 2 ^ buffer.logLen ≤ 2 ^ w := Nat.pow_le_pow_right (by omega) hw.le
    rw [if_pos hw,new_ok hlen]
    refine ⟨_,rfl,rfl,fun x hx => ?_⟩
    have hlane : x % 2 ^ w < 2 ^ w := Nat.mod_lt _ (Nat.two_pow_pos w)
    show (((List.replicate (1 <<< (n - w)) (0 : PackedField w F)).set 0
      (fromScalars buffer.iterScalars)).getD (x / 2 ^ w) 0).get (x % 2 ^ w) = _
    rw [getD_eq_getElem?_getD,getElem?_set]
    by_cases hzero : 0 = x / 2 ^ w
    · have hx' : x % 2 ^ w = x := Nat.mod_eq_of_lt ((Nat.div_eq_zero_iff_lt (Nat.two_pow_pos w)).mp hzero.symm)
      rw [if_pos hzero,if_pos hpos,Option.getD_some,PackedField.get_fromScalars _ hlane,iterScalars_eq,hx']
      by_cases hlow : x < 2 ^ buffer.logLen
      · rw [if_pos hlow,scalars_getD _ hlow]
      · rw [if_neg hlow,getD_eq_default _ _ (by rw [scalars_length]; exact not_lt.mp hlow)]
    · have hhigh : ¬x < 2 ^ buffer.logLen := fun hlow =>
        hzero (Nat.div_eq_of_lt (hlow.trans_le hle)).symm
      rw [if_neg hzero,if_neg hhigh,←getD_eq_getElem?_getD]
      exact zeros_scalar n x
  · have hfits : buffer.words.length ≤ 1 <<< (n - w) := by
      rw [buffer.words_length,Nat.shiftLeft_eq,Nat.shiftLeft_eq,one_mul,one_mul]
      exact Nat.pow_le_pow_right (by omega) (by omega)
    have hlen : (buffer.words ++ (zeros n : FieldBuffer w F).words.drop buffer.words.length).length =
        1 <<< (n - w) := by
      rw [length_append,length_drop,hzeros,length_replicate]
      omega
    have hwide := buffer.words_length_wide (not_lt.mp hw)
    have hin (x : ℕ) : x / 2 ^ w < buffer.words.length ↔ x < 2 ^ buffer.logLen := by
      rw [Nat.div_lt_iff_lt_mul (Nat.two_pow_pos w),hwide]
    rw [if_neg hw,new_ok hlen]
    refine ⟨_,rfl,rfl,fun x hx => ?_⟩
    by_cases hlow : x < 2 ^ buffer.logLen
    · rw [if_pos hlow,scalar,scalar,getD_append _ _ _ _ ((hin x).mpr hlow)]
    · have hge' := not_lt.mp fun h => hlow ((hin x).mp h)
      rw [if_neg hlow,scalar,getD_append_right _ _ _ _ hge',getD_eq_getElem?_getD,
        getElem?_drop,Nat.add_sub_cancel' hge',←getD_eq_getElem?_getD]
      exact zeros_scalar n x

theorem zeroLanes_get (word : PackedField w F) (start count : ℕ) {x : ℕ} (hx : x < 2 ^ w)
    (hlow : x < start) :
    ((List.range' start count).foldl (fun word i => word.set i 0) word).get x = word.get x := by
  induction count generalizing word start with
  | zero => rfl
  | succ count ih =>
    rw [range'_succ,foldl_cons,ih _ _ (by omega),PackedField.get_set _ hx,if_neg (by omega)]

theorem truncate_run (n : ℕ) :
    ∃ r, buffer.truncate n = .ok r ∧ r.logLen = min n buffer.logLen ∧
      ∀ x < 2 ^ r.logLen, r.scalar x = buffer.scalar x := by
  rw [truncate]
  by_cases hn : n ≥ buffer.logLen
  · rw [if_pos hn]
    exact ⟨buffer,rfl,(Nat.min_eq_right hn).symm,fun x _ => rfl⟩
  have hlen : 1 <<< (n - w) ≤ buffer.words.length := by
    rw [buffer.words_length,Nat.shiftLeft_eq,Nat.shiftLeft_eq,one_mul,one_mul]
    exact Nat.pow_le_pow_right (by omega) (by omega)
  rw [if_neg hn]
  by_cases hw : n < w
  · have hone : 1 <<< (n - w) = 1 := by rw [Nat.sub_eq_zero_of_le hw.le,Nat.shiftLeft_zero]
    have hdata : ((buffer.words.modify 0 fun word => (List.range' (1 <<< n) (2 ^ w - 1 <<< n)).foldl
        (fun word i => word.set i 0) word).take (1 <<< (n - w))).length = 1 <<< (n - w) := by
      rw [length_take,length_modify]
      omega
    have hle : 2 ^ n ≤ 2 ^ w := Nat.pow_le_pow_right (by omega) hw.le
    simp only [if_pos hw]
    rw [new_ok hdata]
    refine ⟨_,rfl,(Nat.min_eq_left (le_of_not_ge hn)).symm,fun x hx => ?_⟩
    have hx : x < 2 ^ n := hx
    have hpos : 0 < buffer.words.length := by omega
    have hfirst : 0 < 1 <<< (n - w) := by omega
    rw [scalar_narrow _ (by omega),scalar_narrow _ (by omega),getD_eq_getElem?_getD,
      getElem?_take_of_lt hfirst,getElem?_modify,getElem?_eq_getElem hpos,
      Option.map_eq_map,Option.map_some,if_pos rfl,Option.getD_some,
      zeroLanes_get _ _ _ (by omega) (by rw [Nat.shiftLeft_eq,one_mul]; exact hx),
      getD_eq_getElem _ _ hpos]
  · have hdata : (buffer.words.take (1 <<< (n - w))).length = 1 <<< (n - w) := by
      rw [length_take]
      omega
    simp only [if_neg hw]
    rw [new_ok hdata]
    refine ⟨_,rfl,(Nat.min_eq_left (le_of_not_ge hn)).symm,fun x hx => ?_⟩
    have hx : x < 2 ^ n := hx
    rw [scalar,scalar,getD_eq_getElem?_getD,getElem?_take_of_lt (wordIndex_lt hx),
      ←getD_eq_getElem?_getD]

theorem zipLow_scalar {lo hi : FieldBuffer w F} (h : lo.logLen = hi.logLen)
    {f : PackedField w F → PackedField w F → PackedField w F} {g : F → F → F}
    (hf : ∀ a b, ∀ y < 2 ^ w, (f a b).get y = g (a.get y) (b.get y)) {x : ℕ}
    (hx : x < 2 ^ lo.logLen) :
    ((HalvesEdit.zipLow f).apply lo hi).1.scalar x = g (lo.scalar x) (hi.scalar x) := by
  have hlow := lo.word_lt hx
  have hhigh := hi.word_lt (h ▸ hx)
  have hlane : x % 2 ^ w < 2 ^ w := Nat.mod_lt _ (Nat.two_pow_pos w)
  have hword : ((HalvesEdit.zipLow f).apply lo hi).1.words[x / 2 ^ w]? =
      some (f lo.words[x / 2 ^ w] hi.words[x / 2 ^ w]) := by
    rw [HalvesEdit.zipLow,getElem?_mapIdx,getElem?_eq_getElem hlow,Option.map_some,
      getElem?_eq_getElem hhigh]
  rw [scalar,getD_eq_getElem?_getD,hword,Option.getD_some,scalar,scalar,
    getD_eq_getElem _ _ hlow,getD_eq_getElem _ _ hhigh]
  exact hf _ _ _ hlane

theorem foldHalves_run {n : ℕ} (hn : buffer.logLen = n + 1)
    {f : PackedField w F → PackedField w F → PackedField w F} {g : F → F → F}
    (hf : ∀ a b, ∀ y < 2 ^ w, (f a b).get y = g (a.get y) (b.get y)) :
    ∃ folded r, buffer.splitHalfMut (.zipLow f) = .ok folded ∧ folded.logLen = n + 1 ∧
      folded.truncate n = .ok r ∧ r.logLen = n ∧
      ∀ x < 2 ^ n, r.scalar x = g (buffer.scalar x) (buffer.scalar (2 ^ n + x)) := by
  obtain ⟨lo,hi,folded,hsplit,hfolded,hlen,hlow,-⟩ := buffer.splitHalfMut_run hn (.zipLow f)
  obtain ⟨lo',hi',hsplit',hlo,hhi,hlo',hhi'⟩ := buffer.splitHalf_run hn
  rw [hsplit] at hsplit'
  cases hsplit'
  obtain ⟨r,hr,hrlen,hrun⟩ := folded.truncate_run n
  have hrn : r.logLen = n := by rw [hrlen,hlen,Nat.min_eq_left (Nat.le_succ n)]
  refine ⟨folded,r,hfolded,hlen,hr,hrn,fun x hx => ?_⟩
  rw [hrun x (hrn ▸ hx),hlow x hx,zipLow_scalar (hlo.trans hhi.symm) hf (hlo ▸ hx),hlo' x hx,hhi' x hx]

theorem word_ext {a b : PackedField w F} (h : ∀ x < 2 ^ w, a.get x = b.get x) : a = b := by
  funext lane
  have hlane := h lane lane.isLt
  rw [PackedField.get_of_lt _ lane.isLt,PackedField.get_of_lt _ lane.isLt] at hlane
  exact hlane

theorem eq_iff [DecidableEq F] (self other : FieldBuffer w F) :
    self.eq other = true ↔ self.logLen = other.logLen ∧ self.scalars = other.scalars := by
  rw [eq]
  by_cases hlen : self.logLen = other.logLen
  swap
  · rw [if_pos hlen]
    exact ⟨nofun,fun h => absurd h.1 hlen⟩
  rw [if_neg (not_not.mpr hlen)]
  by_cases hw : self.logLen < w
  · have hfirst (b : FieldBuffer w F) (hb : b.logLen = self.logLen) :
        (iterSlice (b.words.take 1)).take (1 <<< self.logLen) = b.scalars := by
      have hone : b.words.length = 1 := b.words_length_narrow (by omega)
      rw [take_of_length_le hone.le,←iterScalars_eq,iterScalars,len,hb]
    rw [if_pos hw,decide_eq_true_iff,hfirst self rfl,hfirst other hlen.symm]
    exact ⟨fun h => ⟨hlen,h⟩,fun h => h.2⟩
  · have hcount (b : FieldBuffer w F) (hb : b.logLen = self.logLen) :
        b.words.take (1 <<< (self.logLen - w)) = b.words := by
      rw [←hb,←b.words_length,take_length]
    rw [if_neg hw,decide_eq_true_iff,hcount self rfl,hcount other hlen.symm]
    refine ⟨fun h => ⟨hlen,?_⟩,fun h => ?_⟩
    · rw [scalars,scalars,hlen]
      refine map_congr_left fun x _ => ?_
      rw [scalar,scalar,h]
    · have hsame : self.words.length = other.words.length := by
        rw [self.words_length,other.words_length,hlen]
      refine ext_getElem hsame fun j hj hj' => word_ext fun x hx => ?_
      have hwide := self.words_length_wide (not_lt.mp hw)
      have hplace : j * 2 ^ w + x < 2 ^ self.logLen := by
        rw [←hwide]
        have hle := Nat.mul_le_mul_right (2 ^ w) (Nat.succ_le_of_lt hj)
        rw [Nat.succ_mul] at hle
        omega
      have hdiv : (j * 2 ^ w + x) / 2 ^ w = j ∧ (j * 2 ^ w + x) % 2 ^ w = x :=
        EqualityTensor.split_bits hx
      have hscalar : self.scalar (j * 2 ^ w + x) = other.scalar (j * 2 ^ w + x) := by
        rw [←scalars_getD _ hplace,h.2,scalars_getD _ (hlen ▸ hplace)]
      rw [scalar,scalar,hdiv.1,hdiv.2,getD_eq_getElem _ _ hj,getD_eq_getElem _ _ hj'] at hscalar
      exact hscalar

end FieldBuffer

end Binius64.Ntt
