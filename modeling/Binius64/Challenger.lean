import Binius64.ByteCodec

/-!
# Challengers

A challenger observes bytes and gives pseudo-random ones.
-/

namespace Binius64.FiatShamir

open List

/-- What a Fiat-Shamir transcript needs of a challenger. -/
structure Challenger (σ : Type) where
  observer : σ → σ
  putSlice : List UInt8 → σ → σ
  sampler : σ → σ
  copyToSlice : ℕ → σ → List UInt8 × σ
  observe_append : ∀ s a b,
    putSlice b (observer (putSlice a (observer s))) = putSlice (a ++ b) (observer s)

/-- Put a slice, as much at a time as there is room for. -/
def putChunks {β : Type} (chunkMut : β → ℕ × β) (advance : List UInt8 → β → β) :
    ℕ → List UInt8 → β → β
  | 0,_,b => b
  | fuel + 1,src,b =>
    if src = [] then b else
      let (room,b) := chunkMut b
      let cnt := min src.length room
      putChunks chunkMut advance fuel (src.drop cnt) (advance (src.take cnt) b)

theorem putChunks_eq_foldl {β : Type} {chunkMut : β → ℕ × β} {advance : List UInt8 → β → β}
    {step : β → UInt8 → β} {I : β → Prop} (hroom : ∀ b, I b → 0 < (chunkMut b).1)
    (hadvance : ∀ b chunk, I b → chunk.length ≤ (chunkMut b).1 →
      advance chunk (chunkMut b).2 = chunk.foldl step b)
    (hstep : ∀ b byte, I b → I (step b byte)) {fuel : ℕ} {src : List UInt8} (hfuel : src.length ≤ fuel)
    {b : β} (hb : I b) : putChunks chunkMut advance fuel src b = src.foldl step b := by
  have hfold : ∀ (chunk : List UInt8) b, I b → I (chunk.foldl step b) := by
    intro chunk
    induction chunk with
    | nil => exact fun b hb => hb
    | cons byte chunk ih => exact fun b hb => ih _ (hstep b byte hb)
  induction fuel generalizing src b with
  | zero =>
    rw [eq_nil_of_length_eq_zero (Nat.le_zero.mp hfuel)]
    rfl
  | succ fuel ih =>
    rw [putChunks]
    by_cases hsrc : src = []
    · rw [if_pos hsrc,hsrc]
      rfl
    · have hpos := length_pos_iff.mpr hsrc
      have hr := hroom b hb
      have htake : (src.take (min src.length (chunkMut b).1)).length ≤ (chunkMut b).1 := by
        rw [length_take]
        omega
      have hadv := hadvance b _ hb htake
      rw [if_neg hsrc]
      simp only
      rw [hadv,ih (by rw [length_drop]; omega) (hfold _ b hb),←foldl_append,take_append_drop]

/-- A hash function over blocks. -/
structure Digest where
  outputSize : ℕ
  blockSize : ℕ
  digest : List UInt8 → List UInt8
  digest_length : ∀ bytes, (digest bytes).length = outputSize
  outputSize_pos : 0 < outputSize
  blockSize_pos : 0 < blockSize

structure HasherSampler where
  index : ℕ
  buffer : List UInt8
  hasher : List UInt8

structure HasherObserver where
  index : ℕ
  buffer : ℕ → UInt8
  hasher : List UInt8

inductive HasherChallenger where
  | observer (state : HasherObserver)
  | sampler (state : HasherSampler)

namespace HasherSampler

/-- Turn to observing: absorb how much was drawn. -/
def intoObserver (s : HasherSampler) : HasherObserver :=
  ⟨0,fun _ => 0,s.hasher ++ ByteCodec.leBytes 8 s.index⟩

/-- Take a new digest and feed it forward. -/
def fillBuffer (D : Digest) (s : HasherSampler) : HasherSampler :=
  ⟨0,D.digest s.hasher,D.digest s.hasher⟩

def copyToSlice (D : Digest) : ℕ → HasherSampler → List UInt8 × HasherSampler
  | 0,s => ([],s)
  | n + 1,s =>
    let s := if s.index = D.outputSize then s.fillBuffer D else s
    let (rest,s') := copyToSlice D n { s with index := s.index + 1 }
    (s.buffer.getD s.index 0 :: rest,s')

end HasherSampler

namespace HasherObserver

/-- Absorb the part of the block that is filled. -/
def flush (s : HasherObserver) : HasherObserver :=
  { s with index := 0,hasher := s.hasher ++ (range s.index).map s.buffer }

def intoSampler (D : Digest) (s : HasherObserver) : HasherSampler :=
  ⟨D.outputSize,replicate D.outputSize 0,s.flush.hasher⟩

def chunkMut (D : Digest) (s : HasherObserver) : ℕ × HasherObserver := (D.blockSize - s.index,s)

/-- Count bytes written to the block, and absorb it whenever it is full. -/
def advanceMut (D : Digest) : ℕ → ℕ → HasherObserver → HasherObserver
  | 0,_,s => s
  | fuel + 1,cnt,s =>
    if cnt = 0 then s else
      let remaining := min (D.blockSize - s.index) cnt
      let s := { s with index := s.index + remaining }
      advanceMut D fuel (cnt - remaining) (if s.index = D.blockSize then s.flush else s)

def write (chunk : List UInt8) (s : HasherObserver) : HasherObserver :=
  { s with buffer := fun j =>
      if s.index ≤ j ∧ j < s.index + chunk.length then chunk.getD (j - s.index) 0 else s.buffer j }

def advance (D : Digest) (chunk : List UInt8) (s : HasherObserver) : HasherObserver :=
  (s.write chunk).advanceMut D chunk.length chunk.length

def putSlice (D : Digest) (src : List UInt8) (s : HasherObserver) : HasherObserver :=
  putChunks (chunkMut D) (advance D) src.length src s

def putByte (D : Digest) (s : HasherObserver) (byte : UInt8) : HasherObserver :=
  let s := { s with index := s.index + 1,buffer := Function.update s.buffer s.index byte }
  if s.index = D.blockSize then s.flush else s

variable {D : Digest} {s : HasherObserver}

theorem putByte_index (h : s.index < D.blockSize) (byte : UInt8) :
    (s.putByte D byte).index < D.blockSize := by
  rw [putByte]
  simp only
  split
  · exact D.blockSize_pos
  · simp only
    omega

theorem advance_fits {byte : UInt8} {chunk : List UInt8}
    (hchunk : chunk.length + 1 ≤ D.blockSize - s.index) : s.advance D (byte :: chunk) =
      let filled : HasherObserver :=
        ⟨s.index + (chunk.length + 1),(s.write (byte :: chunk)).buffer,s.hasher⟩
      if s.index + (chunk.length + 1) = D.blockSize then filled.flush else filled := by
  have hall : min (D.blockSize - (s.write (byte :: chunk)).index) (chunk.length + 1) = chunk.length + 1 :=
    min_eq_right hchunk
  have hdone : ∀ (fuel : ℕ) (s : HasherObserver), s.advanceMut D fuel 0 = s := by
    intro fuel s
    cases fuel with
    | zero => rfl
    | succ fuel => exact if_pos rfl
  rw [advance,length_cons,advanceMut,if_neg (Nat.succ_ne_zero _)]
  simp only [hall,Nat.sub_self,hdone]
  rfl

theorem advance_eq_foldl {chunk : List UInt8}
    (hchunk : chunk.length ≤ D.blockSize - s.index) : s.advance D chunk = chunk.foldl (putByte D) s := by
  induction chunk generalizing s with
  | nil =>
    have hsame : s.write [] = s := by
      rw [write]
      congr 1
      funext j
      rw [if_neg (by rw [length_nil]; omega)]
    rw [advance,hsame]
    rfl
  | cons byte chunk ih =>
    rw [length_cons] at hchunk
    rw [advance_fits hchunk,foldl_cons]
    cases chunk with
    | nil =>
      have hbuffer : (s.write [byte]).buffer = Function.update s.buffer s.index byte := by
        funext j
        rw [write]
        by_cases hj : j = s.index
        · rw [hj,Function.update_self]
          simp only
          rw [if_pos ⟨le_refl _,Nat.lt_add_one _⟩,Nat.sub_self]
          rfl
        · rw [Function.update_of_ne hj]
          exact if_neg (by rw [length_singleton]; omega)
      rw [foldl_nil,putByte,←hbuffer]
      rfl
    | cons next chunk =>
      rw [length_cons] at hchunk
      have hroom : ¬s.index + 1 = D.blockSize := by omega
      have hput : s.putByte D byte =
          { s with index := s.index + 1,buffer := Function.update s.buffer s.index byte } := if_neg hroom
      have hbuffer : (s.write (byte :: next :: chunk)).buffer =
          ((s.putByte D byte).write (next :: chunk)).buffer := by
        funext j
        rw [hput,write,write]
        simp only [length_cons]
        by_cases hj : j = s.index
        · rw [hj,if_pos (by omega),if_neg (by omega),Function.update_self,Nat.sub_self]
          rfl
        · rw [Function.update_of_ne hj]
          refine ite_congr (propext (by omega)) (fun hin => ?_) fun _ => rfl
          obtain ⟨k,hk⟩ : ∃ k, j = s.index + 1 + k := ⟨j - (s.index + 1),by omega⟩
          have hlow : j - s.index = k + 1 := by omega
          have hnext : j - (s.index + 1) = k := by omega
          rw [hlow,hnext,getD_cons_succ]
      have hindex : (s.putByte D byte).index = s.index + 1 := by rw [hput]
      have hhasher : (s.putByte D byte).hasher = s.hasher := by rw [hput]
      have hcount : s.index + ((next :: chunk).length + 1) =
          (s.putByte D byte).index + (chunk.length + 1) := by
        rw [hindex,length_cons]
        omega
      rw [←ih (by rw [hindex,length_cons]; omega),advance_fits (by rw [hindex]; omega)]
      simp only [hcount,hbuffer,hhasher]

theorem putSlice_eq_foldl (h : s.index < D.blockSize)
    (src : List UInt8) : s.putSlice D src = src.foldl (putByte D) s :=
  putChunks_eq_foldl (I := fun s => s.index < D.blockSize) (fun _ hs => Nat.sub_pos_of_lt hs)
    (fun _ _ _ hchunk => advance_eq_foldl hchunk) (fun _ byte hs => putByte_index hs byte) le_rfl h

theorem putSlice_index (h : s.index < D.blockSize) (src : List UInt8) :
    (s.putSlice D src).index < D.blockSize := by
  rw [putSlice_eq_foldl h]
  induction src generalizing s with
  | nil => exact h
  | cons byte src ih => exact ih (putByte_index h byte)

end HasherObserver

namespace HasherChallenger

def initial (D : Digest) : HasherChallenger := .sampler ⟨0,D.digest [],D.digest []⟩

def toObserver : HasherChallenger → HasherObserver
  | .observer s => s
  | .sampler s => s.intoObserver

def toSampler (D : Digest) : HasherChallenger → HasherSampler
  | .observer s => s.intoSampler D
  | .sampler s => s

/-- The block of an observer has room. -/
def Valid (D : Digest) : HasherChallenger → Prop
  | .observer s => s.index < D.blockSize
  | .sampler _ => True

theorem toObserver_index {D : Digest} {c : HasherChallenger} (h : c.Valid D) :
    c.toObserver.index < D.blockSize := by
  cases c with
  | observer s => exact h
  | sampler s => exact D.blockSize_pos

def challenger (D : Digest) : Challenger { c : HasherChallenger // c.Valid D } where
  observer c := ⟨.observer c.val.toObserver,toObserver_index c.property⟩
  putSlice src c :=
    ⟨.observer (c.val.toObserver.putSlice D src),
      HasherObserver.putSlice_index (toObserver_index c.property) src⟩
  sampler c := ⟨.sampler (c.val.toSampler D),trivial⟩
  copyToSlice n c :=
    let (bytes,s) := (c.val.toSampler D).copyToSlice D n
    (bytes,⟨.sampler s,trivial⟩)
  observe_append c a b := by
    have hobserver := toObserver_index c.property
    have hnext := HasherObserver.putSlice_index hobserver a
    refine Subtype.ext (congrArg HasherChallenger.observer ?_)
    have happend : (c.val.toObserver.putSlice D a).putSlice D b = c.val.toObserver.putSlice D (a ++ b) := by
      rw [HasherObserver.putSlice_eq_foldl hnext,HasherObserver.putSlice_eq_foldl hobserver,
        HasherObserver.putSlice_eq_foldl hobserver,foldl_append]
    exact happend

end HasherChallenger

end Binius64.FiatShamir
