import Binius64.Challenger
import Mathlib.Data.List.GetD
import Mathlib.Tactic.Ring

/-!
# The byte stream of a challenger

The challenger over a hash under any sequence of put, copy and advance calls.
-/

namespace Binius64.FiatShamir

namespace HasherSampler

/-- The bytes of the digest that are not drawn yet. -/
def chunk (s : HasherSampler) : List UInt8 := s.buffer.drop s.index

def advanceLoop (D : Digest) : ℕ → ℕ → HasherSampler → HasherSampler
  | 0,_,s => s
  | fuel + 1,cnt,s =>
    if cnt = 0 then s else
      let remaining := min (D.outputSize - s.index) cnt
      if remaining = 0 then advanceLoop D fuel cnt (s.fillBuffer D)
      else advanceLoop D fuel (cnt - remaining) { s with index := s.index + remaining }

/-- Skip bytes; a digest that is used up is replaced even when there are none to skip. -/
def advance (D : Digest) (cnt : ℕ) (s : HasherSampler) : HasherSampler :=
  advanceLoop D (2 * cnt) cnt (if s.index = D.outputSize then s.fillBuffer D else s)

def copyChunks (D : Digest) : ℕ → ℕ → HasherSampler → List UInt8 × HasherSampler
  | 0,_,s => ([],s)
  | fuel + 1,n,s =>
    if n = 0 then ([],s) else
      let cnt := min s.chunk.length n
      let (rest,s') := copyChunks D fuel (n - cnt) (s.advance D cnt)
      (s.chunk.take cnt ++ rest,s')

end HasherSampler

inductive StreamCall where
  | put (src : List UInt8)
  | copy (n : ℕ)
  | advance (cnt : ℕ)
deriving DecidableEq

namespace HasherChallenger

def call (D : Digest) (c : HasherChallenger) : StreamCall → List (List UInt8) × HasherChallenger
  | .put src => ([],.observer (c.toObserver.putSlice D src))
  | .copy n =>
    let (bytes,s) := (c.toSampler D).copyChunks D (2 * n) n
    ([bytes],.sampler s)
  | .advance cnt => ([],.sampler ((c.toSampler D).advance D cnt))

def outputs (D : Digest) : HasherChallenger → List StreamCall → List (List UInt8)
  | _,[] => []
  | c,call :: calls => (c.call D call).1 ++ outputs D (c.call D call).2 calls

end HasherChallenger

/-- Calls of one kind in a row. -/
inductive StreamRun where
  | observed (bytes : List UInt8)
  /-- The number of bytes sampled or skipped, and whether the run ends with an advance of none. -/
  | drawn (n : ℕ) (idle : Bool)
deriving DecidableEq

def StreamCall.run : StreamCall → StreamRun
  | put src => .observed src
  | copy n => .drawn n false
  | advance cnt => .drawn cnt (cnt == 0)

/-- Put a run in front of others, as one with the first of them when both are of a kind. -/
def StreamRun.cons : StreamRun → List StreamRun → List StreamRun
  | observed a,observed b :: rest => observed (a ++ b) :: rest
  | drawn m i,drawn n j :: rest => drawn (m + n) (if n = 0 then i || j else j) :: rest
  | run,rest => run :: rest

/-- Adjacent observations and adjacent samples as one. -/
def merge (runs : List StreamRun) : List StreamRun := runs.foldr StreamRun.cons []

def block (D : Digest) (content : List UInt8) : ℕ → List UInt8
  | 0 => D.digest content
  | k + 1 => D.digest (block D content k)

/-- The first bytes of a chain. -/
def stream (D : Digest) (content : List UInt8) (n : ℕ) : List UInt8 :=
  (List.range n).map fun t => (block D content (t / D.outputSize)).getD (t % D.outputSize) 0

/-- What is absorbed when a run of samples is over: the last block, and how much of it was drawn. -/
def carried (D : Digest) (content : List UInt8) (n : ℕ) (idle : Bool) : List UInt8 :=
  if idle ∧ n % D.outputSize = 0 then block D content (n / D.outputSize) ++ ByteCodec.leBytes 8 0
  else if n = 0 then content ++ ByteCodec.leBytes 8 D.outputSize
  else block D content ((n - 1) / D.outputSize) ++ ByteCodec.leBytes 8 ((n - 1) % D.outputSize + 1)

/-- The bytes that runs of samples cover, from what is absorbed. -/
def chainFrom (D : Digest) : List StreamRun → List UInt8 → List UInt8
  | [],_ => []
  | .observed bytes :: rest,content => chainFrom D rest (content ++ bytes)
  | .drawn n idle :: rest,content => stream D content n ++ chainFrom D rest (carried D content n idle)

/-- The bytes that runs of samples cover, from the start: the first block is the digest of nothing,
and it is taken before anything is drawn. -/
def chain (D : Digest) : List StreamRun → List UInt8
  | .drawn n idle :: rest =>
    stream D [] n ++ chainFrom D rest (carried D [] n (if n = 0 then true else idle))
  | runs => chainFrom D runs (carried D [] 0 true)

/-- The slices that calls fill from the bytes their samples cover. -/
def deliver : List StreamCall → List UInt8 → List (List UInt8)
  | [],_ => []
  | .put _ :: calls,bytes => deliver calls bytes
  | .copy n :: calls,bytes => bytes.take n :: deliver calls (bytes.drop n)
  | .advance cnt :: calls,bytes => deliver calls (bytes.drop cnt)

/-- A position in a chain: what was absorbed, the blocks taken, and how much of the last one is drawn. -/
structure Position where
  content : List UInt8
  taken : ℕ
  index : ℕ

namespace Position

variable (D : Digest)

/-- What the hasher holds. -/
def held (p : Position) : List UInt8 :=
  match p.taken with
  | 0 => p.content
  | k + 1 => block D p.content k

/-- Take the next block when the last one is used up. -/
def touch (p : Position) : Position := if p.index = D.outputSize then ⟨p.content,p.taken + 1,0⟩ else p

def drawOne (p : Position) : Position :=
  let p := p.touch D
  { p with index := p.index + 1 }

variable (n : ℕ)

def draw (p : Position) : Position := (drawOne D)^[n] p

/-- The number of bytes drawn. -/
def count (p : Position) : ℕ := (p.taken - 1) * D.outputSize + if p.taken = 0 then 0 else p.index

def next (p : Position) : List UInt8 :=
  (List.range n).map fun t =>
    (block D p.content ((p.count D + t) / D.outputSize)).getD ((p.count D + t) % D.outputSize) 0

/-- Positions that can come up: nothing taken, or a block taken and no more drawn than it has. -/
structure Valid (p : Position) : Prop where
  index_le : p.index ≤ D.outputSize
  index_of_none : p.taken = 0 → p.index = D.outputSize

variable {D} {p : Position}

theorem touch_content : (p.touch D).content = p.content := by
  rw [touch]
  split <;> rfl

theorem touch_count : (p.touch D).count D = p.count D := by
  unfold touch
  split
  · rename_i hused
    unfold count
    dsimp only
    rw [Nat.add_sub_cancel,if_neg (Nat.succ_ne_zero _),hused]
    cases p.taken with
    | zero => rfl
    | succ k => rw [Nat.add_sub_cancel,if_neg (Nat.succ_ne_zero _),Nat.succ_mul,Nat.add_zero]
  · rfl

theorem Valid.touch (h : p.Valid D) : (p.touch D).Valid D := by
  rw [Position.touch]
  split
  · exact ⟨Nat.zero_le _,fun hnone => absurd hnone (Nat.succ_ne_zero _)⟩
  · exact h

theorem Valid.touched (h : p.Valid D) : ∃ k, (p.touch D).taken = k + 1 ∧ (p.touch D).index < D.outputSize := by
  rw [Position.touch]
  split
  · exact ⟨p.taken,rfl,D.outputSize_pos⟩
  · rename_i hleft
    cases htaken : p.taken with
    | zero => exact absurd (h.index_of_none htaken) hleft
    | succ k => exact ⟨k,rfl,lt_of_le_of_ne h.index_le hleft⟩

theorem touch_touch : (p.touch D).touch D = p.touch D := by
  have hempty : ¬0 = D.outputSize := D.outputSize_pos.ne
  by_cases hused : p.index = D.outputSize
  · have htouch : p.touch D = ⟨p.content,p.taken + 1,0⟩ := if_pos hused
    rw [htouch]
    exact if_neg hempty
  · have htouch : p.touch D = p := if_neg hused
    rw [htouch,htouch]

theorem Valid.drawOne (h : p.Valid D) : (p.drawOne D).Valid D := by
  obtain ⟨k,htaken,hindex⟩ := h.touched
  refine ⟨hindex,fun hnone => ?_⟩
  have hzero : (p.touch D).taken = 0 := hnone
  omega

theorem Valid.drawOne_count (h : p.Valid D) : (p.drawOne D).count D = p.count D + 1 := by
  obtain ⟨k,htaken,hindex⟩ := h.touched
  rw [←touch_count (p := p)]
  unfold Position.drawOne count
  dsimp only
  rw [htaken,if_neg (Nat.succ_ne_zero _),if_neg (Nat.succ_ne_zero _)]
  rfl

theorem draw_succ : p.draw D (n + 1) = (p.drawOne D).draw D n := rfl

theorem draw_add (m n : ℕ) : p.draw D (m + n) = (p.draw D m).draw D n := by
  rw [draw,Nat.add_comm,Function.iterate_add_apply]
  rfl

theorem draw_content : (p.draw D n).content = p.content := by
  induction n generalizing p with
  | zero => rfl
  | succ n ih => exact ih.trans touch_content

theorem Valid.draw (h : p.Valid D) (n : ℕ) : (p.draw D n).Valid D ∧ (p.draw D n).count D = p.count D + n := by
  induction n generalizing p with
  | zero => exact ⟨h,rfl⟩
  | succ n ih =>
    obtain ⟨hvalid,hcount⟩ := ih h.drawOne
    refine ⟨hvalid,?_⟩
    rw [draw_succ,hcount,h.drawOne_count]
    omega

theorem draw_touch {n : ℕ} (hn : n ≠ 0) : (p.touch D).draw D n = p.draw D n := by
  obtain ⟨m,rfl⟩ := Nat.exists_eq_succ_of_ne_zero hn
  rw [draw_succ,draw_succ,drawOne,touch_touch]
  rfl

theorem next_congr {q : Position} (hcontent : p.content = q.content) (hcount : p.count D = q.count D) (n : ℕ) :
    p.next D n = q.next D n := by
  rw [next,next,hcontent,hcount]

theorem Valid.next_add (h : p.Valid D) (m n : ℕ) :
    p.next D (m + n) = p.next D m ++ (p.draw D m).next D n := by
  rw [next,next,next,List.range_add,List.map_append,List.map_map,draw_content,(h.draw m).2]
  simp only [Function.comp_def,Nat.add_assoc]

theorem Valid.next_one (h : p.Valid D) :
    p.next D 1 = [((p.touch D).held D).getD (p.touch D).index 0] := by
  obtain ⟨k,htaken,hindex⟩ := h.touched
  have hcount : p.count D = k * D.outputSize + (p.touch D).index := by
    rw [←touch_count (p := p),count,htaken,if_neg (Nat.succ_ne_zero _),Nat.add_sub_cancel]
  have hdiv : (k * D.outputSize + (p.touch D).index) / D.outputSize = k := by
    rw [Nat.mul_comm,Nat.mul_add_div D.outputSize_pos,Nat.div_eq_of_lt hindex,Nat.add_zero]
  have hmod : (k * D.outputSize + (p.touch D).index) % D.outputSize = (p.touch D).index := by
    rw [Nat.mul_comm,Nat.mul_add_mod,Nat.mod_eq_of_lt hindex]
  have hheld : (p.touch D).held D = block D p.content k := by
    rw [held,htaken]
    dsimp only
    rw [touch_content]
  rw [next,List.range_one,List.map_singleton,Nat.add_zero,hcount,hdiv,hmod,hheld]

end Position

namespace HasherSampler

variable {D : Digest} {s : HasherSampler} {p : Position}

structure StandsAt (D : Digest) (s : HasherSampler) (p : Position) : Prop where
  index : s.index = p.index
  hasher : s.hasher = p.held D
  buffer : p.taken ≠ 0 → s.buffer = p.held D
  length : s.buffer.length = D.outputSize
  valid : p.Valid D

/-- The sampler that has its next digest when the last one is used up. -/
def refill (D : Digest) (s : HasherSampler) : HasherSampler := if s.index = D.outputSize then s.fillBuffer D else s

theorem StandsAt.refill (h : StandsAt D s p) : StandsAt D (s.refill D) (p.touch D) := by
  have hvalid := h.valid.touch
  by_cases hused : p.index = D.outputSize
  · have htouch : p.touch D = ⟨p.content,p.taken + 1,0⟩ := if_pos hused
    have hrefill : s.refill D = s.fillBuffer D := if_pos (h.index.trans hused)
    have hnext : D.digest s.hasher = Position.held D ⟨p.content,p.taken + 1,0⟩ := by
      rw [h.hasher,Position.held,Position.held]
      dsimp only
      cases p.taken with
      | zero => rfl
      | succ k => rfl
    rw [htouch] at hvalid ⊢
    rw [hrefill,fillBuffer]
    exact ⟨rfl,hnext,fun _ => hnext,D.digest_length _,hvalid⟩
  · have htouch : p.touch D = p := if_neg hused
    have hrefill : s.refill D = s := if_neg (h.index ▸ hused)
    rw [htouch,hrefill]
    exact h

theorem StandsAt.copyToSlice (h : StandsAt D s p) (n : ℕ) :
    (s.copyToSlice D n).1 = p.next D n ∧ StandsAt D (s.copyToSlice D n).2 (p.draw D n) := by
  induction n generalizing s p with
  | zero => exact ⟨rfl,h⟩
  | succ n ih =>
    have hrefill := h.refill
    obtain ⟨k,htaken,hindex⟩ := h.valid.touched
    have hnone : (p.touch D).taken ≠ 0 := by omega
    have hone : StandsAt D { s.refill D with index := (s.refill D).index + 1 } (p.drawOne D) := by
      refine ⟨congrArg (· + 1) hrefill.index,hrefill.hasher,hrefill.buffer,hrefill.length,h.valid.drawOne⟩
    obtain ⟨hbytes,hrest⟩ := ih hone
    rw [HasherSampler.copyToSlice]
    refine ⟨?_,hrest⟩
    have hbuffer : (s.refill D).buffer.getD (s.refill D).index 0 = ((p.touch D).held D).getD (p.touch D).index 0 := by
      rw [hrefill.buffer hnone,hrefill.index]
    have hsplit := h.valid.next_add 1 n
    rw [h.valid.next_one,←hbuffer,Nat.add_comm] at hsplit
    rw [hsplit]
    exact congrArg _ hbytes

theorem copyToSlice_within {m : ℕ} (hm : s.index + m ≤ D.outputSize) (hlength : s.buffer.length = D.outputSize)
    (n : ℕ) : s.copyToSlice D (m + n) =
      (s.chunk.take m ++ (copyToSlice D n { s with index := s.index + m }).1,
        (copyToSlice D n { s with index := s.index + m }).2) := by
  induction m generalizing s with
  | zero =>
    rw [Nat.zero_add,List.take_zero,List.nil_append]
    rfl
  | succ m ih =>
    have hleft : s.index ≠ D.outputSize := by omega
    have hnext := ih (s := { s with index := s.index + 1 }) (by dsimp only; omega) hlength
    dsimp only at hnext
    have hchunk : s.chunk.take (m + 1) = s.buffer.getD s.index 0 :: (s.buffer.drop (s.index + 1)).take m := by
      have hlt : s.index < s.buffer.length := by omega
      rw [chunk,List.drop_eq_getElem_cons hlt,List.take_succ_cons,List.getD_eq_getElem _ _ hlt]
    have hindex : s.index + 1 + m = s.index + (m + 1) := by omega
    rw [Nat.add_right_comm,copyToSlice,if_neg hleft]
    dsimp only
    rw [hnext,hchunk,hindex]
    rfl

theorem advanceLoop_eq {fuel cnt : ℕ} (hindex : s.index ≤ D.outputSize) (hlength : s.buffer.length = D.outputSize)
    (hfuel : 2 * cnt ≤ fuel + if s.index = D.outputSize then 0 else 1) :
    s.advanceLoop D fuel cnt = (s.copyToSlice D cnt).2 := by
  induction fuel generalizing s cnt with
  | zero =>
    have hcnt : cnt = 0 := by
      split at hfuel <;> omega
    rw [hcnt]
    rfl
  | succ fuel ih =>
    rw [advanceLoop]
    by_cases hcnt : cnt = 0
    · rw [if_pos hcnt,hcnt]
      rfl
    rw [if_neg hcnt]
    dsimp only
    by_cases hused : s.index = D.outputSize
    · have hempty : ¬0 = D.outputSize := D.outputSize_pos.ne
      have hfill : s.copyToSlice D cnt = (s.fillBuffer D).copyToSlice D cnt := by
        obtain ⟨m,rfl⟩ := Nat.exists_eq_succ_of_ne_zero hcnt
        rw [copyToSlice,copyToSlice,if_pos hused,fillBuffer,if_neg hempty]
      rw [if_pos hused] at hfuel
      rw [hused,Nat.sub_self,Nat.zero_min,if_pos rfl,hfill]
      refine ih (Nat.zero_le _) (D.digest_length _) ?_
      have hfresh : (s.fillBuffer D).index ≠ D.outputSize := hempty
      rw [if_neg hfresh]
      omega
    · rw [if_neg hused] at hfuel
      have hpos : min (D.outputSize - s.index) cnt ≠ 0 := by omega
      have hwithin := copyToSlice_within (m := min (D.outputSize - s.index) cnt) (by omega) hlength
        (cnt - min (D.outputSize - s.index) cnt)
      rw [Nat.add_sub_cancel' (min_le_right _ _)] at hwithin
      rw [if_neg hpos,hwithin]
      refine ih (by dsimp only; omega) hlength ?_
      dsimp only
      split <;> omega

theorem advance_eq {cnt : ℕ} (hindex : s.index ≤ D.outputSize) (hlength : s.buffer.length = D.outputSize) :
    s.advance D cnt = ((s.refill D).copyToSlice D cnt).2 := by
  by_cases hused : s.index = D.outputSize
  · have hrefill : s.refill D = s.fillBuffer D := if_pos hused
    rw [advance,if_pos hused,hrefill]
    exact advanceLoop_eq (Nat.zero_le _) (D.digest_length _) (by omega)
  · have hrefill : s.refill D = s := if_neg hused
    rw [advance,if_neg hused,hrefill]
    exact advanceLoop_eq hindex hlength (by omega)

theorem copyChunks_eq {fuel n : ℕ} (hindex : s.index ≤ D.outputSize) (hlength : s.buffer.length = D.outputSize)
    (hfuel : 2 * n ≤ fuel + if s.index = D.outputSize then 0 else 1) :
    s.copyChunks D fuel n = s.copyToSlice D n := by
  induction fuel generalizing s n with
  | zero =>
    have hn : n = 0 := by
      split at hfuel <;> omega
    rw [hn]
    rfl
  | succ fuel ih =>
    rw [copyChunks]
    by_cases hn : n = 0
    · rw [if_pos hn,hn]
      rfl
    have hchunk : s.chunk.length = D.outputSize - s.index := by
      rw [chunk,List.length_drop,hlength]
    rw [if_neg hn]
    dsimp only
    by_cases hused : s.index = D.outputSize
    · have hempty : ¬0 = D.outputSize := D.outputSize_pos.ne
      have hfill : s.copyToSlice D n = (s.fillBuffer D).copyToSlice D n := by
        obtain ⟨m,rfl⟩ := Nat.exists_eq_succ_of_ne_zero hn
        rw [copyToSlice,copyToSlice,if_pos hused,fillBuffer,if_neg hempty]
      have hrefill : s.refill D = s.fillBuffer D := if_pos hused
      have hfresh : (s.fillBuffer D).index ≠ D.outputSize := hempty
      rw [if_pos hused] at hfuel
      rw [hchunk,hused,Nat.sub_self,Nat.zero_min,List.take_zero,advance_eq hindex hlength,hrefill,hfill]
      exact ih (s := s.fillBuffer D) (Nat.zero_le _) (D.digest_length _) (by rw [if_neg hfresh]; omega)
    · rw [if_neg hused] at hfuel
      have hrefill : s.refill D = s := if_neg hused
      have hskip := copyToSlice_within (m := min s.chunk.length n) (by omega) hlength 0
      have hwithin := copyToSlice_within (m := min s.chunk.length n) (by omega) hlength (n - min s.chunk.length n)
      rw [Nat.add_sub_cancel' (min_le_right _ _)] at hwithin
      rw [Nat.add_zero] at hskip
      rw [advance_eq hindex hlength,hrefill,hskip,hwithin]
      have hrest := ih (s := { s with index := s.index + min s.chunk.length n }) (n := n - min s.chunk.length n)
        (by dsimp only; omega) hlength (by dsimp only; split <;> omega)
      dsimp only [copyToSlice]
      rw [hrest]

theorem StandsAt.copyChunks (h : StandsAt D s p) (n : ℕ) :
    (s.copyChunks D (2 * n) n).1 = p.next D n ∧ StandsAt D (s.copyChunks D (2 * n) n).2 (p.draw D n) := by
  rw [copyChunks_eq (h.index ▸ h.valid.index_le) h.length (by omega)]
  exact h.copyToSlice n

theorem StandsAt.advance (h : StandsAt D s p) (cnt : ℕ) :
    StandsAt D (s.advance D cnt) (if cnt = 0 then p.touch D else p.draw D cnt) := by
  rw [advance_eq (h.index ▸ h.valid.index_le) h.length]
  have hrest := (h.refill.copyToSlice cnt).2
  by_cases hcnt : cnt = 0
  · rw [if_pos hcnt]
    rw [hcnt] at hrest ⊢
    exact hrest
  · rw [if_neg hcnt,←Position.draw_touch hcnt]
    exact hrest

end HasherSampler

/-- Where a challenger stands: what it has absorbed, or the position it draws from. -/
inductive Stand where
  | observing (content : List UInt8)
  | drawing (p : Position)

namespace Stand

variable (D : Digest)

/-- What is absorbed before bytes are observed. -/
def absorbed : Stand → List UInt8
  | observing content => content
  | drawing p => p.held D ++ ByteCodec.leBytes 8 p.index

def position : Stand → Position
  | observing content => ⟨content,0,D.outputSize⟩
  | drawing p => p

def Valid (st : Stand) : Prop := (st.position D).Valid D

variable (idle : Bool)

/-- The position after bytes are drawn; an advance of none takes the next block. -/
def finish (p : Position) : Position := if idle then p.touch D else p

/-- The bytes that runs of samples cover. -/
def trace : Stand → List StreamRun → List UInt8
  | _,[] => []
  | st,.observed bytes :: rest => trace (.observing (st.absorbed D ++ bytes)) rest
  | st,.drawn n idle :: rest =>
    (st.position D).next D n ++ trace (.drawing (finish D idle ((st.position D).draw D n))) rest

variable {D}

theorem position_drawing (p : Position) : (drawing p).position D = p := rfl

theorem valid_observing (content : List UInt8) : (observing content).Valid D := ⟨le_rfl,fun _ => rfl⟩

variable {p : Position}

theorem finish_valid (h : p.Valid D) (idle : Bool) : (finish D idle p).Valid D := by
  cases idle with
  | false => exact h
  | true => exact h.touch

theorem finish_content : (finish D idle p).content = p.content := by
  cases idle with
  | false => rfl
  | true => exact Position.touch_content

theorem finish_count : (finish D idle p).count D = p.count D := by
  cases idle with
  | false => rfl
  | true => exact Position.touch_count

theorem finish_draw (n : ℕ) (i j : Bool) :
    finish D j ((finish D i p).draw D n) = finish D (if n = 0 then i || j else j) (p.draw D n) := by
  by_cases hn : n = 0
  · rw [if_pos hn,hn]
    cases i with
    | false => rfl
    | true =>
      cases j with
      | false => rfl
      | true => exact Position.touch_touch
  · rw [if_neg hn]
    cases i with
    | false => rfl
    | true => exact congrArg (finish D j) (Position.draw_touch hn)

theorem trace_cons {st : Stand} (h : st.Valid D) (run : StreamRun) (runs : List StreamRun) :
    st.trace D (run.cons runs) = st.trace D (run :: runs) := by
  cases runs with
  | nil => cases run <;> rfl
  | cons first rest =>
    cases run with
    | observed a =>
      cases first with
      | observed b =>
        rw [StreamRun.cons,trace,trace,trace,←List.append_assoc]
        rfl
      | drawn n j => rfl
    | drawn m i =>
      cases first with
      | observed b => rfl
      | drawn n j =>
        have hnext : (finish D i ((st.position D).draw D m)).next D n = ((st.position D).draw D m).next D n :=
          Position.next_congr (finish_content i) (finish_count i) n
        rw [StreamRun.cons,trace,trace,trace]
        rw [position_drawing,Position.Valid.next_add h,hnext,finish_draw,←Position.draw_add,List.append_assoc]

theorem trace_merge {s : Stand} (h : s.Valid D) (runs : List StreamRun) :
    s.trace D (merge runs) = s.trace D runs := by
  induction runs generalizing s with
  | nil => rfl
  | cons run runs ih =>
    have hcons : merge (run :: runs) = run.cons (merge runs) := rfl
    rw [hcons,trace_cons h]
    cases run with
    | observed bytes => exact ih (valid_observing _)
    | drawn n idle =>
      have hrest := ih (s := .drawing (finish D idle ((s.position D).draw D n)))
        (finish_valid (Position.Valid.draw h n).1 idle)
      rw [trace,trace,hrest]

end Stand

section Chain

variable {D : Digest}

variable (content : List UInt8)

theorem draw_start (n : ℕ) : Position.draw D (n + 1) ⟨content,0,D.outputSize⟩ =
    ⟨content,n / D.outputSize + 1,n % D.outputSize + 1⟩ := by
  have hpos := D.outputSize_pos
  induction n with
  | zero =>
    have htouch : Position.touch D ⟨content,0,D.outputSize⟩ = ⟨content,1,0⟩ := if_pos rfl
    rw [Position.draw_succ,Position.drawOne,htouch,Nat.zero_div,Nat.zero_mod]
    rfl
  | succ n ih =>
    have hlast := Nat.div_add_mod n D.outputSize
    have hlt := Nat.mod_lt n hpos
    rw [Position.draw_add (n + 1) 1,ih]
    by_cases hused : n % D.outputSize + 1 = D.outputSize
    · have hnext : n + 1 = D.outputSize * (n / D.outputSize + 1) := by
        rw [Nat.mul_succ]
        omega
      have hdiv : (n + 1) / D.outputSize = n / D.outputSize + 1 := by
        rw [hnext,Nat.mul_div_cancel_left _ hpos]
      have hmod : (n + 1) % D.outputSize = 0 := by
        rw [hnext,Nat.mul_mod_right]
      have htouch : Position.touch D ⟨content,n / D.outputSize + 1,n % D.outputSize + 1⟩ =
          ⟨content,n / D.outputSize + 1 + 1,0⟩ := if_pos hused
      rw [hdiv,hmod,Position.draw_succ,Position.drawOne,htouch]
      rfl
    · have hnext : n + 1 = D.outputSize * (n / D.outputSize) + (n % D.outputSize + 1) := by omega
      have hfits : n % D.outputSize + 1 < D.outputSize := by omega
      have hdiv : (n + 1) / D.outputSize = n / D.outputSize := by
        conv_lhs => rw [hnext,Nat.mul_add_div hpos,Nat.div_eq_of_lt hfits,Nat.add_zero]
      have hmod : (n + 1) % D.outputSize = n % D.outputSize + 1 := by
        conv_lhs => rw [hnext,Nat.mul_add_mod,Nat.mod_eq_of_lt hfits]
      have htouch : Position.touch D ⟨content,n / D.outputSize + 1,n % D.outputSize + 1⟩ =
          ⟨content,n / D.outputSize + 1,n % D.outputSize + 1⟩ := if_neg hused
      rw [hdiv,hmod,Position.draw_succ,Position.drawOne,htouch]
      rfl

theorem absorbed_drawn (n : ℕ) (idle : Bool) :
    (Stand.drawing (Stand.finish D idle (Position.draw D n ⟨content,0,D.outputSize⟩))).absorbed D =
      carried D content n idle := by
  have hpos := D.outputSize_pos
  cases n with
  | zero =>
    cases idle with
    | false => rfl
    | true =>
      have htouch : Position.touch D ⟨content,0,D.outputSize⟩ = ⟨content,1,0⟩ := if_pos rfl
      have hblock : carried D content 0 true = block D content (0 / D.outputSize) ++ ByteCodec.leBytes 8 0 :=
        if_pos ⟨rfl,Nat.zero_mod _⟩
      rw [hblock,Nat.zero_div,Stand.finish,if_pos rfl]
      change (Stand.drawing (Position.touch D ⟨content,0,D.outputSize⟩)).absorbed D = _
      rw [htouch]
      rfl
  | succ n =>
    have hlast := Nat.div_add_mod n D.outputSize
    have hlt := Nat.mod_lt n hpos
    have hused : (n + 1) % D.outputSize = 0 ↔ n % D.outputSize + 1 = D.outputSize := by
      have hsplit : n + 1 = D.outputSize * (n / D.outputSize) + (n % D.outputSize + 1) := by omega
      rw [hsplit,Nat.mul_add_mod]
      constructor
      · intro hzero
        by_contra hne
        rw [Nat.mod_eq_of_lt (by omega)] at hzero
        omega
      · intro heq
        rw [heq,Nat.mod_self]
    rw [draw_start,carried]
    by_cases htaken : idle = true ∧ (n + 1) % D.outputSize = 0
    · have hfull := hused.mp htaken.2
      have htouch : Position.touch D ⟨content,n / D.outputSize + 1,n % D.outputSize + 1⟩ =
          ⟨content,n / D.outputSize + 1 + 1,0⟩ := if_pos hfull
      have hdiv : (n + 1) / D.outputSize = n / D.outputSize + 1 := by
        have hnext : n + 1 = D.outputSize * (n / D.outputSize + 1) := by
          rw [Nat.mul_succ]
          omega
        conv_lhs => rw [hnext,Nat.mul_div_cancel_left _ hpos]
      rw [if_pos htaken,Stand.finish,if_pos htaken.1,htouch,hdiv]
      rfl
    · have hstay : Stand.finish D idle ⟨content,n / D.outputSize + 1,n % D.outputSize + 1⟩ =
          ⟨content,n / D.outputSize + 1,n % D.outputSize + 1⟩ := by
        cases hidle : idle with
        | false => rfl
        | true => exact if_neg fun hfull => htaken ⟨hidle,hused.mpr hfull⟩
      rw [if_neg htaken,if_neg (Nat.succ_ne_zero _),hstay]
      rfl

def StreamRun.observes : StreamRun → Bool
  | observed _ => true
  | drawn _ _ => false

/-- No two runs of a kind are adjacent. -/
def Alternates : List StreamRun → Prop
  | a :: b :: rest => a.observes ≠ b.observes ∧ Alternates (b :: rest)
  | _ => True

variable {runs : List StreamRun}

theorem Alternates.tail {run : StreamRun} (h : Alternates (run :: runs)) :
    Alternates runs := by
  cases runs with
  | nil => trivial
  | cons next rest => exact h.2

theorem Alternates.replace {a b : StreamRun} {rest : List StreamRun} (hkind : a.observes = b.observes)
    (h : Alternates (b :: rest)) : Alternates (a :: rest) := by
  cases rest with
  | nil => trivial
  | cons next rest => exact ⟨hkind ▸ h.1,h.2⟩

theorem Alternates.cons (h : Alternates runs) (run : StreamRun) :
    Alternates (run.cons runs) := by
  cases runs with
  | nil =>
    cases run with
    | observed a => trivial
    | drawn m i => trivial
  | cons first rest =>
    cases run with
    | observed a =>
      cases first with
      | observed b => exact Alternates.replace (b := .observed b) rfl h
      | drawn n j => exact ⟨Bool.false_ne_true.symm,h⟩
    | drawn m i =>
      cases first with
      | observed b => exact ⟨Bool.false_ne_true,h⟩
      | drawn n j => exact Alternates.replace (b := .drawn n j) rfl h

theorem alternates_merge (runs : List StreamRun) : Alternates (merge runs) := by
  induction runs with
  | nil => trivial
  | cons run runs ih => exact ih.cons run

theorem trace_chainFrom (h : Alternates runs) {s : Stand}
    (hfirst : ∀ n idle rest, runs = .drawn n idle :: rest → ∃ content, s = .observing content) :
    s.trace D runs = chainFrom D runs (s.absorbed D) := by
  induction runs generalizing s with
  | nil => rfl
  | cons run rest ih =>
    cases run with
    | observed bytes =>
      rw [Stand.trace,chainFrom]
      exact ih h.tail fun _ _ _ _ => ⟨_,rfl⟩
    | drawn n idle =>
      obtain ⟨content,rfl⟩ := hfirst n idle rest rfl
      have hstream : Position.next D n ⟨content,0,D.outputSize⟩ = stream D content n := by
        rw [Position.next,stream]
        refine List.map_congr_left fun t _ => ?_
        have hcount : Position.count D ⟨content,0,D.outputSize⟩ = 0 := by
          rw [Position.count,if_pos rfl,Nat.zero_sub,Nat.zero_mul]
        rw [hcount,Nat.zero_add]
      have hrest := ih h.tail (s := .drawing (Stand.finish D idle (Position.draw D n ⟨content,0,D.outputSize⟩)))
        fun m j tail hruns => absurd rfl (hruns ▸ h : Alternates (.drawn n idle :: .drawn m j :: tail)).1
      rw [absorbed_drawn] at hrest
      rw [Stand.trace,chainFrom]
      exact congrArg₂ (· ++ ·) hstream hrest

theorem trace_chain (h : Alternates runs) :
    (Stand.drawing ⟨[],1,0⟩).trace D runs = chain D runs := by
  have htouch : Position.touch D ⟨[],0,D.outputSize⟩ = ⟨[],1,0⟩ := if_pos rfl
  have hstart : (Stand.drawing ⟨[],1,0⟩).absorbed D = carried D [] 0 true := by
    rw [←absorbed_drawn,Stand.finish,if_pos rfl]
    change _ = (Stand.drawing (Position.touch D ⟨[],0,D.outputSize⟩)).absorbed D
    rw [htouch]
  cases runs with
  | nil => rfl
  | cons run rest =>
    cases run with
    | observed bytes =>
      rw [trace_chainFrom h (fun _ _ _ hruns => by cases hruns),hstart]
      rfl
    | drawn n idle =>
      have hstand : Stand.finish D idle (Position.draw D n ⟨[],1,0⟩) =
          Stand.finish D (if n = 0 then true else idle) (Position.draw D n ⟨[],0,D.outputSize⟩) := by
        rw [←htouch]
        have hmerged := Stand.finish_draw (D := D) (p := ⟨[],0,D.outputSize⟩) n true idle
        rw [Bool.true_or] at hmerged
        exact hmerged
      have hnext : Position.next D n ⟨[],1,0⟩ = stream D [] n := by
        rw [Position.next,stream]
        refine List.map_congr_left fun t _ => ?_
        have hcount : Position.count D ⟨[],1,0⟩ = 0 := by
          rw [Position.count,Nat.sub_self,Nat.zero_mul]
          rfl
        rw [hcount,Nat.zero_add]
      have hrest := trace_chainFrom (D := D) h.tail
        (s := .drawing (Stand.finish D (if n = 0 then true else idle) (Position.draw D n ⟨[],0,D.outputSize⟩)))
        fun m j tail hruns => absurd rfl (hruns ▸ h : Alternates (.drawn n idle :: .drawn m j :: tail)).1
      rw [absorbed_drawn] at hrest
      rw [Stand.trace,chain,Stand.position_drawing,hnext,hstand,hrest]

end Chain

namespace HasherObserver

variable {D : Digest}

/-- The bytes absorbed, those in the block included. -/
def seen (s : HasherObserver) : List UInt8 := s.hasher ++ (List.range s.index).map s.buffer

theorem seen_putByte (s : HasherObserver) (byte : UInt8) : (s.putByte D byte).seen = s.seen ++ [byte] := by
  have hfilled : (⟨s.index + 1,Function.update s.buffer s.index byte,s.hasher⟩ : HasherObserver).seen =
      s.seen ++ [byte] := by
    have hold : (List.range s.index).map (Function.update s.buffer s.index byte) =
        (List.range s.index).map s.buffer :=
      List.map_congr_left fun j hj => Function.update_of_ne (List.mem_range.mp hj).ne _ _
    unfold seen
    dsimp only
    rw [List.range_succ,List.map_append,List.map_singleton,Function.update_self,hold,List.append_assoc]
  rw [putByte]
  dsimp only
  split
  · rw [←hfilled,seen,flush]
    exact List.append_nil _
  · exact hfilled

theorem seen_putSlice {s : HasherObserver} (h : s.index < D.blockSize) (src : List UInt8) :
    (s.putSlice D src).seen = s.seen ++ src := by
  rw [putSlice_eq_foldl h]
  clear h
  induction src generalizing s with
  | nil => exact (List.append_nil _).symm
  | cons byte src ih =>
    rw [List.foldl_cons,ih,seen_putByte,List.append_assoc,List.singleton_append]

end HasherObserver

namespace HasherChallenger

open HasherSampler (StandsAt)
open List

variable {D : Digest}

def Stands (D : Digest) : HasherChallenger → Stand → Prop
  | observer s,.observing content => s.index < D.blockSize ∧ s.seen = content
  | sampler s,.drawing p => StandsAt D s p
  | _,_ => False

theorem stands_initial : Stands D (initial D) (.drawing ⟨[],1,0⟩) :=
  ⟨rfl,rfl,fun _ => rfl,D.digest_length _,⟨Nat.zero_le _,fun hnone => absurd hnone Nat.one_ne_zero⟩⟩

variable {c : HasherChallenger} {st : Stand}

theorem Stands.toObserver (h : Stands D c st) :
    c.toObserver.index < D.blockSize ∧ c.toObserver.seen = st.absorbed D := by
  cases c with
  | observer s =>
    cases st with
    | observing content => exact h
    | drawing p => exact h.elim
  | sampler s =>
    cases st with
    | observing content => exact h.elim
    | drawing p =>
      have hstands : StandsAt D s p := h
      refine ⟨D.blockSize_pos,?_⟩
      have hseen : s.intoObserver.seen = s.hasher ++ ByteCodec.leBytes 8 s.index := List.append_nil _
      exact hseen.trans (by rw [hstands.hasher,hstands.index]; rfl)

theorem Stands.toSampler (h : Stands D c st) :
    StandsAt D (c.toSampler D) (st.position D) := by
  cases c with
  | observer s =>
    cases st with
    | observing content =>
      exact ⟨rfl,h.2,fun hnone => absurd rfl hnone,length_replicate,⟨le_rfl,fun _ => rfl⟩⟩
    | drawing p => exact h.elim
  | sampler s =>
    cases st with
    | observing content => exact h.elim
    | drawing p => exact h

theorem Stands.valid (h : Stands D c st) : st.Valid D := h.toSampler.valid

theorem Stands.outputs_eq (h : Stands D c st) (calls : List StreamCall) :
    outputs D c calls = deliver calls (st.trace D (calls.map StreamCall.run)) := by
  induction calls generalizing c st with
  | nil => rfl
  | cons call calls ih =>
    cases call with
    | put src =>
      obtain ⟨hindex,hseen⟩ := h.toObserver
      have hnext : Stands D (.observer (c.toObserver.putSlice D src)) (.observing (st.absorbed D ++ src)) :=
        ⟨HasherObserver.putSlice_index hindex src,by rw [HasherObserver.seen_putSlice hindex,hseen]⟩
      exact ih hnext
    | copy n =>
      obtain ⟨hbytes,hstands⟩ := h.toSampler.copyChunks n
      have hnext : Stands D (.sampler ((c.toSampler D).copyChunks D (2 * n) n).2)
        (.drawing (Stand.finish D false ((st.position D).draw D n))) := hstands
      have hlength : ((st.position D).next D n).length = n := by
        rw [Position.next,length_map,length_range]
      rw [map_cons,StreamCall.run,Stand.trace,deliver,take_left' hlength,drop_left' hlength,
        ←ih hnext,←hbytes]
      rfl
    | advance cnt =>
      have hstands := h.toSampler.advance cnt
      have hnext : Stands D (.sampler ((c.toSampler D).advance D cnt))
          (.drawing (Stand.finish D (cnt == 0) ((st.position D).draw D cnt))) := by
        by_cases hcnt : cnt = 0
        · rw [if_pos hcnt] at hstands
          rw [hcnt] at hstands ⊢
          exact hstands
        · rw [if_neg hcnt] at hstands
          have hmoved : (cnt == 0) = false := beq_false_of_ne hcnt
          rw [hmoved]
          exact hstands
      have hlength : ((st.position D).next D cnt).length = cnt := by
        rw [Position.next,length_map,length_range]
      rw [map_cons,StreamCall.run,Stand.trace,deliver,drop_left' hlength,←ih hnext]
      rfl

/-- The bytes a challenger gives are those of the chain that its merged calls follow. -/
theorem stream_exact (D : Digest) (calls : List StreamCall) :
    outputs D (initial D) calls = deliver calls (chain D (merge (calls.map StreamCall.run))) := by
  rw [stands_initial.outputs_eq,←Stand.trace_merge stands_initial.valid,trace_chain (alternates_merge _)]

def byteDigest : Digest where
  outputSize := 1
  blockSize := 2
  digest bytes := [bytes.foldl (fun sum byte => 3 * sum + byte + 1) 0]
  digest_length _ := rfl
  outputSize_pos := Nat.one_pos
  blockSize_pos := Nat.two_pos

/-- The bytes of a run, without the mark of an idle advance. -/
def extent : StreamRun → List UInt8 ⊕ ℕ
  | .observed bytes => .inl bytes
  | .drawn n _ => .inr n

/-- An advance of no bytes between a sample and an observation changes the bytes sampled later, and the second
block is not a digest of the first one and a counter. -/
theorem stream_splits_apart :
    ((merge ([.copy 1,.advance 0,.put [5],.copy 1].map StreamCall.run)).map extent =
      (merge ([.copy 1,.put [5],.copy 1].map StreamCall.run)).map extent ∧
    outputs byteDigest (initial byteDigest) [.copy 1,.advance 0,.put [5],.copy 1] ≠
      outputs byteDigest (initial byteDigest) [.copy 1,.put [5],.copy 1]) ∧
    outputs byteDigest (initial byteDigest) [.copy 2] ≠
      [byteDigest.digest [] ++ byteDigest.digest (byteDigest.digest [] ++ ByteCodec.leBytes 8 1)] := by
  decide

end HasherChallenger

end Binius64.FiatShamir
