import Binius64.BitTranspose
import Binius64.PackedBuffers

/-!
# Reversing the bits of every index

A buffer is permuted by reversing the bits of every index.
-/

namespace Binius64.BitReversal

open Ntt Footprints CheckedRun BitTranspose
open InplaceEvaluation (Values)
open List (mem_range nodup_range range range')
open Function (update update_apply update_of_ne update_self)
open Nat (div_add_mod' mod_lt mod_one shiftLeft_eq)

variable {F : Type} {w : ℕ}

abbrev Words (w : ℕ) (F : Type) := ℕ → PackedField w F

structure LoopOrder where
  order : ℕ → List ℕ
  perm : ∀ n, (order n).Perm (range n)

section Tiles

variable [Zero F]

/-- The word of a lane row of a sub-block. -/
def blockElem (w logTilePacked r a c : ℕ) : ℕ := (((r <<< w) ||| a) <<< logTilePacked) ||| c

def swapBlocks (logTilePacked : ℕ) (tile : Words w F) : Words w F :=
  (range (1 <<< logTilePacked)).foldl (fun tile r =>
    (range' (r + 1) (1 <<< logTilePacked - (r + 1))).foldl (fun tile c =>
      (range (2 ^ w)).foldl (fun tile a =>
        swap (blockElem w logTilePacked r a c) (blockElem w logTilePacked c a r) tile) tile) tile) tile

def transposeBlock (logTilePacked r c : ℕ) (tile block : Words w F) :
    Except AssertFailure (Words w F × Words w F) := do
  let block := (range (2 ^ w)).foldl (fun block a =>
    update block a (tile (blockElem w logTilePacked r a c))) block
  let block ← transposeSquareBlocks w w block
  let tile := (range (2 ^ w)).foldl (fun tile a =>
    update tile (blockElem w logTilePacked r a c) (block a)) tile
  return (tile,block)

def transposeTile (logTilePacked : ℕ) (tile block : Words w F) :
    Except AssertFailure (Words w F × Words w F) := do
  if logTilePacked = 0 then
    let tile ← transposeSquareBlocks w w tile
    return (tile,block)
  let tile := swapBlocks logTilePacked tile
  if w > 0 then
    (range (1 <<< logTilePacked)).foldlM (fun state r =>
      (range (1 <<< logTilePacked)).foldlM (fun state c =>
        transposeBlock logTilePacked r c state.1 state.2) state) (tile,block)
  else return (tile,block)

end Tiles

structure Scratch (w : ℕ) (F : Type) where
  square : Words w F
  mirror : Words w F
  block : Words w F

section Squares

variable [Zero F]

/-- The first word of the tile at a high index under a middle index. -/
def row (logTilePacked logMid h mm : ℕ) : ℕ := (h <<< (logMid + logTilePacked)) ||| (mm <<< logTilePacked)

/-- Read a square, its rows in reversed order. -/
def gather (logTilePacked logMid : ℕ) (data dst : Words w F) (mm : ℕ) : Words w F :=
  (range (1 <<< (w + logTilePacked))).foldl (fun dst j =>
    let src := row logTilePacked logMid (reverseBits j (w + logTilePacked)) mm
    (range (1 <<< logTilePacked)).foldl (fun dst k =>
      update dst ((j <<< logTilePacked) + k) (data (src + k))) dst) dst

/-- Write a square, its rows in reversed order. -/
def scatter (logTilePacked logMid : ℕ) (src data : Words w F) (mm : ℕ) : Words w F :=
  (range (1 <<< (w + logTilePacked))).foldl (fun data j =>
    let dst := row logTilePacked logMid (reverseBits j (w + logTilePacked)) mm
    (range (1 <<< logTilePacked)).foldl (fun data k =>
      update data (dst + k) (src ((j <<< logTilePacked) + k))) data) data

/-- One iteration: a pair of squares is claimed by the lower middle index. -/
def pairedTask (logTilePacked logMid : ℕ) (scratch : Scratch w F) (m : ℕ) (data : Words w F) :
    Except AssertFailure (Words w F) := do
  let mRev := reverseBits m logMid
  if mRev < m then return data
  let square := gather logTilePacked logMid data scratch.square m
  let (square,block) ← transposeTile logTilePacked square scratch.block
  if mRev = m then return scatter logTilePacked logMid square data m
  -- the mirror is read before it is overwritten
  let mirror := gather logTilePacked logMid data scratch.mirror mRev
  let (mirror,_) ← transposeTile logTilePacked mirror block
  let data := scatter logTilePacked logMid square data mRev
  return scatter logTilePacked logMid mirror data m

end Squares

section Buffers

variable [Field F]

/-- Permute a buffer in squares of tiles of so many words. -/
def bitReversePaired (loop : LoopOrder) (scratch : ℕ → Scratch w F) (logTilePacked : ℕ)
    (buffer : FieldBuffer w F) : Except AssertFailure (FieldBuffer w F) := do
  let logTile := w + logTilePacked
  let logMid := buffer.logLen - 2 * logTile
  let data ← (loop.order (1 <<< logMid)).foldlM
    (fun data m => pairedTask logTilePacked logMid (scratch m) m data) fun x => buffer.words.getD x 0
  FieldBuffer.new buffer.logLen ((range buffer.words.length).map data)

def bitReversePackedNaive (buffer : FieldBuffer w F) : Option (FieldBuffer w F) :=
  let bits := buffer.logLen
  (range buffer.len).foldlM (fun buffer i => do
    let iRev := reverseBits i bits
    if i < iRev then
      let tmp ← buffer.get i
      let buffer ← buffer.set i (← buffer.get iRev)
      buffer.set iRev tmp
    else return buffer) buffer

def tileRowBytes : ℕ := 256

def maxLogTilePacked : ℕ := 3

def bitReversePacked (loop : LoopOrder) (scratch : ℕ → Scratch w F) (scalarBytes : ℕ)
    (buffer : FieldBuffer w F) : Except AssertFailure (FieldBuffer w F) :=
  let logLen := buffer.logLen
  if logLen < 2 * w then
    match bitReversePackedNaive buffer with
    | some buffer => .ok buffer
    | none => .error .failed
  else
    let logScalarBytes := scalarBytes.nextPowerOfTwo.log2
    let logRow := tileRowBytes.log2 - logScalarBytes
    let logTile := min (min (max logRow w) (w + maxLogTilePacked)) (logLen / 2)
    match logTile - w with
    | 0 => bitReversePaired loop scratch 0 buffer
    | 1 => bitReversePaired loop scratch 1 buffer
    | 2 => bitReversePaired loop scratch 2 buffer
    | _ => bitReversePaired loop scratch maxLogTilePacked buffer

end Buffers

section Slices

variable {α : Type}

/-- One iteration: a pair of groups is exchanged by the lower index. -/
def groupTask (logGroup bits i : ℕ) (data : Memory α) : Memory α :=
  let iRev := reverseBits i bits
  if i < iRev then
    (range (1 <<< logGroup)).foldl (fun data k =>
      swap (i <<< logGroup + k) (iRev <<< logGroup + k) data) data
  else data

def bitReverseGroups (loop : LoopOrder) (logGroup : ℕ) (buffer : Values α) :
    Except AssertFailure (Values α) := do
  let nGroups := buffer.len >>> logGroup
  require nGroups.isPowerOfTwo
  let bits := nGroups.log2
  return ⟨buffer.len,(loop.order nGroups).foldl (fun data i => groupTask logGroup bits i data)
    buffer.scalars⟩

/-- Permute the elements of a slice. -/
def bitReverseIndices (loop : LoopOrder) (buffer : Values α) : Except AssertFailure (Values α) :=
  bitReverseGroups loop 0 buffer

end Slices

section Fields

/-- The highest of three fields, above so many bits. -/
def topField (mid low x : ℕ) : ℕ := x / 2 ^ low / 2 ^ mid

def midField (mid low x : ℕ) : ℕ := x / 2 ^ low % 2 ^ mid

def lowField (low x : ℕ) : ℕ := x % 2 ^ low

variable {L r a c x : ℕ}

theorem blockElem_eq (ha : a < 2 ^ w) (hc : c < 2 ^ L) :
    blockElem w L r a c = (r * 2 ^ w + a) * 2 ^ L + c := by
  rw [blockElem,shiftLeft_or hc,shiftLeft_or ha]

theorem blockElem_fields (ha : a < 2 ^ w) (hc : c < 2 ^ L) :
    topField w L (blockElem w L r a c) = r ∧ midField w L (blockElem w L r a c) = a ∧
      lowField L (blockElem w L r a c) = c := by
  obtain ⟨hhigh,hlow⟩ := EqualityTensor.split_bits hc (h := r * 2 ^ w + a)
  obtain ⟨hrow,hlane⟩ := EqualityTensor.split_bits ha (h := r)
  rw [blockElem_eq ha hc,topField,midField,lowField,hhigh,hrow,hlane]
  exact ⟨rfl,rfl,hlow⟩

theorem midField_lt : midField w L x < 2 ^ w := mod_lt _ (Nat.two_pow_pos w)

theorem lowField_lt : lowField L x < 2 ^ L := mod_lt _ (Nat.two_pow_pos L)

theorem topField_lt {t : ℕ} (hx : x < 2 ^ (t + w + L)) : topField w L x < 2 ^ t := by
  rw [topField,Nat.div_div_eq_div_mul,Nat.div_lt_iff_lt_mul (by positivity),←pow_add,←pow_add]
  rwa [Nat.add_comm L w,←Nat.add_assoc]

theorem blockElem_self : blockElem w L (topField w L x) (midField w L x) (lowField L x) = x := by
  rw [blockElem_eq midField_lt lowField_lt,topField,midField,lowField,div_add_mod',div_add_mod']

theorem eq_blockElem (hr : topField w L x = r) (ha : midField w L x = a) (hc : lowField L x = c) :
    x = blockElem w L r a c := by
  rw [←hr,←ha,←hc,blockElem_self]

theorem blockElem_lt {t : ℕ} (hr : r < 2 ^ t) (ha : a < 2 ^ w) (hc : c < 2 ^ L) :
    blockElem w L r a c < 2 ^ (t + w + L) := by
  rw [blockElem_eq ha hc]
  exact laneCell_lt (laneCell_lt hr ha) hc

/-- The place across the diagonal of a sub-block. -/
def mirrored (w logTilePacked x : ℕ) : ℕ :=
  blockElem w logTilePacked (lowField logTilePacked x) (midField w logTilePacked x)
    (topField w logTilePacked x)

theorem mirrored_blockElem (ha : a < 2 ^ w) (hc : c < 2 ^ L) :
    mirrored w L (blockElem w L r a c) = blockElem w L c a r := by
  obtain ⟨hrow,hlane,hcol⟩ := blockElem_fields (r := r) ha hc
  rw [mirrored,hrow,hlane,hcol]

end Fields

section TileRuns

variable [Zero F] {L : ℕ}

omit [Zero F] in
theorem swap_computes {σ : ℕ → ℕ} {i j : ℕ} (hi : σ i = j) (hj : σ j = i) :
    Computes (swap (F := F) i j) (fun x y => x (σ y)) {y | y = i ∨ y = j} := by
  intro x y
  rw [swap]
  refine ⟨fun hy => ?_,fun hy => ?_⟩
  · beta_reduce
    rcases hy with rfl | rfl
    · by_cases hsame : y = j
      · rw [hi,←hsame,update_self]
      · rw [update_of_ne hsame,update_self,hi]
    · rw [update_self,hj]
  · rw [Set.mem_ofPred_eq,not_or] at hy
    rw [update_of_ne hy.2,update_of_ne hy.1]

omit [Zero F] in
theorem swapBlocks_apply (tile : Words w F) {x : ℕ} (hx : x < 2 ^ (L + w + L)) :
    swapBlocks L tile x = tile (mirrored w L x) := by
  have hpow : 1 <<< L = 2 ^ L := by rw [shiftLeft_eq,one_mul]
  let off : Set ℕ := {x | x < 2 ^ (L + w + L) ∧ topField w L x ≠ lowField L x}
  let low (x : ℕ) : ℕ := min (topField w L x) (lowField L x)
  let high (x : ℕ) : ℕ := max (topField w L x) (lowField L x)
  have hmirror (x : ℕ) (hx : x ∈ off) : mirrored w L x ∈ off ∧ low (mirrored w L x) = low x ∧
      high (mirrored w L x) = high x ∧ midField w L (mirrored w L x) = midField w L x := by
    have hr := topField_lt hx.1
    obtain ⟨hrow,hlane,hcol⟩ := blockElem_fields (r := lowField L x) (midField_lt (w := w) (L := L) (x := x)) hr
    refine ⟨⟨blockElem_lt lowField_lt midField_lt hr,?_⟩,?_,?_,hlane⟩
    · rw [mirrored,hrow,hcol]
      exact hx.2.symm
    · simp only [low]
      rw [mirrored,hrow,hcol,min_comm]
    · simp only [high]
      rw [mirrored,hrow,hcol,max_comm]
  -- one swap does both places of a pair
  have hswap (r c a : ℕ) (hc : c < 2 ^ L) (hrc : r < c) (ha : a < 2 ^ w) :
      Computes (swap (F := PackedField w F) (blockElem w L r a c) (blockElem w L c a r))
        (fun tile x => tile (mirrored w L x))
        {x | x ∈ {x | x ∈ {x | x ∈ off ∧ low x = r} ∧ high x = c} ∧ midField w L x = a} := by
    have hr : r < 2 ^ L := hrc.trans hc
    have hset : {x | x ∈ {x | x ∈ {x | x ∈ off ∧ low x = r} ∧ high x = c} ∧ midField w L x = a} =
        {x | x = blockElem w L r a c ∨ x = blockElem w L c a r} := by
      ext x
      constructor
      · rintro ⟨⟨⟨hx,hlow⟩,hhigh⟩,hlane⟩
        simp only [low] at hlow
        simp only [high] at hhigh
        rcases Nat.le_total (topField w L x) (lowField L x) with h | h
        · exact .inl (eq_blockElem (by omega) hlane (by omega))
        · exact .inr (eq_blockElem (by omega) hlane (by omega))
      · rintro (rfl | rfl)
        · obtain ⟨hrow,hlane,hcol⟩ := blockElem_fields (r := r) ha hc
          refine ⟨⟨⟨⟨blockElem_lt hr ha hc,?_⟩,?_⟩,?_⟩,hlane⟩
          · omega
          · simp only [low]
            omega
          · simp only [high]
            omega
        · obtain ⟨hrow,hlane,hcol⟩ := blockElem_fields (r := c) ha hr
          refine ⟨⟨⟨⟨blockElem_lt hc ha hr,?_⟩,?_⟩,?_⟩,hlane⟩
          · omega
          · simp only [low]
            omega
          · simp only [high]
            omega
    rw [hset]
    exact swap_computes (mirrored_blockElem ha hc) (mirrored_blockElem ha hr)
  have hcols (r c : ℕ) (hc : c < 2 ^ L) (hrc : r < c) :
      Computes (fun tile : Words w F => (range (2 ^ w)).foldl (fun tile a =>
          swap (blockElem w L r a c) (blockElem w L c a r) tile) tile)
        (fun tile x => tile (mirrored w L x)) {x | x ∈ {x | x ∈ off ∧ low x = r} ∧ high x = c} := by
    refine Computes.foldl_key _ (midField w L) nodup_range
      (fun a ha => hswap r c a hc hrc (mem_range.mp ha)) (fun a _ => Closed.of_map fun x hx => ?_)
      fun x _ => mem_range.mpr midField_lt
    obtain ⟨hoff,hlow,hhigh,hlane⟩ := hmirror x hx.1.1.1
    exact ⟨⟨⟨hoff,hlow.trans hx.1.1.2⟩,hhigh.trans hx.1.2⟩,hlane.trans hx.2⟩
  have hrows (r : ℕ) :
      Computes (fun tile : Words w F => (range' (r + 1) (1 <<< L - (r + 1))).foldl (fun tile c =>
          (range (2 ^ w)).foldl (fun tile a =>
            swap (blockElem w L r a c) (blockElem w L c a r) tile) tile) tile)
        (fun tile x => tile (mirrored w L x)) {x | x ∈ off ∧ low x = r} := by
    refine Computes.foldl_key _ high List.nodup_range' (fun c hc => ?_)
      (fun c _ => Closed.of_map fun x hx => ?_) fun x hx => ?_
    · rw [List.mem_range'_1,hpow] at hc
      exact hcols r c (by omega) (by omega)
    · obtain ⟨hoff,hlow,hhigh,-⟩ := hmirror x hx.1.1
      exact ⟨⟨hoff,hlow.trans hx.1.2⟩,hhigh.trans hx.2⟩
    · have hr := topField_lt hx.1.1
      have hc := lowField_lt (L := L) (x := x)
      have hne := hx.1.2
      have hlow := hx.2
      simp only [low] at hlow
      simp only [high]
      rw [List.mem_range'_1,hpow]
      omega
  have hall : Computes (swapBlocks (w := w) (F := F) L) (fun tile x => tile (mirrored w L x)) off := by
    refine Computes.foldl_key _ low nodup_range (fun r _ => hrows r)
      (fun r _ => Closed.of_map fun x hx => ?_) fun x hx => ?_
    · obtain ⟨hoff,hlow,-⟩ := hmirror x hx.1
      exact ⟨hoff,hlow.trans hx.2⟩
    · have hc := lowField_lt (L := L) (x := x)
      simp only [low]
      rw [mem_range,hpow]
      omega
  by_cases hdiag : topField w L x = lowField L x
  · have hself : mirrored w L x = x := (eq_blockElem hdiag rfl hdiag.symm).symm
    rw [(hall tile x).2 fun h => h.2 hdiag,hself]
  · exact (hall tile x).1 ⟨hx,hdiag⟩

def laneTransposed (logTilePacked : ℕ) (tile : Words w F) (x : ℕ) : PackedField w F := fun l =>
  (tile (blockElem w logTilePacked (topField w logTilePacked x) l (lowField logTilePacked x))).get
    (midField w logTilePacked x)

def transposed (logTilePacked : ℕ) (tile : Words w F) (x : ℕ) : PackedField w F := fun l =>
  (tile (blockElem w logTilePacked (lowField logTilePacked x) l (topField w logTilePacked x))).get
    (midField w logTilePacked x)

def blockWritten (logTilePacked r c : ℕ) (tile : Words w F) : Words w F :=
  (range (2 ^ w)).foldl (fun y a => update y (blockElem w logTilePacked r a c) fun l =>
    (tile (blockElem w logTilePacked r l c)).get a) tile

theorem transposeBlock_run (r c : ℕ) (tile block : Words w F) :
    ∃ block', transposeBlock L r c tile block = .ok (blockWritten L r c tile,block') := by
  let gathered := (range (2 ^ w)).foldl
    (fun block a => update block a (tile (blockElem w L r a c))) block
  have hgathered : ∀ a < 2 ^ w, gathered a = tile (blockElem w L r a c) := by
    intro a ha
    have hall := Computes.foldl_fixed (F := fun a => fun block : Words w F =>
      update block a (tile (blockElem w L r a c))) (v := fun a => tile (blockElem w L r a c))
      (fun a => {a}) (fun a (_ : a ∈ range (2 ^ w)) => Computes.update rfl)
    exact (hall block a).1 ⟨a,mem_range.mpr ha,rfl⟩
  have hwritten : (range (2 ^ w)).foldl (fun y a =>
      update y (blockElem w L r a c) (transposeRounds w 0 gathered a)) tile =
        blockWritten L r c tile := by
    refine List.foldl_ext _ _ _ fun y a ha => ?_
    have ha := mem_range.mp ha
    congr 1
    funext l
    rw [transposeRounds_apply le_rfl gathered ha,Nat.mod_eq_of_lt l.isLt,Nat.div_eq_of_lt l.isLt,
      Nat.zero_mul,Nat.zero_add,hgathered l l.isLt]
  refine ⟨transposeRounds w 0 gathered,?_⟩
  rw [transposeBlock,transposeSquareBlocks_run le_rfl]
  exact congrArg (fun t => Except.ok (t,transposeRounds w 0 gathered)) hwritten

theorem blockWritten_computes (r : ℕ) {c : ℕ} (hc : c < 2 ^ L) :
    Computes (blockWritten (w := w) (F := F) L r c) (laneTransposed L)
      {x | topField w L x = r ∧ lowField L x = c} := by
  intro tile x
  have hstep : ∀ a ∈ range (2 ^ w), Computes (fun y : Words w F =>
      update y (blockElem w L r a c) fun l => (tile (blockElem w L r l c)).get a)
        (fun _ => laneTransposed L tile) {blockElem w L r a c} := by
    intro a ha
    obtain ⟨hrow,hlane,hcol⟩ := blockElem_fields (r := r) (mem_range.mp ha) hc
    refine Computes.update ?_
    funext l
    rw [laneTransposed,hrow,hlane,hcol]
  have hall := Computes.foldl_fixed (fun a => {blockElem w L r a c}) hstep tile x
  have hmem : x ∈ {x | ∃ a ∈ range (2 ^ w), x ∈ ({blockElem w L r a c} : Set ℕ)} ↔
      topField w L x = r ∧ lowField L x = c := by
    constructor
    · rintro ⟨a,ha,hx⟩
      obtain ⟨hrow,-,hcol⟩ := blockElem_fields (r := r) (mem_range.mp ha) hc
      rw [Set.mem_singleton_iff] at hx
      rw [hx]
      exact ⟨hrow,hcol⟩
    · rintro ⟨hrow,hcol⟩
      exact ⟨midField w L x,mem_range.mpr midField_lt,eq_blockElem hrow rfl hcol⟩
  rw [hmem] at hall
  exact hall

theorem laneTransposed_closed (r c : ℕ) :
    Closed (laneTransposed (w := w) (F := F) L) {x | topField w L x = r ∧ lowField L x = c} := by
  intro tile tile' hsame x hx
  funext l
  obtain ⟨hrow,-,hcol⟩ := blockElem_fields (r := r) l.isLt (hx.2 ▸ lowField_lt)
  rw [laneTransposed,laneTransposed,hx.1,hx.2,hsame _ ⟨hrow,hcol⟩]

theorem transposeTile_run (tile block : Words w F) :
    ∃ tile' block', transposeTile L tile block = .ok (tile',block') ∧
      ∀ x < 2 ^ (L + w + L), tile' x = transposed L tile x := by
  by_cases hnone : L = 0
  · subst hnone
    refine ⟨transposeRounds w 0 tile,block,?_,fun x hx => ?_⟩
    · rw [transposeTile,if_pos rfl,transposeSquareBlocks_run le_rfl]
      rfl
    · have hx : x < 2 ^ w := by rwa [Nat.zero_add,Nat.add_zero] at hx
      funext l
      rw [transposeRounds_apply le_rfl tile hx,Nat.mod_eq_of_lt l.isLt,Nat.div_eq_of_lt l.isLt,
        Nat.zero_mul,Nat.zero_add,transposed,lowField,topField,midField,pow_zero,mod_one,Nat.div_one,
        Nat.div_eq_of_lt hx,Nat.mod_eq_of_lt hx,blockElem_eq l.isLt Nat.one_pos,Nat.zero_mul,Nat.zero_add,
        pow_zero,Nat.mul_one,Nat.add_zero]
  rw [transposeTile,if_neg hnone]
  simp only [pure,Except.pure]
  by_cases hlanes : w > 0
  swap
  · have hw : w = 0 := by omega
    subst hw
    refine ⟨swapBlocks L tile,block,?_,fun x hx => ?_⟩
    · rw [if_neg hlanes]
    · funext l
      have hl : l.val = 0 := Nat.lt_one_iff.mp l.isLt
      have hlane : midField 0 L x = 0 := by rw [midField,pow_zero,mod_one]
      rw [swapBlocks_apply tile hx,transposed,mirrored,hlane,hl,PackedField.get,
        dif_pos (Nat.two_pow_pos 0)]
      exact congrArg _ (Fin.ext hl)
  have hpow : 1 <<< L = 2 ^ L := by rw [shiftLeft_eq,one_mul]
  let rowWritten (r : ℕ) (tile : Words w F) : Words w F :=
    (range (1 <<< L)).foldl (fun tile c => blockWritten L r c tile) tile
  have hrow (r : ℕ) (s : Words w F × Words w F) : ∃ block', (range (1 <<< L)).foldlM
      (fun state c => transposeBlock L r c state.1 state.2) s = .ok (rowWritten r s.1,block') :=
    exists_foldlM_fst (fun c _ s => transposeBlock_run r c s.1 s.2) s
  have hloop : ∀ r ∈ range (1 <<< L), ∀ s : Words w F × Words w F, ∃ block',
      (range (1 <<< L)).foldlM (fun state c => transposeBlock L r c state.1 state.2) s =
        .ok (rowWritten r s.1,block') := fun r _ s => hrow r s
  obtain ⟨block',hrun⟩ := exists_foldlM_fst hloop (swapBlocks L tile,block)
  rw [if_pos hlanes]
  refine ⟨_,block',hrun,fun x hx => ?_⟩
  have hrows (r : ℕ) : Computes (rowWritten r) (laneTransposed L) {x | topField w L x = r} := by
    refine Computes.foldl_key _ (lowField L) nodup_range (fun c hc => ?_)
      (fun c _ => laneTransposed_closed r c) fun x _ => ?_
    · rw [mem_range,hpow] at hc
      exact blockWritten_computes r hc
    · rw [mem_range,hpow]
      exact lowField_lt
  have hset (r : ℕ) (hr : r < 2 ^ L) :
      {x | x ∈ {x | x < 2 ^ (L + w + L)} ∧ topField w L x = r} = {x | topField w L x = r} := by
    ext y
    refine ⟨fun h => h.2,fun h => ⟨?_,h⟩⟩
    rw [eq_blockElem h rfl rfl]
    exact blockElem_lt hr midField_lt lowField_lt
  have hall : Computes (fun tile : Words w F => (range (1 <<< L)).foldl
      (fun tile r => rowWritten r tile) tile) (laneTransposed L) {x | x < 2 ^ (L + w + L)} := by
    refine Computes.foldl_key _ (topField w L) nodup_range (fun r hr => ?_) (fun r hr => ?_)
      fun x hx => ?_
    · rw [mem_range,hpow] at hr
      rw [hset r hr]
      exact hrows r
    · rw [mem_range,hpow] at hr
      rw [hset r hr]
      intro tile tile' hsame y hy
      exact laneTransposed_closed r (lowField L y) tile tile' (fun z hz => hsame z hz.1) y ⟨hy,rfl⟩
    · rw [mem_range,hpow]
      exact topField_lt hx
  refine ((hall (swapBlocks L tile) x).1 hx).trans ?_
  funext l
  have hr := topField_lt hx
  have hplace := blockElem_lt hr l.isLt (lowField_lt (L := L) (x := x))
  rw [laneTransposed,transposed,swapBlocks_apply tile hplace,mirrored_blockElem l.isLt lowField_lt]

end TileRuns

theorem reverseBits_fields (h : ℕ) {t M m l : ℕ} (hm : m < 2 ^ M) (hl : l < 2 ^ t) :
    reverseBits ((h * 2 ^ M + m) * 2 ^ t + l) (t + M + t) =
      (reverseBits l t * 2 ^ M + reverseBits m M) * 2 ^ t + reverseBits h t := by
  have houter := reverseBits_lanes (t + M) (h * 2 ^ M + m) hl
  have hinner := reverseBits_lanes t h hm
  rw [reverseBits_mod] at houter hinner
  rw [houter,reverseBits_mod,hinner,reverseBits_mod,pow_add]
  ring

theorem reverseBits_testBit (x : ℕ) {n j : ℕ} (hj : j < n) :
    (reverseBits x n).testBit j = x.testBit (n - 1 - j) := by
  induction n generalizing x j with
  | zero => exact absurd hj (Nat.not_lt_zero _)
  | succ n ih =>
    have hlow := reverseBits_lt (x / 2) n
    rw [reverseBits,mul_comm]
    rcases Nat.lt_succ_iff_lt_or_eq.mp hj with hlt | rfl
    · have hback : n + 1 - 1 - j = n - 1 - j + 1 := by omega
      rw [Nat.testBit_two_pow_mul_add _ hlow,if_pos hlt,ih _ hlt,hback,Nat.testBit_succ]
    · rw [Nat.testBit_two_pow_mul_add _ hlow,if_neg (lt_irrefl j),Nat.sub_self,Nat.add_sub_cancel,
        Nat.sub_self,Nat.testBit_zero,Nat.testBit_zero,Nat.mod_mod]

section SquareRuns

variable [Zero F] {L M : ℕ}

variable {mm m : ℕ}

theorem row_add {h k : ℕ} (hmm : mm < 2 ^ M) (hk : k < 2 ^ L) :
    row L M h mm + k = blockElem M L h mm k := by
  have hlow : mm * 2 ^ L < 2 ^ (M + L) := by
    rw [pow_add]
    exact Nat.mul_lt_mul_of_pos_right hmm (Nat.two_pow_pos L)
  rw [row,shiftLeft_eq mm,shiftLeft_or hlow,blockElem_eq hmm hk,pow_add]
  ring

omit [Zero F] in
theorem gather_apply (data dst : Words w F) (hmm : mm < 2 ^ M) {x : ℕ}
    (hx : x < 2 ^ (L + w + L)) :
    gather L M data dst mm x =
      data (blockElem M L (reverseBits (x / 2 ^ L) (w + L)) mm (x % 2 ^ L)) := by
  have hpow (n : ℕ) : 1 <<< n = 2 ^ n := by rw [shiftLeft_eq,one_mul]
  let v (x : ℕ) : PackedField w F := data (blockElem M L (reverseBits (x / 2 ^ L) (w + L)) mm (x % 2 ^ L))
  have hcell (j k : ℕ) (hk : k ∈ range (1 <<< L)) : Computes (fun dst : Words w F =>
      update dst ((j <<< L) + k) (data (row L M (reverseBits j (w + L)) mm + k)))
        (fun _ => v) {(j <<< L) + k} := by
    rw [hpow,mem_range] at hk
    refine Computes.update ?_
    obtain ⟨hhigh,hlow⟩ := EqualityTensor.split_bits hk (h := j)
    simp only [v]
    rw [shiftLeft_eq,hhigh,hlow,row_add hmm hk]
  have hrow (j : ℕ) := Computes.foldl_fixed _ (hcell j)
  have hall := Computes.foldl_fixed _ (fun j (_ : j ∈ range (1 <<< (w + L))) => hrow j)
  refine (hall dst x).1 ⟨x / 2 ^ L,?_,x % 2 ^ L,?_,?_⟩
  · rw [hpow,mem_range,Nat.div_lt_iff_lt_mul (Nat.two_pow_pos L),←pow_add,Nat.add_comm w L]
    exact hx
  · rw [hpow]
    exact mem_range.mpr (mod_lt _ (Nat.two_pow_pos L))
  · rw [Set.mem_singleton_iff,shiftLeft_eq,div_add_mod']

def reversed (n : ℕ) (data : Words w F) (y : ℕ) : PackedField w F := fun l =>
  (data (reverseBits (y * 2 ^ w + l) n / 2 ^ w)).get (reverseBits (y * 2 ^ w + l) n % 2 ^ w)

/-- The words under a middle index. -/
def squareCells (w logTilePacked logMid mm : ℕ) : Set ℕ :=
  {y | y < 2 ^ (w + logTilePacked + logMid + logTilePacked) ∧ midField logMid logTilePacked y = mm}

omit [Zero F] in
theorem mem_squareCells (hmm : mm < 2 ^ M) (y : ℕ) : y ∈ squareCells w L M mm ↔
    ∃ j ∈ range (1 <<< (w + L)), ∃ k ∈ range (1 <<< L),
      y = row L M (reverseBits j (w + L)) mm + k := by
  simp only [shiftLeft_eq,one_mul,mem_range]
  constructor
  · rintro ⟨hy,hmid⟩
    have htop := topField_lt hy
    refine ⟨reverseBits (topField M L y) (w + L),reverseBits_lt _ _,lowField L y,lowField_lt,?_⟩
    rw [reverseBits_reverseBits htop,row_add hmm lowField_lt]
    exact eq_blockElem rfl hmid rfl
  · rintro ⟨j,-,k,hk,rfl⟩
    rw [row_add hmm hk]
    exact ⟨blockElem_lt (reverseBits_lt _ _) hmm hk,(blockElem_fields hmm hk).2.1⟩

omit [Zero F] in
theorem reversed_place (h : ℕ) {k l : ℕ} (hmm : mm < 2 ^ M) (hk : k < 2 ^ L) (hl : l < 2 ^ w) :
    reverseBits (blockElem M L h mm k * 2 ^ w + l) (w + L + M + (w + L)) / 2 ^ w =
        blockElem M L (reverseBits (k * 2 ^ w + l) (w + L)) (reverseBits mm M)
          (reverseBits h (w + L) / 2 ^ w) ∧
      reverseBits (blockElem M L h mm k * 2 ^ w + l) (w + L + M + (w + L)) % 2 ^ w =
        reverseBits h (w + L) % 2 ^ w := by
  have hcell : k * 2 ^ w + l < 2 ^ (w + L) := by
    rw [Nat.add_comm w L]
    exact laneCell_lt hk hl
  have hindex : blockElem M L h mm k * 2 ^ w + l = (h * 2 ^ M + mm) * 2 ^ (w + L) + (k * 2 ^ w + l) := by
    rw [blockElem_eq hmm hk,pow_add 2 w L]
    ring
  have hhigh : reverseBits h (w + L) / 2 ^ w < 2 ^ L := by
    rw [Nat.div_lt_iff_lt_mul (Nat.two_pow_pos w),←pow_add,Nat.add_comm L w]
    exact reverseBits_lt h (w + L)
  rw [hindex,reverseBits_fields h hmm hcell,blockElem_eq (reverseBits_lt mm M) hhigh]
  have hsplit (A q : ℕ) : A * 2 ^ (w + L) + q = A * 2 ^ L * 2 ^ w + q := by
    rw [pow_add]
    ring
  rw [hsplit]
  refine ⟨?_,Nat.mul_add_mod' ..⟩
  rw [Nat.add_comm,Nat.add_mul_div_right _ _ (Nat.two_pow_pos w),Nat.add_comm]

theorem square_word {data dst tile : Words w F} (hmm : mm < 2 ^ M)
    (htile : ∀ x < 2 ^ (L + w + L),
      tile x = transposed L (gather L M data dst (reverseBits mm M)) x)
    {j k : ℕ} (hj : j < 2 ^ (w + L)) (hk : k < 2 ^ L) : tile (j * 2 ^ L + k) =
      reversed (w + L + M + (w + L)) data (blockElem M L (reverseBits j (w + L)) mm k) := by
  have hin : j * 2 ^ L + k < 2 ^ (L + w + L) := by
    rw [Nat.add_comm L w]
    exact laneCell_lt hj hk
  obtain ⟨hrow,hcol⟩ := EqualityTensor.split_bits hk (h := j)
  have hjw : j / 2 ^ w < 2 ^ L := by
    rw [Nat.div_lt_iff_lt_mul (Nat.two_pow_pos w),←pow_add,Nat.add_comm L w]
    exact hj
  rw [htile _ hin]
  funext l
  have hplace : blockElem w L k l (j / 2 ^ w) < 2 ^ (L + w + L) := blockElem_lt hk l.isLt hjw
  obtain ⟨hword,hlane⟩ := reversed_place (reverseBits j (w + L)) hmm hk l.isLt
  rw [transposed,topField,midField,lowField,hrow,hcol,gather_apply data dst (reverseBits_lt mm M) hplace,
    reversed,hword,hlane,reverseBits_reverseBits hj,blockElem_eq l.isLt hjw,
    (EqualityTensor.split_bits hjw).1,(EqualityTensor.split_bits hjw).2]

theorem scatter_computes (data dst tile : Words w F) (hmm : mm < 2 ^ M)
    (htile : ∀ x < 2 ^ (L + w + L),
      tile x = transposed L (gather L M data dst (reverseBits mm M)) x) :
    Computes (fun y => scatter L M tile y mm) (fun _ => reversed (w + L + M + (w + L)) data)
      (squareCells w L M mm) := by
  have hpow (n : ℕ) : 1 <<< n = 2 ^ n := by rw [shiftLeft_eq,one_mul]
  have hrow (j : ℕ) (hj : j ∈ range (1 <<< (w + L))) : Computes (fun y : Words w F =>
      (range (1 <<< L)).foldl (fun y k =>
        update y (row L M (reverseBits j (w + L)) mm + k) (tile ((j <<< L) + k))) y)
      (fun _ => reversed (w + L + M + (w + L)) data)
      {y | ∃ k ∈ range (1 <<< L), y ∈ ({row L M (reverseBits j (w + L)) mm + k} : Set ℕ)} := by
    rw [hpow,mem_range] at hj
    refine Computes.foldl_fixed _ fun k hk => ?_
    rw [hpow,mem_range] at hk
    rw [row_add hmm hk,shiftLeft_eq,square_word hmm htile hj hk]
    exact Computes.update rfl
  have hall := Computes.foldl_fixed _ hrow
  have hset : {y | ∃ j ∈ range (1 <<< (w + L)), y ∈ {y | ∃ k ∈ range (1 <<< L),
      y ∈ ({row L M (reverseBits j (w + L)) mm + k} : Set ℕ)}} = squareCells w L M mm := by
    ext y
    exact (mem_squareCells hmm y).symm
  rw [hset] at hall
  exact hall

/-- The lower of the two middle indices of a pair. -/
def claimant (logTilePacked logMid y : ℕ) : ℕ :=
  min (midField logMid logTilePacked y) (reverseBits (midField logMid logTilePacked y) logMid)

def claimed (w logTilePacked logMid m : ℕ) : Set ℕ :=
  {y | y ∈ {y | y < 2 ^ (w + logTilePacked + logMid + logTilePacked)} ∧
    claimant logTilePacked logMid y = m}

omit [Zero F] in
theorem claimed_eq (hm : m < 2 ^ M) : claimed w L M m =
    if reverseBits m M < m then ∅ else squareCells w L M m ∪ squareCells w L M (reverseBits m M) := by
  have hback := reverseBits_reverseBits hm
  ext y
  have hmid : reverseBits (reverseBits (midField M L y) M) M = midField M L y :=
    reverseBits_reverseBits midField_lt
  have hpair : claimant L M y = m ↔
      m ≤ reverseBits m M ∧ (midField M L y = m ∨ midField M L y = reverseBits m M) := by
    rw [claimant]
    constructor
    · intro h
      rcases min_choice (midField M L y) (reverseBits (midField M L y) M) with hmin | hmin
      · rw [hmin] at h
        rw [h] at hmin ⊢
        exact ⟨by omega,.inl rfl⟩
      · rw [hmin] at h
        rw [h] at hmin hmid
        exact ⟨by omega,.inr hmid.symm⟩
    · rintro ⟨hle,h | h⟩
      · rw [h]
        omega
      · rw [h,hback]
        omega
  rw [claimed,Set.mem_ofPred_eq,Set.mem_ofPred_eq,hpair]
  split
  · exact ⟨fun h => by omega,fun h => h.elim⟩
  · rw [Set.mem_union,squareCells,squareCells,Set.mem_ofPred_eq,Set.mem_ofPred_eq]
    constructor
    · rintro ⟨hy,-,h | h⟩
      · exact .inl ⟨hy,h⟩
      · exact .inr ⟨hy,h⟩
    · rintro (⟨hy,h⟩ | ⟨hy,h⟩)
      · exact ⟨hy,by omega,.inl h⟩
      · exact ⟨hy,by omega,.inr h⟩

variable (scratch : Scratch w F)

theorem pairedTask_run (hm : m < 2 ^ M) (data : Words w F) :
    ∃ r, pairedTask L M scratch m data = .ok r ∧ ∀ y,
      (y ∈ claimed w L M m → r y = reversed (w + L + M + (w + L)) data y) ∧
        (y ∉ claimed w L M m → r y = data y) := by
  rw [claimed_eq hm,pairedTask]
  by_cases hlow : reverseBits m M < m
  · rw [if_pos hlow,if_pos hlow]
    exact ⟨data,rfl,fun y => ⟨fun h => h.elim,fun _ => rfl⟩⟩
  obtain ⟨square,block,hsquare,hsquareRun⟩ :=
    transposeTile_run (L := L) (gather L M data scratch.square m) scratch.block
  rw [if_neg hlow,if_neg hlow]
  dsimp only
  rw [hsquare,ok_bind]
  dsimp only
  have hback := reverseBits_reverseBits hm
  by_cases hfix : reverseBits m M = m
  · rw [if_pos hfix,hfix,Set.union_self]
    have hscatter := scatter_computes data scratch.square square hm (by rwa [hfix])
    exact ⟨_,rfl,hscatter data⟩
  obtain ⟨mirror,block',hmirror,hmirrorRun⟩ :=
    transposeTile_run (L := L) (gather L M data scratch.mirror (reverseBits m M)) block
  rw [if_neg hfix,hmirror,ok_bind]
  refine ⟨_,rfl,fun y => ?_⟩
  have hfirst := scatter_computes data scratch.square square (reverseBits_lt m M) (by rwa [hback])
  have hsecond := scatter_computes data scratch.mirror mirror hm hmirrorRun
  have hlast := hsecond (scatter L M square data (reverseBits m M)) y
  have hprev := hfirst data y
  rw [Set.mem_union]
  by_cases hin : y ∈ squareCells w L M m
  · exact ⟨fun _ => hlast.1 hin,fun h => absurd (.inl hin) h⟩
  · refine ⟨fun h => ?_,fun h => ?_⟩
    · exact (hlast.2 hin).trans (hprev.1 (h.resolve_left hin))
    · exact (hlast.2 hin).trans (hprev.2 fun h' => h (.inr h'))

def squareWords (w logTilePacked logMid mm : ℕ) : List ℕ :=
  (range (1 <<< (w + logTilePacked))).flatMap fun j => (range (1 <<< logTilePacked)).map fun k =>
    row logTilePacked logMid (reverseBits j (w + logTilePacked)) mm + k

/-- The addresses that an iteration reads or writes. -/
def touched (w logTilePacked logMid m : ℕ) : List ℕ :=
  if reverseBits m logMid < m then []
  else if reverseBits m logMid = m then squareWords w logTilePacked logMid m
  else squareWords w logTilePacked logMid m ++ squareWords w logTilePacked logMid (reverseBits m logMid)

omit [Zero F] in
theorem mem_squareWords (hmm : mm < 2 ^ M) (y : ℕ) :
    y ∈ squareWords w L M mm ↔ y ∈ squareCells w L M mm := by
  rw [mem_squareCells hmm,squareWords]
  simp only [List.mem_flatMap,List.mem_map]
  exact exists_congr fun j => and_congr_right fun _ => exists_congr fun k => and_congr_right fun _ => eq_comm

omit [Zero F] in
theorem mem_touched (hm : m < 2 ^ M) (y : ℕ) : y ∈ touched w L M m ↔ y ∈ claimed w L M m := by
  rw [claimed_eq hm,touched]
  by_cases hlow : reverseBits m M < m
  · rw [if_pos hlow,if_pos hlow]
    exact ⟨nofun,fun h => h.elim⟩
  rw [if_neg hlow,if_neg hlow]
  split
  · next hfix => rw [hfix,Set.union_self,mem_squareWords hm]
  · rw [List.mem_append,Set.mem_union,mem_squareWords hm,mem_squareWords (reverseBits_lt m M)]

theorem reversed_closed (m : ℕ) :
    Closed (reversed (w := w) (F := F) (w + L + M + (w + L))) (claimed w L M m) := by
  intro data data' hsame y hy
  funext l
  have hplace : y = blockElem M L (topField M L y) (midField M L y) (lowField L y) := blockElem_self.symm
  obtain ⟨hword,hlane⟩ := reversed_place (w := w) (topField M L y) (midField_lt (w := M) (L := L) (x := y))
    (lowField_lt (L := L) (x := y)) l.isLt
  rw [←hplace] at hword hlane
  have hhigh : reverseBits (topField M L y) (w + L) / 2 ^ w < 2 ^ L := by
    rw [Nat.div_lt_iff_lt_mul (Nat.two_pow_pos w),←pow_add,Nat.add_comm L w]
    exact reverseBits_lt _ _
  have hfrom := reverseBits_lt (midField M L y) M
  have hmem : blockElem M L (reverseBits (lowField L y * 2 ^ w + l) (w + L))
      (reverseBits (midField M L y) M) (reverseBits (topField M L y) (w + L) / 2 ^ w) ∈
        claimed w L M m := by
    refine ⟨blockElem_lt (reverseBits_lt _ _) hfrom hhigh,?_⟩
    rw [claimant,(blockElem_fields hfrom hhigh).2.1,reverseBits_reverseBits midField_lt,min_comm]
    exact hy.2
  rw [reversed,reversed,hword,hlane,hsame _ hmem]

theorem pairedTask_local (hm : m < 2 ^ M) :
    ∃ f, (∀ data, pairedTask L M scratch m data = .ok (f data)) ∧ Local f {y | y ∈ touched w L M m} := by
  choose f hf hrun using fun data => pairedTask_run (L := L) scratch hm data
  have hset : {y | y ∈ touched w L M m} = claimed w L M m := by
    ext y
    exact mem_touched hm y
  have hcomputes : Computes f (reversed (w + L + M + (w + L))) (claimed w L M m) := hrun
  rw [hset]
  exact ⟨f,hf,hcomputes.local (reversed_closed m)⟩

omit [Zero F] in
theorem touched_disjoint {m' : ℕ} (hm : m < 2 ^ M) (hm' : m' < 2 ^ M) (hne : m ≠ m') :
    List.Disjoint (touched w L M m) (touched w L M m') := by
  intro y hy hy'
  rw [mem_touched hm] at hy
  rw [mem_touched hm'] at hy'
  exact hne (hy.2.symm.trans hy'.2)

end SquareRuns

namespace LoopOrder

theorem nodup (loop : LoopOrder) (n : ℕ) : (loop.order n).Nodup :=
  (loop.perm n).nodup_iff.mpr nodup_range

theorem mem_order (loop : LoopOrder) {n i : ℕ} : i ∈ loop.order n ↔ i < n :=
  (loop.perm n).mem_iff.trans mem_range

end LoopOrder

section BufferRuns

variable [Field F] (loop : LoopOrder)

variable (scratch : ℕ → Scratch w F) (buffer : FieldBuffer w F)

theorem bitReversePaired_run {L : ℕ} (hL : 2 * (w + L) ≤ buffer.logLen) :
    ∃ r, bitReversePaired loop scratch L buffer = .ok r ∧ r.logLen = buffer.logLen ∧
      ∀ x < 2 ^ buffer.logLen, r.scalar x = buffer.scalar (reverseBits x buffer.logLen) := by
  generalize hM : buffer.logLen - 2 * (w + L) = M
  have hn : buffer.logLen = w + L + M + (w + L) := by omega
  have hpow (n : ℕ) : 1 <<< n = 2 ^ n := by rw [shiftLeft_eq,one_mul]
  have htask (m : ℕ) : ∃ f : Words w F → Words w F, m < 2 ^ M →
      (∀ data, pairedTask L M (scratch m) m data = .ok (f data)) ∧
        Computes f (reversed (w + L + M + (w + L))) (claimed w L M m) := by
    by_cases hm : m < 2 ^ M
    · choose f hf hrun using fun data => pairedTask_run (L := L) (scratch m) hm data
      exact ⟨f,fun _ => ⟨hf,hrun⟩⟩
    · exact ⟨id,fun h => absurd h hm⟩
  choose f hf using htask
  have hmem (m : ℕ) (hm : m ∈ loop.order (1 <<< M)) : m < 2 ^ M := by
    rw [hpow] at hm
    exact loop.mem_order.mp hm
  have hrun := foldlM_eq_foldl (f := f) (fun m hm data => (hf m (hmem m hm)).1 data)
    fun x => buffer.words.getD x 0
  have hall : Computes (fun data => (loop.order (1 <<< M)).foldl (fun y m => f m y) data)
      (reversed (w := w) (F := F) (w + L + M + (w + L))) {y | y < 2 ^ (w + L + M + L)} := by
    refine Computes.foldl_key _ (claimant L M) (loop.nodup _) (fun m hm => (hf m (hmem m hm)).2)
      (fun m _ => reversed_closed m) fun y _ => ?_
    rw [hpow]
    exact loop.mem_order.mpr ((Nat.min_le_right _ _).trans_lt (reverseBits_lt _ _))
  have hwords : ((range buffer.words.length).map
      ((loop.order (1 <<< M)).foldl (fun y m => f m y) fun x => buffer.words.getD x 0)).length =
        1 <<< (buffer.logLen - w) := by
    rw [List.length_map,List.length_range,buffer.words_length]
  rw [bitReversePaired,hM,hrun,ok_bind,FieldBuffer.new_ok hwords]
  refine ⟨_,rfl,rfl,fun x hx => ?_⟩
  have hlane : x % 2 ^ w < 2 ^ w := mod_lt _ (Nat.two_pow_pos w)
  have hword : x / 2 ^ w < 2 ^ (w + L + M + L) := by
    rw [Nat.div_lt_iff_lt_mul (Nat.two_pow_pos w),←pow_add]
    rwa [show w + L + M + L + w = buffer.logLen by omega]
  have hfinal : (loop.order (1 <<< M)).foldl (fun y m => f m y) (fun x => buffer.words.getD x 0)
      (x / 2 ^ w) = reversed (w + L + M + (w + L)) (fun x => buffer.words.getD x 0) (x / 2 ^ w) :=
    (hall _ _).1 hword
  rw [FieldBuffer.scalar,List.getD_eq_getElem?_getD,List.getElem?_map,List.getElem?_range (buffer.word_lt hx),
    Option.map_some,Option.getD_some,hfinal,PackedField.get_of_lt _ hlane,reversed,
    div_add_mod',←hn,FieldBuffer.scalar]

theorem bitReversePackedNaive_run :
    ∃ r, bitReversePackedNaive buffer = some r ∧ r.logLen = buffer.logLen ∧
      ∀ x < 2 ^ buffer.logLen, r.scalar x = buffer.scalar (reverseBits x buffer.logLen) := by
  have hlen : buffer.len = 2 ^ buffer.logLen := by rw [FieldBuffer.len,shiftLeft_eq,one_mul]
  have hsteps (k : ℕ) (hk : k ≤ 2 ^ buffer.logLen) : ∃ r : FieldBuffer w F,
      (range k).foldlM (fun b i => (do
        let iRev := reverseBits i buffer.logLen
        if i < iRev then
          let tmp ← FieldBuffer.get b i
          let b ← b.set i (← b.get iRev)
          b.set iRev tmp
        else return b : Option (FieldBuffer w F))) buffer = some r ∧ r.logLen = buffer.logLen ∧
        r.scalar = (range k).foldl (fun data i =>
          if i < reverseBits i buffer.logLen then swap i (reverseBits i buffer.logLen) data else data)
            buffer.scalar := by
    induction k with
    | zero => exact ⟨buffer,rfl,rfl,rfl⟩
    | succ k ih =>
      obtain ⟨b,hb,hblen,hscalar⟩ := ih (Nat.le_of_succ_le hk)
      rw [List.range_succ,List.foldlM_append,hb,List.foldl_append,←hscalar,List.foldl_cons,List.foldl_nil]
      simp only [Option.bind_eq_bind,Option.bind_some,List.foldlM_cons,List.foldlM_nil]
      by_cases hlow : k < reverseBits k buffer.logLen
      · have hrev := reverseBits_lt k buffer.logLen
        obtain ⟨b',hset,hb'len,hb'⟩ := b.set_of_lt (hblen ▸ hk) (b.scalar (reverseBits k buffer.logLen))
        have hrev' : reverseBits k buffer.logLen < 2 ^ b'.logLen := by rwa [hb'len,hblen]
        obtain ⟨r,hset',hrlen,hr⟩ := b'.set_of_lt hrev' (b.scalar k)
        refine ⟨r,?_,hrlen.trans (hb'len.trans hblen),?_⟩
        · rw [if_pos hlow,b.get_of_lt (hblen ▸ hk),b.get_of_lt (hblen ▸ hrev)]
          simp only [Option.bind_some,hset]
          rw [hset']
          rfl
        · rw [if_pos hlow,swap]
          funext x
          rw [hr,hb',update_apply,update_apply]
      · rw [if_neg hlow,if_neg hlow]
        exact ⟨b,rfl,hblen,rfl⟩
  obtain ⟨r,hr,hrlen,hscalar⟩ := hsteps _ le_rfl
  refine ⟨r,?_,hrlen,fun x hx => ?_⟩
  · rw [bitReversePackedNaive,hlen]
    exact hr
  · have hdone : x < 2 ^ buffer.logLen ∧ min x (reverseBits x buffer.logLen) < 2 ^ buffer.logLen :=
      ⟨hx,(Nat.min_le_left _ _).trans_lt hx⟩
    rw [hscalar,swaps_apply (σ := fun i => reverseBits i buffer.logLen) (fun i _ => reverseBits_lt i _)
      (fun i hi => reverseBits_reverseBits hi) buffer.scalar le_rfl x,if_pos hdone]

theorem bitReversePacked_run (scalarBytes : ℕ) (buffer : FieldBuffer w F) :
    ∃ r, bitReversePacked loop scratch scalarBytes buffer = .ok r ∧ r.logLen = buffer.logLen ∧
      ∀ x < 2 ^ buffer.logLen, r.scalar x = buffer.scalar (reverseBits x buffer.logLen) := by
  rw [bitReversePacked]
  dsimp only
  by_cases hshort : buffer.logLen < 2 * w
  · obtain ⟨r,hr,hrun⟩ := bitReversePackedNaive_run buffer
    rw [if_pos hshort,hr]
    exact ⟨r,rfl,hrun⟩
  rw [if_neg hshort]
  generalize htile : min (min (max (tileRowBytes.log2 - scalarBytes.nextPowerOfTwo.log2) w)
    (w + maxLogTilePacked)) (buffer.logLen / 2) = logTile
  have hhalf : logTile ≤ buffer.logLen / 2 := htile ▸ Nat.min_le_right _ _
  split
  · exact bitReversePaired_run loop scratch buffer (by omega)
  · exact bitReversePaired_run loop scratch buffer (by omega)
  · exact bitReversePaired_run loop scratch buffer (by omega)
  · rename_i hzero hone htwo
    have hwide : ¬logTile - w = 0 ∧ ¬logTile - w = 1 ∧ ¬logTile - w = 2 := ⟨hzero,hone,htwo⟩
    refine bitReversePaired_run loop scratch buffer ?_
    rw [maxLogTilePacked]
    omega

end BufferRuns

section SliceRuns

variable {α : Type} (loop : LoopOrder)

/-- Where an element of a permuted slice comes from. -/
def groupSource (logGroup bits x : ℕ) : ℕ :=
  reverseBits (x / 2 ^ logGroup) bits * 2 ^ logGroup + x % 2 ^ logGroup

def groupClaimant (logGroup bits x : ℕ) : ℕ :=
  min (x / 2 ^ logGroup) (reverseBits (x / 2 ^ logGroup) bits)

def groupClaimed (logGroup bits i : ℕ) : Set ℕ :=
  {x | x ∈ {x | x < 2 ^ (bits + logGroup)} ∧ groupClaimant logGroup bits x = i}

theorem groupIndex_lt {g b x : ℕ} (hx : x < 2 ^ (b + g)) : x / 2 ^ g < 2 ^ b := by
  rwa [Nat.div_lt_iff_lt_mul (Nat.two_pow_pos g),←pow_add]

theorem groupSource_fields (g b x : ℕ) : groupSource g b x / 2 ^ g = reverseBits (x / 2 ^ g) b ∧
    groupSource g b x % 2 ^ g = x % 2 ^ g :=
  EqualityTensor.split_bits (mod_lt _ (Nat.two_pow_pos g))

theorem groupSource_mem {g b i x : ℕ} (hx : x ∈ groupClaimed g b i) :
    groupSource g b x ∈ groupClaimed g b i := by
  obtain ⟨hhigh,-⟩ := groupSource_fields g b x
  refine ⟨laneCell_lt (reverseBits_lt _ _) (mod_lt _ (Nat.two_pow_pos g)),?_⟩
  rw [groupClaimant,hhigh,reverseBits_reverseBits (groupIndex_lt hx.1),min_comm]
  exact hx.2

theorem groupTask_computes (g : ℕ) {b i : ℕ} (hi : i < 2 ^ b) :
    Computes (groupTask (α := α) g b i) (fun data x => data (groupSource g b x)) (groupClaimed g b i) := by
  have hback := reverseBits_reverseBits hi
  have hrev := reverseBits_lt i b
  have hgroup (x : ℕ) (hx : x ∈ groupClaimed g b i) :
      i ≤ reverseBits i b ∧ (x / 2 ^ g = i ∨ x / 2 ^ g = reverseBits i b) := by
    have hself := reverseBits_reverseBits (groupIndex_lt hx.1)
    have hmin := hx.2
    rw [groupClaimant] at hmin
    rcases min_choice (x / 2 ^ g) (reverseBits (x / 2 ^ g) b) with h | h
    · rw [h] at hmin
      rw [hmin] at h
      exact ⟨by omega,.inl hmin⟩
    · rw [h] at hmin
      rw [hmin] at h hself
      exact ⟨by omega,.inr hself.symm⟩
  intro data x
  rw [groupTask]
  by_cases hlow : i < reverseBits i b
  · have hpow : 1 <<< g = 2 ^ g := by rw [shiftLeft_eq,one_mul]
    rw [if_pos hlow,hpow]
    have hall : Computes (fun data : Memory α => (range (2 ^ g)).foldl (fun data k =>
        swap (i <<< g + k) (reverseBits i b <<< g + k) data) data)
        (fun data x => data (groupSource g b x)) (groupClaimed g b i) := by
      refine Computes.foldl_key _ (· % 2 ^ g) nodup_range (fun k hk => ?_)
        (fun k _ => Closed.of_map fun x hx => ?_) fun x _ => ?_
      · have hk := mem_range.mp hk
        have hfields (j : ℕ) : (j <<< g + k) / 2 ^ g = j ∧ (j <<< g + k) % 2 ^ g = k := by
          rw [shiftLeft_eq]
          exact EqualityTensor.split_bits hk
        have hplace (x j : ℕ) (hhigh : x / 2 ^ g = j) (hmod : x % 2 ^ g = k) : x = j <<< g + k := by
          rw [shiftLeft_eq,←hhigh,←hmod,div_add_mod']
        have hset : {x | x ∈ groupClaimed g b i ∧ x % 2 ^ g = k} =
            {x | x = i <<< g + k ∨ x = reverseBits i b <<< g + k} := by
          ext x
          constructor
          · rintro ⟨hx,hmod⟩
            rcases (hgroup x hx).2 with h | h
            · exact .inl (hplace x _ h hmod)
            · exact .inr (hplace x _ h hmod)
          · rintro (rfl | rfl)
            · refine ⟨⟨?_,?_⟩,(hfields i).2⟩
              · rw [Set.mem_ofPred_eq,shiftLeft_eq]
                exact laneCell_lt hi hk
              · rw [groupClaimant,(hfields i).1]
                omega
            · refine ⟨⟨?_,?_⟩,(hfields _).2⟩
              · rw [Set.mem_ofPred_eq,shiftLeft_eq]
                exact laneCell_lt hrev hk
              · rw [groupClaimant,(hfields _).1,hback]
                omega
        have hsource (j : ℕ) : groupSource g b (j <<< g + k) = reverseBits j b <<< g + k := by
          rw [groupSource,(hfields j).1,(hfields j).2,shiftLeft_eq]
        rw [hset]
        exact swap_computes (hsource i) ((hsource _).trans (by rw [hback]))
      · exact ⟨groupSource_mem hx.1,(groupSource_fields g b x).2.trans hx.2⟩
      · exact mem_range.mpr (mod_lt _ (Nat.two_pow_pos g))
    exact hall data x
  · rw [if_neg hlow]
    refine ⟨fun hx => ?_,fun _ => rfl⟩
    -- a group that stays in its place
    obtain ⟨hle,hor⟩ := hgroup x hx
    have hfix : reverseBits i b = i := by omega
    have hsame : x / 2 ^ g = i := by omega
    have hsource : groupSource g b x = x := by
      rw [groupSource,hsame,hfix,←hsame,div_add_mod']
    beta_reduce
    rw [hsource]

theorem bitReverseGroups_run (g : ℕ) {b : ℕ} (buffer : Values α) (hb : buffer.len >>> g = 2 ^ b) :
    ∃ r, bitReverseGroups loop g buffer = .ok r ∧ r.len = buffer.len ∧
      ∀ x, r.scalars x = if x < 2 ^ (b + g) then buffer.scalars (groupSource g b x) else buffer.scalars x := by
  have hpower : (buffer.len >>> g).isPowerOfTwo := ⟨b,hb⟩
  have hall : Computes (fun data : Memory α => (loop.order (2 ^ b)).foldl
      (fun data i => groupTask g b i data) data)
      (fun data x => data (groupSource g b x)) {x | x < 2 ^ (b + g)} := by
    refine Computes.foldl_key _ (groupClaimant g b) (loop.nodup _)
      (fun i hi => groupTask_computes g (loop.mem_order.mp hi))
      (fun i _ => Closed.of_map fun x hx => groupSource_mem hx) fun x _ => ?_
    exact loop.mem_order.mpr ((Nat.min_le_right _ _).trans_lt (reverseBits_lt _ _))
  rw [bitReverseGroups,require_true hpower,ok_bind,hb,Nat.log2_two_pow]
  refine ⟨_,rfl,rfl,fun x => ?_⟩
  split
  · exact (hall buffer.scalars x).1 ‹_›
  · exact (hall buffer.scalars x).2 ‹_›

end SliceRuns

theorem scalar_reversed [Field F] {r buffer : FieldBuffer w F}
    (h : ∀ x < 2 ^ buffer.logLen, r.scalar x = buffer.scalar (reverseBits x buffer.logLen)) {i : ℕ}
    (hi : i < 2 ^ buffer.logLen) : r.scalar (reverseBits i buffer.logLen) = buffer.scalar i := by
  rw [h _ (reverseBits_lt _ _),reverseBits_reverseBits hi]

/-- Permuting a packed buffer moves every scalar to the index with the opposite bits, as exchanging scalars
does, whatever tile is chosen, in whatever order the iterations run and whatever is in their scratch space.
-/
theorem bitReversal_exact [Field F] (loop : LoopOrder) (scratch : ℕ → Scratch w F) (scalarBytes : ℕ)
    (buffer : FieldBuffer w F) :
    (∃ r s, bitReversePacked loop scratch scalarBytes buffer = .ok r ∧
      bitReversePackedNaive buffer = some s ∧ r.logLen = buffer.logLen ∧ s.logLen = buffer.logLen ∧
      r.scalars = s.scalars ∧
      ∀ i < 2 ^ buffer.logLen, r.scalar (reverseBits i buffer.logLen) = buffer.scalar i) ∧
    (∀ L, 2 * (w + L) ≤ buffer.logLen → ∃ r, bitReversePaired loop scratch L buffer = .ok r ∧
      r.logLen = buffer.logLen ∧
      ∀ i < 2 ^ buffer.logLen, r.scalar (reverseBits i buffer.logLen) = buffer.scalar i) ∧
    (∀ L M m, 2 * (w + L) + M = buffer.logLen → m < 2 ^ M →
      (∀ y ∈ touched w L M m, y < buffer.words.length) ∧
      (∃ f, (∀ data, pairedTask L M (scratch m) m data = .ok (f data)) ∧
        Local f {y | y ∈ touched w L M m}) ∧
      ∀ m' < 2 ^ M, m ≠ m' → List.Disjoint (touched w L M m) (touched w L M m')) ∧
    (∀ (α : Type) (slice : Values α) (n : ℕ), slice.len = 2 ^ n →
      ∃ r, bitReverseIndices loop slice = .ok r ∧ r.len = slice.len ∧
        ∀ i < 2 ^ n, r.scalars (reverseBits i n) = slice.scalars i) ∧
    ∀ x n j, j < n → (reverseBits x n).testBit j = x.testBit (n - 1 - j) := by
  refine ⟨?_,fun L hL => ?_,fun L M m hM hm => ⟨fun y hy => ?_,pairedTask_local _ hm,
    fun m' hm' hne => touched_disjoint hm hm' hne⟩,fun α slice n hn => ?_,
    fun x n j hj => reverseBits_testBit x hj⟩
  · obtain ⟨r,hr,hrlen,hrun⟩ := bitReversePacked_run loop scratch scalarBytes buffer
    obtain ⟨s,hs,hslen,hsrun⟩ := bitReversePackedNaive_run buffer
    refine ⟨r,s,hr,hs,hrlen,hslen,?_,fun i hi => scalar_reversed hrun hi⟩
    rw [FieldBuffer.scalars,FieldBuffer.scalars,hrlen,hslen]
    refine List.map_congr_left fun x hx => ?_
    rw [hrun x (mem_range.mp hx),hsrun x (mem_range.mp hx)]
  · obtain ⟨r,hr,hrlen,hrun⟩ := bitReversePaired_run loop scratch buffer hL
    exact ⟨r,hr,hrlen,fun i hi => scalar_reversed hrun hi⟩
  · have hin := ((mem_touched hm y).mp hy).1
    have hwords : w + L + M + L = buffer.logLen - w := by omega
    rw [buffer.words_length,shiftLeft_eq,one_mul,←hwords]
    exact hin
  · have hgroups : slice.len >>> 0 = 2 ^ n := hn
    obtain ⟨r,hr,hlen,hrun⟩ := bitReverseGroups_run loop 0 slice hgroups
    refine ⟨r,hr,hlen,fun i hi => ?_⟩
    have hrev := reverseBits_lt i n
    rw [hrun,if_pos (by rwa [Nat.add_zero]),groupSource,pow_zero,Nat.div_one,Nat.mul_one,mod_one,
      Nat.add_zero,reverseBits_reverseBits hi]

end Binius64.BitReversal
