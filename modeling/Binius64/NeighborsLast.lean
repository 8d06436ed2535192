import Binius64.CheckedRun
import Binius64.ButterflyNetwork
import Mathlib.Algebra.Ring.Pi

/-!
# The additive NTT with neighbors last

The forward transforms over one buffer of scalars, which the fast ones read and write as packed
elements through slices.
-/

namespace Binius64.Ntt

open List (range range')

structure DomainContext (F : Type) [Field F] where
  logDomainSize : ℕ
  twiddle : ℕ → ℕ → F
  /-- The twiddles of a layer at every block whose low bits are zero. -/
  iterTwiddles : ℕ → ℕ → List F
  twiddle_xor : ∀ layer < logDomainSize, ∀ a < 2 ^ layer, ∀ b < 2 ^ layer,
    twiddle layer (a ^^^ b) = twiddle layer a + twiddle layer b
  iterTwiddles_eq : ∀ layer < logDomainSize, ∀ logStepBy ≤ layer, iterTwiddles layer logStepBy =
    (range (1 <<< (layer - logStepBy))).map fun block => twiddle layer (block <<< logStepBy)

inductive AssertFailure where
  /-- The assertion does not hold. -/
  | failed
deriving DecidableEq

/-- Stop unless the condition holds. -/
def require (p : Prop) [Decidable p] : Except AssertFailure Unit :=
  if p then .ok () else .error .failed

/-- The scalars of a buffer, by position. -/
abbrev Memory (F : Type) := ℕ → F

abbrev PackedField (w : ℕ) (F : Type) := Fin (2 ^ w) → F

namespace PackedField

variable {w : ℕ} {F : Type}

/-- The same scalar in every lane. -/
def broadcast (v : F) : PackedField w F := fun _ => v

/-- The scalar in a lane. -/
def get [Zero F] (p : PackedField w F) (i : ℕ) : F := if h : i < 2 ^ w then p ⟨i,h⟩ else 0

/-- Replace the scalar in a lane. -/
def set (p : PackedField w F) (i : ℕ) (v : F) : PackedField w F := fun j => if j.val = i then v else p j

/-- Stack two elements, cut them into two by two matrices of blocks and transpose these. -/
def interleave [Zero F] (a b : PackedField w F) (logBlockLen : ℕ) :
    PackedField w F × PackedField w F :=
  (fun j => if j.val / 2 ^ logBlockLen % 2 = 0 then a j else b.get (j.val - 2 ^ logBlockLen),
    fun j => if j.val / 2 ^ logBlockLen % 2 = 0 then a.get (j.val + 2 ^ logBlockLen) else b j)

end PackedField

def load {F : Type} (w : ℕ) (data : Memory F) (p : ℕ) : PackedField w F :=
  fun j => data (p * 2 ^ w + j.val)

def store {F : Type} (w : ℕ) (p : ℕ) (v : PackedField w F) (data : Memory F) : Memory F :=
  fun i => if i / 2 ^ w = p then v ⟨i % 2 ^ w,Nat.mod_lt _ (Nat.two_pow_pos w)⟩ else data i

structure Slice where
  start : ℕ
  len : ℕ
deriving DecidableEq

namespace Slice

variable (s : Slice)

def positions : List ℕ := range' s.start s.len

def splitAt (mid : ℕ) : Slice × Slice := (⟨s.start,mid⟩,⟨s.start + mid,s.len - mid⟩)

def chunksExact (n : ℕ) : List Slice :=
  (range (s.len / n)).map fun k => ⟨s.start + k * n,n⟩

end Slice

section Transforms

variable {F : Type} [Field F]

variable (domainContext : DomainContext F)

/-- The preconditions of the transforms. -/
def inputCheck (logD skipEarly skipLate : ℕ) : Except AssertFailure Unit := do
  require (skipEarly + skipLate ≤ logD)
  require (logD - skipLate ≤ domainContext.logDomainSize)

def referenceButterfly (twiddle : F) (idx0 idx1 : ℕ) (data : Memory F) : Memory F :=
  let u := data idx0 + data idx1 * twiddle
  let v := data idx1 + u
  Function.update (Function.update data idx0 u) idx1 v

def referenceLayer (logD layer : ℕ) (data : Memory F) : Memory F :=
  let numBlocks := 1 <<< layer
  let blockSizeHalf := 1 <<< (logD - layer - 1)
  (range numBlocks).foldl (fun data block =>
    let twiddle := domainContext.twiddle layer block
    let blockStart := block <<< (logD - layer)
    (range' blockStart blockSizeHalf).foldl (fun data idx0 =>
      referenceButterfly twiddle idx0 (blockSizeHalf ||| idx0) data) data) data

def neighborsLastReference (logD skipEarly skipLate : ℕ)
    (data : Memory F) : Except AssertFailure (Memory F) := do
  inputCheck domainContext logD skipEarly skipLate
  return (range' skipEarly (logD - skipLate - skipEarly)).foldl (fun data layer =>
    referenceLayer domainContext logD layer data) data

def butterflyAt (w : ℕ) (twiddle : PackedField w F) (p q : ℕ) (data : Memory F) : Memory F :=
  let u := load w data p + load w data q * twiddle
  let v := load w data q + u
  store w q v (store w p u data)

/-- The butterfly of the zero twiddle: `v += u`. -/
def addAt (w : ℕ) (p q : ℕ) (data : Memory F) : Memory F :=
  store w q (load w data q + load w data p) data

def butterflyZip (w : ℕ) (twiddle : PackedField w F) (block0 block1 : Slice) (data : Memory F) :
    Memory F :=
  (block0.positions.zip block1.positions).foldl (fun data pair =>
    butterflyAt w twiddle pair.1 pair.2 data) data

/-- Butterflies of the zero twiddle between the elements of two slices. -/
def addZip (w : ℕ) (block0 block1 : Slice) (data : Memory F) : Memory F :=
  (block0.positions.zip block1.positions).foldl (fun data pair => addAt w pair.1 pair.2 data) data

/-- A layer whose butterflies are between separate packed elements. -/
def forwardAcross (w : ℕ) (slice : Slice)
    (logN baseLayer baseBlock layer : ℕ) (data : Memory F) : Memory F :=
  let logBlockSize := logN - w - layer
  let logHalfBlockSize := logBlockSize - 1
  let logBlocks := layer - baseLayer
  let layerTwiddles := ((domainContext.iterTwiddles layer 0).drop (baseBlock <<< logBlocks)).take
    (1 <<< logBlocks)
  let blocks := slice.chunksExact (1 <<< logBlockSize)
  let each := fun (data : Memory F) (entry : Slice × F) =>
    let halves := entry.1.splitAt (1 <<< logHalfBlockSize)
    butterflyZip w (.broadcast entry.2) halves.1 halves.2 data
  if baseBlock = 0 then
    -- the first block of the domain has the zero twiddle
    let data := match blocks with
      | [] => data
      | block :: _ =>
        let halves := block.splitAt (1 <<< logHalfBlockSize)
        addZip w halves.1 halves.2 data
    (blocks.tail.zip layerTwiddles.tail).foldl each data
  else (blocks.zip layerTwiddles).foldl each data

/-- The part of the twiddles of a pair of packed elements that is the same for every pair. -/
def packedTwiddleOffset (w logN layer : ℕ) : PackedField w F :=
  let logBlockSize := logN - layer
  let logHalfBlockSize := logBlockSize - 1
  let logBlocksPerPacked := w - logBlockSize
  (range (1 <<< logBlocksPerPacked)).foldl (fun offset block =>
    let twiddle0 := domainContext.twiddle layer block
    let twiddle1 := domainContext.twiddle layer ((1 <<< logBlocksPerPacked) ||| block)
    let blockStart := block <<< logBlockSize
    (range (1 <<< logHalfBlockSize)).foldl (fun offset j =>
      (offset.set (blockStart ||| j) twiddle0).set (blockStart ||| j ||| (1 <<< logHalfBlockSize))
        twiddle1) offset) 0

/-- The butterflies inside a pair of packed elements, interleaved so that they stand side by side. -/
def butterflyWithin (w logHalfBlockSize : ℕ) (twiddle : PackedField w F) (p q : ℕ)
    (data : Memory F) : Memory F :=
  let (u,v) := (load w data p).interleave (load w data q) logHalfBlockSize
  let u := u + v * twiddle
  let v := v + u
  let (packed0,packed1) := u.interleave v logHalfBlockSize
  store w q packed1 (store w p packed0 data)

/-- A layer whose butterflies are inside packed elements. -/
def forwardWithin (w : ℕ) (slice : Slice)
    (logD logN baseBlock layer : ℕ) (data : Memory F) : Memory F :=
  let logBlockSize := logN - layer
  let logHalfBlockSize := logBlockSize - 1
  let logBlocksPerPacked := w - logBlockSize
  let logHalfBlocksPerPacked := logBlocksPerPacked + 1
  let offset := packedTwiddleOffset domainContext w logN layer
  let logPackedPairs := logD - w - 1
  let layerTwiddles := ((domainContext.iterTwiddles layer logHalfBlocksPerPacked).drop
    (baseBlock <<< logPackedPairs)).take (1 <<< logPackedPairs)
  ((slice.chunksExact 2).zip layerTwiddles).foldl (fun data entry =>
    butterflyWithin w logHalfBlockSize (.broadcast entry.2 + offset) entry.1.start
      (entry.1.start + 1) data) data

def forwardBreadthFirst (w : ℕ) (slice : Slice)
    (logD baseLayer baseBlock first last : ℕ) (data : Memory F) : Except AssertFailure (Memory F) := do
  require (w < logD)
  require (slice.len = 1 <<< (logD - w))
  require (last ≤ domainContext.logDomainSize)
  require (baseLayer ≤ first)
  let logN := logD + baseLayer
  require (last ≤ logN)
  -- `clamp` asserts that its bounds are in order
  require (first ≤ last)
  let packedCutoff := max first (min (logN - w) last)
  let data := (range' first (packedCutoff - first)).foldl (fun data layer =>
    forwardAcross domainContext w slice logN baseLayer baseBlock layer data) data
  let data := (range' packedCutoff (last - packedCutoff)).foldl (fun data layer =>
    forwardWithin domainContext w slice logD logN baseBlock layer data) data
  return data

def forwardBlockLayer (w : ℕ) (halves : Slice × Slice)
    (layer block first : ℕ) (data : Memory F) : Memory F :=
  if first ≤ layer then
    if block = 0 then addZip w halves.1 halves.2 data
    else butterflyZip w (.broadcast (domainContext.twiddle layer block)) halves.1 halves.2 data
  else data

/-- The layers of a range on a block, in depth-first order down to small blocks. -/
def forwardDepthFirst (domainContext : DomainContext F) (w logBaseLen last : ℕ) :
    (logD : ℕ) → (slice : Slice) → (layer block first : ℕ) → Memory F →
      Except AssertFailure (Memory F)
  | 0, _, _, _, _, _ => .error .failed
  | logD + 1, slice, layer, block, first, data => do
    require (w < logD + 1)
    require (slice.len = 1 <<< (logD + 1 - w))
    require (last ≤ domainContext.logDomainSize)
    require (layer ≤ first)
    require (w < logBaseLen)
    require (last ≤ logD + 1 + layer)
    if last ≤ layer then return data
    if logD + 1 ≤ logBaseLen then
      return ← forwardBreadthFirst domainContext w slice (logD + 1) layer block first last data
    let halves := slice.splitAt (1 <<< (logD + 1 - 1 - w))
    let data := forwardBlockLayer domainContext w halves layer block first data
    let first := if first ≤ layer then first + 1 else first
    let data ← forwardDepthFirst domainContext w logBaseLen last logD halves.1 (layer + 1)
      (block <<< 1) first data
    forwardDepthFirst domainContext w logBaseLen last logD halves.2 (layer + 1) ((block <<< 1) + 1)
      first data

end Transforms

/-- A piece of a pass: the slices it owns and what it does to the buffer. -/
structure Task (F : Type) where
  slices : List Slice
  run : Memory F → Except AssertFailure (Memory F)

/-- The order in which the tasks of every pass are run. -/
structure Schedule where
  order : {T : Type} → ℕ → List T → List T
  perm : ∀ {T : Type} (pass : ℕ) (tasks : List T), (order pass tasks).Perm tasks

def forEach {F : Type} (schedule : Schedule) (pass : ℕ) (tasks : List (Task F)) (data : Memory F) :
    Except AssertFailure (Memory F) :=
  (schedule.order pass tasks).foldlM (fun data task => task.run data) data

def withMiddleBit (k shift : ℕ) : Except AssertFailure (ℕ × ℕ) := do
  require (1 ≤ shift)
  let ms := k >>> (shift - 1)
  let ls := k &&& ((1 <<< shift) - 1)
  return (ls ||| (((ms >>> 1) <<< 1) <<< shift),ls ||| ((ms ||| 1) <<< shift))

section Shared

variable {F : Type} [Field F]

variable (domainContext : DomainContext F)

/-- The part of a layer between two chunks of the buffer. -/
def sharedLayerTask (w : ℕ) (slice : Slice)
    (logD layer logNumShares k : ℕ) : Except AssertFailure (Task F) := do
  let logNumChunks := logNumShares + 1
  let logDChunk := logD - logNumChunks
  let shift := logNumShares - layer
  let (chunk0,chunk1) ← withMiddleBit k shift
  let block := chunk0 >>> (logNumChunks - layer)
  require (w ≤ logDChunk)
  let logChunkLen := logDChunk - w
  let slice0 : Slice := ⟨slice.start + chunk0 <<< logChunkLen,1 <<< logChunkLen⟩
  let slice1 : Slice := ⟨slice.start + chunk1 <<< logChunkLen,1 <<< logChunkLen⟩
  return ⟨[slice0,slice1],fun data => .ok (
    if block ≠ 0 then
      butterflyZip w (.broadcast (domainContext.twiddle layer block)) slice0 slice1 data
    else addZip w slice0 slice1 data)⟩

def sharedLayerTasks (w : ℕ) (slice : Slice)
    (logD layer logNumShares : ℕ) : Except AssertFailure (List (Task F)) := do
  require (slice.len * (1 <<< w) = 1 <<< logD)
  require (1 <<< (logNumShares + 1) ≤ slice.len)
  require (layer < domainContext.logDomainSize)
  (range (1 <<< logNumShares)).mapM
    (sharedLayerTask domainContext w slice logD layer logNumShares)

/-- The elements of four slices, side by side. -/
def izip (runs : Slice × Slice × Slice × Slice) : List (ℕ × ℕ × ℕ × ℕ) :=
  runs.1.positions.zip (runs.2.1.positions.zip (runs.2.2.1.positions.zip runs.2.2.2.positions))

/-- Two layers on the four planes of a super-block. -/
def fusedPair (w : ℕ) (runs : Slice × Slice × Slice × Slice)
    (twiddle0 twiddle1Even twiddle1Odd : PackedField w F) (data : Memory F) : Memory F :=
  (izip runs).foldl (fun data x =>
    let data := butterflyAt w twiddle0 x.1 x.2.2.1 data
    let data := butterflyAt w twiddle0 x.2.1 x.2.2.2 data
    let data := butterflyAt w twiddle1Even x.1 x.2.1 data
    butterflyAt w twiddle1Odd x.2.2.1 x.2.2.2 data) data

/-- Two layers on the four planes of the super-block zero, two of whose twiddles are zero. -/
def fusedPairZeroBlock (w : ℕ) (runs : Slice × Slice × Slice × Slice)
    (twiddle1Odd : PackedField w F) (data : Memory F) : Memory F :=
  (izip runs).foldl (fun data x =>
    let data := addAt w x.1 x.2.2.1 data
    let data := addAt w x.2.1 x.2.2.2 data
    let data := addAt w x.1 x.2.1 data
    butterflyAt w twiddle1Odd x.2.2.1 x.2.2.2 data) data

/-- Two layers on a run of the four planes of a super-block. -/
def sharedPairTask (w firstLayer h : ℕ) (runs : Slice × Slice × Slice × Slice) : Task F :=
  let twiddle := fun layer block => (.broadcast (domainContext.twiddle layer block) : PackedField w F)
  let twiddle0 := twiddle firstLayer h
  let twiddle1Even := twiddle (firstLayer + 1) (h <<< 1)
  let twiddle1Odd := twiddle (firstLayer + 1) ((h <<< 1) ||| 1)
  ⟨[runs.1,runs.2.1,runs.2.2.1,runs.2.2.2],fun data => .ok (
    if h = 0 then fusedPairZeroBlock w runs twiddle1Odd data
    else fusedPair w runs twiddle0 twiddle1Even twiddle1Odd data)⟩

def planeRuns (superBlock : Slice) (planeLen runLen : ℕ) : List (Slice × Slice × Slice × Slice) :=
  let halves := superBlock.splitAt (planeLen <<< 1)
  let lower := halves.1.splitAt planeLen
  let upper := halves.2.splitAt planeLen
  (lower.1.chunksExact runLen).zip ((lower.2.chunksExact runLen).zip
    ((upper.1.chunksExact runLen).zip (upper.2.chunksExact runLen)))

/-- The tasks of two layers in one pass: one for every super-block and run. -/
def sharedLayerPairTasks (w : ℕ) (slice : Slice)
    (logD firstLayer logNumShares : ℕ) : Except AssertFailure (List (Task F)) := do
  require (slice.len <<< w = 1 <<< logD)
  require (firstLayer + 2 ≤ logNumShares)
  require (firstLayer + 2 + w < logD)
  require (firstLayer + 2 ≤ domainContext.logDomainSize)
  let logPlaneLen := logD - firstLayer - 2 - w
  let planeLen := 1 <<< logPlaneLen
  let logRunLen := logPlaneLen - (logNumShares - firstLayer)
  let runLen := 1 <<< logRunLen
  return (slice.chunksExact (planeLen <<< 2)).zipIdx.flatMap fun entry =>
    (planeRuns entry.1 planeLen runLen).map (sharedPairTask domainContext w firstLayer entry.2)

/-- A pass over the buffer: one layer, or two fused ones. -/
inductive SharedPass where
  /-- The two layers from this one on. -/
  | pair (firstLayer : ℕ)
  | single (layer : ℕ)
deriving DecidableEq

/-- The passes of the shared layers: pairs while there is another layer and planes of at least two
elements. -/
def sharedPasses (w logD last layer : ℕ) : List SharedPass :=
  if layer < last then
    if 2 ≤ last - layer ∧ layer + 2 + w < logD then
      .pair layer :: sharedPasses w logD last (layer + 2)
    else .single layer :: sharedPasses w logD last (layer + 1)
  else []
termination_by last - layer

def SharedPass.number : SharedPass → ℕ
  | .pair firstLayer => firstLayer
  | .single layer => layer

def SharedPass.tasks (w : ℕ) (slice : Slice)
    (logD logNumShares : ℕ) : SharedPass → Except AssertFailure (List (Task F))
  | .pair firstLayer => sharedLayerPairTasks domainContext w slice logD firstLayer logNumShares
  | .single layer => sharedLayerTasks domainContext w slice logD layer logNumShares

def forwardSharedLayers (schedule : Schedule) (domainContext : DomainContext F) (w : ℕ)
    (slice : Slice) (logD first last logNumShares : ℕ) (data : Memory F) :
    Except AssertFailure (Memory F) := do
  require (last ≤ logNumShares)
  (sharedPasses w logD last first).foldlM (fun data pass => do
    let tasks ← pass.tasks domainContext w slice logD logNumShares
    forEach schedule pass.number tasks data) data

def wholeSlice (w logD : ℕ) : Slice := ⟨0,1 <<< (logD - w)⟩

def neighborsLastBreadthFirst (w logD skipEarly skipLate : ℕ)
    (data : Memory F) : Except AssertFailure (Memory F) := do
  if logD ≤ w then return ← neighborsLastReference domainContext logD skipEarly skipLate data
  inputCheck domainContext logD skipEarly skipLate
  forwardBreadthFirst domainContext w (wholeSlice w logD) logD 0 0 skipEarly (logD - skipLate) data

def neighborsLastSingleThread (logBaseLen w logD skipEarly skipLate : ℕ) (data : Memory F) :
    Except AssertFailure (Memory F) := do
  if logD ≤ w then return ← neighborsLastReference domainContext logD skipEarly skipLate data
  inputCheck domainContext logD skipEarly skipLate
  forwardDepthFirst domainContext w (max logBaseLen (w + 1)) (logD - skipLate) logD
    (wholeSlice w logD) 0 0 skipEarly data

/-- The number of shares, as a power of two, after the clamp that leaves each two elements. -/
def actualLogNumShares (w logD logNumShares : ℕ) : ℕ := min logNumShares (logD - w - 1)

def independentTasks (logBaseLen w logD first last : ℕ) : List (Task F) :=
  let layer := min first (logD - w - 1)
  let logDChunk := logD - layer
  ((wholeSlice w logD).chunksExact (1 <<< (logDChunk - w))).zipIdx.map fun entry =>
    ⟨[entry.1],forwardDepthFirst domainContext w logBaseLen last logDChunk entry.1 layer entry.2
      first⟩

def neighborsLastMultiThread (schedule : Schedule) (domainContext : DomainContext F)
    (logBaseLen logNumShares w logD skipEarly skipLate : ℕ) (data : Memory F) :
    Except AssertFailure (Memory F) := do
  if logD ≤ w then return ← neighborsLastReference domainContext logD skipEarly skipLate data
  inputCheck domainContext logD skipEarly skipLate
  let logShares := actualLogNumShares w logD logNumShares
  let lastLayer := logD - skipLate
  let data ← forwardSharedLayers schedule domainContext w (wholeSlice w logD) logD skipEarly
    (min logShares lastLayer) logShares data
  forEach schedule logD (independentTasks domainContext logBaseLen w logD (max logShares skipEarly)
    lastLayer) data

end Shared

end Binius64.Ntt
