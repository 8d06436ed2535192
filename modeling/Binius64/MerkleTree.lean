import Mathlib.Data.List.Forall2
import Binius64.ByteCodec
import Binius64.CheckedRun
import Binius64.HashTree

/-!
# Merkle commitments

The verifier's scheme and the prover's tree.
-/

namespace Binius64.MerkleTree

open ByteCodec HashTree List
open CheckedRun (mapM_getElem)

/-- The ways a verification or a read stops. -/
inductive Failure where
  /-- An assertion on the arguments fails. -/
  | precondition
  | serialization
  /-- The decommitment holds too few bytes, or bytes no value has. -/
  | transcript
  | invalidProof
deriving DecidableEq

inductive TreeError where
  /-- The values do not split into whole leaves. -/
  | incorrectBatchSize (nValues batchSize : ℕ)
  /-- The leaf count is not a power of two. -/
  | powerOfTwoLengthRequired (nLeaves : ℕ)
  /-- The layer lies below the leaves. -/
  | incorrectLayerDepth (layerDepth logLen : ℕ)
  /-- The leaf lies outside the tree. -/
  | indexOutOfRange (index logLen : ℕ)
  /-- The code panics: an index or a length is off, a value has no byte form, or a node was read
  before it was written. -/
  | panic
deriving DecidableEq

/-- The output of the leaf hash: an array of bytes. -/
structure Digest (n : ℕ) where
  bytes : List UInt8
  sized : bytes.length = n
deriving DecidableEq

structure FixedSizeSerializeBytes (T : Type) where
  byteSize : ℕ
  serialize : T → Encoded Failure
  deserialize : Decoder Failure T
  sized : ∀ t bytes, serialize t = .ok bytes → bytes.length = byteSize
  roundTrip : ∀ t bytes, serialize t = .ok bytes → ∀ rest, deserialize (bytes ++ rest) = .ok (t,rest)

structure HashSuite (n : ℕ) where
  leafHash : List UInt8 → Digest n
  compress : Digest n × Digest n → Digest n

variable {n : ℕ} {T : Type}

namespace Digest

def serialize (digest : Digest n) : Encoded Failure := .ok digest.bytes

/-- A digest is read as so many bytes. -/
def deserialize : Decoder Failure (Digest n) := fun input =>
  if h : (input.take n).length = n then .ok (⟨input.take n,h⟩,input.drop n)
  else .error .transcript

theorem roundTrip (digest : Digest n) (bytes : List UInt8) (h : digest.serialize = .ok bytes)
    (rest : List UInt8) : deserialize (bytes ++ rest) = .ok (digest,rest) := by
  cases h
  have ht : (digest.bytes ++ rest).take n = digest.bytes := by
    rw [take_append_of_le_length (by rw [digest.sized]),take_of_length_le
      (by rw [digest.sized])]
  have hd : (digest.bytes ++ rest).drop n = rest := drop_left' digest.sized
  have hl : ((digest.bytes ++ rest).take n).length = n := by rw [ht,digest.sized]
  rw [deserialize,dif_pos hl,hd]
  congr 2
  cases digest with
  | mk bytes sized => simp only [Digest.mk.injEq]; exact ht

end Digest

/-- Write the parent of the pair at a position in place. -/
def foldPair (H : HashSuite n) (layer : List (Digest n)) (i : ℕ) :
    Except Failure (List (Digest n)) :=
  match layer[2 * i]?,layer[2 * i + 1]? with
  | some left,some right => .ok (layer.set i (H.compress (left,right)))
  | _,_ => .error .precondition

/-- One in-place round: a parent lands below both children it replaces, then the consumed tail is
dropped. -/
def foldRound (H : HashSuite n) (layer : List (Digest n)) : Except Failure (List (Digest n)) := do
  let half := layer.length / 2
  let folded ← (range half).foldlM (foldPair H) layer
  return folded.take half

/-- Halve the layer in place until one digest is left, a bounded number of times. -/
def foldRounds (H : HashSuite n) : ℕ → List (Digest n) → Except Failure (List (Digest n))
  | 0, layer => .ok layer
  | fuel + 1, layer =>
    if 1 < layer.length then do
      let layer ← foldRound H layer
      foldRounds H fuel layer
    else .ok layer

def foldToRoot (H : HashSuite n) (digests : List (Digest n)) : Except Failure (Digest n) :=
  if ¬digests.length.isPowerOfTwo then .error .precondition
  else
    match digests with
    | [root] => .ok root
    | _ => do
      -- every round halves the layer, so its length bounds the number of rounds
      let layer ← foldRounds H digests.length (parents H.compress digests)
      match layer.getLast? with
      | some root => .ok root
      | none => .error .precondition

def leafBytes (codec : FixedSizeSerializeBytes T) (values : List T) : Encoded Failure :=
  writeAll (values.map codec.serialize)

def computeLeafDigest (H : HashSuite n) (codec : FixedSizeSerializeBytes T) (values : List T) :
    Except Failure (Digest n) := do
  let bytes ← leafBytes codec values
  return H.leafHash bytes

variable (size : ℕ) (data : List T)

/-- Cut a list into consecutive chunks of one size; the length is a multiple of it. -/
def chunks : List (List T) :=
  (range (data.length / size)).map fun i => (data.drop (i * size)).take size

/-- Rebuild the whole tree from the revealed values and compare its root. -/
def verifyVector (H : HashSuite n) (codec : FixedSizeSerializeBytes T) (root : Digest n)
    (data : List T) (batchSize : ℕ) : Except Failure Unit := do
  if batchSize = 0 then throw .precondition
  if data.length % batchSize ≠ 0 then throw .precondition
  if ¬(data.length / batchSize).isPowerOfTwo then throw .precondition
  let digests ← (chunks batchSize data).mapM (computeLeafDigest H codec)
  let folded ← foldToRoot H digests
  if folded ≠ root then throw .invalidProof

def verifyLayer (H : HashSuite n) (root : Digest n) (layerDepth : ℕ)
    (layerDigests : List (Digest n)) : Except Failure Unit := do
  if layerDigests.length ≠ 2 ^ layerDepth then throw .precondition
  let folded ← foldToRoot H layerDigests
  if folded ≠ root then throw .invalidProof

def climbOpening (H : HashSuite n) : ℕ → ℕ → Digest n → Decoder Failure (Digest n × ℕ)
  | 0, index, digest => return (digest,index)
  | levels + 1, index, digest => do
    let sibling ← Digest.deserialize
    -- an even index means the running digest is the left child of its parent
    let digest := H.compress (if index % 2 = 0 then (digest,sibling) else (sibling,digest))
    climbOpening H levels (index / 2) digest

/-- Climb from the claimed leaf to the decommitted layer and compare the entry there. -/
def verifyOpening (H : HashSuite n) (codec : FixedSizeSerializeBytes T) (index : ℕ)
    (values : List T) (layerDepth treeDepth : ℕ) (layerDigests : List (Digest n)) :
    Decoder Failure Unit := do
  if layerDigests.length ≠ 2 ^ layerDepth then throw .precondition
  if ¬layerDepth ≤ treeDepth then throw .precondition
  if ¬index < 2 ^ treeDepth then throw .precondition
  let digest ← computeLeafDigest H codec values
  let (digest,index) ← climbOpening H (treeDepth - layerDepth) index digest
  match layerDigests[index]? with
  | none => throw .precondition
  | some entry => if digest ≠ entry then throw .invalidProof

/-- The depth at which the decommitted layer first reaches the query count, never below the
leaves. -/
def optimalVerifyLayer (nQueries treeDepth : ℕ) : ℕ := min (Nat.size (nQueries - 1)) treeDepth

def recvOpening (H : HashSuite n) (codec : FixedSizeSerializeBytes T) (leafSize layerDepth depth : ℕ)
    (layerDigests : List (Digest n)) (index : ℕ) : Decoder Failure (List T) := do
  let leaf ← readMany codec.deserialize leafSize
  verifyOpening H codec index leaf layerDepth depth layerDigests
  return leaf

/-- Read and verify the values opened at every index, against one decommitted layer. -/
def recvOpenings (H : HashSuite n) (codec : FixedSizeSerializeBytes T) (root : Digest n)
    (depth leafSize : ℕ) (indices : List ℕ) : Decoder Failure (List T) := do
  if ¬indices.all (· < 2 ^ depth) then throw .precondition
  let layerDepth := optimalVerifyLayer indices.length depth
  let layerDigests ← readMany Digest.deserialize (2 ^ layerDepth)
  verifyLayer H root layerDepth layerDigests
  let leaves ← indices.mapM (recvOpening H codec leafSize layerDepth depth layerDigests)
  return leaves.flatten

def recvCommittedVector (H : HashSuite n) (codec : FixedSizeSerializeBytes T) (root : Digest n)
    (depth leafSize : ℕ) : Decoder Failure (List T) := do
  let data ← readMany codec.deserialize (leafSize * 2 ^ depth)
  verifyVector H codec root data leafSize
  return data

variable (H : HashSuite n) {root : Digest n} {treeDepth : ℕ} {codec : FixedSizeSerializeBytes T}

variable (layer : List (Digest n))

theorem foldPair_steps {i : ℕ} (hi : i ≤ layer.length / 2) : (range i).foldlM (foldPair H) layer =
      .ok ((parents H.compress layer).take i ++ layer.drop i) := by
  induction i with
  | zero => rfl
  | succ i ih =>
    have hp := parents_length H.compress layer
    have htake : ((parents H.compress layer).take i).length = i := by
      rw [length_take,hp]
      omega
    have hread (j : ℕ) (hj : i ≤ j) :
        ((parents H.compress layer).take i ++ layer.drop i)[j]? = layer[j]? := by
      rw [getElem?_append_right (by omega),htake,getElem?_drop]
      congr 1
      omega
    have hlt : 2 * i < layer.length := by omega
    have hrt : 2 * i + 1 < layer.length := by omega
    have hl : layer[2 * i]? = some layer[2 * i] := getElem?_eq_getElem _
    have hr : layer[2 * i + 1]? = some layer[2 * i + 1] := getElem?_eq_getElem _
    have hup := parents_getElem? H.compress layer i hl hr
    have hset : ((parents H.compress layer).take i ++ layer.drop i).set i
          (H.compress (layer[2 * i],layer[2 * i + 1])) =
        (parents H.compress layer).take (i + 1) ++ layer.drop (i + 1) := by
      rw [set_append,if_neg (by omega),htake,Nat.sub_self,drop_eq_getElem_cons (by omega),
        set_cons_zero,take_add_one,hup,Option.toList_some,append_assoc,
        singleton_append]
    rw [range_succ,foldlM_append,ih (by omega)]
    simp only [foldlM_cons,foldlM_nil,bind,Except.bind,pure,Except.pure]
    rw [foldPair,hread _ (by omega),hread _ (by omega),hl,hr]
    simp only [hset]

theorem foldRound_eq : foldRound H layer = .ok (parents H.compress layer) := by
  have hp := parents_length H.compress layer
  have ht : ((parents H.compress layer).take (layer.length / 2)).length = layer.length / 2 := by
    rw [length_take,hp,Nat.min_self]
  simp only [foldRound,foldPair_steps H layer le_rfl,bind,Except.bind,pure,Except.pure]
  rw [take_append_of_le_length (by rw [ht]),take_take,Nat.min_self,
    take_of_length_le (by rw [hp])]

theorem foldRounds_eq {m fuel : ℕ} {layer : List (Digest n)}
    (h : layer.length = 2 ^ m) (hf : m ≤ fuel) :
    foldRounds H fuel layer = .ok (levelAbove H.compress layer m) := by
  induction m generalizing layer fuel with
  | zero =>
    cases fuel with
    | zero => rfl
    | succ fuel => rw [foldRounds,if_neg (by rw [h]; decide)]; rfl
  | succ m ih =>
    obtain ⟨fuel,rfl⟩ : ∃ f, fuel = f + 1 := ⟨fuel - 1,by omega⟩
    have hlt : 1 < layer.length := by
      rw [h]
      exact Nat.one_lt_two_pow (by omega)
    have hp : (parents H.compress layer).length = 2 ^ m := by
      rw [parents_length,h,pow_succ,Nat.mul_div_cancel _ (by omega)]
    rw [foldRounds,if_pos hlt,foldRound_eq]
    simp only [bind,Except.bind]
    rw [ih hp (by omega),levelAbove]

theorem foldToRoot_eq {m : ℕ} {layer : List (Digest n)}
    (h : layer.length = 2 ^ m) (hr : levelAbove H.compress layer m = [root]) :
    foldToRoot H layer = .ok root := by
  have hpow : layer.length.isPowerOfTwo := ⟨m,h⟩
  unfold foldToRoot
  rw [if_neg (not_not.mpr hpow)]
  cases m with
  | zero =>
    obtain ⟨digest,rfl⟩ := length_eq_one_iff.mp h
    rw [levelAbove] at hr
    rw [singleton_inj.mp hr]
  | succ m =>
    have hp : (parents H.compress layer).length = 2 ^ m := by
      rw [parents_length,h,pow_succ,Nat.mul_div_cancel _ (by omega)]
    have hfuel : m ≤ layer.length := by
      rw [h]
      exact (Nat.lt_two_pow_self.le).trans (Nat.pow_le_pow_right (by omega) (by omega))
    have hrounds : foldRounds H layer.length (parents H.compress layer) = .ok [root] := by
      rw [foldRounds_eq H hp hfuel,←levelAbove,hr]
    split
    · rw [length_singleton,pow_succ] at h
      omega
    · simp only [hrounds,bind,Except.bind]
      rfl

theorem verifyLayer_ok_iff (root : Digest n) (layerDepth : ℕ)
    (layer : List (Digest n)) :
    verifyLayer H root layerDepth layer = .ok () ↔
      layer.length = 2 ^ layerDepth ∧ levelAbove H.compress layer layerDepth = [root] := by
  by_cases h : layer.length = 2 ^ layerDepth
  · obtain ⟨folded,hr⟩ := exists_root H.compress layer h
    rw [verifyLayer,if_neg (not_not.mpr h)]
    simp only [bind,Except.bind,pure,Except.pure,foldToRoot_eq H h hr,hr,h,true_and,
      singleton_inj]
    by_cases he : folded = root
    · rw [if_neg (not_not.mpr he)]
      simp only [he]
    · rw [if_pos he]
      simp only [he,iff_false]
      exact nofun
  · rw [verifyLayer,if_pos h]
    simp only [h,false_and,iff_false]
    exact nofun

theorem climbOpening_ok_iff (levels index : ℕ) (digest : Digest n)
    (proof rest : List UInt8) (digest' : Digest n) (index' : ℕ) :
    climbOpening H levels index digest proof = .ok ((digest',index'),rest) ↔
      ∃ siblings, readMany Digest.deserialize levels proof = .ok (siblings,rest) ∧
        digest' = climb H.compress index digest siblings ∧ index' = index / 2 ^ levels := by
  induction levels generalizing index digest proof with
  | zero =>
    constructor
    · intro h
      cases h
      exact ⟨[],rfl,rfl,by rw [pow_zero,Nat.div_one]⟩
    · rintro ⟨siblings,hs,rfl,rfl⟩
      cases hs
      rw [pow_zero,Nat.div_one]
      rfl
  | succ levels ih =>
    rw [climbOpening,readMany]
    simp only [bind,StateT.bind,Except.bind]
    cases hd : Digest.deserialize proof with
    | error e =>
      constructor
      · intro h
        cases h
      · rintro ⟨_,h,_⟩
        cases h
    | ok read =>
      obtain ⟨sibling,tail⟩ := read
      simp only
      rw [ih]
      cases hs : readMany Digest.deserialize levels tail with
      | error e =>
        constructor
        · rintro ⟨_,h,_⟩
          cases h
        · rintro ⟨_,h,_⟩
          cases h
      | ok more =>
        obtain ⟨siblings,end_⟩ := more
        have hdiv : index / 2 / 2 ^ levels = index / 2 ^ (levels + 1) := by
          rw [Nat.div_div_eq_div_mul,←pow_succ']
        constructor
        · rintro ⟨found,hf,hdig,hidx⟩
          cases hf
          exact ⟨sibling :: siblings,rfl,hdig,hidx.trans hdiv⟩
        · rintro ⟨found,hf,hdig,hidx⟩
          cases hf
          exact ⟨siblings,rfl,hdig,hidx.trans hdiv.symm⟩

theorem verifyOpening_ok_iff (codec : FixedSizeSerializeBytes T) (index : ℕ)
    (values : List T) (layerDepth treeDepth : ℕ) (layer : List (Digest n))
    (proof rest : List UInt8) :
    verifyOpening H codec index values layerDepth treeDepth layer proof = .ok ((),rest) ↔
      layer.length = 2 ^ layerDepth ∧ layerDepth ≤ treeDepth ∧ index < 2 ^ treeDepth ∧
      ∃ bytes siblings, leafBytes codec values = .ok bytes ∧
        readMany Digest.deserialize (treeDepth - layerDepth) proof = .ok (siblings,rest) ∧
        layer[index / 2 ^ (treeDepth - layerDepth)]? =
          some (climb H.compress index (H.leafHash bytes) siblings) := by
  rw [verifyOpening]
  by_cases hl : layer.length = 2 ^ layerDepth
  swap
  · rw [if_pos hl]
    exact ⟨nofun,fun h => absurd h.1 hl⟩
  by_cases hd : layerDepth ≤ treeDepth
  swap
  · rw [if_neg (not_not.mpr hl),if_pos hd]
    exact ⟨nofun,fun h => absurd h.2.1 hd⟩
  by_cases hi : index < 2 ^ treeDepth
  swap
  · rw [if_neg (not_not.mpr hl),if_neg (not_not.mpr hd),if_pos hi]
    exact ⟨nofun,fun h => absurd h.2.2.1 hi⟩
  rw [if_neg (not_not.mpr hl),if_neg (not_not.mpr hd),if_neg (not_not.mpr hi)]
  simp only [hl,hd,hi,true_and]
  cases hb : leafBytes codec values with
  | error e =>
    simp only [computeLeafDigest,hb,bind,Except.bind]
    constructor
    · exact nofun
    · rintro ⟨bytes,siblings,h,_⟩
      cases h
  | ok bytes =>
    have hclimb := climbOpening_ok_iff H (treeDepth - layerDepth) index (H.leafHash bytes) proof
    simp only [computeLeafDigest,hb,bind,Except.bind,StateT.bind,pure,Except.pure,liftM,monadLift,
      MonadLift.monadLift,StateT.lift]
    cases hc : climbOpening H (treeDepth - layerDepth) index (H.leafHash bytes) proof with
    | error e =>
      constructor
      · exact nofun
      · rintro ⟨bytes',siblings,hb',hs,_⟩
        cases hb'
        rw [(hclimb rest _ _).mpr ⟨siblings,hs,rfl,rfl⟩] at hc
        cases hc
    | ok climbed =>
      obtain ⟨⟨digest,index'⟩,tail⟩ := climbed
      obtain ⟨siblings,hs,rfl,rfl⟩ := (hclimb tail digest index').mp hc
      simp only
      constructor
      · intro h
        cases he : layer[index / 2 ^ (treeDepth - layerDepth)]? with
        | none =>
          rw [he] at h
          cases h
        | some entry =>
          rw [he] at h
          simp only at h
          by_cases heq : climb H.compress index (H.leafHash bytes) siblings = entry
          · rw [if_neg (not_not.mpr heq)] at h
            cases h
            exact ⟨bytes,siblings,rfl,hs,by rw [heq]⟩
          · rw [if_pos heq] at h
            cases h
      · rintro ⟨bytes',siblings',hb',hs',he⟩
        cases hb'
        rw [hs] at hs'
        cases hs'
        rw [he]
        simp only
        rw [if_neg (not_not.mpr rfl)]
        rfl

theorem chunks_length : (chunks size data).length = data.length / size := by
  rw [chunks,length_map,length_range]

theorem chunks_getElem? {i : ℕ} (hi : i < data.length / size) :
    (chunks size data)[i]? = some ((data.drop (i * size)).take size) := by
  rw [chunks,getElem?_map,getElem?_range hi,Option.map_some]

theorem verifyVector_ok_iff (codec : FixedSizeSerializeBytes T)
    (root : Digest n) (data : List T) (batchSize : ℕ) :
    verifyVector H codec root data batchSize = .ok () ↔
      batchSize ≠ 0 ∧ data.length % batchSize = 0 ∧ ∃ m digests,
        data.length / batchSize = 2 ^ m ∧
        (chunks batchSize data).mapM (computeLeafDigest H codec) = .ok digests ∧
        levelAbove H.compress digests m = [root] := by
  rw [verifyVector]
  by_cases hb : batchSize = 0
  · rw [if_pos hb]
    exact ⟨nofun,fun h => absurd hb h.1⟩
  by_cases hd : data.length % batchSize = 0
  swap
  · rw [if_neg hb,if_pos hd]
    exact ⟨nofun,fun h => absurd h.2.1 hd⟩
  by_cases hp : (data.length / batchSize).isPowerOfTwo
  swap
  · rw [if_neg hb,if_neg (not_not.mpr hd),if_pos hp]
    exact ⟨nofun,fun ⟨_,_,m,_,h,_⟩ => absurd ⟨m,h⟩ hp⟩
  rw [if_neg hb,if_neg (not_not.mpr hd),if_neg (not_not.mpr hp)]
  obtain ⟨m,hm⟩ := hp
  simp only [bind,Except.bind,pure,Except.pure]
  cases hdig : (chunks batchSize data).mapM (computeLeafDigest H codec) with
  | error e => exact ⟨nofun,fun ⟨_,_,_,_,_,h,_⟩ => nomatch h⟩
  | ok digests =>
    have hl : digests.length = 2 ^ m := by rw [(mapM_getElem hdig).1,chunks_length,hm]
    obtain ⟨folded,hr⟩ := exists_root H.compress digests hl
    simp only [foldToRoot_eq H hl hr]
    by_cases he : folded = root
    · rw [if_neg (not_not.mpr he)]
      exact ⟨fun _ => ⟨hb,hd,m,digests,hm,rfl,by rw [hr,he]⟩,fun _ => rfl⟩
    · rw [if_pos he]
      constructor
      · exact nofun
      · rintro ⟨_,_,m',digests',hm',hdig',hr'⟩
        cases hdig'
        have hmm : m = m' := Nat.pow_right_injective le_rfl (hm.symm.trans hm')
        rw [←hmm,hr] at hr'
        exact absurd (singleton_inj.mp hr') he

structure HashInputs (n : ℕ) where
  leaves : List (List UInt8)
  pairs : List (Digest n × Digest n)

def HashCollision (H : HashSuite n) (left right : HashInputs n) : Prop :=
  (∃ x ∈ left.leaves, ∃ y ∈ right.leaves, x ≠ y ∧ H.leafHash x = H.leafHash y) ∨
    PairCollision H.compress left.pairs right.pairs

/-- The data of one opening: the claimed values, the decommitted layer, and the decommitment the
siblings are read from. -/
structure Opening (n : ℕ) (T : Type) where
  values : List T
  layerDepth : ℕ
  layerDigests : List (Digest n)
  proof : List UInt8

def Opening.Accepted (H : HashSuite n) (codec : FixedSizeSerializeBytes T) (root : Digest n)
    (index treeDepth : ℕ) (o : Opening n T) : Prop :=
  verifyLayer H root o.layerDepth o.layerDigests = .ok () ∧
    ∃ rest, verifyOpening H codec index o.values o.layerDepth treeDepth o.layerDigests o.proof =
      .ok ((),rest)

def leafInputs (codec : FixedSizeSerializeBytes T) (values : List T) : List (List UInt8) :=
  match leafBytes codec values with
  | .ok bytes => [bytes]
  | .error _ => []

def Opening.siblings (treeDepth : ℕ) (o : Opening n T) : List (Digest n) :=
  match readMany Digest.deserialize (treeDepth - o.layerDepth) o.proof with
  | .ok (siblings,_) => siblings
  | .error _ => []

/-- The hash inputs of an opening: its leaf, the pairs of the layer's fold and those of the
climb. -/
def Opening.inputs (H : HashSuite n) (codec : FixedSizeSerializeBytes T) (index treeDepth : ℕ)
    (o : Opening n T) : HashInputs n :=
  let leaves := leafInputs codec o.values
  ⟨leaves,foldedPairs H.compress o.layerDigests o.layerDepth ++
    leaves.flatMap fun bytes =>
      climbedPairs H.compress index (H.leafHash bytes) (o.siblings treeDepth)⟩

def vectorInputs (H : HashSuite n) (codec : FixedSizeSerializeBytes T) (data : List T)
    (batchSize : ℕ) : HashInputs n :=
  let leaves := (chunks batchSize data).flatMap (leafInputs codec)
  ⟨leaves,foldedPairs H.compress (leaves.map H.leafHash) (Nat.log2 (data.length / batchSize))⟩

/-- A leaf's bytes climb to the root through pairs among the given inputs. -/
def OpensAt (H : HashSuite n) (root : Digest n) (index treeDepth : ℕ) (bytes : List UInt8)
    (inputs : HashInputs n) : Prop :=
  bytes ∈ inputs.leaves ∧ ∃ siblings, siblings.length = treeDepth ∧
    climb H.compress index (H.leafHash bytes) siblings = root ∧
    climbedPairs H.compress index (H.leafHash bytes) siblings ⊆ inputs.pairs

theorem OpensAt.collision {H : HashSuite n} {index : ℕ}
    {bytes bytes' : List UInt8} {inputs inputs' : HashInputs n}
    (h : OpensAt H root index treeDepth bytes inputs)
    (h' : OpensAt H root index treeDepth bytes' inputs') (hne : bytes ≠ bytes') :
    HashCollision H inputs inputs' := by
  obtain ⟨hm,siblings,hl,hc,hp⟩ := h
  obtain ⟨hm',siblings',hl',hc',hp'⟩ := h'
  by_cases hd : H.leafHash bytes = H.leafHash bytes'
  · exact .inl ⟨bytes,hm,bytes',hm',hne,hd⟩
  · have hcol := climb_collision H.compress (hl.trans hl'.symm) hd (hc.trans hc'.symm)
    exact .inr (hcol.mono H.compress hp hp')

theorem leafBytes_inj {values values' : List T}
    {bytes : List UInt8} (h : leafBytes codec values = .ok bytes)
    (h' : leafBytes codec values' = .ok bytes) (hl : values.length = values'.length) :
    values = values' := by
  have hr := readMany_writeAll codec.roundTrip h []
  rw [hl,readMany_writeAll codec.roundTrip h' []] at hr
  cases hr
  rfl

theorem Opening.Accepted.opensAt {H : HashSuite n}
    {index : ℕ} {o : Opening n T}
    (h : o.Accepted H codec root index treeDepth) :
    index < 2 ^ treeDepth ∧ ∃ bytes, leafBytes codec o.values = .ok bytes ∧
      OpensAt H root index treeDepth bytes (o.inputs H codec index treeDepth) := by
  obtain ⟨hlayer,rest,hopening⟩ := h
  obtain ⟨hl,hroot⟩ := (verifyLayer_ok_iff H root _ _).mp hlayer
  obtain ⟨-,hd,hi,bytes,siblings,hb,hs,he⟩ :=
    (verifyOpening_ok_iff H codec index o.values o.layerDepth treeDepth o.layerDigests o.proof
      rest).mp hopening
  refine ⟨hi,bytes,hb,?_⟩
  have hleaves : leafInputs codec o.values = [bytes] := by rw [leafInputs,hb]
  have hsib : o.siblings treeDepth = siblings := by rw [Opening.siblings,hs]
  have hlen := readMany_length hs
  have hpos : index / 2 ^ (treeDepth - o.layerDepth) < 2 ^ o.layerDepth := by
    rw [Nat.div_lt_iff_lt_mul (by positivity),←pow_add]
    rwa [show o.layerDepth + (treeDepth - o.layerDepth) = treeDepth by omega]
  -- from the entry of the layer the fold itself is a climb to the root
  obtain ⟨upper,hul,hub⟩ := exists_branch H.compress hl le_rfl hpos
  obtain ⟨hue,hup⟩ := climb_branch H.compress he hub
  rw [hul,hroot] at hue
  rw [hul] at hup
  have hzero : index / 2 ^ (treeDepth - o.layerDepth) / 2 ^ o.layerDepth = 0 :=
    Nat.div_eq_of_lt hpos
  rw [hzero,getElem?_cons_zero,Option.some.injEq] at hue
  refine ⟨by rw [Opening.inputs,hleaves]; exact mem_singleton_self _,siblings ++ upper,?_,?_,?_⟩
  · rw [length_append,hlen,hul]
    omega
  · rw [climb_append,hlen,←hue]
  · rw [climbedPairs_append,hlen,Opening.inputs,hleaves,hsib]
    intro p hp
    rcases mem_append.mp hp with hp | hp
    · exact mem_append_right _ (mem_flatMap.mpr ⟨bytes,mem_singleton_self _,hp⟩)
    · exact mem_append_left _ (hup hp)

theorem computeLeafDigest_ok {H : HashSuite n}
    {values : List T} {digest : Digest n} (h : computeLeafDigest H codec values = .ok digest) :
    ∃ bytes, leafBytes codec values = .ok bytes ∧ H.leafHash bytes = digest := by
  rw [computeLeafDigest] at h
  cases hb : leafBytes codec values with
  | error e =>
    rw [hb] at h
    cases h
  | ok bytes =>
    rw [hb] at h
    cases h
    exact ⟨bytes,rfl,rfl⟩

theorem leafInputs_digests {H : HashSuite n}
    {leaves : List (List T)} {digests : List (Digest n)}
    (h : leaves.mapM (computeLeafDigest H codec) = .ok digests) :
    (leaves.flatMap (leafInputs codec)).map H.leafHash = digests := by
  induction leaves generalizing digests with
  | nil =>
    cases h
    rfl
  | cons leaf leaves ih =>
    rw [mapM_cons] at h
    simp only [bind,Except.bind,pure,Except.pure] at h
    cases hd : computeLeafDigest H codec leaf with
    | error e =>
      rw [hd] at h
      cases h
    | ok digest =>
      obtain ⟨bytes,hb,hh⟩ := computeLeafDigest_ok hd
      rw [hd] at h
      cases hds : leaves.mapM (computeLeafDigest H codec) with
      | error e =>
        rw [hds] at h
        cases h
      | ok rest =>
        rw [hds] at h
        cases h
        rw [flatMap_cons,leafInputs,hb,map_append,ih hds,map_singleton,hh]
        rfl

theorem verifyVector_opensAt {H : HashSuite n}
    {data : List T} {leafSize index : ℕ}
    (h : verifyVector H codec root data leafSize = .ok ())
    (hl : data.length = leafSize * 2 ^ treeDepth) (hi : index < 2 ^ treeDepth) :
    ∃ bytes, leafBytes codec ((data.drop (index * leafSize)).take leafSize) = .ok bytes ∧
      OpensAt H root index treeDepth bytes (vectorInputs H codec data leafSize) := by
  obtain ⟨hz,-,m,digests,hm,hdig,hroot⟩ := (verifyVector_ok_iff H codec root data leafSize).mp h
  have hcount : data.length / leafSize = 2 ^ treeDepth := by
    rw [hl,Nat.mul_div_cancel_left _ (Nat.pos_of_ne_zero hz)]
  have hmt : m = treeDepth := Nat.pow_right_injective le_rfl (hm.symm.trans hcount)
  subst hmt
  obtain ⟨hdl,hde⟩ := mapM_getElem hdig
  rw [chunks_length,hcount] at hdl
  have hchunk := chunks_getElem? leafSize data (hcount ▸ hi)
  obtain ⟨hlt,hget⟩ := List.getElem?_eq_some_iff.mp hchunk
  obtain ⟨digest,hd,hentry⟩ := hde index hlt
  rw [hget] at hd
  obtain ⟨bytes,hb,rfl⟩ := computeLeafDigest_ok hd
  have hmem : bytes ∈ (chunks leafSize data).flatMap (leafInputs codec) :=
    mem_flatMap.mpr ⟨_,mem_of_getElem? hchunk,
      by rw [leafInputs,hb]; exact mem_singleton_self _⟩
  obtain ⟨siblings,hsl,hbranch⟩ := exists_branch H.compress hdl le_rfl hi
  obtain ⟨htop,hpairs⟩ := climb_branch H.compress hentry hbranch
  rw [hsl,hroot,Nat.div_eq_of_lt hi,getElem?_cons_zero,Option.some.injEq] at htop
  refine ⟨bytes,hb,hmem,siblings,hsl,htop.symm,?_⟩
  rw [vectorInputs,leafInputs_digests hdig,hcount,Nat.log2_two_pow,←hsl]
  exact hpairs

end Binius64.MerkleTree
