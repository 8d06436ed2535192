import Binius64.MerkleTree

/-!
# The prover's tree

One buffer holds all layers, the root last.
-/

namespace Binius64.MerkleProver

open ByteCodec HashTree MerkleTree List
open CheckedRun (mapM_getElem exists_mapM mapM_eq_map)

variable {n : ℕ} {T : Type}

structure BinaryMerkleTree (n : ℕ) where
  logLen : ℕ
  innerNodes : List (Digest n)

/-- The span below which a subtree folds level by level. -/
def subtreeLogDepth : ℕ := 6

/-- The nodes above the leaves, some not yet written. -/
abbrev Nodes (n : ℕ) := List (Option (Digest n))

/-- What every recursive call reads. -/
structure BuildContext (n : ℕ) where
  leaves : List (Digest n)
  logLen : ℕ
  suite : HashSuite n

/-- The offset, above the leaf layer, of the node spanning so many leaves from a position. -/
def nodeOffset (logLen leavesStart logWidth : ℕ) : ℕ :=
  let layerDepth := logLen - logWidth
  let layerStart := 2 ^ logLen - 2 ^ (layerDepth + 1)
  layerStart + leavesStart / 2 ^ logWidth

def writeSlice (nodes : Nodes n) (offset : ℕ) (out : List (Digest n)) :
    Except TreeError (Nodes n) :=
  if offset + out.length ≤ nodes.length then
    .ok (nodes.take offset ++ out.map some ++ nodes.drop (offset + out.length))
  else .error .panic

def parallelCompress (H : HashSuite n) (inputs : List (Digest n)) (width : ℕ) :
    Except TreeError (List (Digest n)) :=
  if inputs.length = 2 * width then .ok (parents H.compress inputs) else .error .panic

namespace BuildContext

/-- Fold one more level of a small subtree and write it at its offset. -/
def foldLevel (ctx : BuildContext n) (leavesStart logWidth : ℕ)
    (state : List (Digest n) × Nodes n) (depth : ℕ) :
    Except TreeError (List (Digest n) × Nodes n) := do
  let width := 2 ^ (logWidth - depth)
  let out ← parallelCompress ctx.suite state.1 width
  let nodes ← writeSlice state.2 (nodeOffset ctx.logLen leavesStart depth) out
  return (out,nodes)

def foldSmallSubtree (ctx : BuildContext n) (leavesStart logWidth : ℕ) (nodes : Nodes n) :
    Except TreeError (Digest n × Nodes n) := do
  if ¬leavesStart + 2 ^ logWidth ≤ ctx.leaves.length then throw .panic
  let cur := (ctx.leaves.drop leavesStart).take (2 ^ logWidth)
  let (cur,nodes) ← (range' 1 logWidth).foldlM (ctx.foldLevel leavesStart logWidth) (cur,nodes)
  match cur[0]? with
  | some digest => return (digest,nodes)
  | none => throw .panic

/-- Build every node above a run of leaves, the larger runs from their two halves. -/
def buildNode (ctx : BuildContext n) (leavesStart : ℕ) :
    ℕ → Nodes n → Except TreeError (Digest n × Nodes n)
  | 0, nodes => ctx.foldSmallSubtree leavesStart 0 nodes
  | half + 1, nodes =>
    if half + 1 ≤ subtreeLogDepth then ctx.foldSmallSubtree leavesStart (half + 1) nodes
    else do
      let mid := leavesStart + 2 ^ half
      let (left,nodes) ← ctx.buildNode leavesStart half nodes
      let (right,nodes) ← ctx.buildNode mid half nodes
      let node := ctx.suite.compress (left,right)
      let nodes ← writeSlice nodes (nodeOffset ctx.logLen leavesStart (half + 1)) [node]
      return (node,nodes)

end BuildContext

/-- The content of a buffer every place of which is written. -/
def assumeInit (nodes : Nodes n) : Except TreeError (List (Digest n)) :=
  nodes.mapM fun node =>
    match node with
    | some digest => .ok digest
    | none => .error .panic

namespace BinaryMerkleTree

def nodesAbove (H : HashSuite n) (leafLayer : List (Digest n)) (logLen : ℕ) :
    Except TreeError (List (Digest n)) := do
  let totalLength := 2 ^ (logLen + 1) - 1
  let remaining := replicate (totalLength - 2 ^ logLen) none
  if logLen > 0 then
    let built ← BuildContext.buildNode ⟨leafLayer,logLen,H⟩ 0 logLen remaining
    assumeInit built.2
  else assumeInit remaining

/-- Commit leaves of so many values each. -/
def fromLeaves (H : HashSuite n) (codec : FixedSizeSerializeBytes T) (leaves : List (List T)) :
    Except TreeError (BinaryMerkleTree n) :=
  if ¬leaves.length.isPowerOfTwo then .error .panic
  else
    match leaves.mapM (computeLeafDigest H codec) with
    | .error _ => .error .panic
    | .ok leafLayer => do
      let above ← nodesAbove H leafLayer (Nat.log2 leaves.length)
      return ⟨Nat.log2 leaves.length,leafLayer ++ above⟩

/-- Commit a slice of values, cut into consecutive leaves. -/
def new (H : HashSuite n) (codec : FixedSizeSerializeBytes T) (elements : List T)
    (batchSize : ℕ) : Except TreeError (BinaryMerkleTree n) :=
  if batchSize = 0 ∨ elements.length % batchSize ≠ 0 then
    .error (.incorrectBatchSize elements.length batchSize)
  else if ¬(elements.length / batchSize).isPowerOfTwo then
    .error (.powerOfTwoLengthRequired (elements.length / batchSize))
  else fromLeaves H codec (chunks batchSize elements)

def root (tree : BinaryMerkleTree n) : Except TreeError (Digest n) :=
  match tree.innerNodes.getLast? with
  | some root => .ok root
  | none => .error .panic

variable (tree : BinaryMerkleTree n)

def layer (layerDepth : ℕ) : Except TreeError (List (Digest n)) :=
  if layerDepth > tree.logLen then .error (.incorrectLayerDepth layerDepth tree.logLen)
  else
    let rangeStart := tree.innerNodes.length + 1 - 2 ^ (layerDepth + 1)
    if rangeStart + 2 ^ layerDepth ≤ tree.innerNodes.length then
      .ok ((tree.innerNodes.drop rangeStart).take (2 ^ layerDepth))
    else .error .panic

def nodeAt (nodeIndex : ℕ) : Except TreeError (Digest n) :=
  match tree.innerNodes[nodeIndex]? with
  | some digest => .ok digest
  | none => .error .panic

/-- The siblings opening a leaf up to a layer. -/
def branch (index layerDepth : ℕ) : Except TreeError (List (Digest n)) :=
  if index ≥ 2 ^ tree.logLen then .error (.indexOutOfRange index tree.logLen)
  else if layerDepth > tree.logLen then .error (.incorrectLayerDepth layerDepth tree.logLen)
  else
    (range (tree.logLen - layerDepth)).mapM fun j =>
      tree.nodeAt (((2 ^ j - 1) <<< (tree.logLen + 1 - j)) ||| ((index >>> j) ^^^ 1))

end BinaryMerkleTree

def Written (nodes : Nodes n) (p : ℕ) : Prop := ∃ digest, nodes[p]? = some (some digest)

/-- The buffer has the tree's length, and what is written in it is the tree's. -/
structure Agrees (tree : List (Digest n)) (nodes : Nodes n) : Prop where
  length : nodes.length = tree.length
  digest : ∀ (p : ℕ) (digest : Digest n), nodes[p]? = some (some digest) → tree[p]? = some digest

/-- A step that keeps the buffer in agreement and unwrites nothing. -/
structure Advances (tree : List (Digest n)) (nodes nodes' : Nodes n) : Prop where
  agrees : Agrees tree nodes'
  keeps : ∀ p, Written nodes p → Written nodes' p

theorem Advances.trans {tree : List (Digest n)} {a b c : Nodes n} (h : Advances tree a b)
    (h' : Advances tree b c) : Advances tree a c :=
  ⟨h'.agrees,fun p hp => h'.keeps p (h.keeps p hp)⟩

variable {nodes : Nodes n}

theorem writeSlice_ok {tree : List (Digest n)} (offset : ℕ)
    (out : List (Digest n)) (ha : Agrees tree nodes)
    (hout : ∀ j < out.length, tree[offset + j]? = out[j]?) (hfit : offset + out.length ≤ tree.length) :
    ∃ nodes', writeSlice nodes offset out = .ok nodes' ∧ Advances tree nodes nodes' ∧
      ∀ j < out.length, Written nodes' (offset + j) := by
  have hl := ha.length
  have htake : (nodes.take offset).length = offset := by
    rw [length_take]
    omega
  have hget (p : ℕ) : (nodes.take offset ++ out.map some ++ nodes.drop (offset + out.length))[p]? =
      if p < offset then nodes[p]?
      else if p < offset + out.length then (out[p - offset]?).map some else nodes[p]? := by
    rw [append_assoc,getElem?_append,htake]
    by_cases hp : p < offset
    · rw [if_pos hp,if_pos hp,getElem?_take_of_lt hp]
    · rw [if_neg hp,if_neg hp,getElem?_append,length_map]
      by_cases hq : p < offset + out.length
      · rw [if_pos hq,if_pos (by omega),getElem?_map]
      · rw [if_neg hq,if_neg (by omega),getElem?_drop]
        congr 1
        omega
  refine ⟨_,if_pos (by omega),⟨⟨?_,?_⟩,?_⟩,?_⟩
  · simp only [length_append,length_take,length_map,length_drop]
    omega
  · intro p digest h
    rw [hget] at h
    split at h
    · exact ha.digest p digest h
    · split at h
      · rename_i hlow hhigh
        have hp := hout (p - offset) (by omega)
        rw [show offset + (p - offset) = p by omega] at hp
        rw [hp]
        simpa using h
      · exact ha.digest p digest h
  · rintro p ⟨digest,h⟩
    rw [Written,hget]
    split
    · exact ⟨digest,h⟩
    · split
      · rename_i hlow hhigh
        have hp : p - offset < out.length := by omega
        exact ⟨out[p - offset],by rw [getElem?_eq_getElem hp,Option.map_some]⟩
      · exact ⟨digest,h⟩
  · intro j hj
    rw [Written,hget,if_neg (by omega),if_pos (by omega),Nat.add_sub_cancel_left,
      getElem?_eq_getElem hj]
    exact ⟨_,rfl⟩

/-- The nodes above the leaves of the flattened tree. -/
def above (ctx : BuildContext n) : List (Digest n) :=
  (flattened ctx.suite.compress ctx.leaves ctx.logLen).drop (2 ^ ctx.logLen)

/-- The layer a number of levels above the leaves. -/
abbrev level (ctx : BuildContext n) (k : ℕ) : List (Digest n) :=
  levelAbove ctx.suite.compress ctx.leaves k

variable {ctx : BuildContext n} (hctx : ctx.leaves.length = 2 ^ ctx.logLen)
include hctx

theorem above_getElem? {leavesStart k j : ℕ} (hk : 1 ≤ k) (hkm : k ≤ ctx.logLen)
    (hj : leavesStart / 2 ^ k + j < 2 ^ (ctx.logLen - k)) :
    (above ctx)[nodeOffset ctx.logLen leavesStart k + j]? = (level ctx k)[leavesStart / 2 ^ k + j]? := by
  have hle : 2 ^ (ctx.logLen - k + 1) ≤ 2 ^ ctx.logLen :=
    Nat.pow_le_pow_right (by omega) (by omega)
  have hstart : 2 ^ ctx.logLen + nodeOffset ctx.logLen leavesStart k =
      layerStart ctx.logLen k + leavesStart / 2 ^ k := by
    rw [nodeOffset,layerStart,show ctx.logLen + 1 - k = ctx.logLen - k + 1 by omega,
      pow_succ 2 ctx.logLen]
    omega
  rw [above,getElem?_drop,←Nat.add_assoc,hstart,Nat.add_assoc,
    flattened_getElem? ctx.suite.compress ctx.leaves hctx hkm hj]

theorem above_length : (above ctx).length = 2 ^ ctx.logLen - 1 := by
  rw [above,length_drop,flattened_length ctx.suite.compress ctx.leaves hctx,
    pow_succ 2 ctx.logLen]
  omega

theorem nodeOffset_fits {leavesStart k count : ℕ} (hk : 1 ≤ k) (hkm : k ≤ ctx.logLen)
    (hc : 1 ≤ count) (hj : leavesStart / 2 ^ k + count ≤ 2 ^ (ctx.logLen - k)) :
    nodeOffset ctx.logLen leavesStart k + count ≤ (above ctx).length := by
  have hlast : (above ctx)[nodeOffset ctx.logLen leavesStart k + (count - 1)]? =
      (level ctx k)[leavesStart / 2 ^ k + (count - 1)]? :=
    above_getElem? hctx hk hkm (by omega)
  have hlen := levelAbove_length ctx.suite.compress ctx.leaves hctx hkm
  have hin : leavesStart / 2 ^ k + (count - 1) < (level ctx k).length := by
    rw [level,hlen]
    omega
  rw [getElem?_eq_getElem hin] at hlast
  have := (List.getElem?_eq_some_iff.mp hlast).1
  omega

def SubtreeWritten (logLen leavesStart logWidth : ℕ) (nodes : Nodes n) : Prop :=
  ∀ k, 1 ≤ k → k ≤ logWidth → ∀ j < 2 ^ (logWidth - k),
    Written nodes (nodeOffset logLen leavesStart k + j)

theorem foldLevel_steps {a w : ℕ} (hw : w ≤ ctx.logLen) (ha : a < 2 ^ (ctx.logLen - w))
    (hn : Agrees (above ctx) nodes) {i : ℕ} (hi : i ≤ w) :
    ∃ nodes', (range' 1 i).foldlM (ctx.foldLevel (a * 2 ^ w) w)
        ((ctx.leaves.drop (a * 2 ^ w)).take (2 ^ w),nodes) =
          .ok (((level ctx i).drop (a * 2 ^ (w - i))).take (2 ^ (w - i)),nodes') ∧
      Advances (above ctx) nodes nodes' ∧
      ∀ k, 1 ≤ k → k ≤ i → ∀ j < 2 ^ (w - k),
        Written nodes' (nodeOffset ctx.logLen (a * 2 ^ w) k + j) := by
  induction i with
  | zero => exact ⟨nodes,rfl,⟨hn,fun p h => h⟩,fun k h1 h2 => by omega⟩
  | succ i ih =>
    obtain ⟨mid,hmid,hadv,hwritten⟩ := ih (by omega)
    have hdiv : a * 2 ^ w / 2 ^ (i + 1) = a * 2 ^ (w - (i + 1)) := by
      have hsplit : 2 ^ w = 2 ^ (w - (i + 1)) * 2 ^ (i + 1) := by
        rw [←pow_add]
        congr 1
        omega
      rw [hsplit,←Nat.mul_assoc,Nat.mul_div_cancel _ (by positivity)]
    have hbound : a * 2 ^ (w - (i + 1)) + 2 ^ (w - (i + 1)) ≤ 2 ^ (ctx.logLen - (i + 1)) := by
      have hsplit : 2 ^ (ctx.logLen - (i + 1)) = 2 ^ (ctx.logLen - w) * 2 ^ (w - (i + 1)) := by
        rw [←pow_add]
        congr 1
        omega
      have hsucc : (a + 1) * 2 ^ (w - (i + 1)) ≤ 2 ^ (ctx.logLen - w) * 2 ^ (w - (i + 1)) :=
        Nat.mul_le_mul_right _ ha
      rw [hsplit]
      linarith
    have hhalf : 2 ^ (w - i) = 2 * 2 ^ (w - (i + 1)) := by
      rw [show w - i = w - (i + 1) + 1 by omega,pow_succ,Nat.mul_comm]
    have hhalf' : a * 2 ^ (w - i) = 2 * (a * 2 ^ (w - (i + 1))) := by rw [hhalf,Nat.mul_left_comm]
    have hlen := levelAbove_length ctx.suite.compress ctx.leaves hctx (k := i + 1) (by omega)
    have hlen' := levelAbove_length ctx.suite.compress ctx.leaves hctx (k := i) (by omega)
    have hpow : 2 ^ (ctx.logLen - i) = 2 * 2 ^ (ctx.logLen - (i + 1)) := by
      rw [show ctx.logLen - i = ctx.logLen - (i + 1) + 1 by omega,pow_succ,Nat.mul_comm]
    generalize hb : a * 2 ^ (w - (i + 1)) = b at hdiv hbound hhalf'
    generalize hc : 2 ^ (w - (i + 1)) = c at hbound hhalf
    have hout : parents ctx.suite.compress (((level ctx i).drop (a * 2 ^ (w - i))).take (2 ^ (w - i))) =
        ((level ctx (i + 1)).drop b).take c := by
      rw [hhalf',hhalf,parents_take,parents_drop,level,level,levelAbove_succ]
    have hin : (((level ctx i).drop (a * 2 ^ (w - i))).take (2 ^ (w - i))).length = 2 * c := by
      rw [length_take,length_drop,level,hlen',hhalf',hhalf,hpow]
      omega
    have hol : (((level ctx (i + 1)).drop b).take c).length = c := by
      rw [length_take,length_drop,level,hlen]
      omega
    have hcpos : 1 ≤ c := hc ▸ Nat.one_le_two_pow
    obtain ⟨nodes',hwrite,hadv',hnew⟩ := writeSlice_ok
      (nodeOffset ctx.logLen (a * 2 ^ w) (i + 1)) (((level ctx (i + 1)).drop b).take c) hadv.agrees
      (fun j hj => by
        rw [hol] at hj
        rw [above_getElem? hctx (by omega) (by omega) (by rw [hdiv]; omega),hdiv,
          getElem?_take_of_lt hj,getElem?_drop])
      (by
        rw [hol]
        exact nodeOffset_fits hctx (by omega) (by omega) hcpos (by rw [hdiv]; exact hbound))
    refine ⟨nodes',?_,hadv.trans hadv',?_⟩
    · rw [range'_1_concat,foldlM_append,hmid]
      simp only [foldlM_cons,foldlM_nil,bind,Except.bind,pure,Except.pure]
      rw [BuildContext.foldLevel]
      simp only [bind,Except.bind,pure,Except.pure]
      rw [Nat.add_comm 1 i,parallelCompress,hc,if_pos hin,hout]
      simp only
      rw [hwrite]
    · intro k h1 h2 j hj
      by_cases hk : k ≤ i
      · exact hadv'.keeps _ (hwritten k h1 hk j hj)
      · obtain rfl : k = i + 1 := by omega
        rw [hc] at hj
        exact hnew j (by rw [hol]; exact hj)

theorem foldSmallSubtree_ok {a w : ℕ} (hw : w ≤ ctx.logLen) (ha : a < 2 ^ (ctx.logLen - w))
    (hn : Agrees (above ctx) nodes) :
    ∃ digest nodes', ctx.foldSmallSubtree (a * 2 ^ w) w nodes = .ok (digest,nodes') ∧
      (level ctx w)[a]? = some digest ∧ Advances (above ctx) nodes nodes' ∧
      SubtreeWritten ctx.logLen (a * 2 ^ w) w nodes' := by
  obtain ⟨nodes',hfold,hadv,hwritten⟩ := foldLevel_steps hctx hw ha hn le_rfl
  have hlen := levelAbove_length ctx.suite.compress ctx.leaves hctx hw
  have hfits : a * 2 ^ w + 2 ^ w ≤ ctx.leaves.length := by
    have hsplit : 2 ^ ctx.logLen = 2 ^ (ctx.logLen - w) * 2 ^ w := by
      rw [←pow_add]
      congr 1
      omega
    have hsucc : (a + 1) * 2 ^ w ≤ 2 ^ (ctx.logLen - w) * 2 ^ w := Nat.mul_le_mul_right _ ha
    rw [hctx,hsplit]
    linarith
  have hin : a < (level ctx w).length := hlen ▸ ha
  refine ⟨(level ctx w)[a],nodes',?_,getElem?_eq_getElem hin,hadv,hwritten⟩
  rw [BuildContext.foldSmallSubtree,if_neg (not_not.mpr hfits)]
  simp only [bind,Except.bind,pure,Except.pure,hfold]
  rw [Nat.sub_self,pow_zero,Nat.mul_one,getElem?_take_of_lt Nat.one_pos,getElem?_drop,
    Nat.add_zero,getElem?_eq_getElem hin]

theorem buildNode_ok {a w : ℕ} (hw : w ≤ ctx.logLen) (ha : a < 2 ^ (ctx.logLen - w))
    (hn : Agrees (above ctx) nodes) :
    ∃ digest nodes', ctx.buildNode (a * 2 ^ w) w nodes = .ok (digest,nodes') ∧
      (level ctx w)[a]? = some digest ∧ Advances (above ctx) nodes nodes' ∧
      SubtreeWritten ctx.logLen (a * 2 ^ w) w nodes' := by
  induction w generalizing a nodes with
  | zero => exact foldSmallSubtree_ok hctx hw ha hn
  | succ w ih =>
    by_cases hsmall : w + 1 ≤ subtreeLogDepth
    · rw [BuildContext.buildNode,if_pos hsmall]
      exact foldSmallSubtree_ok hctx hw ha hn
    · have hpow : 2 ^ (ctx.logLen - w) = 2 * 2 ^ (ctx.logLen - (w + 1)) := by
        rw [show ctx.logLen - w = ctx.logLen - (w + 1) + 1 by omega,pow_succ,Nat.mul_comm]
      have hstart : a * 2 ^ (w + 1) = 2 * a * 2 ^ w := by rw [pow_succ]; ac_rfl
      have hmid : a * 2 ^ (w + 1) + 2 ^ w = (2 * a + 1) * 2 ^ w := by
        rw [hstart,Nat.add_mul,Nat.one_mul]
      obtain ⟨left,nodes₁,hl,hle,hadv₁,hw₁⟩ := ih (a := 2 * a) (by omega) (by omega) hn
      obtain ⟨right,nodes₂,hr,hre,hadv₂,hw₂⟩ :=
        ih (a := 2 * a + 1) (by omega) (by omega) hadv₁.agrees
      have hnode : (level ctx (w + 1))[a]? = some (ctx.suite.compress (left,right)) := by
        rw [level,levelAbove_succ]
        exact parents_getElem? ctx.suite.compress _ a hle hre
      have hdiv : a * 2 ^ (w + 1) / 2 ^ (w + 1) = a := Nat.mul_div_cancel _ (by positivity)
      obtain ⟨nodes₃,hwrite,hadv₃,hnew⟩ := writeSlice_ok
        (nodeOffset ctx.logLen (a * 2 ^ (w + 1)) (w + 1)) [ctx.suite.compress (left,right)]
        hadv₂.agrees
        (fun j hj => by
          obtain rfl : j = 0 := by simpa using hj
          rw [above_getElem? hctx (by omega) hw (by rw [hdiv]; omega),hdiv,Nat.add_zero a,hnode]
          rfl)
        (nodeOffset_fits hctx (by omega) hw le_rfl (by rw [hdiv]; exact ha))
      refine ⟨_,nodes₃,?_,hnode,(hadv₁.trans hadv₂).trans hadv₃,?_⟩
      · rw [BuildContext.buildNode,if_neg hsmall]
        simp only [bind,Except.bind,pure,Except.pure]
        rw [hmid,hstart,hl]
        simp only
        rw [hr]
        simp only
        rw [←hstart,hwrite]
      · intro k h1 h2 j hj
        by_cases hk : k = w + 1
        · subst hk
          rw [Nat.sub_self,pow_zero] at hj
          exact hnew j (by simpa using hj)
        · -- a lower node lies in the left or in the right half of its layer
          have hhalf : 2 ^ (w + 1 - k) = 2 ^ (w - k) + 2 ^ (w - k) := by
            rw [show w + 1 - k = w - k + 1 by omega,pow_succ]
            omega
          have hsplit : 2 ^ w = 2 ^ (w - k) * 2 ^ k := by
            rw [←pow_add]
            congr 1
            omega
          have hoff : nodeOffset ctx.logLen ((2 * a + 1) * 2 ^ w) k =
              nodeOffset ctx.logLen (2 * a * 2 ^ w) k + 2 ^ (w - k) := by
            rw [nodeOffset,nodeOffset,hsplit,←Nat.mul_assoc,←Nat.mul_assoc,
              Nat.mul_div_cancel _ (by positivity),Nat.mul_div_cancel _ (by positivity),Nat.add_mul,
              Nat.one_mul]
            omega
          apply hadv₃.keeps
          rw [hstart]
          by_cases hj' : j < 2 ^ (w - k)
          · exact hadv₂.keeps _ (hw₁ k h1 (by omega) j hj')
          · have h := hw₂ k h1 (by omega) (j - 2 ^ (w - k)) (by omega)
            rw [hoff] at h
            rwa [show nodeOffset ctx.logLen (2 * a * 2 ^ w) k + 2 ^ (w - k) + (j - 2 ^ (w - k)) =
              nodeOffset ctx.logLen (2 * a * 2 ^ w) k + j by omega] at h

theorem buildNode_root (hn : Agrees (above ctx) nodes) :
    ∃ digest nodes', ctx.buildNode 0 ctx.logLen nodes = .ok (digest,nodes') ∧
      assumeInit nodes' = .ok (above ctx) := by
  obtain ⟨digest,nodes',hbuild,-,hadv,hwritten⟩ := buildNode_ok hctx (a := 0) le_rfl (by simp) hn
  rw [Nat.zero_mul] at hbuild hwritten
  refine ⟨digest,nodes',hbuild,?_⟩
  have hfull : ∀ p < (above ctx).length, nodes'[p]? = ((above ctx)[p]?).map some := by
    intro p hp
    rw [above_length hctx] at hp
    obtain ⟨k,j,hk,hj,hpos⟩ := exists_layer (m := ctx.logLen) (p := 2 ^ ctx.logLen + p)
      (by rw [pow_succ]; omega)
    have hk0 : 1 ≤ k := by
      by_contra h0
      obtain rfl : k = 0 := by omega
      rw [layerStart,Nat.sub_zero,Nat.sub_self] at hpos
      rw [Nat.sub_zero] at hj
      omega
    have hoff : nodeOffset ctx.logLen 0 k + j = p := by
      rw [layerStart,show ctx.logLen + 1 - k = ctx.logLen - k + 1 by omega,pow_succ] at hpos
      have hle : 2 ^ (ctx.logLen - k + 1) ≤ 2 ^ ctx.logLen :=
        Nat.pow_le_pow_right (by omega) (by omega)
      rw [nodeOffset,Nat.zero_div]
      omega
    obtain ⟨d,hd⟩ := hwritten k hk0 hk j hj
    rw [hoff] at hd
    rw [hd,hadv.agrees.digest p d hd]
    rfl
  have heq : nodes' = (above ctx).map some := by
    apply ext_getElem?
    intro p
    rw [getElem?_map]
    by_cases hp : p < (above ctx).length
    · exact hfull p hp
    · rw [getElem?_eq_none (by rw [hadv.agrees.length]; omega),
        getElem?_eq_none (by omega)]
      rfl
  rw [assumeInit,heq,mapM_map]
  exact (mapM_eq_map fun x _ => rfl).trans (by rw [map_id'' fun _ => rfl])

omit hctx

namespace BinaryMerkleTree

theorem nodesAbove_ok (H : HashSuite n) {digests : List (Digest n)} {m : ℕ}
    (hl : digests.length = 2 ^ m) : nodesAbove H digests m = .ok (above ⟨digests,m,H⟩) := by
  have hlen : (above ⟨digests,m,H⟩).length = 2 ^ m - 1 := above_length hl
  have hcount : 2 ^ (m + 1) - 1 - 2 ^ m = 2 ^ m - 1 := by
    rw [pow_succ]
    omega
  rw [nodesAbove]
  simp only [hcount]
  by_cases h0 : m > 0
  · have hn : Agrees (above ⟨digests,m,H⟩) (replicate (2 ^ m - 1) none) := by
      refine ⟨by rw [length_replicate,hlen],fun p digest h => ?_⟩
      rw [getElem?_replicate] at h
      split at h
      · cases h
      · cases h
    obtain ⟨digest,nodes,hbuilt,hinit⟩ := buildNode_root hl hn
    rw [if_pos h0]
    simp only [bind,Except.bind]
    rw [hbuilt]
    exact hinit
  · obtain rfl : m = 0 := by omega
    have habove : above ⟨digests,0,H⟩ = [] := length_eq_zero_iff.mp (by rw [hlen]; rfl)
    rw [if_neg h0,habove]
    rfl

theorem new_ok (H : HashSuite n) (codec : FixedSizeSerializeBytes T) {elements : List T}
    {batchSize m : ℕ} (hb : batchSize ≠ 0) (hd : elements.length % batchSize = 0)
    (hm : elements.length / batchSize = 2 ^ m)
    (hs : ∀ t ∈ elements, ∃ bytes, codec.serialize t = .ok bytes) :
    ∃ digests, (chunks batchSize elements).mapM (computeLeafDigest H codec) = .ok digests ∧
      digests.length = 2 ^ m ∧
      new H codec elements batchSize = .ok ⟨m,flattened H.compress digests m⟩ := by
  have hleaf : ∀ leaf ∈ chunks batchSize elements, ∃ digest,
      computeLeafDigest H codec leaf = .ok digest := by
    intro leaf hleaf
    rw [chunks,mem_map] at hleaf
    obtain ⟨i,-,rfl⟩ := hleaf
    obtain ⟨bytes,hw⟩ := exists_writeAll fun t ht =>
      hs t (mem_of_mem_drop (mem_of_mem_take ht))
    exact ⟨H.leafHash bytes,by rw [computeLeafDigest,leafBytes,hw]; rfl⟩
  obtain ⟨digests,hdig⟩ := exists_mapM hleaf
  have hcl : (chunks batchSize elements).length = 2 ^ m := by rw [chunks_length,hm]
  have hdl : digests.length = 2 ^ m := by rw [(mapM_getElem hdig).1,hcl]
  have hpow : (2 ^ m).isPowerOfTwo := ⟨m,rfl⟩
  refine ⟨digests,hdig,hdl,?_⟩
  have hsplit : digests ++ above ⟨digests,m,H⟩ = flattened H.compress digests m := by
    rw [above]
    cases m with
    | zero => rw [flattened,drop_of_length_le (by rw [hdl]),append_nil]
    | succ m => rw [flattened,drop_left' hdl]
  rw [new,if_neg (by simp only [hb,hd,ne_eq,not_true,or_self,not_false_iff]),hm,
    if_neg (not_not.mpr hpow),fromLeaves,hcl,if_neg (not_not.mpr hpow),hdig]
  simp only [bind,Except.bind,pure,Except.pure,Nat.log2_two_pow,nodesAbove_ok H hdl,hsplit]

variable {H : HashSuite n} {digests : List (Digest n)} {m : ℕ} (hdl : digests.length = 2 ^ m)
include hdl

theorem root_ok {top : Digest n} (ht : levelAbove H.compress digests m = [top]) :
    root ⟨m,flattened H.compress digests m⟩ = .ok top := by
  have hlast := flattened_getElem? H.compress digests hdl le_rfl
    (show 0 < 2 ^ (m - m) by rw [Nat.sub_self]; exact Nat.one_pos)
  have hflat := flattened_length H.compress digests hdl
  have hstart : layerStart m m + 0 = (flattened H.compress digests m).length - 1 := by
    rw [hflat,layerStart,show m + 1 - m = 1 by omega,pow_one]
    omega
  rw [hstart,ht,getElem?_cons_zero,←getLast?_eq_getElem?] at hlast
  rw [root,hlast]

theorem layer_ok {layerDepth : ℕ} (hd : layerDepth ≤ m) :
    layer ⟨m,flattened H.compress digests m⟩ layerDepth =
      .ok (levelAbove H.compress digests (m - layerDepth)) := by
  have hflat := flattened_length H.compress digests hdl
  have hlen := levelAbove_length H.compress digests hdl (k := m - layerDepth) (by omega)
  have hdepth : m - (m - layerDepth) = layerDepth := by omega
  rw [hdepth] at hlen
  have hle : 2 ^ (layerDepth + 1) ≤ 2 ^ (m + 1) := Nat.pow_le_pow_right (by omega) (by omega)
  have hpos := Nat.one_le_two_pow (n := layerDepth)
  have hpow : 2 ^ (layerDepth + 1) = 2 * 2 ^ layerDepth := by rw [pow_succ,Nat.mul_comm]
  have hstart : 2 ^ (m + 1) - 1 + 1 - 2 ^ (layerDepth + 1) = layerStart m (m - layerDepth) := by
    rw [layerStart,show m + 1 - (m - layerDepth) = layerDepth + 1 by omega]
    omega
  have hfits : layerStart m (m - layerDepth) + 2 ^ layerDepth ≤ 2 ^ (m + 1) - 1 := by
    rw [←hstart]
    omega
  rw [layer,if_neg (show ¬layerDepth > m by omega)]
  simp only [hflat,hstart]
  rw [if_pos hfits]
  congr 1
  apply ext_getElem?
  intro j
  by_cases hj : j < 2 ^ layerDepth
  · rw [getElem?_take_of_lt hj,getElem?_drop,
      flattened_getElem? H.compress digests hdl (by omega) (by rw [hdepth]; exact hj)]
  · rw [getElem?_eq_none (by rw [length_take]; omega),
      getElem?_eq_none (by rw [hlen]; omega)]

theorem branch_ok {index layerDepth : ℕ} (hi : index < 2 ^ m) (hd : layerDepth ≤ m) :
    ∃ siblings, branch ⟨m,flattened H.compress digests m⟩ index layerDepth = .ok siblings ∧
      siblings.length = m - layerDepth ∧ IsBranch H.compress digests index siblings := by
  have hnode (j : ℕ) (hj : j < m - layerDepth) :
      (flattened H.compress digests m)[
          ((2 ^ j - 1) <<< (m + 1 - j)) ||| ((index >>> j) ^^^ 1)]? =
        (levelAbove H.compress digests j)[sibling (index / 2 ^ j)]? ∧
      sibling (index / 2 ^ j) < (levelAbove H.compress digests j).length := by
    have hlow : index / 2 ^ j < 2 ^ (m - j) := by
      rw [Nat.div_lt_iff_lt_mul (by positivity),←pow_add,show m - j + j = m by omega]
      exact hi
    have hsib : sibling (index / 2 ^ j) < 2 ^ (m - j) := by
      rw [show m - j = m - j - 1 + 1 by omega] at hlow ⊢
      exact sibling_lt hlow
    have hsib' : sibling (index / 2 ^ j) < 2 ^ (m + 1 - j) :=
      hsib.trans (Nat.pow_lt_pow_right (by omega) (by omega))
    have hstart : (2 ^ j - 1) <<< (m + 1 - j) = layerStart m j := by
      rw [Nat.shiftLeft_eq,layerStart,Nat.sub_mul,←pow_add,Nat.one_mul,
        show j + (m + 1 - j) = m + 1 by omega]
    have hxor : (index >>> j) ^^^ 1 = sibling (index / 2 ^ j) := by
      rw [Nat.shiftRight_eq_div_pow,sibling]
    refine ⟨?_,by rw [levelAbove_length H.compress digests hdl (by omega)]; exact hsib⟩
    rw [hxor,←Nat.shiftLeft_add_eq_or_of_lt hsib',hstart,
      flattened_getElem? H.compress digests hdl (by omega) hsib]
  have hsome : ∀ j ∈ range (m - layerDepth), ∃ d,
      nodeAt ⟨m,flattened H.compress digests m⟩
        (((2 ^ j - 1) <<< (m + 1 - j)) ||| ((index >>> j) ^^^ 1)) = .ok d := by
    intro j hj
    obtain ⟨he,hlt⟩ := hnode j (mem_range.mp hj)
    exact ⟨_,by rw [nodeAt,he,getElem?_eq_getElem hlt]⟩
  obtain ⟨siblings,hs⟩ := exists_mapM hsome
  obtain ⟨hsl,hse⟩ := mapM_getElem hs
  rw [length_range] at hsl
  refine ⟨siblings,?_,hsl,?_⟩
  · rw [branch,if_neg (show ¬index ≥ 2 ^ m by omega),if_neg (show ¬layerDepth > m by omega)]
    exact hs
  · intro j hj
    obtain ⟨d,hd,he⟩ := hse j (by rw [length_range]; omega)
    obtain ⟨hn,hlt⟩ := hnode j (hsl ▸ hj)
    rw [getElem_range,nodeAt,hn,getElem?_eq_getElem hlt] at hd
    rw [he,getElem?_eq_getElem hlt]
    cases hd
    rfl

end BinaryMerkleTree

theorem tree_opens (H : HashSuite n) (codec : FixedSizeSerializeBytes T) {elements : List T}
    {batchSize m : ℕ} (hb : batchSize ≠ 0) (hd : elements.length % batchSize = 0)
    (hm : elements.length / batchSize = 2 ^ m)
    (hs : ∀ t ∈ elements, ∃ bytes, codec.serialize t = .ok bytes) :
    ∃ tree root, BinaryMerkleTree.new H codec elements batchSize = .ok tree ∧ tree.logLen = m ∧
      tree.root = .ok root ∧ verifyVector H codec root elements batchSize = .ok () ∧
      ∀ layerDepth ≤ m, ∃ layer, tree.layer layerDepth = .ok layer ∧
        verifyLayer H root layerDepth layer = .ok () ∧
        ∀ index < 2 ^ m, ∃ branch bytes, tree.branch index layerDepth = .ok branch ∧
          writeAll (branch.map Digest.serialize) = .ok bytes ∧
          ∀ rest, verifyOpening H codec index ((elements.drop (index * batchSize)).take batchSize)
            layerDepth m layer (bytes ++ rest) = .ok ((),rest) := by
  obtain ⟨digests,hdig,hdl,hnew⟩ := BinaryMerkleTree.new_ok H codec hb hd hm hs
  obtain ⟨root,hroot⟩ := exists_root H.compress digests hdl
  refine ⟨_,root,hnew,rfl,BinaryMerkleTree.root_ok hdl hroot,?_,fun layerDepth hld => ?_⟩
  · exact (verifyVector_ok_iff H codec root elements batchSize).mpr
      ⟨hb,hd,m,digests,hm,hdig,hroot⟩
  have hlen : (levelAbove H.compress digests (m - layerDepth)).length = 2 ^ layerDepth := by
    rw [levelAbove_length H.compress digests hdl (by omega)]
    congr 1
    omega
  refine ⟨_,BinaryMerkleTree.layer_ok hdl hld,?_,fun index hi => ?_⟩
  · refine (verifyLayer_ok_iff H root _ _).mpr ⟨hlen,?_⟩
    rw [←levelAbove_add,show m - layerDepth + layerDepth = m by omega,hroot]
  · obtain ⟨siblings,hbranch,hsl,hb'⟩ := BinaryMerkleTree.branch_ok hdl hi hld
    obtain ⟨bytes,hw⟩ : ∃ bytes, ByteCodec.writeAll (siblings.map Digest.serialize) = .ok bytes :=
      exists_writeAll fun d _ => ⟨d.bytes,rfl⟩
    refine ⟨siblings,bytes,hbranch,hw,fun rest => ?_⟩
    obtain ⟨-,hde⟩ := mapM_getElem hdig
    have hchunk := chunks_getElem? batchSize elements (hm ▸ hi)
    obtain ⟨hlt,hget⟩ := List.getElem?_eq_some_iff.mp hchunk
    obtain ⟨digest,hdigest,hentry⟩ := hde index hlt
    rw [hget] at hdigest
    obtain ⟨leaf,hleaf,rfl⟩ := computeLeafDigest_ok hdigest
    have hclimb := (climb_branch H.compress hentry hb').1
    rw [hsl] at hclimb
    have hread := readMany_writeAll Digest.roundTrip hw rest
    rw [hsl] at hread
    exact (verifyOpening_ok_iff H codec index _ layerDepth m _ _ rest).mpr
      ⟨hlen,hld,hi,leaf,siblings,hleaf,hread,hclimb⟩

/-- A one-byte suite adding everything up. -/
def sumSuite : HashSuite 1 where
  leafHash bytes := ⟨[bytes.foldl (· + ·) 0],rfl⟩
  compress pair := ⟨[pair.1.bytes.headD 0 + pair.2.bytes.headD 0],rfl⟩

def byteCodec : FixedSizeSerializeBytes UInt8 where
  byteSize := 1
  serialize t := .ok [t]
  deserialize input :=
    match input with
    | [] => .error .transcript
    | b :: rest => .ok (b,rest)
  sized t bytes h := by cases h; rfl
  roundTrip t bytes h rest := by cases h; rfl

/-- Two accepted values of one leaf are equal or exhibit a collision of one of the hashes, an
accepted vector and an accepted opening too, and every committed vector opens at every index. -/
theorem merkle_binds_and_opens (H : HashSuite n) (codec : FixedSizeSerializeBytes T) :
    (∀ (root : Digest n) (index treeDepth : ℕ) (o o' : Opening n T),
      o.Accepted H codec root index treeDepth → o'.Accepted H codec root index treeDepth →
      o.values.length = o'.values.length → o.values ≠ o'.values →
      HashCollision H (o.inputs H codec index treeDepth) (o'.inputs H codec index treeDepth)) ∧
    (∀ (root : Digest n) (index treeDepth leafSize : ℕ) (data : List T) (o : Opening n T),
      verifyVector H codec root data leafSize = .ok () → data.length = leafSize * 2 ^ treeDepth →
      o.Accepted H codec root index treeDepth → o.values.length = leafSize →
      (data.drop (index * leafSize)).take leafSize ≠ o.values →
      HashCollision H (vectorInputs H codec data leafSize) (o.inputs H codec index treeDepth)) ∧
    (∀ (elements : List T) (batchSize m : ℕ), batchSize ≠ 0 → elements.length % batchSize = 0 →
      elements.length / batchSize = 2 ^ m →
      (∀ t ∈ elements, ∃ bytes, codec.serialize t = .ok bytes) →
      ∃ tree root, BinaryMerkleTree.new H codec elements batchSize = .ok tree ∧ tree.logLen = m ∧
        tree.root = .ok root ∧ verifyVector H codec root elements batchSize = .ok () ∧
        ∀ layerDepth ≤ m, ∃ layer, tree.layer layerDepth = .ok layer ∧
          verifyLayer H root layerDepth layer = .ok () ∧
          ∀ index < 2 ^ m, ∃ branch bytes, tree.branch index layerDepth = .ok branch ∧
            writeAll (branch.map Digest.serialize) = .ok bytes ∧
            ∀ rest, verifyOpening H codec index ((elements.drop (index * batchSize)).take batchSize)
              layerDepth m layer (bytes ++ rest) = .ok ((),rest)) := by
  refine ⟨?_,?_,fun elements batchSize m hb hd hm hs => tree_opens H codec hb hd hm hs⟩
  · intro root index treeDepth o o' ho ho' hl hne
    obtain ⟨-,bytes,hb,hopen⟩ := ho.opensAt
    obtain ⟨-,bytes',hb',hopen'⟩ := ho'.opensAt
    apply hopen.collision hopen'
    rintro rfl
    exact hne (leafBytes_inj hb hb' hl)
  · intro root index treeDepth leafSize data o hv hl ho hol hne
    obtain ⟨hi,bytes,hb,hopen⟩ := ho.opensAt
    obtain ⟨bytes',hb',hopen'⟩ := verifyVector_opensAt hv hl hi
    apply hopen'.collision hopen
    rintro rfl
    refine hne (leafBytes_inj hb' hb ?_)
    have hsucc : (index + 1) * leafSize ≤ 2 ^ treeDepth * leafSize := Nat.mul_le_mul_right _ hi
    rw [length_take,length_drop,hol,hl]
    rw [Nat.add_mul,Nat.one_mul,Nat.mul_comm (2 ^ treeDepth)] at hsucc
    omega

/-- Under the adding suite the leaf holding one and two opens to its own values and to their swap,
which exhibits a collision, against another opening and against the whole vector. -/
theorem merkle_binds_and_opens_sum :
    HashCollision sumSuite
        ((⟨[1,2],0,[⟨[10],rfl⟩],[7]⟩ : Opening 1 UInt8).inputs sumSuite byteCodec 0 1)
        ((⟨[2,1],1,[⟨[3],rfl⟩,⟨[7],rfl⟩],[]⟩ : Opening 1 UInt8).inputs sumSuite byteCodec 0 1) ∧
      HashCollision sumSuite (vectorInputs sumSuite byteCodec [1,2,3,4] 2)
        ((⟨[2,1],0,[⟨[10],rfl⟩],[7]⟩ : Opening 1 UInt8).inputs sumSuite byteCodec 0 1) ∧
      ∃ tree root, BinaryMerkleTree.new sumSuite byteCodec [1,2,3,4] 2 = .ok tree ∧
        tree.logLen = 1 ∧ tree.root = .ok root ∧
        verifyVector sumSuite byteCodec root [1,2,3,4] 2 = .ok () := by
  obtain ⟨hopenings,hvector,htree⟩ := merkle_binds_and_opens sumSuite byteCodec
  refine ⟨hopenings ⟨[10],rfl⟩ 0 1 _ _ ⟨by decide,[],rfl⟩ ⟨by decide,[],rfl⟩ rfl (by decide),
    hvector ⟨[10],rfl⟩ 0 1 2 _ _ (by decide) rfl ⟨by decide,[],rfl⟩ rfl (by decide),?_⟩
  obtain ⟨tree,root,hnew,hlen,hroot,hv,-⟩ :=
    htree [1,2,3,4] 2 1 (by decide) rfl rfl (fun t _ => ⟨[t],rfl⟩)
  exact ⟨tree,root,hnew,hlen,hroot,hv⟩

end Binius64.MerkleProver
