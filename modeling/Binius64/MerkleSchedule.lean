import Binius64.ForkJoin
import Binius64.MerkleProver

/-!
# The prover's tree built in parallel

The same build as tasks over the cells of the one flat buffer.
-/

namespace Binius64.MerkleSchedule

open HashTree MerkleTree ForkJoin List
open MerkleProver (nodeOffset subtreeLogDepth BinaryMerkleTree)

variable {n : ℕ}

/-- Read two neighbours, compress them and write their parent. -/
def compressPair (H : HashSuite n) (input output : ℕ) : Task (Digest n) Unit :=
  .read input fun left => .read (input + 1) fun right =>
    .write output (H.compress (left,right)) (.done ())

/-- Compress every two neighbours of a run of cells into another run, all at once. -/
def parallelCompress (H : HashSuite n) (input length output width : ℕ) : Task (Digest n) Unit :=
  if length = 2 * width then
    .forkAll ((range width).map fun i => compressPair H (input + 2 * i) (output + i))
  else .abort

/-- The cell of the node spanning so many leaves from a position, the leaves standing first. -/
def nodeSlot (logLen leavesStart logWidth : ℕ) : ℕ :=
  2 ^ logLen + nodeOffset logLen leavesStart logWidth

/-- Fold so many more levels of a small subtree, from the level standing in a run of cells. -/
def foldLevels (H : HashSuite n) (logLen leavesStart logWidth : ℕ) :
    ℕ → ℕ → ℕ → ℕ → Task (Digest n) ℕ
  | 0, _, cur, _ => .done cur
  | levels + 1, depth, cur, length =>
    let width := 2 ^ (logWidth - depth)
    let out := nodeSlot logLen leavesStart depth
    (parallelCompress H cur length out width).andThen fun _ =>
      foldLevels H logLen leavesStart logWidth levels (depth + 1) out width

def foldSmallSubtree (H : HashSuite n) (logLen leavesStart logWidth : ℕ) :
    Task (Digest n) (Digest n) :=
  if leavesStart + 2 ^ logWidth ≤ 2 ^ logLen then
    (foldLevels H logLen leavesStart logWidth logWidth 1 leavesStart (2 ^ logWidth)).andThen
      fun cur => .read cur fun root => .done root
  else .abort

/-- Build every node above a run of leaves, the larger runs as two halves at once. -/
def buildNode (H : HashSuite n) (logLen leavesStart : ℕ) : ℕ → Task (Digest n) (Digest n)
  | 0 => foldSmallSubtree H logLen leavesStart 0
  | half + 1 =>
    if half + 1 ≤ subtreeLogDepth then foldSmallSubtree H logLen leavesStart (half + 1)
    else
      let mid := leavesStart + 2 ^ half
      .join (buildNode H logLen leavesStart half) (buildNode H logLen mid half) fun left right =>
        let node := H.compress (left,right)
        .write (nodeSlot logLen leavesStart (half + 1)) node (.done node)

/-- Write all leaf digests at once, then build the tree above them. -/
def fromLeaves (H : HashSuite n) (digests : List (Digest n)) : Task (Digest n) ℕ :=
  if ¬digests.length.isPowerOfTwo then .abort
  else
    let logLen := Nat.log2 digests.length
    (Task.forkAll (digests.zipIdx.map fun leaf => .write leaf.2 leaf.1 (.done ()))).andThen fun _ =>
      if logLen > 0 then (buildNode H logLen 0 logLen).andThen fun _ => .done logLen
      else .done logLen

/-- The cells of one level of a subtree, the subtrees of its height counted from the left. -/
def band (m a w k : ℕ) : Set ℕ := {p | ∃ j < 2 ^ (w - k), p = layerStart m k + (a * 2 ^ (w - k) + j)}

/-- The cells of a subtree from one level up. -/
def bands (m a w low : ℕ) : Set ℕ := {p | ∃ k, low ≤ k ∧ k ≤ w ∧ p ∈ band m a w k}

theorem layerStart_zero (m : ℕ) : layerStart m 0 = 0 := by rw [layerStart,Nat.sub_zero,Nat.sub_self]

theorem layerStart_mono {m k k' : ℕ} (h : k ≤ k') : layerStart m k ≤ layerStart m k' := by
  have hle : 2 ^ (m + 1 - k') ≤ 2 ^ (m + 1 - k) := Nat.pow_le_pow_right (by omega) (by omega)
  rw [layerStart,layerStart]
  omega

theorem band_fits {m a w k : ℕ} (hw : w ≤ m) (ha : a < 2 ^ (m - w)) (hk : k ≤ w) :
    a * 2 ^ (w - k) + 2 ^ (w - k) ≤ 2 ^ (m - k) := by
  have hsplit : 2 ^ (m - k) = 2 ^ (m - w) * 2 ^ (w - k) := by
    rw [←pow_add]
    congr 1
    omega
  have hsucc : (a + 1) * 2 ^ (w - k) ≤ 2 ^ (m - w) * 2 ^ (w - k) := Nat.mul_le_mul_right _ ha
  rw [hsplit]
  linarith

theorem band_layer {m a w k p : ℕ} (hw : w ≤ m) (ha : a < 2 ^ (m - w)) (hk : k ≤ w)
    (hp : p ∈ band m a w k) : layerStart m k ≤ p ∧ p < layerStart m (k + 1) := by
  obtain ⟨j,hj,rfl⟩ := hp
  have hfits := band_fits hw ha hk
  rw [layerStart_succ (by omega)]
  omega

theorem band_level {m a a' w w' k k' p : ℕ} (hw : w ≤ m) (ha : a < 2 ^ (m - w)) (hk : k ≤ w)
    (hw' : w' ≤ m) (ha' : a' < 2 ^ (m - w')) (hk' : k' ≤ w') (hp : p ∈ band m a w k)
    (hp' : p ∈ band m a' w' k') : k = k' := by
  obtain ⟨hlow,hhigh⟩ := band_layer hw ha hk hp
  obtain ⟨hlow',hhigh'⟩ := band_layer hw' ha' hk' hp'
  rcases Nat.lt_trichotomy k k' with h | h | h
  · have := layerStart_mono (m := m) (show k + 1 ≤ k' by omega)
    omega
  · exact h
  · have := layerStart_mono (m := m) (show k' + 1 ≤ k by omega)
    omega

theorem nodeSlot_eq {m a w k : ℕ} (hw : w ≤ m) (hk : 1 ≤ k) (hkw : k ≤ w) :
    nodeSlot m (a * 2 ^ w) k = layerStart m k + a * 2 ^ (w - k) := by
  have hle : 2 ^ (m - k + 1) ≤ 2 ^ m := Nat.pow_le_pow_right (by omega) (by omega)
  have hsplit : 2 ^ w = 2 ^ (w - k) * 2 ^ k := by
    rw [←pow_add]
    congr 1
    omega
  have hdiv : a * 2 ^ w / 2 ^ k = a * 2 ^ (w - k) := by
    rw [hsplit,←Nat.mul_assoc,Nat.mul_div_cancel _ (by positivity)]
  rw [nodeSlot,nodeOffset,hdiv,layerStart,show m + 1 - k = m - k + 1 by omega,pow_succ 2 m]
  omega

theorem bands_succ {m a w low : ℕ} (h : low ≤ w) :
    band m a w low ∪ bands m a w (low + 1) = bands m a w low := by
  ext p
  constructor
  · rintro (hp | ⟨k,hk,hkw,hp⟩)
    · exact ⟨low,le_rfl,h,hp⟩
    · exact ⟨k,by omega,hkw,hp⟩
  · rintro ⟨k,hk,hkw,hp⟩
    rcases Nat.eq_or_lt_of_le hk with rfl | hlt
    · exact .inl hp
    · exact .inr ⟨k,hlt,hkw,hp⟩

theorem band_halves {m a w k : ℕ} (hk : k ≤ w) :
    band m a (w + 1) k = band m (2 * a) w k ∪ band m (2 * a + 1) w k := by
  have hpow : 2 ^ (w + 1 - k) = 2 * 2 ^ (w - k) := by
    rw [show w + 1 - k = w - k + 1 by omega,pow_succ,Nat.mul_comm]
  have hstart : a * 2 ^ (w + 1 - k) = 2 * a * 2 ^ (w - k) := by
    rw [hpow,←Nat.mul_assoc,Nat.mul_comm a 2]
  have hmid : (2 * a + 1) * 2 ^ (w - k) = 2 * a * 2 ^ (w - k) + 2 ^ (w - k) := Nat.succ_mul _ _
  ext p
  constructor
  · rintro ⟨j,hj,rfl⟩
    rw [hpow] at hj
    rw [hstart]
    by_cases hlow : j < 2 ^ (w - k)
    · exact .inl ⟨j,hlow,rfl⟩
    · exact .inr ⟨j - 2 ^ (w - k),by omega,by omega⟩
  · rintro (⟨j,hj,rfl⟩ | ⟨j,hj,rfl⟩)
    · exact ⟨j,by omega,by omega⟩
    · exact ⟨2 ^ (w - k) + j,by omega,by omega⟩

theorem bands_halves (m a w : ℕ) :
    bands m (2 * a) w 1 ∪ bands m (2 * a + 1) w 1 ∪ {layerStart m (w + 1) + a} =
      bands m a (w + 1) 1 := by
  have htop : band m a (w + 1) (w + 1) = {layerStart m (w + 1) + a} := by
    ext p
    simp only [band,Nat.sub_self,pow_zero,Nat.mul_one,Nat.lt_one_iff,exists_eq_left,Nat.add_zero,
      Set.mem_ofPred_eq,Set.mem_singleton_iff]
  ext p
  constructor
  · rintro ((⟨k,hk,hkw,hp⟩ | ⟨k,hk,hkw,hp⟩) | hp)
    · exact ⟨k,hk,by omega,band_halves hkw ▸ .inl hp⟩
    · exact ⟨k,hk,by omega,band_halves hkw ▸ .inr hp⟩
    · exact ⟨w + 1,by omega,le_rfl,htop ▸ hp⟩
  · rintro ⟨k,hk,hkw,hp⟩
    rcases Nat.eq_or_lt_of_le hkw with rfl | hlt
    · exact .inr (htop ▸ hp)
    · rw [band_halves (by omega)] at hp
      rcases hp with hp | hp
      · exact .inl (.inl ⟨k,hk,by omega,hp⟩)
      · exact .inl (.inr ⟨k,hk,by omega,hp⟩)

/-- The flat buffer's content: the layers folded one after another. -/
def content (H : HashSuite n) (digests : List (Digest n)) (m : ℕ) : Memory (Digest n) :=
  fun p => (flattened H.compress digests m)[p]?

section Building

variable {H : HashSuite n} {digests : List (Digest n)} {m : ℕ} (hl : digests.length = 2 ^ m)
include hl

theorem content_some {k i : ℕ} (hk : k ≤ m) (hi : i < 2 ^ (m - k)) :
    ∃ digest, content H digests m (layerStart m k + i) = some digest := by
  have hlen := levelAbove_length H.compress digests hl hk
  have hin : i < (levelAbove H.compress digests k).length := by rw [hlen]; exact hi
  exact ⟨_,(flattened_getElem? H.compress digests hl hk hi).trans (getElem?_eq_getElem hin)⟩

theorem content_parent {k i : ℕ} (hk : k + 1 ≤ m) (hi : i < 2 ^ (m - (k + 1))) {left right : Digest n}
    (hleft : content H digests m (layerStart m k + 2 * i) = some left)
    (hright : content H digests m (layerStart m k + 2 * i + 1) = some right) :
    content H digests m (layerStart m (k + 1) + i) = some (H.compress (left,right)) := by
  have hpow : 2 ^ (m - k) = 2 * 2 ^ (m - (k + 1)) := by
    rw [show m - k = m - (k + 1) + 1 by omega,pow_succ,Nat.mul_comm]
  have hl' := (flattened_getElem? H.compress digests hl (by omega)
    (show 2 * i < 2 ^ (m - k) by omega)).symm.trans hleft
  have hr' := (flattened_getElem? H.compress digests hl (by omega)
    (show 2 * i + 1 < 2 ^ (m - k) by omega)).symm.trans hright
  rw [content,flattened_getElem? H.compress digests hl hk hi,levelAbove_succ]
  exact parents_getElem? H.compress _ i hl' hr'

theorem builds_parallelCompress {a w k : ℕ} (hw : w ≤ m) (ha : a < 2 ^ (m - w)) (hk : k + 1 ≤ w)
    {R : Set ℕ} (hR : band m a w k ⊆ R) (hd : Disjoint R (band m a w (k + 1))) :
    Builds (content H digests m) R (band m a w (k + 1)) (2 ^ (w - (k + 1)) * 4)
      (parallelCompress H (layerStart m k + a * 2 ^ (w - k)) (2 ^ (w - k))
        (layerStart m (k + 1) + a * 2 ^ (w - (k + 1))) (2 ^ (w - (k + 1)))) () := by
  have hpow : 2 ^ (w - k) = 2 * 2 ^ (w - (k + 1)) := by
    rw [show w - k = w - (k + 1) + 1 by omega,pow_succ,Nat.mul_comm]
  have hstart : a * 2 ^ (w - k) = 2 * (a * 2 ^ (w - (k + 1))) := by rw [hpow,Nat.mul_left_comm]
  have hfits := band_fits hw ha hk
  have hfits' := band_fits hw ha (show k ≤ w by omega)
  have hcells : {p | p ∈ (range (2 ^ (w - (k + 1)))).map
      fun i => layerStart m (k + 1) + a * 2 ^ (w - (k + 1)) + i} = band m a w (k + 1) := by
    ext p
    simp only [band,Set.mem_ofPred_eq,mem_map,mem_range,Nat.add_assoc,eq_comm (a := p)]
  have hnodup : ((range (2 ^ (w - (k + 1)))).map
      fun i => layerStart m (k + 1) + a * 2 ^ (w - (k + 1)) + i).Nodup :=
    nodup_range.map fun i j he => Nat.add_left_cancel he
  have hpairs : ∀ i ∈ range (2 ^ (w - (k + 1))),
      Builds (content H digests m) R {layerStart m (k + 1) + a * 2 ^ (w - (k + 1)) + i} 3
        (compressPair H (layerStart m k + a * 2 ^ (w - k) + 2 * i)
          (layerStart m (k + 1) + a * 2 ^ (w - (k + 1)) + i)) () := by
    intro i hi
    rw [mem_range] at hi
    have hinput : layerStart m k + a * 2 ^ (w - k) + 2 * i =
        layerStart m k + 2 * (a * 2 ^ (w - (k + 1)) + i) := by omega
    obtain ⟨left,hleft⟩ := content_some (H := H) hl (k := k) (by omega)
      (show 2 * (a * 2 ^ (w - (k + 1)) + i) < 2 ^ (m - k) by omega)
    obtain ⟨right,hright⟩ := content_some (H := H) hl (k := k) (by omega)
      (show 2 * (a * 2 ^ (w - (k + 1)) + i) + 1 < 2 ^ (m - k) by omega)
    have hparent := content_parent (H := H) hl (by omega)
      (show a * 2 ^ (w - (k + 1)) + i < 2 ^ (m - (k + 1)) by omega) hleft hright
    have hread (j : ℕ) (hj : j < 2) : layerStart m k + a * 2 ^ (w - k) + 2 * i + j ∈ R :=
      hR ⟨2 * i + j,by omega,by omega⟩
    have hslot : layerStart m (k + 1) + a * 2 ^ (w - (k + 1)) + i ∉ R := fun hmem =>
      Set.disjoint_left.mp hd hmem ⟨i,hi,Nat.add_assoc _ _ _⟩
    rw [compressPair,←insert_empty_eq]
    rw [←Nat.add_assoc,←hinput] at hright
    rw [←Nat.add_assoc] at hparent
    exact .read (hread 0 (by omega)) (hinput ▸ hleft) (.read (hread 1 (by omega)) hright
      (.write hslot hparent .done))
  have hall := Builds.forkAll hnodup hpairs
  rw [hcells,length_range] at hall
  rw [parallelCompress,if_pos hpow]
  exact hall

theorem builds_foldLevels {a w : ℕ} (hw : w ≤ m) (ha : a < 2 ^ (m - w)) {levels k : ℕ}
    (hk : k + levels = w) {R : Set ℕ} (hR : band m a w k ⊆ R)
    (hd : Disjoint R (bands m a w (k + 1))) :
    ∃ count, Builds (content H digests m) R (bands m a w (k + 1)) count
      (foldLevels H m (a * 2 ^ w) w levels (k + 1) (layerStart m k + a * 2 ^ (w - k)) (2 ^ (w - k)))
      (layerStart m w + a) := by
  induction levels generalizing k R with
  | zero =>
    obtain rfl : k = w := by omega
    have hnone : bands m a k (k + 1) = ∅ := by
      ext p
      simp only [Set.mem_empty_iff_false,iff_false]
      rintro ⟨i,hi,hiw,-⟩
      omega
    refine ⟨0,?_⟩
    rw [hnone,foldLevels,Nat.sub_self,pow_zero,Nat.mul_one]
    exact .done
  | succ levels ih =>
    have hsplit := bands_succ (m := m) (a := a) (show k + 1 ≤ w by omega)
    rw [←hsplit,Set.disjoint_union_right] at hd
    have hlevel := builds_parallelCompress (H := H) hl hw ha (by omega) hR hd.1
    have hd' : Disjoint (R ∪ band m a w (k + 1)) (bands m a w (k + 1 + 1)) := by
      rw [Set.disjoint_union_left]
      refine ⟨hd.2,Set.disjoint_left.mpr ?_⟩
      rintro p hp ⟨i,hi,hiw,hp'⟩
      have := band_level hw ha (by omega) hw ha hiw hp hp'
      omega
    obtain ⟨count,hrest⟩ := ih (by omega) Set.subset_union_right hd'
    rw [foldLevels,←hsplit,nodeSlot_eq hw (by omega) (by omega)]
    exact ⟨_,hlevel.andThen hrest⟩

theorem builds_foldSmallSubtree {a w : ℕ} (hw : w ≤ m) (ha : a < 2 ^ (m - w)) {root : Digest n}
    (hroot : content H digests m (layerStart m w + a) = some root) {R : Set ℕ}
    (hR : band m a w 0 ⊆ R) (hd : Disjoint R (bands m a w 1)) :
    ∃ count, Builds (content H digests m) R (bands m a w 1) count
      (foldSmallSubtree H m (a * 2 ^ w) w) root := by
  have hfits := band_fits hw ha (Nat.zero_le w)
  obtain ⟨count,hlevels⟩ := builds_foldLevels (H := H) hl hw ha (Nat.zero_add w) hR hd
  have hlast : layerStart m w + a ∈ R ∪ bands m a w 1 := by
    have htop : layerStart m w + a ∈ band m a w w :=
      ⟨0,by positivity,by rw [Nat.sub_self,pow_zero,Nat.mul_one]; rfl⟩
    rcases Nat.eq_zero_or_pos w with rfl | hpos
    · exact .inl (hR htop)
    · exact .inr ⟨w,hpos,le_rfl,htop⟩
  rw [Nat.sub_zero,layerStart_zero,Nat.zero_add,Nat.zero_add] at hlevels
  rw [Nat.sub_zero,Nat.sub_zero] at hfits
  rw [foldSmallSubtree,if_pos hfits,←Set.union_empty (bands m a w 1)]
  exact ⟨_,hlevels.andThen (.read hlast hroot .done)⟩

/-- The cells of the leaves. -/
def leafSlots (m : ℕ) : Set ℕ := {p | p < 2 ^ m}

omit hl in
theorem band_leaves {a w : ℕ} (hw : w ≤ m) (ha : a < 2 ^ (m - w)) : band m a w 0 ⊆ leafSlots m := by
  rintro p ⟨j,hj,rfl⟩
  have hfits := band_fits hw ha (Nat.zero_le w)
  rw [layerStart_zero]
  simp only [Nat.sub_zero] at hfits hj ⊢
  show _ < 2 ^ m
  omega

omit hl in
theorem bands_above {a w : ℕ} (hw : w ≤ m) (ha : a < 2 ^ (m - w)) :
    Disjoint (leafSlots m) (bands m a w 1) := by
  rw [Set.disjoint_left]
  rintro p hp ⟨k,hk,hkw,hp'⟩
  have hlow := (band_layer hw ha hkw hp').1
  have hstart := layerStart_mono (m := m) hk
  have hone := layerStart_succ (m := m) (Nat.zero_le m)
  rw [layerStart_zero,Nat.sub_zero,Nat.zero_add,Nat.zero_add] at hone
  have hleaf : p < 2 ^ m := hp
  omega

theorem builds_buildNode {a w : ℕ} (hw : w ≤ m) (ha : a < 2 ^ (m - w)) {root : Digest n}
    (hroot : content H digests m (layerStart m w + a) = some root) :
    ∃ count, Builds (content H digests m) (leafSlots m) (bands m a w 1) count
      (buildNode H m (a * 2 ^ w) w) root := by
  induction w generalizing a root with
  | zero =>
    rw [buildNode]
    exact builds_foldSmallSubtree hl hw ha hroot (band_leaves hw ha) (bands_above hw ha)
  | succ half ih =>
    rw [buildNode]
    by_cases hsmall : half + 1 ≤ subtreeLogDepth
    · rw [if_pos hsmall]
      exact builds_foldSmallSubtree hl hw ha hroot (band_leaves hw ha) (bands_above hw ha)
    rw [if_neg hsmall]
    have hpow : 2 ^ (m - half) = 2 * 2 ^ (m - (half + 1)) := by
      rw [show m - half = m - (half + 1) + 1 by omega,pow_succ,Nat.mul_comm]
    obtain ⟨left,hleft⟩ := content_some (H := H) hl (k := half) (by omega)
      (show 2 * a < 2 ^ (m - half) by omega)
    obtain ⟨right,hright⟩ := content_some (H := H) hl (k := half) (by omega)
      (show 2 * a + 1 < 2 ^ (m - half) by omega)
    have hparent := content_parent (H := H) hl hw ha hleft hright
    have hnode : H.compress (left,right) = root := Option.some.inj (hparent.symm.trans hroot)
    obtain ⟨countl,hbl⟩ := ih (by omega) (by omega) hleft
    obtain ⟨countr,hbr⟩ := ih (by omega) (by omega) hright
    have hstart : 2 * a * 2 ^ half = a * 2 ^ (half + 1) := by
      rw [pow_succ,Nat.mul_comm 2 a,Nat.mul_assoc,Nat.mul_comm 2]
    have hmid : (2 * a + 1) * 2 ^ half = a * 2 ^ (half + 1) + 2 ^ half := by
      rw [Nat.succ_mul,hstart]
    rw [hstart] at hbl
    rw [hmid] at hbr
    have hapart : Disjoint (bands m (2 * a) half 1) (bands m (2 * a + 1) half 1) := by
      rw [Set.disjoint_left]
      rintro p ⟨k,hk,hkw,hp⟩ ⟨k',hk',hkw',hp'⟩
      obtain rfl := band_level (by omega) (by omega) hkw (by omega) (by omega) hkw' hp hp'
      obtain ⟨j,hj,rfl⟩ := hp
      obtain ⟨j',hj',he⟩ := hp'
      have hsucc : (2 * a + 1) * 2 ^ (half - k) = 2 * a * 2 ^ (half - k) + 2 ^ (half - k) :=
        Nat.succ_mul _ _
      omega
    have hslot : layerStart m (half + 1) + a ∉
        leafSlots m ∪ bands m (2 * a) half 1 ∪ bands m (2 * a + 1) half 1 := by
      have htop : layerStart m (half + 1) + a ∈ band m a (half + 1) (half + 1) :=
        ⟨0,by positivity,by rw [Nat.sub_self,pow_zero,Nat.mul_one]; rfl⟩
      rintro ((hp | ⟨k,hk,hkw,hp⟩) | ⟨k,hk,hkw,hp⟩)
      · exact Set.disjoint_left.mp (bands_above hw ha) hp ⟨_,by omega,le_rfl,htop⟩
      · have := band_level hw ha le_rfl (by omega) (by omega) hkw htop hp
        omega
      · have := band_level hw ha le_rfl (by omega) (by omega) hkw htop hp
        omega
    have hwhere : nodeSlot m (a * 2 ^ (half + 1)) (half + 1) = layerStart m (half + 1) + a := by
      rw [nodeSlot_eq hw (by omega) le_rfl,Nat.sub_self,pow_zero,Nat.mul_one]
    have hlast : Builds (content H digests m)
        (leafSlots m ∪ bands m (2 * a) half 1 ∪ bands m (2 * a + 1) half 1)
        {layerStart m (half + 1) + a} 1 (.write (layerStart m (half + 1) + a) root (.done root)) root := by
      rw [←insert_empty_eq]
      exact .write hslot hroot .done
    rw [hwhere,←bands_halves]
    exact ⟨_,.join hbl hbr (by rw [hnode]; exact hlast) hapart⟩

theorem builds_leaves :
    Builds (content H digests m) ∅ (leafSlots m) (2 ^ m * 2)
      (Task.forkAll (digests.zipIdx.map fun leaf => .write leaf.2 leaf.1 (.done ()))) () := by
  have hslots : digests.zipIdx.map Prod.snd = range (2 ^ m) := by
    rw [zipIdx_map_snd,range_eq_range',hl]
  have hwrite : ∀ leaf ∈ digests.zipIdx, Builds (content H digests m) ∅ {leaf.2} 1
      (.write leaf.2 leaf.1 (.done ())) () := by
    rintro ⟨digest,i⟩ hleaf
    rw [mem_zipIdx_iff_getElem?] at hleaf
    have hi : i < 2 ^ m := hl ▸ (List.getElem?_eq_some_iff.mp hleaf).1
    have hc := flattened_getElem? H.compress digests hl (Nat.zero_le m) (show i < 2 ^ (m - 0) from hi)
    rw [layerStart_zero,Nat.zero_add] at hc
    rw [←insert_empty_eq]
    exact .write (Set.notMem_empty _) (hc.trans hleaf) .done
  have hcells : {p | p ∈ digests.zipIdx.map Prod.snd} = leafSlots m := by
    ext p
    rw [hslots]
    exact mem_range
  have hall := Builds.forkAll (hslots ▸ nodup_range) hwrite
  rw [hcells,length_zipIdx,hl] at hall
  exact hall

theorem builds_fromLeaves :
    ∃ count, Builds (content H digests m) ∅ {p | p < 2 ^ (m + 1) - 1} count
      (fromLeaves H digests) m := by
  have hcells : leafSlots m ∪ bands m 0 m 1 = {p | p < 2 ^ (m + 1) - 1} := by
    ext p
    have hfirst := layerStart_succ (m := m) (Nat.zero_le m)
    rw [layerStart_zero,Nat.sub_zero,Nat.zero_add,Nat.zero_add] at hfirst
    constructor
    · rintro (hp | ⟨k,hk,hkm,j,hj,rfl⟩)
      · have hp : p < 2 ^ m := hp
        have hpow := pow_succ 2 m
        show p < 2 ^ (m + 1) - 1
        omega
      · have hlast := layerStart_mono (m := m) (show k + 1 ≤ m + 1 by omega)
        have hend : layerStart m (m + 1) = 2 ^ (m + 1) - 1 := by rw [layerStart,Nat.sub_self,pow_zero]
        rw [layerStart_succ hkm] at hlast
        show _ < 2 ^ (m + 1) - 1
        omega
    · intro hp
      obtain ⟨k,j,hk,hj,rfl⟩ := exists_layer (m := m) hp
      rcases Nat.eq_zero_or_pos k with rfl | hpos
      · rw [layerStart_zero]
        exact .inl (show _ < 2 ^ m by rw [Nat.zero_add]; exact hj)
      · exact .inr ⟨k,hpos,hk,j,hj,by rw [Nat.zero_mul,Nat.zero_add]⟩
  have hpow : digests.length.isPowerOfTwo := ⟨m,hl⟩
  have hlog : Nat.log2 digests.length = m := by rw [hl,Nat.log2_two_pow]
  have hleaves := builds_leaves (H := H) hl
  rw [fromLeaves,if_neg (not_not.mpr hpow)]
  simp only [hlog]
  rw [←hcells]
  rcases Nat.eq_zero_or_pos m with rfl | hpos
  · have hnone : bands 0 0 0 1 = ∅ := by
      ext p
      simp only [Set.mem_empty_iff_false,iff_false]
      rintro ⟨k,hk,hkw,-⟩
      omega
    rw [hnone]
    exact ⟨_,hleaves.andThen .done⟩
  · obtain ⟨root,hroot⟩ := content_some (H := H) hl (le_refl m) (Nat.two_pow_pos _)
    obtain ⟨count,hbuilt⟩ := builds_buildNode hl (le_refl m) (Nat.two_pow_pos _) hroot
    rw [Nat.zero_mul] at hbuilt
    rw [←Set.empty_union (leafSlots m)] at hbuilt
    simp only [if_pos hpos]
    rw [←Set.union_empty (bands m 0 m 1)]
    exact ⟨_,hleaves.andThen (hbuilt.andThen .done)⟩

end Building

/-- However its tasks interleave, the build writes every cell of the buffer once, with the digest
its layer holds when the leaves are folded pair by pair, reads a cell only after that, and never
stops early; the layers and branches then read off the buffer are those of the folded layers. -/
theorem parallel_build_exact (H : HashSuite n) (digests : List (Digest n)) (m : ℕ)
    (hl : digests.length = 2 ^ m) :
    (∃ count, ∀ (memory memory' : Memory (Digest n)) (log : List (Event (Digest n)))
        (task' : Task (Digest n) ℕ), Run (fromLeaves H digests) memory log task' memory' →
      ((writes log).map Prod.fst).Nodup ∧
      (∀ slot digest, (slot,digest) ∈ writes log → ∃ k j, k ≤ m ∧ j < 2 ^ (m - k) ∧
        slot = layerStart m k + j ∧ (levelAbove H.compress digests k)[j]? = some digest) ∧
      (∀ front slot digest back, log = front ++ .read slot digest :: back →
        (slot,digest) ∈ writes front) ∧
      (∀ slot, slot ∉ (writes log).map Prod.fst → memory' slot = memory slot) ∧
      log.length ≤ count ∧
      ((∃ logLen, task' = .done logLen) ∨ ∃ event task'' memory'',
        Step task' memory' event task'' memory'') ∧
      ∀ logLen, task' = .done logLen → logLen = m ∧ log.length = count ∧
        (∀ slot, slot ∈ (writes log).map Prod.fst ↔ slot < 2 ^ (m + 1) - 1) ∧
        ∀ slot < 2 ^ (m + 1) - 1, memory' slot = (flattened H.compress digests m)[slot]?) ∧
    (∀ layerDepth, BinaryMerkleTree.layer ⟨m,flattened H.compress digests m⟩ layerDepth =
      if layerDepth ≤ m then .ok (levelAbove H.compress digests (m - layerDepth))
      else .error (.incorrectLayerDepth layerDepth m)) ∧
    ∀ index layerDepth,
      if index ≥ 2 ^ m then
        BinaryMerkleTree.branch ⟨m,flattened H.compress digests m⟩ index layerDepth =
          .error (.indexOutOfRange index m)
      else if layerDepth > m then
        BinaryMerkleTree.branch ⟨m,flattened H.compress digests m⟩ index layerDepth =
          .error (.incorrectLayerDepth layerDepth m)
      else ∃ siblings,
        BinaryMerkleTree.branch ⟨m,flattened H.compress digests m⟩ index layerDepth = .ok siblings ∧
        siblings.length = m - layerDepth ∧ ∀ j < m - layerDepth,
          siblings[j]? = (levelAbove H.compress digests j)[sibling (index / 2 ^ j)]? := by
  refine ⟨?_,fun layerDepth => ?_,fun index layerDepth => ?_⟩
  · obtain ⟨count,hbuilds⟩ := builds_fromLeaves (H := H) hl
    refine ⟨count,fun memory memory' log task' hrun => ?_⟩
    have hstanding := hbuilds.run (fun slot hslot => absurd hslot (Set.notMem_empty slot)) hrun
    obtain ⟨left,hcount,hrest⟩ := hstanding.rest
    have hthere : ∀ slot ∈ (∅ ∪ {slot | slot ∈ (writes log).map Prod.fst} : Set ℕ),
        memory' slot = content H digests m slot := by
      rintro slot (hslot | hslot)
      · exact absurd hslot (Set.notMem_empty slot)
      · exact (hstanding.cells slot).trans (if_pos hslot)
    refine ⟨hstanding.kept.once,fun slot digest hw => ?_,fun front slot digest back he => ?_,
      fun slot hslot => ?_,by omega,?_,?_⟩
    · obtain ⟨hslot,hc⟩ := hstanding.kept.own slot digest hw
      obtain ⟨k,j,hk,hj,rfl⟩ := exists_layer hslot
      refine ⟨k,j,hk,hj,rfl,?_⟩
      rw [←flattened_getElem? H.compress digests hl hk hj]
      exact hc
    · exact (hstanding.kept.after front slot digest back he).2.resolve_left (Set.notMem_empty slot)
    · rw [hstanding.cells,if_neg hslot]
    · exact (hrest.progress memory' hthere).imp (fun h => ⟨m,h.1⟩) id
    · rintro logLen rfl
      obtain ⟨hlen,hsteps,hcells⟩ := hstanding.finished
      refine ⟨hlen,hsteps,hcells,fun slot hslot => ?_⟩
      rw [hstanding.cells,if_pos ((hcells slot).mpr hslot)]
      rfl
  · by_cases hd : layerDepth ≤ m
    · rw [if_pos hd]
      exact MerkleProver.BinaryMerkleTree.layer_ok hl hd
    · rw [if_neg hd,BinaryMerkleTree.layer,if_pos (Nat.lt_of_not_ge hd)]
  · by_cases hi : index ≥ 2 ^ m
    · rw [if_pos hi,BinaryMerkleTree.branch,if_pos hi]
    rw [if_neg hi]
    by_cases hd : layerDepth > m
    · rw [if_pos hd,BinaryMerkleTree.branch,if_neg hi,if_pos hd]
    rw [if_neg hd]
    obtain ⟨siblings,hbranch,hlen,hbranches⟩ :=
      MerkleProver.BinaryMerkleTree.branch_ok hl (Nat.lt_of_not_ge hi) (Nat.le_of_not_gt hd)
    exact ⟨siblings,hbranch,hlen,fun j hj => hbranches j (hlen ▸ hj)⟩

/-- Two leaves under the adding suite: the layers read off are the leaves and their sum. -/
theorem parallel_build_exact_pair :
    BinaryMerkleTree.layer ⟨1,flattened MerkleProver.sumSuite.compress [⟨[1],rfl⟩,⟨[2],rfl⟩] 1⟩ 0 =
      .ok [⟨[3],rfl⟩] := by
  have h := (parallel_build_exact MerkleProver.sumSuite [⟨[1],rfl⟩,⟨[2],rfl⟩] 1 rfl).2.1 0
  rw [if_pos (Nat.zero_le 1)] at h
  exact h

end Binius64.MerkleSchedule
