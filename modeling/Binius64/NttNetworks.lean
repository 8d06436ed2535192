import Binius64.NttBlocks

/-!
# Breadth first and depth first

The breadth-first layers of a block, across packed elements and then inside pairs of them, and the
depth-first recursion, which takes one layer of a block and goes on with its halves.
-/

namespace Binius64.Ntt

open Footprints ButterflyNetwork List

variable {F : Type} [Field F] {τ : ℕ → F} {s w : ℕ}

theorem block_parts (q d b : ℕ) :
    {i | ∃ k ∈ range (2 ^ d), i ∈ block q (b * 2 ^ d + k)} = block (q + d) b := by
  ext i
  rw [block,Set.mem_ofPred_eq,Set.mem_ofPred_eq,div_pow_add]
  constructor
  · intro h
    obtain ⟨k,hk,hi⟩ := h
    have hi' : i / 2 ^ q = b * 2 ^ d + k := hi
    rw [mem_range] at hk
    rw [hi',mul_comm,Nat.mul_add_div (Nat.two_pow_pos d),Nat.div_eq_of_lt hk,add_zero]
  · intro h
    refine ⟨i / 2 ^ q % 2 ^ d,mem_range.mpr (Nat.mod_lt _ (Nat.two_pow_pos d)),?_⟩
    rw [block,Set.mem_ofPred_eq,←h]
    exact (Nat.div_add_mod' _ _).symm

omit [Field F] in
theorem parts_computes {op : ℕ → Memory F → Memory F} {G : Memory F → Memory F} {q d b : ℕ}
    (hop : ∀ k < 2 ^ d, Computes (op k) G (block q (b * 2 ^ d + k)))
    (hc : ∀ c, Closed G (block q c)) :
    Computes (fun data => (range (2 ^ d)).foldl (fun data k => op k data) data) G
      (block (q + d) b) := by
  have hloop := Computes.foldl (F := op) (G := G) (fun k => block q (b * 2 ^ d + k))
    (fun k hk => hop k (mem_range.mp hk)) (fun k _ => hc _)
    (pairwise_lt_range.imp fun hlt => block_disjoint (by omega))
  rw [block_parts] at hloop
  exact hloop

theorem blockSlice_chunks {q d b : ℕ} (h : w ≤ q) :
    (blockSlice w (q + d) b).chunksExact (2 ^ (q - w)) =
      (range (2 ^ d)).map fun k => blockSlice w q (b * 2 ^ d + k) := by
  have hpow : 2 ^ (q + d - w) = 2 ^ d * 2 ^ (q - w) := by
    rw [←pow_add]
    congr 1
    omega
  have hcount : 2 ^ (q + d - w) / 2 ^ (q - w) = 2 ^ d := by
    rw [hpow,Nat.mul_div_cancel _ (Nat.two_pow_pos _)]
  rw [Slice.chunksExact,blockSlice,hcount]
  refine map_congr_left fun k _ => ?_
  rw [blockSlice,hpow,add_mul,mul_assoc]

theorem foldl_peel {α β γ : Type} (f : ℕ → β) (g : ℕ → γ) (first : β → α → α) (each : α → β × γ → α)
    (ks : List ℕ) (x : α) :
    (((ks.map Nat.succ).map f).zip ((ks.map Nat.succ).map g)).foldl each (first (f 0) x) =
      (0 :: ks.map Nat.succ).foldl
        (fun y k => if k = 0 then first (f k) y else each y (f k,g k)) x := by
  rw [foldl_cons,if_pos rfl,map_map,map_map,zip_map',foldl_map,
    foldl_map]
  simp only [Function.comp_apply,Nat.succ_ne_zero,if_false]

variable (domainContext : DomainContext F) {baseLayer : ℕ}

theorem forwardAcross_computes {m block layer : ℕ}
    (hlow : baseLayer ≤ layer) (hhigh : layer < m + baseLayer - w)
    (hdomain : layer < domainContext.logDomainSize) (hblock : block < 2 ^ baseLayer) :
    Computes (forwardAcross domainContext w (blockSlice w m block) (m + baseLayer) baseLayer block layer)
      (butterfly (domainContext.twiddle layer) (m + baseLayer - 1 - layer))
      (ButterflyNetwork.block m block) := by
  obtain ⟨d,rfl⟩ := Nat.exists_eq_add_of_le hlow
  obtain ⟨q,hq⟩ : ∃ q, m = q + 1 + d := ⟨m - d - 1,by omega⟩
  subst hq
  have hw : w ≤ q := by omega
  have hsize : q + 1 + d + baseLayer - w - (baseLayer + d) = q + 1 - w := by omega
  have hhalf : q + 1 - w - 1 = q - w := by omega
  have hbit : q + 1 + d + baseLayer - 1 - (baseLayer + d) = q := by omega
  have hblocks : baseLayer + d - baseLayer = d := by omega
  have hfit : block * 2 ^ d + 2 ^ d ≤ 2 ^ (baseLayer + d) := by
    rw [pow_add,←Nat.succ_mul]
    exact Nat.mul_le_mul_right _ hblock
  have htwiddles : ((domainContext.iterTwiddles (baseLayer + d) 0).drop (block * 2 ^ d)).take (2 ^ d) =
      (range (2 ^ d)).map fun k => domainContext.twiddle (baseLayer + d) (block * 2 ^ d + k) := by
    rw [domainContext.iterTwiddles_drop_take hdomain (Nat.zero_le _) hfit]
    rfl
  let each := fun (data : Memory F) (entry : Slice × F) =>
    butterflyZip w (.broadcast entry.2) (entry.1.splitAt (2 ^ (q - w))).1
      (entry.1.splitAt (2 ^ (q - w))).2 data
  let first := fun (slice : Slice) (data : Memory F) =>
    addZip w (slice.splitAt (2 ^ (q - w))).1 (slice.splitAt (2 ^ (q - w))).2 data
  let part := fun k => blockSlice w (q + 1) (block * 2 ^ d + k)
  let twiddle := fun k => domainContext.twiddle (baseLayer + d) (block * 2 ^ d + k)
  have hlayer : ∀ k, Computes (fun data => each data (part k,twiddle k))
        (butterfly (domainContext.twiddle (baseLayer + d)) q)
        (ButterflyNetwork.block (q + 1) (block * 2 ^ d + k)) ∧
      (twiddle k = 0 → Computes (first (part k)) (butterfly (domainContext.twiddle (baseLayer + d)) q)
        (ButterflyNetwork.block (q + 1) (block * 2 ^ d + k))) := by
    intro k
    have hsplit := blockSlice_splitAt (b := block * 2 ^ d + k) hw
    rw [Nat.shiftLeft_eq,one_mul] at hsplit
    simp only [each,first,part,twiddle,hsplit]
    exact blockLayer_computes hw
  have hall : forwardAcross domainContext w (blockSlice w (q + 1 + d) block)
      (q + 1 + d + baseLayer) baseLayer block (baseLayer + d) = fun data =>
        (range (2 ^ d)).foldl (fun data k =>
          if block = 0 ∧ k = 0 then first (part k) data else each data (part k,twiddle k)) data := by
    funext data
    rw [forwardAcross,hsize,hhalf,hblocks]
    simp only [Nat.shiftLeft_eq,one_mul,blockSlice_chunks (hw.trans (Nat.le_succ q)),htwiddles]
    by_cases hzero : block = 0
    · have hcond : ∀ k, (block = 0 ∧ k = 0) ↔ k = 0 := fun k => and_iff_right hzero
      rw [if_pos hzero]
      obtain ⟨n,hn⟩ := Nat.exists_eq_succ_of_ne_zero (Nat.two_pow_pos d).ne'
      have hrange : range (2 ^ d) = 0 :: (range n).map Nat.succ := by
        rw [hn,range_succ_eq_map]
      simp only [hcond]
      rw [hrange]
      exact foldl_peel part twiddle first each (range n) data
    · rw [if_neg hzero,zip_map',foldl_map]
      simp only [hzero,false_and,if_false]
      rfl
  rw [hall,hbit]
  refine parts_computes (fun k hk => ?_) fun c => closed_block (Nat.lt_succ_self q)
  by_cases hfirst : block = 0 ∧ k = 0
  · simp only [hfirst,and_self,if_true]
    obtain ⟨rfl,rfl⟩ := hfirst
    have hzero : twiddle 0 = 0 := by
      have hnone := domainContext.twiddle_zero hdomain
      simp only [twiddle,zero_mul,add_zero]
      exact hnone
    exact (hlayer 0).2 hzero
  · simp only [hfirst,if_false]
    exact (hlayer k).1

theorem laneBlock_lt (hs : s < w) {j : ℕ} (hj : j < 2 ^ w) : laneBlock w s j < 2 ^ (w - s) := by
  have hpow : 2 ^ w = 2 ^ (w - s - 1) * 2 ^ (s + 1) := by
    rw [←pow_add]
    congr 1
    omega
  have hdouble : 2 ^ (w - s) = 2 ^ (w - s - 1) + 2 ^ (w - s - 1) := by
    rw [←mul_two,←pow_succ,Nat.sub_add_cancel (Nat.sub_pos_of_lt hs)]
  have hlt : j / 2 ^ (s + 1) < 2 ^ (w - s - 1) := by
    rw [Nat.div_lt_iff_lt_mul (Nat.two_pow_pos _),←hpow]
    exact hj
  rw [laneBlock,hdouble]
  generalize j / 2 ^ (s + 1) = q at hlt
  split
  · exact hlt.trans_le (Nat.le_add_right _ _)
  · exact Nat.add_lt_add_left hlt _

theorem forwardWithin_computes {m block layer : ℕ}
    (hw : w < m) (hlow : m + baseLayer - w ≤ layer) (hhigh : layer < m + baseLayer)
    (hdomain : layer < domainContext.logDomainSize) (hblock : block < 2 ^ baseLayer) :
    Computes (forwardWithin domainContext w (blockSlice w m block) m (m + baseLayer) block layer)
      (butterfly (domainContext.twiddle layer) (m + baseLayer - 1 - layer))
      (ButterflyNetwork.block m block) := by
  obtain ⟨d,hd⟩ : ∃ d, m = w + 1 + d := ⟨m - w - 1,by omega⟩
  subst hd
  obtain ⟨s,hs⟩ : ∃ s, w + 1 + d + baseLayer = layer + 1 + s :=
    ⟨w + 1 + d + baseLayer - layer - 1,by omega⟩
  have hsw : s < w := by omega
  have hlayer : layer = d + baseLayer + (w - s) := by omega
  have hbit : w + 1 + d + baseLayer - 1 - layer = s := by omega
  have hsize : w + 1 + d + baseLayer - layer = s + 1 := by omega
  have hhalf : w - (s + 1) + 1 = w - s := by omega
  have hpairs : w + 1 + d - w - 1 = d := by omega
  have hstep : layer - (w - s) = d + baseLayer := by omega
  have hoffset : ∀ j, packedTwiddleOffset domainContext w (w + 1 + d + baseLayer) layer j =
      domainContext.twiddle layer (laneBlock w s j.val) := by
    intro j
    have hone : w + 1 + d + baseLayer - layer - 1 = s := by omega
    have hlane := packedTwiddleOffset_apply domainContext hhigh (by omega) j
    rw [hone] at hlane
    exact hlane
  have hfit : block * 2 ^ d + 2 ^ d ≤ 2 ^ (d + baseLayer) := by
    rw [add_comm d,pow_add,←Nat.succ_mul]
    exact Nat.mul_le_mul_right _ hblock
  have htwiddles : ((domainContext.iterTwiddles layer (w - s)).drop (block * 2 ^ d)).take (2 ^ d) =
      (range (2 ^ d)).map fun k =>
        domainContext.twiddle layer ((block * 2 ^ d + k) <<< (w - s)) := by
    refine domainContext.iterTwiddles_drop_take hdomain (by omega) ?_
    rw [hstep]
    exact hfit
  have htwo : 2 ^ (w + 1 - w) = 2 := by rw [Nat.add_sub_cancel_left,pow_one]
  have hchunks : (blockSlice w (w + 1 + d) block).chunksExact 2 =
      (range (2 ^ d)).map fun k => blockSlice w (w + 1) (block * 2 ^ d + k) := by
    have hparts := blockSlice_chunks (d := d) (b := block) (Nat.le_succ w)
    rw [Nat.succ_eq_add_one,htwo] at hparts
    exact hparts
  let op := fun (k : ℕ) (data : Memory F) =>
    butterflyWithin w s (.broadcast (domainContext.twiddle layer ((block * 2 ^ d + k) <<< (w - s))) +
      packedTwiddleOffset domainContext w (w + 1 + d + baseLayer) layer)
      (2 * (block * 2 ^ d + k)) (2 * (block * 2 ^ d + k) + 1) data
  have hall : forwardWithin domainContext w (blockSlice w (w + 1 + d) block) (w + 1 + d)
      (w + 1 + d + baseLayer) block layer = fun data =>
        (range (2 ^ d)).foldl (fun data k => op k data) data := by
    funext data
    have hstart : ∀ k, (blockSlice w (w + 1) k).start = 2 * k := by
      intro k
      rw [blockSlice,htwo,mul_comm]
    rw [forwardWithin,hsize]
    simp only [hhalf,hpairs,hchunks,Nat.shiftLeft_eq block,Nat.shiftLeft_eq 1,one_mul,htwiddles]
    rw [zip_map',foldl_map]
    simp only [hstart]
    rfl
  rw [hall,hbit]
  refine parts_computes (fun k hk => ?_) fun c => closed_block (by omega)
  refine butterflyWithin_computes hsw fun j => ?_
  have hlane := laneBlock_lt hsw j.isLt
  have hlt : (block * 2 ^ d + k) * 2 ^ (w - s) + laneBlock w s j.val < 2 ^ layer := by
    have hnext : block * 2 ^ d + k + 1 ≤ 2 ^ (d + baseLayer) := by omega
    have hmul := Nat.mul_le_mul_right (2 ^ (w - s)) hnext
    rw [←pow_add,←hlayer,add_mul,one_mul] at hmul
    omega
  rw [Pi.add_apply,hoffset,PackedField.broadcast,Nat.shiftLeft_eq]
  exact (domainContext.twiddle_add hdomain hlane hlt).symm

theorem forwardBreadthFirst_performs (block : ℕ)
    {m first last : ℕ} (hw : w < m) (hdomain : last ≤ domainContext.logDomainSize)
    (hbase : baseLayer ≤ first) (hlast : last ≤ m + baseLayer) (hrange : first ≤ last)
    (hblock : block < 2 ^ baseLayer) :
    Performs (forwardBreadthFirst domainContext w (blockSlice w m block) m baseLayer block first last)
      (layers domainContext.twiddle (m + baseLayer) first last) (ButterflyNetwork.block m block) := by
  have hlen : (blockSlice w m block).len = 1 <<< (m - w) := by
    rw [Nat.shiftLeft_eq,one_mul]
    rfl
  have hrun : ∀ data, forwardBreadthFirst domainContext w (blockSlice w m block) m baseLayer block
      first last data = .ok (
        let packedCutoff := max first (min (m + baseLayer - w) last)
        (range' packedCutoff (last - packedCutoff)).foldl (fun data layer =>
          forwardWithin domainContext w (blockSlice w m block) m (m + baseLayer) block layer data)
          ((range' first (packedCutoff - first)).foldl (fun data layer =>
            forwardAcross domainContext w (blockSlice w m block) (m + baseLayer) baseLayer block layer
              data) data)) := by
    intro data
    simp only [forwardBreadthFirst,require_true hw,require_true hlen,require_true hdomain,
      require_true hbase,require_true hlast,require_true hrange]
    rfl
  refine ⟨_,hrun,?_⟩
  generalize hcut : max first (min (m + baseLayer - w) last) = cutoff
  have hfirst : first ≤ cutoff := by omega
  have hend : cutoff ≤ last := by omega
  have hacross : Computes (fun data => (range' first (cutoff - first)).foldl (fun data layer =>
      forwardAcross domainContext w (blockSlice w m block) (m + baseLayer) baseLayer block layer data)
      data) (layers domainContext.twiddle (m + baseLayer) first cutoff)
      (ButterflyNetwork.block m block) := by
    refine Computes.foldl_comp (fun layer hl => ?_) fun layer hl => ?_
    · rw [mem_range'_1] at hl
      exact forwardAcross_computes domainContext (by omega) (by omega) (by omega) hblock
    · rw [mem_range'_1] at hl
      exact closed_block (by omega)
  have hwithin : Computes (fun data => (range' cutoff (last - cutoff)).foldl (fun data layer =>
      forwardWithin domainContext w (blockSlice w m block) m (m + baseLayer) block layer data) data)
      (layers domainContext.twiddle (m + baseLayer) cutoff last) (ButterflyNetwork.block m block) := by
    refine Computes.foldl_comp (fun layer hl => ?_) fun layer hl => ?_
    · rw [mem_range'_1] at hl
      exact forwardWithin_computes domainContext hw (by omega) (by omega) (by omega) hblock
    · rw [mem_range'_1] at hl
      exact closed_block (by omega)
  have hclosed : Closed (layers domainContext.twiddle (m + baseLayer) cutoff last)
      (ButterflyNetwork.block m block) := closed_layers (by omega) hlast
  refine (hacross.comp hwithin hclosed).congr fun data i _ => ?_
  exact congrFun (layers_append domainContext.twiddle hfirst hend data) i

section Programs

omit [Field F]

variable {prog : Memory F → Except AssertFailure (Memory F)} {G : Memory F → Memory F} {R : Set ℕ}

theorem Performs.comp {prog' : Memory F → Except AssertFailure (Memory F)}
    {H : Memory F → Memory F} (h : Performs prog G R) (h' : Performs prog' H R)
    (hc : Closed H R) : Performs (fun data => prog data >>= prog') (fun x => H (G x)) R := by
  obtain ⟨f,hrun,hf⟩ := h
  obtain ⟨g,hrun',hg⟩ := h'
  refine ⟨fun data => g (f data),fun data => ?_,hf.comp hg hc⟩
  simp only [hrun]
  exact hrun' (f data)

theorem Performs.union {prog' : Memory F → Except AssertFailure (Memory F)}
    {S : Set ℕ} (h : Performs prog G R) (h' : Performs prog' G S)
    (hd : Disjoint R S) (hc : Closed G S) :
    Performs (fun data => prog data >>= prog') G (R ∪ S) := by
  obtain ⟨f,hrun,hf⟩ := h
  obtain ⟨g,hrun',hg⟩ := h'
  refine ⟨fun data => g (f data),fun data => ?_,hf.union hg hd hc⟩
  simp only [hrun]
  exact hrun' (f data)

theorem Performs.congr {H : Memory F → Memory F}
    (h : Performs prog G R) (hG : ∀ x, ∀ i ∈ R, G x i = H x i) : Performs prog H R := by
  obtain ⟨f,hrun,hf⟩ := h
  exact ⟨f,hrun,hf.congr hG⟩

theorem Performs.of_computes {f : Memory F → Memory F}
    (h : Computes f G R) : Performs (fun data => .ok (f data)) G R := ⟨f,fun _ => rfl,h⟩

theorem Performs.of_eq {prog' : Memory F → Except AssertFailure (Memory F)}
    (h : Performs prog G R)
    (heq : ∀ data, prog' data = prog data) : Performs prog' G R := by
  obtain ⟨f,hrun,hf⟩ := h
  exact ⟨f,fun data => (heq data).trans (hrun data),hf⟩

end Programs

theorem Performs.idle {t : ℕ → ℕ → F} {n first last : ℕ} {R : Set ℕ} (h : last ≤ first) :
    Performs (fun data => .ok data) (layers t n first last) R :=
  ⟨fun data => data,fun _ => rfl,fun x i => ⟨fun _ => by rw [layers_empty t h],fun _ => rfl⟩⟩

theorem forwardBlockLayer_performs (block : ℕ) {m layer first last : ℕ}
    (hw : w ≤ m) (hdomain : last ≤ domainContext.logDomainSize) (hlayer : layer < last)
    (hfirst : layer ≤ first) :
    Computes (forwardBlockLayer domainContext w
        (blockSlice w m (2 * block),blockSlice w m (2 * block + 1)) layer block first)
      (layers domainContext.twiddle (m + 1 + layer) first (if first ≤ layer then first + 1 else first))
      (ButterflyNetwork.block (m + 1) block) := by
  by_cases hon : first ≤ layer
  · have hsame : first = layer := le_antisymm hon hfirst
    have hbit : m + 1 + layer - 1 - layer = m := by omega
    have hone : ∀ x, butterfly (domainContext.twiddle layer) m x =
        layers domainContext.twiddle (m + 1 + layer) layer (layer + 1) x := by
      intro x
      rw [layers_succ _ (Nat.lt_succ_self layer),layers_empty _ (le_refl _),hbit]
    have hstep := blockLayer_computes (τ := domainContext.twiddle layer) (b := block) hw
    rw [if_pos hon,hsame]
    refine Computes.congr ?_ fun x i _ => congrFun (hone x) i
    by_cases hzero : block = 0
    · have htw : domainContext.twiddle layer block = 0 := by
        rw [hzero]
        exact domainContext.twiddle_zero (by omega)
      have hadd : forwardBlockLayer domainContext w
          (blockSlice w m (2 * block),blockSlice w m (2 * block + 1)) layer block layer =
            addZip w (blockSlice w m (2 * block)) (blockSlice w m (2 * block + 1)) := by
        funext data
        rw [forwardBlockLayer,if_pos (le_refl layer),if_pos hzero]
      rw [hadd]
      exact hstep.2 htw
    · have hmul : forwardBlockLayer domainContext w
          (blockSlice w m (2 * block),blockSlice w m (2 * block + 1)) layer block layer =
            butterflyZip w (.broadcast (domainContext.twiddle layer block)) (blockSlice w m (2 * block))
              (blockSlice w m (2 * block + 1)) := by
        funext data
        rw [forwardBlockLayer,if_pos (le_refl layer),if_neg hzero]
      rw [hmul]
      exact hstep.1
  · rw [if_neg hon]
    have hskip : forwardBlockLayer domainContext w
        (blockSlice w m (2 * block),blockSlice w m (2 * block + 1)) layer block first =
          fun data => data := by
      funext data
      rw [forwardBlockLayer,if_neg hon]
    rw [hskip]
    exact fun x i => ⟨fun _ => by rw [layers_empty _ (le_refl first)],fun _ => rfl⟩

theorem forwardDepthFirst_performs {logBaseLen last : ℕ}
    (hbase : w < logBaseLen) (hdomain : last ≤ domainContext.logDomainSize) :
    ∀ m layer block first : ℕ, w < m → layer ≤ first → last ≤ m + layer → block < 2 ^ layer →
      (first ≤ last ∨ last ≤ layer) →
      Performs (forwardDepthFirst domainContext w logBaseLen last m (blockSlice w m block) layer block
        first) (layers domainContext.twiddle (m + layer) first last) (ButterflyNetwork.block m block) := by
  intro m
  induction m with
  | zero => exact fun _ _ _ hw => absurd hw (Nat.not_lt_zero w)
  | succ m ih =>
    intro layer block first hw hfirst hlast hblock hrange
    have hlen : (blockSlice w (m + 1) block).len = 1 <<< (m + 1 - w) := by
      rw [Nat.shiftLeft_eq,one_mul]
      rfl
    by_cases hdone : last ≤ layer
    · refine Performs.of_eq (Performs.idle (hdone.trans hfirst)) fun data => ?_
      rw [forwardDepthFirst,require_true hw,require_true hlen,require_true hdomain,require_true hfirst,
        require_true hbase,require_true hlast,if_pos hdone]
      rfl
    · have hlt : layer < last := not_le.mp hdone
      have hle : first ≤ last := hrange.resolve_right hdone
      by_cases hsmall : m + 1 ≤ logBaseLen
      · refine Performs.of_eq (forwardBreadthFirst_performs domainContext block hw hdomain hfirst hlast hle
          hblock) fun data => ?_
        rw [forwardDepthFirst,require_true hw,require_true hlen,require_true hdomain,
          require_true hfirst,require_true hbase,require_true hlast,if_neg hdone,if_pos hsmall]
        rfl
      · have hwm : w < m := by omega
        generalize hnext : (if first ≤ layer then first + 1 else first) = next
        have hstart : layer + 1 ≤ next := by
          split at hnext <;> omega
        have hnextFirst : first ≤ next := by
          split at hnext <;> omega
        have hnextLast : next ≤ last := by
          split at hnext <;> omega
        have hsum : m + 1 + layer = m + (layer + 1) := by omega
        have hpow : 2 ^ (layer + 1) = 2 * 2 ^ layer := pow_succ' 2 layer
        have hhead := forwardBlockLayer_performs domainContext block hwm.le hdomain hlt hfirst
        rw [hnext] at hhead
        have hlower := ih (layer + 1) (2 * block) next hwm hstart (by omega) (by omega) (Or.inl hnextLast)
        have hupper := ih (layer + 1) (2 * block + 1) next hwm hstart (by omega) (by omega) (Or.inl hnextLast)
        rw [←hsum] at hlower hupper
        have hhalves := hlower.union hupper (block_disjoint (by omega))
          (closed_layers (by omega) hlast)
        rw [←block_succ] at hhalves
        have hall := (Performs.of_computes hhead).comp hhalves (closed_layers (by omega) hlast)
        refine Performs.of_eq (hall.congr fun x i _ => ?_) fun data => ?_
        · exact congrFun (layers_append domainContext.twiddle hnextFirst hnextLast x) i
        · have hsplit := blockSlice_splitAt (b := block) hwm.le
          have hshift : block <<< 1 = 2 * block := by rw [Nat.shiftLeft_eq,pow_one,mul_comm]
          rw [forwardDepthFirst,require_true hw,require_true hlen,require_true hdomain,
            require_true hfirst,require_true hbase,require_true hlast,if_neg hdone,if_neg hsmall,
            Nat.add_sub_cancel,hsplit,hshift,hnext]
          rfl

end Binius64.Ntt
