import Binius64.MergeProver
import Mathlib.Data.List.TakeWhile

/-!
# Combined buffers

The combined buffer of a round reads as the buffers of the round one after another, from the
largest, and zeros.
-/

namespace Binius64.OracleChannel.MergeProverChannel

open Ntt BlockLayout List

variable {w : ℕ} {F : Type} [Field F]

theorem placeBlock_run {dst src : FieldBuffer w F} {blockIndex : ℕ}
    (hfits : blockIndex * 2 ^ src.logLen + 2 ^ src.logLen ≤ 2 ^ dst.logLen) :
    ∃ r, placeBlock dst src blockIndex = some r ∧ r.logLen = dst.logLen ∧ ∀ x,
      r.scalar x = if blockIndex * 2 ^ src.logLen ≤ x ∧ x < blockIndex * 2 ^ src.logLen + 2 ^ src.logLen
        then src.scalar (x - blockIndex * 2 ^ src.logLen) else dst.scalar x := by
  have hguard : blockIndex <<< src.logLen + 1 <<< src.logLen ≤ dst.len := by
    rw [FieldBuffer.len,Nat.shiftLeft_eq,Nat.shiftLeft_eq,Nat.shiftLeft_eq,one_mul,one_mul]
    exact hfits
  have hloop : ∀ m ≤ 2 ^ src.logLen, ∃ r, (range m).foldlM (fun (dst : FieldBuffer w F) i => do
        let value ← src.get i
        dst.set (blockIndex <<< src.logLen + i) value) dst = some r ∧ r.logLen = dst.logLen ∧ ∀ x,
      r.scalar x = if blockIndex * 2 ^ src.logLen ≤ x ∧ x < blockIndex * 2 ^ src.logLen + m
        then src.scalar (x - blockIndex * 2 ^ src.logLen) else dst.scalar x := by
    intro m
    induction m with
    | zero => exact fun _ => ⟨dst,rfl,rfl,fun x => (if_neg (by omega)).symm⟩
    | succ m ih =>
      intro hm
      obtain ⟨r,hr,hlen,hscalar⟩ := ih (Nat.le_of_succ_le hm)
      have hlt : blockIndex <<< src.logLen + m < 2 ^ r.logLen := by
        rw [hlen,Nat.shiftLeft_eq]
        omega
      obtain ⟨r',hset,hlen',hscalar'⟩ := r.set_of_lt hlt (src.scalar m)
      refine ⟨r',?_,hlen'.trans hlen,fun x => ?_⟩
      · rw [range_succ,foldlM_append,hr]
        simp only [foldlM_cons,foldlM_nil,src.get_of_lt hm,hset,bind,Option.bind,pure]
      · rw [hscalar',hscalar,Nat.shiftLeft_eq]
        by_cases hx : x = blockIndex * 2 ^ src.logLen + m
        · rw [if_pos hx,if_pos (by omega),hx,Nat.add_sub_cancel_left]
        · rw [if_neg hx]
          exact if_congr (by omega) rfl rfl
  obtain ⟨r,hr,hlen,hscalar⟩ := hloop (2 ^ src.logLen) le_rfl
  refine ⟨r,?_,hlen,hscalar⟩
  rw [placeBlock,guard,if_pos hguard,Nat.shiftLeft_eq 1,one_mul]
  exact hr

theorem blockIndices_getElem? {size : ℕ → ℕ} {order : List ℕ} (hnodup : order.Nodup) (offset : ℕ)
    (indices : List ℕ) (k : ℕ) : (blockIndices size order offset indices)[k]? =
      if k ∈ order then indices[k]?.map fun _ => (offset + start size order k) >>> size k
      else indices[k]? := by
  induction order generalizing offset indices with
  | nil => rfl
  | cons j order ih =>
    obtain ⟨hj,hrest⟩ := nodup_cons.mp hnodup
    rw [blockIndices,ih hrest,getElem?_set]
    by_cases hjk : j = k
    · rw [if_neg (hjk ▸ hj),if_pos (mem_cons.mpr (Or.inl hjk.symm)),hjk,start_cons_self]
      by_cases hlt : k < indices.length
      · simp [hlt]
      · simp [hlt]
    · have hmem : k ∈ order ↔ k ∈ j :: order := by
        rw [mem_cons]
        exact ⟨Or.inr,fun h => h.resolve_left fun h => hjk h.symm⟩
      rw [if_congr hmem rfl rfl,start_cons_of_ne size hjk,Nat.shiftLeft_eq,one_mul,add_assoc]
      simp [hjk]

def scalarsAt (pending : List (FieldBuffer w F)) (k : ℕ) : List F :=
  (pending[k]?.map FieldBuffer.scalars).getD []

section Combine

variable (pending : List (FieldBuffer w F))

omit [Field F] in
theorem order_eq : order pending = largestFirst (sizeAt pending) (range pending.length) := rfl

omit [Field F] in
theorem order_nodup : (order pending).Nodup :=
  (largestFirst_perm _ _).nodup_iff.mpr nodup_range

variable {k : ℕ}

omit [Field F] in
theorem mem_order : k ∈ order pending ↔ k < pending.length :=
  (mem_largestFirst _).trans mem_range

omit [Field F] in
theorem combinedLogLen_eq : combinedLogLen pending = logCover (sizeAt pending) (order pending) := by
  rw [combinedLogLen,logCover,total]
  exact congrArg (fun ns => Nat.clog 2 (sum ns))
    (map_congr_left fun k _ => by rw [Nat.shiftLeft_eq,one_mul])

def blocks : List ℕ := blockIndices (sizeAt pending) (order pending) 0 (replicate pending.length 0)

def blockOf (k : ℕ) : ℕ := start (sizeAt pending) (order pending) k >>> sizeAt pending k

omit [Field F] in
theorem blocks_getElem? (hk : k < pending.length) : (blocks pending)[k]? = some (blockOf pending k) := by
  rw [blocks,blockIndices_getElem? (order_nodup pending),if_pos ((mem_order pending).mpr hk),
    getElem?_replicate,if_pos hk,zero_add]
  rfl

omit [Field F] in
theorem blockOf_mul (hk : k < pending.length) :
    blockOf pending k * 2 ^ sizeAt pending k = start (sizeAt pending) (order pending) k := by
  rw [blockOf,Nat.shiftRight_eq_div_pow]
  exact Nat.div_mul_cancel (dvd_start _ (largestFirst_sorted _ _) ((mem_order pending).mpr hk))

omit [Field F] in
theorem blockOf_fits (hk : k < pending.length) :
    blockOf pending k * 2 ^ sizeAt pending k + 2 ^ sizeAt pending k ≤ 2 ^ combinedLogLen pending := by
  rw [blockOf_mul pending hk,combinedLogLen_eq]
  exact (start_add_le_total _ ((mem_order pending).mpr hk)).trans (total_le_cover _ _)

omit [Field F] in
theorem sizeAt_eq {buffer : FieldBuffer w F} (h : pending[k]? = some buffer) :
    sizeAt pending k = buffer.logLen := by
  rw [sizeAt,h]
  rfl

theorem scalarsAt_length (hk : k < pending.length) :
    (scalarsAt pending k).length = 2 ^ sizeAt pending k := by
  rw [scalarsAt,sizeAt,getElem?_eq_getElem hk]
  exact FieldBuffer.scalars_length _

theorem iterSlice_eq_scalars (buffer : FieldBuffer w F) (hw : w ≤ buffer.logLen) :
    iterSlice buffer.words = buffer.scalars := by
  have hlen : (iterSlice buffer.words).length = 2 ^ buffer.logLen := by
    rw [iterSlice_length,buffer.words_length,Nat.shiftLeft_eq,one_mul,←pow_add,Nat.sub_add_cancel hw]
  refine ext_getElem (hlen.trans buffer.scalars_length.symm) fun x hx hx' => ?_
  have hlt : x < 2 ^ buffer.logLen := hlen ▸ hx
  rw [←getD_eq_getElem _ 0 hx,←getD_eq_getElem _ 0 hx',buffer.iterSlice_words hlt,
    buffer.scalars_getD hlt]

theorem iterSlice_wordsAt {whole : List ℕ} (hwhole : ∀ k ∈ whole, k < pending.length ∧ w ≤ sizeAt pending k) :
    iterSlice (whole.flatMap (wordsAt pending)) = whole.flatMap (scalarsAt pending) := by
  induction whole with
  | nil => rfl
  | cons k whole ih =>
    obtain ⟨⟨hk,hw⟩,hrest⟩ := forall_mem_cons.mp hwhole
    have hhead : iterSlice (wordsAt pending k) = scalarsAt pending k := by
      have hget := getElem?_eq_getElem hk
      rw [sizeAt_eq pending hget] at hw
      rw [wordsAt,scalarsAt,hget]
      exact iterSlice_eq_scalars _ hw
    rw [flatMap_cons,flatMap_cons,←ih hrest,←hhead]
    exact flatMap_append

theorem place_rest {before rest : List ℕ} (horder : order pending = before ++ rest) {dst : FieldBuffer w F}
    (hlen : dst.logLen = combinedLogLen pending)
    (hdst : ∀ x < 2 ^ combinedLogLen pending,
      dst.scalar x = (before.flatMap (scalarsAt pending)).getD x 0) :
    ∃ r, rest.foldlM (fun combined k => do
        let buffer ← pending[k]?
        let block ← (blocks pending)[k]?
        placeBlock combined buffer block) dst = some r ∧ r.logLen = combinedLogLen pending ∧
      ∀ x < 2 ^ combinedLogLen pending,
        r.scalar x = ((order pending).flatMap (scalarsAt pending)).getD x 0 := by
  induction rest generalizing before dst with
  | nil =>
    rw [append_nil] at horder
    exact ⟨dst,rfl,hlen,fun x hx => (hdst x hx).trans (by rw [horder])⟩
  | cons k rest ih =>
    have hmem : k ∈ order pending := by
      rw [horder]
      exact mem_append_right _ mem_cons_self
    have hk := (mem_order pending).mp hmem
    have hget := getElem?_eq_getElem hk
    have hsize := sizeAt_eq pending hget
    have hnodup := order_nodup pending
    rw [horder] at hnodup
    have hnew : k ∉ before := fun h => disjoint_of_nodup_append hnodup h mem_cons_self
    -- the block starts where the buffers before it end
    have hstart : blockOf pending k * 2 ^ pending[k].logLen = (before.flatMap (scalarsAt pending)).length := by
      rw [←hsize,blockOf_mul pending hk,horder,start_append _ hnew]
      refine (flatMap_length _ fun i hi => scalarsAt_length pending ((mem_order pending).mp ?_)).symm
      rw [horder]
      exact mem_append_left _ hi
    have hfits := blockOf_fits pending hk
    rw [hsize,←hlen] at hfits
    obtain ⟨r,hplace,hr,hscalar⟩ := placeBlock_run hfits
    have hnext : ∀ x < 2 ^ combinedLogLen pending,
        r.scalar x = ((before ++ [k]).flatMap (scalarsAt pending)).getD x 0 := by
      intro x hx
      have hcells : scalarsAt pending k = pending[k].scalars := by
        rw [scalarsAt,hget]
        rfl
      rw [hscalar,hstart,flatMap_append,flatMap_cons,flatMap_nil,append_nil,hcells]
      by_cases hlow : x < (before.flatMap (scalarsAt pending)).length
      · rw [if_neg (by omega),hdst x hx,getD_append _ _ _ _ hlow]
      · have hge := not_lt.mp hlow
        rw [getD_append_right _ _ _ _ hge]
        by_cases hin : x < (before.flatMap (scalarsAt pending)).length + 2 ^ pending[k].logLen
        · rw [if_pos ⟨hge,hin⟩,FieldBuffer.scalars_getD _ (by omega)]
        · rw [if_neg (by omega),hdst x hx,getD_eq_default _ _ hge,getD_eq_default]
          rw [FieldBuffer.scalars_length]
          omega
    have horder' : order pending = (before ++ [k]) ++ rest := by
      rw [horder,append_assoc]
      rfl
    obtain ⟨r',hrest,hr',hscalar'⟩ := ih horder' (hr.trans hlen) hnext
    refine ⟨r',?_,hr',hscalar'⟩
    rw [foldlM_cons]
    simp only [hget,blocks_getElem? pending hk,hplace,bind,Option.bind]
    exact hrest

theorem combine_run : ∃ combined, combine pending (blocks pending) = some combined ∧
    combined.logLen = combinedLogLen pending ∧ ∀ x < 2 ^ combinedLogLen pending,
      combined.scalar x = ((order pending).flatMap (scalarsAt pending)).getD x 0 := by
  have hsplit := takeWhile_append_dropWhile (p := fun k => decide (w ≤ sizeAt pending k)) (l := order pending)
  have htake : (order pending).take ((order pending).takeWhile fun k => decide (w ≤ sizeAt pending k)).length =
      (order pending).takeWhile fun k => decide (w ≤ sizeAt pending k) := by
    conv_lhs => rw [←hsplit]
    exact take_left' (by rw [hsplit])
  have hdrop : (order pending).drop ((order pending).takeWhile fun k => decide (w ≤ sizeAt pending k)).length =
      (order pending).dropWhile fun k => decide (w ≤ sizeAt pending k) := by
    conv_lhs => rw [←hsplit]
    exact drop_left' (by rw [hsplit])
  have hwhole : ∀ k ∈ (order pending).takeWhile (fun k => decide (w ≤ sizeAt pending k)),
      k < pending.length ∧ w ≤ sizeAt pending k := by
    intro k hk
    refine ⟨(mem_order pending).mp ((takeWhile_sublist _).subset hk),?_⟩
    have hwide := mem_takeWhile_imp hk
    exact of_decide_eq_true hwide
  simp only [combine,htake,hdrop]
  refine place_rest pending hsplit.symm rfl fun x hx => ?_
  -- the words appended, and zeros past them
  rw [←iterSlice_wordsAt pending hwhole,iterSlice_getD_getD,FieldBuffer.scalar]
  refine congrArg (fun word : PackedField w F => word.get (x % 2 ^ w)) (resize_getD _ (wordIndex_lt hx) _)

end Combine

end Binius64.OracleChannel.MergeProverChannel
