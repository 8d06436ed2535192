import Binius64.PackedLayers

/-!
# Layers of a block

The reference, the breadth-first and the depth-first network on one block of the buffer.
-/

namespace Binius64.Ntt

open Footprints ButterflyNetwork List
open Nat (div_add_mod' mod_lt shiftLeft_eq)

variable {F : Type} [Field F] {τ : ℕ → F} {s w : ℕ}

theorem shiftLeft_or {a b k : ℕ} (h : b < 2 ^ k) : a <<< k ||| b = a * 2 ^ k + b := by
  rw [←Nat.shiftLeft_add_eq_or_of_lt h,shiftLeft_eq]

theorem one_shiftLeft_or {b k : ℕ} (h : b < 2 ^ k) : (1 <<< k) ||| b = 2 ^ k + b := by
  rw [shiftLeft_or h,one_mul]

theorem or_two_pow {i : ℕ} (h : i / 2 ^ s % 2 = 0) : i ||| 1 <<< s = i + 2 ^ s := by
  have hlt : i % 2 ^ s < 2 ^ s := mod_lt _ (Nat.two_pow_pos s)
  have hsplit : i = (i / 2 ^ s) <<< s ||| i % 2 ^ s := by
    rw [shiftLeft_or hlt]
    exact (div_add_mod' i (2 ^ s)).symm
  have hnext : i / 2 ^ s ||| 1 = i / 2 ^ s + 1 := by
    have hhalf : i / 2 ^ s = (i / 2 ^ s / 2) <<< 1 := by
      rw [shiftLeft_eq,pow_one]
      generalize i / 2 ^ s = q at h
      omega
    rw [hhalf,shiftLeft_or (by decide : 1 < 2 ^ 1),shiftLeft_eq]
  have hsum : i ||| 1 <<< s = (i / 2 ^ s ||| 1) <<< s ||| i % 2 ^ s := by
    conv_lhs => rw [hsplit]
    rw [Nat.or_assoc,Nat.or_comm (i % 2 ^ s),←Nat.or_assoc,←Nat.shiftLeft_or_distrib]
  rw [hsum,shiftLeft_or hlt,hnext,add_mul,one_mul,add_right_comm,div_add_mod']

theorem shiftLeft_xor {a b k : ℕ} (h : b < 2 ^ k) : (a * 2 ^ k) ^^^ b = a * 2 ^ k + b := by
  refine Nat.eq_of_testBit_eq fun j => ?_
  rw [Nat.testBit_xor,mul_comm a,Nat.testBit_two_pow_mul_add a h]
  by_cases hj : j < k
  · have hnot : ¬k ≤ j := not_le.mpr hj
    rw [if_pos hj,Nat.testBit_two_pow_mul]
    simp [hnot]
  · have hle : k ≤ j := not_lt.mp hj
    have hb : b.testBit j = false := Nat.testBit_lt_two_pow (h.trans_le (Nat.pow_le_pow_right (by decide) hle))
    rw [if_neg hj,Nat.testBit_two_pow_mul,hb]
    simp [hle]

namespace DomainContext

variable (domainContext : DomainContext F) {layer : ℕ}

theorem twiddle_zero (h : layer < domainContext.logDomainSize) : domainContext.twiddle layer 0 = 0 := by
  have hdouble := domainContext.twiddle_xor layer h 0 (Nat.two_pow_pos layer) 0 (Nat.two_pow_pos layer)
  rw [Nat.xor_self] at hdouble
  exact left_eq_add.mp hdouble

theorem twiddle_add (h : layer < domainContext.logDomainSize) {a b k : ℕ} (hb : b < 2 ^ k)
    (hlt : a * 2 ^ k + b < 2 ^ layer) : domainContext.twiddle layer (a * 2 ^ k + b) =
      domainContext.twiddle layer (a * 2 ^ k) + domainContext.twiddle layer b := by
  rw [←shiftLeft_xor hb]
  exact domainContext.twiddle_xor layer h _ (by omega) _ (by omega)

theorem iterTwiddles_drop_take (h : layer < domainContext.logDomainSize) {logStepBy d c : ℕ}
    (hstep : logStepBy ≤ layer) (hdc : d + c ≤ 2 ^ (layer - logStepBy)) :
    ((domainContext.iterTwiddles layer logStepBy).drop d).take c =
      (range c).map fun k => domainContext.twiddle layer ((d + k) <<< logStepBy) := by
  rw [domainContext.iterTwiddles_eq layer h logStepBy hstep,shiftLeft_eq,one_mul]
  refine ext_getElem ?_ fun k hk hk' => ?_
  · simp
    omega
  · simp

end DomainContext

theorem split_bit (s l : ℕ) : l = l / 2 ^ (s + 1) * 2 ^ (s + 1) + l / 2 ^ s % 2 * 2 ^ s + l % 2 ^ s := by
  have hdiv : l = l / 2 ^ s * 2 ^ s + l % 2 ^ s := (div_add_mod' l (2 ^ s)).symm
  have hbit : l / 2 ^ s = l / 2 ^ s / 2 * 2 + l / 2 ^ s % 2 := (div_add_mod' _ 2).symm
  rw [div_pow_succ,pow_succ]
  calc l = l / 2 ^ s * 2 ^ s + l % 2 ^ s := hdiv
    _ = (l / 2 ^ s / 2 * 2 + l / 2 ^ s % 2) * 2 ^ s + l % 2 ^ s := by rw [←hbit]
    _ = _ := by ring

theorem join_bit {s b j : ℕ} (hj : j < 2 ^ s) :
    (b * 2 ^ (s + 1) + j) / 2 ^ s % 2 = 0 ∧ (b * 2 ^ (s + 1) + j) / 2 ^ (s + 1) = b ∧
      (b * 2 ^ (s + 1) + j) % 2 ^ s = j := by
  have hlt : j < 2 ^ (s + 1) := hj.trans (Nat.pow_lt_pow_right (by decide) (Nat.lt_succ_self s))
  have hmul : b * 2 ^ (s + 1) = 2 ^ s * (b * 2) := by ring
  refine ⟨?_,?_,?_⟩
  · rw [hmul,Nat.mul_add_div (Nat.two_pow_pos s),Nat.div_eq_of_lt hj,add_zero,Nat.mul_mod_left]
  · rw [mul_comm,Nat.mul_add_div (Nat.two_pow_pos _),Nat.div_eq_of_lt hlt,add_zero]
  · rw [hmul,Nat.mul_add_mod,Nat.mod_eq_of_lt hj]

omit [Field F] in
theorem setLanes_computes {t : ℕ → F} {b j : ℕ} (hj : j < 2 ^ s) (hb : b < 2 ^ (w - s - 1)) :
    Computes (fun offset : PackedField w F => (offset.set (b <<< (s + 1) ||| j) (t b)).set
        (b <<< (s + 1) ||| j ||| (1 <<< s)) (t ((1 <<< (w - s - 1)) ||| b)))
      (fun _ l => t (laneBlock w s l.val)) {l | l.val / 2 ^ (s + 1) = b ∧ l.val % 2 ^ s = j} := by
  have hlt : j < 2 ^ (s + 1) := hj.trans (Nat.pow_lt_pow_right (by decide) (Nat.lt_succ_self s))
  obtain ⟨hbit,hdiv,hmod⟩ := join_bit (b := b) hj
  rw [shiftLeft_or hlt,or_two_pow hbit,one_shiftLeft_or hb]
  obtain ⟨hodd,hsame⟩ := lane_add_div hbit
  intro offset l
  have hsplit := split_bit s l.val
  simp only [PackedField.set]
  refine ⟨fun hl => ?_,fun hl => ?_⟩
  · obtain ⟨hhigh,hlow⟩ := hl
    rw [hhigh,hlow] at hsplit
    by_cases hlane : l.val / 2 ^ s % 2 = 0
    · rw [hlane,zero_mul,add_zero] at hsplit
      have hne : l.val ≠ b * 2 ^ (s + 1) + j + 2 ^ s := by
        have hpos := Nat.two_pow_pos s
        omega
      rw [if_neg hne,if_pos hsplit,laneBlock,if_pos hlane,hhigh]
    · have hone : l.val / 2 ^ s % 2 = 1 := by
        generalize l.val / 2 ^ s = q at hlane
        omega
      rw [hone,one_mul,add_right_comm] at hsplit
      rw [if_pos hsplit,laneBlock,if_neg hlane,hhigh]
  · have hfirst : l.val ≠ b * 2 ^ (s + 1) + j := fun h => hl ⟨by rw [h]; exact hdiv,by rw [h]; exact hmod⟩
    have hsecond : l.val ≠ b * 2 ^ (s + 1) + j + 2 ^ s := by
      intro h
      refine hl ⟨?_,?_⟩
      · rw [h,hsame,hdiv]
      · rw [h,Nat.add_mod_right,hmod]
    rw [if_neg hsecond,if_neg hfirst]

theorem closed_const {ι α : Type} {g : ι → α} {R : Set ι} : Closed (fun _ : ι → α => g) R :=
  fun _ _ _ _ _ => rfl

variable (domainContext : DomainContext F)

theorem packedTwiddleOffset_apply {logN layer : ℕ} (hl : layer < logN)
    (hs : logN - layer - 1 < w) (j : Fin (2 ^ w)) : packedTwiddleOffset domainContext w logN layer j =
      domainContext.twiddle layer (laneBlock w (logN - layer - 1) j.val) := by
  generalize hbit : logN - layer - 1 = s at hs
  have hsize : logN - layer = s + 1 := by omega
  have hper : w - (s + 1) = w - s - 1 := rfl
  let step := fun (offset : PackedField w F) (b j : ℕ) =>
    (offset.set (b <<< (s + 1) ||| j) (domainContext.twiddle layer b)).set
      (b <<< (s + 1) ||| j ||| (1 <<< s)) (domainContext.twiddle layer ((1 <<< (w - s - 1)) ||| b))
  have hoff : packedTwiddleOffset domainContext w logN layer =
      (range (1 <<< (w - s - 1))).foldl (fun offset b =>
        (range (1 <<< s)).foldl (fun offset j => step offset b j) offset) 0 := by
    rw [packedTwiddleOffset,hsize,Nat.add_sub_cancel,hper]
  have hpow : 2 ^ w = 2 ^ (w - s - 1) * 2 ^ (s + 1) := by
    rw [←pow_add]
    congr 1
    omega
  have hinner : ∀ b ∈ range (1 <<< (w - s - 1)),
      Computes (fun offset : PackedField w F =>
          (range (1 <<< s)).foldl (fun offset j => step offset b j) offset)
        (fun _ l => domainContext.twiddle layer (laneBlock w s l.val)) {l | l.val / 2 ^ (s + 1) = b} := by
    intro b hb
    rw [mem_range,shiftLeft_eq,one_mul] at hb
    refine Computes.foldl_key _ (fun l => l.val % 2 ^ s) nodup_range (fun j hj => ?_)
      (fun _ _ => closed_const) fun l _ => ?_
    · rw [mem_range,shiftLeft_eq,one_mul] at hj
      exact setLanes_computes hj hb
    · rw [mem_range,shiftLeft_eq,one_mul]
      exact mod_lt _ (Nat.two_pow_pos s)
  have houter : Computes (fun offset : PackedField w F => (range (1 <<< (w - s - 1))).foldl
      (fun offset b => (range (1 <<< s)).foldl (fun offset j => step offset b j) offset) offset)
        (fun _ l => domainContext.twiddle layer (laneBlock w s l.val)) Set.univ := by
    refine Computes.foldl_key _ (fun l => l.val / 2 ^ (s + 1)) nodup_range (fun b hb => ?_)
      (fun _ _ => closed_const) fun l _ => ?_
    · have hcells : {l : Fin (2 ^ w) | l ∈ Set.univ ∧ l.val / 2 ^ (s + 1) = b} =
          {l | l.val / 2 ^ (s + 1) = b} := by
        ext l
        exact ⟨fun h => h.2,fun h => ⟨trivial,h⟩⟩
      rw [hcells]
      exact hinner b hb
    · rw [mem_range,shiftLeft_eq,one_mul,Nat.div_lt_iff_lt_mul (Nat.two_pow_pos _),←hpow]
      exact l.isLt
  rw [hoff]
  exact (houter 0 j).1 (Set.mem_univ j)

def pairAt (lower upper : F → F → F → F) (twiddle : F) (idx0 idx1 : ℕ) (data : Memory F) : Memory F :=
  Function.update (Function.update data idx0 (lower (data idx0) (data idx1) twiddle)) idx1
    (upper (data idx0) (data idx1) twiddle)

def layerOver (pair : F → ℕ → ℕ → Memory F → Memory F) (domainContext : DomainContext F)
    (logD layer : ℕ) (data : Memory F) : Memory F :=
  let numBlocks := 1 <<< layer
  let blockSizeHalf := 1 <<< (logD - layer - 1)
  (range numBlocks).foldl (fun data block =>
    let twiddle := domainContext.twiddle layer block
    let blockStart := block <<< (logD - layer)
    (range' blockStart blockSizeHalf).foldl (fun data idx0 =>
      pair twiddle idx0 (blockSizeHalf ||| idx0) data) data) data

theorem referenceButterfly_eq : (referenceButterfly : F → ℕ → ℕ → Memory F → Memory F) =
    pairAt (fun u v t => u + v * t) (fun u v t => v + (u + v * t)) := rfl

theorem referenceLayer_eq :
    referenceLayer domainContext = layerOver referenceButterfly domainContext := rfl

section Pairs

variable {lower upper : F → F → F → F}

omit [Field F] in
theorem pairLayer_low {x : ℕ → F} {i : ℕ} (hbit : i / 2 ^ s % 2 = 0) :
    pairLayer lower upper τ s x i = lower (x i) (x (i + 2 ^ s)) (τ (i / 2 ^ (s + 1))) := if_pos hbit

omit [Field F] in
theorem pairLayer_high {x : ℕ → F} {i : ℕ} (hbit : i / 2 ^ s % 2 = 0) :
    pairLayer lower upper τ s x (i + 2 ^ s) = upper (x i) (x (i + 2 ^ s)) (τ (i / 2 ^ (s + 1))) := by
  obtain ⟨hodd,hfactor⟩ := lane_add_div hbit
  rw [pairLayer,hodd,if_neg one_ne_zero,Nat.add_sub_cancel,hfactor]

omit [Field F] in
theorem pairAt_computes {b j : ℕ} (hj : j < 2 ^ s) :
    Computes (pairAt lower upper (τ b) (b * 2 ^ (s + 1) + j) (1 <<< s ||| (b * 2 ^ (s + 1) + j)))
      (pairLayer lower upper τ s)
      {i | i ∈ block (s + 1) b ∧ b * 2 ^ (s + 1) + i % 2 ^ s = b * 2 ^ (s + 1) + j} := by
  obtain ⟨hbit,hdiv,hmod⟩ := join_bit (b := b) hj
  rw [Nat.or_comm,or_two_pow hbit]
  obtain ⟨hodd,hsame⟩ := lane_add_div hbit
  have hne : b * 2 ^ (s + 1) + j ≠ b * 2 ^ (s + 1) + j + 2 ^ s := by
    have hpos := Nat.two_pow_pos s
    omega
  intro data i
  have hsplit := split_bit s i
  simp only [pairAt]
  refine ⟨fun hi => ?_,fun hi => ?_⟩
  · obtain ⟨hhigh,hlow⟩ := hi
    have hhigh' : i / 2 ^ (s + 1) = b := hhigh
    rw [hhigh',Nat.add_left_cancel hlow] at hsplit
    by_cases hlane : i / 2 ^ s % 2 = 0
    · rw [hlane,zero_mul,add_zero] at hsplit
      rw [hsplit,Function.update_of_ne hne,Function.update_self,pairLayer_low hbit,hdiv]
    · have hone : i / 2 ^ s % 2 = 1 := by
        generalize i / 2 ^ s = q at hlane
        omega
      rw [hone,one_mul,add_right_comm] at hsplit
      rw [hsplit,Function.update_self,pairLayer_high hbit,hdiv]
  · have hfirst : i ≠ b * 2 ^ (s + 1) + j := by
      intro h
      refine hi ⟨?_,?_⟩
      · rw [h]
        exact hdiv
      · rw [h,hmod]
    have hsecond : i ≠ b * 2 ^ (s + 1) + j + 2 ^ s := by
      intro h
      refine hi ⟨?_,?_⟩
      · rw [h]
        exact hsame.trans hdiv
      · rw [h,Nat.add_mod_right,hmod]
    rw [Function.update_of_ne hsecond,Function.update_of_ne hfirst]

omit [Field F] in
theorem closed_low {b j : ℕ} : Closed (pairLayer lower upper τ s)
    {i | i ∈ block (s + 1) b ∧ b * 2 ^ (s + 1) + i % 2 ^ s = j} := by
  refine pairLayer_closed (fun i hi hbit => ?_) fun i hi hbit => ?_
  · obtain ⟨-,hsame⟩ := lane_add_div hbit
    refine ⟨hsame.trans hi.1,?_⟩
    rw [Nat.add_mod_right]
    exact hi.2
  · obtain ⟨-,hsame⟩ := lane_sub_div hbit
    refine ⟨hsame.trans hi.1,?_⟩
    rw [←Nat.mod_eq_sub_mod (pow_le_of_odd hbit)]
    exact hi.2

theorem layerOver_computes (domainContext : DomainContext F) {logD layer : ℕ} (hl : layer < logD) :
    Computes (layerOver (pairAt lower upper) domainContext logD layer)
      (pairLayer lower upper (domainContext.twiddle layer) (logD - 1 - layer)) (block logD 0) := by
  have hs : logD - 1 - layer = logD - layer - 1 := by omega
  rw [hs]
  generalize hbit : logD - layer - 1 = s
  have hsize : logD - layer = s + 1 := by omega
  have hlog : logD = s + 1 + layer := by omega
  have hin : ∀ i, i ∈ block logD 0 ↔ i / 2 ^ (s + 1) < 2 ^ layer := by
    intro i
    rw [block,Set.mem_ofPred_eq,hlog,div_pow_add,Nat.div_eq_zero_iff]
    have hpos := Nat.two_pow_pos layer
    omega
  have hcells : ∀ b ∈ range (1 <<< layer),
      {i | i ∈ block logD 0 ∧ i / 2 ^ (s + 1) = b} = block (s + 1) b := by
    intro b hb
    rw [mem_range,shiftLeft_eq,one_mul] at hb
    ext i
    exact ⟨fun h => h.2,fun h => ⟨(hin i).mpr (h.symm ▸ hb),h⟩⟩
  refine Computes.foldl_key _ (fun i => i / 2 ^ (s + 1)) nodup_range (fun b hb => ?_)
    (fun b hb => ?_) fun i hi => ?_
  · rw [hcells b hb]
    have hstart : b <<< (logD - layer) = b * 2 ^ (s + 1) := by rw [hsize,shiftLeft_eq]
    simp only [hstart,hbit]
    refine Computes.foldl_key _ (fun i => b * 2 ^ (s + 1) + i % 2 ^ s) nodup_range'
      (fun idx0 hidx => ?_) (fun _ _ => closed_low) fun i _ => ?_
    · rw [mem_range'_1,shiftLeft_eq,one_mul] at hidx
      obtain ⟨j,rfl⟩ := Nat.exists_eq_add_of_le hidx.1
      exact pairAt_computes (by omega)
    · have hlow : i % 2 ^ s < 2 ^ s := mod_lt _ (Nat.two_pow_pos s)
      rw [mem_range'_1,shiftLeft_eq,one_mul]
      omega
  · rw [hcells b hb]
    have hlt : s < s + 1 := Nat.lt_succ_self s
    exact pairLayer_closed (fun _ hi => (block_partner hlt hi).1) fun _ hi => (block_partner hlt hi).2
  · rw [mem_range,shiftLeft_eq,one_mul]
    exact (hin i).mp hi

end Pairs

theorem referenceLayer_computes {logD layer : ℕ} (hl : layer < logD) :
    Computes (referenceLayer domainContext logD layer)
      (butterfly (domainContext.twiddle layer) (logD - 1 - layer)) (block logD 0) := by
  rw [butterfly_eq_pairLayer,referenceLayer_eq,referenceButterfly_eq]
  exact layerOver_computes domainContext hl

def Performs (prog : Memory F → Except AssertFailure (Memory F))
    (G : Memory F → Memory F) (cells : Set ℕ) : Prop :=
  ∃ f, (∀ data, prog data = .ok (f data)) ∧ Computes f G cells

theorem require_true {p : Prop} [Decidable p] (h : p) : require p = .ok () := if_pos h

theorem layers_append (t : ℕ → ℕ → F) {n first mid last : ℕ} (h : first ≤ mid) (h' : mid ≤ last)
    (x : ℕ → F) : layers t n mid last (layers t n first mid x) = layers t n first last x := by
  have hsplit : range' first (last - first) =
      range' first (mid - first) ++ range' mid (last - mid) := by
    have hlen : last - first = (mid - first) + (last - mid) := by omega
    have hmid : first + 1 * (mid - first) = mid := by omega
    rw [hlen,←range'_append,hmid]
  rw [layers,layers,layers,hsplit,foldl_append]

theorem neighborsLastReference_performs
    {logD skipEarly skipLate : ℕ}
    (hcheck : inputCheck domainContext logD skipEarly skipLate = .ok ()) :
    Performs (neighborsLastReference domainContext logD skipEarly skipLate)
      (layers domainContext.twiddle logD skipEarly (logD - skipLate)) (block logD 0) := by
  refine ⟨_,fun data => by rw [neighborsLastReference,hcheck]; rfl,?_⟩
  refine Computes.foldl_comp (fun layer hl => ?_) fun layer hl => ?_
  · rw [mem_range'_1] at hl
    exact referenceLayer_computes domainContext (by omega)
  · rw [mem_range'_1] at hl
    exact closed_block (by omega)

omit [Field F] in
theorem zip_positions (a b n : ℕ) : (⟨a,n⟩ : Slice).positions.zip (⟨b,n⟩ : Slice).positions =
    (range n).map fun j => (a + j,b + j) := by
  rw [Slice.positions,Slice.positions,range'_eq_map_range,range'_eq_map_range,zip_map']

theorem zip_computes {op : ℕ → ℕ → Memory F → Memory F} {a n : ℕ} (hw : w ≤ s)
    (hbit : ∀ j < n, (a + j) / 2 ^ (s - w) % 2 = 0)
    (hop : ∀ j < n, Computes (op (a + j) (a + j + 2 ^ (s - w))) (butterfly τ s)
      (block w (a + j) ∪ block w (a + j + 2 ^ (s - w)))) :
    Computes (fun data => ((⟨a,n⟩ : Slice).positions.zip
        (⟨a + 2 ^ (s - w),n⟩ : Slice).positions).foldl (fun data pair => op pair.1 pair.2 data) data)
      (butterfly τ s) ((⟨a,n⟩ : Slice).cells w ∪ (⟨a + 2 ^ (s - w),n⟩ : Slice).cells w) := by
  have hloop := Computes.foldl (F := fun j => op (a + j) (a + j + 2 ^ (s - w))) (G := butterfly τ s)
    (fun j => block w (a + j) ∪ block w (a + j + 2 ^ (s - w)))
    (fun j hj => hop j (mem_range.mp hj))
    (fun j hj => closed_pair hw (hbit j (mem_range.mp hj)))
    (pairwise_lt_range.imp_of_mem fun {j k} hj hk hlt => by
      have hjbit := hbit j (mem_range.mp hj)
      have hkbit := hbit k (mem_range.mp hk)
      have hjodd := div_add_pow_odd hjbit
      have hkodd := div_add_pow_odd hkbit
      have hcross : ∀ x y : ℕ, x / 2 ^ (s - w) % 2 = 0 → y / 2 ^ (s - w) % 2 = 1 → x ≠ y := by
        rintro x y hx hy rfl
        omega
      refine Set.disjoint_union_left.mpr ⟨Set.disjoint_union_right.mpr ⟨?_,?_⟩,
        Set.disjoint_union_right.mpr ⟨?_,?_⟩⟩
      · exact block_disjoint (by omega)
      · exact block_disjoint (hcross _ _ hjbit hkodd)
      · exact block_disjoint (hcross _ _ hkbit hjodd).symm
      · exact block_disjoint (by omega))
  have hcells : {i | ∃ j ∈ range n, i ∈ block w (a + j) ∪ block w (a + j + 2 ^ (s - w))} =
      (⟨a,n⟩ : Slice).cells w ∪ (⟨a + 2 ^ (s - w),n⟩ : Slice).cells w := by
    ext i
    constructor
    · rintro ⟨j,hj,hi | hi⟩
      · left
        have hi' : i / 2 ^ w = a + j := hi
        have hj' := mem_range.mp hj
        refine ⟨?_,?_⟩ <;> rw [hi'] <;> simp only <;> omega
      · right
        have hi' : i / 2 ^ w = a + j + 2 ^ (s - w) := hi
        have hj' := mem_range.mp hj
        refine ⟨?_,?_⟩ <;> rw [hi'] <;> simp only <;> omega
    · rintro (⟨hlow,hhigh⟩ | ⟨hlow,hhigh⟩)
      · simp only at hlow hhigh
        refine ⟨i / 2 ^ w - a,mem_range.mpr (by omega),Or.inl ?_⟩
        exact (Nat.add_sub_cancel' hlow).symm
      · simp only at hlow hhigh
        refine ⟨i / 2 ^ w - (a + 2 ^ (s - w)),mem_range.mpr (by omega),Or.inr ?_⟩
        have hsum := Nat.add_sub_cancel' hlow
        rw [block,Set.mem_ofPred_eq]
        omega
  rw [hcells] at hloop
  have hsame : (fun data => ((⟨a,n⟩ : Slice).positions.zip
      (⟨a + 2 ^ (s - w),n⟩ : Slice).positions).foldl (fun data pair => op pair.1 pair.2 data) data) =
        fun data => (range n).foldl (fun data j => op (a + j) (a + j + 2 ^ (s - w)) data) data := by
    funext data
    rw [zip_positions,foldl_map]
    simp only [add_right_comm]
  rw [hsame]
  exact hloop

theorem sliceLayer_computes {a n b : ℕ} (hw : w ≤ s)
    (hbit : ∀ j < n, (a + j) / 2 ^ (s - w) = 2 * b) :
    Computes (butterflyZip w (.broadcast (τ b)) ⟨a,n⟩ ⟨a + 2 ^ (s - w),n⟩) (butterfly τ s)
        ((⟨a,n⟩ : Slice).cells w ∪ (⟨a + 2 ^ (s - w),n⟩ : Slice).cells w) ∧
      (τ b = 0 → Computes (addZip w ⟨a,n⟩ ⟨a + 2 ^ (s - w),n⟩) (butterfly τ s)
        ((⟨a,n⟩ : Slice).cells w ∪ (⟨a + 2 ^ (s - w),n⟩ : Slice).cells w)) := by
  have heven : ∀ j < n, (a + j) / 2 ^ (s - w) % 2 = 0 := by
    intro j hj
    rw [hbit j hj]
    omega
  have hblock : ∀ j < n, (a + j) / 2 ^ (s - w + 1) = b := by
    intro j hj
    rw [div_pow_succ,hbit j hj]
    omega
  refine ⟨zip_computes hw heven fun j hj => ?_,fun hzero => zip_computes hw heven fun j hj => ?_⟩
  · have hone := butterflyAt_computes (τ := τ) hw (heven j hj)
    rw [hblock j hj] at hone
    exact hone
  · refine addAt_computes hw (heven j hj) ?_
    rw [hblock j hj]
    exact hzero

def blockSlice (w m b : ℕ) : Slice := ⟨b * 2 ^ (m - w),2 ^ (m - w)⟩

theorem blockSlice_cells {m b : ℕ} (h : w ≤ m) : (blockSlice w m b).cells w = block m b := by
  ext i
  rw [block,Set.mem_ofPred_eq,div_pow_of_le i h,Nat.div_eq_iff (Nat.two_pow_pos _)]
  simp only [Slice.cells,blockSlice,Set.mem_ofPred_eq]
  have hpos := Nat.two_pow_pos (m - w)
  rw [mul_comm b]
  omega

theorem blockSlice_splitAt {m b : ℕ} (h : w ≤ m) :
    (blockSlice w (m + 1) b).splitAt (1 <<< (m - w)) =
      (blockSlice w m (2 * b),blockSlice w m (2 * b + 1)) := by
  have hlen : 2 ^ (m + 1 - w) = 2 * 2 ^ (m - w) := by
    rw [Nat.succ_sub h,pow_succ']
  rw [Slice.splitAt,blockSlice,blockSlice,blockSlice,shiftLeft_eq,one_mul,hlen]
  have hfirst : b * (2 * 2 ^ (m - w)) = 2 * b * 2 ^ (m - w) := by ring
  have hsecond : 2 * b * 2 ^ (m - w) + 2 ^ (m - w) = (2 * b + 1) * 2 ^ (m - w) := by ring
  have hrest : 2 * 2 ^ (m - w) - 2 ^ (m - w) = 2 ^ (m - w) := by omega
  rw [hfirst,hsecond,hrest]

theorem blockLayer_computes {m b : ℕ} (h : w ≤ m) :
    Computes (butterflyZip w (.broadcast (τ b)) (blockSlice w m (2 * b)) (blockSlice w m (2 * b + 1)))
        (butterfly τ m) (block (m + 1) b) ∧
      (τ b = 0 → Computes (addZip w (blockSlice w m (2 * b)) (blockSlice w m (2 * b + 1)))
        (butterfly τ m) (block (m + 1) b)) := by
  have hbit : ∀ j < 2 ^ (m - w), (2 * b * 2 ^ (m - w) + j) / 2 ^ (m - w) = 2 * b := by
    intro j hj
    rw [mul_comm,Nat.mul_add_div (Nat.two_pow_pos _),Nat.div_eq_of_lt hj,add_zero]
  have hlayer := sliceLayer_computes (τ := τ) (a := 2 * b * 2 ^ (m - w)) h hbit
  have hsecond : (⟨2 * b * 2 ^ (m - w) + 2 ^ (m - w),2 ^ (m - w)⟩ : Slice) =
      blockSlice w m (2 * b + 1) := by
    rw [blockSlice,add_mul (2 * b),one_mul]
  have hfirst : (⟨2 * b * 2 ^ (m - w),2 ^ (m - w)⟩ : Slice) = blockSlice w m (2 * b) := rfl
  rw [hsecond,hfirst,blockSlice_cells h,blockSlice_cells h,←block_succ] at hlayer
  exact hlayer

end Binius64.Ntt
