import Binius64.GhashRing
import Binius64.TraceDescent
import Binius64.TwiddleContexts

/-!
# The Gao–Mateer contexts

Each element of the Gao–Mateer basis is a step down from the one after it, so the subspace
polynomials take the basis elements to each other, and the generic contexts compute what the
Gao–Mateer contexts read off.
-/

namespace Binius64.Ntt

open CheckedRun SubspacePolynomials TraceDescent List

variable {F : Type} [Field F]

theorem Serves.congr {context : DomainInterface F} {n : ℕ}
    {domain domain' layerBasis layerBasis' : ℕ → List F}
    (h : Serves context n domain layerBasis) (hdomain : ∀ i ≤ n, domain i = domain' i)
    (hbasis : ∀ layer < n, layerBasis layer = layerBasis' layer) :
    Serves context n domain' layerBasis' where
  size := h.size
  subspace i hi := by rw [h.subspace i hi,hdomain i hi]
  length_layerBasis layer hl := by rw [←hbasis layer hl,h.length_layerBasis layer hl]
  twiddle layer hl block hb := by rw [h.twiddle layer hl block hb,hbasis layer hl]
  twiddle_xor := h.twiddle_xor
  iterTwiddles := h.iterTwiddles

theorem rows_of_subspace [CharP F 2] {basis : List F} (hne : basis ≠ []) :
    ∃ evals, generateEvalsFromSubspace ⟨basis⟩ = .ok evals ∧
      Rows evals basis.length (normalizedRow basis) := by
  have hcontext := generateFromSubspace_eq hne
  rw [GenericOnTheFly.generateFromSubspace,bind_eq_ok] at hcontext
  obtain ⟨evals,hevals,hsame⟩ := hcontext
  rw [pure_eq_ok] at hsame
  refine ⟨evals,hevals,?_,fun k _ => normalizedRow_length k⟩
  exact congrArg GenericOnTheFly.evals hsame

section GaoMateer

variable [BinaryField F]

/-- The first elements of the basis. -/
def gaoMateerPrefix (F : Type) [Field F] [BinaryField F] (n : ℕ) : List F :=
  (range n).map (gaoMateerElement F)

theorem gaoMateerPrefix_length (n : ℕ) : (gaoMateerPrefix F n).length = n := by
  rw [gaoMateerPrefix,length_map,length_range]

theorem gaoMateerPrefix_take {n i : ℕ} (hi : i ≤ n) :
    (gaoMateerPrefix F n).take i = gaoMateerPrefix F i := by
  rw [gaoMateerPrefix,←map_take,take_range,Nat.min_eq_left hi]
  rfl

theorem gaoMateerPrefix_tail_length (layer : ℕ) :
    (gaoMateerPrefix F (layer + 1)).tail.length = layer := by
  rw [length_tail,gaoMateerPrefix_length,Nat.add_sub_cancel]

theorem gaoMateer_row [CharP F 2] (hunit : gaoMateerElement F 0 = 1) {n : ℕ}
    (hn : n ≤ BinaryField.nBits F) {k : ℕ} (hk : k < n) :
    normalizedRow (gaoMateerPrefix F n) k = gaoMateerPrefix F (n - k) := by
  have hrow : ∀ k < n, subspaceRow (gaoMateerPrefix F n) k = gaoMateerPrefix F (n - k) := by
    intro k
    induction k with
    | zero => exact fun _ => subspaceRow_zero _
    | succ k ih =>
      intro hk
      have hlt : k < (gaoMateerPrefix F n).length := by
        rw [gaoMateerPrefix_length]
        omega
      have hlen : n - k = n - (k + 1) + 1 := by omega
      rw [←nextEvals_row hlt,ih (by omega),hlen]
      exact nextEvals_gaoMateer (by omega) hunit
  have hnormal := normalizeEvals_row
    (by rwa [gaoMateerPrefix_length] : k < (gaoMateerPrefix F n).length)
  rw [hrow k hk,gaoMateerPrefix,normalizeEvals_gaoMateer (by omega) hunit] at hnormal
  exact (Except.ok.inj hnormal).symm

theorem gaoMateer_rows [CharP F 2] (hunit : gaoMateerElement F 0 = 1) {n : ℕ}
    (hn : n ≤ BinaryField.nBits F) (hpos : 0 < n) :
    ∃ evals, generateEvalsFromSubspace ⟨gaoMateerPrefix F n⟩ = .ok evals ∧
      Rows evals n fun k => gaoMateerPrefix F (n - k) := by
  have hne : gaoMateerPrefix F n ≠ [] := by
    intro hnil
    have hlen := gaoMateerPrefix_length (F := F) n
    rw [hnil,length_nil] at hlen
    omega
  obtain ⟨evals,hevals,hrows⟩ := rows_of_subspace hne
  rw [gaoMateerPrefix_length] at hrows
  refine ⟨evals,hevals,?_,fun k _ => gaoMateerPrefix_length _⟩
  rw [hrows.evals_eq]
  exact map_congr_left fun k hk => gaoMateer_row hunit hn (mem_range.mp hk)

theorem gaoMateer_domain {n i : ℕ} (hi : i ≤ n) :
    Rows.domain n (fun k => gaoMateerPrefix F (n - k)) i = gaoMateerPrefix F i := by
  unfold Rows.domain
  split
  · rename_i hzero
    rw [hzero]
    rfl
  · change gaoMateerPrefix F (n - (n - i)) = _
    rw [Nat.sub_sub_self hi]

theorem gaoMateer_layerBasis {n layer : ℕ} (hl : layer < n) :
    Rows.layerBasis n (fun k => gaoMateerPrefix F (n - k)) layer =
      (gaoMateerPrefix F (layer + 1)).tail := by
  have hlen : n - (n - 1 - layer) = layer + 1 := by omega
  rw [Rows.layerBasis,hlen]

variable {n : ℕ}

theorem slice_first {start stop : ℕ} (hstart : start ≤ stop) (hstop : stop ≤ n) :
    slice (gaoMateerPrefix F n) start stop = .ok ((gaoMateerPrefix F stop).drop start) := by
  rw [slice,gaoMateerPrefix_length,require_true ⟨hstart,hstop⟩,gaoMateerPrefix_take hstop]
  rfl

theorem GaoMateerOnTheFly.serves [CharP F 2] (hn : n ≤ usizeBits) :
    Serves (⟨gaoMateerPrefix F n⟩ : GaoMateerOnTheFly F).interface n (gaoMateerPrefix F)
      fun layer => (gaoMateerPrefix F (layer + 1)).tail := by
  refine .of_subsetSums (gaoMateerPrefix_length n) (fun i hi => ?_)
    (fun layer _ => gaoMateerPrefix_tail_length layer) (fun layer hl block hb => ?_)
    fun layer hl s hs => ?_
  · change (slice (gaoMateerPrefix F n) 0 i >>= fun basis =>
      pure (⟨basis⟩ : BinarySubspace F)) = _
    rw [slice_first (Nat.zero_le i) hi]
    rfl
  · have hdim : (⟨(gaoMateerPrefix F (layer + 1)).tail⟩ : BinarySubspace F).dim = layer :=
      gaoMateerPrefix_tail_length layer
    change (slice (gaoMateerPrefix F n) 1 (layer + 1) >>= fun basis =>
      (⟨basis⟩ : BinarySubspace F).get block) = _
    rw [slice_first (Nat.le_add_left 1 layer) (Nat.succ_le_of_lt hl),ok_bind,drop_one,
      BinarySubspace.get,hdim,Nat.one_shiftLeft,require_true hb,ok_bind,elementAt_eq]
    rfl
  · have hdrop : (gaoMateerPrefix F (layer + 1)).drop (1 + s) =
        (gaoMateerPrefix F (layer + 1)).tail.drop s := by
      rw [←drop_one,drop_drop]
    have hlen : ((gaoMateerPrefix F (layer + 1)).tail.drop s).length = layer - s := by
      rw [length_drop,gaoMateerPrefix_tail_length]
    have hs' : s ≤ (gaoMateerPrefix F (layer + 1)).tail.length := by
      rwa [gaoMateerPrefix_tail_length]
    change (slice (gaoMateerPrefix F n) (1 + s) (layer + 1) >>= fun basis =>
      BinarySubspaceIterator.new basis >>= BinarySubspaceIterator.elements) = _
    rw [slice_first (by omega) (Nat.succ_le_of_lt hl),ok_bind,hdrop,
      BinarySubspaceIterator.elements_new (by rw [hlen]; omega),hlen]
    simp only [subsetSum_shift _ hs']

theorem subsetSum_shorter {layer block : ℕ} (hl : layer < n) (hb : block < 2 ^ layer) :
    subsetSum (gaoMateerPrefix F n).tail block =
      subsetSum (gaoMateerPrefix F (layer + 1)).tail block := by
  have hfirst : (gaoMateerPrefix F n).tail.take layer = (gaoMateerPrefix F (layer + 1)).tail := by
    rw [←gaoMateerPrefix_take (Nat.succ_le_of_lt hl),←drop_one,←drop_one,take_drop,
      Nat.add_comm 1 layer]
  have hlen : layer ≤ (gaoMateerPrefix F n).tail.length := by
    rw [length_tail,gaoMateerPrefix_length]
    omega
  rw [subsetSum_split _ hlen,hfirst,Nat.mod_eq_of_lt hb,Nat.div_eq_of_lt hb,subsetSum_zero,add_zero]

theorem GaoMateerPreExpanded.serves [CharP F 2] (hn : n ≤ usizeBits) :
    Serves (⟨gaoMateerPrefix F n,expand (gaoMateerPrefix F n)⟩ : GaoMateerPreExpanded F).interface n
      (gaoMateerPrefix F) fun layer => (gaoMateerPrefix F (layer + 1)).tail := by
  have htable : expand (gaoMateerPrefix F n) =
      (range (2 ^ (n - 1))).map (subsetSum (gaoMateerPrefix F n).tail) := by
    rw [expand_eq,length_tail,gaoMateerPrefix_length]
  have hpow : ∀ layer < n, 2 ^ layer ≤ 2 ^ (n - 1) := fun layer hl =>
    Nat.pow_le_pow_right Nat.two_pos (by omega)
  refine .of_subsetSums (gaoMateerPrefix_length n) (fun i hi => ?_)
    (fun layer _ => gaoMateerPrefix_tail_length layer) (fun layer hl block hb => ?_)
    fun layer hl s hs => ?_
  · change (slice (gaoMateerPrefix F n) 0 i >>= fun basis =>
      pure (⟨basis⟩ : BinarySubspace F)) = _
    rw [slice_first (Nat.zero_le i) hi]
    rfl
  · change index (expand (gaoMateerPrefix F n)) block = _
    rw [htable,index_map_range _ (hb.trans_le (hpow layer hl)),subsetSum_shorter hl hb]
  · have hrow : slice (expand (gaoMateerPrefix F n)) 0 (2 ^ layer) =
        .ok ((range (2 ^ layer)).map (subsetSum (gaoMateerPrefix F (layer + 1)).tail)) := by
      have hlen : (expand (gaoMateerPrefix F n)).length = 2 ^ (n - 1) := by
        rw [htable,length_map,length_range]
      rw [slice,hlen,require_true ⟨Nat.zero_le _,hpow layer hl⟩,ok_bind,drop_zero,htable,
        ←map_take,take_range,Nat.min_eq_left (hpow layer hl)]
      refine congrArg Except.ok (map_congr_left fun block hb => ?_)
      exact subsetSum_shorter hl (mem_range.mp hb)
    change (indexPow layer >>= fun count => slice (expand (gaoMateerPrefix F n)) 0 count >>=
      fun row => indexPow s >>= fun step => pure (stepBy step row)) = _
    rw [indexPow_ok (by omega),ok_bind,hrow,ok_bind,indexPow_ok (by omega),ok_bind,stepBy_map _ hs]
    rfl

end GaoMateer

section Trace

variable [BinaryField F]

/-- The sum of the conjugates of an element, by repeated squaring. -/
def trace (x : F) : F :=
  ((range (BinaryField.nBits F)).foldl (fun (state : F × F) _ =>
    (state.1 + state.2,state.2 ^ 2)) (0,x)).1

omit [BinaryField F] in
theorem trace_loop (x : F) (n : ℕ) : (range n).foldl (fun (state : F × F) _ =>
    (state.1 + state.2,state.2 ^ 2)) (0,x) = (conjugates n x,x ^ 2 ^ n) := by
  induction n with
  | zero => rw [range_zero,foldl_nil,conjugates_zero,pow_zero,pow_one]
  | succ n ih =>
    rw [range_succ,foldl_append,ih,foldl_cons,foldl_nil,conjugates_succ,
      ←pow_mul,←pow_succ]

theorem gaoMateerElement_zero [CharP F 2] :
    gaoMateerElement F 0 = trace (BinaryField.traceOneElement : F) := by
  obtain ⟨k,hk⟩ := BinaryField.nBits_eq (F := F)
  have hdown := descent_conjugates k (BinaryField.traceOneElement : F)
  rw [trace,trace_loop,hk,←hdown,gaoMateerElement,hk,Nat.sub_zero]
  rfl

end Trace

/-- The bits of the field, and an element of trace one. -/
instance : BinaryField GhashField.Ghash128b := ⟨128,⟨1 <<< 121⟩,7,rfl⟩

namespace GhashTrace

open GhashField

def traceBits (x : BitVec 128) : BitVec 128 × BitVec 128 :=
  (range 128).foldl (fun state _ => (state.1 ^^^ state.2,square state.2)) (0,x)

theorem traceBits_traceOne : (traceBits (1 <<< 121)).1 = 1 := by decide +kernel

theorem square_value (x : Ghash128b) : x ^ 2 = ⟨square x.value⟩ := by
  have hsquare := Ghash128b.squarings 1 x
  rwa [pow_one] at hsquare

variable (bits : BitVec 128 × BitVec 128)

def ofBits : Ghash128b × Ghash128b := (⟨bits.1⟩,⟨bits.2⟩)

theorem add_bits (a b : BitVec 128) : (⟨a⟩ : Ghash128b) + ⟨b⟩ = ⟨a ^^^ b⟩ := rfl

theorem square_bits (b : BitVec 128) : (⟨b⟩ : Ghash128b) ^ 2 = ⟨square b⟩ := square_value ⟨b⟩

theorem ofBits_step : ((ofBits bits).1 + (ofBits bits).2,(ofBits bits).2 ^ 2) =
      ofBits (bits.1 ^^^ bits.2,square bits.2) := by
  unfold ofBits
  rw [add_bits,square_bits]

theorem trace_one : trace (BinaryField.traceOneElement : Ghash128b) = 1 := by
  have hloop : (range 128).foldl (fun (state : Ghash128b × Ghash128b) _ =>
      (state.1 + state.2,state.2 ^ 2)) (ofBits (0,1 <<< 121)) = ofBits (traceBits (1 <<< 121)) :=
    foldl_hom ofBits fun bits _ => ofBits_step bits
  have hbits : BinaryField.nBits Ghash128b = 128 := rfl
  have hstart : ((0 : Ghash128b),(BinaryField.traceOneElement : Ghash128b)) =
      ofBits (0,1 <<< 121) := rfl
  rw [trace,hbits,hstart,hloop,ofBits,traceBits_traceOne]
  rfl

end GhashTrace

/-- In a field whose element has trace one, for every size below the width of an index the four
contexts of the Gao–Mateer subspace give the same answers; and the two generic contexts do over any
subspace. -/
theorem contexts_agree [BinaryField F] [DecidableEq F] [CharP F 2]
    (htrace : trace (BinaryField.traceOneElement : F) = 1) :
    (∀ n, 0 < n → n ≤ BinaryField.nBits F → n < usizeBits →
      ∃ onTheFly preExpanded genericOnTheFly genericPreExpanded domain layerBasis,
        GaoMateerOnTheFly.generate F n = .ok onTheFly ∧
        GaoMateerPreExpanded.generate F n = .ok preExpanded ∧
        GenericOnTheFly.generateFromSubspace ⟨domain n⟩ = .ok genericOnTheFly ∧
        GenericPreExpanded.generateFromSubspace ⟨domain n⟩ = .ok genericPreExpanded ∧
        Serves onTheFly.interface n domain layerBasis ∧
        Serves preExpanded.interface n domain layerBasis ∧
        Serves genericOnTheFly.interface n domain layerBasis ∧
        Serves genericPreExpanded.interface n domain layerBasis) ∧
    ∀ subspace : BinarySubspace F, 0 < subspace.dim → subspace.dim ≤ usizeBits →
      ∃ genericOnTheFly genericPreExpanded domain layerBasis,
        GenericOnTheFly.generateFromSubspace subspace = .ok genericOnTheFly ∧
        GenericPreExpanded.generateFromSubspace subspace = .ok genericPreExpanded ∧
        Serves genericOnTheFly.interface subspace.dim domain layerBasis ∧
        Serves genericPreExpanded.interface subspace.dim domain layerBasis := by
  have hunit : gaoMateerElement F 0 = 1 := by rw [gaoMateerElement_zero,htrace]
  refine ⟨fun n hpos hn hbits => ?_,fun subspace hpos hbits => ?_⟩
  · obtain ⟨evals,hevals,hrows⟩ := gaoMateer_rows hunit hn hpos
    have hbasis : gaoMateerBasis F n = .ok (gaoMateerPrefix F n) := by
      rw [gaoMateerBasis_eq,if_pos ⟨hn,hpos,hunit⟩]
      rfl
    have hgeneric : ∀ {context : DomainInterface F},
        Serves context n (Rows.domain n fun k => gaoMateerPrefix F (n - k))
          (Rows.layerBasis n fun k => gaoMateerPrefix F (n - k)) →
            Serves context n (gaoMateerPrefix F) fun layer => (gaoMateerPrefix F (layer + 1)).tail :=
      fun h => h.congr (fun i hi => gaoMateer_domain hi) fun layer hl => gaoMateer_layerBasis hl
    have hsize : (expand (gaoMateerPrefix F n)).length = 2 ^ (n - 1) := by
      rw [expand_eq,length_map,length_range,length_tail,gaoMateerPrefix_length]
    refine ⟨⟨gaoMateerPrefix F n⟩,⟨gaoMateerPrefix F n,expand (gaoMateerPrefix F n)⟩,⟨evals⟩,
      ⟨evals,_⟩,_,_,?_,?_,?_,hrows.generate_preExpanded hbits.le hevals,
      GaoMateerOnTheFly.serves hbits.le,GaoMateerPreExpanded.serves hbits.le,
      hgeneric (hrows.onTheFly hbits.le),hgeneric (hrows.preExpanded hbits.le)⟩
    · rw [GaoMateerOnTheFly.generate,hbasis]
      rfl
    · rw [GaoMateerPreExpanded.generate,hbasis,ok_bind,indexPow_ok hbits,ok_bind,
        indexPow_ok ((Nat.sub_le n 1).trans_lt hbits),ok_bind,require_true hsize]
      rfl
    · rw [GenericOnTheFly.generateFromSubspace,hevals]
      rfl
  · have hne : subspace.basis ≠ [] := length_pos_iff.mp hpos
    obtain ⟨evals,hevals,hrows⟩ := rows_of_subspace hne
    refine ⟨⟨evals⟩,⟨evals,_⟩,_,_,?_,hrows.generate_preExpanded hbits hevals,
      hrows.onTheFly hbits,hrows.preExpanded hbits⟩
    rw [GenericOnTheFly.generateFromSubspace,hevals]
    rfl

/-- Five layers over the GHASH field. -/
theorem contexts_agree_ghash :
    ∃ onTheFly preExpanded genericOnTheFly genericPreExpanded domain layerBasis,
      GaoMateerOnTheFly.generate GhashField.Ghash128b 5 = .ok onTheFly ∧
      GaoMateerPreExpanded.generate GhashField.Ghash128b 5 = .ok preExpanded ∧
      GenericOnTheFly.generateFromSubspace ⟨domain 5⟩ = .ok genericOnTheFly ∧
      GenericPreExpanded.generateFromSubspace ⟨domain 5⟩ = .ok genericPreExpanded ∧
      Serves onTheFly.interface 5 domain layerBasis ∧
      Serves preExpanded.interface 5 domain layerBasis ∧
      Serves genericOnTheFly.interface 5 domain layerBasis ∧
      Serves genericPreExpanded.interface 5 domain layerBasis :=
  (contexts_agree GhashTrace.trace_one).1 5 (by decide) (by decide) (by decide)

/-- A layer of `2 ^ 64` blocks has twiddles that no iterator goes over. -/
theorem iterTwiddles_refuses : ∃ context : GaoMateerOnTheFly GhashField.Ghash128b,
    GaoMateerOnTheFly.generate GhashField.Ghash128b 65 = .ok context ∧
      context.interface.iterTwiddles 64 0 = .error .failed := by
  have hunit : gaoMateerElement GhashField.Ghash128b 0 = 1 := by
    rw [gaoMateerElement_zero,GhashTrace.trace_one]
  have hbasis : gaoMateerBasis GhashField.Ghash128b 65 = .ok (gaoMateerPrefix _ 65) := by
    rw [gaoMateerBasis_eq,if_pos ⟨by decide,by decide,hunit⟩]
    rfl
  refine ⟨⟨gaoMateerPrefix _ 65⟩,?_,?_⟩
  · rw [GaoMateerOnTheFly.generate,hbasis]
    rfl
  · have hlen : ((gaoMateerPrefix GhashField.Ghash128b (64 + 1)).drop (1 + 0)).length = 64 := by
      rw [length_drop,gaoMateerPrefix_length]
    change (slice (gaoMateerPrefix _ 65) (1 + 0) (64 + 1) >>= fun basis =>
      BinarySubspaceIterator.new basis >>= BinarySubspaceIterator.elements) = _
    rw [slice_first (by decide) (by decide),ok_bind,BinarySubspaceIterator.new,hlen,require,
      if_neg (by decide)]
    rfl

end Binius64.Ntt
