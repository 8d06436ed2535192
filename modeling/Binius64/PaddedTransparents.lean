import Binius64.MergedBuffers
import Binius64.MergeVerifier

/-!
# Padded transparent polynomials

The verifier extends a transparent polynomial by the equality with its block; the prover places its
values at the block.
-/

namespace Binius64.OracleChannel

open Ntt EqualityTensor Finset
open MergeVerifierChannel (blockPattern paddedTransparent)
open MergeProverChannel (padded placeBlock_run)

variable {w : ℕ} {F : Type} [Field F]

theorem sum_block {f : ℕ → F} {offset len bound : ℕ} (hfits : offset + len ≤ bound) :
    (∑ x ∈ range bound, if offset ≤ x ∧ x < offset + len then f (x - offset) else 0) =
      ∑ k ∈ range len, f k := by
  obtain ⟨rest,rfl⟩ := Nat.exists_eq_add_of_le hfits
  rw [sum_range_add,sum_range_add,sum_eq_zero,zero_add,sum_congr rfl,sum_eq_zero (s := range rest),add_zero]
  · intro x hx
    rw [if_neg (by omega)]
  · intro k hk
    have hlt := mem_range.mp hk
    rw [if_pos (by omega),Nat.add_sub_cancel_left]
  · intro x hx
    have hlt := mem_range.mp hx
    rw [if_neg (by omega)]

variable {table : FieldBuffer w F} {blockIndex combinedLogLen : ℕ} {point : List F}

theorem padded_run
    (hfits : blockIndex * 2 ^ table.logLen + 2 ^ table.logLen ≤ 2 ^ combinedLogLen) :
    ∃ r, padded table blockIndex combinedLogLen = some r ∧ r.logLen = combinedLogLen ∧ ∀ x,
      r.scalar x = if blockIndex * 2 ^ table.logLen ≤ x ∧ x < blockIndex * 2 ^ table.logLen + 2 ^ table.logLen
        then table.scalar (x - blockIndex * 2 ^ table.logLen) else 0 := by
  have hzeros : blockIndex * 2 ^ table.logLen + 2 ^ table.logLen ≤
      2 ^ (FieldBuffer.zeros combinedLogLen : FieldBuffer w F).logLen := hfits
  obtain ⟨r,hr,hlen,hscalar⟩ := placeBlock_run hzeros
  refine ⟨r,hr,hlen,fun x => ?_⟩
  rw [hscalar,FieldBuffer.zeros_scalar]

theorem innerProduct_padded {buffer combined r : FieldBuffer w F}
    (hsize : table.logLen = buffer.logLen)
    (hfits : blockIndex * 2 ^ table.logLen + 2 ^ table.logLen ≤ 2 ^ combined.logLen)
    (hr : padded table blockIndex combined.logLen = some r)
    (hcombined : ∀ k < 2 ^ buffer.logLen,
      combined.scalar (blockIndex * 2 ^ buffer.logLen + k) = buffer.scalar k) :
    r.innerProduct combined = table.innerProduct buffer := by
  obtain ⟨r',hr',hlen,hscalar⟩ := padded_run hfits
  cases hr.symm.trans hr'
  rw [FieldBuffer.innerProduct,FieldBuffer.innerProduct,hlen]
  calc ∑ x ∈ range (2 ^ combined.logLen), r.scalar x * combined.scalar x
      = ∑ x ∈ range (2 ^ combined.logLen), if blockIndex * 2 ^ table.logLen ≤ x ∧
          x < blockIndex * 2 ^ table.logLen + 2 ^ table.logLen
          then table.scalar (x - blockIndex * 2 ^ table.logLen) *
            buffer.scalar (x - blockIndex * 2 ^ table.logLen) else 0 := by
        refine sum_congr rfl fun x _ => ?_
        rw [hscalar]
        split
        · rename_i hx
          rw [hsize] at hx ⊢
          rw [←hcombined (x - blockIndex * 2 ^ buffer.logLen) (by omega),Nat.add_sub_cancel' hx.1]
        · rw [zero_mul]
    _ = _ := sum_block (f := fun k => table.scalar k * buffer.scalar k) hfits

theorem eqTensor_block {n k : ℕ} (hn : n ≤ point.length) (hk : k < 2 ^ n) :
    eqTensor point (blockIndex * 2 ^ n + k) =
      eqTensor (point.drop n) blockIndex * eqTensor (point.take n) k := by
  have hlen : (point.take n).length = n := by
    rw [List.length_take,min_eq_left hn]
  have hblock : (blockIndex * 2 ^ n + k) / 2 ^ n = blockIndex := by
    rw [mul_comm,Nat.mul_add_div (Nat.two_pow_pos n),Nat.div_eq_of_lt hk,add_zero]
  have hinside : eqTensor (point.take n) (blockIndex * 2 ^ n + k) = eqTensor (point.take n) k := by
    rw [←eqTensor_mod,hlen,Nat.mul_add_mod_self_right,Nat.mod_eq_of_lt hk]
  conv_lhs => rw [←List.take_append_drop n point]
  rw [eqTensor_append,hlen,hblock,hinside,mul_comm]

theorem mle_padded {r : FieldBuffer w F}
    (hfits : blockIndex * 2 ^ table.logLen + 2 ^ table.logLen ≤ 2 ^ combinedLogLen)
    (hr : padded table blockIndex combinedLogLen = some r)
    (hpoint : point.length = combinedLogLen) :
    r.mle point = eqTensor (point.drop table.logLen) blockIndex * table.mle (point.take table.logLen) := by
  obtain ⟨r',hr',hlen,hscalar⟩ := padded_run hfits
  cases hr.symm.trans hr'
  have hn : table.logLen ≤ point.length := by
    rw [hpoint]
    exact (Nat.pow_le_pow_iff_right Nat.one_lt_two).mp ((Nat.le_add_left _ _).trans hfits)
  rw [FieldBuffer.mle,FieldBuffer.mle,hlen,mul_sum]
  calc ∑ x ∈ range (2 ^ combinedLogLen), eqTensor point x * r.scalar x
      = ∑ x ∈ range (2 ^ combinedLogLen), if blockIndex * 2 ^ table.logLen ≤ x ∧
          x < blockIndex * 2 ^ table.logLen + 2 ^ table.logLen
          then eqTensor point (blockIndex * 2 ^ table.logLen + (x - blockIndex * 2 ^ table.logLen)) *
            table.scalar (x - blockIndex * 2 ^ table.logLen) else 0 := by
        refine sum_congr rfl fun x _ => ?_
        rw [hscalar]
        split
        · rename_i hx
          rw [Nat.add_sub_cancel' hx.1]
        · rw [mul_zero]
    _ = ∑ k ∈ range (2 ^ table.logLen),
          eqTensor point (blockIndex * 2 ^ table.logLen + k) * table.scalar k :=
        sum_block (f := fun k => eqTensor point (blockIndex * 2 ^ table.logLen + k) * table.scalar k) hfits
    _ = _ := by
        refine sum_congr rfl fun k hk => ?_
        rw [eqTensor_block hn (mem_range.mp hk),mul_assoc]

variable [DecidableEq F]

theorem eqInd_blockPattern {high : List F} {n : ℕ}
    (hhigh : high.length = combinedLogLen - n) :
    eqInd high (blockPattern n blockIndex combinedLogLen) = some (eqTensor high blockIndex) := by
  have hlen : high.length = (blockPattern n blockIndex combinedLogLen : List F).length := by
    rw [blockPattern,List.length_map,List.length_range,hhigh]
  rw [eqInd_of_length hlen,blockPattern,←hhigh]
  refine congrArg some ?_
  clear hlen hhigh
  induction high generalizing blockIndex with
  | nil => rfl
  | cons r high ih =>
    have hshift : ∀ bit, blockIndex >>> (bit + 1) &&& 1 = (blockIndex / 2) >>> bit &&& 1 := by
      intro bit
      rw [Nat.shiftRight_eq_div_pow,Nat.shiftRight_eq_div_pow,Nat.div_div_eq_div_mul,pow_succ']
    have hfirst : (blockIndex >>> 0 &&& 1 = 1) = ¬(blockIndex % 2 = 0) := by
      rw [Nat.shiftRight_zero,Nat.and_one_is_mod]
      exact propext (by omega)
    rw [List.length_cons,List.range_succ_eq_map,List.map_cons,List.map_map,List.zipWith_cons_cons,
      List.prod_cons,eqTensor,←ih]
    congr 1
    · simp only [hfirst]
      by_cases hbit : blockIndex % 2 = 0
      · rw [if_neg (not_not.mpr hbit),if_pos hbit,eqOneVar_zero]
      · rw [if_pos hbit,if_neg hbit,eqOneVar_one]
    · congr 2
      refine List.map_congr_left fun bit _ => ?_
      simp only [Function.comp_apply,Nat.succ_eq_add_one,hshift]

theorem paddedTransparent_eq {r : FieldBuffer w F}
    (hfits : blockIndex * 2 ^ table.logLen + 2 ^ table.logLen ≤ 2 ^ combinedLogLen)
    (hr : padded table blockIndex combinedLogLen = some r) {transparent : TransparentEvalFn F}
    (htransparent : ∀ low, low.length = table.logLen → transparent low = some (table.mle low))
    (hpoint : point.length = combinedLogLen) :
    paddedTransparent table.logLen blockIndex combinedLogLen transparent point = some (r.mle point) := by
  have hn : table.logLen ≤ point.length := by
    rw [hpoint]
    exact (Nat.pow_le_pow_iff_right Nat.one_lt_two).mp ((Nat.le_add_left _ _).trans hfits)
  have hhigh : (point.drop table.logLen).length = combinedLogLen - table.logLen := by
    rw [List.length_drop,hpoint]
  have hlow : transparent (point.take table.logLen) = some (table.mle (point.take table.logLen)) :=
    htransparent _ (by rw [List.length_take,min_eq_left hn])
  rw [mle_padded hfits hr hpoint,paddedTransparent,guard,if_pos hn]
  simp only [eqInd_blockPattern hhigh,hlow,bind,Option.bind,pure]

end Binius64.OracleChannel
