import Binius64.FriCodewords
import Binius64.FieldBuffer

/-!
# Laws of the encoder

The encoder is the whole transform of the padded message: a layer that pairs with zeros repeats its
cells.
-/

namespace Binius64.Ntt

open CheckedRun ButterflyNetwork EqualityTensor Finset
open Fri (place networkCodeword_place networkCodeword_congr sum_reverseBits)
open Nat (mod_eq_of_lt mod_lt shiftLeft_eq)

section Words

variable {F : Type} {w : ℕ}

def repeatWords (head : List (PackedField w F)) (tailLen run : ℕ) : List (PackedField w F) :=
  (List.range (tailLen / run)).flatMap fun i =>
    let source := (i * run) &&& (head.length - 1)
    (head.drop source).take run

theorem getElem?_chunks {α : Type} {f : ℕ → List α} {len n : ℕ} (hf : ∀ i < n, (f i).length = len)
    {j : ℕ} (hj : j < n * len) : ((List.range n).flatMap f)[j]? = (f (j / len))[j % len]? := by
  have hpos : 0 < len := Nat.pos_of_ne_zero fun h => by simp [h] at hj
  induction n with
  | zero => simp at hj
  | succ n ih =>
    have hprev : ∀ i < n, (f i).length = len := fun i hi => hf i (Nat.lt_succ_of_lt hi)
    have hlen : ((List.range n).flatMap f).length = n * len := by
      rw [List.length_flatMap,List.map_congr_left fun i hi => hprev i (List.mem_range.mp hi),
        List.map_const',List.sum_replicate,List.length_range,smul_eq_mul]
    rw [List.range_succ,List.flatMap_append,List.flatMap_cons,List.flatMap_nil,List.append_nil]
    by_cases hlow : j < n * len
    · rw [List.getElem?_append_left (hlen.symm ▸ hlow),ih hprev hlow]
    · have hge : n * len ≤ j := not_lt.mp hlow
      have hdiv : j / len = n := Nat.div_eq_of_lt_le hge hj
      have hmod : j % len = j - n * len := by rw [Nat.mod_eq_sub_mul_div,hdiv,mul_comm]
      rw [List.getElem?_append_right (hlen.symm ▸ hge),hlen,hdiv,hmod]

variable {head : List (PackedField w F)}

theorem run_length {h r : ℕ} (hhead : head.length = 2 ^ h) (hr : r ≤ h)
    (i : ℕ) : ((head.drop (i * 2 ^ r % 2 ^ h)).take (2 ^ r)).length = 2 ^ r := by
  have hmul : 2 ^ h = 2 ^ r * 2 ^ (h - r) := by rw [←pow_add,Nat.add_sub_cancel' hr]
  have hstart : i * 2 ^ r % 2 ^ h = 2 ^ r * (i % 2 ^ (h - r)) := by rw [hmul,mul_comm i,Nat.mul_mod_mul_left]
  have hfit : 2 ^ r * (i % 2 ^ (h - r)) + 2 ^ r ≤ 2 ^ h := by
    have hlt := mod_lt i (Nat.two_pow_pos (h - r))
    have hle := Nat.mul_le_mul_left (2 ^ r) (Nat.succ_le_of_lt hlt)
    rw [←hmul,Nat.mul_succ] at hle
    exact hle
  rw [List.length_take,List.length_drop,hhead,hstart]
  omega

theorem repeatWords_eq {h r : ℕ} (hhead : head.length = 2 ^ h)
    (hr : r ≤ h) (n : ℕ) : repeatWords head (n * 2 ^ h) (2 ^ r) =
      (List.range (n * 2 ^ (h - r))).flatMap fun i => (head.drop (i * 2 ^ r % 2 ^ h)).take (2 ^ r) := by
  have hruns : n * 2 ^ h / 2 ^ r = n * 2 ^ (h - r) := by
    rw [←Nat.sub_add_cancel hr,pow_add,←mul_assoc,Nat.mul_div_cancel _ (Nat.two_pow_pos r),
      Nat.add_sub_cancel]
  rw [repeatWords,hruns,hhead]
  simp only [Nat.and_two_pow_sub_one_eq_mod]

theorem repeatWords_length {h r : ℕ} (hhead : head.length = 2 ^ h)
    (hr : r ≤ h) (n : ℕ) : (repeatWords head (n * 2 ^ h) (2 ^ r)).length = n * 2 ^ h := by
  rw [repeatWords_eq hhead hr,List.length_flatMap,List.map_congr_left fun i _ => run_length hhead hr i,
    List.map_const',List.sum_replicate,List.length_range,smul_eq_mul,mul_assoc,←pow_add,
    Nat.sub_add_cancel hr]

theorem repeatWords_getElem? {h r : ℕ} (hhead : head.length = 2 ^ h)
    (hr : r ≤ h) {n j : ℕ} (hj : j < n * 2 ^ h) :
    (repeatWords head (n * 2 ^ h) (2 ^ r))[j]? = head[j % 2 ^ h]? := by
  have hmul : 2 ^ h = 2 ^ r * 2 ^ (h - r) := by rw [←pow_add,Nat.add_sub_cancel' hr]
  have hin : j < n * 2 ^ (h - r) * 2 ^ r := by
    rw [mul_assoc,mul_comm (2 ^ (h - r)),←hmul]
    exact hj
  have hplace : j / 2 ^ r * 2 ^ r % 2 ^ h + j % 2 ^ r = j % 2 ^ h := by
    rw [hmul,mul_comm (j / 2 ^ r),Nat.mul_mod_mul_left,Nat.mod_mul,add_comm]
  rw [repeatWords_eq hhead hr,getElem?_chunks (fun i _ => run_length hhead hr i) hin,List.getElem?_take,
    if_pos (mod_lt _ (Nat.two_pow_pos r)),List.getElem?_drop,hplace]

variable [Field F]

namespace FieldBuffer

def repeatedWords (taskChunkLen total : ℕ) (buffer : FieldBuffer w F) : List (PackedField w F) :=
  if buffer.logLen < w then
    -- the scalars share one word, so its lanes are cycled
    List.replicate total fun lane => buffer.scalar (lane.val % 2 ^ buffer.logLen)
  else
    let prefixLen := buffer.words.length
    let run := min prefixLen taskChunkLen.nextPowerOfTwo
    buffer.words ++ repeatWords buffer.words (total - prefixLen) run

variable (taskChunkLen : ℕ) {buffer : FieldBuffer w F} {logLen : ℕ}

theorem repeatedWords_wide
    (hw : ¬buffer.logLen < w) (hlen : buffer.logLen ≤ logLen) :
    ∃ h r, buffer.words.length = 2 ^ h ∧ h = buffer.logLen - w ∧ r ≤ h ∧
      buffer.repeatedWords taskChunkLen (1 <<< (logLen - w)) = buffer.words ++
        repeatWords buffer.words ((2 ^ (logLen - buffer.logLen) - 1) * 2 ^ h) (2 ^ r) := by
  have hwords : buffer.words.length = 2 ^ (buffer.logLen - w) := by
    rw [buffer.words_length,shiftLeft_eq,one_mul]
  obtain ⟨c,hc⟩ := Nat.isPowerOfTwo_nextPowerOfTwo taskChunkLen
  have hrun : min (2 ^ (buffer.logLen - w)) (2 ^ c) = 2 ^ min (buffer.logLen - w) c :=
    (pow_right_mono₀ one_le_two).map_min.symm
  have htail : 2 ^ (logLen - w) - 2 ^ (buffer.logLen - w) =
      (2 ^ (logLen - buffer.logLen) - 1) * 2 ^ (buffer.logLen - w) := by
    have hsum : logLen - w = logLen - buffer.logLen + (buffer.logLen - w) := by omega
    rw [Nat.sub_mul,one_mul,←pow_add,←hsum]
  refine ⟨buffer.logLen - w,min (buffer.logLen - w) c,hwords,rfl,min_le_left _ _,?_⟩
  rw [repeatedWords,if_neg hw,shiftLeft_eq,one_mul]
  simp only [hwords,hc,hrun,htail]

theorem repeatedWords_length
    (hlen : buffer.logLen ≤ logLen) :
    (buffer.repeatedWords taskChunkLen (1 <<< (logLen - w))).length = 1 <<< (logLen - w) := by
  by_cases hw : buffer.logLen < w
  · rw [repeatedWords,if_pos hw,List.length_replicate]
  · obtain ⟨h,r,hwords,hh,hr,hall⟩ := repeatedWords_wide taskChunkLen hw hlen
    have hsum : logLen - w = logLen - buffer.logLen + h := by omega
    have hpos := Nat.two_pow_pos (logLen - buffer.logLen)
    rw [hall,List.length_append,repeatWords_length hwords hr,hwords,shiftLeft_eq,one_mul,hsum,pow_add,
      Nat.sub_mul,one_mul,Nat.add_sub_cancel' (Nat.le_mul_of_pos_left _ hpos)]

/-- Grow a buffer in a store with room for so many words, repeating what it holds. -/
def repeatExtend (taskChunkLen capacity : ℕ) (buffer : FieldBuffer w F) (logLen : ℕ) :
    Except AssertFailure (FieldBuffer w F) :=
  if hlen : buffer.logLen ≤ logLen then
    if logLen = buffer.logLen then .ok buffer
    else do
      let total := 1 <<< (logLen - w)
      require (total ≤ capacity)
      return ⟨logLen,buffer.repeatedWords taskChunkLen total,repeatedWords_length taskChunkLen hlen⟩
  else .error .failed

theorem repeatedWords_scalar
    (hlen : buffer.logLen ≤ logLen) {x : ℕ} (hx : x < 2 ^ logLen) :
    ((buffer.repeatedWords taskChunkLen (1 <<< (logLen - w))).getD (x / 2 ^ w) 0).get (x % 2 ^ w) =
      buffer.scalar (x % 2 ^ buffer.logLen) := by
  have hword : x / 2 ^ w < 1 <<< (logLen - w) := wordIndex_lt hx
  by_cases hw : buffer.logLen < w
  · have hlane : x % 2 ^ w < 2 ^ w := mod_lt _ (Nat.two_pow_pos w)
    have hlow : x % 2 ^ w % 2 ^ buffer.logLen = x % 2 ^ buffer.logLen :=
      Nat.mod_mod_of_dvd x (pow_dvd_pow 2 (le_of_lt hw))
    rw [repeatedWords,if_pos hw,List.getD_eq_getElem?_getD,List.getElem?_replicate,if_pos hword,
      Option.getD_some,PackedField.get,dif_pos hlane]
    simp only [hlow]
  · obtain ⟨h,r,hwords,hh,hr,hall⟩ := repeatedWords_wide taskChunkLen hw hlen
    have hsize : 2 ^ buffer.logLen = 2 ^ w * 2 ^ h := by
      rw [←pow_add]
      congr 1
      omega
    have hplace : x % 2 ^ buffer.logLen / 2 ^ w = x / 2 ^ w % 2 ^ h := by
      rw [hsize,Nat.mod_mul_right_div_self]
    have hlane : x % 2 ^ buffer.logLen % 2 ^ w = x % 2 ^ w :=
      Nat.mod_mod_of_dvd x (hsize ▸ Dvd.intro _ rfl)
    have hread : (buffer.repeatedWords taskChunkLen (1 <<< (logLen - w)))[x / 2 ^ w]? =
        buffer.words[x / 2 ^ w % 2 ^ h]? := by
      rw [hall]
      by_cases hhead : x / 2 ^ w < buffer.words.length
      · rw [List.getElem?_append_left hhead,mod_eq_of_lt (hwords ▸ hhead)]
      · have hge : 2 ^ h ≤ x / 2 ^ w := hwords ▸ not_lt.mp hhead
        have hsum : logLen - w = logLen - buffer.logLen + h := by omega
        have hin : x / 2 ^ w - 2 ^ h < (2 ^ (logLen - buffer.logLen) - 1) * 2 ^ h := by
          rw [shiftLeft_eq,one_mul,hsum,pow_add] at hword
          rw [Nat.sub_mul,one_mul]
          omega
        rw [List.getElem?_append_right (not_lt.mp hhead),hwords,repeatWords_getElem? hwords hr hin,
          ←Nat.mod_eq_sub_mod hge]
    rw [List.getD_eq_getElem?_getD,hread,←List.getD_eq_getElem?_getD,scalar,hplace,hlane]

theorem repeatExtend_run {capacity : ℕ}
    (hlen : buffer.logLen ≤ logLen) (hroom : 1 <<< (logLen - w) ≤ capacity) :
    ∃ grown, buffer.repeatExtend taskChunkLen capacity logLen = .ok grown ∧ grown.logLen = logLen ∧
      ∀ x < 2 ^ logLen, grown.scalar x = buffer.scalar (x % 2 ^ buffer.logLen) := by
  by_cases hsame : logLen = buffer.logLen
  · refine ⟨buffer,by rw [repeatExtend,dif_pos hlen,if_pos hsame],hsame.symm,fun x hx => ?_⟩
    rw [mod_eq_of_lt (hsame ▸ hx)]
  · refine ⟨⟨logLen,buffer.repeatedWords taskChunkLen (1 <<< (logLen - w)),
      repeatedWords_length taskChunkLen hlen⟩,?_,rfl,fun x hx => repeatedWords_scalar taskChunkLen hlen hx⟩
    rw [repeatExtend,dif_pos hlen,if_neg hsame]
    simp only [require_true hroom]
    rfl

end FieldBuffer

end Words

section Layers

variable {F : Type} [Field F]

variable (t : ℕ → ℕ → F)

theorem layers_place_step {q ρ l : ℕ} (hl : l ≤ ρ) (x : Memory F) {i : ℕ}
    (hi : i < 2 ^ (q + ρ)) : layers t (q + ρ) 0 l (place q x) i =
      if i / 2 ^ q % 2 ^ (ρ - l) = 0 then x (i % 2 ^ q) else 0 := by
  induction l generalizing i with
  | zero =>
    have hcell : i / 2 ^ q < 2 ^ ρ := by
      rw [Nat.div_lt_iff_lt_mul (Nat.two_pow_pos q),mul_comm,←pow_add]
      exact hi
    rw [layers_empty t (le_refl 0),place,Nat.sub_zero,mod_eq_of_lt hcell]
    by_cases hlow : i < 2 ^ q
    · rw [if_pos hlow,if_pos (Nat.div_eq_of_lt hlow),mod_eq_of_lt hlow]
    · rw [if_neg hlow,if_neg fun h => hlow ((Nat.div_eq_zero_iff_lt (Nat.two_pow_pos q)).mp h)]
  | succ l ih =>
    obtain ⟨e,he⟩ : ∃ e, ρ - l = e + 1 := ⟨ρ - l - 1,by omega⟩
    have hnext : ρ - (l + 1) = e := by omega
    have hbit : q + ρ - 1 - l = q + e := by omega
    have hmem := mem_block_zero.mpr hi
    obtain ⟨hup,hdown⟩ := block_partner (by omega : q + e < q + ρ) hmem
    have hdiv : i / 2 ^ (q + e) = i / 2 ^ q / 2 ^ e := div_pow_add i q e
    have hprev := fun j (hj : j < 2 ^ (q + ρ)) => ih (by omega) (i := j) hj
    rw [he] at hprev
    rw [layers_concat t (Nat.zero_le l),hbit,hnext,butterfly]
    generalize hc : i / 2 ^ q = c at hdiv
    have hsplit : c % 2 ^ (e + 1) = c % 2 ^ e + 2 ^ e * (c / 2 ^ e % 2) := Nat.mod_pow_succ
    have hlt : c % 2 ^ e < 2 ^ e := mod_lt _ (Nat.two_pow_pos e)
    rcases Nat.mod_two_eq_zero_or_one (c / 2 ^ e) with heven | hodd
    · -- the partner above is a zero
      have hbelow : i / 2 ^ (q + e) % 2 = 0 := by rw [hdiv,heven]
      have hpartner : (i + 2 ^ (q + e)) / 2 ^ q = c + 2 ^ e := by
        rw [add_div_pow (Nat.le_add_right q e),hc,Nat.add_sub_cancel_left]
      have habove : (c + 2 ^ e) % 2 ^ (e + 1) ≠ 0 := by
        have hbitAbove : (c + 2 ^ e) / 2 ^ e % 2 = 1 := by
          rw [Nat.add_div_right _ (Nat.two_pow_pos e)]
          omega
        rw [Nat.mod_pow_succ,hbitAbove,mul_one]
        have hpos := Nat.two_pow_pos e
        omega
      have hsame : c % 2 ^ (e + 1) = c % 2 ^ e := by rw [hsplit,heven,mul_zero,add_zero]
      rw [if_pos hbelow,hprev i hi,hprev _ (mem_block_zero.mp (hup hbelow)),hpartner,if_neg habove,hc,hsame,
        zero_mul,add_zero]
    · -- the cell is a zero and takes what is below it
      have habove : i / 2 ^ (q + e) % 2 = 1 := by rw [hdiv,hodd]
      have hle := pow_le_of_odd habove
      have hpartner : (i - 2 ^ (q + e)) / 2 ^ q = c - 2 ^ e := by
        rw [sub_div_pow (Nat.le_add_right q e) hle,hc,Nat.add_sub_cancel_left]
      have hcell : c % 2 ^ (e + 1) ≠ 0 := by
        have hpos := Nat.two_pow_pos e
        rw [hsplit,hodd,mul_one]
        omega
      have hfit : 2 ^ e ≤ c := pow_le_of_odd hodd
      have hlower : (c - 2 ^ e) % 2 ^ (e + 1) = c % 2 ^ e := by
        obtain ⟨hquot,-⟩ := lane_sub_div hodd
        rw [Nat.mod_pow_succ,hquot,mul_zero,add_zero,←Nat.mod_eq_sub_mod hfit]
      have hoffset : (i - 2 ^ (q + e)) % 2 ^ q = i % 2 ^ q := by
        rw [pow_add] at hle ⊢
        exact Nat.sub_mul_mod hle
      have hzero : ¬i / 2 ^ (q + e) % 2 = 0 := by omega
      rw [if_neg hzero,hprev i hi,hprev _ (mem_block_zero.mp (hdown habove)),hpartner,hc,if_neg hcell,hlower,
        hoffset,zero_mul,add_zero,zero_add]

theorem layers_place {q ρ last : ℕ} (hρ : ρ ≤ last) (hlast : last ≤ q + ρ) (x : Memory F)
    {i : ℕ} (hi : i < 2 ^ (q + ρ)) : layers t (q + ρ) 0 last (place q x) i =
      layers t (q + ρ) ρ last (fun j => x (j % 2 ^ q)) i := by
  have hfirst : ∀ j ∈ block (q + ρ) 0,
      layers t (q + ρ) 0 ρ (place q x) j = x (j % 2 ^ q) := by
    intro j hj
    rw [layers_place_step t (le_refl ρ) x (mem_block_zero.mp hj),Nat.sub_self,pow_zero,Nat.mod_one,
      if_pos rfl]
  rw [←layers_append t (Nat.zero_le ρ) hρ]
  exact closed_layers (by omega) hlast _ _ hfirst i (mem_block_zero.mpr hi)

variable {lane : ℕ}

theorem layers_lanes {n first last b : ℕ} (hl : last ≤ n) (x : Memory F)
    (hlane : lane < 2 ^ b) (i : ℕ) : layers t (n + b) first last x (i * 2 ^ b + lane) =
      layers t n first last (fun j => x (j * 2 ^ b + lane)) i := by
  induction b generalizing lane x with
  | zero =>
    rw [pow_zero] at hlane ⊢
    have hzero : lane = 0 := by omega
    simp only [hzero,mul_one,add_zero]
  | succ b ih =>
    rw [pow_succ] at hlane
    have hcell : ∀ j, j * 2 ^ (b + 1) + lane = 2 * (j * 2 ^ b + lane / 2) + lane % 2 := by
      intro j
      have hdouble : j * 2 ^ (b + 1) = 2 * (j * 2 ^ b) := by ring
      omega
    have hbit : lane % 2 < 2 := mod_lt _ (by decide)
    rw [hcell,←add_assoc,layers_lane t (by omega) x hbit,ih _ (by omega)]
    simp only [hcell]

omit [Field F] in
theorem laneCell_lt {n b i : ℕ} (hi : i < 2 ^ n) (hlane : lane < 2 ^ b) :
    i * 2 ^ b + lane < 2 ^ (n + b) := by
  have hle := Nat.mul_le_mul_right (2 ^ b) (Nat.succ_le_of_lt hi)
  rw [Nat.succ_mul] at hle
  rw [pow_add]
  omega

theorem reverseBits_lanes (k i : ℕ) {b : ℕ} (hlane : lane < 2 ^ b) :
    reverseBits ((i * 2 ^ b + lane) % 2 ^ (k + b)) (k + b) =
      reverseBits lane b * 2 ^ k + reverseBits (i % 2 ^ k) k := by
  induction b generalizing lane with
  | zero =>
    rw [pow_zero] at hlane
    have hzero : lane = 0 := by omega
    rw [hzero,pow_zero,mul_one,add_zero,add_zero,reverseBits,zero_mul,zero_add]
  | succ b ih =>
    rw [pow_succ] at hlane
    have hcell : i * 2 ^ (b + 1) + lane = 2 * (i * 2 ^ b + lane / 2) + lane % 2 := by
      have hdouble : i * 2 ^ (b + 1) = 2 * (i * 2 ^ b) := by ring
      omega
    have hbit : lane % 2 < 2 := mod_lt _ (by decide)
    rw [hcell,←add_assoc,reverseBits_lane _ _ hbit,ih (by omega),reverseBits,pow_add]
    ring

theorem networkCodeword_lane (k ρ : ℕ) (m : Memory F) {b : ℕ} (hlane : lane < 2 ^ b)
    (i : ℕ) : networkCodeword t k ρ b m (i * 2 ^ b + lane) =
      networkCodeword t k ρ 0 (fun x => m (reverseBits lane b * 2 ^ k + x)) i := by
  have hsize : k + b + ρ = k + ρ + b := by omega
  rw [networkCodeword,networkCodeword,hsize,layers_lanes t (le_refl _) _ hlane]
  simp only [reverseBits_lanes _ _ hlane,add_zero]

end Layers

section Encoder

variable {F : Type} [Field F] [BinaryField F] [DecidableEq F]

def ReedSolomonCode.encodeBatchTranspose (code : ReedSolomonCode) (ntt : AdditiveNtt F) (weights : Buffer F)
    (logBatchSize : ℕ) : Except AssertFailure (Buffer F) := do
  let domain ← ntt.subspace code.logLen
  let subspace ← code.subspace F
  require (domain.basis = subspace.basis)
  require (weights.logLen = code.logLen + logBatchSize)
  let weights' ← transposeTransform ntt.toDomainContext weights.logLen code.logInvRate logBatchSize
    weights.scalars
  let logMsgLen := code.logDimension + logBatchSize
  let folded := (List.range (1 <<< (weights.logLen - logMsgLen))).foldl (fun (accumulator : Memory F) chunk =>
    fun i => accumulator i + weights' (chunk * 2 ^ logMsgLen + i)) 0
  return (⟨logMsgLen,folded⟩ : Buffer F).bitReversePacked

omit [BinaryField F] [DecidableEq F] in
theorem sum_chunks (weights : Memory F) (len n i : ℕ) :
    (List.range n).foldl (fun (accumulator : Memory F) chunk =>
      fun i => accumulator i + weights (chunk * len + i)) 0 i =
        ∑ chunk ∈ range n, weights (chunk * len + i) := by
  induction n with
  | zero => rfl
  | succ n ih => rw [List.range_succ,List.foldl_append,List.foldl_cons,List.foldl_nil,sum_range_succ,ih]

omit [BinaryField F] [DecidableEq F] in
theorem folded_adjoint (weights m : Memory F) (q ρ : ℕ) :
    ∑ i ∈ range (2 ^ q), (∑ chunk ∈ range (2 ^ ρ), weights (chunk * 2 ^ q + reverseBits i q)) * m i =
      ∑ j ∈ range (2 ^ (q + ρ)), weights j * m (reverseBits (j % 2 ^ q) q) := by
  rw [sum_reverseBits,pow_add,sum_range_mul,sum_comm]
  refine sum_congr rfl fun i hi => ?_
  have hlt := mem_range.mp hi
  rw [reverseBits_reverseBits hlt,sum_mul]
  refine sum_congr rfl fun chunk _ => ?_
  rw [mul_comm chunk,Nat.mul_add_mod,mod_eq_of_lt hlt]

/-- The zero-padded input of the whole transform. -/
def paddedMessage (data : Buffer F) : Memory F := place data.logLen data.bitReversePacked.scalars

/-- A message of a longer code: every block of the batch is padded with zeros. -/
def paddedBlocks (k η : ℕ) (m : Memory F) : Memory F := fun x =>
  if x % 2 ^ (k + η) < 2 ^ k then m (x / 2 ^ (k + η) * 2 ^ k + x % 2 ^ (k + η)) else 0

variable {ntt : AdditiveNtt F}

omit [DecidableEq F] in
theorem encodeCheck {k ρ : ℕ} (h : Admits ntt ⟨k,ρ⟩) (b skipEarly : ℕ)
    (hearly : skipEarly ≤ ρ) : inputCheck ntt.toDomainContext (k + b + ρ) skipEarly b = .ok () := by
  have hdomain : k + ρ ≤ ntt.logDomainSize := h.domain
  rw [inputCheck,require_true (by omega),ok_bind,require_true (by omega)]

omit [BinaryField F] [DecidableEq F] in
theorem reference_layers {logD skipEarly skipLate : ℕ} {x y : Memory F}
    (hcheck : inputCheck ntt.toDomainContext logD skipEarly skipLate = .ok ())
    (hrun : neighborsLastReference ntt.toDomainContext logD skipEarly skipLate x = .ok y) {i : ℕ}
    (hi : i < 2 ^ logD) : y i = layers ntt.twiddle logD skipEarly (logD - skipLate) x i := by
  obtain ⟨f,hf,hcomputes⟩ := neighborsLastReference_performs ntt.toDomainContext hcheck
  have hsame := (hf x).symm.trans hrun
  rw [←Except.ok.inj hsame]
  exact (hcomputes x i).1 (mem_block_zero.mpr hi)

omit [DecidableEq F] in
theorem wholeTransform {k ρ b : ℕ} (h : Admits ntt ⟨k,ρ⟩) {data : Buffer F}
    (hlen : data.logLen = k + b) :
    ∃ whole, neighborsLastReference ntt.toDomainContext (k + b + ρ) 0 b (paddedMessage data) = .ok whole ∧
      ∀ i < 2 ^ (k + b + ρ), whole i = networkCodeword ntt.twiddle k ρ b data.scalars i := by
  have hcheck := encodeCheck h b 0 (Nat.zero_le ρ)
  obtain ⟨f,hf,-⟩ := neighborsLastReference_performs ntt.toDomainContext hcheck
  refine ⟨_,hf _,fun i hi => ?_⟩
  have hlast : k + b + ρ - b = k + ρ := by omega
  rw [reference_layers hcheck (hf _) hi,hlast,paddedMessage,hlen,
    layers_place _ (Nat.le_add_left ρ k) (by omega) _ hi,networkCodeword]
  congr 1
  funext j
  rw [bitReversePacked_apply data (hlen ▸ mod_lt j (Nat.two_pow_pos _)),hlen]

theorem encodeBatchTranspose_run {k ρ b : ℕ} (h : Admits ntt ⟨k,ρ⟩) {weights : Buffer F}
    (hlen : weights.logLen = k + ρ + b) (m : Memory F) :
    ∃ induced, ReedSolomonCode.encodeBatchTranspose ⟨k,ρ⟩ ntt weights b = .ok induced ∧
      induced.logLen = k + b ∧ ∑ i ∈ range (2 ^ (k + b)), induced.scalars i * m i =
        ∑ j ∈ range (2 ^ (k + b + ρ)), weights.scalars j * networkCodeword ntt.twiddle k ρ b m j := by
  have hcheck := encodeCheck h b ρ (le_refl ρ)
  have hsize : weights.logLen = k + b + ρ := by omega
  have hcode : weights.logLen = (⟨k,ρ⟩ : ReedSolomonCode).logLen + b := hlen
  obtain ⟨transposed,forward,hback,hforward,hadjoint⟩ := transposeTransform_adjoint ntt.toDomainContext hcheck
    weights.scalars fun j => m (reverseBits (j % 2 ^ (k + b)) (k + b))
  have hchunks : 1 <<< (weights.logLen - (k + b)) = 2 ^ ρ := by
    rw [shiftLeft_eq,one_mul,hsize,Nat.add_sub_cancel_left]
  refine ⟨Buffer.bitReversePacked ⟨k + b,fun i => ∑ chunk ∈ range (2 ^ ρ),
    transposed (chunk * 2 ^ (k + b) + i)⟩,?_,rfl,?_⟩
  · have hfolded := funext fun i => sum_chunks transposed (2 ^ (k + b)) (2 ^ ρ) i
    rw [←hsize] at hback
    rw [ReedSolomonCode.encodeBatchTranspose,AdditiveNtt.subspace,require_true h.domain]
    simp only [ok_bind,pure_bind,codeSubspace_ok h,require_true h.basis,require_true hcode,hback,hchunks,
      hfolded]
    rfl
  · have hread : ∀ i ∈ range (2 ^ (k + b)), (Buffer.bitReversePacked ⟨k + b,fun i =>
        ∑ chunk ∈ range (2 ^ ρ), transposed (chunk * 2 ^ (k + b) + i)⟩).scalars i * m i =
          (∑ chunk ∈ range (2 ^ ρ), transposed (chunk * 2 ^ (k + b) + reverseBits i (k + b))) * m i := by
      intro i hi
      rw [bitReversePacked_apply _ (mem_range.mp hi)]
    rw [sum_congr rfl hread,folded_adjoint,hadjoint]
    refine sum_congr rfl fun j hj => ?_
    have hlast : k + b + ρ - b = k + ρ := by omega
    rw [reference_layers hcheck hforward (mem_range.mp hj),hlast,networkCodeword]

omit [BinaryField F] [DecidableEq F] in
theorem paddedBlocks_block (k η c : ℕ) (m : Memory F) {x : ℕ} (hx : x < 2 ^ (k + η)) :
    paddedBlocks k η m (c * 2 ^ (k + η) + x) = place k (fun x => m (c * 2 ^ k + x)) x := by
  rw [paddedBlocks,place,mul_comm c,Nat.mul_add_mod,mod_eq_of_lt hx,
    Nat.mul_add_div (Nat.two_pow_pos _),Nat.div_eq_of_lt hx,add_zero]

omit [BinaryField F] [DecidableEq F] in
theorem networkCodeword_paddedBlocks (t : ℕ → ℕ → F) (k ρ η : ℕ) {b lane : ℕ} (hlane : lane < 2 ^ b)
    (m : Memory F) (j : ℕ) :
    networkCodeword t (k + η) ρ b (paddedBlocks k η m) (j * 2 ^ b + lane) =
      networkCodeword t k ρ b m ((j >>> η) * 2 ^ b + lane) := by
  have hblock : ∀ x < 2 ^ (k + η + 0), paddedBlocks k η m (reverseBits lane b * 2 ^ (k + η) + x) =
      place k (fun x => m (reverseBits lane b * 2 ^ k + x)) x := fun x hx =>
    paddedBlocks_block k η _ m hx
  rw [networkCodeword_lane t _ _ _ hlane,networkCodeword_lane t _ _ _ hlane,
    networkCodeword_congr t (k + η) ρ 0 hblock,networkCodeword_place,Nat.shiftRight_eq_div_pow]

/-- Over the domain of the code the encoder returns the whole transform of the padded message, however
the copies are packed; its lanes are the codewords of the blocks, a padded batch repeats its symbols,
and the transposed encoder is its adjoint. -/
theorem encoding_laws {ntt : AdditiveNtt F} {code : ReedSolomonCode} (h : Admits ntt code) {data : Buffer F}
    {b : ℕ} (hlen : data.logLen = code.logDimension + b) :
    ∃ output, code.encodeBatch ntt data b = .ok output ∧ output.logLen = code.logLen + b ∧
      (∃ repeated, data.bitReversePacked.repeatExtend output.logLen = .ok repeated ∧
        ∀ (w taskChunkLen capacity : ℕ) (words : FieldBuffer w F), words.logLen = data.logLen →
          (∀ i < 2 ^ data.logLen, words.scalar i = data.bitReversePacked.scalars i) →
          1 <<< (output.logLen - w) ≤ capacity →
          ∃ grown, words.repeatExtend taskChunkLen capacity output.logLen = .ok grown ∧
            grown.logLen = output.logLen ∧ ∀ i < 2 ^ output.logLen, grown.scalar i = repeated.scalars i) ∧
      (∃ whole, neighborsLastReference ntt.toDomainContext output.logLen 0 b (paddedMessage data) =
        .ok whole ∧ ∀ i < 2 ^ output.logLen, output.scalars i = whole i) ∧
      (∀ lane < 2 ^ b, ∃ plain, code.encodeBatch ntt ⟨code.logDimension,fun x =>
        data.scalars (reverseBits lane b * 2 ^ code.logDimension + x)⟩ 0 = .ok plain ∧
          ∀ i < 2 ^ code.logLen, output.scalars (i * 2 ^ b + lane) = plain.scalars i) ∧
      (∀ η, Admits ntt ⟨code.logDimension + η,code.logInvRate⟩ →
        ∃ lifted, ReedSolomonCode.encodeBatch ⟨code.logDimension + η,code.logInvRate⟩ ntt
          ⟨code.logDimension + η + b,paddedBlocks code.logDimension η data.scalars⟩ b = .ok lifted ∧
            ∀ j < 2 ^ (code.logLen + η), ∀ lane < 2 ^ b,
              lifted.scalars (j * 2 ^ b + lane) = output.scalars ((j >>> η) * 2 ^ b + lane)) ∧
      ∀ weights : Buffer F, weights.logLen = code.logLen + b →
        ∃ induced, code.encodeBatchTranspose ntt weights b = .ok induced ∧
          induced.logLen = data.logLen ∧
            ∑ i ∈ range (2 ^ data.logLen), induced.scalars i * data.scalars i =
              ∑ j ∈ range (2 ^ output.logLen), weights.scalars j * output.scalars j := by
  obtain ⟨k,ρ⟩ := code
  have hsum : (⟨k,ρ⟩ : ReedSolomonCode).logLen = k + ρ := rfl
  have hsize : (⟨k,ρ⟩ : ReedSolomonCode).logLen + b = k + b + ρ := by
    rw [hsum]
    omega
  obtain ⟨output,hrun,hlog,hvalue⟩ := encodeBatch_run h hlen
  simp only at hlen hlog hvalue ⊢
  rw [hlog] at hvalue
  refine ⟨output,hrun,hlog.trans hsize.symm,?_,?_,fun lane hlane => ?_,fun η hη => ?_,
    fun weights hweights => ?_⟩
  · have hgrow : data.logLen ≤ output.logLen := by omega
    refine ⟨⟨output.logLen,fun i => data.bitReversePacked.scalars (i % 2 ^ data.logLen)⟩,?_,?_⟩
    · have hgrow' : data.bitReversePacked.logLen ≤ output.logLen := hgrow
      rw [Buffer.repeatExtend,require_true hgrow']
      rfl
    · intro w taskChunkLen capacity words hwords hscalars hroom
      obtain ⟨grown,hgrown,hgrownLen,hread⟩ :=
        words.repeatExtend_run taskChunkLen (hwords.trans_le hgrow) hroom
      refine ⟨grown,hgrown,hgrownLen,fun i hi => ?_⟩
      rw [hread i hi,hwords]
      exact hscalars _ (mod_lt _ (Nat.two_pow_pos _))
  · obtain ⟨whole,hwhole,hsame⟩ := wholeTransform h hlen
    rw [hlog]
    exact ⟨whole,hwhole,fun i hi => (hvalue i hi).trans (hsame i hi).symm⟩
  · obtain ⟨plain,hplain,hplainLen,hread⟩ :=
      @encodeBatch_run F _ _ _ ntt ⟨k,ρ⟩ h ⟨k,fun x => data.scalars (reverseBits lane b * 2 ^ k + x)⟩ 0 rfl
    refine ⟨plain,hplain,fun i hi => ?_⟩
    rw [hvalue _ (hsize ▸ laneCell_lt hi hlane),networkCodeword_lane _ _ _ _ hlane]
    exact (hread i (hplainLen ▸ hi)).symm
  · obtain ⟨lifted,hlifted,hliftedLen,hread⟩ :=
      @encodeBatch_run F _ _ _ ntt _ hη ⟨k + η + b,paddedBlocks k η data.scalars⟩ b rfl
    refine ⟨lifted,hlifted,fun j hj lane hlane => ?_⟩
    have hlarge : (⟨k,ρ⟩ : ReedSolomonCode).logLen + η + b = k + η + b + ρ := by omega
    have hsymbol : j >>> η < 2 ^ (⟨k,ρ⟩ : ReedSolomonCode).logLen := by
      rw [Nat.shiftRight_eq_div_pow,Nat.div_lt_iff_lt_mul (Nat.two_pow_pos η),←pow_add]
      exact hj
    simp only at hliftedLen hread
    rw [hliftedLen] at hread
    rw [hread _ (hlarge ▸ laneCell_lt hj hlane),hvalue _ (hsize ▸ laneCell_lt hsymbol hlane),
      networkCodeword_paddedBlocks _ _ _ _ hlane]
  · obtain ⟨induced,hinduced,hinducedLen,hadjoint⟩ := encodeBatchTranspose_run h hweights data.scalars
    rw [hlen,hlog]
    refine ⟨induced,hinduced,hinducedLen,hadjoint.trans (sum_congr rfl fun j hj => ?_)⟩
    rw [hvalue j (mem_range.mp hj)]

/-- Two lanes of one symbol, over the whole field of four elements. -/
theorem encoding_laws_twoSymbols : ∃ output,
    ReedSolomonCode.encodeBatch ⟨0,1⟩ quaternaryNtt twoSymbols 1 = .ok output ∧
      ∃ whole, neighborsLastReference quaternaryNtt.toDomainContext output.logLen 0 1
        (paddedMessage twoSymbols) = .ok whole ∧ ∀ i < 2 ^ output.logLen, output.scalars i = whole i := by
  have hadmits : Admits quaternaryNtt ⟨0,1⟩ := ⟨by decide,by decide,by decide,by decide,rfl⟩
  obtain ⟨output,hrun,-,-,hwhole,-⟩ := @encoding_laws _ _ _ _ quaternaryNtt ⟨0,1⟩ hadmits twoSymbols 1 rfl
  exact ⟨output,hrun,hwhole⟩

end Encoder

end Binius64.Ntt
