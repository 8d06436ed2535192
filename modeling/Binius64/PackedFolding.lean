import Binius64.PackedExpansion

/-!
# Evaluation of packed multilinears

A multilinear in packed words is evaluated by pairing it with the expansion of the point.
-/

namespace Binius64.PackedFolding

open Ntt CheckedRun EqualityTensor Finset PackedExpansion
open InplaceEvaluation (Values evaluateInplaceScalars evaluateInplaceScalars_run)
open LayerChecks (extrapolateLine)
open PackedExpansion.Hypercube (tensor)
open RingSwitch (fromScalars)

variable {F : Type} [Field F] {w : ℕ}

/-- A multiplication that is reduced after the products have been summed up. -/
structure WideMul (w : ℕ) (F : Type) [Field F] where
  Output : Type
  sums : AddCommMonoid Output
  wideMul : PackedField w F → PackedField w F → Output
  reduce : Output →+ PackedField w F
  reduce_wideMul : ∀ a b, reduce (wideMul a b) = a * b

attribute [instance] WideMul.sums

/-- The trivial widening: every product is reduced at once. -/
def WideMul.eager (w : ℕ) (F : Type) [Field F] : WideMul w F where
  Output := PackedField w F
  sums := inferInstance
  wideMul a b := a * b
  reduce := AddMonoidHom.id _
  reduce_wideMul _ _ := rfl

def innerProductPacked (mul : WideMul w F) (logN : ℕ) (a b : List (PackedField w F)) :
    Except AssertFailure F := do
  require (a.length = 1 <<< (logN - w))
  require (b.length = 1 <<< (logN - w))
  let wideSum := (List.zipWith mul.wideMul a b).sum
  return ((iterSlice [mul.reduce wideSum]).take (1 <<< logN)).sum

def innerProductBuffers (mul : WideMul w F) (a b : FieldBuffer w F) : Except AssertFailure F :=
  innerProductPacked mul a.logLen a.words b.words

/-- The line through two words, lane by lane. -/
def extrapolateWords (x0 x1 z : PackedField w F) : PackedField w F := x0 + (x1 - x0) * z

def foldHighestVarInplace (values : FieldBuffer w F) (scalar : F) :
    Except AssertFailure (FieldBuffer w F) := do
  let broadcastScalar := PackedField.broadcast scalar
  let folded ← values.splitHalfMut (.zipLow fun lo hi => extrapolateWords lo hi broadcastScalar)
  folded.truncate (folded.logLen - 1)

/-- Fix the highest variable, the result in new words. -/
def foldHighestVar (values : FieldBuffer w F) (scalar : F) : Except AssertFailure (FieldBuffer w F) := do
  require (values.logLen > 0)
  let broadcastScalar := PackedField.broadcast scalar
  let (lo,hi) ← values.splitHalf
  let data := List.zipWith (fun lo hi => extrapolateWords lo hi broadcastScalar) lo.words hi.words
  FieldBuffer.new (values.logLen - 1) data

def getBit (bits : List Bool) (index : ℕ) : Except AssertFailure Bool := do
  require (index < bits.length)
  return bits.getD index false

def foldBits (tensor : FieldBuffer w F) (bits : List Bool) (valuesLogLen scalarIndex : ℕ) :
    Except AssertFailure F :=
  (List.range tensor.words.length).foldlM (fun acc k =>
    let tensorPacked := tensor.words.getD k 0
    (List.range (min (2 ^ w) tensor.len)).foldlM (fun acc l => do
      let tensorScalarIndex := k <<< w ||| l
      let bit ← getBit bits (tensorScalarIndex <<< valuesLogLen ||| scalarIndex)
      return if bit then acc + tensorPacked.get l else acc) acc) 0

def binaryFoldHigh (values tensor : FieldBuffer w F) (bits : List Bool) :
    Except AssertFailure (FieldBuffer w F) := do
  require bits.length.isPowerOfTwo
  let valuesLogLen := values.logLen
  -- below one word only the lanes of the scalars are computed
  let width := min (2 ^ w) values.len
  require (1 <<< (valuesLogLen + tensor.logLen) = bits.length)
  let words ← (List.range values.words.length).mapM fun i => do
    let lanes ← (List.range width).mapM fun j => foldBits tensor bits valuesLogLen (i <<< w ||| j)
    return fromScalars lanes
  FieldBuffer.new valuesLogLen words

def fromValues (values : List F) : Except AssertFailure (FieldBuffer w F) := do
  require values.length.isPowerOfTwo
  let words := (List.range ((values.length + 2 ^ w - 1) / 2 ^ w)).map fun i =>
    fromScalars ((values.drop (i * 2 ^ w)).take (2 ^ w))
  FieldBuffer.new values.length.log2 words

/-- Evaluate a multilinear in place, the highest variable first. -/
def evaluateInplace (evals : FieldBuffer w F) (coords : List F) : Except AssertFailure F := do
  require (coords.length = evals.logLen)
  let folded ← coords.reverse.foldlM foldHighestVarInplace evals
  require (folded.len = 1)
  match folded.get 0 with
  | some value => return value
  | none => .error .failed

/-- Evaluate a multilinear, its coefficients left alone. -/
def evaluate (mul : WideMul w F) (evals : FieldBuffer w F) (point : List F) : Except AssertFailure F := do
  require (point.length = evals.logLen)
  let firstHalfLen := min (max (point.length / 2) w) point.length
  let eqTensor ← eqIndPartialEval .oneCube (point.take firstHalfLen)
  if (point.drop firstHalfLen).isEmpty then innerProductBuffers mul evals eqTensor
  else do
    let chunks ← evals.parChunks firstHalfLen
    let scalars ← chunks.mapM fun chunk => innerProductBuffers mul chunk eqTensor
    let residual : FieldBuffer w F ← fromValues scalars
    evaluateInplace residual (point.drop firstHalfLen)

variable (buffer : FieldBuffer w F) {l n : ℕ} (mul : WideMul w F) (point : List F)
   {bits : List Bool}

omit [Field F] in
theorem sum_words {A : Type} [AddCommMonoid A] (h : ℕ → A) :
    ∑ k ∈ range buffer.words.length, ∑ l ∈ range (min (2 ^ w) buffer.len), h (k * 2 ^ w + l) =
      ∑ x ∈ range (2 ^ buffer.logLen), h x := by
  rw [FieldBuffer.len,Nat.shiftLeft_eq,one_mul]
  rcases Nat.le_total w buffer.logLen with hw | hw
  · rw [Nat.min_eq_left (Nat.pow_le_pow_right Nat.two_pos hw),←sum_range_mul,Nat.mul_comm,
      buffer.words_length_wide hw]
  · rw [Nat.min_eq_right (Nat.pow_le_pow_right Nat.two_pos hw),buffer.words_length_narrow hw,
      sum_range_one]
    simp only [Nat.zero_mul,Nat.zero_add]

theorem scalar_lane (k : ℕ) (hl : l < 2 ^ w) :
    buffer.scalar (k * 2 ^ w + l) = (buffer.words.getD k 0).get l := by
  rw [FieldBuffer.scalar,(split_bits hl).1,(split_bits hl).2]

theorem get_add (a b : PackedField w F) (hl : l < 2 ^ w) : (a + b).get l = a.get l + b.get l := by
  simp only [PackedField.get_of_lt _ hl,Pi.add_apply]

theorem get_mul (a b : PackedField w F) (hl : l < 2 ^ w) : (a * b).get l = a.get l * b.get l := by
  simp only [PackedField.get_of_lt _ hl,Pi.mul_apply]

theorem reduce_sum_zipWith {a b : List (PackedField w F)} {m : ℕ}
    (ha : a.length = m) (hb : b.length = m) (hl : l < 2 ^ w) :
    (mul.reduce (List.zipWith mul.wideMul a b).sum).get l =
      ∑ k ∈ range m, (a.getD k 0).get l * (b.getD k 0).get l := by
  induction m generalizing a b with
  | zero =>
    rw [List.length_eq_zero_iff.mp ha,List.zipWith_nil_left,List.sum_nil,map_zero,range_zero,sum_empty,
      PackedField.get_of_lt _ hl]
    rfl
  | succ m ih =>
    cases a with
    | nil => cases ha
    | cons x a =>
      cases b with
      | nil => cases hb
      | cons y b =>
        have hrest := ih (Nat.succ.inj ha) (Nat.succ.inj hb)
        rw [List.zipWith_cons_cons,List.sum_cons,map_add,mul.reduce_wideMul,get_add _ _ hl,
          get_mul _ _ hl,hrest,sum_range_succ',add_comm]
        simp only [List.getD_cons_succ,List.getD_cons_zero]

theorem innerProductBuffers_run {a b : FieldBuffer w F} (h : a.logLen = b.logLen) :
    innerProductBuffers mul a b = .ok (a.innerProduct b) := by
  have hb : b.words.length = 1 <<< (a.logLen - w) := h ▸ b.words_length
  rw [innerProductBuffers,innerProductPacked,require_true a.words_length,require_true hb,
    FieldBuffer.innerProduct,←sum_words a,sum_comm]
  simp only [bind,Except.bind,pure,Except.pure]
  have hlanes (word : PackedField w F) : ((iterSlice [word]).take (1 <<< a.logLen)).sum =
      ∑ l ∈ range (min (2 ^ w) a.len), word.get l := by
    rw [iterSlice,List.flatMap_cons,List.flatMap_nil,List.append_nil,←List.map_take,List.take_range,
      Nat.min_comm,sum_range,FieldBuffer.len]
    rw [←sum_range (fun l => word.get l)]
    rfl
  rw [hlanes]
  refine congrArg Except.ok (sum_congr rfl fun l hl => ?_)
  have hlane : l < 2 ^ w := (mem_range.mp hl).trans_le (Nat.min_le_left _ _)
  rw [reduce_sum_zipWith mul rfl (hb.trans a.words_length.symm) hlane]
  refine sum_congr rfl fun k _ => ?_
  rw [scalar_lane a k hlane,scalar_lane b k hlane]

theorem extrapolateWords_lane (a b : PackedField w F) (z : F) {y : ℕ} (hy : y < 2 ^ w) :
    (extrapolateWords a b (PackedField.broadcast z)).get y = extrapolateLine (a.get y) (b.get y) z := by
  simp only [extrapolateWords,extrapolateLine,PackedField.get_of_lt _ hy,Pi.add_apply,Pi.mul_apply,
    Pi.sub_apply,PackedField.broadcast]

theorem foldHighestVarInplace_run (values : FieldBuffer w F) (hn : values.logLen = n + 1)
    (scalar : F) :
    ∃ r, foldHighestVarInplace values scalar = .ok r ∧ r.logLen = n ∧
      ∀ x < 2 ^ n, r.scalar x = extrapolateLine (values.scalar x) (values.scalar (2 ^ n + x)) scalar := by
  obtain ⟨folded,r,hfolded,hlen,hr,hrlen,hrun⟩ := values.foldHalves_run hn
    (f := fun lo hi => extrapolateWords lo hi (PackedField.broadcast scalar))
    (g := fun lo hi => extrapolateLine lo hi scalar) fun a b y hy => extrapolateWords_lane a b scalar hy
  refine ⟨r,?_,hrlen,hrun⟩
  rw [foldHighestVarInplace,hfolded,ok_bind,hlen,Nat.add_sub_cancel,hr]

theorem foldHighestVar_run (values : FieldBuffer w F) (hn : values.logLen = n + 1) (scalar : F) :
    ∃ r, foldHighestVar values scalar = .ok r ∧ r.logLen = n ∧
      ∀ x < 2 ^ n, r.scalar x = extrapolateLine (values.scalar x) (values.scalar (2 ^ n + x)) scalar := by
  obtain ⟨lo,hi,hsplit,hlo,hhi,hlow,hhigh⟩ := values.splitHalf_run hn
  have hpos : values.logLen > 0 := by omega
  have hlast : values.logLen - 1 = n := by omega
  have hwords : lo.words.length = hi.words.length := by
    rw [lo.words_length,hi.words_length,hlo,hhi]
  have hdata : (List.zipWith (fun lo hi => extrapolateWords lo hi (PackedField.broadcast scalar))
      lo.words hi.words).length = 1 <<< (n - w) := by
    rw [List.length_zipWith,←hwords,Nat.min_self,lo.words_length,hlo]
  rw [foldHighestVar,require_true hpos,hsplit,hlast]
  simp only [bind,Except.bind,FieldBuffer.new_ok hdata]
  refine ⟨_,rfl,rfl,fun x hx => ?_⟩
  have hloWord := lo.word_lt (hlo ▸ hx)
  have hhiWord := hi.word_lt (hhi ▸ hx)
  have hlane : x % 2 ^ w < 2 ^ w := Nat.mod_lt _ (Nat.two_pow_pos w)
  rw [←hlow x hx,←hhigh x hx,FieldBuffer.scalar,FieldBuffer.scalar,FieldBuffer.scalar,
    List.getD_eq_getElem _ _ hloWord,List.getD_eq_getElem _ _ hhiWord,←extrapolateWords_lane _ _ _ hlane,
    List.getD_eq_getElem _ _ (by rw [List.length_zipWith,←hwords,Nat.min_self]; exact hloWord),
    List.getElem_zipWith]

theorem mle_extrapolate (r : F) (f : ℕ → F) :
    mle point (fun i => extrapolateLine (f i) (f (2 ^ point.length + i)) r) = mle (point ++ [r]) f := by
  have hline : (fun i => extrapolateLine (f i) (f (2 ^ point.length + i)) r) =
      fun i => (1 - r) * f i + r * f (2 ^ point.length + i) := by
    funext i
    rw [extrapolateLine]
    ring
  rw [mle_concat,hline,mle_add,mle_mul_left,mle_mul_left]

theorem foldHighestVars_run (values : FieldBuffer w F)
    (hlen : values.logLen = n + point.length) :
    ∃ r, point.reverse.foldlM foldHighestVarInplace values = .ok r ∧ r.logLen = n ∧
      ∀ x < 2 ^ n, r.scalar x = mle point fun t => values.scalar (t * 2 ^ n + x) := by
  induction point using List.reverseRecOn generalizing values with
  | nil =>
    refine ⟨values,rfl,hlen,fun x _ => ?_⟩
    rw [mle_nil,Nat.zero_mul,Nat.zero_add]
  | append_singleton point r ih =>
    rw [List.length_append,List.length_singleton,←Nat.add_assoc] at hlen
    obtain ⟨next,hnext,hnextLen,hnextRun⟩ := foldHighestVarInplace_run values hlen r
    obtain ⟨last,hlast,hlastLen,hlastRun⟩ := ih next hnextLen
    refine ⟨last,?_,hlastLen,fun x hx => ?_⟩
    · rw [List.reverse_append,List.reverse_singleton,List.singleton_append,List.foldlM_cons,hnext,ok_bind,
        hlast]
    · rw [hlastRun x hx,←mle_extrapolate]
      refine mle_congr fun t ht => ?_
      have hfits : t * 2 ^ n + x < 2 ^ (n + point.length) := by
        have hle := Nat.mul_le_mul_right (2 ^ n) (Nat.succ_le_of_lt ht)
        rw [Nat.succ_mul,←pow_add,Nat.add_comm point.length] at hle
        omega
      have hplace : 2 ^ (n + point.length) + (t * 2 ^ n + x) = (2 ^ point.length + t) * 2 ^ n + x := by
        rw [Nat.add_mul,←pow_add,Nat.add_comm point.length,Nat.add_assoc]
      rw [hnextRun _ hfits,hplace]

theorem evaluateInplace_run (evals : FieldBuffer w F) {coords : List F}
    (h : coords.length = evals.logLen) : evaluateInplace evals coords = .ok (mle coords evals.scalar) := by
  obtain ⟨r,hr,hlen,hrun⟩ := foldHighestVars_run coords evals (by rw [Nat.zero_add,h])
  have hone : r.len = 1 := by
    rw [FieldBuffer.len,hlen]
    rfl
  have hget : r.get 0 = some (r.scalar 0) := r.get_of_lt (Nat.two_pow_pos _)
  rw [evaluateInplace,require_true h,ok_bind,hr,ok_bind,require_true hone,ok_bind,hget]
  simp only [pure,Except.pure]
  rw [hrun 0 (Nat.two_pow_pos 0)]
  simp only [pow_zero,Nat.mul_one,Nat.add_zero]

theorem fromValues_run {values : List F} (hn : values.length = 2 ^ n) :
    ∃ r : FieldBuffer w F, fromValues values = .ok r ∧ r.logLen = n ∧
      ∀ x < 2 ^ n, r.scalar x = values.getD x 0 := by
  have hpower : values.length.isPowerOfTwo := ⟨n,hn⟩
  have hlog : values.length.log2 = n := by rw [hn,Nat.log2_two_pow]
  have hcount : (values.length + 2 ^ w - 1) / 2 ^ w = 1 <<< (n - w) := by
    have hpos := Nat.two_pow_pos w
    have hsome := Nat.two_pow_pos n
    have hsub : 2 ^ n + 2 ^ w - 1 = 2 ^ n - 1 + 2 ^ w := by omega
    rw [hn,hsub,Nat.add_div_right _ hpos,Nat.shiftLeft_eq,one_mul]
    rcases Nat.le_total n w with hw | hw
    · have hle : 2 ^ n ≤ 2 ^ w := Nat.pow_le_pow_right Nat.two_pos hw
      rw [Nat.div_eq_of_lt (by omega),Nat.sub_eq_zero_of_le hw,pow_zero,Nat.zero_add]
    · have hmul : 2 ^ n = 2 ^ w * 2 ^ (n - w) := by rw [←pow_add,Nat.add_sub_of_le hw]
      have hruns := Nat.two_pow_pos (n - w)
      have hlast : 2 ^ w * 2 ^ (n - w) - 1 = 2 ^ w * (2 ^ (n - w) - 1) + (2 ^ w - 1) := by
        rw [Nat.mul_sub,Nat.mul_one]
        have hle := Nat.mul_le_mul_left (2 ^ w) (Nat.succ_le_of_lt hruns)
        rw [Nat.mul_one] at hle
        omega
      rw [hmul,hlast,Nat.mul_add_div hpos,Nat.div_eq_of_lt (by omega)]
      omega
  have hwords : ((List.range ((values.length + 2 ^ w - 1) / 2 ^ w)).map fun i =>
      (fromScalars ((values.drop (i * 2 ^ w)).take (2 ^ w)) : PackedField w F)).length =
        1 <<< (n - w) := by
    rw [List.length_map,List.length_range,hcount]
  rw [fromValues,require_true hpower,ok_bind,hlog,FieldBuffer.new_ok hwords]
  refine ⟨_,rfl,rfl,fun x hx => ?_⟩
  have hlane : x % 2 ^ w < 2 ^ w := Nat.mod_lt _ (Nat.two_pow_pos w)
  rw [FieldBuffer.scalar,List.getD_eq_getElem?_getD,List.getElem?_map,hcount,
    List.getElem?_range (wordIndex_lt hx),Option.map_some,Option.getD_some,
    PackedField.get_fromScalars _ hlane,List.getD_eq_getElem?_getD,List.getElem?_take_of_lt hlane,
    List.getElem?_drop,Nat.div_add_mod',List.getD_eq_getElem?_getD]

theorem mle_append (low high : List F) (f : ℕ → F) :
    mle (low ++ high) f = mle high fun h => mle low fun l => f (h * 2 ^ low.length + l) := by
  simp only [mle]
  rw [List.length_append,pow_add,sum_range_mul]
  refine sum_congr rfl fun h _ => ?_
  rw [mul_sum]
  refine sum_congr rfl fun l hl => ?_
  rw [eqTensor_split low high rfl (mem_range.mp hl)]
  ring

theorem innerProduct_expansion {evals tensor : FieldBuffer w F} {point : List F}
    (hevals : evals.logLen = point.length)
    (htensor : ∀ x < 2 ^ point.length, tensor.scalar x = eqTensor point x) :
    evals.innerProduct tensor = mle point evals.scalar := by
  rw [FieldBuffer.innerProduct,mle,hevals]
  refine sum_congr rfl fun x hx => ?_
  rw [htensor x (mem_range.mp hx),mul_comm]

theorem eqIndPartialEval_run :
    ∃ r : FieldBuffer w F, eqIndPartialEval .oneCube point = .ok r ∧ r.logLen = point.length ∧
      ∀ x < 2 ^ point.length, r.scalar x = eqTensor point x := by
  obtain ⟨r,hr,hlen,hrun⟩ := scaledEqIndPartialEvalInto_run (w := w) .oneCube point 1 le_rfl
  refine ⟨r,hr,hlen,fun x hx => ?_⟩
  rw [hrun x hx,one_mul,tensor_oneCube]

theorem evaluate_run (evals : FieldBuffer w F) {point : List F}
    (h : point.length = evals.logLen) : evaluate mul evals point = .ok (mle point evals.scalar) := by
  generalize hcut : min (max (point.length / 2) w) point.length = firstHalfLen
  have hle : firstHalfLen ≤ point.length := hcut ▸ Nat.min_le_right _ _
  have htake : (point.take firstHalfLen).length = firstHalfLen := List.length_take_of_le hle
  obtain ⟨expansion,hexpansion,hexpansionLen,hexpansionRun⟩ :=
    eqIndPartialEval_run (w := w) (point.take firstHalfLen)
  rw [evaluate,require_true h,ok_bind,hcut]
  dsimp only
  rw [hexpansion,ok_bind]
  by_cases hempty : (point.drop firstHalfLen).isEmpty
  · have hwhole : firstHalfLen = point.length := by
      rw [List.isEmpty_iff,List.drop_eq_nil_iff] at hempty
      omega
    rw [hwhole,List.take_length] at hexpansionLen hexpansionRun
    rw [if_pos hempty,innerProductBuffers_run mul (h.symm.trans hexpansionLen.symm),
      innerProduct_expansion h.symm hexpansionRun]
  have hk : firstHalfLen ≤ evals.logLen := h ▸ hle
  obtain ⟨chunks,-,hchunks,hcount,hchunk⟩ := evals.chunks_run hk
  -- every chunk pairs with the expansion of the low coordinates
  have hvalue (i : ℕ) (hi : i < 2 ^ (evals.logLen - firstHalfLen)) : ∃ chunk,
      chunks[i]? = some chunk ∧ innerProductBuffers mul chunk expansion =
        .ok (mle (point.take firstHalfLen) fun l => evals.scalar (i * 2 ^ firstHalfLen + l)) := by
    obtain ⟨chunk,hget,hview⟩ := hchunk i hi
    obtain ⟨view,hview',hviewLen,hviewRun⟩ := evals.chunk_run hk hi
    rw [hview] at hview'
    cases hview'
    refine ⟨chunk,hget,?_⟩
    have hsame : chunk.logLen = expansion.logLen := by rw [hviewLen,hexpansionLen,htake]
    rw [innerProductBuffers_run mul hsame,
      innerProduct_expansion (hviewLen.trans htake.symm) hexpansionRun]
    exact congrArg Except.ok (mle_congr fun x hx => hviewRun x (htake ▸ hx))
  obtain ⟨scalars,hscalars⟩ : ∃ scalars,
      chunks.mapM (fun chunk => innerProductBuffers mul chunk expansion) = .ok scalars := by
    refine exists_mapM fun chunk hmem => ?_
    obtain ⟨i,hi,rfl⟩ := List.getElem_of_mem hmem
    obtain ⟨chunk,hget,hrun⟩ := hvalue i (hcount ▸ hi)
    rw [List.getElem?_eq_getElem hi] at hget
    cases hget
    exact ⟨_,hrun⟩
  obtain ⟨hsize,hentry⟩ := mapM_getElem hscalars
  obtain ⟨residual,hresidual,hresidualLen,hresidualRun⟩ :=
    fromValues_run (w := w) (hsize.trans hcount)
  have hrest : (point.drop firstHalfLen).length = residual.logLen := by
    rw [List.length_drop,hresidualLen,h]
  rw [if_neg hempty,hchunks,ok_bind,hscalars,ok_bind,hresidual,ok_bind,evaluateInplace_run residual hrest]
  have hsplit := mle_append (point.take firstHalfLen) (point.drop firstHalfLen) evals.scalar
  rw [List.take_append_drop,htake] at hsplit
  rw [hsplit]
  refine congrArg Except.ok (mle_congr fun i hi => ?_)
  rw [hrest,hresidualLen] at hi
  obtain ⟨chunk,hget,hrun⟩ := hvalue i hi
  obtain ⟨y,hy,hyget⟩ := hentry i (hcount ▸ hi)
  rw [List.getElem?_eq_getElem (hcount ▸ hi)] at hget
  cases hget
  rw [hrun] at hy
  cases hy
  rw [hresidualRun i hi,List.getD_eq_getElem?_getD,hyget,Option.getD_some]

theorem foldlM_add {ε : Type} {step : F → ℕ → Except ε F} {f : ℕ → F}
    (h : ∀ i < n, ∀ acc, step acc i = .ok (acc + f i)) (acc : F) :
    (List.range n).foldlM step acc = .ok (acc + ∑ i ∈ range n, f i) := by
  induction n with
  | zero =>
    rw [range_zero,sum_empty,add_zero]
    rfl
  | succ n ih =>
    have hrest := ih fun i hi => h i (Nat.lt_succ_of_lt hi)
    rw [List.range_succ,List.foldlM_append,hrest,ok_bind,List.foldlM_cons,h n (Nat.lt_succ_self n),ok_bind,
      sum_range_succ,add_assoc]
    rfl

theorem getBit_of_lt {index : ℕ} (h : index < bits.length) :
    getBit bits index = .ok (bits.getD index false) := by
  rw [getBit,require_true h]
  rfl

omit [Field F] in
theorem lane_lt {k : ℕ} (hk : k < buffer.words.length)
    (hl : l < min (2 ^ w) buffer.len) : k * 2 ^ w + l < 2 ^ buffer.logLen := by
  have hlane := hl.trans_le (Nat.min_le_left _ _)
  have hlen := hl.trans_le (Nat.min_le_right _ _)
  rw [FieldBuffer.len,Nat.shiftLeft_eq,one_mul] at hlen
  rcases Nat.le_total w buffer.logLen with hw | hw
  · rw [←buffer.words_length_wide hw]
    have hle := Nat.mul_le_mul_right (2 ^ w) (Nat.succ_le_of_lt hk)
    rw [Nat.succ_mul] at hle
    omega
  · rw [buffer.words_length_narrow hw,Nat.lt_one_iff] at hk
    rw [hk,Nat.zero_mul,Nat.zero_add]
    exact hlen

def bitSum (tensor : FieldBuffer w F) (bits : List Bool) (valuesLogLen x : ℕ) : F :=
  ∑ t ∈ range (2 ^ tensor.logLen), if bits.getD (t * 2 ^ valuesLogLen + x) false then tensor.scalar t else 0

theorem foldBits_run (tensor : FieldBuffer w F) {x : ℕ}
    (hbits : bits.length = 2 ^ (n + tensor.logLen)) (hx : x < 2 ^ n) :
    foldBits tensor bits n x = .ok (bitSum tensor bits n x) := by
  have hbit (k : ℕ) (hk : k < tensor.words.length) (l : ℕ) (hl : l < min (2 ^ w) tensor.len) (acc : F) :
      (do
        let tensorScalarIndex := k <<< w ||| l
        let bit ← getBit bits (tensorScalarIndex <<< n ||| x)
        return if bit then acc + (tensor.words.getD k 0).get l else acc) =
      (.ok (acc + if bits.getD ((k * 2 ^ w + l) * 2 ^ n + x) false then
        tensor.scalar (k * 2 ^ w + l) else 0) : Except AssertFailure F) := by
    have hlane : l < 2 ^ w := hl.trans_le (Nat.min_le_left _ _)
    have hindex : (k <<< w ||| l) <<< n ||| x = (k * 2 ^ w + l) * 2 ^ n + x := by
      rw [←Nat.shiftLeft_add_eq_or_of_lt hlane,←Nat.shiftLeft_add_eq_or_of_lt hx,Nat.shiftLeft_eq,
        Nat.shiftLeft_eq]
    have hfits : (k * 2 ^ w + l) * 2 ^ n + x < bits.length := by
      have hle := Nat.mul_le_mul_right (2 ^ n) (Nat.succ_le_of_lt (lane_lt tensor hk hl))
      rw [Nat.succ_mul,←pow_add,Nat.add_comm tensor.logLen,←hbits] at hle
      omega
    dsimp only
    rw [hindex,getBit_of_lt hfits,ok_bind,scalar_lane tensor k hlane]
    split
    · rfl
    · rw [add_zero]
      rfl
  rw [foldBits,bitSum,foldlM_add (fun k hk acc => foldlM_add (fun l hl acc => hbit k hk l hl acc) acc) 0,
    zero_add,sum_words tensor fun t => if bits.getD (t * 2 ^ n + x) false then tensor.scalar t else 0]

theorem binaryFoldHigh_run (values tensor : FieldBuffer w F)
    (hbits : bits.length = 2 ^ (values.logLen + tensor.logLen)) :
    ∃ r, binaryFoldHigh values tensor bits = .ok r ∧ r.logLen = values.logLen ∧
      ∀ x < 2 ^ values.logLen, r.scalar x = bitSum tensor bits values.logLen x := by
  have hlen : 1 <<< (values.logLen + tensor.logLen) = bits.length := by
    rw [hbits,Nat.shiftLeft_eq,one_mul]
  let word (i : ℕ) : PackedField w F :=
    fromScalars ((List.range (min (2 ^ w) values.len)).map fun j =>
      bitSum tensor bits values.logLen (i * 2 ^ w + j))
  have hword : ∀ i ∈ List.range values.words.length, (do
      let lanes ← (List.range (min (2 ^ w) values.len)).mapM fun j =>
        foldBits tensor bits values.logLen (i <<< w ||| j)
      return fromScalars lanes : Except AssertFailure (PackedField w F)) = .ok (word i) := by
    intro i hi
    have hlane : ∀ j ∈ List.range (min (2 ^ w) values.len),
        foldBits tensor bits values.logLen (i <<< w ||| j) =
          .ok (bitSum tensor bits values.logLen (i * 2 ^ w + j)) := by
      intro j hj
      have hj := List.mem_range.mp hj
      have hplace := lane_lt values (List.mem_range.mp hi) hj
      rw [←Nat.shiftLeft_add_eq_or_of_lt (hj.trans_le (Nat.min_le_left _ _)),Nat.shiftLeft_eq,
        foldBits_run tensor hbits hplace]
    rw [mapM_eq_map hlane]
    rfl
  have hwords : ((List.range values.words.length).map word).length = 1 <<< (values.logLen - w) := by
    rw [List.length_map,List.length_range,values.words_length]
  refine ⟨⟨values.logLen,_,hwords⟩,?_,rfl,fun x hx => ?_⟩
  · rw [binaryFoldHigh,require_true ⟨_,hbits⟩,ok_bind]
    dsimp only
    rw [require_true hlen,ok_bind,mapM_eq_map hword,ok_bind,FieldBuffer.new_ok hwords]
  · have hlow : x % 2 ^ w < min (2 ^ w) values.len := by
      rw [FieldBuffer.len,Nat.shiftLeft_eq,one_mul]
      exact lt_min (Nat.mod_lt _ (Nat.two_pow_pos w)) ((Nat.mod_le _ _).trans_lt hx)
    rw [FieldBuffer.scalar,List.getD_eq_getElem?_getD,List.getElem?_map,
      List.getElem?_range (values.word_lt hx),Option.map_some,Option.getD_some,
      PackedField.get_fromScalars _ (Nat.mod_lt _ (Nat.two_pow_pos w)),List.getD_eq_getElem?_getD,
      List.getElem?_map,List.getElem?_range hlow,Option.map_some,Option.getD_some,Nat.div_add_mod']

def widen (bit : Bool) : F := if bit then 1 else 0

theorem bitSum_eq_mle {tensor widened : FieldBuffer w F} {point : List F} {x : ℕ}
    (htensor : ∀ t < 2 ^ point.length, tensor.scalar t = eqTensor point t)
    (hlen : tensor.logLen = point.length) (hwidened : widened.logLen = n + point.length)
    (hscalars : widened.scalars = bits.map widen) (hx : x < 2 ^ n) :
    bitSum tensor bits n x = mle point fun t => widened.scalar (t * 2 ^ n + x) := by
  rw [bitSum,mle,hlen]
  refine sum_congr rfl fun t ht => ?_
  have hfits : t * 2 ^ n + x < 2 ^ widened.logLen := by
    have hle := Nat.mul_le_mul_right (2 ^ n) (Nat.succ_le_of_lt (mem_range.mp ht))
    rw [Nat.succ_mul,←pow_add,Nat.add_comm point.length,←hwidened] at hle
    omega
  have hbits : bits.length = 2 ^ widened.logLen := by
    rw [←widened.scalars_length,hscalars,List.length_map]
  rw [htensor t (mem_range.mp ht),←widened.scalars_getD hfits,hscalars,List.getD_eq_getElem?_getD,
    List.getD_eq_getElem?_getD,List.getElem?_map,List.getElem?_eq_getElem (hbits ▸ hfits),Option.getD_some,
    Option.map_some,Option.getD_some,widen,mul_ite,mul_one,mul_zero]

theorem scalars_congr {a b : FieldBuffer w F} (ha : a.logLen = n) (hb : b.logLen = n)
    (h : ∀ x < 2 ^ n, a.scalar x = b.scalar x) : a.scalars = b.scalars := by
  rw [FieldBuffer.scalars,FieldBuffer.scalars,ha,hb]
  exact List.map_congr_left fun x hx => h x (List.mem_range.mp hx)

/-- A multilinear in packed words has one value at a point, the value there of its extension, whether the
point is cut, the variables are fixed one after another in words or scalar by scalar, or the coefficients
are paired with the expansion of the point, and whatever the lanes past the scalars hold. -/
theorem evaluations_agree (mul : WideMul w F) (evals : FieldBuffer w F) :
    (∀ point : List F, point.length = evals.logLen →
      evaluate mul evals point = .ok (mle point evals.scalar) ∧
      evaluateInplace evals point = .ok (mle point evals.scalar) ∧
      (∀ values : Values F, values.len = 2 ^ evals.logLen →
        (∀ x < 2 ^ evals.logLen, values.scalars x = evals.scalar x) →
          evaluateInplaceScalars values point = .ok (mle point evals.scalar)) ∧
      ∃ expansion, eqIndPartialEval .oneCube point = .ok expansion ∧
        innerProductBuffers mul evals expansion = .ok (mle point evals.scalar)) ∧
    (evals.logLen > 0 → ∀ scalar : F, ∃ inplace fresh,
      foldHighestVarInplace evals scalar = .ok inplace ∧ foldHighestVar evals scalar = .ok fresh ∧
        inplace.logLen = evals.logLen - 1 ∧ fresh.logLen = evals.logLen - 1 ∧
        inplace.scalars = fresh.scalars) ∧
    ∀ (point : List F) (bits : List Bool) (values tensor : FieldBuffer w F),
      tensor.logLen = point.length → tensor.scalars = EqualityTensor.eqIndPartialEvalScalars point →
        evals.logLen = values.logLen + point.length → evals.scalars = bits.map widen →
          ∃ folded widened, binaryFoldHigh values tensor bits = .ok folded ∧
            point.reverse.foldlM foldHighestVarInplace evals = .ok widened ∧
            folded.logLen = values.logLen ∧ widened.logLen = values.logLen ∧
            folded.scalars = widened.scalars := by
  refine ⟨fun point hlen => ⟨evaluate_run mul evals hlen,evaluateInplace_run evals hlen,?_,?_⟩,
    fun hpos scalar => ?_,fun point bits values tensor htensorLen htensor hwidened hscalars => ?_⟩
  · intro values hvalues hsame
    have hcount : values.len = 1 <<< point.length := by
      rw [hvalues,Nat.shiftLeft_eq,one_mul,hlen]
    rw [evaluateInplaceScalars_run hcount,evaluateLoop_eq_sum]
    exact congrArg Except.ok (mle_congr fun x hx => hsame x (hlen ▸ hx))
  · obtain ⟨expansion,hexpansion,hexpansionLen,hrun⟩ := eqIndPartialEval_run (w := w) point
    refine ⟨expansion,hexpansion,?_⟩
    rw [innerProductBuffers_run mul (hlen.symm.trans hexpansionLen.symm),
      innerProduct_expansion hlen.symm hrun]
  · have hn : evals.logLen = evals.logLen - 1 + 1 := by omega
    obtain ⟨inplace,hinplace,hinplaceLen,hinplaceRun⟩ := foldHighestVarInplace_run evals hn scalar
    obtain ⟨fresh,hfresh,hfreshLen,hfreshRun⟩ := foldHighestVar_run evals hn scalar
    exact ⟨inplace,fresh,hinplace,hfresh,hinplaceLen,hfreshLen,
      scalars_congr hinplaceLen hfreshLen fun x hx => (hinplaceRun x hx).trans (hfreshRun x hx).symm⟩
  · have hentries : ∀ t < 2 ^ point.length, tensor.scalar t = eqTensor point t := by
      intro t ht
      rw [←tensor.scalars_getD (htensorLen ▸ ht),htensor,eqIndPartialEvalScalars_eq,
        List.getD_eq_getElem?_getD,List.getElem?_map,List.getElem?_range ht,Option.map_some,
        Option.getD_some]
    have hbits : bits.length = 2 ^ (values.logLen + tensor.logLen) := by
      rw [htensorLen,←hwidened,←evals.scalars_length,hscalars,List.length_map]
    obtain ⟨folded,hfolded,hfoldedLen,hfoldedRun⟩ := binaryFoldHigh_run values tensor hbits
    obtain ⟨widened,hrun,hwidenedLen,hwidenedRun⟩ := foldHighestVars_run point evals hwidened
    refine ⟨folded,widened,hfolded,hrun,hfoldedLen,hwidenedLen,
      scalars_congr hfoldedLen hwidenedLen fun x hx => ?_⟩
    rw [hfoldedRun x hx,hwidenedRun x hx,
      bitSum_eq_mle hentries htensorLen hwidened hscalars hx]

end Binius64.PackedFolding
