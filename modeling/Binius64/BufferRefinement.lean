import Binius64.PackedBuffers

/-!
# Runs of buffer operations

Each operation that changes a buffer has a counterpart on lists.
-/

namespace Binius64.BufferRefinement

open Ntt List

variable {F : Type} {w : ℕ} [Field F]

structure ListHalvesEdit (w : ℕ) (F : Type) [Field F] extends HalvesEdit w F where
  onLists : List F → List F → List F × List F
  refines : ∀ lo hi, lo.logLen = hi.logLen →
    ((apply lo hi).1.scalars,(apply lo hi).2.scalars) = onLists lo.scalars hi.scalars

structure ListChunkEdit (w : ℕ) (F : Type) [Field F] extends ChunkEdit w F where
  onList : List F → List F
  refines : ∀ view, (apply view).scalars = onList view.scalars

/-- The operations that change a buffer. -/
inductive Command (w : ℕ) (F : Type) [Field F] where
  | set (index : ℕ) (value : F)
  /-- Lend out the halves, edit them and drop the guard. -/
  | splitHalfMut (edit : ListHalvesEdit w F)
  /-- Lend out a chunk, edit it and drop the guard. -/
  | chunkMut (logChunkSize chunkIndex : ℕ) (edit : ListChunkEdit w F)
  | zeroExtendIn (logLen : ℕ)
  /-- Grow by repeating, in a store with room for so many words. -/
  | repeatExtend (taskChunkLen capacity logLen : ℕ)
  | truncate (newLogLen : ℕ)

namespace Command

def exec : Command w F → FieldBuffer w F → Except AssertFailure (FieldBuffer w F)
  | set index value, buffer =>
    match buffer.set index value with
    | some r => .ok r
    | none => .error .failed
  | splitHalfMut edit, buffer => buffer.splitHalfMut edit.toHalvesEdit
  | chunkMut logChunkSize chunkIndex edit, buffer =>
    buffer.chunkMut logChunkSize chunkIndex edit.toChunkEdit
  | zeroExtendIn logLen, buffer => buffer.zeroExtendIn logLen
  | repeatExtend taskChunkLen capacity logLen, buffer =>
    buffer.repeatExtend taskChunkLen capacity logLen
  | truncate newLogLen, buffer => buffer.truncate newLogLen

def onList : Command w F → List F → Except AssertFailure (List F)
  | set index value, l => do
    require (index < l.length)
    return l.set index value
  | splitHalfMut edit, l => do
    require (1 < l.length)
    let (lo,hi) := edit.onLists (l.take (l.length / 2)) (l.drop (l.length / 2))
    return lo ++ hi
  | chunkMut logChunkSize chunkIndex edit, l => do
    require (chunkIndex < l.length / 2 ^ logChunkSize)
    let start := chunkIndex * 2 ^ logChunkSize
    return l.take start ++ edit.onList ((l.drop start).take (2 ^ logChunkSize)) ++
      l.drop (start + 2 ^ logChunkSize)
  | zeroExtendIn logLen, l => do
    require (l.length ≤ 2 ^ logLen)
    return l ++ replicate (2 ^ logLen - l.length) 0
  | repeatExtend _ capacity logLen, l => do
    require (l.length ≤ 2 ^ logLen)
    if l.length = 2 ^ logLen then return l
    require (1 <<< (logLen - w) ≤ capacity)
    return (replicate (2 ^ logLen / l.length) l).flatten
  | truncate newLogLen, l => .ok (l.take (2 ^ newLogLen))

end Command

theorem require_false {p : Prop} [Decidable p] (h : ¬p) : require p = .error .failed := if_neg h

theorem map_ok {ε α β : Type} {g : α → β} {a : α} : (Except.ok a : Except ε α).map g = .ok (g a) := rfl

section Scalars

variable (buffer : FieldBuffer w F)

theorem get_eq (index : ℕ) : buffer.get index = buffer.scalars[index]? := by
  by_cases hi : index < 2 ^ buffer.logLen
  · rw [buffer.get_of_lt hi,buffer.scalars_getElem? hi]
  · have hlen : ¬index < buffer.len := by
      rw [FieldBuffer.len,Nat.shiftLeft_eq,one_mul]
      exact hi
    rw [FieldBuffer.get,guard,if_neg hlen,
      getElem?_eq_none (by rw [buffer.scalars_length]; exact not_lt.mp hi)]
    rfl

theorem set_eq (index : ℕ) (value : F) : (buffer.set index value).map FieldBuffer.scalars =
    if index < buffer.scalars.length then some (buffer.scalars.set index value) else none := by
  rw [buffer.scalars_length]
  by_cases hi : index < 2 ^ buffer.logLen
  · obtain ⟨r,hr,hlen,hrun⟩ := buffer.set_of_lt hi value
    have hlist : r.scalars = buffer.scalars.set index value := by
      refine r.scalars_eq ?_ fun x hx => ?_
      · rw [length_set,buffer.scalars_length,hlen]
      · rw [hlen] at hx
        rw [hrun,getElem?_set,buffer.scalars_length,if_pos hi,buffer.scalars_getElem? hx]
        by_cases hsame : index = x
        · rw [if_pos hsame,if_pos hsame.symm]
        · rw [if_neg hsame,if_neg fun h => hsame h.symm]
    rw [hr,Option.map_some,hlist,if_pos hi]
  · have hlen : ¬index < buffer.len := by
      rw [FieldBuffer.len,Nat.shiftLeft_eq,one_mul]
      exact hi
    rw [FieldBuffer.set,guard,if_neg hlen,if_neg hi]
    rfl

theorem splitHalf_eq {n : ℕ} (hn : buffer.logLen = n + 1) :
    ∃ lo hi, buffer.splitHalf = .ok (lo,hi) ∧ lo.logLen = n ∧ hi.logLen = n ∧
      lo.scalars = buffer.scalars.take (2 ^ n) ∧ hi.scalars = buffer.scalars.drop (2 ^ n) := by
  obtain ⟨lo,hi,hsplit,hlo,hhi,hlow,hhigh⟩ := buffer.splitHalf_run hn
  have hdouble : 2 ^ buffer.logLen = 2 ^ n + 2 ^ n := by rw [hn,pow_succ,mul_two]
  have hfits : 2 ^ n ≤ 2 ^ buffer.logLen := hdouble ▸ Nat.le_add_right _ _
  refine ⟨lo,hi,hsplit,hlo,hhi,?_,?_⟩
  · have hrun : lo.scalars = (buffer.scalars.drop 0).take (2 ^ lo.logLen) :=
      FieldBuffer.scalars_run (by rw [hlo,Nat.zero_add]; exact hfits) fun x hx => by
        rw [Nat.zero_add]
        exact hlow x (hlo ▸ hx)
    rwa [drop_zero,hlo] at hrun
  · have hrun : hi.scalars = (buffer.scalars.drop (2 ^ n)).take (2 ^ hi.logLen) :=
      FieldBuffer.scalars_run (by rw [hhi,hdouble]) fun x hx => hhigh x (hhi ▸ hx)
    have hrest : (buffer.scalars.drop (2 ^ n)).length = 2 ^ n := by
      rw [length_drop,buffer.scalars_length,hdouble,Nat.add_sub_cancel]
    rwa [hhi,take_of_length_le hrest.le] at hrun

theorem scalars_append {r lo hi : FieldBuffer w F} {n : ℕ} (hr : r.logLen = n + 1)
    (hlo : lo.logLen = n) (hhi : hi.logLen = n) (hlow : ∀ x < 2 ^ n, r.scalar x = lo.scalar x)
    (hhigh : ∀ x < 2 ^ n, r.scalar (2 ^ n + x) = hi.scalar x) : r.scalars = lo.scalars ++ hi.scalars := by
  have hdouble : 2 ^ r.logLen = 2 ^ n + 2 ^ n := by rw [hr,pow_succ,mul_two]
  refine r.scalars_eq ?_ fun x hx => ?_
  · rw [length_append,lo.scalars_length,hi.scalars_length,hlo,hhi,hdouble]
  · rw [getElem?_append,lo.scalars_length,hlo]
    by_cases hxn : x < 2 ^ n
    · rw [if_pos hxn,lo.scalars_getElem? (hlo ▸ hxn),hlow x hxn]
    · have hback : 2 ^ n + (x - 2 ^ n) = x := by omega
      have hrest := hhigh (x - 2 ^ n) (by omega)
      rw [hback] at hrest
      rw [if_neg hxn,hi.scalars_getElem? (by rw [hhi]; omega),hrest]

theorem splitHalfMut_eq {n : ℕ} (hn : buffer.logLen = n + 1) (edit : HalvesEdit w F)
    {lo hi : FieldBuffer w F} (hsplit : buffer.splitHalf = .ok (lo,hi)) :
    (buffer.splitHalfMut edit).map FieldBuffer.scalars =
      .ok ((edit.apply lo hi).1.scalars ++ (edit.apply lo hi).2.scalars) := by
  obtain ⟨lo',hi',r,hsplit',hr,hlen,hlow,hhigh⟩ := buffer.splitHalfMut_run hn edit
  obtain ⟨lo'',hi'',hsplit'',hlo,hhi,-⟩ := buffer.splitHalf_run hn
  rw [hsplit] at hsplit' hsplit''
  cases hsplit'
  cases hsplit''
  rw [hr,map_ok,scalars_append hlen ((edit.low lo hi).trans hlo) ((edit.high lo hi).trans hhi) hlow hhigh]

theorem chunk_eq (k i : ℕ) : (buffer.chunk k i).map FieldBuffer.scalars =
    if k ≤ buffer.logLen ∧ i < 2 ^ (buffer.logLen - k) then
      .ok ((buffer.scalars.drop (i * 2 ^ k)).take (2 ^ k))
    else .error .failed := by
  by_cases hk : k ≤ buffer.logLen
  · by_cases hi : i < 2 ^ (buffer.logLen - k)
    · obtain ⟨view,hview,-⟩ := buffer.chunk_run hk hi
      rw [if_pos ⟨hk,hi⟩,hview,map_ok,(buffer.chunk_scalars hk hi hview).2]
    · have hcount : ¬i < 1 <<< (buffer.logLen - k) := by
        rw [Nat.shiftLeft_eq,one_mul]
        exact hi
      rw [if_neg fun h => hi h.2,FieldBuffer.chunk,require_true hk,require_false hcount]
      rfl
  · rw [if_neg fun h => hk h.1,FieldBuffer.chunk,require_false hk]
    rfl

def listChunks (k : ℕ) (l : List F) : List (List F) :=
  (range (l.length / 2 ^ k)).map fun i => (l.drop (i * 2 ^ k)).take (2 ^ k)

theorem chunks_eq {k : ℕ} (hk : k ≤ buffer.logLen) : ∃ views, buffer.chunks k = .ok views ∧
    buffer.parChunks k = .ok views ∧ views.map FieldBuffer.scalars = listChunks k buffer.scalars := by
  obtain ⟨views,hchunks,hpar,hlen,hget⟩ := buffer.chunks_run hk
  have hcount : 2 ^ buffer.logLen / 2 ^ k = 2 ^ (buffer.logLen - k) := Nat.pow_div hk Nat.two_pos
  refine ⟨views,hchunks,hpar,ext_getElem? fun i => ?_⟩
  rw [listChunks,buffer.scalars_length,hcount,getElem?_map,getElem?_map]
  by_cases hi : i < 2 ^ (buffer.logLen - k)
  · obtain ⟨view,hin,hview⟩ := hget i hi
    rw [hin,getElem?_range hi,Option.map_some,Option.map_some,
      (buffer.chunk_scalars hk hi hview).2]
  · rw [getElem?_eq_none (by omega),getElem?_eq_none (by rw [length_range]; omega)]
    rfl

theorem chunkMut_eq {k i : ℕ} (edit : ChunkEdit w F) {view : FieldBuffer w F}
    (hview : buffer.chunk k i = .ok view) :
    (buffer.chunkMut k i edit).map FieldBuffer.scalars = .ok (buffer.scalars.take (i * 2 ^ k) ++
      (edit.apply view).scalars ++ buffer.scalars.drop (i * 2 ^ k + 2 ^ k)) := by
  have hfits : k ≤ buffer.logLen ∧ i < 2 ^ (buffer.logLen - k) := by
    have h := chunk_eq buffer k i
    rw [hview] at h
    by_contra hnot
    rw [if_neg hnot] at h
    cases h
  obtain ⟨hk,hi⟩ := hfits
  obtain ⟨view',r,hview',hr,hlen,hrun⟩ := buffer.chunkMut_run hk hi edit
  rw [hview] at hview'
  cases hview'
  have hedited : (edit.apply view).logLen = k := (edit.length view).trans (buffer.chunk_scalars hk hi hview).1
  have hin := FieldBuffer.chunk_fits hk hi
  have hfront : (buffer.scalars.take (i * 2 ^ k)).length = i * 2 ^ k := by
    rw [length_take,buffer.scalars_length]
    exact Nat.min_eq_left (le_of_add_le_left hin)
  rw [hr,map_ok]
  congr 1
  refine r.scalars_eq ?_ fun x hx => ?_
  · rw [length_append,length_append,hfront,length_drop,buffer.scalars_length,
      (edit.apply view).scalars_length,hedited,hlen]
    omega
  · rw [hlen] at hx
    rw [hrun x hx,append_assoc,getElem?_append,hfront]
    by_cases hlow : x < i * 2 ^ k
    · have hne : ¬x / 2 ^ k = i := (Nat.div_lt_iff_lt_mul (Nat.two_pow_pos k)).mpr hlow |>.ne
      rw [if_pos hlow,if_neg hne,getElem?_take_of_lt hlow,buffer.scalars_getElem? hx]
    rw [if_neg hlow,getElem?_append,(edit.apply view).scalars_length,hedited]
    by_cases hmid : x - i * 2 ^ k < 2 ^ k
    · have hsum : x = i * 2 ^ k + (x - i * 2 ^ k) := by omega
      have hbits := EqualityTensor.split_bits (h := i) hmid
      rw [←hsum] at hbits
      rw [if_pos hmid,if_pos hbits.1,hbits.2,(edit.apply view).scalars_getElem? (hedited ▸ hmid)]
    · have hne : ¬x / 2 ^ k = i := by
        rintro rfl
        have := Nat.div_add_mod' x (2 ^ k)
        have := Nat.mod_lt x (Nat.two_pow_pos k)
        omega
      have hback : i * 2 ^ k + 2 ^ k + (x - i * 2 ^ k - 2 ^ k) = x := by omega
      rw [if_neg hmid,if_neg hne,getElem?_drop,hback,buffer.scalars_getElem? hx]

theorem zeroExtendIn_eq {n : ℕ} (hn : buffer.logLen ≤ n) :
    (buffer.zeroExtendIn n).map FieldBuffer.scalars =
      .ok (buffer.scalars ++ replicate (2 ^ n - 2 ^ buffer.logLen) 0) := by
  obtain ⟨r,hr,hlen,hrun⟩ := buffer.zeroExtendIn_run hn
  have hle : 2 ^ buffer.logLen ≤ 2 ^ n := Nat.pow_le_pow_right (by omega) hn
  rw [hr,map_ok]
  congr 1
  refine r.scalars_eq ?_ fun x hx => ?_
  · rw [length_append,buffer.scalars_length,length_replicate,hlen]
    omega
  · rw [hlen] at hx
    rw [hrun x hx,getElem?_append,buffer.scalars_length]
    by_cases hlow : x < 2 ^ buffer.logLen
    · rw [if_pos hlow,if_pos hlow,buffer.scalars_getElem? hlow]
    · rw [if_neg hlow,if_neg hlow,getElem?_replicate,if_pos (by omega)]

theorem repeatExtend_eq (taskChunkLen : ℕ) {capacity n : ℕ} (hn : buffer.logLen ≤ n)
    (hroom : n = buffer.logLen ∨ 1 <<< (n - w) ≤ capacity) :
    (buffer.repeatExtend taskChunkLen capacity n).map FieldBuffer.scalars =
      .ok (replicate (2 ^ n / 2 ^ buffer.logLen) buffer.scalars).flatten := by
  have hcopies : 2 ^ n / 2 ^ buffer.logLen = 2 ^ (n - buffer.logLen) := Nat.pow_div hn Nat.two_pos
  rcases hroom with rfl | hroom
  · rw [FieldBuffer.repeatExtend,dif_pos hn,if_pos rfl,map_ok,Nat.div_self (Nat.two_pow_pos _)]
    simp only [replicate_one,flatten_singleton]
  obtain ⟨r,hr,hlen,hrun⟩ := buffer.repeatExtend_run taskChunkLen hn hroom
  rw [hr,map_ok]
  congr 1
  have hsum : 2 ^ n = 2 ^ (n - buffer.logLen) * 2 ^ buffer.logLen := by
    rw [←pow_add,Nat.sub_add_cancel hn]
  have hcopy : ∀ (count x : ℕ), x < count * 2 ^ buffer.logLen →
      (replicate count buffer.scalars).flatten[x]? =
        some (buffer.scalar (x % 2 ^ buffer.logLen)) := by
    intro count
    induction count with
    | zero => intro x hx; omega
    | succ count ih =>
      intro x hx
      rw [replicate_succ,flatten_cons,getElem?_append,buffer.scalars_length]
      by_cases hlow : x < 2 ^ buffer.logLen
      · rw [if_pos hlow,buffer.scalars_getElem? hlow,Nat.mod_eq_of_lt hlow]
      · rw [Nat.succ_mul] at hx
        rw [if_neg hlow,ih _ (by omega),←Nat.mod_eq_sub_mod (not_lt.mp hlow)]
  refine r.scalars_eq ?_ fun x hx => ?_
  · rw [length_flatten,map_replicate,sum_replicate,smul_eq_mul,buffer.scalars_length,
      hcopies,hlen,hsum]
  · rw [hlen] at hx
    rw [hrun x hx,hcopies,hcopy _ _ (hsum ▸ hx)]

theorem truncate_eq (n : ℕ) :
    (buffer.truncate n).map FieldBuffer.scalars = .ok (buffer.scalars.take (2 ^ n)) := by
  obtain ⟨r,hr,hlen,hrun⟩ := buffer.truncate_run n
  have hmin : 2 ^ r.logLen = min (2 ^ n) (2 ^ buffer.logLen) := by
    rw [hlen]
    exact (pow_right_mono₀ one_le_two).map_min
  rw [hr,map_ok]
  congr 1
  refine r.scalars_eq ?_ fun x hx => ?_
  · rw [length_take,buffer.scalars_length,hmin]
  · rw [hrun x hx,getElem?_take_of_lt (by omega),buffer.scalars_getElem? (by omega)]

theorem length_le_iff (n : ℕ) : buffer.scalars.length ≤ 2 ^ n ↔ buffer.logLen ≤ n := by
  rw [buffer.scalars_length]
  exact Nat.pow_le_pow_iff_right Nat.one_lt_two

theorem exec_refines (command : Command w F) :
    (command.exec buffer).map FieldBuffer.scalars = command.onList buffer.scalars := by
  cases command with
  | set index value =>
    have h := set_eq buffer index value
    rw [Command.exec,Command.onList]
    by_cases hi : index < buffer.scalars.length
    · rw [if_pos hi] at h
      rw [require_true hi]
      cases hset : buffer.set index value with
      | none => rw [hset] at h; cases h
      | some r =>
        rw [hset,Option.map_some] at h
        rw [map_ok,Option.some.inj h]
        rfl
    · rw [if_neg hi] at h
      rw [require_false hi]
      cases hset : buffer.set index value with
      | none => rfl
      | some r => rw [hset] at h; cases h
  | splitHalfMut edit =>
    rw [Command.exec,Command.onList]
    cases hn : buffer.logLen with
    | zero =>
      have hlist : ¬1 < buffer.scalars.length := by
        rw [buffer.scalars_length,hn]
        decide
      have hpos : ¬buffer.logLen > 0 := by omega
      rw [FieldBuffer.splitHalfMut,require_false hpos,require_false hlist]
      rfl
    | succ n =>
      obtain ⟨lo,hi,hsplit,hlo,hhi,hlow,hhigh⟩ := splitHalf_eq buffer hn
      have hlist : 1 < buffer.scalars.length := by
        rw [buffer.scalars_length,hn]
        exact Nat.one_lt_two_pow (Nat.succ_ne_zero n)
      have hhalf : buffer.scalars.length / 2 = 2 ^ n := by
        rw [buffer.scalars_length,hn,pow_succ,Nat.mul_div_cancel _ Nat.two_pos]
      have hrefines := edit.refines lo hi (hlo.trans hhi.symm)
      rw [splitHalfMut_eq buffer hn edit.toHalvesEdit hsplit,require_true hlist,hhalf,←hlow,←hhigh]
      simp only [bind,Except.bind,pure,Except.pure,←hrefines]
  | chunkMut k i edit =>
    rw [Command.exec,Command.onList,buffer.scalars_length]
    by_cases hk : k ≤ buffer.logLen
    · have hcount : 2 ^ buffer.logLen / 2 ^ k = 2 ^ (buffer.logLen - k) := Nat.pow_div hk Nat.two_pos
      rw [hcount]
      by_cases hi : i < 2 ^ (buffer.logLen - k)
      · obtain ⟨view,hview,-⟩ := buffer.chunk_run hk hi
        rw [chunkMut_eq buffer edit.toChunkEdit hview,require_true hi,edit.refines,
          (buffer.chunk_scalars hk hi hview).2]
        rfl
      · have hcount' : ¬i < 1 <<< (buffer.logLen - k) := by
          rw [Nat.shiftLeft_eq,one_mul]
          exact hi
        rw [FieldBuffer.chunkMut,require_true hk,require_false hcount',require_false hi]
        rfl
    · have hnone : ¬i < 2 ^ buffer.logLen / 2 ^ k := by
        rw [Nat.div_eq_of_lt (Nat.pow_lt_pow_right Nat.one_lt_two (not_le.mp hk))]
        exact Nat.not_lt_zero i
      rw [FieldBuffer.chunkMut,require_false hk,require_false hnone]
      rfl
  | zeroExtendIn n =>
    rw [Command.exec,Command.onList]
    by_cases hn : buffer.logLen ≤ n
    · rw [zeroExtendIn_eq buffer hn,require_true ((length_le_iff buffer n).mpr hn),buffer.scalars_length]
      rfl
    · have hge : ¬n ≥ buffer.logLen := hn
      rw [FieldBuffer.zeroExtendIn,require_false hge,
        require_false fun h => hn ((length_le_iff buffer n).mp h)]
      rfl
  | repeatExtend taskChunkLen capacity n =>
    rw [Command.exec,Command.onList]
    by_cases hn : buffer.logLen ≤ n
    · have hsame : buffer.scalars.length = 2 ^ n ↔ n = buffer.logLen := by
        rw [buffer.scalars_length]
        exact ⟨fun h => (Nat.pow_right_injective le_rfl h).symm,fun h => by rw [h]⟩
      rw [require_true ((length_le_iff buffer n).mpr hn)]
      simp only [bind,Except.bind,pure,Except.pure]
      by_cases heq : n = buffer.logLen
      · rw [if_pos (hsame.mpr heq),FieldBuffer.repeatExtend,dif_pos hn,if_pos heq]
        rfl
      rw [if_neg fun h => heq (hsame.mp h)]
      by_cases hroom : 1 <<< (n - w) ≤ capacity
      · rw [repeatExtend_eq buffer taskChunkLen hn (.inr hroom),require_true hroom,buffer.scalars_length]
      · rw [FieldBuffer.repeatExtend,dif_pos hn,if_neg heq]
        simp only [require_false hroom]
        rfl
    · rw [FieldBuffer.repeatExtend,dif_neg hn,require_false fun h => hn ((length_le_iff buffer n).mp h)]
      rfl
  | truncate n => exact truncate_eq buffer n

end Scalars

theorem run_refines (commands : List (Command w F)) (buffer : FieldBuffer w F) :
    (commands.foldlM (fun b (c : Command w F) => c.exec b) buffer).map FieldBuffer.scalars =
      commands.foldlM (fun l (c : Command w F) => c.onList l) buffer.scalars := by
  induction commands generalizing buffer with
  | nil => rfl
  | cons command rest ih =>
    have hstep := exec_refines buffer command
    rw [foldlM_cons,foldlM_cons,←hstep]
    cases hexec : command.exec buffer with
    | error e => rfl
    | ok next => exact ih next

/-- Whatever the lanes past its scalars hold, a buffer acts as the list of its scalars: every read
gives what the list gives, every edit changes the part it addresses and nothing else, buffers are
equal when the lists are, and runs of operations agree. -/
theorem buffers_refine_lists [DecidableEq F] (buffer : FieldBuffer w F) :
    (∀ index, buffer.get index = buffer.scalars[index]?) ∧
    (∀ index value, (buffer.set index value).map FieldBuffer.scalars =
      if index < buffer.scalars.length then some (buffer.scalars.set index value) else none) ∧
    (∀ n, buffer.logLen = n + 1 → ∃ lo hi, buffer.splitHalf = .ok (lo,hi) ∧
      lo.logLen = n ∧ hi.logLen = n ∧
      lo.scalars = buffer.scalars.take (2 ^ n) ∧ hi.scalars = buffer.scalars.drop (2 ^ n) ∧
      ∀ edit : HalvesEdit w F, (buffer.splitHalfMut edit).map FieldBuffer.scalars =
        .ok ((edit.apply lo hi).1.scalars ++ (edit.apply lo hi).2.scalars)) ∧
    (∀ k i, (buffer.chunk k i).map FieldBuffer.scalars =
      if k ≤ buffer.logLen ∧ i < 2 ^ (buffer.logLen - k) then
        .ok ((buffer.scalars.drop (i * 2 ^ k)).take (2 ^ k))
      else .error .failed) ∧
    (∀ k ≤ buffer.logLen, ∃ views, buffer.chunks k = .ok views ∧ buffer.parChunks k = .ok views ∧
      views.map FieldBuffer.scalars = listChunks k buffer.scalars ∧
      buffer.parChunkScalars k = .ok (listChunks k buffer.scalars)) ∧
    (∀ k i (edit : ChunkEdit w F) view, buffer.chunk k i = .ok view →
      (buffer.chunkMut k i edit).map FieldBuffer.scalars = .ok (buffer.scalars.take (i * 2 ^ k) ++
        (edit.apply view).scalars ++ buffer.scalars.drop (i * 2 ^ k + 2 ^ k))) ∧
    (∀ n, buffer.logLen ≤ n → (buffer.zeroExtendIn n).map FieldBuffer.scalars =
      .ok (buffer.scalars ++ replicate (2 ^ n - 2 ^ buffer.logLen) 0)) ∧
    (∀ taskChunkLen capacity n, buffer.logLen ≤ n → n = buffer.logLen ∨ 1 <<< (n - w) ≤ capacity →
      (buffer.repeatExtend taskChunkLen capacity n).map FieldBuffer.scalars =
        .ok (replicate (2 ^ n / 2 ^ buffer.logLen) buffer.scalars).flatten) ∧
    (∀ n, (buffer.truncate n).map FieldBuffer.scalars = .ok (buffer.scalars.take (2 ^ n))) ∧
    (∀ other : FieldBuffer w F, buffer.eq other = true ↔ buffer.scalars = other.scalars) ∧
    ∀ commands : List (Command w F),
      (commands.foldlM (fun b (c : Command w F) => c.exec b) buffer).map FieldBuffer.scalars =
        commands.foldlM (fun l (c : Command w F) => c.onList l) buffer.scalars := by
  refine ⟨get_eq buffer,set_eq buffer,fun n hn => ?_,chunk_eq buffer,fun k hk => ?_,
    fun k i edit view => chunkMut_eq buffer edit,fun n => zeroExtendIn_eq buffer,
    fun taskChunkLen capacity n => repeatExtend_eq buffer taskChunkLen,truncate_eq buffer,
    fun other => ?_,fun commands => run_refines commands buffer⟩
  · obtain ⟨lo,hi,hsplit,hlo,hhi,hlow,hhigh⟩ := splitHalf_eq buffer hn
    exact ⟨lo,hi,hsplit,hlo,hhi,hlow,hhigh,fun edit => splitHalfMut_eq buffer hn edit hsplit⟩
  · obtain ⟨views,hchunks,hpar,hlists⟩ := chunks_eq buffer hk
    have hcount : 2 ^ buffer.logLen / 2 ^ k = 2 ^ (buffer.logLen - k) := Nat.pow_div hk Nat.two_pos
    refine ⟨views,hchunks,hpar,hlists,?_⟩
    rw [buffer.parChunkScalars_run hk,listChunks,buffer.scalars_length,hcount]
  · rw [buffer.eq_iff]
    refine ⟨fun h => h.2,fun h => ⟨?_,h⟩⟩
    have hlen := congrArg length h
    rw [buffer.scalars_length,other.scalars_length] at hlen
    exact Nat.pow_right_injective le_rfl hlen

end Binius64.BufferRefinement
