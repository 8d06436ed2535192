import Mathlib.Data.List.Nodup
import Mathlib.Data.Set.Lattice
import Mathlib.Order.CompletePartialOrder

/-!
# Fork-join tasks over write-once cells

A task reads and writes shared cells one at a time and may fork two tasks whose results the rest
waits for.
-/

namespace Binius64.ForkJoin

open List
open Set (disjoint_insert_left disjoint_union_left insert_union union_empty union_insert)
open Prod (fst)

inductive Task (V : Type) : Type → Type 1
  | done {α : Type} (value : α) : Task V α
  | abort {α : Type} : Task V α
  /-- Read a cell and go on with its value. -/
  | read {α : Type} (slot : ℕ) (next : V → Task V α) : Task V α
  | write {α : Type} (slot : ℕ) (value : V) (next : Task V α) : Task V α
  /-- Run two tasks at once and go on with their results. -/
  | join {α β γ : Type} (left : Task V α) (right : Task V β) (next : α → β → Task V γ) : Task V γ

variable {V : Type}

namespace Task

def andThen {α β : Type} : Task V α → (α → Task V β) → Task V β
  | done value, next => next value
  | abort, _ => abort
  | read slot rest, next => read slot fun value => (rest value).andThen next
  | write slot value rest, next => write slot value (rest.andThen next)
  | join left right rest, next => join left right fun a b => (rest a b).andThen next

/-- Many tasks at once, none of which has a result. -/
def forkAll : List (Task V Unit) → Task V Unit
  | [] => done ()
  | task :: tasks => join task (forkAll tasks) fun _ _ => done ()

end Task

/-- The cells, each written or not. -/
abbrev Memory (V : Type) := ℕ → Option V

/-- What one step does. -/
inductive Event (V : Type)
  | read (slot : ℕ) (value : V)
  | write (slot : ℕ) (value : V)
  /-- Two forked tasks are over. -/
  | joined

inductive Step : {α : Type} → Task V α → Memory V → Event V → Task V α → Memory V → Prop
  /-- A written cell gives its value, an unwritten one any. -/
  | read {α : Type} {slot : ℕ} {next : V → Task V α} {memory : Memory V} {value : V}
      (h : ∀ stored, memory slot = some stored → value = stored) :
      Step (.read slot next) memory (.read slot value) (next value) memory
  /-- A write replaces whatever was there. -/
  | write {α : Type} {slot : ℕ} {value : V} {next : Task V α} {memory : Memory V} :
      Step (.write slot value next) memory (.write slot value) next
        (Function.update memory slot (some value))
  /-- The left of two forked tasks moves. -/
  | left {α β γ : Type} {left left' : Task V α} {right : Task V β} {next : α → β → Task V γ}
      {memory memory' : Memory V} {event : Event V} (h : Step left memory event left' memory') :
      Step (.join left right next) memory event (.join left' right next) memory'
  /-- The right of two forked tasks moves. -/
  | right {α β γ : Type} {left : Task V α} {right right' : Task V β} {next : α → β → Task V γ}
      {memory memory' : Memory V} {event : Event V} (h : Step right memory event right' memory') :
      Step (.join left right next) memory event (.join left right' next) memory'
  /-- Both forked tasks are over. -/
  | joined {α β γ : Type} {a : α} {b : β} {next : α → β → Task V γ} {memory : Memory V} :
      Step (.join (.done a) (.done b) next) memory .joined (next a b) memory

/-- Any number of steps, with what they did, the earliest first. -/
inductive Run {α : Type} (task : Task V α) (memory : Memory V) :
    List (Event V) → Task V α → Memory V → Prop
  | start : Run task memory [] task memory
  | step {log : List (Event V)} {task' task'' : Task V α} {memory' memory'' : Memory V}
      {event : Event V} (h : Run task memory log task' memory')
      (hs : Step task' memory' event task'' memory'') :
      Run task memory (log ++ [event]) task'' memory''

def writes (log : List (Event V)) : List (ℕ × V) :=
  log.filterMap fun event =>
    match event with
    | .write slot value => some (slot,value)
    | _ => none

/-- A task reads only cells that hold the content, or that it has written itself, writes each of
its own cells once with the content, and gives a result after so many steps. -/
inductive Builds (content : ℕ → Option V) :
    {α : Type} → Set ℕ → Set ℕ → ℕ → Task V α → α → Prop
  | done {α : Type} {R : Set ℕ} {value : α} : Builds content R ∅ 0 (.done value) value
  /-- The cell read holds the content. -/
  | read {α : Type} {R W : Set ℕ} {count slot : ℕ} {value : V} {next : V → Task V α} {result : α}
      (hs : slot ∈ R) (hc : content slot = some value)
      (h : Builds content R W count (next value) result) :
      Builds content R W (count + 1) (.read slot next) result
  /-- The cell written was not written yet, and gets the content. -/
  | write {α : Type} {R W : Set ℕ} {count slot : ℕ} {value : V} {next : Task V α} {result : α}
      (hs : slot ∉ R) (hc : content slot = some value)
      (h : Builds content (insert slot R) W count next result) :
      Builds content R (insert slot W) (count + 1) (.write slot value next) result
  /-- Two forked tasks own different cells, and the rest may read what they wrote. -/
  | join {α β γ : Type} {R Wl Wr W : Set ℕ} {nl nr count : ℕ} {left : Task V α} {right : Task V β}
      {next : α → β → Task V γ} {a : α} {b : β} {result : γ}
      (hl : Builds content R Wl nl left a) (hr : Builds content R Wr nr right b)
      (h : Builds content (R ∪ Wl ∪ Wr) W count (next a b) result) (hd : Disjoint Wl Wr) :
      Builds content R (Wl ∪ Wr ∪ W) (nl + nr + count + 1) (.join left right next) result

namespace Builds

variable {content : ℕ → Option V} {α β : Type} {R W : Set ℕ} {count : ℕ} {task : Task V α}
  {result : α}

theorem disjoint (h : Builds content R W count task result) : Disjoint R W := by
  induction h with
  | done => exact Set.disjoint_empty _
  | read _ _ _ ih => exact ih
  | write hs _ _ ih =>
    rw [disjoint_insert_left] at ih
    exact Set.disjoint_insert_right.mpr ⟨hs,ih.2⟩
  | join _ _ _ _ ihl ihr ih =>
    rw [disjoint_union_left,disjoint_union_left] at ih
    rw [Set.disjoint_union_right,Set.disjoint_union_right]
    exact ⟨⟨ihl,ihr⟩,ih.1.1⟩

theorem mono (h : Builds content R W count task result) {R' : Set ℕ} (hR : R ⊆ R')
    (hd : Disjoint R' W) : Builds content R' W count task result := by
  induction h generalizing R' with
  | done => exact .done
  | read hs hc _ ih => exact .read (hR hs) hc (ih hR hd)
  | write hs hc h ih =>
    rw [Set.disjoint_insert_right] at hd
    have hslot := (disjoint_insert_left.mp h.disjoint).1
    exact .write hd.1 hc (ih (Set.insert_subset_insert hR) (disjoint_insert_left.mpr ⟨hslot,hd.2⟩))
  | join hl hr h hlr ihl ihr ih =>
    rw [Set.disjoint_union_right,Set.disjoint_union_right] at hd
    have hown := h.disjoint
    rw [disjoint_union_left,disjoint_union_left] at hown
    refine .join (ihl hR hd.1.1) (ihr hR hd.1.2) (ih ?_ ?_) hlr
    · exact Set.union_subset_union_left _ (Set.union_subset_union_left _ hR)
    · rw [disjoint_union_left,disjoint_union_left]
      exact ⟨⟨hd.2,hown.1.2⟩,hown.2⟩

theorem andThen (h : Builds content R W count task result) {next : α → Task V β} {W' : Set ℕ}
    {count' : ℕ} {result' : β} (h' : Builds content (R ∪ W) W' count' (next result) result') :
    Builds content R (W ∪ W') (count + count') (task.andThen next) result' := by
  induction h with
  | done =>
    rw [union_empty] at h'
    rw [Set.empty_union,Nat.zero_add]
    exact h'
  | read hs hc _ ih =>
    rw [Nat.add_right_comm]
    exact .read hs hc (ih h')
  | write hs hc _ ih =>
    rw [Nat.add_right_comm,insert_union]
    rw [union_insert,←insert_union] at h'
    exact .write hs hc (ih h')
  | join hl hr _ hlr _ _ ih =>
    rw [Nat.add_right_comm,Set.union_assoc,Nat.add_assoc _ _ count']
    rw [←Set.union_assoc,←Set.union_assoc] at h'
    exact .join hl hr (ih h') hlr

theorem forkAll {ι : Type} {tasks : ι → Task V Unit} {slot : ι → ℕ} {indices : List ι}
    (hn : (indices.map slot).Nodup)
    (h : ∀ i ∈ indices, Builds content R {slot i} count (tasks i) ()) :
    Builds content R {p | p ∈ indices.map slot} (indices.length * (count + 1))
      (Task.forkAll (indices.map tasks)) () := by
  induction indices with
  | nil =>
    have he : {p | p ∈ ([] : List ι).map slot} = ∅ := by simp
    rw [he,length_nil,Nat.zero_mul]
    exact .done
  | cons first rest ih =>
    rw [map_cons,nodup_cons] at hn
    have hrest := ih hn.2 fun i hi => h i (mem_cons_of_mem _ hi)
    have hfirst := h first mem_cons_self
    have hown : Disjoint {slot first} {p | p ∈ rest.map slot} :=
      Set.disjoint_singleton_left.mpr hn.1
    have hcells : {slot first} ∪ {p | p ∈ rest.map slot} ∪ ∅ =
        {p | p ∈ (first :: rest).map slot} := by
      ext p
      simp only [union_empty,Set.mem_union,Set.mem_singleton_iff,Set.mem_ofPred_eq,
        map_cons,mem_cons]
    have hcount : count + rest.length * (count + 1) + 0 + 1 = (first :: rest).length * (count + 1) := by
      rw [length_cons,Nat.succ_mul]
      omega
    rw [←hcells,←hcount,map_cons,Task.forkAll]
    exact @join V content Unit Unit Unit R _ _ ∅ _ _ 0 _ _ (fun _ _ => .done ()) () () () hfirst
      hrest .done hown

/-- What one event does to the cells that are there and those a task still owns. -/
def Effect (content : ℕ → Option V) (R W : Set ℕ) (memory : Memory V) (R' W' : Set ℕ)
    (memory' : Memory V) : Event V → Prop
  | .read slot value =>
    slot ∈ R ∧ content slot = some value ∧ R' = R ∧ W' = W ∧ memory' = memory
  | .write slot value =>
    slot ∈ W ∧ content slot = some value ∧ R' = insert slot R ∧ W' = W \ {slot} ∧
      memory' = Function.update memory slot (some value)
  | .joined => R' = R ∧ W' = W ∧ memory' = memory

theorem step {task' : Task V α} {memory memory' : Memory V} {event : Event V}
    (h : Builds content R W count task result) (hm : ∀ slot ∈ R, memory slot = content slot)
    (hs : Step task memory event task' memory') :
    ∃ R' W' rest, count = rest + 1 ∧ Builds content R' W' rest task' result ∧
      Effect content R W memory R' W' memory' event := by
  induction h with
  | done => cases hs
  | @read _ R W rest slot value next result hslot hc h _ =>
    cases hs with
    | read hread =>
      cases hread value ((hm slot hslot).trans hc)
      exact ⟨R,W,rest,rfl,h,hslot,hc,rfl,rfl,rfl⟩
  | @write _ R W rest slot value next result hslot hc h _ =>
    cases hs
    have hown := (disjoint_insert_left.mp h.disjoint).1
    refine ⟨_,W,rest,rfl,h,Set.mem_insert _ _,hc,rfl,?_,rfl⟩
    rw [Set.insert_sdiff_of_mem _ (Set.mem_singleton slot),Set.sdiff_singleton_eq_self hown]
  | @join _ _ _ R Wl Wr W nl nr rest left right next a b result hl hr h hlr ihl ihr _ =>
    have hown := h.disjoint
    rw [disjoint_union_left,disjoint_union_left] at hown
    cases hs with
    | joined =>
      cases hl
      cases hr
      rw [union_empty,union_empty] at h
      refine ⟨R,_,rest,by omega,h,rfl,?_,rfl⟩
      rw [Set.empty_union,Set.empty_union]
    | left hs =>
      obtain ⟨R',Wl',nl',rfl,hl',heffect⟩ := ihl hm hs
      cases event with
      | read slot value =>
        obtain ⟨hslot,hc,rfl,rfl,rfl⟩ := heffect
        exact ⟨_,_,_,by omega,.join hl' hr h hlr,hslot,hc,rfl,rfl,rfl⟩
      | joined =>
        obtain ⟨rfl,rfl,rfl⟩ := heffect
        exact ⟨_,_,_,by omega,.join hl' hr h hlr,rfl,rfl,rfl⟩
      | write slot value =>
        obtain ⟨hslot,hc,rfl,rfl,rfl⟩ := heffect
        have hright : slot ∉ Wr := Set.disjoint_left.mp hlr hslot
        have hafter : slot ∉ W := Set.disjoint_left.mp hown.1.2 hslot
        have hr' := hr.mono (Set.subset_insert slot R)
          (disjoint_insert_left.mpr ⟨hright,hr.disjoint⟩)
        have hthere : insert slot R ∪ Wl \ {slot} ∪ Wr = R ∪ Wl ∪ Wr := by
          rw [insert_union,insert_union,←insert_union,←union_insert,
            Set.insert_sdiff_singleton,Set.insert_eq_of_mem hslot]
        refine ⟨_,_,_,by omega,.join hl' hr' (hthere ▸ h) (hlr.mono_left Set.sdiff_subset),
          .inl (.inl hslot),hc,rfl,?_,rfl⟩
        rw [Set.union_sdiff_distrib,Set.union_sdiff_distrib,Set.sdiff_singleton_eq_self hright,
          Set.sdiff_singleton_eq_self hafter]
    | right hs =>
      obtain ⟨R',Wr',nr',rfl,hr',heffect⟩ := ihr hm hs
      cases event with
      | read slot value =>
        obtain ⟨hslot,hc,rfl,rfl,rfl⟩ := heffect
        exact ⟨_,_,_,by omega,.join hl hr' h hlr,hslot,hc,rfl,rfl,rfl⟩
      | joined =>
        obtain ⟨rfl,rfl,rfl⟩ := heffect
        exact ⟨_,_,_,by omega,.join hl hr' h hlr,rfl,rfl,rfl⟩
      | write slot value =>
        obtain ⟨hslot,hc,rfl,rfl,rfl⟩ := heffect
        have hleft : slot ∉ Wl := Set.disjoint_right.mp hlr hslot
        have hafter : slot ∉ W := Set.disjoint_left.mp hown.2 hslot
        have hl' := hl.mono (Set.subset_insert slot R)
          (disjoint_insert_left.mpr ⟨hleft,hl.disjoint⟩)
        have hthere : insert slot R ∪ Wl ∪ Wr \ {slot} = R ∪ Wl ∪ Wr := by
          rw [insert_union,insert_union,←union_insert,Set.insert_sdiff_singleton,
            Set.insert_eq_of_mem hslot]
        refine ⟨_,_,_,by omega,.join hl' hr' (hthere ▸ h) (hlr.mono_right Set.sdiff_subset),
          .inl (.inr hslot),hc,rfl,?_,rfl⟩
        rw [Set.union_sdiff_distrib,Set.union_sdiff_distrib,Set.sdiff_singleton_eq_self hleft,
          Set.sdiff_singleton_eq_self hafter]

theorem progress (h : Builds content R W count task result) (memory : Memory V)
    (hm : ∀ slot ∈ R, memory slot = content slot) :
    (task = .done result ∧ W = ∅ ∧ count = 0) ∨
      ∃ event task' memory', Step task memory event task' memory' := by
  induction h with
  | done => exact .inl ⟨rfl,rfl,rfl⟩
  | @read _ _ _ _ slot value next _ hslot hc _ _ =>
    refine .inr ⟨.read slot value,next value,memory,.read fun stored hs => ?_⟩
    rw [hm _ hslot,hc] at hs
    exact Option.some.inj hs
  | write _ _ _ _ => exact .inr ⟨_,_,_,.write⟩
  | join _ _ _ _ ihl ihr _ =>
    obtain ⟨rfl,-,-⟩ | ⟨event,task',memory',hs⟩ := ihl hm
    · obtain ⟨rfl,-,-⟩ | ⟨event,task',memory',hs⟩ := ihr hm
      · exact .inr ⟨_,_,_,.joined⟩
      · exact .inr ⟨_,_,_,.right hs⟩
    · exact .inr ⟨_,_,_,.left hs⟩

end Builds

/-- What has happened so far kept to the rules: each cell written at most once, with the content,
and read only when it was there. -/
structure WriteOnce (content : ℕ → Option V) (R W : Set ℕ) (log : List (Event V)) : Prop where
  once : ((writes log).map fst).Nodup
  own : ∀ slot value, (slot,value) ∈ writes log → slot ∈ W ∧ content slot = some value
  /-- A read finds the content, there from the start or written before. -/
  after : ∀ front slot value back, log = front ++ .read slot value :: back →
    content slot = some value ∧ (slot ∈ R ∨ (slot,value) ∈ writes front)

/-- Where a run of a building task stands: the cells that are there, those still to come, and the
steps still to go. -/
structure Standing {α : Type} (content : ℕ → Option V) (R W : Set ℕ) (count : ℕ) (result : α)
    (memory : Memory V) (log : List (Event V)) (task' : Task V α) (memory' : Memory V) : Prop where
  kept : WriteOnce content R W log
  /-- The cells written hold the content, the others what they held. -/
  cells : ∀ slot, memory' slot =
    if slot ∈ (writes log).map fst then content slot else memory slot
  rest : ∃ left, count = log.length + left ∧
    Builds content (R ∪ {slot | slot ∈ (writes log).map fst})
      (W \ {slot | slot ∈ (writes log).map fst}) left task' result

theorem writes_append (log log' : List (Event V)) :
    writes (log ++ log') = writes log ++ writes log' := by rw [writes,filterMap_append]; rfl

theorem append_singleton_split {α : Type} {log front back : List α} {last entry : α}
    (h : log ++ [last] = front ++ entry :: back) :
    (∃ back', log = front ++ entry :: back') ∨ front = log ∧ entry = last := by
  rcases eq_nil_or_concat' back with rfl | ⟨back',final,rfl⟩
  · obtain ⟨hf,he⟩ := append_inj' h rfl
    exact .inr ⟨hf.symm,(singleton_inj.mp he).symm⟩
  · rw [←cons_append,←append_assoc] at h
    exact .inl ⟨back',(append_inj' h rfl).1⟩

theorem Builds.run {content : ℕ → Option V} {α : Type} {R W : Set ℕ} {count : ℕ}
    {task task' : Task V α} {result : α} {memory memory' : Memory V} {log : List (Event V)}
    (h : Builds content R W count task result) (hm : ∀ slot ∈ R, memory slot = content slot)
    (hrun : Run task memory log task' memory') :
    Standing content R W count result memory log task' memory' := by
  induction hrun with
  | start =>
    have hnone : {slot | slot ∈ (writes ([] : List (Event V))).map fst} = ∅ := by
      simp [writes]
    refine ⟨⟨nodup_nil,fun slot value hw => ?_,fun front slot value back he => ?_⟩,
      fun slot => rfl,count,by simp,?_⟩
    · cases hw
    · simp at he
    · rw [hnone,union_empty,Set.sdiff_empty]
      exact h
  | @step log task' task'' memory' memory'' event _ hs ih =>
    obtain ⟨⟨honce,hown,hafter⟩,hcells,left,hcount,hrest⟩ := ih
    have hthere : ∀ slot ∈ R ∪ {slot | slot ∈ (writes log).map fst},
        memory' slot = content slot := by
      intro slot hslot
      rw [hcells]
      split
      · rfl
      · rename_i hnot
        exact hm slot (hslot.resolve_right hnot)
    obtain ⟨R',W',left',rfl,hbuilds,heffect⟩ := hrest.step hthere hs
    have hlength : (log ++ [event]).length = log.length + 1 := by simp
    cases event with
    | read slot value =>
      obtain ⟨hslot,hc,rfl,rfl,rfl⟩ := heffect
      have hw : writes (log ++ [.read slot value]) = writes log := by
        rw [writes_append]
        exact append_nil _
      refine ⟨⟨by rwa [hw],by rwa [hw],fun front slot' value' back he => ?_⟩,by rwa [hw],
        left',by omega,by rwa [hw]⟩
      obtain ⟨back',he⟩ | ⟨rfl,hlast⟩ := append_singleton_split he
      · exact hafter front slot' value' back' he
      · cases hlast
        refine ⟨hc,hslot.imp id fun hmem => ?_⟩
        obtain ⟨⟨s,v⟩,hv,rfl⟩ := mem_map.mp hmem
        have hvalue : v = value := Option.some.inj ((hown _ _ hv).2.symm.trans hc)
        exact hvalue ▸ hv
    | joined =>
      obtain ⟨rfl,rfl,rfl⟩ := heffect
      have hw : writes (log ++ [.joined]) = writes log := by
        rw [writes_append]
        exact append_nil _
      refine ⟨⟨by rwa [hw],by rwa [hw],fun front slot' value' back he => ?_⟩,by rwa [hw],
        left',by omega,by rwa [hw]⟩
      obtain ⟨back',he⟩ | ⟨rfl,hlast⟩ := append_singleton_split he
      · exact hafter front slot' value' back' he
      · cases hlast
    | write slot value =>
      obtain ⟨hslot,hc,rfl,rfl,rfl⟩ := heffect
      have hw : writes (log ++ [.write slot value]) = writes log ++ [(slot,value)] := by
        rw [writes_append]
        rfl
      have hset : {s | s ∈ ((writes log ++ [(slot,value)]).map fst)} =
          insert slot {s | s ∈ (writes log).map fst} := by
        ext s
        simp [or_comm]
      refine ⟨⟨?_,fun slot' value' hmem => ?_,fun front slot' value' back he => ?_⟩,fun s => ?_,
        left',by omega,?_⟩
      · rw [hw,map_append,map_singleton]
        refine nodup_append.mpr ⟨honce,nodup_singleton _,fun a ha b hb hab => ?_⟩
        subst hab
        cases mem_singleton.mp hb
        exact hslot.2 ha
      · rw [hw] at hmem
        rcases mem_append.mp hmem with hmem | hmem
        · exact hown slot' value' hmem
        · cases mem_singleton.mp hmem
          exact ⟨hslot.1,hc⟩
      · obtain ⟨back',he⟩ | ⟨rfl,hlast⟩ := append_singleton_split he
        · exact hafter front slot' value' back' he
        · cases hlast
      · rw [hw,map_append,map_singleton]
        by_cases heq : s = slot
        · subst heq
          rw [Function.update_self,if_pos (by simp),hc]
        · have hmem : s ∈ (writes log).map fst ++ [slot] ↔ s ∈ (writes log).map fst := by
            rw [mem_append,mem_singleton,or_iff_left heq]
          rw [Function.update_of_ne heq,hcells]
          simp only [hmem]
      · have hleft : W \ insert slot {s | s ∈ (writes log).map fst} =
            (W \ {s | s ∈ (writes log).map fst}) \ {slot} := by
          rw [Set.sdiff_sdiff,Set.union_singleton]
        rw [hw,hset,union_insert,hleft]
        exact hbuilds

theorem Standing.finished {content : ℕ → Option V} {α : Type} {R W : Set ℕ} {count : ℕ}
    {result value : α} {memory memory' : Memory V} {log : List (Event V)}
    (h : Standing content R W count result memory log (.done value) memory') :
    value = result ∧ log.length = count ∧ ∀ slot, slot ∈ (writes log).map fst ↔ slot ∈ W := by
  obtain ⟨left,hcount,hrest⟩ := h.rest
  have hmissing : ∀ missing : Set ℕ,
      Builds content (R ∪ {slot | slot ∈ (writes log).map fst}) missing left (.done value) result →
        value = result ∧ left = 0 ∧ missing = ∅ := by
    intro missing hb
    cases hb
    exact ⟨rfl,rfl,rfl⟩
  obtain ⟨hvalue,rfl,hnone⟩ := hmissing _ hrest
  refine ⟨hvalue,hcount.symm,fun slot => ⟨fun hw => ?_,fun hw => ?_⟩⟩
  · obtain ⟨⟨slot,value⟩,hentry,rfl⟩ := mem_map.mp hw
    exact (h.kept.own slot value hentry).1
  · exact Set.sdiff_eq_empty.mp hnone hw

end Binius64.ForkJoin
