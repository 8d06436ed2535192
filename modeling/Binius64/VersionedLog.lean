import Mathlib.Data.List.Basic

/-!
# Versioned logs

Cells whose version a write raises by one, and a log with a row for every version of every cell.
-/

namespace Binius64.VersionedLog

open List
open Function (update update_of_ne update_self)

/-- One access to a cell: a read at a version, or a write that makes one. -/
structure Event (α : Type*) where
  isWrite : Bool
  cell : ℕ
  ver : ℕ
  val : α

structure Cells (α : Type*) where
  ver : ℕ → ℕ
  val : ℕ → α

variable {α : Type*}

variable (m : Cells α)

def Cells.apply (e : Event α) : Cells α :=
  if e.isWrite then ⟨update m.ver e.cell e.ver,update m.val e.cell e.val⟩ else m

/-- Reads name the current version, writes the next one. -/
def Follows : Cells α → List (Event α) → Prop
  | _,[] => True
  | m,e::es => e.ver = m.ver e.cell + e.isWrite.toNat ∧ Follows (m.apply e) es

def ReadsHold : Cells α → List (Event α) → Prop
  | _,[] => True
  | m,e::es => (e.isWrite = false → e.val = m.val e.cell) ∧ ReadsHold (m.apply e) es

def row (rows cell ver : ℕ) : ℕ := cell * rows + ver

def Event.row (rows : ℕ) (e : Event α) : ℕ := VersionedLog.row rows e.cell e.ver

/-- The log after a run's writes. -/
def record (rows : ℕ) (log : List α) (es : List (Event α)) : List α :=
  es.foldl (fun log e => if e.isWrite then log.set (e.row rows) e.val else log) log

theorem row_inj {rows c v c' v' : ℕ} (hv : v < rows) (hv' : v' < rows) :
    row rows c v = row rows c' v' ↔ c = c' ∧ v = v' := by
  constructor
  · intro h
    rw [row,row] at h
    have hpos : 0 < rows := Nat.lt_of_le_of_lt (Nat.zero_le v) hv
    have hdiv : (c * rows + v) / rows = (c' * rows + v') / rows := by rw [h]
    have hmod : (c * rows + v) % rows = (c' * rows + v') % rows := by rw [h]
    rw [Nat.mul_comm c,Nat.mul_comm c',Nat.mul_add_div hpos,Nat.mul_add_div hpos,
      Nat.div_eq_of_lt hv,Nat.div_eq_of_lt hv',Nat.add_zero,Nat.add_zero] at hdiv
    rw [Nat.mul_comm c,Nat.mul_comm c',Nat.mul_add_mod,Nat.mul_add_mod,Nat.mod_eq_of_lt hv,
      Nat.mod_eq_of_lt hv'] at hmod
    exact ⟨hdiv,hmod⟩
  · rintro ⟨rfl,rfl⟩
    rfl

theorem row_lt {n rows c v : ℕ} (hc : c < n) (hv : v < rows) : row rows c v < n * rows := by
  calc row rows c v < c * rows + rows := Nat.add_lt_add_left hv _
    _ = (c + 1) * rows := (Nat.succ_mul c rows).symm
    _ ≤ n * rows := Nat.mul_le_mul_right rows hc

/-- Every access of a run has a cell of the log and a version with a row. -/
structure Fits (n rows : ℕ) (es : List (Event α)) : Prop where
  cell : ∀ e ∈ es, e.cell < n
  ver : ∀ e ∈ es, e.ver < rows

theorem Fits.nil (n rows : ℕ) : Fits n rows ([] : List (Event α)) where
  cell _ he := absurd he not_mem_nil
  ver _ he := absurd he not_mem_nil

theorem Fits.cons {n rows : ℕ} {e : Event α} {es : List (Event α)} (hcell : e.cell < n)
    (hver : e.ver < rows) (h : Fits n rows es) : Fits n rows (e::es) where
  cell := forall_mem_cons.mpr ⟨hcell,h.cell⟩
  ver := forall_mem_cons.mpr ⟨hver,h.ver⟩

theorem Fits.append {n rows : ℕ} {es es' : List (Event α)} (h : Fits n rows es)
    (h' : Fits n rows es') : Fits n rows (es ++ es') where
  cell e he := (mem_append.mp he).elim (h.cell e) (h'.cell e)
  ver e he := (mem_append.mp he).elim (h.ver e) (h'.ver e)

theorem Fits.tail {n rows : ℕ} {e : Event α} {es : List (Event α)} (h : Fits n rows (e::es)) :
    Fits n rows es where
  cell e' he := h.cell e' (mem_cons_of_mem _ he)
  ver e' he := h.ver e' (mem_cons_of_mem _ he)

def Cells.run (es : List (Event α)) : Cells α := es.foldl Cells.apply m

theorem follows_append (es es' : List (Event α)) :
    Follows m (es ++ es') ↔ Follows m es ∧ Follows (m.run es) es' := by
  induction es generalizing m with
  | nil => exact ⟨fun h => ⟨trivial,h⟩,fun h => h.2⟩
  | cons e es ih =>
    rw [cons_append,Follows,Follows,ih,and_assoc]
    rfl

theorem readsHold_append (es es' : List (Event α)) :
    ReadsHold m (es ++ es') ↔ ReadsHold m es ∧ ReadsHold (m.run es) es' := by
  induction es generalizing m with
  | nil => exact ⟨fun h => ⟨trivial,h⟩,fun h => h.2⟩
  | cons e es ih =>
    rw [cons_append,ReadsHold,ReadsHold,ih,and_assoc]
    rfl

theorem ver_le_apply {m : Cells α} {e : Event α} (h : e.ver = m.ver e.cell + e.isWrite.toNat)
    (c : ℕ) : m.ver c ≤ (m.apply e).ver c := by
  rw [Cells.apply]
  split
  · by_cases hc : c = e.cell
    · rw [hc]
      dsimp only
      rw [update_self]
      omega
    · exact Nat.le_of_eq (update_of_ne hc _ _).symm
  · exact Nat.le_refl _

theorem Follows.ver_lt {m : Cells α} {es : List (Event α)} (h : Follows m es) {e : Event α}
    (he : e ∈ es) (hw : e.isWrite = true) : m.ver e.cell < e.ver := by
  induction es generalizing m with
  | nil => exact absurd he not_mem_nil
  | cons e' es ih =>
    rcases mem_cons.mp he with rfl | he
    · rw [h.1,hw]
      exact Nat.lt_succ_self _
    · exact Nat.lt_of_le_of_lt (ver_le_apply h.1 e.cell) (ih h.2 he)

theorem Follows.row_ne {n rows : ℕ} {m : Cells α} {es : List (Event α)} (h : Follows m es)
    (hfits : Fits n rows es) {c v : ℕ} (hv : v < rows) (hle : v ≤ m.ver c) {e : Event α}
    (he : e ∈ es) (hw : e.isWrite = true) : e.row rows ≠ row rows c v := by
  intro hrow
  obtain ⟨hc,hver⟩ := (row_inj (hfits.ver e he) hv).mp hrow
  have hlt := h.ver_lt he hw
  rw [hc,hver] at hlt
  exact absurd hlt (Nat.not_lt.mpr hle)

theorem record_of_ne {rows i : ℕ} {es : List (Event α)}
    (h : ∀ e ∈ es, e.isWrite = true → e.row rows ≠ i) (log : List α) :
    (record rows log es)[i]? = log[i]? := by
  induction es generalizing log with
  | nil => rfl
  | cons e es ih =>
    have htail := ih fun e' he => h e' (mem_cons_of_mem _ he)
    rw [record,foldl_cons]
    refine (htail _).trans ?_
    split
    · rename_i hw
      exact getElem?_set_ne (h e mem_cons_self hw)
    · rfl

def Agrees (n rows : ℕ) (m : Cells α) (log : List α) : Prop :=
  ∀ c < n, m.ver c < rows ∧ log[row rows c (m.ver c)]? = some (m.val c)

theorem Agrees.apply {n rows : ℕ} {m : Cells α} {log : List α} (h : Agrees n rows m log)
    (hlen : log.length = n * rows) {e : Event α} (hc : e.cell < n) (hv : e.ver < rows) :
    Agrees n rows (m.apply e) (if e.isWrite then log.set (e.row rows) e.val else log) := by
  intro c hcell
  rw [Cells.apply]
  split
  · dsimp only
    by_cases hce : c = e.cell
    · rw [hce,update_self,update_self]
      have hlt : e.row rows < log.length := by
        rw [hlen]
        exact row_lt hc hv
      exact ⟨hv,getElem?_set_self hlt⟩
    · rw [update_of_ne hce,update_of_ne hce]
      have hne : e.row rows ≠ row rows c (m.ver c) := by
        intro hrow
        exact hce ((row_inj hv (h c hcell).1).mp hrow).1.symm
      rw [getElem?_set_ne hne]
      exact h c hcell
  · exact h c hcell

theorem record_holds_iff {n rows : ℕ} {m : Cells α} {log : List α} {es : List (Event α)}
    (h : Follows m es) (hfits : Fits n rows es) (hlen : log.length = n * rows)
    (hagrees : Agrees n rows m log) :
    (∀ e ∈ es, (record rows log es)[e.row rows]? = some e.val) ↔ ReadsHold m es := by
  induction es generalizing m log with
  | nil => exact ⟨fun _ => trivial,fun _ e he => absurd he not_mem_nil⟩
  | cons e es ih =>
    have hc := hfits.cell e mem_cons_self
    have hv := hfits.ver e mem_cons_self
    have hnext := hagrees.apply hlen hc hv
    have hlen' : (if e.isWrite then log.set (e.row rows) e.val else log).length = n * rows := by
      split
      · rw [length_set,hlen]
      · exact hlen
    have htail := ih h.2 hfits.tail hlen' hnext
    -- The row of the access is that of its cell's version afterwards, which later writes leave.
    have hver : (m.apply e).ver e.cell = e.ver := by
      rw [Cells.apply]
      split
      · exact update_self _ _ _
      · rename_i hw
        rw [h.1,Bool.eq_false_iff.mpr hw]
        rfl
    have hentry : (record rows log (e::es))[e.row rows]? = some ((m.apply e).val e.cell) := by
      have hkept := @record_of_ne α rows (e.row rows) es
        (fun e' he hw => h.2.row_ne hfits.tail hv (Nat.le_of_eq hver.symm) he hw)
        (if e.isWrite then log.set (e.row rows) e.val else log)
      have hagree := (hnext e.cell hc).2
      rw [hver] at hagree
      rw [record,foldl_cons]
      exact hkept.trans hagree
    have hvalue : (m.apply e).val e.cell = e.val ↔ (e.isWrite = false → e.val = m.val e.cell) := by
      rw [Cells.apply]
      split
      · rename_i hw
        exact iff_of_true (update_self _ _ _) fun hf => absurd hw (by rw [hf]; decide)
      · rename_i hw
        exact ⟨fun heq _ => heq.symm,fun heq => (heq (Bool.eq_false_iff.mpr hw)).symm⟩
    rw [forall_mem_cons,hentry,Option.some.injEq,hvalue,ReadsHold]
    exact and_congr_right fun _ => htail

theorem record_initial {n rows : ℕ} {m : Cells α} {es : List (Event α)} (h : Follows m es)
    (hfits : Fits n rows es) (hrows : 0 < rows) (c : ℕ) (log : List α) :
    (record rows log es)[row rows c 0]? = log[row rows c 0]? :=
  record_of_ne (fun _ he hw => h.row_ne hfits hrows (Nat.zero_le _) he hw) log

end Binius64.VersionedLog
