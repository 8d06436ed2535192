import Mathlib.Data.List.Induction
import Mathlib.Order.Lattice

/-!
# Tallies of the least key

Records with keys come in one at a time, in any order.
-/

namespace Binius64.LeastTally

open List

variable {κ α : Type} [LinearOrder κ]

/-- What is kept of the records met so far. -/
structure Tally (κ α : Type) where
  least : Option κ
  kept : List α
  count : ℕ

namespace Tally

/-- No record was met. -/
def empty : Tally κ α := ⟨none,[],0⟩

/-- One more record of the least key. -/
def add (limit : ℕ) (t : Tally κ α) (a : α) : Tally κ α where
  least := t.least
  kept := if t.kept.length < limit then t.kept ++ [a] else t.kept
  count := t.count + 1

/-- Meet a record: one above the least key is dropped, one below it starts over. -/
def note (limit : ℕ) (t : Tally κ α) (record : κ × α) : Tally κ α :=
  match t.least with
  | none => {t with least := some record.1}.add limit record.2
  | some least =>
    if least < record.1 then t
    else if record.1 < least then (⟨some record.1,[],0⟩ : Tally κ α).add limit record.2
    else t.add limit record.2

end Tally

def carried (key : κ) (records : List (κ × α)) : List α :=
  (records.filter fun record => record.1 = key).map Prod.snd

variable (limit : ℕ)

def tallyOf (key : κ) (records : List (κ × α)) : Tally κ α :=
  ⟨some key,(carried key records).take limit,(carried key records).length⟩

structure IsLeastKey (key : κ) (records : List (κ × α)) : Prop where
  mem : key ∈ records.map Prod.fst
  le : ∀ other ∈ records.map Prod.fst, key ≤ other

theorem carried_append (key : κ) (first second : List (κ × α)) :
    carried key (first ++ second) = carried key first ++ carried key second := by
  rw [carried,filter_append,map_append]
  rfl

theorem carried_singleton_self (key : κ) (a : α) : carried key [(key,a)] = [a] := by
  have hkeep : ([(key,a)] : List (κ × α)).filter (fun record => record.1 = key) = [(key,a)] :=
    filter_cons_of_pos (decide_eq_true rfl)
  rw [carried,hkeep]
  rfl

theorem carried_eq_nil {key : κ} {records : List (κ × α)} (h : key ∉ records.map Prod.fst) :
    carried key records = [] := by
  rw [carried,map_eq_nil_iff,filter_eq_nil_iff]
  intro record hr heq
  exact h (mem_map.mpr ⟨record,hr,of_decide_eq_true heq⟩)

theorem tallyOf_add (key : κ) (records : List (κ × α)) (a : α) :
    (tallyOf limit key records).add limit a = tallyOf limit key (records ++ [(key,a)]) := by
  have hkept : (if ((carried key records).take limit).length < limit then
      (carried key records).take limit ++ [a] else (carried key records).take limit) =
        (carried key records ++ [a]).take limit := by
    rw [length_take]
    by_cases hfull : limit ≤ (carried key records).length
    · rw [if_neg (by omega),take_append_of_le_length hfull]
    · rw [if_pos (by omega),take_of_length_le (by omega),
        take_of_length_le (by rw [length_append,length_singleton]; omega)]
  rw [tallyOf,Tally.add,hkept,tallyOf,carried_append,carried_singleton_self,length_append,
    length_singleton]

theorem note_tallyOf {limit : ℕ} {least : κ} {records : List (κ × α)} (h : IsLeastKey least records)
    (record : κ × α) : ∃ key, IsLeastKey key (records ++ [record]) ∧
      (tallyOf limit least records).note limit record = tallyOf limit key (records ++ [record]) := by
  obtain ⟨key,a⟩ := record
  have hle : ∀ k, k ≤ least → k ≤ key →
      ∀ other ∈ (records ++ [(key,a)]).map Prod.fst, k ≤ other := by
    intro k hleast hkey other ho
    rw [map_append,mem_append] at ho
    rcases ho with ho | ho
    · exact hleast.trans (h.le other ho)
    · rw [mem_singleton.mp ho]
      exact hkey
  have hmem : least ∈ (records ++ [(key,a)]).map Prod.fst := by
    rw [map_append]
    exact mem_append_left _ h.mem
  rcases lt_trichotomy least key with hlt | heq | hgt
  · -- The record is dropped.
    refine ⟨least,⟨hmem,hle least le_rfl hlt.le⟩,?_⟩
    have hnone : carried least [(key,a)] = [] :=
      carried_eq_nil fun hk => hlt.ne (mem_singleton.mp hk)
    rw [tallyOf,tallyOf,carried_append,hnone,append_nil]
    exact if_pos hlt
  · -- The record is one more of the least key.
    subst heq
    refine ⟨least,⟨hmem,hle least le_rfl le_rfl⟩,?_⟩
    rw [←tallyOf_add]
    exact (if_neg (lt_irrefl least)).trans (if_neg (lt_irrefl least))
  · -- The tally starts over, and no earlier record has the key.
    have hnone : carried key records = [] :=
      carried_eq_nil fun hk => absurd (h.le key hk) (not_le.mpr hgt)
    have hstart : (⟨some key,[],0⟩ : Tally κ α) = tallyOf limit key records := by
      rw [tallyOf,hnone,take_nil,length_nil]
    refine ⟨key,⟨?_,hle key hgt.le le_rfl⟩,?_⟩
    · rw [map_append]
      exact mem_append_right _ (mem_singleton_self key)
    · rw [←tallyOf_add,←hstart]
      exact (if_neg hgt.asymm).trans (if_pos hgt)

theorem foldl_note (records : List (κ × α)) :
    (records = [] ∧ records.foldl (Tally.note limit) .empty = .empty) ∨
      ∃ key, IsLeastKey key records ∧
        records.foldl (Tally.note limit) .empty = tallyOf limit key records := by
  induction records using reverseRecOn with
  | nil => exact .inl ⟨rfl,rfl⟩
  | append_singleton records record ih =>
    refine .inr ?_
    rw [foldl_append]
    rcases ih with ⟨rfl,hempty⟩ | ⟨least,hleast,htally⟩
    · obtain ⟨key,a⟩ := record
      refine ⟨key,⟨mem_singleton_self key,fun other ho => (mem_singleton.mp ho).ge⟩,?_⟩
      have hstart : tallyOf limit key ([] : List (κ × α)) = ⟨some key,[],0⟩ := by
        rw [tallyOf,carried,filter_nil,map_nil,take_nil,length_nil]
      rw [←tallyOf_add,hstart]
      rfl
    · rw [htally]
      exact note_tallyOf hleast record

end Binius64.LeastTally
