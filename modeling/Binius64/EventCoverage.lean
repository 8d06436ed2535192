import Binius64.SortedRam

/-!
# The pinned rows of the event side

The shape of a run gives the number of cycles and the number of rows; the number of initial rows is
half of what is left.
-/

namespace Binius64.SortedRam

structure VmRsShape where
  tLen : ℕ
  ts : ℕ
  initZero : Bool

namespace VmRsShape

variable (shape : VmRsShape)

/-- The number of initial rows; there is one final row more, that of the placeholder. -/
def nTouch : ℕ := (shape.ts - shape.tLen - 1) / 2

def initRows : List ℕ := List.range shape.nTouch

def eventRows : List ℕ := (List.range shape.tLen).map (shape.nTouch + ·)

def finalRows : List ℕ :=
  (List.range (shape.nTouch + 1)).map (shape.nTouch + shape.tLen + ·)

/-- The pinning leaves no row of the event side to the prover. -/
structure Covers (shape : VmRsShape) : Prop where
  partition : (shape.initRows ++ shape.eventRows ++ shape.finalRows).Perm (List.range shape.ts)
  /-- Event sides pinned to the same cycles agree on the times and kinds of all rows. -/
  settled : ∀ (events : List EventWires) (d d' : List Visit), events.length = shape.tLen → d.length = shape.ts → d'.length = shape.ts →
    PinnedEvents shape.initZero shape.nTouch events d →
    PinnedEvents shape.initZero shape.nTouch events d' →
    ∀ (j : ℕ) (r r' : Visit), d[j]? = some r → d'[j]? = some r' → r.ts = r'.ts ∧ r.kind = r'.kind

theorem regions_eq : shape.initRows ++ shape.eventRows ++ shape.finalRows =
    List.range (2 * shape.nTouch + shape.tLen + 1) := by
  have hlen : 2 * shape.nTouch + shape.tLen + 1 = shape.nTouch + shape.tLen + (shape.nTouch + 1) := by
    omega
  have hfinal : List.range (shape.nTouch + shape.tLen + (shape.nTouch + 1)) =
      List.range (shape.nTouch + shape.tLen) ++ shape.finalRows := List.range_add
  have hevent : List.range (shape.nTouch + shape.tLen) = shape.initRows ++ shape.eventRows :=
    List.range_add
  rw [hlen,hfinal,hevent]

theorem regions_end {shape : VmRsShape} (h : shape.tLen + 1 ≤ shape.ts) :
    2 * shape.nTouch + shape.tLen + 1 + (shape.ts - shape.tLen - 1) % 2 = shape.ts := by
  have hdiv := Nat.div_add_mod (shape.ts - shape.tLen - 1) 2
  rw [nTouch]
  omega

theorem settled_of_lt {shape : VmRsShape} {events : List EventWires} {d d' : List Visit}
    (he : events.length = shape.tLen)
    (hd : PinnedEvents shape.initZero shape.nTouch events d)
    (hd' : PinnedEvents shape.initZero shape.nTouch events d') {j : ℕ}
    (hj : j < 2 * shape.nTouch + shape.tLen + 1) {r r' : Visit} (hr : r ∈ d[j]?) (hr' : r' ∈ d'[j]?) :
    r.ts = r'.ts ∧ r.kind = r'.kind := by
  rcases Nat.lt_or_ge j shape.nTouch with hinit | hinit
  · have h := hd.init j hinit r hr
    have h' := hd'.init j hinit r' hr'
    exact ⟨h.1.trans h'.1.symm,h.2.1.trans h'.2.1.symm⟩
  · obtain ⟨t,rfl⟩ := Nat.exists_eq_add_of_le hinit
    rcases Nat.lt_or_ge t events.length with hevent | hevent
    · have hcycle : events[t] ∈ events[t]? := List.getElem?_eq_getElem hevent
      rw [hd.event t _ hcycle r hr,hd'.event t _ hcycle r' hr']
      exact ⟨rfl,rfl⟩
    · obtain ⟨k,rfl⟩ := Nat.exists_eq_add_of_le hevent
      rw [←Nat.add_assoc] at hr hr'
      have hk : k < shape.nTouch + 1 := by omega
      have h := hd.final k hk r hr
      have h' := hd'.final k hk r' hr'
      exact ⟨h.1.trans h'.1.symm,h.2.trans h'.2.symm⟩

/-- The event side is covered exactly when the rows beside the cycles and the placeholder pair up. -/
theorem covers_iff (shape : VmRsShape) (h : shape.tLen + 1 ≤ shape.ts) :
    shape.Covers ↔ (shape.ts - shape.tLen - 1) % 2 = 0 := by
  have hend := regions_end h
  constructor
  · intro hcovers
    have hlen := hcovers.partition.length_eq
    rw [regions_eq,List.length_range,List.length_range] at hlen
    omega
  · intro heven
    rw [heven,Nat.add_zero] at hend
    refine ⟨?_,fun events d d' he hlen hlen' hd hd' j r r' hr hr' => ?_⟩
    · rw [regions_eq,hend]
    · have hj := (List.getElem?_eq_some_iff.mp hr).1
      exact settled_of_lt he hd hd' (by omega) hr hr'

/-- One cycle and one touched word. -/
theorem covers_iff_four : VmRsShape.Covers ⟨1,4,true⟩ :=
  (covers_iff ⟨1,4,true⟩ (by decide)).mpr (by decide)

/-- One cycle and three rows: the last row may be a store, or a final row. -/
theorem covers_fails_three : ¬VmRsShape.Covers ⟨1,3,true⟩ := by
  intro h
  have hkinds := h.settled [⟨0,0,0,0,0,0⟩]
    [⟨padAddr,0,0,kInit⟩,⟨padAddr,3,0,kFinal⟩,⟨4,1,7,kWrite⟩]
    [⟨padAddr,0,0,kInit⟩,⟨padAddr,3,0,kFinal⟩,⟨4,3,7,kFinal⟩] rfl rfl rfl (by decide) (by decide) 2
    ⟨4,1,7,kWrite⟩ ⟨4,3,7,kFinal⟩ rfl rfl
  exact absurd hkinds.2 (by decide)

end VmRsShape

end Binius64.SortedRam
