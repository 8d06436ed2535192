import Binius64.GhashRing
import Binius64.SortedRam
import Binius64.SplitCoordinates

/-!
# Multisets checked by parity

In characteristic two the unit fractions of two equal rows cancel, so a vanishing sum of them says
no more than that every row occurs an even number of times.
-/

namespace Binius64.RowParity

theorem perm_of_even_count {α : Type} [DecidableEq α] {s d : List α} (hs : s.Nodup)
    (hlen : s.length = d.length) (heven : ∀ r, Even ((s ++ d).count r)) : s.Perm d := by
  have hsub : s.Subperm d := by
    refine List.subperm_ext_iff.mpr fun r hr => ?_
    have hone := List.count_eq_one_of_mem hs hr
    have hparity := heven r
    rw [List.count_append,hone] at hparity
    have hpos : d.count r ≠ 0 := by
      intro hzero
      rw [hzero] at hparity
      exact absurd hparity (by decide)
    omega
  exact hsub.perm_of_length_le hlen.ge

end Binius64.RowParity

namespace Binius64.SortedRam

open SortedMemory RowParity

theorem AssertSortedness.nodup {s : List Visit} (h : AssertSortedness s) : s.Nodup := by
  refine h.checked.pairwise.imp fun {p q} hpq heq => ?_
  rw [heq] at hpq
  exact Before.irrefl columns q hpq

/-- A sorted side that holds every row an even number of times together with an event side of its
length is a permutation of it. -/
theorem sorted_perm_events {s d : List Visit} (hlen : s.length = d.length)
    (heven : ∀ r, Even ((s ++ d).count r)) (hs : AssertSortedness s) : s.Perm d :=
  perm_of_even_count hs.nodup hlen heven

/-- An initial row and a final row, in the two orders. -/
theorem sorted_perm_events_two :
    ([⟨4,0,0,kInit⟩,⟨4,1,0,kFinal⟩] : List Visit).Perm [⟨4,1,0,kFinal⟩,⟨4,0,0,kInit⟩] := by
  refine sorted_perm_events rfl (fun r => ?_) (by decide)
  have hswap : ([⟨4,1,0,kFinal⟩,⟨4,0,0,kInit⟩] : List Visit).Perm [⟨4,0,0,kInit⟩,⟨4,1,0,kFinal⟩] :=
    List.Perm.swap _ _ _
  rw [List.count_append,hswap.count_eq r]
  exact ⟨_,rfl⟩

end Binius64.SortedRam
