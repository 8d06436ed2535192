import Binius64.CheckedRun

/-!
# Runs on advice

What a checked computation on untrusted advice promises: whatever it returns is as described, and
under a condition on the advice it does return.
-/

namespace Binius64.CheckedRun

variable {ε α β : Type} {honest : Prop} {x : Except ε α} {P : α → Prop}

/-- Whatever is returned is as described, and on honest advice something is. -/
def Settles (honest : Prop) (x : Except ε α) (P : α → Prop) : Prop :=
  (∀ a, x = .ok a → P a) ∧ (honest → ∃ a, x = .ok a)

theorem Settles.of_ok {a : α} (h : x = .ok a) (ha : P a) : Settles honest x P := by
  refine ⟨fun b hb => ?_,fun _ => ⟨a,h⟩⟩
  rw [h] at hb
  cases hb
  exact ha

theorem Settles.bind {k : α → Except ε β} {Q : β → Prop} (hx : Settles honest x P)
    (hk : ∀ a, P a → Settles honest (k a) Q) : Settles honest (x >>= k) Q := by
  refine ⟨fun b hb => ?_,fun hh => ?_⟩
  · obtain ⟨a,ha,hb⟩ := bind_eq_ok.mp hb
    exact (hk a (hx.1 a ha)).1 b hb
  · obtain ⟨a,ha⟩ := hx.2 hh
    obtain ⟨b,hb⟩ := (hk a (hx.1 a ha)).2 hh
    exact ⟨b,bind_eq_ok.mpr ⟨a,ha,hb⟩⟩

theorem Settles.eq_ok {a : α} (h : Settles honest x (· = a)) (hh : honest) : x = .ok a := by
  obtain ⟨b,hb⟩ := h.2 hh
  rw [hb,h.1 b hb]

end Binius64.CheckedRun
