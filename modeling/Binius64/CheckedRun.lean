import Mathlib.Data.List.Induction

/-!
# Runs that may stop

Rules for computations in `Except`: a sequence returns when its parts do, a loop
over a list keeps an invariant of the part it has done.
-/

namespace Binius64.CheckedRun

open List

variable {ε α β σ : Type}

theorem bind_eq_ok {x : Except ε α} {k : α → Except ε β} {b : β} :
    x >>= k = .ok b ↔ ∃ a, x = .ok a ∧ k a = .ok b := by
  constructor
  · intro h
    cases x with
    | error e => cases h
    | ok a => exact ⟨a,rfl,h⟩
  · rintro ⟨a,rfl,h⟩
    exact h

@[simp] theorem pure_eq_ok {a b : α} : (pure a : Except ε α) = .ok b ↔ a = b := by
  constructor
  · intro h
    cases h
    rfl
  · rintro rfl
    rfl

theorem ok_bind {a : α} {k : α → Except ε β} : (.ok a : Except ε α) >>= k = k a := rfl

theorem state_bind_eq_ok {x : StateT σ (Except ε) α} {k : α → StateT σ (Except ε) β} {s : σ}
    {r : β × σ} : (x >>= k) s = .ok r ↔ ∃ a s', x s = .ok (a,s') ∧ k a s' = .ok r := by
  constructor
  · intro h
    obtain ⟨⟨a,s'⟩,hx,hk⟩ := bind_eq_ok.mp h
    exact ⟨a,s',hx,hk⟩
  · intro h
    obtain ⟨a,s',hx,hk⟩ := h
    exact bind_eq_ok.mpr ⟨(a,s'),hx,hk⟩

section Loop

variable {f : σ → α → Except ε σ} {xs : List α} {init : σ} {I : List α → σ → Prop}

theorem exists_foldlM (hinit : I [] init)
    (hstep : ∀ done x rest s, xs = done ++ x :: rest → I done s →
      ∃ s', f s x = .ok s' ∧ I (done ++ [x]) s') :
    ∃ s, xs.foldlM f init = .ok s ∧ I xs s := by
  suffices h : ∀ rest done s, xs = done ++ rest → I done s →
      ∃ s', rest.foldlM f s = .ok s' ∧ I xs s' from h xs [] init rfl hinit
  intro rest
  induction rest with
  | nil =>
    intro done s hxs hs
    rw [append_nil] at hxs
    exact ⟨s,rfl,hxs ▸ hs⟩
  | cons x rest ih =>
    intro done s hxs hs
    obtain ⟨s',hf,hs'⟩ := hstep done x rest s hxs hs
    have hnext : xs = (done ++ [x]) ++ rest := by rw [hxs,append_assoc,singleton_append]
    obtain ⟨s'',hrun,hfin⟩ := ih (done ++ [x]) s' hnext hs'
    refine ⟨s'',?_,hfin⟩
    rw [foldlM_cons,hf]
    exact hrun

end Loop

theorem foldlM_fixed {f : σ → α → Except ε σ} {xs : List α} {s : σ} (h : ∀ x ∈ xs, f s x = .ok s) :
    xs.foldlM f s = .ok s := by
  induction xs with
  | nil => rfl
  | cons x xs ih =>
    rw [foldlM_cons,h x mem_cons_self,ok_bind]
    exact ih fun y hy => h y (mem_cons_of_mem _ hy)

theorem exists_foldlM_zipIdx {f : σ → α × ℕ → Except ε σ} {xs : List α} {init : σ}
    {I : ℕ → σ → Prop} (hinit : I 0 init)
    (hstep : ∀ i x s, xs[i]? = some x → I i s → ∃ s', f s (x,i) = .ok s' ∧ I (i + 1) s') :
    ∃ s, xs.zipIdx.foldlM f init = .ok s ∧ I xs.length s := by
  suffices h : ∀ (rest : List α) i s, (∀ j, rest[j]? = xs[i + j]?) → i + rest.length = xs.length → I i s →
      ∃ s', (rest.zipIdx i).foldlM f s = .ok s' ∧ I xs.length s' from
    h xs 0 init (fun j => by rw [Nat.zero_add]) (Nat.zero_add _) hinit
  intro rest
  induction rest with
  | nil =>
    intro i s _ hlen hs
    rw [length_nil,Nat.add_zero] at hlen
    exact ⟨s,rfl,hlen ▸ hs⟩
  | cons x rest ih =>
    intro i s hget hlen hs
    have hx : xs[i]? = some x := (hget 0).symm
    obtain ⟨s',hf,hs'⟩ := hstep i x s hx hs
    obtain ⟨s'',hrun,hfin⟩ := ih (i + 1) s' (fun j => by
      have hj := hget (j + 1)
      rw [getElem?_cons_succ] at hj
      rw [hj]
      congr 1
      omega) (by rw [length_cons] at hlen; omega) hs'
    refine ⟨s'',?_,hfin⟩
    rw [zipIdx_cons,foldlM_cons,hf]
    exact hrun

theorem foldlM_eq_foldl {κ : Type} {step : σ → κ → Except ε σ} {f : κ → σ → σ} {ks : List κ}
    (h : ∀ k ∈ ks, ∀ s, step s k = .ok (f k s)) (s : σ) :
    ks.foldlM step s = .ok (ks.foldl (fun y k => f k y) s) := by
  induction ks generalizing s with
  | nil => rfl
  | cons k ks ih =>
    rw [foldlM_cons,h k mem_cons_self,ok_bind,ih fun l hl => h l (mem_cons_of_mem _ hl)]
    rfl

theorem exists_foldlM_fst {κ τ : Type} {step : σ × τ → κ → Except ε (σ × τ)} {f : κ → σ → σ} {ks : List κ}
    (h : ∀ k ∈ ks, ∀ s, ∃ t, step s k = .ok (f k s.1,t)) (s : σ × τ) :
    ∃ t, ks.foldlM step s = .ok (ks.foldl (fun y k => f k y) s.1,t) := by
  induction ks generalizing s with
  | nil => exact ⟨s.2,rfl⟩
  | cons k ks ih =>
    obtain ⟨t,hstep⟩ := h k mem_cons_self s
    obtain ⟨t',hrest⟩ := ih (fun l hl => h l (mem_cons_of_mem _ hl)) (f k s.1,t)
    refine ⟨t',?_⟩
    rw [foldlM_cons,hstep,ok_bind,hrest]
    rfl

theorem exists_foldlM_range {f : σ → ℕ → Except ε σ} {n : ℕ} {init : σ} {I : ℕ → σ → Prop}
    (hinit : I 0 init) (hstep : ∀ i s, i < n → I i s → ∃ s', f s i = .ok s' ∧ I (i + 1) s') :
    ∃ s, (range n).foldlM f init = .ok s ∧ I n s := by
  induction n with
  | zero => exact ⟨init,rfl,hinit⟩
  | succ n ih =>
    obtain ⟨s,hrun,hs⟩ := ih fun i s hi => hstep i s (Nat.lt_succ_of_lt hi)
    obtain ⟨s',hf,hs'⟩ := hstep n s (Nat.lt_succ_self n) hs
    refine ⟨s',?_,hs'⟩
    rw [range_succ,foldlM_append,hrun,ok_bind,foldlM_cons,hf]
    rfl

section Map

variable {f : α → Except ε β} {xs : List α} {ys : List β}

theorem mapM_mem (h : xs.mapM f = .ok ys) :
    (∀ x ∈ xs, ∃ y ∈ ys, f x = .ok y) ∧ ∀ y ∈ ys, ∃ x ∈ xs, f x = .ok y := by
  induction xs generalizing ys with
  | nil =>
    cases h
    exact ⟨nofun,nofun⟩
  | cons x xs ih =>
    rw [mapM_cons] at h
    obtain ⟨y,hy,hrest⟩ := bind_eq_ok.mp h
    obtain ⟨ys',hys,hlast⟩ := bind_eq_ok.mp hrest
    cases hlast
    obtain ⟨hto,hfrom⟩ := ih hys
    refine ⟨fun z hz => ?_,fun z hz => ?_⟩
    · rcases mem_cons.mp hz with rfl | hz
      · exact ⟨y,mem_cons_self,hy⟩
      · obtain ⟨w,hw,hf⟩ := hto z hz
        exact ⟨w,mem_cons_of_mem _ hw,hf⟩
    · rcases mem_cons.mp hz with rfl | hz
      · exact ⟨x,mem_cons_self,hy⟩
      · obtain ⟨w,hw,hf⟩ := hfrom z hz
        exact ⟨w,mem_cons_of_mem _ hw,hf⟩

theorem mapM_getElem (h : xs.mapM f = .ok ys) : ys.length = xs.length ∧
    ∀ i (hi : i < xs.length), ∃ y, f xs[i] = .ok y ∧ ys[i]? = some y := by
  induction xs generalizing ys with
  | nil =>
    cases h
    exact ⟨rfl,nofun⟩
  | cons x xs ih =>
    rw [mapM_cons] at h
    obtain ⟨y,hy,hrest⟩ := bind_eq_ok.mp h
    obtain ⟨ys',hys,hlast⟩ := bind_eq_ok.mp hrest
    cases hlast
    obtain ⟨hlen,hget⟩ := ih hys
    refine ⟨congrArg (· + 1) hlen,fun i hi => ?_⟩
    cases i with
    | zero => exact ⟨y,hy,rfl⟩
    | succ i => exact hget i (Nat.lt_of_succ_lt_succ hi)

theorem exists_mapM (h : ∀ x ∈ xs, ∃ y, f x = .ok y) : ∃ ys, xs.mapM f = .ok ys := by
  induction xs with
  | nil => exact ⟨[],rfl⟩
  | cons x xs ih =>
    obtain ⟨y,hy⟩ := h x mem_cons_self
    obtain ⟨ys,hys⟩ := ih fun z hz => h z (mem_cons_of_mem _ hz)
    refine ⟨y :: ys,?_⟩
    rw [mapM_cons,hy,ok_bind,hys]
    rfl

theorem mapM_eq_map {g : α → β} (h : ∀ x ∈ xs, f x = .ok (g x)) : xs.mapM f = .ok (xs.map g) := by
  induction xs with
  | nil => rfl
  | cons x xs ih =>
    rw [mapM_cons,h x mem_cons_self,ok_bind,
      ih fun z hz => h z (mem_cons_of_mem _ hz)]
    rfl

theorem forM_eq_ok {check : α → Except ε Unit} :
    xs.forM check = .ok () ↔ ∀ x ∈ xs, check x = .ok () := by
  induction xs with
  | nil => exact ⟨fun _ => nofun,fun _ => rfl⟩
  | cons x xs ih =>
    have hcons : (x :: xs).forM check = check x >>= fun _ => xs.forM check := rfl
    rw [hcons,bind_eq_ok,forall_mem_cons,←ih]
    exact ⟨fun ⟨_,hx,hr⟩ => ⟨hx,hr⟩,fun ⟨hx,hr⟩ => ⟨(),hx,hr⟩⟩

end Map

end Binius64.CheckedRun
