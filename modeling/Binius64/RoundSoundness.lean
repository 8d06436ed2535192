import Mathlib.Algebra.MvPolynomial.Degrees
import Mathlib.Algebra.Polynomial.AlgebraMap
import Mathlib.Algebra.Polynomial.BigOperators

/-!
# Soundness of weighted round reductions

A function of many coordinates that along each of them is a polynomial of bounded degree.
-/

namespace Binius64.RoundSoundness

open Polynomial List

variable {F : Type} [Field F]

/-- A polynomial read at a list of values; variables past the list read zero. -/
noncomputable def evalAt {A : Type} [CommRing A] [Algebra F A] (P : MvPolynomial ℕ F)
    (point : List A) : A :=
  MvPolynomial.aeval (fun i => point.getD i 0) P

theorem map_evalAt {A B : Type} [CommRing A] [Algebra F A] [CommRing B] [Algebra F B]
    (φ : A →ₐ[F] B) (P : MvPolynomial ℕ F) (point : List A) :
    φ (evalAt P point) = evalAt P (point.map φ) := by
  have hget : (fun i => (point.map φ).getD i 0) = fun i => φ (point.getD i 0) := by
    funext i
    rw [getD_eq_getElem?_getD,getD_eq_getElem?_getD,getElem?_map]
    cases point[i]? with
    | none => exact (map_zero φ).symm
    | some a => rfl
  rw [evalAt,evalAt,hget,MvPolynomial.comp_aeval_apply]

/-- A function of lists that along every coordinate is a polynomial of bounded degree. -/
structure CoordPoly (F : Type) [Field F] (d : ℕ) where
  eval : List F → F
  /-- The restriction to the line in the direction of the coordinate between two parts. -/
  along : List F → List F → F[X]
  along_eval : ∀ pre post x, (along pre post).eval x = eval (pre ++ x :: post)
  along_degree : ∀ pre post, (along pre post).natDegree ≤ d

namespace CoordPoly

variable {d e : ℕ}

noncomputable def line (pre post : List F) : List F[X] := pre.map C ++ X :: post.map C

theorem line_degree (pre post : List F) (i : ℕ) :
    ((line pre post).getD i 0).natDegree ≤ if i = pre.length then 1 else 0 := by
  rw [getD_eq_getElem?_getD,line,getElem?_append,length_map]
  by_cases hlow : i < pre.length
  · rw [if_pos hlow,getElem?_map]
    cases pre[i]? with
    | none => simp
    | some a => simp
  · rw [if_neg hlow]
    by_cases heq : i = pre.length
    · subst heq
      simp
    · rw [if_neg heq]
      obtain ⟨j,hj⟩ : ∃ j, i - pre.length = j + 1 := ⟨i - pre.length - 1,by omega⟩
      rw [hj,getElem?_cons_succ,getElem?_map]
      cases post[j]? with
      | none => simp
      | some a => simp

noncomputable def ofMv (P : MvPolynomial ℕ F) (h : ∀ i, P.degreeOf i ≤ d) : CoordPoly F d where
  eval point := evalAt P point
  along pre post := evalAt P (line pre post)
  along_eval pre post x := by
    have hmap : (line pre post).map (Polynomial.aeval x) = pre ++ x :: post := by
      rw [line,map_append,map_cons,map_map,map_map]
      have hc : (⇑(Polynomial.aeval x) ∘ ⇑(C : F →+* F[X])) = id := by
        funext a
        simp
      rw [hc,map_id,map_id,aeval_X]
    rw [←hmap,←map_evalAt,←coe_aeval_eq_eval]
  along_degree pre post := by
    rw [evalAt,MvPolynomial.aeval_def,MvPolynomial.eval₂_eq]
    refine (natDegree_sum_le _ _).trans (Finset.fold_max_le _ |>.mpr ⟨Nat.zero_le _,?_⟩)
    intro m hm
    refine (natDegree_C_mul_le _ _).trans ((natDegree_prod_le _ _).trans ?_)
    have hterm : ∀ i ∈ m.support, ((line pre post).getD i 0 ^ m i).natDegree ≤
        if i = pre.length then m pre.length else 0 := by
      intro i _
      refine natDegree_pow_le.trans ?_
      have hl := line_degree pre post i
      by_cases hi : i = pre.length
      · rw [if_pos hi] at hl ⊢
        calc m i * ((line pre post).getD i 0).natDegree ≤ m i * 1 := Nat.mul_le_mul_left _ hl
          _ = m pre.length := by rw [Nat.mul_one,hi]
      · rw [if_neg hi] at hl ⊢
        rw [Nat.le_zero.mp hl,Nat.mul_zero]
    calc ∑ i ∈ m.support, ((line pre post).getD i 0 ^ m i).natDegree
        ≤ ∑ i ∈ m.support, if i = pre.length then m pre.length else 0 := Finset.sum_le_sum hterm
      _ ≤ m pre.length := by
        rw [Finset.sum_ite_eq']
        split <;> omega
      _ ≤ P.degreeOf pre.length := MvPolynomial.monomial_le_degreeOf _ hm
      _ ≤ d := h _

/-- The product of two. -/
noncomputable def mul (P : CoordPoly F d) (Q : CoordPoly F e) : CoordPoly F (d + e) where
  eval point := P.eval point * Q.eval point
  along pre post := P.along pre post * Q.along pre post
  along_eval pre post x := by rw [eval_mul,P.along_eval,Q.along_eval]
  along_degree pre post :=
    natDegree_mul_le.trans (Nat.add_le_add (P.along_degree pre post) (Q.along_degree pre post))

/-- The sum of two. -/
noncomputable def add (P Q : CoordPoly F d) : CoordPoly F d where
  eval point := P.eval point + Q.eval point
  along pre post := P.along pre post + Q.along pre post
  along_eval pre post x := by rw [eval_add,P.along_eval,Q.along_eval]
  along_degree pre post :=
    (natDegree_add_le _ _).trans (max_le (P.along_degree pre post) (Q.along_degree pre post))

/-- A multiple. -/
noncomputable def scale (a : F) (P : CoordPoly F d) : CoordPoly F d where
  eval point := a * P.eval point
  along pre post := C a * P.along pre post
  along_eval pre post x := by rw [eval_mul,eval_C,P.along_eval]
  along_degree pre post := (natDegree_C_mul_le _ _).trans (P.along_degree pre post)

/-- The coordinate after the given ones fixed. -/
noncomputable def fixLast (P : CoordPoly F d) (b : F) : CoordPoly F d where
  eval point := P.eval (point ++ [b])
  along pre post := P.along pre (post ++ [b])
  along_eval pre post x := by rw [P.along_eval,append_assoc,cons_append]
  along_degree pre post := P.along_degree pre (post ++ [b])

theorem eval_linear (P : CoordPoly F 1) (pre post : List F) (x : F) :
    P.eval (pre ++ x :: post) =
      (1 - x) * P.eval (pre ++ 0 :: post) + x * P.eval (pre ++ 1 :: post) := by
  obtain ⟨a,b,hab⟩ := exists_eq_X_add_C_of_natDegree_le_one (P.along_degree pre post)
  rw [←P.along_eval,←P.along_eval,←P.along_eval,hab]
  simp only [eval_add,eval_mul,eval_C,eval_X]
  ring

end CoordPoly

/-- The Boolean points of so many coordinates. -/
def cube : ℕ → List (List F)
  | 0 => [[]]
  | n + 1 => (cube n).map (· ++ [0]) ++ (cube n).map (· ++ [1])

/-- A Boolean point has entries zero and one. -/
def IsBit (b : F) : Prop := b = 0 ∨ b = 1

/-- The equality indicator of two points. -/
def eqInd (v z : List F) : F := (zipWith (fun v z => v * z + (1 - v) * (1 - z)) v z).prod

/-- The sum over the Boolean values of some coordinates, the last of them bound first, each with
the weights of its two values; the coordinates after them are given. -/
def weightedSum (g : List F → F) : List (F × F) → List F → F
  | [],post => g post
  | w :: ws,post => w.1 * weightedSum g ws (0 :: post) + w.2 * weightedSum g ws (1 :: post)

/-- The weights of the equality indicator with a point, its last coordinate first. -/
def eqWeights (point : List F) : List (F × F) := point.reverse.map fun z => (1 - z,z)

variable (g : List F → F)

theorem weightedSum_unit (n : ℕ) (post : List F) :
    weightedSum g (replicate n (1,1)) post = ((cube n).map fun v => g (v ++ post)).sum := by
  induction n generalizing post with
  | zero => simp [weightedSum,cube]
  | succ n ih =>
    have happ (b : F) : ((fun v => g (v ++ post)) ∘ fun x => x ++ [b]) =
        fun v => g (v ++ b :: post) := by
      funext v
      simp
    rw [replicate_succ,weightedSum,ih,ih,cube,map_append,sum_append,map_map,
      map_map,happ,happ]
    ring

variable {v : List F} {d : ℕ}

theorem eqInd_append {z : List F} (h : v.length = z.length) (b x : F) :
    eqInd (v ++ [b]) (z ++ [x]) = eqInd v z * (b * x + (1 - b) * (1 - x)) := by
  rw [eqInd,zipWith_append h,prod_append]
  simp [eqInd]

theorem cube_length {n : ℕ} (h : v ∈ cube n) : v.length = n := by
  induction n generalizing v with
  | zero => simpa [cube] using h
  | succ n ih =>
    rw [cube,mem_append,mem_map,mem_map] at h
    rcases h with ⟨u,hu,rfl⟩ | ⟨u,hu,rfl⟩
    · rw [length_append,ih hu,length_singleton]
    · rw [length_append,ih hu,length_singleton]

theorem weightedSum_eq (z post : List F) : weightedSum g (eqWeights z) post =
      ((cube z.length).map fun v => eqInd v z * g (v ++ post)).sum := by
  induction z using reverseRecOn generalizing post with
  | nil => simp [weightedSum,cube,eqWeights,eqInd]
  | append_singleton z x ih =>
    have hsplit (b : F) : ((cube z.length).map ((fun v => eqInd v (z ++ [x]) * g (v ++ post)) ∘
          fun u => u ++ [b])).sum =
        (b * x + (1 - b) * (1 - x)) *
          ((cube z.length).map fun v => eqInd v z * g (v ++ b :: post)).sum := by
      rw [←sum_map_mul_left]
      congr 1
      apply map_congr_left
      intro v hv
      rw [Function.comp_apply,eqInd_append (cube_length hv),append_assoc,
        singleton_append]
      ring
    have hw : eqWeights (z ++ [x]) = (1 - x,x) :: eqWeights z := by
      simp [eqWeights]
    rw [hw,weightedSum,ih,ih,length_append,length_singleton,cube,map_append,
      sum_append,map_map,map_map,hsplit,hsplit]
    ring

theorem weightedSum_add_mul (g g' : List F → F) (a : F) (ws : List (F × F)) (post : List F) :
    weightedSum (fun v => g v + a * g' v) ws post =
      weightedSum g ws post + a * weightedSum g' ws post := by
  induction ws generalizing post with
  | nil => rfl
  | cons w ws ih =>
    rw [weightedSum,weightedSum,weightedSum,ih,ih]
    ring

theorem weightedSum_congr {g g' : List F → F} {ws : List (F × F)} {post : List F}
    (hb : ∀ b ∈ post, IsBit b) (h : ∀ v : List F, v.length = ws.length + post.length →
      (∀ b ∈ v, IsBit b) → g v = g' v) : weightedSum g ws post = weightedSum g' ws post := by
  induction ws generalizing post with
  | nil => exact h post (by simp) hb
  | cons w ws ih =>
    have hstep (b : F) (hbit : IsBit b) :
        weightedSum g ws (b :: post) = weightedSum g' ws (b :: post) := by
      apply ih
      · intro a ha
        rcases mem_cons.mp ha with rfl | ha
        · exact hbit
        · exact hb a ha
      · intro v hv
        apply h
        rw [hv,length_cons,length_cons]
        omega
    rw [weightedSum,weightedSum,hstep 0 (.inl rfl),hstep 1 (.inr rfl)]

theorem CoordPoly.weightedSum_eval (P : CoordPoly F 1) (z post : List F) :
    weightedSum P.eval (eqWeights z) post = P.eval (z ++ post) := by
  induction z using reverseRecOn generalizing post with
  | nil => rfl
  | append_singleton z x ih =>
    have hw : eqWeights (z ++ [x]) = (1 - x,x) :: eqWeights z := by
      simp [eqWeights]
    rw [hw,weightedSum,ih,ih,append_assoc,singleton_append,P.eval_linear z post x]

/-- The multilinear extension of a function on Boolean points, its coordinates last first. -/
def mleAt {A : Type} [CommRing A] [Algebra F A] (g : List F → F) : List A → List F → A
  | [],bits => algebraMap F A (g bits)
  | z :: zs,bits => (1 - z) * mleAt g zs (0 :: bits) + z * mleAt g zs (1 :: bits)

theorem map_mleAt {A B : Type} [CommRing A] [Algebra F A] [CommRing B] [Algebra F B]
    (φ : A →ₐ[F] B) (g : List F → F) (zs : List A) (bits : List F) :
    φ (mleAt g zs bits) = mleAt g (zs.map φ) bits := by
  induction zs generalizing bits with
  | nil => exact φ.commutes (g bits)
  | cons z zs ih =>
    rw [map_cons,mleAt,mleAt,map_add,map_mul,map_mul,map_sub,map_one,ih,ih]

theorem mleAt_degree (zs : List F[X]) (bits : List F) :
    (mleAt g zs bits).natDegree ≤ (zs.map natDegree).sum := by
  induction zs generalizing bits with
  | nil => exact (natDegree_C _).le
  | cons z zs ih =>
    have hone : (1 - z).natDegree ≤ z.natDegree :=
      (natDegree_sub_le _ _).trans (by rw [natDegree_one]; omega)
    rw [mleAt,map_cons,sum_cons]
    refine (natDegree_add_le _ _).trans (max_le ?_ ?_)
    · exact natDegree_mul_le.trans (Nat.add_le_add hone (ih _))
    · exact natDegree_mul_le.trans (Nat.add_le_add_left (ih _) _)

noncomputable def mle : CoordPoly F 1 where
  eval point := weightedSum g (eqWeights point) []
  along pre post := mleAt g (CoordPoly.line pre post).reverse []
  along_eval pre post x := by
    have hmap : ((CoordPoly.line pre post).reverse).map (Polynomial.aeval x) =
        (pre ++ x :: post).reverse := by
      rw [CoordPoly.line,map_reverse,map_append,map_cons,map_map,map_map]
      have hc : (⇑(Polynomial.aeval x) ∘ ⇑(C : F →+* F[X])) = id := by
        funext a
        simp
      rw [hc,map_id,map_id,aeval_X]
    have hsum : ∀ (zs bits : List F),
        mleAt g zs bits = weightedSum g (zs.map fun z => (1 - z,z)) bits := by
      intro zs
      induction zs with
      | nil => exact fun bits => rfl
      | cons z zs ih => exact fun bits => by rw [map_cons,mleAt,weightedSum,ih,ih]
    rw [eqWeights,←hsum,←hmap,←map_mleAt,←coe_aeval_eq_eval]
  along_degree pre post := by
    refine (mleAt_degree g _ []).trans ?_
    have hconst (l : List F) : ((l.map C).map natDegree).sum = 0 := by
      induction l with
      | nil => rfl
      | cons a l ih => rw [map_cons,map_cons,sum_cons,ih,natDegree_C]
    rw [map_reverse,sum_reverse,CoordPoly.line,map_append,map_cons,
      sum_append,sum_cons,hconst,hconst,natDegree_X]

theorem mle_eval_bits (hv : ∀ b ∈ v, IsBit b) : (mle g).eval v = g v := by
  have hgen : ∀ post, weightedSum g (eqWeights v) post = g (v ++ post) := by
    induction v using reverseRecOn with
    | nil => exact fun post => rfl
    | append_singleton v b ih =>
      intro post
      have hw : eqWeights (v ++ [b]) = (1 - b,b) :: eqWeights v := by
        simp [eqWeights]
      have hih := ih fun a ha => hv a (mem_append_left _ ha)
      rw [hw,weightedSum,hih,hih,append_assoc,singleton_append]
      rcases hv b (by simp) with rfl | rfl
      · ring
      · ring
  exact (hgen []).trans (by rw [append_nil])

/-- One round: a univariate polynomial and the challenge it is evaluated at. -/
structure Round (F : Type) [Field F] where
  poly : F[X]
  challenge : F

noncomputable def roundPoly {d : ℕ} (P : CoordPoly F d) :
    List (F × F) → List F → List F → F[X]
  | [],pre,post => P.along pre post
  | w :: ws,pre,post =>
    C w.1 * roundPoly P ws (0 :: pre) post + C w.2 * roundPoly P ws (1 :: pre) post

theorem roundPoly_eval (P : CoordPoly F d) (ws : List (F × F)) (pre post : List F) (x : F) :
    (roundPoly P ws pre post).eval x = weightedSum P.eval ws (pre ++ x :: post) := by
  induction ws generalizing pre with
  | nil => exact P.along_eval pre post x
  | cons w ws ih =>
    rw [roundPoly,weightedSum,eval_add,eval_mul,eval_mul,eval_C,
      eval_C,ih,ih,cons_append,cons_append]

theorem roundPoly_degree (P : CoordPoly F d) (ws : List (F × F)) (pre post : List F) :
    (roundPoly P ws pre post).natDegree ≤ d := by
  induction ws generalizing pre with
  | nil => exact P.along_degree pre post
  | cons w ws ih =>
    exact (natDegree_add_le _ _).trans (max_le ((natDegree_C_mul_le _ _).trans (ih _))
      ((natDegree_C_mul_le _ _).trans (ih _)))

/-- Every round polynomial agrees with the running claim at its weighted endpoints and hands on
its value at the challenge. -/
def Follows (d : ℕ) : List (F × F) → F → List (Round F) → F → Prop
  | [],claim,[],value => claim = value
  | w :: ws,claim,round :: rounds,value =>
    w.1 * round.poly.eval 0 + w.2 * round.poly.eval 1 = claim ∧ round.poly.natDegree ≤ d ∧
      Follows d ws (round.poly.eval round.challenge) rounds value
  | _,_,_,_ => False

/-- A challenge is a root of a non-zero difference of bounded degree. -/
def Caught (d : ℕ) (found expected : F[X]) (challenge : F) : Prop :=
  found - expected ≠ 0 ∧ (found - expected).natDegree ≤ d ∧ (found - expected).IsRoot challenge

theorem Caught.of_eval {p q : F[X]} (hp : p.natDegree ≤ d) (hq : q.natDegree ≤ d) {r : F}
    (hne : p ≠ q) (hr : p.eval r = q.eval r) : Caught d p q r :=
  ⟨sub_ne_zero.mpr hne,(natDegree_sub_le _ _).trans (max_le hp hq),by
    rw [IsRoot.def,eval_sub,hr,sub_self]⟩

theorem Follows.exists_caught {P : CoordPoly F d} {ws : List (F × F)} {claim value : F}
    {rounds : List (Round F)} {post : List F} (h : Follows d ws claim rounds value)
    (hc : claim ≠ weightedSum P.eval ws post)
    (hv : value = P.eval ((rounds.map Round.challenge).reverse ++ post)) :
    ∃ i round, rounds[i]? = some round ∧
      Caught d round.poly (roundPoly P (ws.drop (i + 1)) []
        (((rounds.take i).map Round.challenge).reverse ++ post)) round.challenge := by
  induction rounds generalizing ws claim post with
  | nil =>
    cases ws with
    | nil => exact absurd (h.trans hv) hc
    | cons w ws => exact h.elim
  | cons round rounds ih =>
    cases ws with
    | nil => exact h.elim
    | cons w ws =>
      obtain ⟨hw,hd,hrest⟩ := h
      by_cases heq : round.poly.eval round.challenge =
          (roundPoly P ws [] post).eval round.challenge
      · refine ⟨0,round,rfl,Caught.of_eval hd (roundPoly_degree P _ _ _) ?_ heq⟩
        intro hpoly
        apply hc
        rw [weightedSum,←hw,hpoly]
        simp only [drop_succ_cons,drop_zero,take_zero,map_nil,reverse_nil,
          nil_append,roundPoly_eval]
      · have hc' : round.poly.eval round.challenge ≠
            weightedSum P.eval ws (round.challenge :: post) := by
          rw [roundPoly_eval,nil_append] at heq
          exact heq
        have hv' : value =
            P.eval ((rounds.map Round.challenge).reverse ++ round.challenge :: post) := by
          rw [hv,map_cons,reverse_cons,append_assoc,singleton_append]
        obtain ⟨i,found,hi,hcaught⟩ := ih hrest hc' hv'
        refine ⟨i + 1,found,hi,?_⟩
        rw [drop_succ_cons,take_succ_cons,map_cons,reverse_cons,
          append_assoc,singleton_append]
        exact hcaught

end Binius64.RoundSoundness
