import Binius64.DomainContexts
import Binius64.NovelBasis
import Binius64.ReferenceTransforms
import Mathlib.Algebra.Algebra.ZMod

/-!
# The transform evaluates in the novel basis

The generic domain context holds the normalised subspace polynomials of its basis, so the forward
transform over it evaluates in the novel basis, and evaluating the polynomials at an index of the
domain is a subset sum of the context's rows.
-/

namespace Binius64.Ntt

open CheckedRun SubspacePolynomials NovelBasis Polynomial List
open Except (ok)

variable {F : Type} [Field F] {basis : List F}

/-- The values of a subspace polynomial on the basis elements it does not vanish on. -/
noncomputable def subspaceRow (basis : List F) (k : ℕ) : List F :=
  (basis.drop k).map fun b => (vanishing (basis.take k)).eval b

/-- The values of a normalised subspace polynomial on the elements it does not vanish on. -/
noncomputable def normalizedRow (basis : List F) (k : ℕ) : List F :=
  (basis.drop k).map fun b => (normalized basis k).eval b

theorem subspaceRow_cons {k : ℕ} (hk : k < basis.length) : subspaceRow basis k =
    (vanishing (basis.take k)).eval (element basis k) ::
      (basis.drop (k + 1)).map fun b => (vanishing (basis.take k)).eval b := by
  rw [subspaceRow,drop_element basis hk,map_cons]

theorem normalizedRow_cons {k : ℕ} (hk : k < basis.length) : normalizedRow basis k =
    (normalized basis k).eval (element basis k) ::
      (basis.drop (k + 1)).map fun b => (normalized basis k).eval b := by
  rw [normalizedRow,drop_element basis hk,map_cons]

theorem normalizedRow_length (k : ℕ) : (normalizedRow basis k).length = basis.length - k := by
  rw [normalizedRow,length_map,length_drop]

theorem subspaceRow_zero (basis : List F) : subspaceRow basis 0 = basis := by
  rw [subspaceRow,drop_zero,take_zero]
  simp only [eval_vanishing_nil,map_id']

theorem nextEvals_row [CharP F 2] {k : ℕ} (hk : k < basis.length) :
    nextEvals (subspaceRow basis k) = subspaceRow basis (k + 1) := by
  rw [subspaceRow_cons hk,nextEvals,subspaceRow,map_map,take_succ_element basis hk]
  refine map_congr_left fun b _ => ?_
  rw [eval_vanishing_succ]
  rfl

theorem normalizeEvals_row {k : ℕ} (hk : k < basis.length) :
    normalizeEvals (subspaceRow basis k) = .ok (normalizedRow basis k) := by
  have hfirst : index (subspaceRow basis k) 0 =
      .ok ((vanishing (basis.take k)).eval (element basis k)) := by
    rw [subspaceRow_cons hk]
    rfl
  rw [normalizeEvals,hfirst]
  refine congrArg ok ?_
  rw [subspaceRow,normalizedRow,map_map]
  refine map_congr_left fun b _ => ?_
  rw [eval_normalized,mul_comm]
  rfl

theorem rows_loop [CharP F 2] {n : ℕ} (hn : n < basis.length) :
    (range' 1 n).foldl (fun evals i => evals ++ [nextEvals (evals.getD (i - 1) [])]) [basis] =
      (List.range (n + 1)).map (subspaceRow basis) := by
  induction n with
  | zero =>
    rw [range'_zero,foldl_nil,range_one,map_singleton,subspaceRow_zero]
  | succ n ih =>
    have hlast : ((List.range (n + 1)).map (subspaceRow basis)).getD (1 + n - 1) [] =
        subspaceRow basis n := by
      rw [Nat.add_sub_cancel_left,getD_eq_getElem _ _ (by simp)]
      simp
    rw [range'_1_concat,foldl_append,ih (by omega),foldl_cons,foldl_nil,hlast,
      nextEvals_row (by omega),range_succ (n := n + 1),map_append,map_singleton]

theorem generateFromSubspace_eq [CharP F 2] (hne : basis ≠ []) :
    GenericOnTheFly.generateFromSubspace ⟨basis⟩ =
      .ok ⟨(List.range basis.length).map (normalizedRow basis)⟩ := by
  have hpos : 0 < basis.length := length_pos_iff.mpr hne
  have hlen : basis.length - 1 + 1 = basis.length := by omega
  have hloop := rows_loop (by omega : basis.length - 1 < basis.length)
  rw [hlen] at hloop
  have hrows : ((List.range basis.length).map (subspaceRow basis)).mapM normalizeEvals =
      .ok ((List.range basis.length).map (normalizedRow basis)) := by
    rw [mapM_map]
    exact mapM_eq_map fun k hk => normalizeEvals_row (mem_range.mp hk)
  rw [GenericOnTheFly.generateFromSubspace,generateEvalsFromSubspace,BinarySubspace.dim,hloop,hrows]
  rfl

theorem generateFromSubspace_nil :
    GenericOnTheFly.generateFromSubspace (⟨[]⟩ : BinarySubspace F) = .error .failed := rfl

section Context

variable {context : GenericOnTheFly F}

theorem evals_getD (hevals : context.evals = (List.range basis.length).map (normalizedRow basis))
    {k : ℕ} (hk : k < basis.length) : context.evals.getD k [] = normalizedRow basis k := by
  rw [hevals,getD_eq_getElem _ _ (by simpa using hk)]
  simp

theorem logDomainSize_eq (hevals : context.evals = (List.range basis.length).map (normalizedRow basis)) :
    context.logDomainSize = basis.length := by
  rw [GenericOnTheFly.logDomainSize,hevals,length_map,length_range]

theorem subspace_eq (hevals : context.evals = (List.range basis.length).map (normalizedRow basis))
    {k : ℕ} (hk : k < basis.length) :
    context.subspace (basis.length - k) = .ok ⟨normalizedRow basis k⟩ := by
  have hne : basis.length - k ≠ 0 := by omega
  have hle : basis.length - k ≤ context.logDomainSize := by
    rw [logDomainSize_eq hevals]
    exact Nat.sub_le _ _
  have hback : basis.length - (basis.length - k) = k := by omega
  have hrow : index context.evals k = .ok (normalizedRow basis k) := by
    have hget : context.evals[k]? = some (normalizedRow basis k) := by
      rw [hevals,getElem?_map,getElem?_range hk]
      rfl
    rw [index,hget]
  rw [GenericOnTheFly.subspace,if_neg hne,require_true hle,logDomainSize_eq hevals,hback,hrow]
  rfl

theorem twiddleBasis_eq (hevals : context.evals = (List.range basis.length).map (normalizedRow basis))
    {layer : ℕ} (hl : layer < basis.length) : context.twiddleBasis layer =
      (basis.drop (basis.length - layer)).map fun b =>
        (normalized basis (basis.length - 1 - layer)).eval b := by
  have hk : basis.length - layer - 1 < basis.length := by omega
  have hsame : basis.length - layer - 1 = basis.length - 1 - layer := by omega
  have hnext : basis.length - layer - 1 + 1 = basis.length - layer := by omega
  rw [GenericOnTheFly.twiddleBasis,logDomainSize_eq hevals,evals_getD hevals hk,normalizedRow_cons hk,
    tail_cons,hnext,hsame]

theorem evalsAtDomainIndex_eq [CharP F 2]
    (hevals : context.evals = (List.range basis.length).map (normalizedRow basis)) {idx : ℕ}
    (hidx : idx < 2 ^ basis.length) : evalsAtDomainIndex context.subspaceContext idx =
      .ok ((List.range basis.length).map fun k => (normalized basis k).eval (elementAt basis idx)) := by
  have hlog : context.subspaceContext.logDomainSize = basis.length := logDomainSize_eq hevals
  have hlt : idx < 1 <<< basis.length := by
    rw [Nat.shiftLeft_eq,one_mul]
    exact hidx
  rw [evalsAtDomainIndex,hlog,require_true hlt]
  refine mapM_eq_map fun k hk => ?_
  have hk' := mem_range.mp hk
  have hsubspace : context.subspaceContext.subspace (basis.length - k) =
      .ok ⟨normalizedRow basis k⟩ := subspace_eq hevals hk'
  have hdim : idx >>> k < 1 <<< (⟨normalizedRow basis k⟩ : BinarySubspace F).dim := by
    rw [BinarySubspace.dim,normalizedRow_length,Nat.shiftRight_eq_div_pow,Nat.shiftLeft_eq,one_mul,
      Nat.div_lt_iff_lt_mul (Nat.two_pow_pos k),←pow_add,Nat.sub_add_cancel hk'.le]
    exact hidx
  rw [hsubspace]
  simp only [ok_bind,BinarySubspace.get,require_true hdim]
  refine congrArg ok ?_
  rw [elementAt_eq,elementAt_eq,eval_normalized_subsetSum basis hk'.le,Nat.shiftRight_eq_div_pow,
    normalizedRow]

end Context

section Points

variable [CharP F 2] [DecidableEq F] {context : GenericOnTheFly F}

/-- The constant that leads from a normalised polynomial to the next. -/
noncomputable def stepConstant (basis : List F) (k : ℕ) : F :=
  ((normalized basis k).eval (element basis (k + 1)) *
    ((normalized basis k).eval (element basis (k + 1)) + 1))⁻¹

theorem new_eq (h : Independent basis) (hne : basis ≠ [])
    (hevals : context.evals = (List.range basis.length).map (normalizedRow basis)) :
    NormalizedSubspacePolys.new context.subspaceContext =
      .ok ⟨(List.range (basis.length - 1)).map (stepConstant basis),1⁻¹⟩ := by
  have hpos : 0 < basis.length := length_pos_iff.mpr hne
  have hlog : context.subspaceContext.logDomainSize = basis.length := logDomainSize_eq hevals
  have hfirst : context.subspaceContext.subspace basis.length = .ok ⟨normalizedRow basis 0⟩ :=
    subspace_eq hevals hpos
  have hbeta : index (normalizedRow basis 0) 0 = .ok 1 := by
    rw [normalizedRow_cons hpos,eval_normalized_self h hpos]
    rfl
  have hsteps : ((List.range (basis.length - 1)).mapM fun k => do
      let subspace ← context.subspaceContext.subspace (basis.length - k)
      let d ← index subspace.basis 1
      let step := d * (d + 1)
      require (step ≠ 0)
      return step⁻¹) = ok ((List.range (basis.length - 1)).map (stepConstant basis)) := by
    refine mapM_eq_map fun k hk => ?_
    have hk' : k + 1 < basis.length := by
      rw [mem_range] at hk
      omega
    have hsubspace : context.subspaceContext.subspace (basis.length - k) =
        .ok ⟨normalizedRow basis k⟩ := subspace_eq hevals (by omega)
    have hsecond : index (normalizedRow basis k) 1 =
        .ok ((normalized basis k).eval (element basis (k + 1))) := by
      rw [normalizedRow_cons (by omega),drop_element basis hk',map_cons]
      rfl
    have hnonzero := (eval_normalized_succ h hk' 0).1
    rw [hsubspace]
    simp only [ok_bind,hsecond,require_true hnonzero]
    rfl
  have hone : 1 ≤ basis.length := hpos
  rw [NormalizedSubspacePolys.new,hlog,require_true hone]
  simp only [ok_bind,hsteps,hfirst,hbeta,require_true (one_ne_zero (α := F))]
  rfl

omit [DecidableEq F] in
theorem evalsAt_eq (h : Independent basis) (hne : basis ≠ []) {polys : NormalizedSubspacePolys F} {x : F}
    (hstep : polys.stepInv = (List.range (basis.length - 1)).map (stepConstant basis))
    (hfirst : x * polys.beta0Inv = (normalized basis 0).eval x) :
    polys.evalsAt x = (List.range basis.length).map fun k => (normalized basis k).eval x := by
  have hpos : 0 < basis.length := length_pos_iff.mpr hne
  have hloop : ∀ n, n < basis.length → ((List.range n).map (stepConstant basis)).foldl
      (fun (state : List F × F) stepInv =>
        (state.1 ++ [state.2 * ((state.2 + 1) * stepInv)],state.2 * ((state.2 + 1) * stepInv)))
        ([(normalized basis 0).eval x],(normalized basis 0).eval x) =
      ((List.range (n + 1)).map (fun k => (normalized basis k).eval x),(normalized basis n).eval x) := by
    intro n
    induction n with
    | zero => exact fun _ => rfl
    | succ n ih =>
      intro hn
      have hnext := (eval_normalized_succ h hn x).2
      rw [mul_assoc] at hnext
      rw [range_succ,map_append,foldl_append,ih (by omega),map_singleton,
        foldl_cons,foldl_nil,stepConstant,←hnext,range_succ (n := n + 1),map_append,
        map_singleton]
  have hlen : basis.length - 1 + 1 = basis.length := by omega
  have hall := hloop (basis.length - 1) (by omega)
  rw [hlen] at hall
  rw [NormalizedSubspacePolys.evalsAt,hstep]
  simp only [hfirst]
  rw [hall]

omit [DecidableEq F] [CharP F 2] in
theorem evalsAt_head (polys : NormalizedSubspacePolys F) (x : F) :
    (polys.evalsAt x).head? = some (x * polys.beta0Inv) := by
  have hloop : ∀ (steps : List F) (state : List F × F), (steps.foldl (fun state stepInv =>
      (state.1 ++ [state.2 * ((state.2 + 1) * stepInv)],state.2 * ((state.2 + 1) * stepInv))) state).1 =
        state.1 ++ ((steps.foldl (fun state stepInv =>
          (state.1 ++ [state.2 * ((state.2 + 1) * stepInv)],state.2 * ((state.2 + 1) * stepInv)))
          ([],state.2)).1) := by
    intro steps
    induction steps with
    | nil => exact fun state => (append_nil _).symm
    | cons step steps ih =>
      intro state
      rw [foldl_cons,ih,foldl_cons,ih (_ ++ _,_),nil_append,append_assoc]
  rw [NormalizedSubspacePolys.evalsAt]
  simp only
  rw [hloop]
  rfl

end Points

/-- What the transforms over the generic context of a basis should do: evaluate in the novel basis,
be undone by the inverse and adjoint to the transpose, and agree with the two evaluations of the
subspace polynomials. -/
structure EvaluatesNovelBasis [Algebra (ZMod 2) F] [DecidableEq F] (basis : List F)
    (context : GenericOnTheFly F) : Prop where
  /-- The forward transform evaluates at the subset sums of the basis. -/
  forward : ∀ c : Memory F, ∃ result,
    neighborsLastReference context.domainContext basis.length 0 0 c = .ok result ∧
      ∀ i < 2 ^ basis.length, result i =
        ∑ j ∈ Finset.range (2 ^ basis.length), c j * (novel basis j).eval (elementAt basis i)
  inverse : ∀ logD skipEarly skipLate : ℕ,
    inputCheck context.domainContext logD skipEarly skipLate = .ok () → ∀ data, ∃ result,
      neighborsLastReference context.domainContext logD skipEarly skipLate data = .ok result ∧
        inverseTransform context.domainContext logD skipEarly skipLate result = .ok data
  transpose : ∀ logD skipEarly skipLate : ℕ,
    inputCheck context.domainContext logD skipEarly skipLate = .ok () → ∀ a m, ∃ transposed result,
      transposeTransform context.domainContext logD skipEarly skipLate a = .ok transposed ∧
        neighborsLastReference context.domainContext logD skipEarly skipLate m = .ok result ∧
          ∑ i ∈ Finset.range (2 ^ logD), transposed i * m i =
            ∑ i ∈ Finset.range (2 ^ logD), a i * result i
  /-- The evaluation at a point of the domain is the one at its index. -/
  points : ∃ polys, NormalizedSubspacePolys.new context.subspaceContext = .ok polys ∧
    ∀ i < 2 ^ basis.length, evalsAtDomainIndex context.subspaceContext i =
      .ok (polys.evalsAt (elementAt basis i))

variable [Algebra (ZMod 2) F]

theorem forward_novel (h : Independent basis) {context : GenericOnTheFly F}
    (hevals : context.evals = (List.range basis.length).map (normalizedRow basis)) (c : Memory F) :
    ∃ result, neighborsLastReference context.domainContext basis.length 0 0 c = .ok result ∧
      ∀ i < 2 ^ basis.length, result i =
        ∑ j ∈ Finset.range (2 ^ basis.length), c j * (novel basis j).eval (elementAt basis i) := by
  have hchar : CharP F 2 := charP_two
  have hlog : context.domainContext.logDomainSize = basis.length := logDomainSize_eq hevals
  have hcheck : inputCheck context.domainContext basis.length 0 0 = .ok () := by
    rw [inputCheck,require_true (Nat.zero_le _),hlog]
    exact require_true (le_refl _)
  obtain ⟨f,hrun,hf⟩ := neighborsLastReference_performs context.domainContext hcheck
  refine ⟨f c,hrun c,fun i hi => ?_⟩
  have htwiddle : ∀ layer < basis.length, ∀ b < 2 ^ layer, context.domainContext.twiddle layer b =
      subsetSum ((basis.drop (basis.length - layer)).map fun b =>
        (normalized basis (basis.length - 1 - layer)).eval b) b := by
    intro layer hl b _
    rw [←twiddleBasis_eq hevals hl,←elementAt_eq]
    rfl
  rw [(hf c i).1 (mem_block_zero.mpr hi),Nat.sub_zero,layers_novel h htwiddle c i hi,elementAt_eq]

/-- The transforms over a basis do what they should exactly if its first element is one. -/
theorem evaluatesNovelBasis_iff [DecidableEq F] (h : LinearIndependent (ZMod 2) basis.get) :
    (∃ context, GenericOnTheFly.generateFromSubspace ⟨basis⟩ = .ok context ∧
      EvaluatesNovelBasis basis context) ↔ basis.head? = some 1 := by
  have hchar : CharP F 2 := charP_two
  have hind := independent_of_linearIndependent h
  by_cases hne : basis = []
  · subst hne
    refine ⟨fun hall => ?_,fun hhead => nomatch hhead⟩
    obtain ⟨context,hcontext,-⟩ := hall
    rw [generateFromSubspace_nil] at hcontext
    cases hcontext
  · have hpos : 0 < basis.length := length_pos_iff.mpr hne
    have hfirst : basis.head? = some (element basis 0) := by
      rw [head?_eq_getElem?,getElem?_eq_getElem hpos,element,getD_eq_getElem basis 0 hpos]
    have hvanish : ∀ x, (normalized basis 0).eval x = (element basis 0)⁻¹ * x := by
      intro x
      rw [eval_normalized,take_zero,eval_vanishing_nil,eval_vanishing_nil]
    obtain ⟨evals,hevals⟩ : ∃ evals, evals = (List.range basis.length).map (normalizedRow basis) :=
      ⟨_,rfl⟩
    have hgenerate := generateFromSubspace_eq hne
    rw [←hevals] at hgenerate
    have hnew : NormalizedSubspacePolys.new (⟨evals⟩ : GenericOnTheFly F).subspaceContext =
        .ok ⟨(List.range (basis.length - 1)).map (stepConstant basis),1⁻¹⟩ := new_eq hind hne hevals
    rw [hfirst,Option.some.injEq]
    constructor
    · intro hall
      obtain ⟨context,hcontext,hall⟩ := hall
      have hsame : context = ⟨evals⟩ := ok.inj (hcontext.symm.trans hgenerate)
      obtain ⟨polys,hpolys,hpoints⟩ := hall.points
      rw [hsame,hnew] at hpolys
      have hone : 1 < 2 ^ basis.length := Nat.one_lt_two_pow hpos.ne'
      have hindex := hpoints 1 hone
      rw [hsame,evalsAtDomainIndex_eq hevals hone] at hindex
      have hhead := congrArg head? (ok.inj hindex)
      have hpoint : elementAt basis 1 = element basis 0 := by
        have hdrop := drop_element basis hpos
        rw [drop_zero] at hdrop
        rw [elementAt_eq]
        conv_lhs => rw [hdrop,subsetSum,if_pos rfl,Nat.div_eq_of_lt Nat.one_lt_two,subsetSum_zero,
          add_zero]
      have hrange : ((List.range basis.length).map fun k =>
          (normalized basis k).eval (elementAt basis 1)).head? =
            some ((normalized basis 0).eval (elementAt basis 1)) := by
        rw [head?_map,head?_range,if_neg hpos.ne']
        rfl
      rw [hrange,evalsAt_head,hpoint,eval_normalized_self hind hpos,←ok.inj hpolys,inv_one,mul_one,
        Option.some.injEq] at hhead
      exact hhead.symm
    · intro hbeta
      refine ⟨⟨evals⟩,hgenerate,?_⟩
      refine ⟨forward_novel hind hevals,fun logD skipEarly skipLate hcheck data =>
        inverseTransform_undoes _ hcheck data,fun logD skipEarly skipLate hcheck a m =>
          transposeTransform_adjoint _ hcheck a m,?_⟩
      refine ⟨_,hnew,fun i hi => ?_⟩
      have hstart : elementAt basis i * 1⁻¹ = (normalized basis 0).eval (elementAt basis i) := by
        rw [hvanish,hbeta,inv_one,mul_one,one_mul]
      have heval : (⟨(List.range (basis.length - 1)).map (stepConstant basis),1⁻¹⟩ :
          NormalizedSubspacePolys F).evalsAt (elementAt basis i) = (List.range basis.length).map fun k =>
            (normalized basis k).eval (elementAt basis i) := evalsAt_eq hind hne rfl hstart
      rw [evalsAtDomainIndex_eq hevals hi,heval]

/-- The smallest binary field that has an element other than zero and one. -/
inductive Quaternary where
  | zero
  | one
  /-- A root of `X ^ 2 + X + 1`. -/
  | root
  | conj
deriving DecidableEq

namespace Quaternary

/-- Addition. -/
def add : Quaternary → Quaternary → Quaternary
  | zero, y => y
  | x, zero => x
  | one, root => conj
  | root, one => conj
  | one, conj => root
  | conj, one => root
  | root, conj => one
  | conj, root => one
  | one, one => zero
  | root, root => zero
  | conj, conj => zero

/-- Multiplication. -/
def mul : Quaternary → Quaternary → Quaternary
  | zero, _ => zero
  | _, zero => zero
  | one, y => y
  | x, one => x
  | root, root => conj
  | root, conj => one
  | conj, root => one
  | conj, conj => root

/-- The inverse, zero at zero. -/
def inv : Quaternary → Quaternary
  | zero => zero
  | one => one
  | root => conj
  | conj => root

instance : Fintype Quaternary := ⟨{zero,one,root,conj},fun x => by cases x <;> decide⟩

instance : Zero Quaternary := ⟨zero⟩

instance : One Quaternary := ⟨one⟩

instance : Add Quaternary := ⟨add⟩

instance : Neg Quaternary := ⟨id⟩

instance : Field Quaternary where
  mul := mul
  inv := inv
  add_assoc := by decide
  zero_add := by decide
  add_zero := by decide
  add_comm := by decide
  neg_add_cancel := by decide
  mul_assoc := by decide
  one_mul := by decide
  mul_one := by decide
  mul_comm := by decide
  left_distrib := by decide
  right_distrib := by decide
  zero_mul := by decide
  mul_zero := by decide
  mul_inv_cancel := by decide
  inv_zero := rfl
  exists_pair_ne := ⟨zero,one,by decide⟩
  nsmul := nsmulRec
  zsmul := zsmulRec
  nnqsmul := _
  nnqsmul_def := fun _ _ => rfl
  qsmul := _
  qsmul_def := fun _ _ => rfl

instance : CharP Quaternary 2 := CharTwo.of_one_ne_zero_of_two_eq_zero (by decide) (by decide)

instance : Algebra (ZMod 2) Quaternary := ZMod.algebra Quaternary 2

end Quaternary

theorem linearIndependent_two {x y : F} (hx : x ≠ 0) (hy : y ≠ 0) (hxy : x ≠ y) :
    LinearIndependent (ZMod 2) [x,y].get := by
  have hsmul : ∀ a : ZMod 2, a • y ≠ x := by
    intro a hay
    rcases (by decide : ∀ a : ZMod 2, a = 0 ∨ a = 1) a with ha | ha
    · rw [ha,zero_smul] at hay
      exact hx hay.symm
    · rw [ha,one_smul] at hay
      exact hxy hay.symm
  exact linearIndependent_fin2.mpr ⟨hy,hsmul⟩

/-- A basis that starts with one. -/
theorem evaluatesNovelBasis_one_root :
    (∃ context, GenericOnTheFly.generateFromSubspace ⟨[1,Quaternary.root]⟩ = .ok context ∧
      EvaluatesNovelBasis [1,Quaternary.root] context) ↔ [1,Quaternary.root].head? = some 1 :=
  evaluatesNovelBasis_iff (linearIndependent_two (by decide) (by decide) (by decide))

/-- Over a basis that starts with another element the two evaluations part. -/
theorem evaluations_part : LinearIndependent (ZMod 2) [Quaternary.root,1].get ∧
    ¬∃ context, GenericOnTheFly.generateFromSubspace ⟨[Quaternary.root,1]⟩ = .ok context ∧
      EvaluatesNovelBasis [Quaternary.root,1] context := by
  refine ⟨linearIndependent_two (by decide) (by decide) (by decide),fun hall => ?_⟩
  obtain ⟨context,hcontext,hall⟩ := hall
  have hrows : GenericOnTheFly.generateFromSubspace ⟨[Quaternary.root,1]⟩ =
      .ok ⟨[[1,Quaternary.conj],[1]]⟩ := rfl
  rw [hrows] at hcontext
  obtain ⟨polys,hpolys,hpoints⟩ := hall.points
  rw [←ok.inj hcontext] at hpolys hpoints
  have hnew : NormalizedSubspacePolys.new
      (⟨[[1,Quaternary.conj],[1]]⟩ : GenericOnTheFly Quaternary).subspaceContext = .ok ⟨[1],1⟩ := rfl
  have hindex : evalsAtDomainIndex
      (⟨[[1,Quaternary.conj],[1]]⟩ : GenericOnTheFly Quaternary).subspaceContext 1 = .ok [1,0] := rfl
  have hpoint := hpoints 1 (by decide)
  rw [hindex,←ok.inj (hnew.symm.trans hpolys)] at hpoint
  exact absurd (ok.inj hpoint) (by decide)

end Binius64.Ntt
