import Binius64.FusionPatch

/-!
# Gate fusion preserves the constraints

Each patch rebuilds one constraint over the inlined cones.
-/

namespace Binius64.GateFusion

open WireConstraints LinearGraph PostOrder CommitSet FusionPatch List

theorem mapM_forall₂ {β γ : Type} {step : β → Fused γ} {R : β → γ → Prop} (xs : List β)
    (h : ∀ x ∈ xs, ∃ y, step x = .ok y ∧ R x y) :
    ∃ ys, xs.mapM step = .ok ys ∧ List.Forall₂ R xs ys := by
  induction xs with
  | nil => exact ⟨[],rfl,.nil⟩
  | cons x rest ih =>
    rw [forall_mem_cons] at h
    obtain ⟨y,hy,hr⟩ := h.1
    obtain ⟨ys,hys,hrs⟩ := ih h.2
    refine ⟨y :: ys,?_,.cons hr hrs⟩
    rw [mapM_cons,hy,ok_bind,hys,ok_bind]
    rfl

section Patches

variable {cb : ConstraintBuilder} {committed : List Wire}

def RebuiltFrom {C : Type} [WireConstraint C] (cb : ConstraintBuilder) (committed : List Wire)
    (c d : C) : Prop :=
  List.Forall₂ (fun old new => ∃ refs, Expands cb committed old (new,refs))
    (WireConstraint.operands c) (WireConstraint.operands d)

def Absorbed (cb : ConstraintBuilder) (committed : List Wire) (name : ConstraintRef) : Prop :=
  ∃ w ∈ cb.linearDsts, w ∉ committed ∧ name = .linear (cb.linearDsts.idxOf w)

variable {C : Type}

theorem RebuiltFrom.holds_iff [WireConstraint C] {c d : C}
    (h : RebuiltFrom cb committed c d) {σ : Assignment}
    (hσ : ∀ lin ∈ cb.linearConstraints, lin.dst ∉ committed → lin.Holds σ) :
    WireConstraint.Holds σ d ↔ WireConstraint.Holds σ c := by
  have hmap : ∀ {olds news : List WireOperand},
      List.Forall₂ (fun old new => ∃ refs, Expands cb committed old (new,refs)) olds news →
        news.map (evalWires σ) = olds.map (evalWires σ) := by
    intro olds news hall
    induction hall with
    | nil => rfl
    | cons hhead _ ih =>
      obtain ⟨refs,he⟩ := hhead
      rw [map_cons,map_cons,ih,he.eval σ hσ]
  exact WireConstraint.holds_congr σ σ d c (hmap h)

theorem RebuiltFrom.operand [WireConstraint C] {c d : C}
    (h : RebuiltFrom cb committed c d) {operand : WireOperand}
    (ho : operand ∈ WireConstraint.operands d) :
    ∃ old ∈ WireConstraint.operands c, ∃ refs, Expands cb committed old (operand,refs) := by
  have hmem : ∀ {olds news : List WireOperand},
      List.Forall₂ (fun old new => ∃ refs, Expands cb committed old (new,refs)) olds news →
        operand ∈ news → ∃ old ∈ olds, ∃ refs, Expands cb committed old (operand,refs) := by
    intro olds news hall
    induction hall with
    | nil => exact fun ho => absurd ho not_mem_nil
    | cons hhead _ ih =>
      intro ho
      rcases mem_cons.mp ho with rfl | ho
      · exact ⟨_,mem_cons_self,hhead⟩
      · obtain ⟨old,hold,he⟩ := ih ho
        exact ⟨old,mem_cons_of_mem _ hold,he⟩
  exact hmem h ho

def Rebuilds {C : Type} [WireConstraint C] (cb : ConstraintBuilder) (committed : List Wire)
    (c : C) (new : C × List ConstraintRef) : Prop :=
  RebuiltFrom cb committed c new.1 ∧ ∀ name ∈ new.2, Absorbed cb committed name

section Rebuild

variable {process : WireOperand → Fused Rebuilt}

theorem rebuildAnd_ok (c : WireAndConstraint)
    (h : ∀ o ∈ WireConstraint.operands c, ∃ out, process o = .ok out ∧
      Expands cb committed o out) :
    ∃ new, rebuildAnd process c = .ok new ∧ Rebuilds cb committed c new := by
  obtain ⟨a,ha,hea⟩ := h c.a (by simp [WireConstraint.operands])
  obtain ⟨b,hb,heb⟩ := h c.b (by simp [WireConstraint.operands])
  obtain ⟨d,hd,hed⟩ := h c.c (by simp [WireConstraint.operands])
  refine ⟨(⟨a.1,b.1,d.1⟩,a.2 ++ b.2 ++ d.2),?_,?_,?_⟩
  · rw [rebuildAnd,ha,ok_bind,hb,ok_bind,hd,ok_bind]
    rfl
  · exact .cons ⟨_,hea⟩ (.cons ⟨_,heb⟩ (.cons ⟨_,hed⟩ .nil))
  · intro name hn
    simp only [mem_append] at hn
    rcases hn with (hn | hn) | hn
    · exact hea.refs name hn
    · exact heb.refs name hn
    · exact hed.refs name hn

theorem rebuildImul_ok (c : WireImulConstraint)
    (h : ∀ o ∈ WireConstraint.operands c, ∃ out, process o = .ok out ∧
      Expands cb committed o out) :
    ∃ new, rebuildImul process c = .ok new ∧ Rebuilds cb committed c new := by
  obtain ⟨a,ha,hea⟩ := h c.a (by simp [WireConstraint.operands])
  obtain ⟨b,hb,heb⟩ := h c.b (by simp [WireConstraint.operands])
  obtain ⟨lo,hlo,helo⟩ := h c.lo (by simp [WireConstraint.operands])
  obtain ⟨hi,hhi,hehi⟩ := h c.hi (by simp [WireConstraint.operands])
  refine ⟨(⟨a.1,b.1,hi.1,lo.1⟩,a.2 ++ b.2 ++ lo.2 ++ hi.2),?_,?_,?_⟩
  · rw [rebuildImul,ha,ok_bind,hb,ok_bind,hlo,ok_bind,hhi,ok_bind]
    rfl
  · exact .cons ⟨_,hea⟩ (.cons ⟨_,heb⟩ (.cons ⟨_,helo⟩ (.cons ⟨_,hehi⟩ .nil)))
  · intro name hn
    simp only [mem_append] at hn
    rcases hn with ((hn | hn) | hn) | hn
    · exact hea.refs name hn
    · exact heb.refs name hn
    · exact helo.refs name hn
    · exact hehi.refs name hn

theorem rebuildBmul_ok (c : WireBmulConstraint)
    (h : ∀ o ∈ WireConstraint.operands c, ∃ out, process o = .ok out ∧
      Expands cb committed o out) :
    ∃ new, rebuildBmul process c = .ok new ∧ Rebuilds cb committed c new := by
  obtain ⟨aLo,haLo,heaLo⟩ := h c.aLo (by simp [WireConstraint.operands])
  obtain ⟨aHi,haHi,heaHi⟩ := h c.aHi (by simp [WireConstraint.operands])
  obtain ⟨bLo,hbLo,hebLo⟩ := h c.bLo (by simp [WireConstraint.operands])
  obtain ⟨bHi,hbHi,hebHi⟩ := h c.bHi (by simp [WireConstraint.operands])
  obtain ⟨cLo,hcLo,hecLo⟩ := h c.cLo (by simp [WireConstraint.operands])
  obtain ⟨cHi,hcHi,hecHi⟩ := h c.cHi (by simp [WireConstraint.operands])
  refine ⟨(⟨aLo.1,aHi.1,bLo.1,bHi.1,cLo.1,cHi.1⟩,
    aLo.2 ++ aHi.2 ++ bLo.2 ++ bHi.2 ++ cLo.2 ++ cHi.2),?_,?_,?_⟩
  · rw [rebuildBmul,haLo,ok_bind,haHi,ok_bind,hbLo,ok_bind,hbHi,ok_bind,hcLo,ok_bind,hcHi,
      ok_bind]
    rfl
  · exact .cons ⟨_,heaLo⟩ (.cons ⟨_,heaHi⟩ (.cons ⟨_,hebLo⟩ (.cons ⟨_,hebHi⟩
      (.cons ⟨_,hecLo⟩ (.cons ⟨_,hecHi⟩ .nil)))))
  · intro name hn
    simp only [mem_append] at hn
    rcases hn with ((((hn | hn) | hn) | hn) | hn) | hn
    · exact heaLo.refs name hn
    · exact heaHi.refs name hn
    · exact hebLo.refs name hn
    · exact hebHi.refs name hn
    · exact hecLo.refs name hn
    · exact hecHi.refs name hn

theorem rebuildZero_ok (c : WireZeroConstraint)
    (h : ∀ o ∈ WireConstraint.operands c, ∃ out, process o = .ok out ∧
      Expands cb committed o out) :
    ∃ new, rebuildZero process c = .ok new ∧ Rebuilds cb committed c new := by
  obtain ⟨val,hval,heval⟩ := h c.val (by simp [WireConstraint.operands])
  refine ⟨(⟨val.1⟩,val.2),?_,?_,heval.refs⟩
  · rw [rebuildZero,hval,ok_bind]
    rfl
  · exact .cons ⟨_,heval⟩ .nil

end Rebuild

def Adds (cb : ConstraintBuilder) (committed : List Wire) : ConstraintRef → AddedConstraint → Prop
  | .and i, .and d => ∃ c, cb.andConstraints[i]? = some c ∧ RebuiltFrom cb committed c d
  | .imul i, .imul d => ∃ c, cb.imulConstraints[i]? = some c ∧ RebuiltFrom cb committed c d
  | .bmul i, .bmul d => ∃ c, cb.bmulConstraints[i]? = some c ∧ RebuiltFrom cb committed c d
  | .zero i, .zero d => ∃ c, cb.zeroConstraints[i]? = some c ∧ RebuiltFrom cb committed c d
  | .linear i, .linear d => ∃ lin, cb.linearConstraints[i]? = some lin ∧ d.dst = lin.dst ∧
      lin.dst ∈ committed ∧ ∃ refs, Expands cb committed lin.rhs (d.rhs,refs)
  | _, _ => False

structure PatchFor (cb : ConstraintBuilder) (committed : List Wire) (name : ConstraintRef)
    (p : Patch) : Prop where
  self : name ∈ p.subsumes
  others : ∀ r ∈ p.subsumes, r = name ∨ Absorbed cb committed r
  adds : Adds cb committed name p.added

variable {name : ConstraintRef} {order : List Node} {d : Decision} {names : List ConstraintRef}
   {patches : List Patch}

theorem rebuildPatch_ok [WireConstraint C] {rebuild : C → Fused (C × List ConstraintRef)}
    {add : C → AddedConstraint} {constraints : List C} {index : ℕ} {c : C}
    (hc : constraints[index]? = some c)
    (hr : ∃ new, rebuild c = .ok new ∧ Rebuilds cb committed c new)
    (hadd : ∀ d, RebuiltFrom cb committed c d → Adds cb committed name (add d)) :
    ∃ p, rebuildPatch rebuild add constraints index name = .ok p ∧
      PatchFor cb committed name p := by
  obtain ⟨new,hnew,hreb,hrefs⟩ := hr
  refine ⟨⟨name :: new.2,add new.1⟩,?_,mem_cons_self,?_,hadd _ hreb⟩
  · rw [rebuildPatch,fetch,hc,ok_bind,hnew]
    rfl
  · intro r hmem
    exact (mem_cons.mp hmem).imp_right (hrefs r)

theorem mem_insertRef {r : ConstraintRef} (names : List ConstraintRef) :
    r ∈ insertRef name names ↔ r = name ∨ r ∈ names := by
  induction names with
  | nil => rw [insertRef,mem_cons]
  | cons first rest ih =>
    rw [insertRef]
    by_cases heq : name = first
    · rw [if_pos heq,mem_cons,heq]
      exact ⟨fun h => .inr h,fun h => h.elim .inl id⟩
    · rw [if_neg heq]
      split
      · rw [mem_cons]
      · rw [mem_cons,ih,mem_cons]
        tauto

theorem mem_sortDedup {r : ConstraintRef} (names : List ConstraintRef) :
    r ∈ sortDedup names ↔ r ∈ names := by
  induction names with
  | nil => rfl
  | cons first rest ih =>
    rw [sortDedup] at ih ⊢
    rw [foldr_cons,mem_insertRef,ih,mem_cons]

theorem mem_entityIter {w : Wire} (wires : List Wire) : w ∈ entityIter wires ↔ w ∈ wires := by
  have hle : w ∈ wires → w ≤ wires.foldr max 0 := by
    induction wires with
    | nil => exact fun h => absurd h not_mem_nil
    | cons v rest ih =>
      intro h
      rw [foldr_cons]
      rcases mem_cons.mp h with rfl | h
      · exact Nat.le_max_left _ _
      · exact (ih h).trans (Nat.le_max_right _ _)
  rw [entityIter,mem_filter,mem_range,decide_eq_true_eq]
  exact ⟨fun h => h.2,fun h => ⟨Nat.lt_succ_of_le (hle h),h⟩⟩

def patchNames (cb : ConstraintBuilder) (committed : List Wire) : List ConstraintRef :=
  sortDedup (closedForm cb).roots ++
    (entityIter committed).map fun w => .linear (cb.linearDsts.idxOf w)

theorem mem_roots :
    name ∈ (closedForm cb).roots ↔ ∃ t, (name,t) ∈ rootUses cb := by
  simp [closedForm,LeGraph.withRootUses,LeGraph.withDefinitions,LeGraph.withLinDefs,LeGraph.empty]

theorem buildRootPatch_ok
    (h : Decided cb order d committed)
    (hn : name ∈ (closedForm cb).roots) :
    ∃ p, buildRootPatch cb (committedGraph cb committed) name = .ok p ∧
      PatchFor cb committed name p := by
  have hroot : ∀ {operand : WireOperand}, operand ∈ cb.rootOperands →
      ∃ out, processOperand cb (committedGraph cb committed) operand = .ok out ∧
        Expands cb committed operand out :=
    fun ho => h.processOperand_ok fun t ht => h.ready_rootTerm ho ht
  obtain ⟨t,ht⟩ := mem_roots.mp hn
  rcases mem_rootUses.mp ht with ⟨c,i,hi,rfl,_⟩ | ⟨c,i,hi,rfl,_⟩ | ⟨c,i,hi,rfl,_⟩ |
    ⟨c,i,hi,rfl,_⟩ <;>
    have hc := mem_of_getElem? hi
  · refine rebuildPatch_ok hi (rebuildAnd_ok c fun o ho => ?_) fun e he => ⟨c,hi,he⟩
    exact hroot (ConstraintBuilder.mem_rootOperands.mpr (.inl ⟨c,hc,ho⟩))
  · refine rebuildPatch_ok hi (rebuildImul_ok c fun o ho => ?_) fun e he => ⟨c,hi,he⟩
    exact hroot (ConstraintBuilder.mem_rootOperands.mpr (.inr (.inl ⟨c,hc,ho⟩)))
  · refine rebuildPatch_ok hi (rebuildBmul_ok c fun o ho => ?_) fun e he => ⟨c,hi,he⟩
    exact hroot (ConstraintBuilder.mem_rootOperands.mpr (.inr (.inr (.inl ⟨c,hc,ho⟩))))
  · refine rebuildPatch_ok hi (rebuildZero_ok c fun o ho => ?_) fun e he => ⟨c,hi,he⟩
    exact hroot (ConstraintBuilder.mem_rootOperands.mpr (.inr (.inr (.inr ⟨c,hc,ho⟩))))

theorem buildCommittedLinDefPatch_ok
    (h : Decided cb order d committed) {w : Wire} (hw : w ∈ cb.linearDsts) (hc : w ∈ committed) :
    ∃ p, buildCommittedLinDefPatch cb (committedGraph cb committed) w = .ok p ∧
      PatchFor cb committed (.linear (cb.linearDsts.idxOf w)) p := by
  obtain ⟨lin,hl,rfl⟩ := mem_map.mp hw
  have hready : ∀ t ∈ lin.rhs, Ready cb d t := fun t ht => h.ready_defTerm hl ht
  obtain ⟨out,hout,he⟩ := h.processOperand_ok hready
  refine ⟨⟨.linear (cb.linearDsts.idxOf lin.dst) :: out.2,.linear ⟨out.1,lin.dst⟩⟩,?_,
    mem_cons_self,?_,?_⟩
  · rw [buildCommittedLinDefPatch,linDefConstraintRef_ok hl,ok_bind,
      linDefOperand_ok h.defined.distinct hl,ok_bind,hout]
    rfl
  · intro r hmem
    exact (mem_cons.mp hmem).imp_right (he.refs r)
  · exact ⟨lin,linearConstraints_idxOf h.defined.distinct hl,rfl,hc,out.2,he⟩

theorem build_ok (h : Decided cb order d committed)
    (hdsts : ∀ w ∈ committed, w ∈ cb.linearDsts) :
    ∃ patches, build cb (committedGraph cb committed) = .ok patches ∧
      List.Forall₂ (PatchFor cb committed) (patchNames cb committed) patches := by
  obtain ⟨roots,hroots,hr⟩ := mapM_forall₂ (R := PatchFor cb committed)
    (sortDedup (closedForm cb).roots)
    fun name hn => buildRootPatch_ok h ((mem_sortDedup _).mp hn)
  obtain ⟨lins,hlins,hl⟩ := mapM_forall₂
    (R := fun w => PatchFor cb committed (.linear (cb.linearDsts.idxOf w)))
    (entityIter committed) fun w hw =>
      have hc := (mem_entityIter committed).mp hw
      buildCommittedLinDefPatch_ok h (hdsts w hc) hc
  refine ⟨roots ++ lins,?_,?_⟩
  · rw [build]
    change (sortDedup (closedForm cb).roots).mapM
      (buildRootPatch cb (committedGraph cb committed)) >>= _ = _
    rw [hroots,ok_bind]
    change (entityIter committed).mapM
      (buildCommittedLinDefPatch cb (committedGraph cb committed)) >>= _ = _
    rw [hlins]
    rfl
  · refine rel_append hr ?_
    rw [forall₂_map_left_iff]
    exact hl

theorem mem_retainUnsubsumed {constraints : List C} {subsumed : ℕ → Bool} {c : C} :
    c ∈ retainUnsubsumed constraints subsumed ↔
      ∃ i, constraints[i]? = some c ∧ subsumed i = false := by
  simp only [retainUnsubsumed,mem_map,mem_filter,Prod.exists,exists_and_right,
    exists_eq_right,mem_zipIdx_iff_getElem?,Bool.not_eq_true']

def Kept (cb : ConstraintBuilder) (committed : List Wire) (w : Wire) : Prop :=
  w ∈ committed ∨ w ∉ cb.linearDsts

structure FusedKind {C : Type} [WireConstraint C] (cb : ConstraintBuilder) (committed : List Wire)
    (old new : List C) : Prop where
  holds_iff : ∀ σ, (∀ lin ∈ cb.linearConstraints, lin.dst ∉ committed → lin.Holds σ) →
    ((∀ c ∈ new, WireConstraint.Holds σ c) ↔ ∀ c ∈ old, WireConstraint.Holds σ c)
  /-- Every operand is untouched and names no definition, or an expansion. -/
  operand : ∀ c ∈ new, ∀ operand ∈ WireConstraint.operands c, operand ∈ cb.rootOperands ∧
      (∀ t ∈ operand, t.wire ∉ cb.linearDsts) ∨
    ∃ before ∈ cb.rootOperands, ∃ refs, Expands cb committed before (operand,refs)

theorem fusedKind [WireConstraint C] {old picks : List C} (named : ℕ → Bool)
    (hroot : ∀ c ∈ old, ∀ operand ∈ WireConstraint.operands c, operand ∈ cb.rootOperands)
    (hall : ∀ i c, old[i]? = some c → named i = false →
      ∀ operand ∈ WireConstraint.operands c, ∀ t ∈ operand, t.wire ∉ cb.linearDsts)
    (hpick : ∀ i, named i = true → ∃ c d, old[i]? = some c ∧ d ∈ picks ∧
      RebuiltFrom cb committed c d)
    (hfrom : ∀ d ∈ picks, ∃ (i : ℕ) (c : C), old[i]? = some c ∧ RebuiltFrom cb committed c d) :
    FusedKind cb committed old (retainUnsubsumed old named ++ picks) := by
  constructor
  · intro σ hσ
    rw [forall_mem_append]
    constructor
    · rintro ⟨hkeep,hnew⟩ c hc
      obtain ⟨i,hi⟩ := mem_iff_getElem?.mp hc
      cases hn : named i with
      | false => exact hkeep c (mem_retainUnsubsumed.mpr ⟨i,hi,hn⟩)
      | true =>
        obtain ⟨found,d,hfound,hd,hreb⟩ := hpick i hn
        rw [hi,Option.some.injEq] at hfound
        exact hfound ▸ (hreb.holds_iff hσ).mp (hnew d hd)
    · intro h
      refine ⟨fun c hc => ?_,fun d hd => ?_⟩
      · obtain ⟨i,hi,_⟩ := mem_retainUnsubsumed.mp hc
        exact h c (mem_of_getElem? hi)
      · obtain ⟨i,c,hi,hreb⟩ := hfrom d hd
        exact (hreb.holds_iff hσ).mpr (h c (mem_of_getElem? hi))
  · intro c hc operand ho
    rcases mem_append.mp hc with hc | hc
    · obtain ⟨i,hi,hn⟩ := mem_retainUnsubsumed.mp hc
      exact .inl ⟨hroot c (mem_of_getElem? hi) operand ho,hall i c hi hn operand ho⟩
    · obtain ⟨i,b,hi,hreb⟩ := hfrom c hc
      obtain ⟨before,hbefore,he⟩ := hreb.operand ho
      exact .inr ⟨before,hroot b (mem_of_getElem? hi) before hbefore,he⟩

theorem patch_of_name
    (h : List.Forall₂ (PatchFor cb committed) names patches)
    (hn : name ∈ names) : ∃ p ∈ patches, PatchFor cb committed name p := by
  induction h with
  | nil => exact absurd hn not_mem_nil
  | cons hp _ ih =>
    rcases mem_cons.mp hn with rfl | hn
    · exact ⟨_,mem_cons_self,hp⟩
    · obtain ⟨p,hmem,hp⟩ := ih hn
      exact ⟨p,mem_cons_of_mem _ hmem,hp⟩

theorem name_of_patch
    (h : List.Forall₂ (PatchFor cb committed) names patches) {p : Patch} (hp : p ∈ patches) :
    ∃ name ∈ names, PatchFor cb committed name p := by
  induction h with
  | nil => exact absurd hp not_mem_nil
  | cons hn _ ih =>
    rcases mem_cons.mp hp with rfl | hp
    · exact ⟨_,mem_cons_self,hn⟩
    · obtain ⟨name,hmem,hn⟩ := ih hp
      exact ⟨name,mem_cons_of_mem _ hmem,hn⟩

theorem mem_subsumes
    (h : List.Forall₂ (PatchFor cb committed) names patches)
    (hroot : ∀ i, name ≠ .linear i) :
    name ∈ patches.flatMap (·.subsumes) ↔ name ∈ names := by
  rw [mem_flatMap]
  constructor
  · rintro ⟨p,hp,hmem⟩
    obtain ⟨made,hmade,hpf⟩ := name_of_patch h hp
    rcases hpf.others name hmem with rfl | ⟨w,_,_,heq⟩
    · exact hmade
    · exact absurd heq (hroot _)
  · intro hn
    obtain ⟨p,hp,hpf⟩ := patch_of_name h hn
    exact ⟨p,hp,hpf.self⟩

structure PatchedKind {C : Type} [WireConstraint C] (cb : ConstraintBuilder)
    (committed : List Wire) (old : List C) (mk : ℕ → ConstraintRef)
    (pick : AddedConstraint → Option C) : Prop where
  root : ∀ i j, mk i ≠ .linear j
  /-- The operands are operands of constraints that define no wire. -/
  operands : ∀ c ∈ old, ∀ operand ∈ WireConstraint.operands c, operand ∈ cb.rootOperands
  use : ∀ i c, old[i]? = some c → ∀ operand ∈ WireConstraint.operands c, ∀ t ∈ operand,
    t.wire ∈ cb.linearDsts → mk i ∈ (closedForm cb).roots
  adds : ∀ i a, Adds cb committed (mk i) a →
    ∃ c d, old[i]? = some c ∧ pick a = some d ∧ RebuiltFrom cb committed c d
  /-- A constraint of the kind is added by the patch of one of the kind. -/
  picks : ∀ name a d, pick a = some d → Adds cb committed name a →
    ∃ (i : ℕ) (c : C), old[i]? = some c ∧ RebuiltFrom cb committed c d

theorem PatchedKind.fused [WireConstraint C] {old : List C} {mk : ℕ → ConstraintRef}
    {pick : AddedConstraint → Option C} (hk : PatchedKind cb committed old mk pick)
    (h : List.Forall₂ (PatchFor cb committed) (patchNames cb committed) patches) :
    FusedKind cb committed old
      (retainUnsubsumed old (fun i => decide (mk i ∈ patches.flatMap (·.subsumes))) ++
        patches.filterMap fun p => pick p.added) := by
  have hnamed : ∀ i, mk i ∈ patches.flatMap (·.subsumes) ↔ mk i ∈ patchNames cb committed :=
    fun i => mem_subsumes h (hk.root i)
  refine fusedKind _ hk.operands ?_ ?_ ?_
  · intro i c hi hn operand ho t ht hd
    have hroot := hk.use i c hi operand ho t ht hd
    refine absurd ((hnamed i).mpr ?_) (of_decide_eq_false hn)
    exact mem_append_left _ ((mem_sortDedup _).mpr hroot)
  · intro i hn
    obtain ⟨p,hp,hpf⟩ := patch_of_name h ((hnamed i).mp (of_decide_eq_true hn))
    obtain ⟨c,d,hi,hpick,hreb⟩ := hk.adds i p.added hpf.adds
    exact ⟨c,d,hi,mem_filterMap.mpr ⟨p,hp,hpick⟩,hreb⟩
  · intro d hd
    obtain ⟨p,hp,hpick⟩ := mem_filterMap.mp hd
    obtain ⟨name,_,hpf⟩ := name_of_patch h hp
    exact hk.picks name p.added d hpick hpf.adds

theorem patchedAnd : PatchedKind cb committed cb.andConstraints .and
    (fun | .and c => some c | _ => none) where
  root := nofun
  operands c hc o ho := ConstraintBuilder.mem_rootOperands.mpr (.inl ⟨c,hc,ho⟩)
  use i c hi o ho t ht hd :=
    mem_roots.mpr ⟨t,mem_rootUses.mpr (.inl ⟨c,i,hi,rfl,o,ho,ht,hd⟩)⟩
  adds i a h := by
    cases a with
    | and d => obtain ⟨c,hc,hreb⟩ := h; exact ⟨c,d,hc,rfl,hreb⟩
    | imul _ | bmul _ | zero _ | linear _ => exact h.elim
  picks name a d hp h := by
    cases a with
    | and d' =>
      cases hp
      cases name with
      | and i => obtain ⟨c,hc,hreb⟩ := h; exact ⟨i,c,hc,hreb⟩
      | imul _ | bmul _ | zero _ | linear _ => exact h.elim
    | imul _ | bmul _ | zero _ | linear _ => cases hp

theorem patchedImul : PatchedKind cb committed cb.imulConstraints .imul
    (fun | .imul c => some c | _ => none) where
  root := nofun
  operands c hc o ho := ConstraintBuilder.mem_rootOperands.mpr (.inr (.inl ⟨c,hc,ho⟩))
  use i c hi o ho t ht hd :=
    mem_roots.mpr ⟨t,mem_rootUses.mpr (.inr (.inl ⟨c,i,hi,rfl,o,ho,ht,hd⟩))⟩
  adds i a h := by
    cases a with
    | imul d => obtain ⟨c,hc,hreb⟩ := h; exact ⟨c,d,hc,rfl,hreb⟩
    | and _ | bmul _ | zero _ | linear _ => exact h.elim
  picks name a d hp h := by
    cases a with
    | imul d' =>
      cases hp
      cases name with
      | imul i => obtain ⟨c,hc,hreb⟩ := h; exact ⟨i,c,hc,hreb⟩
      | and _ | bmul _ | zero _ | linear _ => exact h.elim
    | and _ | bmul _ | zero _ | linear _ => cases hp

theorem patchedBmul : PatchedKind cb committed cb.bmulConstraints .bmul
    (fun | .bmul c => some c | _ => none) where
  root := nofun
  operands c hc o ho := ConstraintBuilder.mem_rootOperands.mpr (.inr (.inr (.inl ⟨c,hc,ho⟩)))
  use i c hi o ho t ht hd :=
    mem_roots.mpr ⟨t,mem_rootUses.mpr (.inr (.inr (.inl ⟨c,i,hi,rfl,o,ho,ht,hd⟩)))⟩
  adds i a h := by
    cases a with
    | bmul d => obtain ⟨c,hc,hreb⟩ := h; exact ⟨c,d,hc,rfl,hreb⟩
    | and _ | imul _ | zero _ | linear _ => exact h.elim
  picks name a d hp h := by
    cases a with
    | bmul d' =>
      cases hp
      cases name with
      | bmul i => obtain ⟨c,hc,hreb⟩ := h; exact ⟨i,c,hc,hreb⟩
      | and _ | imul _ | zero _ | linear _ => exact h.elim
    | and _ | imul _ | zero _ | linear _ => cases hp

theorem patchedZero : PatchedKind cb committed cb.zeroConstraints .zero
    (fun | .zero c => some c | _ => none) where
  root := nofun
  operands c hc o ho := ConstraintBuilder.mem_rootOperands.mpr (.inr (.inr (.inr ⟨c,hc,ho⟩)))
  use i c hi o ho t ht hd :=
    mem_roots.mpr ⟨t,mem_rootUses.mpr (.inr (.inr (.inr ⟨c,i,hi,rfl,o,ho,ht,hd⟩)))⟩
  adds i a h := by
    cases a with
    | zero d => obtain ⟨c,hc,hreb⟩ := h; exact ⟨c,d,hc,rfl,hreb⟩
    | and _ | imul _ | bmul _ | linear _ => exact h.elim
  picks name a d hp h := by
    cases a with
    | zero d' =>
      cases hp
      cases name with
      | zero i => obtain ⟨c,hc,hreb⟩ := h; exact ⟨i,c,hc,hreb⟩
      | and _ | imul _ | bmul _ | linear _ => exact h.elim
    | and _ | imul _ | bmul _ | linear _ => cases hp

/-- What fusion makes of the constraints as a whole. -/
structure FusedFrom (cb : ConstraintBuilder) (committed : List Wire) (fused : ConstraintBuilder) :
    Prop where
  and : FusedKind cb committed cb.andConstraints fused.andConstraints
  imul : FusedKind cb committed cb.imulConstraints fused.imulConstraints
  bmul : FusedKind cb committed cb.bmulConstraints fused.bmulConstraints
  zero : FusedKind cb committed cb.zeroConstraints fused.zeroConstraints
  /-- A definition left is one that is not committed, untouched, or a committed
  one over its expanded cone. -/
  linear : ∀ d ∈ fused.linearConstraints,
    (d ∈ cb.linearConstraints ∧ d.dst ∉ committed) ∨
      ∃ lin ∈ cb.linearConstraints, d.dst = lin.dst ∧ lin.dst ∈ committed ∧
        ∃ refs, Expands cb committed lin.rhs (d.rhs,refs)
  committed : ∀ lin ∈ cb.linearConstraints, lin.dst ∈ committed →
    ∃ d ∈ fused.linearConstraints, d.dst = lin.dst ∧
      ∃ refs, Expands cb committed lin.rhs (d.rhs,refs)

theorem applyPatches_fused (hn : cb.linearDsts.Nodup)
    (h : List.Forall₂ (PatchFor cb committed) (patchNames cb committed) patches) :
    FusedFrom cb committed (applyPatches cb patches) := by
  refine ⟨patchedAnd.fused h,patchedImul.fused h,patchedBmul.fused h,patchedZero.fused h,?_,?_⟩
  · intro d hd
    rcases mem_append.mp hd with hd | hd
    · obtain ⟨i,hi,hsub⟩ := mem_retainUnsubsumed.mp hd
      have hl := mem_of_getElem? hi
      refine .inl ⟨hl,fun hc => of_decide_eq_false hsub ?_⟩
      -- A committed definition is named, and its patch drops it.
      have hidx : cb.linearDsts.idxOf d.dst = i := by
        have hlen : i < cb.linearDsts.length := by
          rw [ConstraintBuilder.linearDsts,length_map]
          exact (List.getElem?_eq_some_iff.mp hi).1
        have hget : cb.linearDsts[i] = d.dst := by
          simp only [ConstraintBuilder.linearDsts,getElem_map,
            (List.getElem?_eq_some_iff.mp hi).2]
        rw [← hget]
        exact hn.idxOf_getElem i hlen
      have hname : ConstraintRef.linear i ∈ patchNames cb committed := by
        refine mem_append_right _ (mem_map.mpr ⟨d.dst,(mem_entityIter _).mpr hc,?_⟩)
        rw [hidx]
      obtain ⟨p,hp,hpf⟩ := patch_of_name h hname
      exact mem_flatMap.mpr ⟨p,hp,hpf.self⟩
    · obtain ⟨p,hp,hpick⟩ := mem_filterMap.mp hd
      obtain ⟨name,_,hpf⟩ := name_of_patch h hp
      have hadds := hpf.adds
      cases hadded : p.added with
      | and _ | imul _ | bmul _ | zero _ => rw [hadded] at hpick; cases hpick
      | linear d' =>
        rw [hadded] at hpick hadds
        cases hpick
        cases name with
        | and _ | imul _ | bmul _ | zero _ => exact hadds.elim
        | linear i =>
          obtain ⟨lin,hi,hdst,hc,he⟩ := hadds
          exact .inr ⟨lin,mem_of_getElem? hi,hdst,hc,he⟩
  · intro lin hl hc
    have hname : ConstraintRef.linear (cb.linearDsts.idxOf lin.dst) ∈ patchNames cb committed :=
      mem_append_right _ (mem_map.mpr ⟨lin.dst,(mem_entityIter _).mpr hc,rfl⟩)
    obtain ⟨p,hp,hpf⟩ := patch_of_name h hname
    have hadds := hpf.adds
    cases hadded : p.added with
    | and _ | imul _ | bmul _ | zero _ => rw [hadded] at hadds; exact hadds.elim
    | linear d =>
      rw [hadded] at hadds
      obtain ⟨found,hi,hdst,_,he⟩ := hadds
      have heq : found = lin := by
        rw [linearConstraints_idxOf hn hl,Option.some.injEq] at hi
        exact hi.symm
      refine ⟨d,mem_append_right _ (mem_filterMap.mpr ⟨p,hp,?_⟩),heq ▸ hdst,heq ▸ he⟩
      rw [hadded]

section Satisfaction

variable {fused : ConstraintBuilder}

variable {σ : Assignment}

theorem FusedFrom.holds_iff (h : FusedFrom cb committed fused)
    (hσ : ∀ lin ∈ cb.linearConstraints, lin.dst ∉ committed → lin.Holds σ) :
    fused.Holds σ ↔ cb.Holds σ := by
  have hlin : (∀ d ∈ fused.linearConstraints, d.Holds σ) ↔
      ∀ lin ∈ cb.linearConstraints, lin.Holds σ := by
    constructor
    · intro hf lin hl
      by_cases hc : lin.dst ∈ committed
      · obtain ⟨d,hd,hdst,refs,he⟩ := h.committed lin hl hc
        have hdef : evalWires σ d.rhs = σ d.dst := hf d hd
        have heval : evalWires σ d.rhs = evalWires σ lin.rhs := he.eval σ hσ
        rw [WireLinearConstraint.Holds,← heval,hdef,hdst]
      · exact hσ lin hl hc
    · intro hall d hd
      rcases h.linear d hd with ⟨hl,_⟩ | ⟨lin,hl,hdst,_,refs,he⟩
      · exact hall d hl
      · have hdef : evalWires σ lin.rhs = σ lin.dst := hall lin hl
        have heval : evalWires σ d.rhs = evalWires σ lin.rhs := he.eval σ hσ
        rw [WireLinearConstraint.Holds,heval,hdef,hdst]
  constructor
  · intro hf
    exact ⟨(h.and.holds_iff σ hσ).mp hf.and,(h.imul.holds_iff σ hσ).mp hf.imul,
      (h.bmul.holds_iff σ hσ).mp hf.bmul,hlin.mp hf.linear,(h.zero.holds_iff σ hσ).mp hf.zero⟩
  · intro hc
    exact ⟨(h.and.holds_iff σ hσ).mpr hc.and,(h.imul.holds_iff σ hσ).mpr hc.imul,
      (h.bmul.holds_iff σ hσ).mpr hc.bmul,hlin.mpr hc.linear,(h.zero.holds_iff σ hσ).mpr hc.zero⟩

theorem FusedKind.kept {C : Type} [WireConstraint C] {old new : List C}
    (h : FusedKind cb committed old new) {c : C} (hc : c ∈ new) {operand : WireOperand}
    (ho : operand ∈ WireConstraint.operands c) {t : ShiftedWire} (ht : t ∈ operand) :
    Kept cb committed t.wire := by
  rcases h.operand c hc operand ho with ⟨_,hnone⟩ | ⟨before,_,refs,he⟩
  · exact .inr (hnone t ht)
  · exact he.kept t ht

theorem FusedKind.holds_congr {C : Type} [WireConstraint C] {old new : List C}
    (h : FusedKind cb committed old new) {τ : Assignment}
    (hστ : ∀ w, Kept cb committed w → σ w = τ w) {c : C} (hc : c ∈ new) :
    WireConstraint.Holds σ c ↔ WireConstraint.Holds τ c := by
  refine WireConstraint.holds_congr σ τ c c (map_congr_left fun operand ho => ?_)
  exact evalWires_congr fun t ht => hστ t.wire (h.kept hc ho ht)

/-- An assignment with the absorbed definitions evaluated, to a nesting depth. -/
def complete (cb : ConstraintBuilder) (committed : List Wire) (σ : Assignment) : ℕ → Assignment
  | 0 => σ
  | fuel + 1 => fun w =>
    match cb.linearConstraints.find? fun lin => lin.dst = w with
    | some lin => if w ∈ committed then σ w else evalWires (complete cb committed σ fuel) lin.rhs
    | none => σ w

theorem complete_succ (σ : Assignment) (fuel : ℕ) (w : Wire) :
    complete cb committed σ (fuel + 1) w =
      match cb.linearConstraints.find? fun lin => lin.dst = w with
      | some lin => if w ∈ committed then σ w else evalWires (complete cb committed σ fuel) lin.rhs
      | none => σ w := rfl

theorem complete_kept (σ : Assignment) (fuel : ℕ) {w : Wire} (h : Kept cb committed w) :
    complete cb committed σ fuel w = σ w := by
  cases fuel with
  | zero => rfl
  | succ fuel =>
    rw [complete_succ]
    split
    · rename_i lin hfind
      have hdst : lin.dst = w := by simpa using find?_some hfind
      have hl := mem_of_find?_eq_some hfind
      have hc : w ∈ committed := h.resolve_right fun hn => hn (hdst ▸ mem_map_of_mem hl)
      rw [if_pos hc]
    · rfl

theorem find?_dst {lins : List WireLinearConstraint} (hn : (lins.map (·.dst)).Nodup)
    {lin : WireLinearConstraint} (hl : lin ∈ lins) :
    lins.find? (fun l => l.dst = lin.dst) = some lin := by
  induction lins with
  | nil => exact absurd hl not_mem_nil
  | cons first rest ih =>
    rw [map_cons,nodup_cons] at hn
    by_cases hf : first.dst = lin.dst
    · rcases mem_cons.mp hl with rfl | hl
      · exact find?_cons_of_pos (decide_eq_true rfl)
      · exact absurd (hf ▸ mem_map_of_mem hl) hn.1
    · have hr : lin ∈ rest := (mem_cons.mp hl).resolve_left fun heq => hf (heq ▸ rfl)
      rw [find?_cons_of_neg (by simpa using hf)]
      exact ih hn.2 hr

theorem complete_stable (hac : Acyclic (dependencies cb)) (σ : Assignment) (fuel : ℕ) :
    ∀ w, reachCount (dependencies cb) w < fuel →
      complete cb committed σ (fuel + 1) w = complete cb committed σ fuel w := by
  induction fuel with
  | zero => exact fun _ h => absurd h (Nat.not_lt_zero _)
  | succ fuel ih =>
    intro w hw
    rw [complete_succ σ (fuel + 1),complete_succ σ fuel]
    split
    · rename_i lin hfind
      have hdst : lin.dst = w := by simpa using find?_some hfind
      have hl := mem_of_find?_eq_some hfind
      split
      · rfl
      · refine evalWires_congr fun t ht => ih t.wire ?_
        have hlt := hac.ranks_reachCount _ _ (mem_dependencies.mpr ⟨lin,hl,hdst,t,ht,rfl⟩)
        omega
    · rfl

theorem exists_complete (hn : cb.linearDsts.Nodup) (hac : Acyclic (dependencies cb))
    (σ : Assignment) :
    ∃ τ : Assignment, (∀ w, Kept cb committed w → τ w = σ w) ∧
      ∀ lin ∈ cb.linearConstraints, lin.dst ∉ committed → lin.Holds τ := by
  let fuel := (dependencies cb).length + 1
  refine ⟨complete cb committed σ fuel,fun w hw => complete_kept σ fuel hw,?_⟩
  intro lin hl hc
  have hfuel : ∀ w, reachCount (dependencies cb) w < fuel := fun w =>
    Nat.lt_succ_of_le (reachCount_le _ w)
  have hstep : complete cb committed σ (fuel + 1) lin.dst =
      evalWires (complete cb committed σ fuel) lin.rhs := by
    rw [complete_succ,find?_dst hn hl]
    exact if_neg hc
  rw [WireLinearConstraint.Holds,← hstep]
  exact complete_stable hac σ fuel lin.dst (hfuel _)

theorem FusedFrom.exists_holds (h : FusedFrom cb committed fused) (hn : cb.linearDsts.Nodup)
    (hac : Acyclic (dependencies cb)) (hf : fused.Holds σ) :
    ∃ τ : Assignment, (∀ w, Kept cb committed w → τ w = σ w) ∧ cb.Holds τ := by
  obtain ⟨τ,hkeep,habsorbed⟩ := exists_complete hn hac σ
  refine ⟨τ,hkeep,(h.holds_iff habsorbed).mp ⟨?_,?_,?_,?_,?_⟩⟩
  · exact fun c hc => (h.and.holds_congr hkeep hc).mpr (hf.and c hc)
  · exact fun c hc => (h.imul.holds_congr hkeep hc).mpr (hf.imul c hc)
  · exact fun c hc => (h.bmul.holds_congr hkeep hc).mpr (hf.bmul c hc)
  · intro d hd
    rcases h.linear d hd with ⟨hl,hc⟩ | ⟨lin,hl,hdst,hc,refs,he⟩
    · exact habsorbed d hl hc
    · have hdef : evalWires σ d.rhs = σ d.dst := hf.linear d hd
      have hwire : τ d.dst = σ d.dst := hkeep d.dst (.inl (hdst ▸ hc))
      have hread : evalWires τ d.rhs = evalWires σ d.rhs :=
        evalWires_congr fun t ht => hkeep t.wire (he.kept t ht)
      rw [WireLinearConstraint.Holds,hread,hdef,hwire]
  · exact fun c hc => (h.zero.holds_congr hkeep hc).mpr (hf.zero c hc)

end Satisfaction

end Patches

section Pass

variable {cb : ConstraintBuilder}

theorem mem_linearDsts_of_visited (dfs : Traversal Node) (hac : Acyclic (dependencies cb))
    {w : Wire} (h : Node.linDef w ∈ decisionOrder dfs (closedForm cb)) : w ∈ cb.linearDsts := by
  have hpost := dfs.postOrder (arcs (closedForm cb))
    ((closedForm cb).opaqueWires.map .opaqueWire) (acyclic_arcs hac)
  obtain ⟨source,hs,hreach⟩ := (hpost.mem_iff _).mp h
  obtain ⟨v,_,rfl⟩ := mem_map.mp hs
  rcases Relation.ReflTransGen.cases_tail hreach with heq | ⟨b,_,hb⟩
  · cases heq
  · rcases mem_arcs.mp hb with ⟨lin,hl,_,_,_,heq⟩ | ⟨_,_,_,heq⟩
    · rw [Node.linDef.injEq] at heq
      exact heq ▸ mem_map_of_mem hl
    · cases heq

theorem decided_ok (h : Defined cb) (hac : Acyclic (dependencies cb)) (ha : Anchored cb)
    (limits : Limits) (dfs : Traversal Node) :
    ∃ d, decideAll limits loweredShiftSlots dfs (closedForm cb) = .ok d ∧
      (∀ w ∈ d.committed, w ∈ cb.linearDsts) ∧
      ∀ committed, (∀ w ∈ d.committed, w ∈ committed) →
        Decided cb (decisionOrder dfs (closedForm cb)) d committed := by
  obtain ⟨d,hd,hinv⟩ := decideAll_ok (closedForm_wellFormed h) limits dfs (acyclic_arcs hac)
  refine ⟨d,hd,fun w hw => mem_linearDsts_of_visited dfs hac (hinv.committed w hw),?_⟩
  intro committed hsub
  exact ⟨h,hac,hinv,fun lin hl hne => linDef_visited dfs hac ha hl hne,hsub⟩

def finallyCommitted (cb : ConstraintBuilder) (d : Decision) (pinned : List Wire) : List Wire :=
  d.committed ++ pinned.filter (closedForm cb).isLinDef

theorem runPass_ok (h : Defined cb) (hac : Acyclic (dependencies cb)) (ha : Anchored cb)
    (limits : Limits) (dfs : Traversal Node) (pinned : List Wire) :
    ∃ fused committed, runPass limits dfs cb pinned = .ok fused ∧
      FusedFrom cb committed fused ∧ (∀ w ∈ committed, w ∈ cb.linearDsts) ∧
      ∀ w ∈ pinned, w ∈ cb.linearDsts → w ∈ committed := by
  obtain ⟨d,hd,hdsts,hdecided⟩ := decided_ok h hac ha limits dfs
  have hcommitted : ∀ w ∈ finallyCommitted cb d pinned, w ∈ cb.linearDsts := by
    intro w hw
    rcases mem_append.mp hw with hw | hw
    · exact hdsts w hw
    · exact of_decide_eq_true (mem_filter.mp hw).2
  obtain ⟨patches,hpatches,hfor⟩ := build_ok
    (hdecided (finallyCommitted cb d pinned) fun w hw => mem_append_left _ hw) hcommitted
  refine ⟨applyPatches cb patches,finallyCommitted cb d pinned,?_,
    applyPatches_fused h.distinct hfor,hcommitted,?_⟩
  · have hrun : runDecideCommitSet limits loweredShiftSlots dfs (closedForm cb) =
        .ok (committedGraph cb d.committed) := by
      rw [runDecideCommitSet,hd]
      rfl
    rw [runPass,new_eq_closedForm h,ok_bind,hrun,ok_bind]
    change build cb (committedGraph cb (finallyCommitted cb d pinned)) >>= _ = _
    rw [hpatches]
    rfl
  · intro w hw hd
    exact mem_append_right _ (mem_filter.mpr ⟨hw,decide_eq_true hd⟩)

/-- The patch phase expands every operand it rebuilds: after a decision that
misses no context, neither the operands of the constraints that define no wire
nor those of the committed and pinned definitions run out of shift slots. -/
def ExpansionSound (limits : Limits) (dfs : Traversal Node) (cb : ConstraintBuilder)
    (pinned : List Wire) : Prop :=
  ∃ leg, LeGraph.new cb = .ok leg ∧
    ∃ decided, runDecideCommitSet limits loweredShiftSlots dfs leg = .ok decided ∧
      ∀ operand, (operand ∈ cb.rootOperands ∨ ∃ lin ∈ cb.linearConstraints,
          lin.dst ∈ (pin decided pinned).linCommitted ∧ lin.rhs = operand) →
        ∃ out, processOperand cb (pin decided pinned) operand = .ok out

/-- The commit-set decision over-approximates the patch phase, for every pinned
set, every limit and every traversal, on acyclic definitions each of which has
no term or depends on a wire no definition assigns. -/
theorem commitSet_sound (h : Defined cb) (hac : Acyclic (dependencies cb)) (ha : Anchored cb)
    (limits : Limits) (dfs : Traversal Node) (pinned : List Wire) :
    ExpansionSound limits dfs cb pinned := by
  obtain ⟨d,hd,_,hdecided⟩ := decided_ok h hac ha limits dfs
  have hsound := hdecided (finallyCommitted cb d pinned) fun w hw => mem_append_left _ hw
  refine ⟨closedForm cb,new_eq_closedForm h,committedGraph cb d.committed,?_,?_⟩
  · rw [runDecideCommitSet,hd]
    rfl
  · intro operand ho
    have hready : ∀ t ∈ operand, Ready cb d t := by
      rcases ho with ho | ⟨lin,hl,_,rfl⟩
      · exact fun t ht => hsound.ready_rootTerm ho ht
      · exact fun t ht => hsound.ready_defTerm hl ht
    obtain ⟨out,hout,_⟩ := hsound.processOperand_ok hready
    exact ⟨out,hout⟩

/-- The constraints and what the pass leaves of them have the same solutions
over the wires that are no linear destination and the pinned ones. -/
def Preserves (limits : Limits) (dfs : Traversal Node) (cb : ConstraintBuilder)
    (pinned : List Wire) : Prop :=
  ∀ σ : Assignment,
    (∃ τ : Assignment, (∀ w, w ∉ cb.linearDsts ∨ w ∈ pinned → τ w = σ w) ∧ cb.Holds τ) ↔
      ∃ fused, runPass limits dfs cb pinned = .ok fused ∧
        ∃ τ : Assignment, (∀ w, w ∉ cb.linearDsts ∨ w ∈ pinned → τ w = σ w) ∧ fused.Holds τ

/-- Gate fusion preserves the solutions of the constraints, for every pinned
set, every limit and every traversal, on acyclic definitions each of which has
no term or depends on a wire no definition assigns. -/
theorem fusion_preserves (h : Defined cb) (hac : Acyclic (dependencies cb)) (ha : Anchored cb)
    (limits : Limits) (dfs : Traversal Node) (pinned : List Wire) :
    Preserves limits dfs cb pinned := by
  intro σ
  obtain ⟨fused,committed,hrun,hfused,_,hpinned⟩ := runPass_ok h hac ha limits dfs pinned
  constructor
  · rintro ⟨τ,hagree,hτ⟩
    exact ⟨fused,hrun,τ,hagree,(hfused.holds_iff fun lin hl _ => hτ.linear lin hl).mpr hτ⟩
  · rintro ⟨again,hagain,τ,hagree,hτ⟩
    rw [hrun,Except.ok.injEq] at hagain
    obtain ⟨ρ,hkeep,hρ⟩ := hfused.exists_holds h.distinct hac (hagain ▸ hτ)
    refine ⟨ρ,fun w hw => ?_,hρ⟩
    have hk : Kept cb committed w := by
      by_cases hd : w ∈ cb.linearDsts
      · exact .inl (hpinned w (hw.resolve_left (not_not.mpr hd)) hd)
      · exact .inr hd
    rw [hkeep w hk,hagree w hw]

end Pass

/-- Two chained definitions read by one AND constraint: `4 = 0 ^ 1 << 3`,
`5 = 4 >> 2`, `(5 rotr 7) & 2 = 3`. -/
def chainSystem : ConstraintBuilder :=
  ((ConstraintBuilder.new.linear [.wire 0,.shifted 1 ⟨.sll,3⟩] 4).linear
    [.shifted 4 ⟨.slr,2⟩] 5).and [.shifted 5 ⟨.rotr,7⟩] [.wire 2] [.wire 3]

theorem chainSystem_defined : Defined chainSystem ∧ Acyclic (dependencies chainSystem) ∧
    Anchored chainSystem := by
  have hrank : Ranks (dependencies chainSystem) id := by
    have hall : ∀ p ∈ dependencies chainSystem, p.2 < p.1 := by decide
    exact fun a b hab => hall (a,b) hab
  have hne : ∀ lin ∈ chainSystem.linearConstraints, lin.rhs ≠ [] := by decide
  refine ⟨⟨by decide,by decide,by decide⟩,hrank.acyclic,?_⟩
  exact anchored_of_nonempty hrank.acyclic hne

theorem commitSet_sound_chain : ExpansionSound defaultLimits depthFirst chainSystem [4] :=
  commitSet_sound chainSystem_defined.1 chainSystem_defined.2.1 chainSystem_defined.2.2
    defaultLimits depthFirst [4]

theorem fusion_preserves_chain : Preserves defaultLimits depthFirst chainSystem [4] :=
  fusion_preserves chainSystem_defined.1 chainSystem_defined.2.1 chainSystem_defined.2.2
    defaultLimits depthFirst [4]

/-- Definitions built on an empty operand: `1 = `, `2 = 1 << 1`, `3 = 2 >> 3 ^ 0`, `(3 << 1) & 4 = 5`. -/
def emptyChain : ConstraintBuilder :=
  (((ConstraintBuilder.new.linear [] 1).linear [.shifted 1 ⟨.sll,1⟩] 2).linear
    [.shifted 2 ⟨.slr,3⟩,.wire 0] 3).and [.shifted 3 ⟨.sll,1⟩] [.wire 4] [.wire 5]

theorem emptyChain_defined : Defined emptyChain ∧ Acyclic (dependencies emptyChain) := by
  have hrank : Ranks (dependencies emptyChain) id := by
    have hall : ∀ p ∈ dependencies emptyChain, p.2 < p.1 := by decide
    exact fun a b hab => hall (a,b) hab
  exact ⟨⟨by decide,by decide,by decide⟩,hrank.acyclic⟩

theorem emptyChain_decided :
    (LeGraph.new emptyChain >>= runDecideCommitSet defaultLimits loweredShiftSlots depthFirst) =
      .ok (committedGraph emptyChain []) := rfl

/-- On the definitions over an empty operand the expansion runs out of slots. -/
theorem emptyChain_overBudget :
    (Defined emptyChain ∧ Acyclic (dependencies emptyChain) ∧
      ∀ operand ∈ emptyChain.operands, ∀ t ∈ operand, t.shiftSeq.inner.isCanonical = true) ∧
      ¬ExpansionSound defaultLimits depthFirst emptyChain [] := by
  refine ⟨⟨emptyChain_defined.1,emptyChain_defined.2,by decide⟩,?_⟩
  rintro ⟨leg,hleg,decided,hdecided,hall⟩
  have hgraph : decided = committedGraph emptyChain [] := by
    have hboth := emptyChain_decided
    rw [hleg,ok_bind,hdecided,Except.ok.injEq] at hboth
    exact hboth
  have hroot : [⟨3,⟨.sll,1⟩,.identity⟩] ∈ emptyChain.rootOperands := by decide
  obtain ⟨out,hout⟩ := hall _ (.inl hroot)
  have hover : processOperand emptyChain (pin (committedGraph emptyChain []) [])
      [⟨3,⟨.sll,1⟩,.identity⟩] = .error .incompatibleShifts := rfl
  rw [hgraph,hover] at hout
  cases hout

/-- The definitions over an empty operand are solved by zeros, but the pass
leaves no constraints to solve. -/
theorem emptyChain_not_preserved :
    (Defined emptyChain ∧ Acyclic (dependencies emptyChain)) ∧
      ¬Preserves defaultLimits depthFirst emptyChain [] := by
  refine ⟨emptyChain_defined,fun h => ?_⟩
  have hzero : emptyChain.Holds fun _ => 0 := by
    refine ⟨?_,nofun,nofun,?_,nofun⟩
    · have hand : ∀ c ∈ emptyChain.andConstraints, evalWires (fun _ => 0) c.a &&&
          evalWires (fun _ => 0) c.b = evalWires (fun _ => 0) c.c := by decide
      exact hand
    · have hlin : ∀ lin ∈ emptyChain.linearConstraints,
          evalWires (fun _ => 0) lin.rhs = 0 := by decide
      exact hlin
  obtain ⟨fused,hrun,_⟩ := (h fun _ => 0).mp ⟨_,fun _ _ => rfl,hzero⟩
  have hpanic : runPass defaultLimits depthFirst emptyChain [] = .error .incompatibleShifts := rfl
  rw [hpanic] at hrun
  cases hrun

end Binius64.GateFusion
