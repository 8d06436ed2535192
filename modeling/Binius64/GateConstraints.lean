import Binius64.GateSemantics

/-!
# What the gates constrain

Each kind's constraints hold of an assignment exactly when the kind evaluates to the outputs.
-/

namespace Binius64.GateConstraints

open MachineWord ShiftAlgebra GhashField ValueVector WireConstraints Lowering EvalForm GateGraph
  GateKinds CarryChain GateSemantics
open BitVec (ofBool ofNat_eq_ofNat xor_assoc xor_zero)

def ConstantsHold (hints : HintRegistry) (g : GateData) (σ : Wire → Word) : Prop :=
  g.constants.map σ = (g.shape hints).constIn

variable (variant : ShiftVariant)

theorem variantOf_toU8 : GateKinds.Shift.variantOf variant.toU8 = .ok variant := by
  rw [GateKinds.Shift.variantOf,Nat.mod_eq_of_lt variant.toU8_lt,ShiftVariant.fromU8_toU8]
  rfl

theorem evaluates_shift (hints : HintRegistry) (x z : Wire) (n : ℕ) (dims : List ℕ)
    (path : PathSpec) (variant : ShiftVariant) (w : Word) :
    Evaluates hints ⟨.op .shift,[],[x],[z],[],[],[variant.toU8,n],dims,path⟩ [w]
      [variant.apply w n] := by
  change (GateKinds.Shift.variantOf variant.toU8 >>= fun variant =>
    pure (Except.ok [variant.apply w n])) = _
  rw [variantOf_toU8]
  rfl

theorem assertion_cases {p : Prop} [Decidable p] {v : AssertionDetail} {outputs : List Wire}
    (ho : outputs = []) {result : Checked (Except AssertionDetail (List Word))}
    (hr : result = .ok (if p then .error v else .ok [])) :
    (∃ outs, result = .ok (.ok outs) ∧ outs.length = outputs.length) ∨
      (outputs = [] ∧ ∃ v, result = .ok (.error v)) := by
  subst ho hr
  by_cases hp : p
  · exact .inr ⟨rfl,v,by rw [if_pos hp]⟩
  · exact .inl ⟨[],by rw [if_neg hp],rfl⟩

variable {hints : HintRegistry} {g : GateData} {ins : List Word}

theorem evaluate_cases (h : Shaped hints g)
    (hlen : ins.length = g.inputs.length) :
    (∃ outs, Evaluates hints g ins outs ∧ outs.length = g.outputs.length) ∨
      (g.outputs = [] ∧ ∃ v, evaluateGateConstants hints g ins = .ok (.error v)) := by
  cases h with
  | band | bxor | bor | iadd32 | imul | icmpUlt | icmpEq =>
    obtain ⟨a,b,rfl⟩ := List.length_eq_two.mp hlen
    exact .inl ⟨_,rfl,rfl⟩
  | bxorMulti => exact .inl ⟨_,rfl,rfl⟩
  | fax | select | iaddCinCout | iadd32CinCout | isubBinBout =>
    obtain ⟨a,b,c,rfl⟩ := List.length_eq_three.mp hlen
    exact .inl ⟨_,rfl,rfl⟩
  | bmul =>
    obtain ⟨a,b,c,d,rfl⟩ := length_eq_four.mp hlen
    exact .inl ⟨_,rfl,rfl⟩
  | shift x z n dims path variant hn =>
    obtain ⟨a,rfl⟩ := List.length_eq_one_iff.mp hlen
    exact .inl ⟨_,evaluates_shift hints x z n dims path variant a,rfl⟩
  | assertEq =>
    obtain ⟨a,b,rfl⟩ := List.length_eq_two.mp hlen
    exact assertion_cases rfl rfl
  | assertZero | assertNonZero | assertFalse | assertTrue =>
    obtain ⟨a,rfl⟩ := List.length_eq_one_iff.mp hlen
    exact assertion_cases rfl rfl
  | assertEqCond =>
    obtain ⟨a,b,c,rfl⟩ := List.length_eq_three.mp hlen
    exact assertion_cases rfl rfl
  | hint id ins outs imms dims path hin hout =>
    exact .inl ⟨_,rfl,((hints id).execute_length _ _).trans hout.symm⟩

theorem evaluates_length (h : Shaped hints g)
    {outs : List Word} (hlen : ins.length = g.inputs.length)
    (he : Evaluates hints g ins outs) : outs.length = g.outputs.length := by
  rcases evaluate_cases h hlen with ⟨outs',he',hl⟩ | ⟨_,v,hv⟩
  · rw [he.unique he']
    exact hl
  · rw [Evaluates,hv,Except.ok.injEq] at he
    cases he

theorem passes_of_outputs (h : Shaped hints g)
    (ho : g.outputs ≠ []) (hlen : ins.length = g.inputs.length) :
    Passes hints g ins := by
  rcases evaluate_cases h hlen with ⟨outs,he,_⟩ | ⟨hnil,_⟩
  · exact ⟨outs,he⟩
  · exact absurd hnil ho

structure Contributes (hints : HintRegistry) (g : GateData) (d : ConstraintBuilder) : Prop where
  sound : ∀ σ, ConstantsHold hints g σ → d.Holds σ →
    Evaluates hints g (g.inputs.map σ) (g.outputs.map σ)
  /-- They hold where nothing is violated and every written wire has its word. -/
  complete : ∀ σ, ConstantsHold hints g σ → Passes hints g (g.inputs.map σ) →
    g.writes.map σ = written hints g (g.inputs.map σ) → d.Holds σ
  /-- Their terms read the gate's wires, scratch apart, through at most one shift. -/
  terms : SingleTerms (g.reads ++ g.outputs ++ g.aux) d
  single : d.linearConstraints.length ≤ 1
  /-- A definition defines the first output from inputs and the other outputs. -/
  linear : ∀ lin ∈ d.linearConstraints, g.outputs.head? = some lin.dst ∧ lin.rhs ≠ [] ∧
    ∀ t ∈ lin.rhs, t.wire ∈ g.inputs ∨ t.wire ∈ g.outputs.tail

theorem Contributes.of_iff {d : ConstraintBuilder}
    (h : Shaped hints g)
    (hiff : ∀ σ, ConstantsHold hints g σ →
      (d.Holds σ ↔ Evaluates hints g (g.inputs.map σ) (g.outputs.map σ)))
    (terms : SingleTerms (g.reads ++ g.outputs ++ g.aux) d)
    (single : d.linearConstraints.length ≤ 1)
    (linear : ∀ lin ∈ d.linearConstraints, g.outputs.head? = some lin.dst ∧ lin.rhs ≠ [] ∧
      ∀ t ∈ lin.rhs, t.wire ∈ g.inputs ∨ t.wire ∈ g.outputs.tail) : Contributes hints g d where
  sound σ hc hd := (hiff σ hc).mp hd
  complete σ hc hp hw := by
    obtain ⟨outs,he⟩ := hp
    have hlen := evaluates_length h (by rw [List.length_map]) he
    rw [he.written_eq,GateData.writes,List.append_assoc,List.map_append] at hw
    have hout := (List.append_inj hw (by rw [List.length_map,hlen])).1
    rw [hiff σ hc,hout]
    exact he
  terms := terms
  single := single
  linear := linear

theorem ok_one {v w : Word} :
    (.ok (.ok [v]) : Checked (Except AssertionDetail (List Word))) = .ok (.ok [w]) ↔ w = v := by
  simp only [Except.ok.injEq,List.cons.injEq,and_true]
  exact eq_comm

theorem ok_two {v w p q : Word} :
    (.ok (.ok [v,p]) : Checked (Except AssertionDetail (List Word))) = .ok (.ok [w,q]) ↔
      w = v ∧ q = p := by
  simp only [Except.ok.injEq,List.cons.injEq,and_true]
  exact and_congr eq_comm eq_comm

theorem ok_nil {p : Prop} [Decidable p] {v : AssertionDetail} :
    (.ok (if p then .error v else .ok []) : Checked (Except AssertionDetail (List Word))) =
      .ok (.ok []) ↔ ¬p := by
  by_cases hp : p
  · simp only [hp,if_true,Except.ok.injEq,reduceCtorEq,not_true]
  · simp only [hp,if_false,not_false_iff]

theorem linear_of {d : ConstraintBuilder} {rhs : WireExpr} {dst : Wire}
    (hd : d.linearConstraints = [⟨rhs.intoOperand,dst⟩]) (hdst : g.outputs.head? = some dst)
    (hne : rhs ≠ []) (hrhs : SingleExpr (g.inputs ++ g.outputs.tail) rhs) :
    ∀ lin ∈ d.linearConstraints, g.outputs.head? = some lin.dst ∧ lin.rhs ≠ [] ∧
      ∀ t ∈ lin.rhs, t.wire ∈ g.inputs ∨ t.wire ∈ g.outputs.tail := by
  intro lin hl
  rw [hd,List.mem_singleton] at hl
  subst hl
  exact ⟨hdst,fun h => hne (List.map_eq_nil_iff.mp h),fun t ht =>
    List.mem_append.mp (hrhs t ht).mem⟩

theorem band_contributes (hints : HintRegistry) (x y z : Wire) (imms dims path) :
    Contributes hints ⟨.op .band,[],[x,y],[z],[],[],imms,dims,path⟩
      (ConstraintBuilder.new.and [.wire x] [.wire y] [.wire z]) := by
  refine .of_iff (.band ..) (fun σ _ => Iff.trans ?_ ok_one.symm) ?_ (Nat.zero_le _) nofun
  · simp [eq_comm]
  · refine singleTerms_and (singleTerms_new _) ?_ ?_ ?_ <;> simp [GateData.reads]

theorem bxor_contributes (hints : HintRegistry) (x y z : Wire) (imms dims path) :
    Contributes hints ⟨.op .bxor,[],[x,y],[z],[],[],imms,dims,path⟩
      (ConstraintBuilder.new.linear [.wire x,.wire y] z) := by
  refine .of_iff (.bxor ..) (fun σ _ => Iff.trans ?_ ok_one.symm) ?_ (Nat.le_refl _)
    (linear_of rfl rfl (List.cons_ne_nil _ _) ?_)
  · simp [eq_comm]
  · exact singleTerms_linear (singleTerms_new _) (by simp [GateData.reads])
  · simp

theorem evalExpr_wires (σ : Assignment) (ws : List Wire) :
    evalExpr σ (ws.map .wire) = (ws.map σ).foldl (· ^^^ ·) 0 := by
  have hfold : ∀ (vs : List Word) (acc : Word),
      vs.foldl (· ^^^ ·) acc = acc ^^^ vs.foldl (· ^^^ ·) 0 := by
    intro vs
    induction vs with
    | nil => exact fun acc => (xor_zero).symm
    | cons v rest ih =>
      intro acc
      rw [List.foldl_cons,List.foldl_cons,ih,ih (0 ^^^ v),ofNat_eq_ofNat,BitVec.zero_xor,
        xor_assoc]
  induction ws with
  | nil => rfl
  | cons w rest ih =>
    rw [List.map_cons,evalExpr_wire,ih,List.map_cons,List.foldl_cons,hfold _ (0 ^^^ σ w),
      ofNat_eq_ofNat,BitVec.zero_xor]

theorem singleExpr_wires {wires ws : List Wire} (h : ∀ w ∈ ws, w ∈ wires) :
    SingleExpr wires (ws.map .wire) := by
  induction ws with
  | nil => exact singleExpr_nil wires
  | cons w rest ih =>
    rw [List.forall_mem_cons] at h
    exact singleExpr_wire.mpr ⟨h.1,ih h.2⟩

theorem bxorMulti_contributes (hints : HintRegistry) (xs : List Wire) (z : Wire)
    (imms dims path) (hne : xs ≠ []) :
    Contributes hints ⟨.op .bxorMulti,[],xs,[z],[],[],imms,dims,path⟩
      (ConstraintBuilder.new.linear (xs.map .wire) z) := by
  refine .of_iff (.bxorMulti _ _ _ _ _ hne) (fun σ _ => Iff.trans ?_ ok_one.symm) ?_
    (Nat.le_refl _) (linear_of rfl rfl (fun h => hne (List.map_eq_nil_iff.mp h)) ?_)
  · rw [linear_holds,evalExpr_wires]
    simp [eq_comm]
  · exact singleTerms_linear (singleTerms_new _) (singleExpr_wires fun w hw => by
      simp [GateData.reads,hw])
  · exact singleExpr_wires fun w hw => by simp [hw]

theorem bor_contributes (hints : HintRegistry) (x y z : Wire) (imms dims path) :
    Contributes hints ⟨.op .bor,[],[x,y],[z],[],[],imms,dims,path⟩
      (ConstraintBuilder.new.and [.wire x] [.wire y] [.wire x,.wire y,.wire z]) := by
  have hbit : ∀ p q r : Bool, (p && q) = (p ^^ (q ^^ r)) ↔ r = (p || q) := by decide
  have hword : ∀ p q r : Word, p &&& q = p ^^^ (q ^^^ r) ↔ r = p ||| q := by
    intro p q r
    simp only [BitVec.eq_of_getLsbD_eq_iff,BitVec.getLsbD_and,BitVec.getLsbD_xor,
      BitVec.getLsbD_or,hbit]
  refine .of_iff (.bor ..) (fun σ _ => Iff.trans ?_ ok_one.symm) ?_ (Nat.zero_le _) nofun
  · simp [hword]
  · refine singleTerms_and (singleTerms_new _) ?_ ?_ ?_ <;> simp [GateData.reads]

theorem fax_contributes (hints : HintRegistry) (x y w z : Wire) (imms dims path) :
    Contributes hints ⟨.op .fax,[],[x,y,w],[z],[],[],imms,dims,path⟩
      (ConstraintBuilder.new.and [.wire x] [.wire y] [.wire z,.wire w]) := by
  have hmove : ∀ p q r : Word, p = q ^^^ r ↔ q = p ^^^ r := by
    intro p q r
    constructor
    · rintro rfl
      rw [xor_assoc,BitVec.xor_self,xor_zero]
    · rintro rfl
      rw [xor_assoc,BitVec.xor_self,xor_zero]
  refine .of_iff (.fax ..) (fun σ _ => Iff.trans ?_ ok_one.symm) ?_ (Nat.zero_le _) nofun
  · simp [hmove]
  · refine singleTerms_and (singleTerms_new _) ?_ ?_ ?_ <;> simp [GateData.reads]

theorem select_iff (cond t f out : Word) :
    ghashProduct (ofWords (cond >>> 63) 0) (ofWords (t ^^^ f) 0) = ofWords (out ^^^ f) 0 ↔
      out = if isMsbTrue cond then t else f := by
  rw [msb_toBottom,← isMsbTrue_eq]
  cases isMsbTrue cond with
  | true =>
    have hone : ofWords ((ofBool true).setWidth 64) 0 = 1 := rfl
    rw [hone,ghashProduct_one,if_pos rfl]
    constructor
    · intro h
      have heq := (ofWords_inj h).1
      exact (BitVec.xor_left_inj f).mp heq.symm
    · rintro rfl
      rfl
  | false =>
    have hzero : ofWords ((ofBool false).setWidth 64) 0 = 0 := rfl
    have hsplit : (0 : BitVec 128) = ofWords 0 0 := rfl
    rw [hzero,ghashProduct_zero,if_neg Bool.false_ne_true,hsplit]
    constructor
    · intro h
      exact BitVec.xor_eq_zero_iff.mp (ofWords_inj h).1.symm
    · rintro rfl
      rw [BitVec.xor_self]
      rfl

theorem select_contributes (hints : HintRegistry) (cond t f out : Wire) (imms dims path) :
    Contributes hints ⟨.op .select,[],[cond,t,f],[out],[],[],imms,dims,path⟩
      (ConstraintBuilder.new.bmul [Expr.srl cond 63] [] [.wire t,.wire f] []
        [.wire out,.wire f] []) := by
  refine .of_iff (.select ..) (fun σ _ => Iff.trans ?_ ok_one.symm) ?_ (Nat.zero_le _) nofun
  · rw [← select_iff]
    simp [Expr.srl,Shift.apply,ShiftVariant.apply]
  · refine singleTerms_bmul (singleTerms_new _) ?_
    simp (disch := decide) [GateData.reads,Expr.srl,singleExpr_shifted]

theorem iaddCinCout_contributes (hints : HintRegistry) (a b cin sum cout : Wire)
    (imms dims path) :
    Contributes hints ⟨.op .iaddCinCout,[],[a,b,cin],[sum,cout],[],[],imms,dims,path⟩
      ((ConstraintBuilder.new.and [.wire a,Expr.sll cout 1,Expr.srl cin 63]
        [.wire b,Expr.sll cout 1,Expr.srl cin 63]
        [.wire cout,Expr.sll cout 1,Expr.srl cin 63]).linear
          [.wire a,.wire b,Expr.sll cout 1,Expr.srl cin 63] sum) := by
  refine .of_iff (.iaddCinCout ..) (fun σ _ => (Iff.trans ?_ (iaddCinCout_solves (σ a) (σ b) (σ cin) (σ sum) (σ cout))).trans
      ok_two.symm) ?_ (Nat.le_refl _) (linear_of rfl rfl (List.cons_ne_nil _ _) ?_)
  · simp [Expr.srl,Expr.sll,Shift.apply,ShiftVariant.apply]
  · refine singleTerms_linear (singleTerms_and (singleTerms_new _) ?_ ?_ ?_) ?_ <;>
      simp (disch := decide) [GateData.reads,Expr.srl,Expr.sll,singleExpr_shifted]
  · simp (disch := decide) [Expr.srl,Expr.sll,singleExpr_shifted]

theorem iadd32_contributes (hints : HintRegistry) (x y z cout : Wire) (imms dims path) :
    Contributes hints ⟨.op .iadd32,[],[x,y],[z,cout],[],[],imms,dims,path⟩
      ((ConstraintBuilder.new.and [.wire x,Expr.sll32 cout 1] [.wire y,Expr.sll32 cout 1]
        [.wire cout,Expr.sll32 cout 1]).linear [.wire x,.wire y,Expr.sll32 cout 1] z) := by
  refine .of_iff (.iadd32 ..) (fun σ _ => (Iff.trans ?_ (iaddCout32_solves (σ x) (σ y) (σ z) (σ cout))).trans
      ok_two.symm) ?_ (Nat.le_refl _) (linear_of rfl rfl (List.cons_ne_nil _ _) ?_)
  · simp [Expr.sll32,Shift.apply,ShiftVariant.apply]
  · refine singleTerms_linear (singleTerms_and (singleTerms_new _) ?_ ?_ ?_) ?_ <;>
      simp (disch := decide) [GateData.reads,Expr.sll32,singleExpr_shifted]
  · simp (disch := decide) [Expr.sll32,singleExpr_shifted]

theorem iadd32CinCout_contributes (hints : HintRegistry) (x y cin z cout : Wire)
    (imms dims path) :
    Contributes hints ⟨.op .iadd32CinCout,[],[x,y,cin],[z,cout],[],[],imms,dims,path⟩
      ((ConstraintBuilder.new.and [.wire x,Expr.sll32 cout 1,Expr.srl32 cin 31]
        [.wire y,Expr.sll32 cout 1,Expr.srl32 cin 31]
        [.wire cout,Expr.sll32 cout 1,Expr.srl32 cin 31]).linear
          [.wire x,.wire y,Expr.sll32 cout 1,Expr.srl32 cin 31] z) := by
  refine .of_iff (.iadd32CinCout ..) (fun σ _ => (Iff.trans ?_ (iadd32CinCout_solves (σ x) (σ y) (σ cin) (σ z) (σ cout))).trans
      ok_two.symm) ?_ (Nat.le_refl _) (linear_of rfl rfl (List.cons_ne_nil _ _) ?_)
  · simp [Expr.sll32,Expr.srl32,Shift.apply,ShiftVariant.apply]
  · refine singleTerms_linear (singleTerms_and (singleTerms_new _) ?_ ?_ ?_) ?_ <;>
      simp (disch := decide) [GateData.reads,Expr.sll32,Expr.srl32,singleExpr_shifted]
  · simp (disch := decide) [Expr.sll32,Expr.srl32,singleExpr_shifted]

theorem isubBinBout_contributes (hints : HintRegistry) (one a b bin diff bout : Wire)
    (imms dims path) :
    Contributes hints ⟨.op .isubBinBout,[one],[a,b,bin],[diff,bout],[],[],imms,dims,path⟩
      ((ConstraintBuilder.new.and [.wire one,.wire a,Expr.sll bout 1,Expr.srl bin 63]
        [.wire b,Expr.sll bout 1,Expr.srl bin 63]
        [.wire bout,Expr.sll bout 1,Expr.srl bin 63]).linear
          [.wire a,.wire b,Expr.sll bout 1,Expr.srl bin 63] diff) := by
  refine .of_iff (.isubBinBout ..) (fun σ hc => (Iff.trans ?_ (isubBinBout_solves (σ a) (σ b) (σ bin) (σ diff) (σ bout))).trans
      ok_two.symm) ?_ (Nat.le_refl _) (linear_of rfl rfl (List.cons_ne_nil _ _) ?_)
  · have hone : σ one = allOne := (List.cons.inj hc).1
    rw [← hone]
    simp [Expr.srl,Expr.sll,Shift.apply,ShiftVariant.apply]
  · refine singleTerms_linear (singleTerms_and (singleTerms_new _) ?_ ?_ ?_) ?_ <;>
      simp (disch := decide) [GateData.reads,Expr.srl,Expr.sll,singleExpr_shifted]
  · simp (disch := decide) [Expr.srl,Expr.sll,singleExpr_shifted]

theorem imul_contributes (hints : HintRegistry) (x y hi lo : Wire) (imms dims path) :
    Contributes hints ⟨.op .imul,[],[x,y],[hi,lo],[],[],imms,dims,path⟩
      (ConstraintBuilder.new.imul [.wire x] [.wire y] [.wire hi] [.wire lo]) := by
  have hpair : ∀ p q r s : Word, imul p q = (r,s) ↔ r = (imul p q).1 ∧ s = (imul p q).2 :=
    fun p q r s => Prod.ext_iff.trans (and_congr eq_comm eq_comm)
  refine .of_iff (.imul ..) (fun σ _ => (Iff.trans ?_ (hpair (σ x) (σ y) (σ hi) (σ lo))).trans
    ok_two.symm) ?_ (Nat.zero_le _) nofun
  · simp
  · refine singleTerms_imul (singleTerms_new _) ?_ ?_ ?_ ?_ <;> simp [GateData.reads]

theorem bmul_iff (aLo aHi bLo bHi cLo cHi : Word) :
    ghashProduct (ofWords aLo aHi) (ofWords bLo bHi) = ofWords cLo cHi ↔
      cLo = (ghashMul aLo aHi bLo bHi).1 ∧ cHi = (ghashMul aLo aHi bLo bHi).2 := by
  rw [← ofWords_ghashMul]
  constructor
  · intro h
    have hwords := ofWords_inj h
    exact ⟨hwords.1.symm,hwords.2.symm⟩
  · rintro ⟨rfl,rfl⟩
    rfl

theorem bmul_contributes (hints : HintRegistry) (aLo aHi bLo bHi cLo cHi : Wire)
    (imms dims path) :
    Contributes hints ⟨.op .bmul,[],[aLo,aHi,bLo,bHi],[cLo,cHi],[],[],imms,dims,path⟩
      (ConstraintBuilder.new.bmul [.wire aLo] [.wire aHi] [.wire bLo] [.wire bHi] [.wire cLo]
        [.wire cHi]) := by
  refine .of_iff (.bmul ..) (fun σ _ => (Iff.trans ?_
    (bmul_iff (σ aLo) (σ aHi) (σ bLo) (σ bHi) (σ cLo) (σ cHi))).trans ok_two.symm) ?_
      (Nat.zero_le _) nofun
  · simp
  · refine singleTerms_bmul (singleTerms_new _) ?_
    simp [GateData.reads]

theorem shiftedTerm_eq (x : Wire) {n : ℕ} (hn : n ≠ 0) :
    GateKinds.Shift.shiftedTerm variant x n = .shifted x ⟨variant,n⟩ := by
  unfold GateKinds.Shift.shiftedTerm
  rw [if_neg hn]
  cases variant <;> rfl

theorem shiftedTerm_spec {variant : ShiftVariant} {n : ℕ} (hn : n < variant.maxAmount) (x : Wire) :
    (∀ wires, x ∈ wires → SingleExpr wires [GateKinds.Shift.shiftedTerm variant x n]) ∧
      ∀ σ, evalExpr σ [GateKinds.Shift.shiftedTerm variant x n] = variant.apply (σ x) n := by
  by_cases hz : n = 0
  · subst hz
    have hplain : GateKinds.Shift.shiftedTerm variant x 0 = .wire x := rfl
    have hid : ∀ w, variant.apply w 0 = w := Shift.apply_of_isIdentity (s := ⟨variant,0⟩) rfl
    rw [hplain]
    exact ⟨fun wires hx => by simp [hx],fun σ => by simp [hid]⟩
  · have hne : (⟨variant,n⟩ : ShiftAlgebra.Shift).isIdentity = false := beq_eq_false_iff_ne.mpr hz
    have hr : (⟨variant,n⟩ : ShiftAlgebra.Shift).InRange := hn
    rw [shiftedTerm_eq variant x hz]
    refine ⟨fun wires hx => (singleExpr_shifted hr hne).mpr ⟨hx,singleExpr_nil wires⟩,fun σ => ?_⟩
    rw [evalExpr_shifted,evalExpr_nil,ofNat_eq_ofNat,xor_zero,Shift.apply]

theorem shift_contributes (hints : HintRegistry) (x z : Wire) (n : ℕ) (dims path)
    (variant : ShiftVariant) (hn : n < variant.maxAmount) :
    Contributes hints ⟨.op .shift,[],[x],[z],[],[],[variant.toU8,n],dims,path⟩
      (ConstraintBuilder.new.linear [GateKinds.Shift.shiftedTerm variant x n] z) := by
  obtain ⟨hsingle,hword⟩ := shiftedTerm_spec hn x
  refine .of_iff (.shift _ _ _ _ _ _ hn) (fun σ _ => ?_) ?_ (Nat.le_refl _)
    (linear_of rfl rfl (List.cons_ne_nil _ _) ?_)
  · rw [linear_holds,hword σ]
    have he := evaluates_shift hints x z n dims path variant (σ x)
    constructor
    · rintro ⟨_,h⟩
      rw [h] at he
      exact he
    · exact fun h => ⟨new_holds σ,(List.cons.inj (he.unique h)).1⟩
  · exact singleTerms_linear (singleTerms_new _) (hsingle _ (by simp [GateData.reads]))
  · exact hsingle _ (by simp)

theorem icmpUlt_contributes (hints : HintRegistry) (one x y bout negated : Wire)
    (imms dims path) :
    Contributes hints ⟨.op .icmpUlt,[one],[x,y],[bout],[],[negated],imms,dims,path⟩
      (ConstraintBuilder.new.and [.wire x,.wire one,Expr.sll bout 1] [.wire y,Expr.sll bout 1]
        [.wire bout,Expr.sll bout 1]) := by
  refine .of_iff (.icmpUlt ..) (fun σ hc => (Iff.trans ?_
    (iaddCarry_carry (σ x ^^^ allOne) (σ y) (σ bout))).trans ok_one.symm) ?_ (Nat.zero_le _) nofun
  · have hone : σ one = allOne := (List.cons.inj hc).1
    rw [← hone]
    simp [Expr.sll,Shift.apply,ShiftVariant.apply,xor_assoc]
  · refine singleTerms_and (singleTerms_new _) ?_ ?_ ?_ <;>
      simp (disch := decide) [GateData.reads,Expr.sll,singleExpr_shifted]

theorem icmpEq_iff (x y out : Word) :
    (x ^^^ (y ^^^ (out <<< 1))) &&& (allOne ^^^ (out <<< 1)) = (out <<< 1) ^^^ (out ^^^ msbOne) ↔
      out = (iaddCinCout allOne (x ^^^ y) 0).2 ^^^ msbOne := by
  have h := iaddCarry_carry allOne (x ^^^ y) (out ^^^ msbOne)
  rw [shiftLeft_xor_msbOne,xor_assoc,BitVec.and_comm,BitVec.xor_comm (out ^^^ msbOne)] at h
  rw [h]
  constructor
  · intro ho
    rw [← ho,xor_assoc,BitVec.xor_self,xor_zero]
  · intro ho
    rw [ho,xor_assoc,BitVec.xor_self,xor_zero]

theorem icmpEq_contributes (hints : HintRegistry) (one msb x y out cout diff : Wire)
    (imms dims path) :
    Contributes hints ⟨.op .icmpEq,[one,msb],[x,y],[out],[cout],[diff],imms,dims,path⟩
      (ConstraintBuilder.new.and [.wire x,.wire y,Expr.sll out 1] [.wire one,Expr.sll out 1]
        [Expr.sll out 1,.wire out,.wire msb]) := by
  refine .of_iff (.icmpEq ..) (fun σ hc => (Iff.trans ?_
    (icmpEq_iff (σ x) (σ y) (σ out))).trans ok_one.symm) ?_ (Nat.zero_le _) nofun
  · have hone : σ one = allOne := (List.cons.inj hc).1
    have hmsb : σ msb = msbOne := (List.cons.inj (List.cons.inj hc).2).1
    rw [← hone,← hmsb]
    simp [Expr.sll,Shift.apply,ShiftVariant.apply]
  · refine singleTerms_and (singleTerms_new _) ?_ ?_ ?_ <;>
      simp (disch := decide) [GateData.reads,Expr.sll,singleExpr_shifted]

theorem assertEq_contributes (hints : HintRegistry) (x y : Wire) (imms dims path) :
    Contributes hints ⟨.op .assertEq,[],[x,y],[],[],[],imms,dims,path⟩
      (ConstraintBuilder.new.zero [.wire x,.wire y]) := by
  refine .of_iff (.assertEq ..) (fun σ _ => Iff.trans ?_ ok_nil.symm) ?_ (Nat.zero_le _) nofun
  · simp [BitVec.xor_eq_zero_iff]
  · exact singleTerms_zero (singleTerms_new _) (by simp [GateData.reads])

theorem assertZero_contributes (hints : HintRegistry) (x : Wire) (imms dims path) :
    Contributes hints ⟨.op .assertZero,[],[x],[],[],[],imms,dims,path⟩
      (ConstraintBuilder.new.zero [.wire x]) := by
  refine .of_iff (.assertZero ..) (fun σ _ => Iff.trans ?_ ok_nil.symm) ?_ (Nat.zero_le _) nofun
  · simp
  · exact singleTerms_zero (singleTerms_new _) (by simp [GateData.reads])

theorem assertFalse_contributes (hints : HintRegistry) (x : Wire) (imms dims path) :
    Contributes hints ⟨.op .assertFalse,[],[x],[],[],[],imms,dims,path⟩
      (ConstraintBuilder.new.zero [Expr.sar x 63]) := by
  refine .of_iff (.assertFalse ..) (fun σ _ => (Iff.trans ?_ (sar_eq_zero (σ x))).trans
    ok_nil.symm) ?_ (Nat.zero_le _) nofun
  · simp [Expr.sar,Shift.apply,ShiftVariant.apply]
  · refine singleTerms_zero (singleTerms_new _) ?_
    simp (disch := decide) [GateData.reads,Expr.sar,singleExpr_shifted]

theorem assertTrue_contributes (hints : HintRegistry) (one x : Wire) (imms dims path) :
    Contributes hints ⟨.op .assertTrue,[one],[x],[],[],[],imms,dims,path⟩
      (ConstraintBuilder.new.zero [Expr.sar x 63,.wire one]) := by
  refine .of_iff (.assertTrue ..) (fun σ hc => Iff.trans ?_ ok_nil.symm) ?_ (Nat.zero_le _) nofun
  · have hone : σ one = allOne := (List.cons.inj hc).1
    simp [Expr.sar,Shift.apply,ShiftVariant.apply,BitVec.xor_eq_zero_iff,hone,sar_eq_allOne,
      isMsbFalse]
  · refine singleTerms_zero (singleTerms_new _) ?_
    simp (disch := decide) [GateData.reads,Expr.sar,singleExpr_shifted]

theorem assertEqCond_contributes (hints : HintRegistry) (x y cond : Wire) (imms dims path) :
    Contributes hints ⟨.op .assertEqCond,[],[x,y,cond],[],[],[],imms,dims,path⟩
      (ConstraintBuilder.new.and [.wire x,.wire y] [Expr.sar cond 63] []) := by
  refine .of_iff (.assertEqCond ..) (fun σ _ => (Iff.trans ?_
    (and_sar_eq_zero (σ x ^^^ σ y) (σ cond))).trans (Iff.trans ?_ ok_nil.symm)) ?_
      (Nat.zero_le _) nofun
  · simp [Expr.sar,Shift.apply,ShiftVariant.apply]
  · simp [BitVec.xor_eq_zero_iff]
  · refine singleTerms_and (singleTerms_new _) ?_ ?_ ?_ <;>
      simp (disch := decide) [GateData.reads,Expr.sar,singleExpr_shifted]

theorem assertNonZero_contributes (hints : HintRegistry) (one x cout : Wire) (imms dims path) :
    Contributes hints ⟨.op .assertNonZero,[one],[x],[],[cout],[],imms,dims,path⟩
      ((ConstraintBuilder.new.and [.wire x,Expr.sll cout 1] [.wire one,Expr.sll cout 1]
        [Expr.sll cout 1,.wire cout]).zero [Expr.sar cout 63,.wire one]) := by
  have hiff : ∀ σ : Wire → Word, σ one = allOne →
      (((ConstraintBuilder.new.and [.wire x,Expr.sll cout 1] [.wire one,Expr.sll cout 1]
        [Expr.sll cout 1,.wire cout]).zero [Expr.sar cout 63,.wire one]).Holds σ ↔
          σ cout = (iaddCinCout allOne (σ x) 0).2 ∧ σ x ≠ 0) := by
    intro σ hone
    have hmsb := allOne_carry_msb (σ x)
    have hcarry := iaddCarry_carry allOne (σ x) (σ cout)
    rw [BitVec.and_comm,BitVec.xor_comm (σ cout)] at hcarry
    refine Iff.trans (Iff.trans ?_ (and_congr_left' hcarry))
      (and_congr_right fun h => ?_ : _ ∧ isMsbTrue (σ cout) = true ↔ _)
    · simp [Expr.sar,Expr.sll,Shift.apply,ShiftVariant.apply,BitVec.xor_eq_zero_iff,hone,
        sar_eq_allOne]
    · rw [h,hmsb,decide_eq_true_iff]
  refine ⟨fun σ hc hd => ?_,fun σ hc hp hw => ?_,?_,Nat.zero_le _,List.forall_mem_nil _⟩
  · have hone : σ one = allOne := (List.cons.inj hc).1
    exact ok_nil.mpr ((hiff σ hone).mp hd).2
  · have hone : σ one = allOne := (List.cons.inj hc).1
    obtain ⟨outs,he⟩ := hp
    have hnil : outs = [] := List.length_eq_zero_iff.mp
      (evaluates_length (.assertNonZero one x cout imms dims path) rfl he)
    subst hnil
    rw [he.written_eq] at hw
    exact (hiff σ hone).mpr ⟨(List.cons.inj hw).1,ok_nil.mp he⟩
  · refine singleTerms_zero (singleTerms_and (singleTerms_new _) ?_ ?_ ?_) ?_ <;>
      simp (disch := decide) [GateData.reads,Expr.sll,Expr.sar,singleExpr_shifted]

theorem constrain_ok (h : Shaped hints g) {opcode : Opcode}
    (hb : g.body = .op opcode) :
    ∃ d, (∀ cb, constrain g cb = .ok (append cb d)) ∧ Contributes hints g d := by
  cases h with
  | band x y z imms dims path =>
    exact ⟨_,fun cb => by rw [← and_append,append_new]; rfl,
      band_contributes hints x y z imms dims path⟩
  | bxor x y z imms dims path =>
    exact ⟨_,fun cb => by rw [← linear_append,append_new]; rfl,
      bxor_contributes hints x y z imms dims path⟩
  | bxorMulti xs z imms dims path hne =>
    exact ⟨_,fun cb => by rw [← linear_append,append_new]; rfl,
      bxorMulti_contributes hints xs z imms dims path hne⟩
  | bor x y z imms dims path =>
    exact ⟨_,fun cb => by rw [← and_append,append_new]; rfl,
      bor_contributes hints x y z imms dims path⟩
  | fax x y w z imms dims path =>
    exact ⟨_,fun cb => by rw [← and_append,append_new]; rfl,
      fax_contributes hints x y w z imms dims path⟩
  | select cond t f out imms dims path =>
    exact ⟨_,fun cb => by rw [← bmul_append,append_new]; rfl,
      select_contributes hints cond t f out imms dims path⟩
  | iaddCinCout a b cin sum cout imms dims path =>
    exact ⟨_,fun cb => by rw [← linear_append,← and_append,append_new]; rfl,
      iaddCinCout_contributes hints a b cin sum cout imms dims path⟩
  | iadd32 x y z cout imms dims path =>
    exact ⟨_,fun cb => by rw [← linear_append,← and_append,append_new]; rfl,
      iadd32_contributes hints x y z cout imms dims path⟩
  | iadd32CinCout x y cin z cout imms dims path =>
    exact ⟨_,fun cb => by rw [← linear_append,← and_append,append_new]; rfl,
      iadd32CinCout_contributes hints x y cin z cout imms dims path⟩
  | isubBinBout one a b bin diff bout imms dims path =>
    exact ⟨_,fun cb => by rw [← linear_append,← and_append,append_new]; rfl,
      isubBinBout_contributes hints one a b bin diff bout imms dims path⟩
  | imul x y hi lo imms dims path =>
    exact ⟨_,fun cb => by rw [← imul_append,append_new]; rfl,
      imul_contributes hints x y hi lo imms dims path⟩
  | bmul aLo aHi bLo bHi cLo cHi imms dims path =>
    exact ⟨_,fun cb => by rw [← bmul_append,append_new]; rfl,
      bmul_contributes hints aLo aHi bLo bHi cLo cHi imms dims path⟩
  | shift x z n dims path variant hn =>
    refine ⟨_,fun cb => ?_,shift_contributes hints x z n dims path variant hn⟩
    change (GateKinds.Shift.variantOf variant.toU8 >>= fun variant =>
      pure (cb.linear [GateKinds.Shift.shiftedTerm variant x n] z)) = _
    rw [variantOf_toU8,← linear_append,append_new]
    rfl
  | icmpUlt one x y bout negated imms dims path =>
    exact ⟨_,fun cb => by rw [← and_append,append_new]; rfl,
      icmpUlt_contributes hints one x y bout negated imms dims path⟩
  | icmpEq one msb x y out cout diff imms dims path =>
    exact ⟨_,fun cb => by rw [← and_append,append_new]; rfl,
      icmpEq_contributes hints one msb x y out cout diff imms dims path⟩
  | assertEq x y imms dims path =>
    exact ⟨_,fun cb => by rw [← zero_append,append_new]; rfl,
      assertEq_contributes hints x y imms dims path⟩
  | assertZero x imms dims path =>
    exact ⟨_,fun cb => by rw [← zero_append,append_new]; rfl,
      assertZero_contributes hints x imms dims path⟩
  | assertNonZero one x cout imms dims path =>
    exact ⟨_,fun cb => by rw [← zero_append,← and_append,append_new]; rfl,
      assertNonZero_contributes hints one x cout imms dims path⟩
  | assertFalse x imms dims path =>
    exact ⟨_,fun cb => by rw [← zero_append,append_new]; rfl,
      assertFalse_contributes hints x imms dims path⟩
  | assertTrue one x imms dims path =>
    exact ⟨_,fun cb => by rw [← zero_append,append_new]; rfl,
      assertTrue_contributes hints one x imms dims path⟩
  | assertEqCond x y cond imms dims path =>
    exact ⟨_,fun cb => by rw [← and_append,append_new]; rfl,
      assertEqCond_contributes hints x y cond imms dims path⟩
  | hint => cases hb

end Binius64.GateConstraints
