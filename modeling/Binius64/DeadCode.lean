import Binius64.GraphEvaluation
import Binius64.MeasuredLoop

/-!
# Dead gates

A gate is live when it asserts something, when it defines a public or a pinned wire, or when it
feeds a live gate.
-/

namespace Binius64.DeadCode

open MachineWord ValueVector StraightLine WireConstraints EvalForm GateGraph GateKinds GateSemantics
  GateConstraints
open List GraphEvaluation ScratchAlloc ScratchPooling MeasuredLoop

/-- The gates that put nothing out, and those that define a public or a pinned wire. -/
def seeds (graph : Graph) (pinned : EntitySet) : List GateId :=
  ((range graph.gates.length).filter fun i => graph.gates[i]?.any fun g => g.outputs.isEmpty) ++
    ((range graph.wires.length).filter (isObservable graph pinned)).filterMap graph.wireDef

def feeders (graph : Graph) (gate : GateId) : List GateId :=
  match graph.gates[gate]? with
  | some g => g.inputs.filterMap graph.wireDef
  | none => []

/-- The gates that can affect the constraint system. -/
def liveGates (graph : Graph) (pinned : EntitySet) (steps : ℕ) : Option (List GateId) :=
  loop (Search.step (feeders graph)) steps ((seeds graph pinned).foldl Search.mark ⟨[],[]⟩)

def constrainGates (gates : List GateData) : Checked ConstraintBuilder :=
  gates.foldlM (fun builder g => constrain g builder) .new

def Feeds (graph : Graph) (i j : GateId) : Prop :=
  ∃ g g', graph.gates[i]? = some g ∧ graph.gates[j]? = some g' ∧ ∃ w ∈ g'.inputs, w ∈ g.outputs ++ g.aux

/-- A gate that asserts something, or defines a public or a pinned wire. -/
def Anchored (graph : Graph) (pinned : EntitySet) (i : GateId) : Prop :=
  ∃ g, graph.gates[i]? = some g ∧
    (g.outputs = [] ∨ ∃ w ∈ g.outputs ++ g.aux, isObservable graph pinned w = true)

variable {hints : HintRegistry} {graph : Graph} {pinned : EntitySet}

variable {g : GateData} {i : GateId}

theorem mem_writes_of_defines {w : Wire} (h : w ∈ g.outputs ++ g.aux) : w ∈ g.writes :=
  mem_append_left _ h

theorem wireDef_eq_some (h : Evaluable hints graph) {w : Wire} :
    graph.wireDef w = some i ↔ ∃ g, graph.gates[i]? = some g ∧ w ∈ g.outputs ++ g.aux := by
  have hmem : ∀ k, k ∈ (range graph.gates.length).filter (fun k =>
      graph.gates[k]?.any fun g => decide (w ∈ g.outputs ++ g.aux)) ↔
        ∃ g, graph.gates[k]? = some g ∧ w ∈ g.outputs ++ g.aux := by
    intro k
    rw [mem_filter,mem_range,Option.any_eq_true]
    simp only [decide_eq_true_eq]
    refine ⟨fun hk => hk.2,fun hk => ⟨?_,hk⟩⟩
    obtain ⟨g,hg,-⟩ := hk
    exact (List.getElem?_eq_some_iff.mp hg).1
  constructor
  · intro hdef
    exact (hmem i).mp (mem_of_getLast? hdef)
  · intro hi
    have hin := (hmem i).mpr hi
    obtain ⟨k,hk⟩ := Option.isSome_iff_exists.mp (getLast?_isSome.mpr (ne_nil_of_mem hin))
    obtain ⟨g,hg,hw⟩ := hi
    obtain ⟨g',hg',hw'⟩ := (hmem k).mp (mem_of_getLast? hk)
    rw [h.writer_unique hg hg' (mem_writes_of_defines hw) (mem_writes_of_defines hw')]
    exact hk

theorem mem_feeders (h : Evaluable hints graph) {j : GateId} : i ∈ feeders graph j ↔ Feeds graph i j := by
  rw [feeders]
  cases hj : graph.gates[j]? with
  | none =>
    refine ⟨nofun,?_⟩
    rintro ⟨g,g',-,hg',-⟩
    rw [hj] at hg'
    cases hg'
  | some g' =>
    rw [mem_filterMap]
    constructor
    · rintro ⟨w,hw,hdef⟩
      obtain ⟨g,hg,hwg⟩ := (wireDef_eq_some h).mp hdef
      exact ⟨g,g',hg,hj,w,hw,hwg⟩
    · rintro ⟨g,g'',hg,hg'',w,hw,hwg⟩
      rw [hj,Option.some.injEq] at hg''
      exact ⟨w,hg'' ▸ hw,(wireDef_eq_some h).mpr ⟨g,hg,hwg⟩⟩

theorem mem_seeds (h : Evaluable hints graph) :
    i ∈ seeds graph pinned ↔ Anchored graph pinned i := by
  rw [seeds,mem_append,mem_filter,mem_range,Option.any_eq_true,mem_filterMap]
  constructor
  · rintro (⟨-,g,hg,hempty⟩ | ⟨w,hw,hdef⟩)
    · exact ⟨g,hg,.inl (List.isEmpty_iff.mp hempty)⟩
    · obtain ⟨g,hg,hwg⟩ := (wireDef_eq_some h).mp hdef
      exact ⟨g,hg,.inr ⟨w,hwg,(mem_filter.mp hw).2⟩⟩
  · rintro ⟨g,hg,hempty | ⟨w,hwg,hobs⟩⟩
    · exact .inl ⟨(List.getElem?_eq_some_iff.mp hg).1,g,hg,List.isEmpty_iff.mpr hempty⟩
    · have hlt := h.inside g (mem_of_getElem? hg) w (GateData.mem_wires.mpr
        (.inr (mem_writes_of_defines hwg)))
      exact .inr ⟨w,mem_filter.mpr ⟨mem_range.mpr hlt,hobs⟩,(wireDef_eq_some h).mpr ⟨g,hg,hwg⟩⟩

theorem liveGates_ends (h : Evaluable hints graph) (pinned : EntitySet) :
    ∃ live, (∀ steps, graph.gates.length < steps → liveGates graph pinned steps = some live) ∧
      ∀ i, i ∈ live ↔ ∃ root, Anchored graph pinned root ∧ Relation.ReflTransGen (Feeds graph) i root := by
  have hgate : ∀ i g, graph.gates[i]? = some g → i ∈ range graph.gates.length := fun i g hg =>
    mem_range.mpr (List.getElem?_eq_some_iff.mp hg).1
  have hsuccs : ∀ a ∈ range graph.gates.length, ∀ b ∈ feeders graph a,
      b ∈ range graph.gates.length := by
    intro a _ b hb
    obtain ⟨g,_,hg,-⟩ := (mem_feeders h).mp hb
    exact hgate b g hg
  have hroots : ∀ root ∈ seeds graph pinned, root ∈ range graph.gates.length := by
    intro root hroot
    obtain ⟨g,hg,-⟩ := (mem_seeds h).mp hroot
    exact hgate root g hg
  obtain ⟨live,hlive,hsteps⟩ := Search.search_ends hsuccs hroots
  refine ⟨live,fun steps hlt => hsteps steps (by rw [length_range]; exact hlt),fun i => ?_⟩
  have hrel : (fun x y => y ∈ feeders graph x) = Function.swap (Feeds graph) := by
    funext x y
    exact propext (mem_feeders h)
  rw [hlive i,hrel]
  simp only [mem_seeds h,Relation.reflTransGen_swap]

theorem holds_of_agree {wires : List Wire} {d : ConstraintBuilder} (hterms : SingleTerms wires d)
    (hdsts : ∀ lin ∈ d.linearConstraints, lin.dst ∈ wires) {σ τ : Wire → Word}
    (hagree : ∀ w ∈ wires, τ w = σ w) (h : d.Holds σ) : d.Holds τ := by
  have hoperand : ∀ operand ∈ d.operands, evalWires τ operand = evalWires σ operand :=
    fun operand ho => evalWires_congr fun t ht => hagree t.wire (hterms operand ho t ht).mem
  have hroot : ∀ operand ∈ d.rootOperands, evalWires τ operand = evalWires σ operand :=
    fun operand ho => hoperand operand (mem_append_left _ ho)
  have hcongr : ∀ {C : Type} [WireConstraint C] {cs : List C},
      (∀ c ∈ cs, ∀ operand ∈ WireConstraint.operands c, operand ∈ d.rootOperands) →
        (∀ c ∈ cs, WireConstraint.Holds σ c) → ∀ c ∈ cs, WireConstraint.Holds τ c := by
    intro C _ cs hin hcs c hc
    refine (WireConstraint.holds_congr τ σ c c (map_congr_left fun operand ho => ?_)).mpr (hcs c hc)
    exact hroot operand (hin c hc operand ho)
  refine ⟨hcongr (fun c hc operand ho => ?_) h.and,hcongr (fun c hc operand ho => ?_) h.imul,
    hcongr (fun c hc operand ho => ?_) h.bmul,fun lin hl => ?_,hcongr (fun c hc operand ho => ?_) h.zero⟩
  · exact ConstraintBuilder.mem_rootOperands.mpr (.inl ⟨c,hc,ho⟩)
  · exact ConstraintBuilder.mem_rootOperands.mpr (.inr (.inl ⟨c,hc,ho⟩))
  · exact ConstraintBuilder.mem_rootOperands.mpr (.inr (.inr (.inl ⟨c,hc,ho⟩)))
  · have hrhs := hoperand lin.rhs (mem_append_right _ (mem_map_of_mem hl))
    rw [WireLinearConstraint.Holds,hrhs,hagree lin.dst (hdsts lin hl)]
    exact h.linear lin hl
  · exact ConstraintBuilder.mem_rootOperands.mpr (.inr (.inr (.inr ⟨c,hc,ho⟩)))

/-- What the constraints of a gate of any kind say; those of a hint say nothing. -/
structure Contribution (hints : HintRegistry) (g : GateData) (d : ConstraintBuilder) : Prop where
  constrain : ∀ builder, constrain g builder = .ok (append builder d)
  /-- They hold where nothing is violated and every written wire has its word. -/
  complete : ∀ σ, ConstantsHold hints g σ → Passes hints g (g.inputs.map σ) →
    g.writes.map σ = written hints g (g.inputs.map σ) → d.Holds σ
  /-- They say the same of words that agree on the wires of the gate, scratch apart. -/
  agree : ∀ σ τ : Wire → Word, (∀ w ∈ g.reads ++ g.outputs ++ g.aux, τ w = σ w) → d.Holds σ → d.Holds τ

theorem append_new_left (d : ConstraintBuilder) : append .new d = d := rfl

theorem contribution_ok (h : Fits hints g) : ∃ d, Contribution hints g d := by
  cases hbody : g.body with
  | op opcode =>
    obtain ⟨d,hconstrain,hd⟩ := constrain_ok h.shaped hbody
    refine ⟨d,hconstrain,hd.complete,fun σ τ hagree => holds_of_agree hd.terms (fun lin hl => ?_) hagree⟩
    have hmem := mem_of_mem_head? (hd.linear lin hl).1
    exact mem_append_left _ (mem_append_right _ hmem)
  | hint id =>
    refine ⟨.new,fun builder => ?_,fun σ _ _ _ => new_holds σ,fun _ τ _ _ => new_holds τ⟩
    rw [GateKinds.constrain,hbody,append_new]
    rfl

def Meets (g : GateData) (σ : Wire → Word) : Prop :=
  ∃ d, GateKinds.constrain g .new = .ok d ∧ d.Holds σ

theorem Contribution.meets_iff {d : ConstraintBuilder} (h : Contribution hints g d)
    {σ : Wire → Word} : Meets g σ ↔ d.Holds σ := by
  have hnew := h.constrain .new
  rw [append_new_left] at hnew
  constructor
  · rintro ⟨d',hd',hholds⟩
    rw [hnew] at hd'
    exact Except.ok.inj hd' ▸ hholds
  · exact fun hd => ⟨d,hnew,hd⟩

theorem constrainGates_ok {gates : List GateData} (h : ∀ g ∈ gates, Fits hints g) :
    ∃ builder, constrainGates gates = .ok builder ∧
      ∀ σ, builder.Holds σ ↔ ∀ g ∈ gates, Meets g σ := by
  have hfrom : ∀ start : ConstraintBuilder, ∃ builder,
      gates.foldlM (fun builder g => GateKinds.constrain g builder) start = .ok builder ∧
        ∀ σ, builder.Holds σ ↔ start.Holds σ ∧ ∀ g ∈ gates, Meets g σ := by
    induction gates with
    | nil => exact fun start => ⟨start,rfl,fun σ => ⟨fun hs => ⟨hs,nofun⟩,fun hs => hs.1⟩⟩
    | cons g rest ih =>
      intro start
      rw [forall_mem_cons] at h
      obtain ⟨d,hd⟩ := contribution_ok h.1
      obtain ⟨builder,hbuilder,hholds⟩ := ih h.2 (append start d)
      refine ⟨builder,?_,fun σ => ?_⟩
      · rw [foldlM_cons,hd.constrain]
        exact hbuilder
      · rw [hholds,append_holds,forall_mem_cons,hd.meets_iff,and_assoc]
  obtain ⟨builder,hbuilder,hholds⟩ := hfrom .new
  exact ⟨builder,hbuilder,fun σ => (hholds σ).trans (and_iff_right (new_holds σ))⟩

def observed (graph : Graph) (pinned : EntitySet) : Set Wire :=
  {w | isObservable graph pinned w = true ∨ ∀ g ∈ graph.gates, w ∉ g.writes}

def solutions (graph : Graph) (builder : ConstraintBuilder) : Set (Wire → Word) :=
  {σ | HoldsConstants graph σ ∧ builder.Holds σ}

/-- Gates that contain the anchored ones and everything that feeds them. -/
structure ClosedGates (graph : Graph) (pinned : EntitySet) (live : GateId → Bool) : Prop where
  anchored : ∀ i, Anchored graph pinned i → live i = true
  feeds : ∀ i j, Feeds graph i j → live j = true → live i = true

section Leave

variable {live : GateId → Bool}

def deadGates (graph : Graph) (live : GateId → Bool) : List GateData := gatesAt graph fun i => !live i

theorem mem_deadGates {g : GateData} :
    g ∈ deadGates graph live ↔ ∃ i, graph.gates[i]? = some g ∧ live i = false := by
  rw [deadGates,mem_gatesAt]
  simp only [Bool.not_eq_true']

theorem unwritten_by_dead (h : Evaluable hints graph) (hlive : ClosedGates graph pinned live) {i : GateId}
    {g : GateData} (hi : graph.gates[i]? = some g) {w : Wire} (hw : w ∈ g.reads ++ g.outputs ++ g.aux)
    (hsafe : live i = true ∨ isObservable graph pinned w = true) : ∀ g' ∈ deadGates graph live, w ∉ g'.writes := by
  intro g' hg' hwritten
  obtain ⟨j,hj,hdead⟩ := mem_deadGates.mp hg'
  have halive : live j = true := by
    rw [append_assoc] at hw
    rcases mem_append.mp hw with hread | hdef
    · -- what is read is an output of a gate before
      have hout := (h.writer_of_read hi hj hread hwritten).2
      have hdefines : w ∈ g'.outputs ++ g'.aux := mem_append_left _ hout
      rcases hsafe with hkept | hobs
      · rcases mem_append.mp hread with hconst | hin
        · obtain ⟨word,hword⟩ := h.constOf_constant (mem_of_getElem? hi) hconst
          exact absurd hwritten (h.unwritten w word hword g' (mem_of_getElem? hj))
        · exact hlive.feeds j i ⟨g',g,hj,hi,w,hin,hdefines⟩ hkept
      · exact hlive.anchored j ⟨g',hj,.inr ⟨w,hdefines,hobs⟩⟩
    · -- what the gate itself defines
      have hsame := h.writer_unique hi hj (mem_writes_of_defines hdef) hwritten
      rcases hsafe with hkept | hobs
      · exact hsame ▸ hkept
      · exact hsame ▸ hlive.anchored i ⟨g,hi,.inr ⟨w,hdef,hobs⟩⟩
  rw [hdead] at halive
  cases halive

open Classical in
theorem exists_completion (h : Evaluable hints graph) (hlive : ClosedGates graph pinned live)
    {σ : Wire → Word} (hσ : HoldsConstants graph σ) (hkept : ∀ g ∈ gatesAt graph live, Meets g σ) :
    ∃ τ, HoldsConstants graph τ ∧ (∀ g ∈ graph.gates, Meets g τ) ∧
      ∀ w ∈ observed graph pinned, τ w = σ w := by
  have hsub := gatesAt_sublist graph fun i => !live i
  obtain ⟨ρ,hρ⟩ : ∃ ρ, ρ = run (program hints (deadGates graph live)) σ := ⟨_,rfl⟩
  have hfree : ∀ w, (∀ g ∈ deadGates graph live, w ∉ g.writes) → ρ w = σ w := fun w hw =>
    hρ ▸ run_unwritten hw σ
  have hsolves : Solves hints (deadGates graph live) ρ := hρ ▸ run_solves h.ordered hsub σ
  have hall : ∀ w, (∀ g ∈ graph.gates, w ∉ g.writes) → ρ w = σ w := fun w hw =>
    hfree w fun g hg => hw g (hsub.subset hg)
  have hconstρ : HoldsConstants graph ρ := fun w word hc =>
    (hall w (h.unwritten w word hc)).trans (hσ w word hc)
  -- scratch words of the gates left out may be observable, and keep what they were
  refine ⟨fun w => if w ∈ observed graph pinned then σ w else ρ w,fun w word hc => ?_,fun g hg => ?_,
    fun w hw => if_pos hw⟩
  · exact (if_pos (show w ∈ observed graph pinned from .inr (h.unwritten w word hc))).trans (hσ w word hc)
  · obtain ⟨i,hi⟩ := mem_iff_getElem?.mp hg
    obtain ⟨d,hd⟩ := contribution_ok (h.fits g hg)
    rw [hd.meets_iff]
    refine hd.agree ρ _ (fun w hw => ?_) ?_
    · by_cases hobs : w ∈ observed graph pinned
      · rw [if_pos hobs]
        rcases hobs with hobs | hobs
        · exact (hfree w (unwritten_by_dead h hlive hi hw (.inr hobs))).symm
        · exact (hall w hobs).symm
      · rw [if_neg hobs]
    · cases hlive' : live i with
      | true =>
        have hmeets := hkept g (mem_gatesAt.mpr ⟨i,hi,hlive'⟩)
        exact hd.agree σ ρ (fun w hw => hfree w (unwritten_by_dead h hlive hi hw (.inl hlive')))
          (hd.meets_iff.mp hmeets)
      | false =>
        have hdead := mem_deadGates.mpr ⟨i,hi,hlive'⟩
        have hout : g.outputs ≠ [] := by
          intro hnil
          have halive := hlive.anchored i ⟨g,hi,.inl hnil⟩
          rw [hlive'] at halive
          cases halive
        exact hd.complete ρ (h.constantsHold hconstρ hg)
          (passes_of_outputs (h.fits g hg).shaped hout (length_map ρ)) (hsolves g hdead)

end Leave

/-- Dead-code elimination ends with the gates that assert something and those that an assertion, a public
or a pinned wire depends on, and the constraints of these allow the same observable words as those
of all gates. -/
theorem deadCode_preserves (h : Evaluable hints graph) (pinned : EntitySet) :
    ∃ live all kept, (∀ steps, graph.gates.length < steps → liveGates graph pinned steps = some live) ∧
      (∀ i g, graph.gates[i]? = some g → g.outputs = [] → i ∈ live) ∧
      (∀ i, i ∈ live ↔ ∃ root, Anchored graph pinned root ∧ Relation.ReflTransGen (Feeds graph) i root) ∧
      constrainGates graph.gates = .ok all ∧ constrainGates (gatesAt graph (· ∈ live)) = .ok kept ∧
      (observed graph pinned).domRestrict '' solutions graph kept =
        (observed graph pinned).domRestrict '' solutions graph all := by
  obtain ⟨live,hsteps,hreach⟩ := liveGates_ends h pinned
  obtain ⟨all,hall,hallHolds⟩ := constrainGates_ok h.fits
  obtain ⟨kept,hkept,hkeptHolds⟩ := @constrainGates_ok hints (gatesAt graph (· ∈ live)) fun g hg =>
    h.fits g ((gatesAt_sublist graph _).subset hg)
  have hclosed : ClosedGates graph pinned (· ∈ live) := by
    refine ⟨fun i hi => decide_eq_true ((hreach i).mpr ⟨i,hi,.refl⟩),fun i j hfeeds hj => ?_⟩
    obtain ⟨root,hroot,hpath⟩ := (hreach j).mp (of_decide_eq_true hj)
    exact decide_eq_true ((hreach i).mpr ⟨root,hroot,hpath.head hfeeds⟩)
  refine ⟨live,all,kept,hsteps,fun i g hg hnil => ?_,hreach,hall,hkept,Set.Subset.antisymm ?_ ?_⟩
  · exact (hreach i).mpr ⟨i,⟨g,hg,.inl hnil⟩,.refl⟩
  · rintro _ ⟨σ,⟨hσ,hholds⟩,rfl⟩
    obtain ⟨τ,hτ,hmeets,hsame⟩ := exists_completion h hclosed hσ ((hkeptHolds σ).mp hholds)
    exact ⟨τ,⟨hτ,(hallHolds τ).mpr hmeets⟩,funext fun w => hsame w.1 w.2⟩
  · refine Set.image_mono fun σ hσ => ⟨hσ.1,(hkeptHolds σ).mpr fun g hg => ?_⟩
    exact (hallHolds σ).mp hσ.2 g ((gatesAt_sublist graph _).subset hg)

/-- Of a chain of three gates whose second result is pinned, the last gate is dead. -/
theorem deadCode_preserves_chain :
    ∃ live, liveGates chain [false,false,false,false,true] 4 = some live ∧ 0 ∈ live ∧ 2 ∉ live := by
  obtain ⟨live,_,_,hsteps,-⟩ := deadCode_preserves
    (evaluable_of_wellFormed (chain_wellFormed fun _ => ⟨fun _ => (0,0),fun _ _ => [],fun _ _ => rfl⟩))
    [false,false,false,false,true]
  have hlive : liveGates chain [false,false,false,false,true] 4 = some [0,1] := by decide
  have hsame := (hsteps 4 (by decide)).symm.trans hlive
  rw [Option.some.injEq] at hsame
  exact ⟨live,hsteps 4 (by decide),by rw [hsame]; decide,by rw [hsame]; decide⟩

end Binius64.DeadCode
