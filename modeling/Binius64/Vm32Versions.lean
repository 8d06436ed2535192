import Binius64.Vm32Recording

/-!
# Addressing by register and version

The circuit bounds the version a register write makes, so the versions of registers stay within
their rows of the log.
-/

namespace Binius64.Vm32

open MachineWord (Word isMsbTrue)
open WordGates LaneWords VersionedLog List
open Function (update update_of_ne update_self)

def Cycle.regLog (c : Cycle) : Entries :=
  [(false,c.read1.access),(false,c.read2.access)] ++ c.write.toList.map fun wr => (true,wr.access)

def Cycle.ramLog (c : Cycle) : Entries :=
  (c.load.toList.map fun ld => (false,ld.access)) ++ c.store.toList.map fun st => (true,st.access)

theorem fill_regAccesses (c : Cycle) : c.fill.regAccesses = c.regLog.map Prod.snd := by
  rw [CycleInout.regAccesses,Cycle.fill,Cycle.regLog]
  cases hw : c.write with
  | none => rfl
  | some wr =>
    dsimp only
    have hflag : flag (some wr) ≠ 0 := show (1 : Word) ≠ 0 by decide
    rw [if_pos hflag,←c.write_reg wr hw]
    rfl

theorem fill_ramAccesses (c : Cycle) : c.fill.ramAccesses = c.ramLog.map Prod.snd := by
  rw [CycleInout.ramAccesses,Cycle.fill,Cycle.ramLog]
  cases c.load with
  | none => cases c.store <;> rfl
  | some ld => cases c.store <;> rfl

def regCells (s : Chains) : Cells Word where
  ver r := (s.curVer.getD r 0).toNat
  val r := s.curReg.getD r 0

def ramCells (s : Chains) (mem : ℕ → BitVec 32) : Cells Word where
  ver a := (s.cRamVer.getD a 0).toNat
  val a := ofU32 (mem a)

section Cycle

variable {s : Chains} {c : Cycle}

theorem regCells_next_of_not (hs : s.Sized) (hw : isMsbTrue (isAluWrite c.inst) = false) :
    regCells (s.next c.fill) = regCells s := by
  obtain ⟨hreg,hver⟩ := Chains.next_curReg_of_not hs (c := c.fill) hw
  rw [regCells,regCells,hreg,hver]

theorem regCells_next (hs : s.Sized) (hw : isMsbTrue (isAluWrite c.inst) = true)
    (hbound : ∀ r, (regCells s).ver r < verMax) : regCells (s.next c.fill) =
      (regCells s).apply ⟨true,(rd c.inst).toNat,(regCells s).ver (rd c.inst).toNat + 1,s.wb c.fill⟩ := by
  have hver : ∀ r, ((s.next c.fill).curVer.getD r 0).toNat =
      update (regCells s).ver (rd c.inst).toNat
        ((regCells s).ver (rd c.inst).toNat + 1) r := by
    intro r
    rw [Chains.next_curVer hs]
    by_cases hr : (rd c.inst).toNat = r
    · have hlt := hbound r
      rw [←hr] at hlt ⊢
      rw [update_self,if_pos ⟨rfl,hw⟩]
      exact toNat_iadd_one (Nat.lt_trans (Nat.add_lt_add_right hlt 1) (by decide))
    · rw [update_of_ne (Ne.symm hr),if_neg (fun h => hr h.1)]
      rfl
  have hreg : ∀ r, (s.next c.fill).curReg.getD r 0 =
      update (regCells s).val (rd c.inst).toNat (s.wb c.fill) r := by
    intro r
    rw [Chains.next_curReg hs]
    by_cases hr : (rd c.inst).toNat = r
    · rw [←hr,update_self,if_pos ⟨rfl,hw⟩]
    · rw [update_of_ne (Ne.symm hr),if_neg (fun h => hr h.1)]
      rfl
  rw [Cells.apply,if_pos rfl,regCells]
  simp only [hver,hreg]

theorem regCells_mux (hs : s.Sized) {sel : Word} (hsel : sel.toNat < nReg) :
    (regCells s).ver sel.toNat = (mux s.curVer sel).toNat ∧
      (regCells s).val sel.toNat = mux s.curReg sel := by
  have hver := mux_getElem? (k := 5) hs.curVer (by decide) hsel
  have hreg := mux_getElem? (k := 5) hs.curReg (by decide) hsel
  rw [regCells]
  dsimp only
  rw [getD_eq_getElem?_getD,getD_eq_getElem?_getD,hver,hreg]
  exact ⟨rfl,rfl⟩

theorem reg_read (hs : s.Sized) {sel : Word} (hsel : sel.toNat < nReg) {a : RegAccess}
    (hreg : a.reg = sel) (hver : a.ver = mux s.curVer sel) (hval : ofU32 a.val = mux s.curReg sel) :
    a.reg.toNat < nReg ∧ a.ver.toNat = (regCells s).ver a.reg.toNat ∧
      ofU32 a.val = (regCells s).val a.reg.toNat := by
  obtain ⟨hcell,hread⟩ := regCells_mux hs hsel
  rw [hreg,hver,hval]
  exact ⟨hsel,hcell.symm,hread.symm⟩

/-- What the register accesses of an asserted cycle are to the register cells. -/
structure RegCycle (s : Chains) (c : Cycle) : Prop where
  follows : Follows (regCells s) (c.regLog.map event)
  reads : ReadsHold (regCells s) (c.regLog.map event)
  fits : Fits nReg verMax (c.regLog.map event)
  run : (regCells s).run (c.regLog.map event) = regCells (s.next c.fill)
  bound : ∀ r, (regCells (s.next c.fill)).ver r < verMax

theorem reg_cycle (hs : s.Sized) (h : CycleAsserts s c.fill)
    (hbound : ∀ r, (regCells s).ver r < verMax) : RegCycle s c := by
  obtain ⟨hlt1,hver1,hval1⟩ := reg_read hs (rs1_lt c.inst) h.rd1Reg h.rd1Ver h.rd1Val
  obtain ⟨hlt2,hver2,hval2⟩ := reg_read hs (rs2_lt c.inst) h.rd2Reg h.rd2Ver h.rd2Val
  have hrows1 : c.read1.ver.toNat < verMax := hver1 ▸ hbound _
  have hrows2 : c.read2.ver.toNat < verMax := hver2 ▸ hbound _
  have hflag := isMsbTrue_of_flag h.wrIswrite
  cases hw : c.write with
  | none =>
    rw [hw] at hflag
    have hnext := regCells_next_of_not hs hflag
    have hlog : c.regLog.map event = [event (false,c.read1.access),event (false,c.read2.access)] := by
      rw [Cycle.regLog,hw]
      rfl
    refine ⟨?_,?_,?_,?_,?_⟩
    · rw [hlog]
      exact ⟨hver1,hver2,trivial⟩
    · rw [hlog]
      exact ⟨fun _ => hval1,fun _ => hval2,trivial⟩
    · rw [hlog]
      exact .cons hlt1 hrows1 (.cons hlt2 hrows2 (.nil _ _))
    · rw [hlog,hnext]
      rfl
    · rw [hnext]
      exact hbound
  | some wr =>
    rw [hw] at hflag
    have hnext := regCells_next hs hflag hbound
    have hreg : wr.reg = rd c.inst := by
      rw [c.write_reg wr hw,fnRv32_eq]
    obtain ⟨hver,hval⟩ := fill_write_some hw
    have hmux := (regCells_mux (hs.next c.fill) (rd_lt c.inst)).1
    have hnow : wr.ver = mux (s.next c.fill).curVer (rd c.inst) := hver.symm.trans h.wrVer
    have hwb : ofU32 wr.val = s.wb c.fill := hval.symm.trans h.wrVal
    have hmade : wr.ver.toNat = (regCells s).ver wr.reg.toNat + 1 := by
      rw [hnext,Cells.apply,if_pos rfl] at hmux
      rw [hnow,←hmux,hreg]
      exact update_self _ _ _
    have hmax : wr.ver.toNat < verMax := by
      have hone : ∀ cond : Word, band 1 (bool01 cond) = 0 ↔ isMsbTrue cond = false := by
        intro cond
        rw [bool01,select]
        cases isMsbTrue cond <;> decide
      have hassert := h.verBound
      rw [@select_of_true (isAluWrite c.fill.inst) hflag,hone,isMsbTrue_icmpUlt,
        decide_eq_false_iff_not,Nat.not_lt] at hassert
      have hbv : (BitVec.ofNat 64 (verMax - 1)).toNat = verMax - 1 := rfl
      have hle : wr.ver.toNat ≤ verMax - 1 := by
        rw [hnow,←hbv]
        exact hassert
      exact Nat.lt_of_le_pred (by decide) hle
    have hevent : event (true,wr.access) = ⟨true,(rd c.inst).toNat,
        (regCells s).ver (rd c.inst).toNat + 1,s.wb c.fill⟩ := by
      rw [←hreg,←hmade,←hwb]
      rfl
    have hlog : c.regLog.map event = [event (false,c.read1.access),event (false,c.read2.access),
        event (true,wr.access)] := by
      rw [Cycle.regLog,hw]
      rfl
    refine ⟨?_,?_,?_,?_,?_⟩
    · rw [hlog]
      exact ⟨hver1,hver2,hmade,trivial⟩
    · rw [hlog]
      exact ⟨fun _ => hval1,fun _ => hval2,fun hf => absurd hf Bool.noConfusion,trivial⟩
    · have hlt : wr.reg.toNat < nReg := by
        rw [hreg]
        exact rd_lt c.inst
      rw [hlog]
      exact .cons hlt1 hrows1 (.cons hlt2 hrows2 (.cons hlt hmax (.nil _ _)))
    · rw [hlog,hnext,←hevent]
      rfl
    · intro r
      rw [hnext,Cells.apply,if_pos rfl]
      dsimp only
      by_cases hr : r = (rd c.inst).toNat
      · rw [hr,update_self,←hreg,←hmade]
        exact hmax
      · rw [update_of_ne hr]
        exact hbound r

end Cycle

variable {cycles : List Cycle} {s : Chains} (a : ℕ)

theorem reg_run (hs : s.Sized)
    (h : CyclesHold s (cycles.map Cycle.fill)) (hbound : ∀ r, (regCells s).ver r < verMax) :
    Follows (regCells s) ((cycles.flatMap Cycle.regLog).map event) ∧
      ReadsHold (regCells s) ((cycles.flatMap Cycle.regLog).map event) ∧
      Fits nReg verMax ((cycles.flatMap Cycle.regLog).map event) := by
  induction cycles generalizing s with
  | nil => exact ⟨trivial,trivial,.nil _ _⟩
  | cons c cs ih =>
    have hcycle := reg_cycle hs h.1 hbound
    obtain ⟨hfollows,hreads,hfits⟩ := ih (hs.next c.fill) h.2 hcycle.bound
    rw [flatMap_cons,map_append,follows_append,readsHold_append,hcycle.run]
    exact ⟨⟨hcycle.follows,hfollows⟩,⟨hcycle.reads,hreads⟩,hcycle.fits.append hfits⟩

theorem storesTo_singleton (c : Cycle) :
    storesTo a [c] = if ∃ st ∈ c.store, st.addr.toNat = a then 1 else 0 := by
  rw [storesTo]
  cases hst : c.store with
  | none =>
    rw [filterMap_cons_none hst]
    exact (if_neg fun ⟨st,hmem,_⟩ => absurd hmem (Option.not_mem_none st)).symm
  | some st =>
    rw [filterMap_cons_some hst,filterMap_nil,countP_singleton]
    by_cases ha : st.addr.toNat = a
    · rw [if_pos (decide_eq_true ha),if_pos ⟨st,rfl,ha⟩]
    · have hnot : ¬∃ st' ∈ some st, st'.addr.toNat = a := by
        rintro ⟨st',hmem,haddr⟩
        obtain rfl := Option.some.inj hmem
        exact ha haddr
      rw [if_neg (by rwa [decide_eq_true_eq]),if_neg hnot]

theorem storesTo_cons (c : Cycle) (cs : List Cycle) :
    storesTo a (c::cs) = storesTo a [c] + storesTo a cs := by
  rw [storesTo,storesTo,storesTo,←countP_append,←filterMap_append]
  rfl

section Cycle

variable {s : Chains} {c : Cycle}

theorem ram_load (hs : s.Sized) (h : CycleAsserts s c.fill) (mem : ℕ → BitVec 32) {ld : MemAccess}
    (hld : c.load = some ld) :
    ld.addr.toNat < nRam ∧ ld.ver.toNat = (ramCells s mem).ver ld.addr.toNat := by
  obtain ⟨haddr,hver⟩ := fill_load_some hld
  have hlt : (s.effLdAddr c.inst).toNat < nRam := effLdAddr_lt _ _
  have hmux := mux_getElem? (k := 6) hs.cRamVer (by decide) hlt
  rw [←haddr,←hver,h.ldAddr,h.ldVer]
  refine ⟨hlt,?_⟩
  have hinst : c.fill.inst = c.inst := rfl
  rw [ramCells]
  dsimp only
  rw [getD_eq_getElem?_getD,hinst,hmux]
  rfl

theorem ram_store (hs : s.Sized) (h : CycleAsserts s c.fill) {st : MemAccess}
    (hst : c.store = some st) : st.addr = s.stAddrW c.inst ∧ st.addr.toNat < nRam ∧
      st.ver = iadd (s.cRamVer.getD st.addr.toNat 0) 1 := by
  obtain ⟨haddr,hver,-⟩ := fill_store_some hst
  have hlt : (s.stAddrW c.inst).toNat < nRam := stAddrW_lt _ _
  have hmux := mux_getElem? (k := 6) hs.cRamVer (by decide) hlt
  have hsel : st.addr = s.stAddrW c.inst := haddr.symm.trans h.stAddr
  rw [←hver,h.stVer,hsel,getD_eq_getElem?_getD,hmux]
  exact ⟨rfl,hlt,rfl⟩

theorem next_ramVer (hs : s.Sized) (h : CycleAsserts s c.fill) (a : ℕ) :
    (s.next c.fill).cRamVer.getD a 0 = if ∃ st ∈ c.store, st.addr.toNat = a then
      iadd (s.cRamVer.getD a 0) 1 else s.cRamVer.getD a 0 := by
  have hflag : isMsbTrue (cIsStore c.inst) = c.store.isSome := isMsbTrue_of_flag h.isStore
  have hiff : ((s.stAddrW c.fill.inst).toNat = a ∧ isMsbTrue (cIsStore c.fill.inst) = true) ↔
      ∃ st ∈ c.store, st.addr.toNat = a := by
    have hinst : c.fill.inst = c.inst := rfl
    rw [hinst,hflag]
    constructor
    · rintro ⟨haddr,hsome⟩
      obtain ⟨st,hst⟩ := Option.isSome_iff_exists.mp hsome
      refine ⟨st,hst,?_⟩
      rw [(ram_store hs h hst).1,haddr]
    · rintro ⟨st,hst,haddr⟩
      rw [←(ram_store hs h hst).1]
      exact ⟨haddr,Option.isSome_iff_exists.mpr ⟨st,hst⟩⟩
  rw [Chains.next_cRamVer hs]
  simp only [hiff]

/-- What the memory accesses of an asserted cycle are to the memory cells. -/
structure RamCycle (s : Chains) (mem : ℕ → BitVec 32) (c : Cycle) : Prop where
  follows : Follows (ramCells s mem) (c.ramLog.map event)
  reads : ReadsHold (ramCells s mem) (c.ramLog.map event) ↔ ∀ ld ∈ c.load, ld.val = mem ld.addr.toNat
  fits : Fits nRam verMax (c.ramLog.map event)
  run : (ramCells s mem).run (c.ramLog.map event) = ramCells (s.next c.fill) (storeInto mem c)

theorem ram_loads (hs : s.Sized) (h : CycleAsserts s c.fill) (mem : ℕ → BitVec 32)
    (hbound : ∀ a < nRam, (ramCells s mem).ver a < verMax) :
    Follows (ramCells s mem) ((c.load.toList.map fun ld => (false,ld.access)).map event) ∧
      (ReadsHold (ramCells s mem) ((c.load.toList.map fun ld => (false,ld.access)).map event) ↔
        ∀ ld ∈ c.load, ld.val = mem ld.addr.toNat) ∧
      Fits nRam verMax ((c.load.toList.map fun ld => (false,ld.access)).map event) ∧
      (ramCells s mem).run ((c.load.toList.map fun ld => (false,ld.access)).map event) =
        ramCells s mem := by
  cases hld : c.load with
  | none =>
    refine ⟨trivial,?_,.nil _ _,rfl⟩
    exact iff_of_true trivial fun ld hmem => absurd hmem (Option.not_mem_none ld)
  | some ld =>
    obtain ⟨hlt,hver⟩ := ram_load hs h mem hld
    have hrows := hbound _ hlt
    rw [←hver] at hrows
    refine ⟨⟨hver,trivial⟩,?_,.cons hlt hrows (.nil _ _),rfl⟩
    have hval : ofU32 ld.val = ofU32 (mem ld.addr.toNat) ↔ ld.val = mem ld.addr.toNat := ofU32_inj
    constructor
    · rintro ⟨hread,_⟩ ld' hmem
      obtain rfl := Option.some.inj hmem
      exact hval.mp (hread rfl)
    · intro hread
      exact ⟨fun _ => hval.mpr (hread ld rfl),trivial⟩

theorem ram_stores (hs : s.Sized) (h : CycleAsserts s c.fill) (mem : ℕ → BitVec 32)
    (hbound : ∀ a < nRam, (ramCells s mem).ver a + storesTo a [c] < verMax) :
    Follows (ramCells s mem) ((c.store.toList.map fun st => (true,st.access)).map event) ∧
      ReadsHold (ramCells s mem) ((c.store.toList.map fun st => (true,st.access)).map event) ∧
      Fits nRam verMax ((c.store.toList.map fun st => (true,st.access)).map event) ∧
      (ramCells s mem).run ((c.store.toList.map fun st => (true,st.access)).map event) =
        ramCells (s.next c.fill) (storeInto mem c) := by
  have hnext := next_ramVer hs h
  cases hst : c.store with
  | none =>
    refine ⟨trivial,trivial,.nil _ _,?_⟩
    have hmem : storeInto mem c = mem := by
      rw [storeInto,hst]
    have hver : ∀ a, (s.next c.fill).cRamVer.getD a 0 = s.cRamVer.getD a 0 := by
      intro a
      rw [hnext a,hst]
      exact if_neg fun ⟨st,hmem,_⟩ => absurd hmem (Option.not_mem_none st)
    rw [hmem]
    change ramCells s mem = _
    rw [ramCells,ramCells]
    simp only [hver]
  | some st =>
    obtain ⟨-,hlt,hmade⟩ := ram_store hs h hst
    have hcount : storesTo st.addr.toNat [c] = 1 := by
      rw [storesTo_singleton,if_pos ⟨st,hst,rfl⟩]
    have hrows := hbound _ hlt
    rw [hcount] at hrows
    have hver : st.ver.toNat = (ramCells s mem).ver st.addr.toNat + 1 := by
      rw [hmade]
      exact toNat_iadd_one (hrows.trans (by decide))
    have hlast : st.ver.toNat < verMax := hver ▸ hrows
    refine ⟨⟨hver,trivial⟩,⟨fun hf => absurd hf Bool.noConfusion,trivial⟩,
      .cons hlt hlast (.nil _ _),?_⟩
    have hmem : storeInto mem c = update mem st.addr.toNat st.val := by
      rw [storeInto,hst]
    have hvers : ∀ a, ((s.next c.fill).cRamVer.getD a 0).toNat =
        update (ramCells s mem).ver st.addr.toNat st.ver.toNat a := by
      intro a
      rw [hnext a,hst]
      by_cases ha : st.addr.toNat = a
      · rw [if_pos ⟨st,rfl,ha⟩,←ha,update_self,hmade]
      · have hnot : ¬∃ st' ∈ some st, st'.addr.toNat = a := by
          rintro ⟨st',hmem',haddr⟩
          obtain rfl := Option.some.inj hmem'
          exact ha haddr
        rw [if_neg hnot,update_of_ne (Ne.symm ha)]
        rfl
    have hvals : ∀ a, ofU32 (update mem st.addr.toNat st.val a) =
        update (ramCells s mem).val st.addr.toNat (ofU32 st.val) a := by
      intro a
      by_cases ha : a = st.addr.toNat
      · rw [ha,update_self,update_self]
      · rw [update_of_ne ha,update_of_ne ha]
        rfl
    have hrun : (ramCells s mem).run [event (true,st.access)] =
        ⟨update (ramCells s mem).ver st.addr.toNat st.ver.toNat,
          update (ramCells s mem).val st.addr.toNat (ofU32 st.val)⟩ := rfl
    have hcells : ramCells (s.next c.fill) (update mem st.addr.toNat st.val) =
        ⟨fun a => ((s.next c.fill).cRamVer.getD a 0).toNat,
          fun a => ofU32 (update mem st.addr.toNat st.val a)⟩ := rfl
    rw [hmem,hcells]
    simp only [hvers,hvals]
    exact hrun

theorem ram_cycle (hs : s.Sized) (h : CycleAsserts s c.fill) (mem : ℕ → BitVec 32)
    (hbound : ∀ a < nRam, (ramCells s mem).ver a + storesTo a [c] < verMax) :
    RamCycle s mem c := by
  obtain ⟨hfollows,hreads,hfits,hrun⟩ := ram_loads hs h mem fun a ha =>
    Nat.lt_of_le_of_lt (Nat.le_add_right _ _) (hbound a ha)
  obtain ⟨hfollows',hreads',hfits',hrun'⟩ := ram_stores hs h mem hbound
  refine ⟨?_,?_,?_,?_⟩
  · rw [Cycle.ramLog,map_append,follows_append,hrun]
    exact ⟨hfollows,hfollows'⟩
  · rw [Cycle.ramLog,map_append,readsHold_append,hrun,hreads]
    exact and_iff_left hreads'
  · rw [Cycle.ramLog,map_append]
    exact hfits.append hfits'
  · rw [Cycle.ramLog,map_append,Cells.run,foldl_append]
    rw [Cells.run] at hrun hrun'
    rw [hrun,hrun']

end Cycle

theorem ram_run (hs : s.Sized)
    (h : CyclesHold s (cycles.map Cycle.fill)) {mem : ℕ → BitVec 32}
    (hbound : ∀ a < nRam, (ramCells s mem).ver a + storesTo a cycles < verMax) :
    Follows (ramCells s mem) ((cycles.flatMap Cycle.ramLog).map event) ∧
      (ReadsHold (ramCells s mem) ((cycles.flatMap Cycle.ramLog).map event) ↔
        LoadsRecorded mem cycles) ∧
      Fits nRam verMax ((cycles.flatMap Cycle.ramLog).map event) := by
  induction cycles generalizing s mem with
  | nil => exact ⟨trivial,Iff.rfl,.nil _ _⟩
  | cons c cs ih =>
    have hcycle := ram_cycle hs h.1 mem fun a ha => by
      have hle := hbound a ha
      rw [storesTo_cons] at hle
      omega
    have hlater : ∀ a < nRam, (ramCells (s.next c.fill) (storeInto mem c)).ver a + storesTo a cs <
        verMax := by
      intro a ha
      have hle := hbound a ha
      have hver : (ramCells (s.next c.fill) (storeInto mem c)).ver a ≤
          (ramCells s mem).ver a + storesTo a [c] := by
        rw [ramCells,ramCells]
        dsimp only
        rw [next_ramVer hs h.1 a,storesTo_singleton]
        split
        · exact toNat_iadd_one_le _
        · exact Nat.le_refl _
      rw [storesTo_cons] at hle
      omega
    obtain ⟨hfollows,hreads,hfits⟩ := ih (hs.next c.fill) h.2 hlater
    rw [flatMap_cons,map_append,follows_append,readsHold_append,hcycle.run,hcycle.reads,
      hreads]
    exact ⟨⟨hcycle.follows,hfollows⟩,Iff.rfl,hcycle.fits.append hfits⟩

theorem exists_store (hs : s.Sized)
    (h : CyclesHold s (cycles.map Cycle.fill)) {a v : ℕ}
    (hv : s.cRamVer.getD a 0 = BitVec.ofNat 64 v) {m : ℕ} (hlow : v < m)
    (hhigh : m ≤ v + storesTo a cycles) :
    ∃ c ∈ cycles, ∃ st ∈ c.store, st.addr.toNat = a ∧ st.ver = BitVec.ofNat 64 m := by
  induction cycles generalizing s v with
  | nil => exact absurd hhigh (Nat.not_le.mpr hlow)
  | cons c cs ih =>
    have hnext := next_ramVer hs h.1 a
    rw [storesTo_cons,storesTo_singleton] at hhigh
    by_cases hstores : ∃ st ∈ c.store, st.addr.toNat = a
    · obtain ⟨st,hst,haddr⟩ := hstores
      rw [if_pos ⟨st,hst,haddr⟩,hv,iadd_ofNat_one] at hnext
      rw [if_pos ⟨st,hst,haddr⟩] at hhigh
      rcases Nat.eq_or_lt_of_le (show v + 1 ≤ m from hlow) with heq | hlt
      · have hver := (ram_store hs h.1 hst).2.2
        rw [haddr,hv,iadd_ofNat_one,heq] at hver
        exact ⟨c,mem_cons_self,st,hst,haddr,hver⟩
      · obtain ⟨c',hc',hfound⟩ := ih (hs.next c.fill) h.2 hnext hlt (by omega)
        exact ⟨c',mem_cons_of_mem _ hc',hfound⟩
    · rw [if_neg hstores,hv] at hnext
      rw [if_neg hstores] at hhigh
      obtain ⟨c',hc',hfound⟩ := ih (hs.next c.fill) h.2 hnext hlow (by omega)
      exact ⟨c',mem_cons_of_mem _ hc',hfound⟩

theorem ramVer_after (hs : s.Sized)
    (h : CyclesHold s (cycles.map Cycle.fill)) {a v : ℕ}
    (hv : s.cRamVer.getD a 0 = BitVec.ofNat 64 v) :
    (chainsAfter s (cycles.map Cycle.fill)).cRamVer.getD a 0 =
      BitVec.ofNat 64 (v + storesTo a cycles) := by
  induction cycles generalizing s v with
  | nil => exact hv
  | cons c cs ih =>
    have hnext : (s.next c.fill).cRamVer.getD a 0 = BitVec.ofNat 64 (v + storesTo a [c]) := by
      rw [next_ramVer hs h.1 a,storesTo_singleton,hv]
      split
      · exact iadd_ofNat_one v
      · rfl
    rw [storesTo_cons,←Nat.add_assoc]
    exact ih (hs.next c.fill) h.2 hnext

theorem storesTo_le_length (cycles : List Cycle) : storesTo a cycles ≤ cycles.length :=
  countP_le_length.trans (length_filterMap_le _ _)

theorem loadsRecorded_recordRun (s : Chains) (insts : List Word) (mem : ℕ → BitVec 32) :
    LoadsRecorded mem (recordRun s insts) := by
  induction insts generalizing s mem with
  | nil => trivial
  | cons inst insts ih => exact ⟨fun ld hld => absurd hld (Option.not_mem_none ld),ih _ _⟩

theorem fill_cycles_regAccesses (init : Fin nReg → BitVec 32) (trace : Trace) :
    (fill init trace).cycles.flatMap CycleInout.regAccesses =
      (trace.cycles.flatMap Cycle.regLog).map Prod.snd := by
  rw [fill,flatMap_map,map_flatMap]
  exact congrArg (fun f => flatMap f trace.cycles) (funext fill_regAccesses)

theorem fill_cycles_ramAccesses (init : Fin nReg → BitVec 32) (trace : Trace) :
    (fill init trace).cycles.flatMap CycleInout.ramAccesses =
      (trace.cycles.flatMap Cycle.ramLog).map Prod.snd := by
  rw [fill,flatMap_map,map_flatMap]
  exact congrArg (fun f => flatMap f trace.cycles) (funext fill_ramAccesses)

theorem regWrites_eq (trace : Trace) : trace.regWrites = writesOf (trace.cycles.flatMap Cycle.regLog) := by
  have hcycle : ∀ c : Cycle, c.write.toList.map RegAccess.access =
      ((c.regLog.filter Prod.fst).map Prod.snd) := by
    intro c
    rw [Cycle.regLog]
    cases c.write <;> rfl
  rw [Trace.regWrites,writesOf,filter_flatMap,map_flatMap]
  exact congrArg (fun f => flatMap f trace.cycles) (funext hcycle)

theorem ramWrites_eq (trace : Trace) : trace.ramWrites = writesOf (trace.cycles.flatMap Cycle.ramLog) := by
  have hcycle : ∀ c : Cycle, c.store.toList.map MemAccess.access =
      ((c.ramLog.filter Prod.fst).map Prod.snd) := by
    intro c
    rw [Cycle.ramLog]
    cases c.load <;> cases c.store <;> rfl
  rw [Trace.ramWrites,writesOf,filter_flatMap,map_flatMap]
  exact congrArg (fun f => flatMap f trace.cycles) (funext hcycle)

section Logs

variable {init : Fin nReg → BitVec 32} {initMem : Fin nRam → BitVec 32} {trace : Trace}

theorem init_eq_zero (h : Accepts (fill init trace)) (r : Fin nReg) : ofU32 (init r) = 0 := by
  have hregs : ofFn (fun r => ofU32 (init r)) = replicate nReg 0 := h.initRegs
  have hmem : ofU32 (init r) ∈ ofFn fun r => ofU32 (init r) := mem_ofFn.mpr ⟨r,rfl⟩
  rw [hregs] at hmem
  exact eq_of_mem_replicate hmem

theorem reg_addressed (h : Accepts (fill init trace)) : Addressed init (buildRegWlog init trace)
    ((fill init trace).cycles.flatMap CycleInout.regAccesses) trace.regWrites := by
  have hver : ∀ r, (regCells Chains.start).ver r = 0 := fun r =>
    congrArg BitVec.toNat (getD_replicate nReg r)
  have hval : ∀ r, (regCells Chains.start).val r = 0 := getD_replicate nReg
  obtain ⟨hfollows,hreads,hfits⟩ := reg_run Chains.start_sized h.cycles fun r => by
    rw [hver r]
    decide
  rw [buildRegWlog,fill_cycles_regAccesses,regWrites_eq]
  refine (addressed_iff (by decide) (fun r => ?_) hfollows hfits).mpr hreads
  exact ⟨hver r,(hval r).trans (init_eq_zero h r).symm⟩

theorem ram_addressed_iff (h : Accepts (fill init trace))
    (hcount : ∀ a < nRam, storesTo a trace.cycles < verMax) :
    Addressed initMem (buildRamWlog initMem trace)
      ((fill init trace).cycles.flatMap CycleInout.ramAccesses) trace.ramWrites ↔
      LoadsRecorded (initialMemory initMem) trace.cycles := by
  have hver : ∀ a, (ramCells Chains.start (initialMemory initMem)).ver a = 0 := fun a =>
    congrArg BitVec.toNat (getD_replicate nRam a)
  have hbound : ∀ a < nRam, (ramCells Chains.start (initialMemory initMem)).ver a +
      storesTo a trace.cycles < verMax := by
    intro a ha
    rw [hver a,Nat.zero_add]
    exact hcount a ha
  obtain ⟨hfollows,hreads,hfits⟩ := ram_run Chains.start_sized h.cycles hbound
  rw [buildRamWlog,fill_cycles_ramAccesses,ramWrites_eq,←hreads]
  refine addressed_iff (Nat.le_refl _) (fun r => ⟨hver r,?_⟩) hfollows hfits
  exact congrArg ofU32 (dif_pos r.isLt)

theorem not_ram_addressed (h : Accepts (fill init trace)) {a : ℕ} (ha : a < nRam)
    (hcount : verMax ≤ storesTo a trace.cycles) :
    ¬Addressed initMem (buildRamWlog initMem trace)
      ((fill init trace).cycles.flatMap CycleInout.ramAccesses) trace.ramWrites := by
  intro hlog
  have hstart : Chains.start.cRamVer.getD a 0 = BitVec.ofNat 64 0 := getD_replicate nRam a
  obtain ⟨c,hc,st,hst,haddr,hver⟩ := exists_store Chains.start_sized h.cycles hstart
    (show 0 < verMax by decide) (by omega)
  have hwrite : st.access ∈ trace.ramWrites := by
    refine mem_flatMap.mpr ⟨c,hc,mem_map.mpr ⟨st,?_,rfl⟩⟩
    exact Option.mem_toList.mpr hst
  have haccess : st.access ∈ (fill init trace).cycles.flatMap CycleInout.ramAccesses := by
    rw [fill_cycles_ramAccesses]
    rw [ramWrites_eq,writesOf] at hwrite
    obtain ⟨p,hp,heq⟩ := mem_map.mp hwrite
    exact mem_map.mpr ⟨p,(mem_filter.mp hp).1,heq⟩
  have hindex : st.access.index.toNat = (a + 1) * verMax := by
    have hmax : (BitVec.ofNat 64 verMax).toNat = verMax := rfl
    have hram : (a + 1) * verMax ≤ nRam * verMax := Nat.mul_le_mul_right verMax ha
    have hfit : nRam * verMax < 2 ^ 64 := by decide
    have hsucc : (a + 1) * verMax = a * verMax + verMax := Nat.succ_mul a verMax
    have hverAccess : st.access.ver = BitVec.ofNat 64 verMax := hver
    have haddrAccess : st.access.addr.toNat = a := haddr
    rw [Access.index,BitVec.toNat_add,BitVec.toNat_mul,hverAccess,hmax,haddrAccess,Nat.mod_add_mod,
      Nat.mod_eq_of_lt (by omega)]
    exact hsucc.symm
  rcases Nat.eq_or_lt_of_le (show a + 1 ≤ nRam from ha) with hlast | hnext
  · have hlt := hlog.inRange _ haccess
    rw [hindex,hlast] at hlt
    exact Nat.lt_irrefl _ hlt
  · exact hlog.initial _ hwrite (a + 1) hnext hindex

/-- The logs of an accepted trace address its versions exactly when no memory word is stored to as
often as it has rows and every load records the word stored last. -/
theorem versionLogs_iff (init : Fin nReg → BitVec 32) (initMem : Fin nRam → BitVec 32)
    (trace : Trace) (h : Accepts (fill init trace)) : VersionLogs init initMem trace ↔
      (∀ a < nRam, storesTo a trace.cycles < verMax) ∧
        LoadsRecorded (initialMemory initMem) trace.cycles := by
  constructor
  · intro hlogs
    have hcount : ∀ a < nRam, storesTo a trace.cycles < verMax := by
      intro a ha
      by_contra hmany
      exact not_ram_addressed h ha (Nat.not_lt.mp hmany) hlogs.ram
    exact ⟨hcount,(ram_addressed_iff h hcount).mp hlogs.ram⟩
  · rintro ⟨hcount,hloads⟩
    exact ⟨reg_addressed h,(ram_addressed_iff h hcount).mpr hloads⟩

end Logs

def swZero : Word := 0x00002023

def ramStored (n : ℕ) : List Word := (replicate nRam 0).set 0 (BitVec.ofNat 64 n)

/-- The chains of a program that counts its passes in register one against register two. -/
def countChains (pc : BitVec 32) (x1 x2 v1 v2 n : ℕ) : Chains where
  prevPc := ofU32 pc
  curReg := ((replicate nReg 0).set 1 (BitVec.ofNat 64 x1)).set 2 (BitVec.ofNat 64 x2)
  curVer := ((replicate nReg 0).set 1 (BitVec.ofNat 64 v1)).set 2 (BitVec.ofNat 64 v2)
  cRamVer := ramStored n

theorem countChains_sized (pc : BitVec 32) (x1 x2 v1 v2 n : ℕ) :
    (countChains pc x1 x2 v1 v2 n).Sized := ⟨rfl,rfl,rfl⟩

/-- A store to word zero and two branches, the second to itself at the halting row. -/
theorem versionLogs_iff_storeOnce :
    VersionLogs (fun _ => 0) (fun _ => 0) (recordedTrace [0x00002023,0x0c000063,0x00000063]) := by
  have hstore : Leads Chains.start 0x00002023 (countChains 4 0 0 0 0 1) := by decide +kernel
  have hbranch : Leads (countChains 4 0 0 0 0 1) 0x0c000063 (countChains 0xc4 0 0 0 0 1) := by
    decide +kernel
  have hhalt : Leads (countChains 0xc4 0 0 0 0 1) 0x00000063 (countChains 0xc4 0 0 0 0 1) := by
    decide +kernel
  have haccepts := accepts_recorded
    ((hstore.passes Chains.start_sized).append (hbranch.passes (countChains_sized _ _ _ _ _ _)))
    rfl (hhalt.passes (countChains_sized _ _ _ _ _ _)) (by decide)
  refine (versionLogs_iff _ _ _ haccepts).mpr ⟨fun a _ => ?_,loadsRecorded_recordRun _ _ _⟩
  exact Nat.lt_of_le_of_lt (storesTo_le_length a _) (show 3 < verMax by decide)

def storing (regs vers : List Word) (pc : BitVec 32) (n : ℕ) : Chains :=
  ⟨ofU32 pc,regs,vers,ramStored n⟩

section Storing

variable {regs vers : List Word} (hregs : regs.length = nReg) (hvers : vers.length = nReg)
  (hzero : regs[0]? = some 0)

include hregs hvers hzero

theorem swZero_passes (pc : BitVec 32) (n : ℕ) :
    Passes (storing regs vers pc n) [swZero] (storing regs vers (pc + 4) (n + 1)) := by
  have hs : (storing regs vers pc n).Sized := ⟨hregs,hvers,rfl⟩
  have hrs1 : (storing regs vers pc n).rs1v swZero = 0 := by
    have hmux := mux_getElem? (k := 5) hregs (by decide) (rs1_lt swZero)
    have hfield : (rs1 swZero).toNat = 0 := by decide
    rw [hfield,hzero] at hmux
    exact (Option.some.inj hmux).symm
  have hrs2 : (storing regs vers pc n).rs2v swZero = 0 := hrs1
  have hrec : Recordable (storing regs vers pc n) swZero := by
    refine ⟨by decide,by decide,?_,?_,?_,fun h => absurd h (by decide)⟩
    · rw [hrs1]
      decide
    · rw [hrs2]
      decide
    · have hrd : isMsbTrue (icmpEq (rd swZero) 0) = true := by decide
      rw [wb,select_of_true hrd]
      decide
  have haddr : (storing regs vers pc n).stAddrW swZero = 0 := by
    rw [Chains.stAddrW,hrs1]
    decide
  have hinst : ((storing regs vers pc n).record swZero).fill.inst = swZero := rfl
  obtain ⟨hreg,hver⟩ := Chains.next_curReg_of_not hs
    (c := ((storing regs vers pc n).record swZero).fill) (by rw [hinst]; decide)
  have hram := Chains.next_cRamVer_of_store hs
    (c := ((storing regs vers pc n).record swZero).fill) (by rw [hinst]; decide)
  have hpc : nextPc swZero (ofU32 pc) 0 0 = ofU32 (pc + 4) := by
    rw [nextPc,select_of_false (by decide),select_of_false (by decide),select_of_false (by decide)]
    exact iadd32_ofU32 pc 4
  have hstored : (ramStored n).set 0 (iadd ((ramStored n).getD 0 0) 1) = ramStored (n + 1) := by
    have hentry : (ramStored n).getD 0 0 = BitVec.ofNat 64 n := rfl
    rw [hentry,iadd_ofNat_one,ramStored,set_set]
    rfl
  have hnext : (storing regs vers pc n).next ((storing regs vers pc n).record swZero).fill =
      storing regs vers (pc + 4) (n + 1) := by
    refine Chains.ext ?_ hreg hver ?_
    · rw [Chains.next_prevPc,hinst,hrs1,hrs2]
      exact hpc
    · refine hram.trans ?_
      rw [hinst,haddr]
      exact hstored
  refine .cons hs hrec ?_
  rw [hnext]
  exact .nil _

theorem swZero_run (count : ℕ) (pc : BitVec 32) (n : ℕ) :
    Passes (storing regs vers pc n) (replicate count swZero)
      (storing regs vers (pc + BitVec.ofNat 32 (4 * count)) (n + count)) := by
  induction count generalizing pc n with
  | zero =>
    have hpc : pc + BitVec.ofNat 32 (4 * 0) = pc := BitVec.add_zero pc
    rw [hpc]
    exact .nil _
  | succ count ih =>
    have hstep := swZero_passes hregs hvers hzero pc n
    have hrest := ih (pc + 4) (n + 1)
    have hpc : pc + 4 + BitVec.ofNat 32 (4 * count) = pc + BitVec.ofNat 32 (4 * (count + 1)) := by
      have hsum : 4 * (count + 1) = 4 + 4 * count := by omega
      rw [BitVec.add_assoc,hsum,BitVec.ofNat_add 4]
      rfl
    have hcount : n + 1 + count = n + (count + 1) := by omega
    rw [hpc,hcount] at hrest
    exact hstep.append hrest

end Storing

/-- The chains before a pass of the program, and after the last. -/
def loopHead (p : ℕ) : Chains :=
  countChains (if p < 3 then 0 else 0xc4) p (if p = 0 then 0 else 3) p p (46 * p)

/-- Count the pass, store 46 times, and go back unless three passes are counted. -/
def storePass : List Word := [0x00108093] ++ replicate 46 swZero ++ [0x00300113,0xf42090e3]

theorem storePass_passes (p : ℕ) (hp : p < 3) : Passes (loopHead p) storePass (loopHead (p + 1)) := by
  have hcount : ∀ p : Fin 3, Leads (loopHead p) 0x00108093
      (countChains 4 (p + 1) (if (p : ℕ) = 0 then 0 else 3) (p + 1) p (46 * p)) := by
    decide +kernel
  have hload : ∀ p : Fin 3, Leads
      (countChains 0xbc (p + 1) (if (p : ℕ) = 0 then 0 else 3) (p + 1) p (46 * p + 46)) 0x00300113
      (countChains 0xc0 (p + 1) 3 (p + 1) (p + 1) (46 * p + 46)) := by
    decide +kernel
  have hback : ∀ p : Fin 3, Leads (countChains 0xc0 (p + 1) 3 (p + 1) (p + 1) (46 * p + 46))
      0xf42090e3 (loopHead (p + 1)) := by
    decide +kernel
  have hstores := @swZero_run (countChains 0 (p + 1) (if p = 0 then 0 else 3) (p + 1) p 0).curReg
    (countChains 0 (p + 1) (if p = 0 then 0 else 3) (p + 1) p 0).curVer rfl rfl rfl 46 4 (46 * p)
  have hfirst := ((hcount ⟨p,hp⟩).passes (countChains_sized _ _ _ _ _ _)).append hstores
  exact hfirst.append (((hload ⟨p,hp⟩).passes (countChains_sized _ _ _ _ _ _)).append
    ((hback ⟨p,hp⟩).passes (countChains_sized _ _ _ _ _ _)))

def storeProgram : List Word := storePass ++ storePass ++ storePass

/-- A counted loop that stores 138 times to one word: the circuit accepts its trace, and the
versions run into the rows of the next word. -/
theorem versionLogs_fails : Accepts (fill (fun _ => 0) (recordedTrace (storeProgram ++ [0x63]))) ∧
    ¬VersionLogs (fun _ => 0) (fun _ => 0) (recordedTrace (storeProgram ++ [0x63])) := by
  have hstart : Chains.start = loopHead 0 := by decide
  have hprogram : Passes Chains.start storeProgram (loopHead 3) := by
    rw [hstart]
    exact ((storePass_passes 0 (by decide)).append (storePass_passes 1 (by decide))).append
      (storePass_passes 2 (by decide))
  have hhalt : Leads (loopHead 3) 0x63 (loopHead 3) := by decide +kernel
  have hlast := hhalt.passes (countChains_sized _ _ _ _ _ _)
  have haccepts := accepts_recorded hprogram rfl hlast (by decide)
  refine ⟨haccepts,fun hlogs => ?_⟩
  have hrun := hprogram.append hlast
  have hver := ramVer_after (a := 0) (v := 0) Chains.start_sized hrun.holds rfl
  have hle := storesTo_le_length 0 (recordRun Chains.start (storeProgram ++ [0x63]))
  have hlength : (recordRun Chains.start (storeProgram ++ [0x63])).length = 148 := by
    rw [length_recordRun]
    rfl
  have hfinal : (loopHead 3).cRamVer.getD 0 0 = BitVec.ofNat 64 138 := rfl
  rw [hrun.ends,hfinal] at hver
  have hcount := congrArg BitVec.toNat hver
  rw [BitVec.toNat_ofNat,BitVec.toNat_ofNat] at hcount
  refine not_ram_addressed haccepts (show 0 < nRam by decide) ?_ hlogs.ram
  change 128 ≤ storesTo 0 (recordRun Chains.start (storeProgram ++ [0x63]))
  omega

end Binius64.Vm32
