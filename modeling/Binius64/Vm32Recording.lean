import Binius64.Vm32Chains
import Binius64.Vm32Log

/-!
# Recorded runs

Along a list of instructions the chains themselves give a trace: each cycle records what the circuit
computes.
-/

namespace Binius64.Vm32

open MachineWord (Word isMsbTrue)
open WordGates LaneWords List

variable (s : Chains)

def Chains.record (inst : Word) : Cycle where
  pc := s.prevPc
  inst := inst
  read1 := ⟨rs1 inst,s.rs1Ver inst,(s.rs1v inst).setWidth 32⟩
  read2 := ⟨rs2 inst,s.rs2Ver inst,(s.rs2v inst).setWidth 32⟩
  write := if isMsbTrue (isAluWrite inst) then
    some ⟨(fnRv32 inst).rd,iadd (s.curVer.getD (rd inst).toNat 0) 1,
      (Vm32.wb inst s.prevPc (s.rs1v inst) (s.rs2v inst) 0 0).setWidth 32⟩ else none
  write_reg := by
    intro wr hwr
    split at hwr
    · obtain rfl := Option.some.inj hwr
      rfl
    · exact absurd hwr (Option.not_mem_none wr)
  regver := s.curVer
  load := none
  store := if isMsbTrue (cIsStore inst) then
    some ⟨s.stAddrW inst,s.storeNewVer inst,
      (stored inst (s.rs1v inst) (s.rs2v inst) 0).setWidth 32⟩ else none
  ramver := s.cRamVer
  memAddr := s.effLdAddr inst
  mQ := 0

/-- What an instruction needs for its recorded cycle to pass: it neither loads nor divides, its
values have 32 bits, and the version it makes has a row. -/
structure Recordable (s : Chains) (inst : Word) : Prop where
  noLoad : isMsbTrue (effLoad inst) = false
  noDivision : isDivFamily01 inst = 0
  rs1v : (s.rs1v inst).toNat < 2 ^ 32
  rs2v : (s.rs2v inst).toNat < 2 ^ 32
  wb : (Vm32.wb inst s.prevPc (s.rs1v inst) (s.rs2v inst) 0 0).toNat < 2 ^ 32
  bound : isMsbTrue (isAluWrite inst) = true →
    (s.curVer.getD (rd inst).toNat 0).toNat + 1 < verMax

instance (s : Chains) (inst : Word) : Decidable (Recordable s inst) :=
  decidable_of_iff (isMsbTrue (effLoad inst) = false ∧ isDivFamily01 inst = 0 ∧
    (s.rs1v inst).toNat < 2 ^ 32 ∧ (s.rs2v inst).toNat < 2 ^ 32 ∧
    (wb inst s.prevPc (s.rs1v inst) (s.rs2v inst) 0 0).toNat < 2 ^ 32 ∧
    (isMsbTrue (isAluWrite inst) = true → (s.curVer.getD (rd inst).toNat 0).toNat + 1 < verMax))
    ⟨fun ⟨hload,hdiv,h1,h2,hwb,hbound⟩ => ⟨hload,hdiv,h1,h2,hwb,hbound⟩,
      fun ⟨hload,hdiv,h1,h2,hwb,hbound⟩ => ⟨hload,hdiv,h1,h2,hwb,hbound⟩⟩

theorem ofU32_setWidth {w : Word} (h : w.toNat < 2 ^ 32) : ofU32 (w.setWidth 32) = w := by
  obtain ⟨v,rfl⟩ := exists_ofU32 h
  rw [setWidth_ofU32]

theorem aluSum_eq_zero {inst : Word} (h : isMsbTrue (isAluWrite inst) = false)
    (pc rs1v rs2v ldVal q : Word) : aluSum inst pc rs1v rs2v ldVal q = 0 := by
  simp only [isAluWrite,isMsbTrue_bor,Bool.or_eq_false_iff] at h
  obtain ⟨⟨⟨⟨⟨⟨himm,hrisc⟩,hlui⟩,hauipc⟩,hjal⟩,hjalr⟩,hload⟩ := h
  have hext : isMsbTrue (band (isRisc inst) (isMExt inst)) = false := by
    rw [isMsbTrue_band,hrisc,Bool.false_and]
  rw [aluSum,select_of_false himm,select_of_false hext,select_of_false hrisc,select_of_false hload,
    select_of_false hlui,select_of_false hauipc,select_of_false hjal,select_of_false hjalr]

theorem record_write_some {s : Chains} {inst : Word} (h : isMsbTrue (isAluWrite inst) = true) :
    (s.record inst).write = some ⟨(fnRv32 inst).rd,iadd (s.curVer.getD (rd inst).toNat 0) 1,
      (Vm32.wb inst s.prevPc (s.rs1v inst) (s.rs2v inst) 0 0).setWidth 32⟩ :=
  if_pos h

theorem record_store_some {s : Chains} {inst : Word} (h : isMsbTrue (cIsStore inst) = true) :
    (s.record inst).store = some ⟨s.stAddrW inst,s.storeNewVer inst,
      (stored inst (s.rs1v inst) (s.rs2v inst) 0).setWidth 32⟩ :=
  if_pos h

theorem record_asserts {s : Chains} (hs : s.Sized) {inst : Word} (h : Recordable s inst) :
    CycleAsserts s (s.record inst).fill := by
  have hno := h.noLoad
  rw [effLoad,isMsbTrue_bor,Bool.or_eq_false_iff] at hno
  obtain ⟨hload,hbyte⟩ := hno
  have hbyteLoad : isMsbTrue (isByteLoad inst) = false := by
    rw [isByteLoad,isMsbTrue_band,hload,Bool.false_and]
  have hand : ∀ w : Word, band 0 w = 0 := fun w => BitVec.zero_and
  have hbool : ∀ {cond : Word}, isMsbTrue cond = false → bool01 cond = 0 := fun hc =>
    select_of_false hc 1 0
  have hval1 : ofU32 ((s.rs1v inst).setWidth 32) = s.rs1v inst := ofU32_setWidth h.rs1v
  have hval2 : ofU32 ((s.rs2v inst).setWidth 32) = s.rs2v inst := ofU32_setWidth h.rs2v
  have hwb : s.wb (s.record inst).fill = Vm32.wb inst s.prevPc (s.rs1v inst) (s.rs2v inst) 0 0 := rfl
  have hrd : (fnRv32 inst).rd = rd inst := by
    rw [fnRv32_eq]
  have hstored : ∀ ldVal, stored inst (s.rs1v inst) (s.rs2v inst) ldVal = s.rs2v inst := fun _ =>
    select_of_false hbyte _ _
  -- Without a load both memory addresses are the word index of the same offset.
  have hldAddr : s.effLdAddr inst = band (iadd32 (s.rs1v inst) (immI inst)) 0x3f := by
    rw [Chains.effLdAddr,effLdAddr,select_of_false hbyte,ldAddrW,select_of_false hbyteLoad]
  have hstAddr : isMsbTrue (cIsStore inst) = false → s.effLdAddr inst = s.stAddrW inst := by
    intro hst
    rw [hldAddr,Chains.stAddrW,stAddrW,select_of_false hbyte,select_of_false hst]
  have hram : ∀ {sel : Word}, sel.toNat < nRam → s.cRamVer.getD sel.toNat 0 = mux s.cRamVer sel := by
    intro sel hsel
    rw [getD_eq_getElem?_getD,mux_getElem? (k := 6) hs.cRamVer (by decide) hsel]
    rfl
  have hnow : s.rdVerNow (s.record inst).fill = if isMsbTrue (isAluWrite inst) = true then
      iadd (s.curVer.getD (rd inst).toNat 0) 1 else s.curVer.getD (rd inst).toNat 0 := by
    have hmux := mux_getElem? (k := 5) (hs.next (s.record inst).fill).curVer (by decide) (rd_lt inst)
    have hnext := Chains.next_curVer hs (s.record inst).fill (rd inst).toNat
    rw [getD_eq_getElem?_getD,hmux] at hnext
    refine Eq.trans hnext ?_
    have hinst : (s.record inst).fill.inst = inst := rfl
    rw [hinst]
    simp only [true_and]
  refine {
    pc := rfl
    mAssert := ?_
    lhAlign := ?_
    shAlign := ?_
    verBound := ?_
    rd1Reg := rfl
    rd1Ver := rfl
    rd1Val := hval1
    rd2Reg := rfl
    rd2Ver := rfl
    rd2Val := hval2
    wrReg := hrd
    wrVer := ?_
    wrVal := ?_
    wrIswrite := ?_
    ldAddr := rfl
    ldVer := ?_
    ldValRange := hand _
    isLoad := ?_
    stAddr := ?_
    stVer := ?_
    stVal := ?_
    isStore := ?_}
  · change band (isDivFamily01 inst) _ = 0
    rw [h.noDivision]
    exact hand _
  · change lhMisaligned inst _ = 0
    rw [lhMisaligned,hbool hbyteLoad,hand,hand]
  · change shMisaligned inst _ = 0
    rw [shMisaligned,hbool hbyte,hand,hand]
  · change band (select (isAluWrite inst) 1 0) _ = 0
    cases hw : isMsbTrue (isAluWrite inst) with
    | false =>
      rw [select_of_false hw]
      exact hand _
    | true =>
      have hbound := h.bound hw
      have hlt : isMsbTrue (icmpUlt (BitVec.ofNat 64 (verMax - 1))
          (s.rdVerNow (s.record inst).fill)) = false := by
        have hmax : (BitVec.ofNat 64 (verMax - 1)).toNat = verMax - 1 := rfl
        rw [isMsbTrue_icmpUlt,hnow,if_pos hw,hmax,
          toNat_iadd_one (hbound.trans (show verMax < 2 ^ 64 by decide)),decide_eq_false_iff_not]
        omega
      rw [hbool hlt]
      exact BitVec.and_zero
  · cases hw : isMsbTrue (isAluWrite inst) with
    | false =>
      have hnone : (s.record inst).write = none := if_neg (Bool.eq_false_iff.mp hw)
      rw [(fill_write_none hnone).1,hnow,if_neg (Bool.eq_false_iff.mp hw),←hrd]
      rfl
    | true =>
      have hsome := @record_write_some s inst hw
      rw [(fill_write_some hsome).1,hnow,if_pos hw]
  · rw [hwb]
    cases hw : isMsbTrue (isAluWrite inst) with
    | false =>
      have hnone : (s.record inst).write = none := if_neg (Bool.eq_false_iff.mp hw)
      have hzero : Vm32.wb inst s.prevPc (s.rs1v inst) (s.rs2v inst) 0 0 = 0 := by
        rw [Vm32.wb,aluSum_eq_zero hw,select,ite_self]
      rw [(fill_write_none hnone).2,hzero]
    | true =>
      have hsome := @record_write_some s inst hw
      rw [(fill_write_some hsome).2]
      exact ofU32_setWidth h.wb
  · change flag (s.record inst).write = select (isAluWrite inst) 1 0
    cases hw : isMsbTrue (isAluWrite inst) with
    | false =>
      have hnone : (s.record inst).write = none := if_neg (Bool.eq_false_iff.mp hw)
      rw [hnone,select_of_false hw]
      rfl
    | true =>
      rw [record_write_some hw,select_of_true hw]
      rfl
  · exact hram (effLdAddr_lt _ _)
  · change 0 = select (effLoad inst) 1 0
    rw [select_of_false h.noLoad]
  · cases hw : isMsbTrue (cIsStore inst) with
    | false =>
      have hnone : (s.record inst).store = none := if_neg (Bool.eq_false_iff.mp hw)
      rw [(fill_store_none hnone).1]
      exact hstAddr hw
    | true => rw [(fill_store_some (record_store_some hw)).1]; rfl
  · cases hw : isMsbTrue (cIsStore inst) with
    | false =>
      have hnone : (s.record inst).store = none := if_neg (Bool.eq_false_iff.mp hw)
      have haddr := hstAddr hw
      have hver := hram (effLdAddr_lt inst (s.rs1v inst))
      rw [(fill_store_none hnone).2.1]
      change s.cRamVer.getD (s.effLdAddr inst).toNat 0 + 1 = iadd (mux s.cRamVer (s.stAddrW inst)) 1
      rw [←haddr,iadd_one]
      exact congrArg (· + 1) hver
    | true => rw [(fill_store_some (record_store_some hw)).2.1]; rfl
  · change (s.record inst).fill.stVal = stored inst (s.rs1v inst) (s.rs2v inst) _
    rw [hstored]
    cases hw : isMsbTrue (cIsStore inst) with
    | false =>
      have hnone : (s.record inst).store = none := if_neg (Bool.eq_false_iff.mp hw)
      rw [(fill_store_none hnone).2.2]
      exact hval2
    | true =>
      rw [(fill_store_some (record_store_some hw)).2.2,hstored]
      exact hval2
  · change flag (s.record inst).store = select (cIsStore inst) 1 0
    cases hw : isMsbTrue (cIsStore inst) with
    | false =>
      have hnone : (s.record inst).store = none := if_neg (Bool.eq_false_iff.mp hw)
      rw [hnone,select_of_false hw]
      rfl
    | true =>
      rw [record_store_some hw,select_of_true hw]
      rfl

def recordRun : Chains → List Word → List Cycle
  | _,[] => []
  | s,inst::insts => s.record inst::recordRun (s.next (s.record inst).fill) insts

/-- The cycles recorded along the instructions pass and lead from one state of the chains to the
other. -/
structure Passes (s : Chains) (insts : List Word) (s' : Chains) : Prop where
  holds : CyclesHold s ((recordRun s insts).map Cycle.fill)
  ends : chainsAfter s ((recordRun s insts).map Cycle.fill) = s'

theorem Passes.nil : Passes s [] s := ⟨trivial,rfl⟩

theorem Passes.cons {s s' : Chains} {inst : Word} {insts : List Word} (hs : s.Sized)
    (h : Recordable s inst) (hrest : Passes (s.next (s.record inst).fill) insts s') :
    Passes s (inst::insts) s' :=
  ⟨⟨record_asserts hs h,hrest.holds⟩,hrest.ends⟩

theorem Passes.append {s s' s'' : Chains} {insts insts' : List Word} (h : Passes s insts s')
    (h' : Passes s' insts' s'') : Passes s (insts ++ insts') s'' := by
  induction insts generalizing s with
  | nil =>
    obtain rfl : s = s' := h.ends
    exact h'
  | cons inst insts ih =>
    have hrest := ih (s := s.next (s.record inst).fill) ⟨h.holds.2,h.ends⟩
    exact ⟨⟨h.holds.1,hrest.holds⟩,hrest.ends⟩

def Leads (inst : Word) (s' : Chains) : Prop :=
  Recordable s inst ∧ s.next (s.record inst).fill = s'

instance (s : Chains) (inst : Word) (s' : Chains) : Decidable (Leads s inst s') :=
  inferInstanceAs (Decidable (_ ∧ _))

theorem Leads.passes {s s' : Chains} {inst : Word} (h : Leads s inst s') (hs : s.Sized) :
    Passes s [inst] s' := by
  refine .cons hs h.1 ?_
  rw [h.2]
  exact .nil _

theorem recordRun_append (insts insts' : List Word) : recordRun s (insts ++ insts') =
    recordRun s insts ++ recordRun (chainsAfter s ((recordRun s insts).map Cycle.fill)) insts' := by
  induction insts generalizing s with
  | nil => rfl
  | cons inst insts ih =>
    rw [cons_append,recordRun,recordRun,ih]
    rfl

@[simp] theorem length_recordRun (insts : List Word) : (recordRun s insts).length = insts.length := by
  induction insts generalizing s with
  | nil => rfl
  | cons inst insts ih => rw [recordRun,length_cons,length_cons,ih]

theorem sized_after {s : Chains} (hs : s.Sized) (cs : List CycleInout) : (chainsAfter s cs).Sized := by
  induction cs generalizing s with
  | nil => exact hs
  | cons c cs ih => exact ih (hs.next c)

def recordedTrace (insts : List Word) : Trace where
  cycles := recordRun Chains.start insts
  finalRegs r := ((chainsAfter Chains.start
    ((recordRun Chains.start insts).map Cycle.fill)).curReg.getD r 0).setWidth 32
  finalRamver a := (chainsAfter Chains.start
    ((recordRun Chains.start insts).map Cycle.fill)).cRamVer.getD a 0

theorem ofFn_getD {l : List Word} {n : ℕ} (hlen : l.length = n) :
    ofFn (fun i : Fin n => l.getD i 0) = l := by
  refine eq_of_getD (by rw [length_ofFn,hlen]) fun i => ?_
  rw [getD_eq_getElem?_getD,List.getElem?_ofFn]
  split
  · rfl
  · rename_i hi
    rw [getD_eq_getElem?_getD,getElem?_eq_none (by omega)]

theorem accepts_recorded {insts : List Word} {last : Word} {s s' : Chains}
    (h : Passes Chains.start insts s) (hhalt : s.prevPc = haltAddr) (hlast : Passes s [last] s')
    (hregs : ∀ r < nReg, (s'.curReg.getD r 0).toNat < 2 ^ 32) :
    Accepts (fill (fun _ => 0) (recordedTrace (insts ++ [last]))) := by
  have hrun := h.append hlast
  have hsized : s'.Sized := by
    have hafter := sized_after Chains.start_sized
      ((recordRun Chains.start (insts ++ [last])).map Cycle.fill)
    rwa [hrun.ends] at hafter
  have hcycles : (fill (fun _ => 0) (recordedTrace (insts ++ [last]))).cycles =
      (recordRun Chains.start (insts ++ [last])).map Cycle.fill := rfl
  refine ⟨hrun.holds,?_,?_,?_,?_⟩
  · rw [hcycles,recordRun_append,h.ends,map_append]
    have hsingle : (recordRun s [last]).map Cycle.fill = [(s.record last).fill] := rfl
    rw [hsingle,getLast?_append,getLast?_singleton]
    exact congrArg some hhalt
  · exact ofFn_const _ _
  · have hvals : (fun r : Fin nReg => ofU32 ((recordedTrace (insts ++ [last])).finalRegs r)) =
        fun r : Fin nReg => s'.curReg.getD r 0 := by
      funext r
      rw [recordedTrace]
      dsimp only
      rw [hrun.ends]
      exact ofU32_setWidth (hregs r r.isLt)
    rw [hcycles,hrun.ends,fill]
    dsimp only
    rw [hvals]
    exact ofFn_getD hsized.curReg
  · rw [hcycles,hrun.ends,fill,recordedTrace]
    dsimp only
    rw [hrun.ends]
    exact ofFn_getD hsized.cRamVer

end Binius64.Vm32
