import Binius64.Vm32Circuit
import Binius64.VersionedLog

/-!
# Traces and version logs of the 32-bit machine

A trace records what every cycle reads, writes, loads and stores.
-/

namespace Binius64.Vm32

open MachineWord (Word isMsbTrue)
open WordGates LaneWords VersionedLog List

structure RegAccess where
  reg : Word
  ver : Word
  val : BitVec 32

structure MemAccess where
  addr : Word
  ver : Word
  val : BitVec 32

structure Cycle where
  pc : Word
  inst : Word
  read1 : RegAccess
  read2 : RegAccess
  write : Option RegAccess
  /-- A write is recorded for the destination the instruction names. -/
  write_reg : ∀ wr ∈ write, wr.reg = (fnRv32 inst).rd
  regver : List Word
  load : Option MemAccess
  store : Option MemAccess
  ramver : List Word
  memAddr : Word
  mQ : BitVec 32

/-- A recorded run. -/
structure Trace where
  cycles : List Cycle
  finalRegs : Fin nReg → BitVec 32
  finalRamver : Fin nRam → Word

/-- One for an access that happens, zero for one that does not. -/
def flag {α : Type*} (access : Option α) : Word := if access.isSome then 1 else 0

def Cycle.fill (c : Cycle) : CycleInout where
  inst := c.inst
  pc := c.pc
  rd1Reg := c.read1.reg
  rd1Ver := c.read1.ver
  rd1Val := ofU32 c.read1.val
  rd2Reg := c.read2.reg
  rd2Ver := c.read2.ver
  rd2Val := ofU32 c.read2.val
  wrReg := (fnRv32 c.inst).rd
  wrVer := match c.write with
    | some wr => wr.ver
    | none => c.regver.getD (fnRv32 c.inst).rd.toNat 0
  wrVal := match c.write with
    | some wr => ofU32 wr.val
    | none => 0
  wrIswrite := flag c.write
  ldAddr := match c.load with
    | some ld => ld.addr
    | none => c.memAddr
  ldVer := match c.load with
    | some ld => ld.ver
    | none => c.ramver.getD c.memAddr.toNat 0
  ldVal := match c.load with
    | some ld => ofU32 ld.val
    | none => 0
  isLoad := flag c.load
  stAddr := match c.store with
    | some st => st.addr
    | none => c.memAddr
  stVer := match c.store with
    | some st => st.ver
    | none => c.ramver.getD c.memAddr.toNat 0 + 1
  stVal := match c.store with
    | some st => ofU32 st.val
    | none => ofU32 c.read2.val
  isStore := flag c.store
  mQ := ofU32 c.mQ

/-- The public wires of a recorded run. -/
def fill (init : Fin nReg → BitVec 32) (trace : Trace) : Inout where
  cycles := trace.cycles.map Cycle.fill
  initRegs := ofFn fun r => ofU32 (init r)
  finalRegs := ofFn fun r => ofU32 (trace.finalRegs r)
  finVer := ofFn trace.finalRamver

variable {c : Cycle} {n : ℕ}

theorem fill_write_some {wr : RegAccess} (h : c.write = some wr) :
    c.fill.wrVer = wr.ver ∧ c.fill.wrVal = ofU32 wr.val := by
  rw [Cycle.fill,h]
  exact ⟨rfl,rfl⟩

theorem fill_write_none (h : c.write = none) :
    c.fill.wrVer = c.regver.getD (fnRv32 c.inst).rd.toNat 0 ∧ c.fill.wrVal = 0 := by
  rw [Cycle.fill,h]
  exact ⟨rfl,rfl⟩

theorem fill_load_some {ld : MemAccess} (h : c.load = some ld) :
    c.fill.ldAddr = ld.addr ∧ c.fill.ldVer = ld.ver := by
  rw [Cycle.fill,h]
  exact ⟨rfl,rfl⟩

theorem fill_store_some {st : MemAccess} (h : c.store = some st) :
    c.fill.stAddr = st.addr ∧ c.fill.stVer = st.ver ∧ c.fill.stVal = ofU32 st.val := by
  rw [Cycle.fill,h]
  exact ⟨rfl,rfl,rfl⟩

theorem fill_store_none (h : c.store = none) : c.fill.stAddr = c.memAddr ∧
    c.fill.stVer = c.ramver.getD c.memAddr.toNat 0 + 1 ∧ c.fill.stVal = ofU32 c.read2.val := by
  rw [Cycle.fill,h]
  exact ⟨rfl,rfl,rfl⟩

theorem isMsbTrue_of_flag {cond : Word} {α : Type*} {o : Option α}
    (h : flag o = select cond 1 0) : isMsbTrue cond = o.isSome := by
  rw [flag,select] at h
  cases hc : isMsbTrue cond with
  | true =>
    cases ho : o.isSome with
    | true => rfl
    | false =>
      rw [hc,ho] at h
      exact absurd h (by decide)
  | false =>
    cases ho : o.isSome with
    | true =>
      rw [hc,ho] at h
      exact absurd h (by decide)
    | false => rfl

/-- One entry looked up in a log, or written to it. -/
structure Access where
  addr : Word
  ver : Word
  val : Word
deriving DecidableEq

def Access.index (a : Access) : Word := a.addr * BitVec.ofNat 64 verMax + a.ver

namespace CycleInout

/-- The register accesses of a cycle: two reads, and the write when there is one. -/
def regAccesses (c : CycleInout) : List Access :=
  [⟨c.rd1Reg,c.rd1Ver,c.rd1Val⟩,⟨c.rd2Reg,c.rd2Ver,c.rd2Val⟩] ++
    if c.wrIswrite ≠ 0 then [⟨c.wrReg,c.wrVer,c.wrVal⟩] else []

/-- The memory accesses of a cycle: the load and the store, when there are. -/
def ramAccesses (c : CycleInout) : List Access :=
  (if c.isLoad ≠ 0 then [⟨c.ldAddr,c.ldVer,c.ldVal⟩] else []) ++
    if c.isStore ≠ 0 then [⟨c.stAddr,c.stVer,c.stVal⟩] else []

end CycleInout

/-- Write one entry; an index past the end is an error. -/
def writeRow (w : List Word) (a : Access) : Option (List Word) :=
  if a.index.toNat < w.length then some (w.set a.index.toNat a.val) else none

/-- A log: the initial values at version zero, then the writes in order. -/
def buildWlog {n : ℕ} (init : Fin n → BitVec 32) (writes : List Access) : Option (List Word) :=
  writes.foldlM writeRow ((finRange n).foldl
    (fun (w : List Word) (r : Fin n) => w.set (r * verMax) (ofU32 (init r)))
    (replicate (n * verMax) 0))

def RegAccess.access (wr : RegAccess) : Access := ⟨wr.reg,wr.ver,ofU32 wr.val⟩

def MemAccess.access (st : MemAccess) : Access := ⟨st.addr,st.ver,ofU32 st.val⟩

def Trace.regWrites (trace : Trace) : List Access :=
  trace.cycles.flatMap fun c => c.write.toList.map RegAccess.access

def Trace.ramWrites (trace : Trace) : List Access :=
  trace.cycles.flatMap fun c => c.store.toList.map MemAccess.access

/-- The log of the registers. -/
def buildRegWlog (init : Fin nReg → BitVec 32) (trace : Trace) : Option (List Word) :=
  buildWlog init trace.regWrites

variable (initMem : Fin nRam → BitVec 32)

def buildRamWlog (trace : Trace) : Option (List Word) :=
  buildWlog initMem trace.ramWrites

/-- Versions are addressed: accesses have distinct indices in the log, the log holds every access's
value at its index, and no write reaches an initial value. -/
structure Addressed {n : ℕ} (init : Fin n → BitVec 32) (wlog : Option (List Word))
    (accesses writes : List Access) : Prop where
  inRange : ∀ a ∈ accesses, a.index.toNat < n * verMax
  distinct : ∀ a ∈ accesses, ∀ b ∈ accesses, a.index = b.index → a.addr = b.addr ∧ a.ver = b.ver
  holds : ∃ w ∈ wlog, (∀ a ∈ accesses, w[a.index.toNat]? = some a.val) ∧
    ∀ r : Fin n, w[r * verMax]? = some (ofU32 (init r))
  initial : ∀ a ∈ writes, ∀ r < n, a.index.toNat ≠ r * verMax

structure VersionLogs (init : Fin nReg → BitVec 32) (initMem : Fin nRam → BitVec 32)
    (trace : Trace) : Prop where
  reg : Addressed init (buildRegWlog init trace)
    ((fill init trace).cycles.flatMap CycleInout.regAccesses) trace.regWrites
  ram : Addressed initMem (buildRamWlog initMem trace)
    ((fill init trace).cycles.flatMap CycleInout.ramAccesses) trace.ramWrites

def storesTo (a : ℕ) (cycles : List Cycle) : ℕ :=
  (cycles.filterMap Cycle.store).countP (·.addr.toNat = a)

def storeInto (mem : ℕ → BitVec 32) (c : Cycle) : ℕ → BitVec 32 :=
  match c.store with
  | some st => Function.update mem st.addr.toNat st.val
  | none => mem

def LoadsRecorded (mem : ℕ → BitVec 32) : List Cycle → Prop
  | [] => True
  | c::cs => (∀ ld ∈ c.load, ld.val = mem ld.addr.toNat) ∧ LoadsRecorded (storeInto mem c) cs

def initialMemory (a : ℕ) : BitVec 32 :=
  if h : a < nRam then initMem ⟨a,h⟩ else 0

/-- The entries of a run in order, each with whether it is a write. -/
abbrev Entries := List (Bool × Access)

def event (p : Bool × Access) : Event Word := ⟨p.1,p.2.addr.toNat,p.2.ver.toNat,p.2.val⟩

def writesOf (evs : Entries) : List Access := (evs.filter Prod.fst).map Prod.snd

theorem index_toNat (hn : n ≤ nRam) {a : Access} (haddr : a.addr.toNat < n)
    (hver : a.ver.toNat < verMax) : a.index.toNat = row verMax a.addr.toNat a.ver.toNat := by
  have hmax : (BitVec.ofNat 64 verMax).toNat = verMax := rfl
  have hrow := row_lt haddr hver
  have hbound : n * verMax ≤ nRam * verMax := Nat.mul_le_mul_right verMax hn
  have hram : nRam * verMax < 2 ^ 64 := by decide
  rw [row] at hrow ⊢
  rw [Access.index,BitVec.toNat_add,BitVec.toNat_mul,hmax,Nat.mod_add_mod]
  exact Nat.mod_eq_of_lt (by omega)

def initialLog {n : ℕ} (init : Fin n → BitVec 32) : List Word :=
  (finRange n).foldl (fun (w : List Word) (r : Fin n) => w.set (r * verMax) (ofU32 (init r)))
    (replicate (n * verMax) 0)

variable (init : Fin n → BitVec 32)

theorem setInitial_getElem? (rs : List (Fin n)) (w : List Word) (hlen : w.length = n * verMax) :
    (rs.foldl (fun (w : List Word) (r : Fin n) => w.set (r * verMax) (ofU32 (init r))) w).length =
      n * verMax ∧ ∀ r : Fin n, (r ∈ rs ∨ w[r * verMax]? = some (ofU32 (init r))) →
      (rs.foldl (fun (w : List Word) (r : Fin n) => w.set (r * verMax) (ofU32 (init r))) w)[
        r * verMax]? = some (ofU32 (init r)) := by
  induction rs generalizing w with
  | nil =>
    refine ⟨hlen,fun r hr => ?_⟩
    exact hr.elim (fun h => absurd h not_mem_nil) id
  | cons r' rs ih =>
    have hset : (w.set (r' * verMax) (ofU32 (init r'))).length = n * verMax := by
      rw [length_set,hlen]
    obtain ⟨hlength,hrows⟩ := ih (w.set (r' * verMax) (ofU32 (init r'))) hset
    rw [foldl_cons]
    refine ⟨hlength,fun r hr => hrows r ?_⟩
    have hlt : (r : ℕ) * verMax < w.length := by
      rw [hlen]
      exact Nat.mul_lt_mul_of_pos_right r.isLt (by decide)
    by_cases heq : r = r'
    · rw [heq] at hlt ⊢
      exact Or.inr (getElem?_set_self hlt)
    · rcases hr with hmem | hrow
      · exact Or.inl ((mem_cons.mp hmem).resolve_left heq)
      · have hne : (r' : ℕ) * verMax ≠ r * verMax := by
          intro h
          have hval := Nat.eq_of_mul_eq_mul_right (show 0 < verMax by decide) h
          exact heq (Fin.ext hval.symm)
        rw [getElem?_set_ne hne]
        exact Or.inr hrow

theorem initialLog_getElem? (r : Fin n) :
    (initialLog init)[(r : ℕ) * verMax]? = some (ofU32 (init r)) :=
  (setInitial_getElem? init (finRange n) _ length_replicate).2 r
    (Or.inl (mem_finRange r))

@[simp] theorem length_initialLog {n : ℕ} (init : Fin n → BitVec 32) :
    (initialLog init).length = n * verMax :=
  (setInitial_getElem? init (finRange n) _ length_replicate).1

theorem foldlM_writeRow (hn : n ≤ nRam) {evs : Entries}
    (hfits : Fits n verMax (evs.map event)) (w : List Word) (hlen : w.length = n * verMax) :
    (writesOf evs).foldlM writeRow w = some (record verMax w (evs.map event)) := by
  induction evs generalizing w with
  | nil => rfl
  | cons p evs ih =>
    have haddr : p.2.addr.toNat < n := hfits.cell (event p) mem_cons_self
    have hver : p.2.ver.toNat < verMax := hfits.ver (event p) mem_cons_self
    have hrow := index_toNat hn haddr hver
    have hlt : p.2.index.toNat < w.length := by
      rw [hrow,hlen]
      exact row_lt haddr hver
    have htail := ih hfits.tail
    obtain ⟨isWrite,a⟩ := p
    cases isWrite with
    | false => exact htail w hlen
    | true =>
      have hset : (w.set a.index.toNat a.val).length = n * verMax := by
        rw [length_set,hlen]
      have hwrites : writesOf ((true,a)::evs) = a::writesOf evs := rfl
      have hrecord : record verMax w (((true,a)::evs).map event) =
          record verMax (w.set a.index.toNat a.val) (evs.map event) := by
        rw [hrow]
        rfl
      rw [hwrites,foldlM_cons,writeRow,if_pos hlt,hrecord]
      exact htail _ hset

theorem addressed_iff (hn : n ≤ nRam) {init : Fin n → BitVec 32} {m : Cells Word}
    (hzero : ∀ r : Fin n, m.ver r = 0 ∧ m.val r = ofU32 (init r)) {evs : Entries}
    (hfollows : Follows m (evs.map event)) (hfits : Fits n verMax (evs.map event)) :
    Addressed init (buildWlog init (writesOf evs)) (evs.map Prod.snd) (writesOf evs) ↔
      ReadsHold m (evs.map event) := by
  have hbuild := foldlM_writeRow hn hfits (initialLog init) (length_initialLog init)
  have hagrees : Agrees n verMax m (initialLog init) := by
    intro c hc
    obtain ⟨hver,hval⟩ := hzero ⟨c,hc⟩
    have hrow : row verMax c 0 = c * verMax := Nat.add_zero _
    dsimp only at hver hval
    rw [hver,hval,hrow]
    exact ⟨by decide,initialLog_getElem? init ⟨c,hc⟩⟩
  have hiff := record_holds_iff hfollows hfits (length_initialLog init) hagrees
  have hindex : ∀ p ∈ evs, p.2.index.toNat = (event p).row verMax := by
    intro p hp
    have hmem := mem_map_of_mem (f := event) hp
    exact index_toNat hn (hfits.cell _ hmem) (hfits.ver _ hmem)
  have hrows : (∀ a ∈ evs.map Prod.snd,
      (record verMax (initialLog init) (evs.map event))[a.index.toNat]? = some a.val) ↔
      ∀ e ∈ evs.map event,
        (record verMax (initialLog init) (evs.map event))[e.row verMax]? = some e.val := by
    rw [forall_mem_map,forall_mem_map]
    refine forall₂_congr fun p hp => ?_
    rw [hindex p hp]
    rfl
  constructor
  · intro h
    obtain ⟨w,hw,hholds,_⟩ := h.holds
    have heq : record verMax (initialLog init) (evs.map event) = w :=
      Option.some.inj (hbuild.symm.trans hw)
    rw [heq] at hrows hiff
    exact hiff.mp (hrows.mp hholds)
  · intro hreads
    refine ⟨?_,?_,⟨_,hbuild,hrows.mpr (hiff.mpr hreads),?_⟩,?_⟩
    · rw [forall_mem_map]
      intro p hp
      have hmem := mem_map_of_mem (f := event) hp
      rw [hindex p hp]
      exact row_lt (hfits.cell _ hmem) (hfits.ver _ hmem)
    · rw [forall_mem_map]
      intro p hp
      rw [forall_mem_map]
      intro p' hp' heq
      have hmem := mem_map_of_mem (f := event) hp
      have hmem' := mem_map_of_mem (f := event) hp'
      have hrow := congrArg BitVec.toNat heq
      rw [hindex p hp,hindex p' hp'] at hrow
      obtain ⟨hcell,hver⟩ := (row_inj (hfits.ver _ hmem) (hfits.ver _ hmem')).mp hrow
      exact ⟨BitVec.eq_of_toNat_eq hcell,BitVec.eq_of_toNat_eq hver⟩
    · intro r
      have hinitial := record_initial hfollows hfits (show 0 < verMax by decide) r (initialLog init)
      have hrow : row verMax r 0 = r * verMax := Nat.add_zero _
      rw [hrow] at hinitial
      rw [hinitial]
      exact initialLog_getElem? init r
    · intro a ha r hr
      obtain ⟨p,hp,rfl⟩ := mem_map.mp ha
      obtain ⟨hmem,hw⟩ := mem_filter.mp hp
      have hev := mem_map_of_mem (f := event) hmem
      have hne := hfollows.row_ne hfits (c := r) (show 0 < verMax by decide) (Nat.zero_le _) hev hw
      have hrow : row verMax r 0 = r * verMax := Nat.add_zero _
      rw [hindex p hmem]
      rwa [hrow] at hne

end Binius64.Vm32
