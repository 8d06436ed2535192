import Binius64.Vm32Circuit

/-!
# The chains between cycles

What a cycle does to the chains the circuit carries.
-/

namespace Binius64.Vm32

open MachineWord (Word isMsbTrue)
open WordGates List

theorem toNat_band_lt (w : Word) {k : ℕ} (hk : k < 64) :
    (band w (BitVec.ofNat 64 (2 ^ k - 1))).toNat < 2 ^ k := by
  have hpow : 2 ^ k < 2 ^ 64 := Nat.pow_lt_pow_right (by decide) hk
  rw [band,BitVec.toNat_and,BitVec.toNat_ofNat,Nat.mod_eq_of_lt (by omega),
    Nat.and_two_pow_sub_one_eq_mod]
  exact Nat.mod_lt _ (Nat.two_pow_pos k)

variable (inst : Word)

theorem rd_lt : (rd inst).toNat < nReg :=
  @toNat_band_lt (srl32 inst 7) 5 (by decide)

theorem rs1_lt : (rs1 inst).toNat < nReg :=
  @toNat_band_lt (srl32 inst 15) 5 (by decide)

theorem rs2_lt : (rs2 inst).toNat < nReg :=
  @toNat_band_lt (srl32 inst 20) 5 (by decide)

theorem stAddrW_lt (inst rs1v : Word) : (stAddrW inst rs1v).toNat < nRam := by
  rw [stAddrW,select]
  split
  · exact @toNat_band_lt (srl32 (stByteAddr inst rs1v) 2) 6 (by decide)
  · exact @toNat_band_lt _ 6 (by decide)

theorem effLdAddr_lt (inst rs1v : Word) : (effLdAddr inst rs1v).toNat < nRam := by
  rw [effLdAddr,select]
  split
  · exact stAddrW_lt inst rs1v
  · rw [ldAddrW,select]
    split
    · exact @toNat_band_lt (srl32 (ldByteAddr inst rs1v) 2) 6 (by decide)
    · exact @toNat_band_lt (iadd32 rs1v (immI inst)) 6 (by decide)

theorem mux_getElem? {inputs : List Word} {k : ℕ} (hlen : inputs.length = 2 ^ k) (hk : k ≤ 64)
    {sel : Word} (hsel : sel.toNat < 2 ^ k) : inputs[sel.toNat]? = some (mux inputs sel) := by
  have h := mux_eq hlen hk sel
  rwa [Nat.mod_eq_of_lt hsel] at h

theorem eq_of_getD {l l' : List Word} (hlen : l.length = l'.length)
    (h : ∀ i, l.getD i 0 = l'.getD i 0) : l = l' := by
  apply ext_getElem hlen
  intro i hi hi'
  have hentry := h i
  rwa [getD_eq_getElem?_getD,getD_eq_getElem?_getD,getElem?_eq_getElem hi,
    getElem?_eq_getElem hi'] at hentry

theorem getD_replicate (n i : ℕ) : (replicate n (0 : Word)).getD i 0 = 0 := by
  rw [getD_eq_getElem?_getD,getElem?_replicate]
  split <;> rfl

namespace Chains

/-- The chains have a value and a version for every register, and a version for every word. -/
structure Sized (s : Chains) : Prop where
  curReg : s.curReg.length = nReg
  curVer : s.curVer.length = nReg
  cRamVer : s.cRamVer.length = nRam

theorem start_sized : start.Sized := ⟨rfl,rfl,rfl⟩

variable {s : Chains} {c : CycleInout}

theorem Sized.next (h : s.Sized) (c : CycleInout) : (s.next c).Sized where
  curReg := length_mapIdx.trans h.curReg
  curVer := length_mapIdx.trans h.curVer
  cRamVer := length_mapIdx.trans h.cRamVer

theorem getD_mapIdx_select {l : List Word} (hlen : l.length < 2 ^ 64) {sel : Word}
    (hsel : sel.toNat < l.length) (cond : Word) (f : Word → Word) (i : ℕ) :
    (l.mapIdx fun j v => select (band (icmpEq sel (BitVec.ofNat 64 j)) cond) (f v) v).getD i 0 =
      if sel.toNat = i ∧ isMsbTrue cond = true then f (l.getD i 0) else l.getD i 0 := by
  rw [getD_eq_getElem?_getD,getD_eq_getElem?_getD,getElem?_mapIdx]
  rcases Nat.lt_or_ge i l.length with hi | hi
  · have hidx : sel = BitVec.ofNat 64 i ↔ sel.toNat = i := by
      rw [←BitVec.toNat_inj,BitVec.toNat_ofNat,Nat.mod_eq_of_lt (hi.trans hlen)]
    rw [getElem?_eq_getElem hi,Option.map_some,Option.getD_some,Option.getD_some,select,
      isMsbTrue_band,isMsbTrue_icmpEq]
    simp only [Bool.and_eq_true,decide_eq_true_eq,hidx]
  · have hne : ¬(sel.toNat = i ∧ isMsbTrue cond = true) := by
      rintro ⟨rfl,_⟩
      exact absurd hsel (Nat.not_lt.mpr hi)
    rw [getElem?_eq_none hi,if_neg hne]
    rfl

theorem next_prevPc (s : Chains) (c : CycleInout) : (s.next c).prevPc =
    nextPc c.inst s.prevPc (s.rs1v c.inst) (s.rs2v c.inst) := rfl

theorem next_curReg (h : s.Sized) (c : CycleInout) (r : ℕ) : (s.next c).curReg.getD r 0 =
    if (rd c.inst).toNat = r ∧ isMsbTrue (isAluWrite c.inst) = true then s.wb c
      else s.curReg.getD r 0 :=
  getD_mapIdx_select (by rw [h.curReg]; decide) (by rw [h.curReg]; exact rd_lt c.inst)
    (isAluWrite c.inst) (fun _ => s.wb c) r

theorem next_curVer (h : s.Sized) (c : CycleInout) (r : ℕ) : (s.next c).curVer.getD r 0 =
    if (rd c.inst).toNat = r ∧ isMsbTrue (isAluWrite c.inst) = true then iadd (s.curVer.getD r 0) 1
      else s.curVer.getD r 0 :=
  getD_mapIdx_select (by rw [h.curVer]; decide) (by rw [h.curVer]; exact rd_lt c.inst)
    (isAluWrite c.inst) (fun v => iadd v 1) r

theorem next_cRamVer (h : s.Sized) (c : CycleInout) (a : ℕ) : (s.next c).cRamVer.getD a 0 =
    if (s.stAddrW c.inst).toNat = a ∧ isMsbTrue (cIsStore c.inst) = true then
      iadd (s.cRamVer.getD a 0) 1 else s.cRamVer.getD a 0 := by
  have hcomm : (s.next c).cRamVer = s.cRamVer.mapIdx fun j v =>
      select (band (icmpEq (s.stAddrW c.inst) (BitVec.ofNat 64 j)) (cIsStore c.inst)) (iadd v 1) v := by
    have hband : ∀ x y : Word, band x y = band y x := fun x y => BitVec.and_comm x y
    rw [next]
    dsimp only
    congr 1
    funext j v
    rw [hband]
  rw [hcomm]
  exact getD_mapIdx_select (by rw [h.cRamVer]; decide) (by rw [h.cRamVer]; exact stAddrW_lt _ _)
    (cIsStore c.inst) (fun v => iadd v 1) a

theorem next_curReg_of_not (hs : s.Sized)
    (h : isMsbTrue (isAluWrite c.inst) = false) :
    (s.next c).curReg = s.curReg ∧ (s.next c).curVer = s.curVer := by
  have hnot : ∀ r, ¬((rd c.inst).toNat = r ∧ isMsbTrue (isAluWrite c.inst) = true) := by
    rintro r ⟨_,hw⟩
    exact Bool.false_ne_true (h.symm.trans hw)
  refine ⟨eq_of_getD ?_ fun r => ?_,eq_of_getD ?_ fun r => ?_⟩
  · rw [(hs.next c).curReg,hs.curReg]
  · rw [next_curReg hs,if_neg (hnot r)]
  · rw [(hs.next c).curVer,hs.curVer]
  · rw [next_curVer hs,if_neg (hnot r)]

theorem next_cRamVer_of_store (hs : s.Sized)
    (h : isMsbTrue (cIsStore c.inst) = true) : (s.next c).cRamVer =
      s.cRamVer.set (s.stAddrW c.inst).toNat
        (iadd (s.cRamVer.getD (s.stAddrW c.inst).toNat 0) 1) := by
  have hlt : (s.stAddrW c.inst).toNat < s.cRamVer.length := by
    rw [hs.cRamVer]
    exact stAddrW_lt _ _
  refine eq_of_getD ?_ fun a => ?_
  · rw [(hs.next c).cRamVer,length_set,hs.cRamVer]
  · rw [next_cRamVer hs]
    by_cases ha : (s.stAddrW c.inst).toNat = a
    · have hset := getElem?_set_self (a := iadd (s.cRamVer.getD a 0) 1) hlt
      rw [if_pos ⟨ha,h⟩,←ha]
      rw [←ha] at hset
      exact (congrArg (Option.getD · 0) hset).symm
    · have hset := getElem?_set_ne (l := s.cRamVer)
        (a := iadd (s.cRamVer.getD (s.stAddrW c.inst).toNat 0) 1) ha
      rw [if_neg (fun hw => ha hw.1)]
      exact (congrArg (Option.getD · 0) hset).symm

end Chains

theorem iadd_one (v : Word) : iadd v 1 = v + 1 := by
  have hzero : v + 1 + 0 = v + 1 := BitVec.add_zero _
  rw [iadd,MachineWord.iaddCinCout]
  exact hzero

theorem iadd_ofNat_one (v : ℕ) : iadd (BitVec.ofNat 64 v) 1 = BitVec.ofNat 64 (v + 1) := by
  rw [iadd_one,BitVec.ofNat_add]
  rfl

theorem toNat_iadd_one_le (v : Word) : (iadd v 1).toNat ≤ v.toNat + 1 := by
  rw [iadd_one,BitVec.toNat_add]
  exact Nat.mod_le _ _

theorem toNat_iadd_one {v : Word} (h : v.toNat + 1 < 2 ^ 64) : (iadd v 1).toNat = v.toNat + 1 := by
  have hone : (1 : Word).toNat = 1 := rfl
  rw [iadd_one,BitVec.toNat_add,hone,Nat.mod_eq_of_lt h]

end Binius64.Vm32
