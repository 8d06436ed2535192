import Binius64.GhashRing
import Binius64.RippleCarry
import Binius64.SpartanAlignment

/-!
# Arithmetic on bit wires

Sums with a constant, products and comparisons of numbers given by a wire a bit, written for any
builder.
-/

namespace Binius64.Spartan

open CheckedRun RippleCarry MachineWord List

variable {F S W : Type}

/-- A step of a circuit function: it may fail and it changes the builder. -/
abbrev Build (S A : Type) := StateT S (Except Failure) A

namespace CircuitBuilder

def mulStep (b : CircuitBuilder F S W) (lhs rhs : W) : Build S W := b.mul lhs rhs

def addStep (b : CircuitBuilder F S W) (lhs rhs : W) : Build S W := b.add lhs rhs

def constantStep (b : CircuitBuilder F S W) (val : F) : Build S W := b.constant val

end CircuitBuilder

def entry {A : Type} (xs : List A) (i : ℕ) : Build S A :=
  match xs[i]? with
  | some x => pure x
  | none => throw .indexOutOfBounds

def toBits [NatCast F] (val : Word) (nbits : ℕ) : List F :=
  (range nbits).map fun i => ((val >>> i &&& 1).toNat : F)

/-- A full adder: the sum and the carry. -/
def fa (b : CircuitBuilder F S W) (a bb cin : W) : Build S (W × W) := do
  let aAndB ← b.mulStep a bb
  let aAndC ← b.mulStep a cin
  let bAndC ← b.mulStep bb cin
  let axb ← b.addStep a bb
  let sum ← b.addStep axb cin
  let c1 ← b.addStep aAndB aAndC
  let cout ← b.addStep c1 bAndC
  return (sum,cout)

/-- The loop over the bits of a wire list and of a constant, from a carry. -/
def addBits (b : CircuitBuilder F S W) : List (W × F) → W → Build S (List W × W)
  | [], cin => return ([],cin)
  | (xi,ci) :: rest, cin => do
    let ib ← b.constantStep ci
    let (sum,cout) ← fa b xi ib cin
    let (out,last) ← addBits b rest cout
    return (sum :: out,last)

/-- The sum of a number and a constant, to as many bits as the number has. -/
def addConstant [Zero F] [NatCast F] (b : CircuitBuilder F S W) (x : List W) (c : Word) :
    Build S (List W) := do
  let cin ← b.constantStep 0
  let (out,_) ← addBits b (x.zip (toBits c x.length)) cin
  return out

def addWires (b : CircuitBuilder F S W) : List (W × W) → W → Build S (List W × W)
  | [], cin => return ([],cin)
  | (aj,ad) :: rest, cin => do
    let (sum,cout) ← fa b aj ad cin
    let (out,last) ← addWires b rest cout
    return (sum :: out,last)

/-- A partial product: the second factor times one bit of the first, shifted to its place. -/
def partialProduct [Zero F] (b : CircuitBuilder F S W) (ak : W) (bb : List W) (k bits : ℕ) :
    Build S (List W) :=
  (range bits).mapM fun j =>
    if k ≤ j then do b.mulStep ak (← entry bb (j - k)) else b.constantStep 0

/-- One round of the product: the partial product of a bit is added to what there is. -/
def mul8Round [Zero F] (b : CircuitBuilder F S W) (bb : List W) (bits : ℕ) (acc : List W)
    (factor : W × ℕ) : Build S (List W) := do
  let addend ← partialProduct b factor.1 bb factor.2 bits
  let cin ← b.constantStep 0
  let (newAcc,_) ← addWires b (acc.zip addend) cin
  return newAcc

/-- The product of two numbers, to as many bits as the first has. -/
def mul8 [Zero F] (b : CircuitBuilder F S W) (a bb : List W) : Build S (List W) := do
  let bits := a.length
  let acc ← (range bits).mapM fun _ => b.constantStep 0
  a.zipIdx.foldlM (mul8Round b bb bits) acc

/-- One when a number is at most a limit: adding what the limit leaves below the next power of two
does not carry. -/
def leq8 [Zero F] [One F] [NatCast F] (b : CircuitBuilder F S W) (x : List W) (limit : Word) :
    Build S W := do
  let bits := x.length
  let addend := (1 : Word) <<< bits - (limit + 1)
  let cin ← b.constantStep 0
  let (_,cin) ← addBits b (x.zip (toBits addend bits)) cin
  let one ← b.constantStep 1
  b.addStep cin one

/-- Every wire a builder hands out carries the value of its operation. -/
structure Carries [Add F] [Mul F] (b : CircuitBuilder F S W) (val : W → F) : Prop where
  constant : ∀ c s w s', b.constant c s = .ok (w,s') → val w = c
  add : ∀ l r s w s', b.add l r s = .ok (w,s') → val w = val l + val r
  mul : ∀ l r s w s', b.mul l r s = .ok (w,s') → val w = val l * val r

structure Total (b : CircuitBuilder F S W) : Prop where
  constant : ∀ c s, ∃ r, b.constant c s = .ok r
  add : ∀ l r s, ∃ w, b.add l r s = .ok w
  mul : ∀ l r s, ∃ w, b.mul l r s = .ok w

/-- Every result of a step is as said. -/
def Yields {A : Type} (m : Build S A) (Q : A → Prop) : Prop := ∀ s a s', m s = .ok (a,s') → Q a

/-- A step never fails. -/
def Returns {A : Type} (m : Build S A) : Prop := ∀ s, ∃ r, m s = .ok r

section Rules

variable {A B : Type} {m : Build S A} {k : A → Build S B}

variable {Q : A → Prop} {xs : List A}

theorem Yields.pure {a : A} (h : Q a) : Yields (pure a : Build S A) Q := by
  intro s b s' hrun
  cases hrun
  exact h

theorem Yields.bind {R : B → Prop} (hm : Yields m Q) (hk : ∀ a, Q a → Yields (k a) R) :
    Yields (m >>= k) R := by
  intro s b s' hrun
  obtain ⟨a,s₁,hfirst,hrest⟩ := state_bind_eq_ok.mp hrun
  exact hk a (hm s a s₁ hfirst) s₁ b s' hrest

theorem Returns.pure {a : A} : Returns (pure a : Build S A) := fun s => ⟨(a,s),rfl⟩

theorem Returns.bind (hm : Returns m) (hk : ∀ a, Returns (k a)) : Returns (m >>= k) := by
  intro s
  obtain ⟨⟨a,s'⟩,hfirst⟩ := hm s
  obtain ⟨r,hrest⟩ := hk a s'
  exact ⟨r,state_bind_eq_ok.mpr ⟨a,s',hfirst,hrest⟩⟩

theorem Yields.mono {R : A → Prop} (hm : Yields m Q) (h : ∀ a, Q a → R a) : Yields m R :=
  fun s a s' hrun => h a (hm s a s' hrun)

theorem Yields.mapM {C : Type} {f : A → Build S B} {read : B → C} {g : A → C}
    (h : ∀ x ∈ xs, Yields (f x) fun y => read y = g x) :
    Yields (xs.mapM f) fun ys => ys.map read = xs.map g := by
  induction xs with
  | nil =>
    rw [mapM_nil]
    exact Yields.pure rfl
  | cons x xs ih =>
    rw [mapM_cons]
    refine (h x mem_cons_self).bind fun y hy => ?_
    refine (ih fun x' hx' => h x' (mem_cons_of_mem _ hx')).bind fun ys hys => ?_
    refine Yields.pure ?_
    rw [map_cons,map_cons,hy,hys]

theorem Returns.mapM {f : A → Build S B} (h : ∀ x ∈ xs, Returns (f x)) :
    Returns (xs.mapM f) := by
  induction xs with
  | nil =>
    rw [mapM_nil]
    exact Returns.pure
  | cons x xs ih =>
    rw [mapM_cons]
    refine (h x mem_cons_self).bind fun y => ?_
    exact (ih fun x' hx' => h x' (mem_cons_of_mem _ hx')).bind fun ys => Returns.pure

theorem entry_yields (i : ℕ) : Yields (entry (S := S) xs i) fun x => xs[i]? = some x := by
  intro s x s' hrun
  rw [entry] at hrun
  cases hx : xs[i]? with
  | none =>
    rw [hx] at hrun
    cases hrun
  | some y =>
    rw [hx] at hrun
    cases hrun
    rfl

theorem entry_returns {i : ℕ} (hi : i < xs.length) : Returns (entry (S := S) xs i) := by
  rw [entry,getElem?_eq_getElem hi]
  exact Returns.pure

end Rules

section Values

variable [CommRing F] {b : CircuitBuilder F S W} {val : W → F}

theorem Carries.constantStep (h : Carries b val) (c : F) : Yields (b.constantStep c) fun w => val w = c :=
  fun s w s' hrun => h.constant c s w s' hrun

theorem Carries.addStep (h : Carries b val) (l r : W) :
    Yields (b.addStep l r) fun w => val w = val l + val r :=
  fun s w s' hrun => h.add l r s w s' hrun

theorem Carries.mulStep (h : Carries b val) (l r : W) :
    Yields (b.mulStep l r) fun w => val w = val l * val r :=
  fun s w s' hrun => h.mul l r s w s' hrun

theorem fa_yields (h : Carries b val) (x y c : W) : Yields (fa b x y c) fun r =>
    val r.1 = val x + val y + val c ∧ val r.2 = val x * val y + val x * val c + val y * val c := by
  refine (h.mulStep x y).bind fun xy hxy => (h.mulStep x c).bind fun xc hxc => ?_
  refine (h.mulStep y c).bind fun yc hyc => (h.addStep x y).bind fun axb haxb => ?_
  refine (h.addStep axb c).bind fun sum hsum => (h.addStep xy xc).bind fun c1 hc1 => ?_
  refine (h.addStep c1 yc).bind fun cout hcout => Yields.pure ⟨?_,?_⟩
  · rw [hsum,haxb]
  · rw [hcout,hc1,hxy,hxc,hyc]

variable [CharP F 2]

theorem fa_bits (h : Carries b val) {x y c : W} {bx by' bc : Bool} (hx : val x = bit bx)
    (hy : val y = bit by') (hc : val c = bit bc) : Yields (fa b x y c) fun r =>
      val r.1 = bit (fullAdder bx by' bc).1 ∧ val r.2 = bit (fullAdder bx by' bc).2 := by
  refine (fa_yields h x y c).mono fun r hr => ?_
  rw [hx,hy,hc,bit_sum,bit_carry] at hr
  exact hr

/-- The wires of a chain carry the sums and the last carry of a ripple. -/
def RippleBits (val : W → F) (ps : List (Bool × Bool)) (c : Bool) (r : List W × W) : Prop :=
  r.1.map val = (ripple ps c).1.map bit ∧ val r.2 = bit (ripple ps c).2

variable {ps : List (Bool × Bool)}

theorem fa_chain (h : Carries b val) {x y cin : W} {px py c : Bool}
    {rest : W → Build S (List W × W)} (hx : val x = bit px) (hy : val y = bit py)
    (hc : val cin = bit c) (hrest : ∀ cout, val cout = bit (fullAdder px py c).2 →
      Yields (rest cout) (RippleBits val ps (fullAdder px py c).2)) :
    Yields (do
      let (sum,cout) ← fa b x y cin
      let (out,last) ← rest cout
      return (sum :: out,last)) (RippleBits val ((px,py) :: ps) c) := by
  refine (fa_bits h hx hy hc).bind fun r hr => ?_
  refine (hrest r.2 hr.2).bind fun out hout => Yields.pure ⟨?_,hout.2⟩
  rw [map_cons,hr.1,hout.1]
  rfl

theorem addBits_bits (h : Carries b val) {xcs : List (W × F)}
    (hps : xcs.map (Prod.map val id) = ps.map (Prod.map bit bit)) {cin : W} {c : Bool}
    (hc : val cin = bit c) : Yields (addBits b xcs cin) (RippleBits val ps c) := by
  induction xcs generalizing ps cin c with
  | nil =>
    rw [map_eq_nil_iff.mp hps.symm]
    exact Yields.pure ⟨rfl,hc⟩
  | cons xc xcs ih =>
    obtain ⟨xi,ci⟩ := xc
    obtain ⟨⟨px,py⟩,ps,rfl,hhead,hrest⟩ := map_eq_cons_iff.mp hps.symm
    have hxi : val xi = bit px := congrArg Prod.fst hhead.symm
    have hci : ci = bit py := congrArg Prod.snd hhead.symm
    refine (h.constantStep ci).bind fun ib hib => ?_
    exact fa_chain h hxi (hib.trans hci) hc fun cout hcout => ih hrest.symm hcout

theorem addWires_bits (h : Carries b val) {xys : List (W × W)}
    (hps : xys.map (Prod.map val val) = ps.map (Prod.map bit bit)) {cin : W} {c : Bool}
    (hc : val cin = bit c) : Yields (addWires b xys cin) (RippleBits val ps c) := by
  induction xys generalizing ps cin c with
  | nil =>
    rw [map_eq_nil_iff.mp hps.symm]
    exact Yields.pure ⟨rfl,hc⟩
  | cons xy xys ih =>
    obtain ⟨aj,ad⟩ := xy
    obtain ⟨⟨px,py⟩,ps,rfl,hhead,hrest⟩ := map_eq_cons_iff.mp hps.symm
    have haj : val aj = bit px := congrArg Prod.fst hhead.symm
    have had : val ad = bit py := congrArg Prod.snd hhead.symm
    exact fa_chain h haj had hc fun cout hcout => ih hrest.symm hcout

end Values

section Constants

variable [CommRing F]

theorem toBits_eq (c : Word) (n : ℕ) : toBits c n = (lowBits n c.toNat).map (bit (R := F)) := by
  refine ext_getElem ?_ fun i hi hi' => ?_
  · rw [toBits,length_map,length_range,length_map,lowBits_length]
  · have hval : (c >>> i &&& 1).toNat = (c.toNat.testBit i).toNat := by
      rw [BitVec.toNat_and,BitVec.toNat_ushiftRight,Nat.toNat_testBit,Nat.shiftRight_eq_div_pow]
      exact Nat.and_one_is_mod _
    simp only [toBits,getElem_map,getElem_range,lowBits_getElem,hval]
    cases c.toNat.testBit i with
    | false => exact Nat.cast_zero
    | true => exact Nat.cast_one

variable {x : List W} {bx by' : List Bool}

theorem zip_bits {A : Type} {read : A → F} {y : List A} {val : W → F}
    (hx : x.map val = bx.map bit) (hy : y.map read = by'.map bit) :
    (x.zip y).map (Prod.map val read) = (bx.zip by').map (Prod.map bit bit) := by
  rw [←zip_map,←zip_map,hx,hy]

variable [CharP F 2] {b : CircuitBuilder F S W} {val : W → F}

theorem addConstant_bits (h : Carries b val) (hx : x.map val = bx.map bit)
    (c : Word) : Yields (addConstant b x c) fun out =>
      out.map val = (lowBits x.length (bitsVal bx + c.toNat)).map bit := by
  have hlen : x.length = bx.length := by simpa only [length_map] using congrArg length hx
  have hc : (toBits c x.length).map id = (lowBits bx.length c.toNat).map (bit (R := F)) := by
    rw [map_id,toBits_eq c,hlen]
  refine (h.constantStep 0).bind fun cin hcin => ?_
  refine (addBits_bits h (zip_bits hx hc) (c := false) hcin).bind fun r hr => Yields.pure ?_
  have hmod := lowBits_mod bx.length (bitsVal bx + c.toNat % 2 ^ bx.length)
  rw [Nat.add_mod_mod,lowBits_mod] at hmod
  rw [hr.1,ripple_digits (lowBits_length _ _).symm,bitsVal_lowBits,Bool.toNat_false,add_zero,hlen,hmod]

theorem leq8_bit (h : Carries b val) (hx : x.map val = bx.map bit)
    (hn : x.length < 64) {limit : Word} (hl : limit.toNat < 2 ^ x.length) :
    Yields (leq8 b x limit) fun out => val out = bit (decide (bitsVal bx ≤ limit.toNat)) := by
  have hlen : x.length = bx.length := by simpa only [length_map] using congrArg length hx
  have hpow : 2 ^ x.length < 2 ^ 64 := Nat.pow_lt_pow_right (by decide) hn
  have haddend : ((1 : Word) <<< x.length - (limit + 1)).toNat = 2 ^ x.length - (limit.toNat + 1) := by
    have honeNat : (1 : Word).toNat = 1 := rfl
    have hone : ((1 : Word) <<< x.length).toNat = 2 ^ x.length := by
      rw [BitVec.toNat_shiftLeft,honeNat,Nat.shiftLeft_eq,one_mul,Nat.mod_eq_of_lt hpow]
    have hsucc : (limit + 1).toNat = limit.toNat + 1 := by
      rw [BitVec.toNat_add,honeNat,Nat.mod_eq_of_lt (by omega)]
    have hle : limit + 1 ≤ (1 : Word) <<< x.length := by
      rw [BitVec.le_def,hone,hsucc]
      exact hl
    rw [BitVec.toNat_sub_of_le hle,hone,hsucc]
  have hc : (toBits ((1 : Word) <<< x.length - (limit + 1)) x.length).map id =
      (lowBits bx.length (2 ^ x.length - (limit.toNat + 1))).map (bit (R := F)) := by
    rw [map_id,toBits_eq,haddend,hlen]
  refine (h.constantStep 0).bind fun cin hcin => ?_
  refine (addBits_bits h (zip_bits hx hc) (c := false) hcin).bind fun r hr => ?_
  refine (h.constantStep 1).bind fun one hone => (h.addStep r.2 one).mono fun out hout => ?_
  have hcarry : (ripple (bx.zip (lowBits bx.length (2 ^ x.length - (limit.toNat + 1)))) false).2 =
      decide (limit.toNat < bitsVal bx) := by
    rw [ripple_carry (lowBits_length _ _).symm,bitsVal_lowBits,Bool.toNat_false,add_zero,←hlen,
      Nat.mod_eq_of_lt (by omega)]
    exact decide_eq_decide.mpr (by omega)
  rw [hout,hr.2,hone,hcarry]
  by_cases hle : bitsVal bx ≤ limit.toNat
  · rw [decide_eq_true hle,decide_eq_false (Nat.not_lt.mpr hle)]
    exact zero_add 1
  · rw [decide_eq_false hle,decide_eq_true (Nat.not_le.mp hle)]
    exact CharTwo.add_self_eq_zero 1

variable {bb : List W}

omit [CharP F 2] in
theorem partialProduct_bits (h : Carries b val) {ak : W} {ba : Bool} (ha : val ak = bit ba)
    (hb : bb.map val = by'.map bit) (k n : ℕ) :
    Yields (partialProduct b ak bb k n) fun out =>
      out.map val = (lowBits n (2 ^ k * (ba.toNat * bitsVal by'))).map bit := by
  have hrange : (lowBits n (2 ^ k * (ba.toNat * bitsVal by'))).map (bit (R := F)) =
      (range n).map fun j => bit ((2 ^ k * (ba.toNat * bitsVal by')).testBit j) := by
    refine ext_getElem ?_ fun j hj hj' => ?_
    · rw [length_map,length_map,lowBits_length,length_range]
    · rw [getElem_map,getElem_map,lowBits_getElem,getElem_range]
  rw [hrange]
  refine Yields.mapM fun j _ => ?_
  have hbit : (2 ^ k * (ba.toNat * bitsVal by')).testBit j =
      (decide (k ≤ j) && (ba && by'.getD (j - k) false)) := by
    rw [Nat.testBit_two_pow_mul,←testBit_bitsVal]
    refine congrArg (decide (j ≥ k) && ·) ?_
    cases ba with
    | false => rw [Bool.toNat_false,zero_mul,Nat.zero_testBit,Bool.false_and]
    | true => rw [Bool.toNat_true,one_mul,Bool.true_and]
  rw [hbit]
  by_cases hk : k ≤ j
  · rw [if_pos hk,decide_eq_true hk,Bool.true_and]
    refine (entry_yields (j - k)).bind fun w hw => (h.mulStep ak w).mono fun out hout => ?_
    have hval : val w = bit (by'.getD (j - k) false) := by
      have hget := congrArg (fun l : List F => l[j - k]?) hb
      simp only [getElem?_map,hw,Option.map_some] at hget
      rw [getD_eq_getElem?_getD]
      cases hy : by'[j - k]? with
      | none =>
        rw [hy] at hget
        cases hget
      | some y =>
        rw [hy] at hget
        exact Option.some.inj hget
    rw [hout,ha,hval,bit_mul]
  · rw [if_neg hk,decide_eq_false hk,Bool.false_and]
    exact h.constantStep 0

theorem mul8Round_bits (h : Carries b val) {ak : W} {ba : Bool} (ha : val ak = bit ba)
    (hb : bb.map val = by'.map bit) (k n p : ℕ) {acc : List W}
    (hacc : acc.map val = (lowBits n p).map bit) : Yields (mul8Round b bb n acc (ak,k)) fun out =>
      out.map val = (lowBits n (p + 2 ^ k * (ba.toNat * bitsVal by'))).map bit := by
  refine (partialProduct_bits h ha hb k n).bind fun addend haddend => ?_
  refine (h.constantStep 0).bind fun cin hcin => ?_
  refine (addWires_bits h (zip_bits hacc haddend) (c := false) hcin).bind fun r hr => Yields.pure ?_
  have hmod := lowBits_mod n (p + 2 ^ k * (ba.toNat * bitsVal by'))
  have hlens : (lowBits n p).length = (lowBits n (2 ^ k * (ba.toNat * bitsVal by'))).length := by
    rw [lowBits_length,lowBits_length]
  rw [hr.1,ripple_digits hlens,bitsVal_lowBits,bitsVal_lowBits,lowBits_length,Bool.toNat_false,
    add_zero,←lowBits_mod,←Nat.add_mod,hmod]

theorem mul8Rounds_bits (h : Carries b val)
    (hb : bb.map val = by'.map bit) (n : ℕ) {a : List W} {ba : List Bool} (ha : a.map val = ba.map bit)
    (k p : ℕ) {acc : List W} (hacc : acc.map val = (lowBits n p).map bit) :
    Yields ((a.zipIdx k).foldlM (mul8Round b bb n) acc) fun out =>
      out.map val = (lowBits n (p + 2 ^ k * (bitsVal ba * bitsVal by'))).map bit := by
  induction a generalizing ba k p acc with
  | nil =>
    rw [map_eq_nil_iff.mp ha.symm,bitsVal,zero_mul,mul_zero,add_zero]
    exact Yields.pure hacc
  | cons ak a ih =>
    obtain ⟨b0,bs,rfl,hhead,hrest⟩ := map_eq_cons_iff.mp ha.symm
    have hsplit : p + 2 ^ k * (bitsVal (b0 :: bs) * bitsVal by') =
        p + 2 ^ k * (b0.toNat * bitsVal by') + 2 ^ (k + 1) * (bitsVal bs * bitsVal by') := by
      rw [bitsVal,pow_succ]
      ring
    rw [zipIdx_cons,foldlM_cons,hsplit]
    exact (mul8Round_bits h hhead.symm hb k n p hacc).bind fun acc' hacc' => ih hrest.symm (k + 1) _ hacc'

theorem mul8_bits (h : Carries b val) {a : List W} {ba : List Bool} (ha : a.map val = ba.map bit)
    (hb : bb.map val = by'.map bit) : Yields (mul8 b a bb) fun out =>
      out.map val = (lowBits a.length (bitsVal ba * bitsVal by')).map bit := by
  have hzero : (lowBits a.length 0).map (bit (R := F)) = (range a.length).map fun _ => 0 := by
    refine ext_getElem ?_ fun j hj hj' => ?_
    · rw [length_map,length_map,lowBits_length,length_range]
    · rw [getElem_map,getElem_map,lowBits_getElem,Nat.zero_testBit]
      rfl
  refine (Yields.mapM fun _ _ => h.constantStep 0).bind fun acc hacc => ?_
  have hrounds := mul8Rounds_bits h hb a.length ha 0 0 (hacc.trans hzero.symm)
  rw [pow_zero,one_mul,zero_add] at hrounds
  exact hrounds

end Constants

section Returning

variable {b : CircuitBuilder F S W}

theorem fa_returns (h : Total b) (x y c : W) : Returns (fa b x y c) := by
  refine Returns.bind (h.mul x y) fun xy => Returns.bind (h.mul x c) fun xc => ?_
  refine Returns.bind (h.mul y c) fun yc => Returns.bind (h.add x y) fun axb => ?_
  refine Returns.bind (h.add axb c) fun sum => Returns.bind (h.add xy xc) fun c1 => ?_
  exact Returns.bind (h.add c1 yc) fun _ => Returns.pure

theorem addBits_returns (h : Total b) (xcs : List (W × F)) (cin : W) : Returns (addBits b xcs cin) := by
  induction xcs generalizing cin with
  | nil => exact Returns.pure
  | cons xc xcs ih =>
    refine Returns.bind (h.constant xc.2) fun ib => Returns.bind (fa_returns h xc.1 ib cin) fun r => ?_
    exact Returns.bind (ih r.2) fun _ => Returns.pure

theorem addWires_returns (h : Total b) (xys : List (W × W)) (cin : W) : Returns (addWires b xys cin) := by
  induction xys generalizing cin with
  | nil => exact Returns.pure
  | cons xy xys ih =>
    refine Returns.bind (fa_returns h xy.1 xy.2 cin) fun r => ?_
    exact Returns.bind (ih r.2) fun _ => Returns.pure

theorem addConstant_returns [CommRing F] (h : Total b) (x : List W) (c : Word) :
    Returns (addConstant b x c) :=
  Returns.bind (h.constant 0) fun cin => Returns.bind (addBits_returns h _ cin) fun _ => Returns.pure

theorem leq8_returns [CommRing F] (h : Total b) (x : List W) (limit : Word) : Returns (leq8 b x limit) := by
  refine Returns.bind (h.constant 0) fun cin => Returns.bind (addBits_returns h _ cin) fun r => ?_
  exact Returns.bind (h.constant 1) fun one => h.add r.2 one

theorem mul8Round_returns [CommRing F] (h : Total b) {bb : List W} {n : ℕ} (hb : n ≤ bb.length)
    (acc : List W) (factor : W × ℕ) : Returns (mul8Round b bb n acc factor) := by
  have hpartial : Returns (partialProduct b factor.1 bb factor.2 n) := by
    refine Returns.mapM fun j hj => ?_
    have hj' := mem_range.mp hj
    split
    · exact Returns.bind (entry_returns (by omega)) fun w => h.mul factor.1 w
    · exact h.constant 0
  refine Returns.bind hpartial fun addend => Returns.bind (h.constant 0) fun cin => ?_
  exact Returns.bind (addWires_returns h _ cin) fun _ => Returns.pure

theorem mul8_returns [CommRing F] (h : Total b) {a bb : List W} (hb : a.length ≤ bb.length) :
    Returns (mul8 b a bb) := by
  have hrounds : ∀ (factors : List (W × ℕ)) (acc : List W),
      Returns (factors.foldlM (mul8Round b bb a.length) acc) := by
    intro factors
    induction factors with
    | nil => exact fun acc => Returns.pure
    | cons factor factors ih =>
      intro acc
      rw [foldlM_cons]
      exact Returns.bind (mul8Round_returns h hb acc factor) ih
  exact Returns.bind (Returns.mapM fun _ _ => h.constant 0) fun acc => hrounds _ acc

end Returning

def HoldBits [Zero F] [One F] (val : W → F) (x : List W) : Prop := ∀ w ∈ x, val w = 0 ∨ val w = 1

/-- The number the bits of some wires spell. -/
def number [One F] [DecidableEq F] (val : W → F) (x : List W) : ℕ :=
  bitsVal (x.map fun w => decide (val w = 1))

theorem HoldBits.eq [CommRing F] [Nontrivial F] [DecidableEq F] {val : W → F} {x : List W}
    (h : HoldBits val x) : x.map val = (x.map fun w => decide (val w = 1)).map bit := by
  have hbits : ∀ v ∈ x.map val, v = 0 ∨ v = 1 := by
    intro v hv
    obtain ⟨w,hw,rfl⟩ := mem_map.mp hv
    exact h w hw
  have hvalues := map_bit_decide hbits
  rw [map_map (l := x)] at hvalues
  exact hvalues.symm

/-- On wires that hold bits of numbers below 64 bits, the circuit functions hand out the bits of the
sum and the product, and the truth of the comparison; they fail only where the builder does. -/
theorem alu_computes [CommRing F] [Nontrivial F] [CharP F 2] [DecidableEq F] {b : CircuitBuilder F S W}
    {val : W → F} (h : Carries b val) {n : ℕ} (hn : n < 64) :
    (∀ x c, x.length = n → HoldBits val x → Yields (addConstant b x c) fun out =>
      out.map val = (lowBits n ((number val x + c.toNat) % 2 ^ n)).map bit) ∧
    (∀ a bb, a.length = n → bb.length = n → HoldBits val a → HoldBits val bb →
      Yields (mul8 b a bb) fun out =>
        out.map val = (lowBits n (number val a * number val bb % 2 ^ n)).map bit) ∧
    (∀ x (limit : Word), x.length = n → HoldBits val x → limit.toNat < 2 ^ n →
      Yields (leq8 b x limit) fun out => val out = if number val x ≤ limit.toNat then 1 else 0) ∧
    (Total b → (∀ x c, Returns (addConstant b x c)) ∧
      (∀ a bb, a.length = n → bb.length = n → Returns (mul8 b a bb)) ∧
      ∀ x limit, Returns (leq8 b x limit)) := by
  refine ⟨fun x c hlen hx => ?_,fun a bb hlen hlenb ha hb => ?_,fun x limit hlen hx hl => ?_,fun ht => ?_⟩
  · have hsum := addConstant_bits h hx.eq c
    rw [hlen] at hsum
    rw [lowBits_mod]
    exact hsum
  · have hproduct := mul8_bits h ha.eq hb.eq
    rw [hlen] at hproduct
    rw [lowBits_mod]
    exact hproduct
  · refine (leq8_bit h hx.eq (hlen ▸ hn) (hlen ▸ hl)).mono fun out hout => hout.trans ?_
    simp only [bit,decide_eq_true_eq]
    rfl
  · exact ⟨addConstant_returns ht,fun a bb hlen hlenb => mul8_returns ht (by omega),leq8_returns ht⟩

/-- A builder that only computes values; it has no inputs and keeps no record. -/
def evaluator (F : Type) [CommRing F] : CircuitBuilder F Unit F where
  inout _ _ := .error .unbound
  precommit _ _ := .error .unbound
  assertZero _ s := .ok s
  assertEq _ _ s := .ok s
  constant c s := .ok (c,s)
  add l r s := .ok (l + r,s)
  mul l r s := .ok (l * r,s)
  hint _ _ _ _ := .error .unbound

theorem evaluator_carries (F : Type) [CommRing F] : Carries (evaluator F) id where
  constant c s w s' hrun := by
    cases hrun
    rfl
  add l r s w s' hrun := by
    cases hrun
    rfl
  mul l r s w s' hrun := by
    cases hrun
    rfl

theorem evaluator_total (F : Type) [CommRing F] : Total (evaluator F) where
  constant _ _ := ⟨_,rfl⟩
  add _ _ _ := ⟨_,rfl⟩
  mul _ _ _ := ⟨_,rfl⟩

/-- Five, in the field of the circuits, is at most five. -/
theorem alu_computes_five : ∃ out, leq8 (evaluator GhashField.Ghash128b) [1,0,1] 5 () = .ok (out,()) ∧
    out = 1 := by
  have h := alu_computes (evaluator_carries GhashField.Ghash128b) (by decide : 3 < 64)
  obtain ⟨⟨out,s⟩,hrun⟩ := (h.2.2.2 (evaluator_total _)).2.2 [1,0,1] 5 ()
  have hbits : HoldBits id ([1,0,1] : List GhashField.Ghash128b) := by
    intro w hw
    fin_cases hw
    · exact Or.inr rfl
    · exact Or.inl rfl
    · exact Or.inr rfl
  have hout := h.2.2.1 [1,0,1] 5 rfl hbits (by decide) () out s hrun
  exact ⟨out,hrun,hout.trans (if_pos (by decide))⟩

end Binius64.Spartan
