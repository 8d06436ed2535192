import Binius64.ConstraintSystem
import Binius64.ByteCodec

/-!
# The constraint-system wire format

The hand-written encoders and decoders of the constraint system and everything inside it, over the
little-endian integers, counted vectors and uncounted arrays of the serialization crate.
-/

namespace Binius64.SystemSerialization

open MachineWord ShiftAlgebra ValueVector ConstraintSystem ByteCodec

inductive SerializationError where
  /-- The input ends inside a value. -/
  | notEnoughBytes
  /-- A tag byte names no variant. -/
  | unknownEnumVariant (name : String) (index : ℕ)
  /-- A value breaks the invariant of its type. -/
  | invalidConstruction (name : String)
  /-- A count does not fit the wire integer. -/
  | usizeTooLarge (size : ℕ)
deriving DecidableEq

/-- What stops a read: a reported error, or a panic of the buffer. -/
inductive ReadFailure where
  /-- The decoder reports an error. -/
  | error (e : SerializationError)
  /-- The buffer was read past its end. -/
  | bufferPanic
deriving DecidableEq

abbrev Reader (α : Type) := Decoder ReadFailure α

abbrev Written := Encoded SerializationError

/-- Refuse to continue when fewer bytes remain than are about to be read. -/
def assertEnoughDataFor (size : ℕ) : Reader Unit := fun input =>
  if input.length < size then .error (.error .notEnoughBytes) else .ok ((),input)

/-- Take bytes from the buffer, which panics past its end. -/
def getBytes (size : ℕ) : Reader (List UInt8) := fun input =>
  if size ≤ input.length then .ok (input.take size,input.drop size) else .error .bufferPanic

def serializeLe (width n : ℕ) : Written := .ok (leBytes width n)

variable (width : ℕ)

/-- Read a little-endian integer of the given width. -/
def deserializeLe : Reader ℕ := do
  assertEnoughDataFor width
  let bytes ← getBytes width
  return ofLeBytes bytes

variable (n : ℕ)

/-- A byte. -/
def serializeU8 : Written := serializeLe 1 n

def deserializeU8 : Reader ℕ := deserializeLe 1

/-- A 32-bit integer. -/
def serializeU32 : Written := serializeLe 4 n

def deserializeU32 : Reader ℕ := deserializeLe 4

/-- A machine-size integer travels as a 32-bit one and is refused past it. -/
def serializeUsize : Written :=
  if n < 2 ^ 32 then serializeU32 n else .error (.usizeTooLarge n)

def deserializeUsize : Reader ℕ := deserializeU32

/-- A vector travels as its count followed by its items. -/
def serializeVec {α : Type} (item : α → Written) (xs : List α) : Written :=
  append (serializeUsize xs.length) (writeAll (xs.map item))

def deserializeVec {α : Type} (item : Reader α) : Reader (List α) := do
  let len ← deserializeUsize
  readMany item len

def serializeWord (w : Word) : Written := serializeLe 8 w.toNat

def deserializeWord : Reader Word := do
  let n ← deserializeLe 8
  return BitVec.ofNat 64 n

def serializeValueIndex (v : ValueIndex) : Written := serializeU32 v.toU32

def deserializeValueIndex : Reader ValueIndex := do
  let packed ← deserializeU32
  return .ofU32 packed

def serializeShiftVariant (v : ShiftVariant) : Written := serializeU8 v.toU8

def deserializeShiftVariant : Reader ShiftVariant := do
  let index ← deserializeU8
  match ShiftVariant.fromU8 index with
  | some v => return v
  | none => throw (.error (.unknownEnumVariant "ShiftVariant" index))

def serializeShift (s : Shift) : Written :=
  writeAll [serializeShiftVariant s.variant,serializeUsize s.amount]

/-- Read a shift, refusing an amount its variant cannot represent. -/
def deserializeShift : Reader Shift := do
  let variant ← deserializeShiftVariant
  let amount ← deserializeUsize
  if variant.maxAmount ≤ amount then
    throw (.error (.invalidConstruction "Shift::amount"))
  else return ⟨variant,amount⟩

variable (t : ShiftedValueIndex)

/-- A term travels as its value index and its two shifts, inner first. -/
def serializeTerm : Written :=
  writeAll [serializeValueIndex t.valueIndex,serializeShift t.inner,serializeShift t.outer]

def deserializeTerm : Reader ShiftedValueIndex := do
  let valueIndex ← deserializeValueIndex
  let inner ← deserializeShift
  let outer ← deserializeShift
  return ⟨valueIndex,inner,outer⟩

def serializeOperand (operand : Operand) : Written := serializeVec serializeTerm operand

def deserializeOperand : Reader Operand := deserializeVec deserializeTerm

def serializeZero (c : ZeroConstraint) : Written := writeAll [serializeOperand c.val]

def deserializeZero : Reader ZeroConstraint := do
  let val ← deserializeOperand
  return ⟨val⟩

/-- A conjunction constraint is an array of three operands. -/
def serializeAnd (c : AndConstraint) : Written :=
  writeAll [serializeOperand c.a,serializeOperand c.b,serializeOperand c.c]

def deserializeAnd : Reader AndConstraint := do
  let a ← deserializeOperand
  let b ← deserializeOperand
  let c ← deserializeOperand
  return ⟨a,b,c⟩

/-- An integer product constraint is an array of four operands. -/
def serializeImul (c : ImulConstraint) : Written :=
  writeAll [serializeOperand c.a,serializeOperand c.b,serializeOperand c.lo,serializeOperand c.hi]

def deserializeImul : Reader ImulConstraint := do
  let a ← deserializeOperand
  let b ← deserializeOperand
  let lo ← deserializeOperand
  let hi ← deserializeOperand
  return ⟨a,b,lo,hi⟩

/-- A field product constraint is an array of six operands. -/
def serializeBmul (c : BmulConstraint) : Written :=
  writeAll [serializeOperand c.aLo,serializeOperand c.aHi,serializeOperand c.bLo,
    serializeOperand c.bHi,serializeOperand c.cLo,serializeOperand c.cHi]

def deserializeBmul : Reader BmulConstraint := do
  let aLo ← deserializeOperand
  let aHi ← deserializeOperand
  let bLo ← deserializeOperand
  let bHi ← deserializeOperand
  let cLo ← deserializeOperand
  let cHi ← deserializeOperand
  return ⟨aLo,aHi,bLo,bHi,cLo,cHi⟩

def serializationVersion : ℕ := 10

def serialize (cs : System) : Written :=
  writeAll [serializeU32 serializationVersion,serializeVec serializeWord cs.constants,
    serializeUsize cs.nInout,serializeUsize cs.nPrivate,
    serializeVec serializeZero cs.zeroConstraints,serializeVec serializeAnd cs.andConstraints,
    serializeVec serializeImul cs.imulConstraints,serializeVec serializeBmul cs.bmulConstraints]

def deserialize : Reader System := do
  let version ← deserializeU32
  if version ≠ serializationVersion then
    throw (.error (.invalidConstruction "ConstraintSystem::version"))
  else do
    let constants ← deserializeVec deserializeWord
    let nInout ← deserializeUsize
    let nPrivate ← deserializeUsize
    let zeroConstraints ← deserializeVec deserializeZero
    let andConstraints ← deserializeVec deserializeAnd
    let imulConstraints ← deserializeVec deserializeImul
    let bmulConstraints ← deserializeVec deserializeBmul
    return ⟨constants,nInout,nPrivate,zeroConstraints,andConstraints,imulConstraints,
      bmulConstraints⟩

theorem le_lawful :
    Lawful (serializeLe width) (deserializeLe width) (fun n => n < 256 ^ width) where
  complete n hn := by
    refine ⟨leBytes width n,rfl,fun rest => ?_⟩
    have hl := leBytes_length width n
    have hlt : ¬(leBytes width n ++ rest).length < width := by
      rw [List.length_append,hl]
      omega
    have hle : width ≤ (leBytes width n ++ rest).length := Nat.not_lt.mp hlt
    simp only [deserializeLe,assertEnoughDataFor,getBytes,bind,StateT.bind,hlt,hle,if_true,
      if_false,Except.bind]
    rw [List.take_left' hl,List.drop_left' hl]
    rw [ofLeBytes_leBytes hn]
    rfl
  sound input n rest hd := by
    simp only [deserializeLe,assertEnoughDataFor,getBytes,bind,StateT.bind] at hd
    by_cases hlt : input.length < width
    · simp only [hlt,if_true,Except.bind] at hd
      cases hd
    · have hle : width ≤ input.length := Nat.not_lt.mp hlt
      simp only [hlt,hle,if_true,if_false,Except.bind] at hd
      cases hd
      have hw : (input.take width).length = width := List.length_take_of_le hle
      have hr := leBytes_ofLeBytes (input.take width)
      have hb := ofLeBytes_lt (input.take width)
      rw [hw] at hr hb
      exact ⟨hb,input.take width,by rw [serializeLe,hr],(List.take_append_drop width input).symm⟩

theorem u8_lawful : Lawful serializeU8 deserializeU8 (fun n => n < 256) :=
  (le_lawful 1).congr fun n => by rw [pow_one]

theorem u32_lawful : Lawful serializeU32 deserializeU32 (fun n => n < 2 ^ 32) :=
  (le_lawful 4).congr fun n => by norm_num

theorem usize_lawful : Lawful serializeUsize deserializeUsize (fun n => n < 2 ^ 32) where
  complete n hn := by
    obtain ⟨bytes,he,hd⟩ := u32_lawful.complete n hn
    exact ⟨bytes,by rw [serializeUsize,if_pos hn,he],hd⟩
  sound input n rest hd := by
    obtain ⟨hn,bytes,he,hi⟩ := u32_lawful.sound input n rest hd
    exact ⟨hn,bytes,by rw [serializeUsize,if_pos hn,he],hi⟩

theorem vec_lawful {α : Type} {item : α → Written} {read : Reader α} {Valid : α → Prop}
    (h : Lawful item read Valid) :
    Lawful (serializeVec item) (deserializeVec read)
      (fun xs => xs.length < 2 ^ 32 ∧ ∀ x ∈ xs, Valid x) := by
  have hf : Lawful (serializeVec item) (deserializeVec read)
      (fun xs : List α => True ∧ xs.length < 2 ^ 32 ∧ ∀ x ∈ xs, Valid x) :=
    usize_lawful.field List.length fun n _ =>
      (h.many n).congr fun xs => by simp only [true_and]
  exact hf.congr fun xs => iff_of_eq (true_and _)

theorem word_lawful : Lawful serializeWord deserializeWord (fun _ => True) := by
  have hm := (le_lawful 8).map BitVec.toNat (BitVec.ofNat 64)
    (fun w => BitVec.ofNat_toNat 64 w |>.trans (BitVec.setWidth_eq w))
    (fun n hn => by
      rw [BitVec.toNat_ofNat]
      exact Nat.mod_eq_of_lt (by norm_num at hn ⊢; exact hn))
  exact hm.congr fun w => by
    simp only [iff_true]
    have := w.isLt
    norm_num at this ⊢
    exact this

theorem valueIndex_lawful :
    Lawful serializeValueIndex deserializeValueIndex (fun _ => True) := by
  have hm := u32_lawful.map ValueIndex.toU32 ValueIndex.ofU32
    ValueIndex.ofU32_toU32 (fun n hn => ValueIndex.toU32_ofU32 hn)
  exact hm.congr fun v => by simp only [v.toU32_lt]

theorem shiftVariant_lawful :
    Lawful serializeShiftVariant deserializeShiftVariant (fun _ => True) := by
  refine ⟨fun v _ => ?_,fun input v rest hd => ?_⟩
  · obtain ⟨bytes,he,hd⟩ := u8_lawful.complete v.toU8 v.toU8_lt
    refine ⟨bytes,he,fun rest => ?_⟩
    simp only [deserializeShiftVariant,bind,StateT.bind,hd,Except.bind,ShiftVariant.fromU8_toU8]
    rfl
  · simp only [deserializeShiftVariant,bind,StateT.bind] at hd
    cases ha : deserializeU8 input with
    | error e =>
      rw [ha] at hd
      cases hd
    | ok p =>
      obtain ⟨n,tail⟩ := p
      rw [ha] at hd
      obtain ⟨hn,bytes,he,rfl⟩ := u8_lawful.sound input n tail ha
      simp only [Except.bind] at hd
      cases hv : ShiftVariant.fromU8 n with
      | none =>
        rw [hv] at hd
        cases hd
      | some v' =>
        rw [hv] at hd
        cases hd
        rw [serializeShiftVariant,ShiftVariant.toU8_of_fromU8 hv]
        exact ⟨trivial,bytes,he,rfl⟩

theorem shift_lawful : Lawful serializeShift deserializeShift Shift.InRange := by
  have hf : Lawful serializeShift deserializeShift
      (fun s => True ∧ True ∧ s.amount < 2 ^ 32 ∧ s.InRange ∧ True) :=
    shiftVariant_lawful.field Shift.variant fun v _ =>
      usize_lawful.field Shift.amount fun n _ => by
        by_cases h : v.maxAmount ≤ n
        · rw [if_pos h]
          refine Lawful.throw ?_
          rintro s ⟨⟨⟨-,rfl⟩,rfl⟩,hs,-⟩
          exact absurd hs (Nat.not_lt.mpr h)
        · rw [if_neg h]
          refine (Lawful.done (G := fun s : Shift => s = ⟨v,n⟩) fun s => Iff.rfl).congr fun s => ?_
          constructor
          · rintro ⟨rfl,-⟩
            exact ⟨⟨⟨trivial,rfl⟩,rfl⟩,Nat.not_le.mp h,trivial⟩
          · rintro ⟨⟨⟨-,rfl⟩,rfl⟩,-⟩
            exact ⟨rfl,trivial⟩
  refine hf.congr fun s => ?_
  simp only [true_and,and_true,and_iff_right_iff_imp]
  intro hs
  have : s.variant.maxAmount ≤ 64 := by cases s.variant <;> decide
  simp only [Shift.InRange] at hs
  omega

def ShiftsInRange : Prop := t.inner.InRange ∧ t.outer.InRange

/-- The wire can carry an operand: its length fits, its shifts are in range. -/
def OperandFits (operand : Operand) : Prop :=
  operand.length < 2 ^ 32 ∧ ∀ t ∈ operand, ShiftsInRange t

theorem term_lawful : Lawful serializeTerm deserializeTerm ShiftsInRange := by
  have hf : Lawful serializeTerm deserializeTerm
      (fun t => True ∧ True ∧ t.inner.InRange ∧ t.outer.InRange ∧ True) :=
    valueIndex_lawful.field ShiftedValueIndex.valueIndex fun v _ =>
      shift_lawful.field ShiftedValueIndex.inner fun a _ =>
        shift_lawful.field ShiftedValueIndex.outer fun b _ =>
          Lawful.done fun t => by
            obtain ⟨v',a',b'⟩ := t
            simp only [true_and,ShiftedValueIndex.mk.injEq,and_assoc]
  exact hf.congr fun t => by simp only [true_and,and_true,ShiftsInRange]

theorem operand_lawful : Lawful serializeOperand deserializeOperand OperandFits :=
  vec_lawful term_lawful

theorem zero_lawful :
    Lawful serializeZero deserializeZero (fun c => True ∧ OperandFits c.val ∧ True) :=
  operand_lawful.field ZeroConstraint.val fun a _ =>
    Lawful.done fun c => by
      obtain ⟨a'⟩ := c
      simp only [true_and,ZeroConstraint.mk.injEq]

theorem and_lawful :
    Lawful serializeAnd deserializeAnd
      (fun c => True ∧ OperandFits c.a ∧ OperandFits c.b ∧ OperandFits c.c ∧ True) :=
  operand_lawful.field AndConstraint.a fun a _ =>
    operand_lawful.field AndConstraint.b fun b _ =>
      operand_lawful.field AndConstraint.c fun c _ =>
        Lawful.done fun x => by
          obtain ⟨a',b',c'⟩ := x
          simp only [true_and,AndConstraint.mk.injEq,and_assoc]

theorem imul_lawful :
    Lawful serializeImul deserializeImul
      (fun c => True ∧ OperandFits c.a ∧ OperandFits c.b ∧ OperandFits c.lo ∧ OperandFits c.hi ∧
        True) :=
  operand_lawful.field ImulConstraint.a fun a _ =>
    operand_lawful.field ImulConstraint.b fun b _ =>
      operand_lawful.field ImulConstraint.lo fun lo _ =>
        operand_lawful.field ImulConstraint.hi fun hi _ =>
          Lawful.done fun x => by
            obtain ⟨a',b',lo',hi'⟩ := x
            simp only [true_and,ImulConstraint.mk.injEq,and_assoc]

theorem bmul_lawful :
    Lawful serializeBmul deserializeBmul
      (fun c => True ∧ OperandFits c.aLo ∧ OperandFits c.aHi ∧ OperandFits c.bLo ∧
        OperandFits c.bHi ∧ OperandFits c.cLo ∧ OperandFits c.cHi ∧ True) :=
  operand_lawful.field BmulConstraint.aLo fun aLo _ =>
    operand_lawful.field BmulConstraint.aHi fun aHi _ =>
      operand_lawful.field BmulConstraint.bLo fun bLo _ =>
        operand_lawful.field BmulConstraint.bHi fun bHi _ =>
          operand_lawful.field BmulConstraint.cLo fun cLo _ =>
            operand_lawful.field BmulConstraint.cHi fun cHi _ =>
              Lawful.done fun x => by
                obtain ⟨aLo',aHi',bLo',bHi',cLo',cHi'⟩ := x
                simp only [true_and,BmulConstraint.mk.injEq,and_assoc]

/-- Every count of a system fits the wire integer. -/
structure CountsFit (cs : System) : Prop where
  constants : cs.constants.length < 2 ^ 32
  nInout : cs.nInout < 2 ^ 32
  nPrivate : cs.nPrivate < 2 ^ 32
  zero : cs.zeroConstraints.length < 2 ^ 32
  and : cs.andConstraints.length < 2 ^ 32
  imul : cs.imulConstraints.length < 2 ^ 32
  bmul : cs.bmulConstraints.length < 2 ^ 32
  operands : ∀ operand ∈ cs.operands, operand.length < 2 ^ 32

def AllShiftsInRange (cs : System) : Prop :=
  ∀ operand ∈ cs.operands, ∀ t ∈ operand, ShiftsInRange t

theorem forall_operandsOf {C : Type} [HasOperands C] (constraints : List C) (P : Operand → Prop)
    (Q : C → Prop)
    (h : ∀ c, Q c ↔ ∀ operand ∈ (HasOperands.operands c).map Prod.fst, P operand) :
    (∀ c ∈ constraints, Q c) ↔ ∀ operand ∈ operandsOf constraints, P operand := by
  simp only [h,operandsOf,List.mem_flatMap]
  constructor
  · rintro hq operand ⟨c,hc,ho⟩
    exact hq c hc operand ho
  · intro hp c hc operand ho
    exact hp operand ⟨c,hc,ho⟩

theorem system_lawful :
    Lawful serialize deserialize (fun cs => CountsFit cs ∧ AllShiftsInRange cs) := by
  have hf : Lawful serialize deserialize
      (fun cs => True ∧ serializationVersion < 2 ^ 32 ∧
        (cs.constants.length < 2 ^ 32 ∧ ∀ w ∈ cs.constants, True) ∧ cs.nInout < 2 ^ 32 ∧
        cs.nPrivate < 2 ^ 32 ∧
        (cs.zeroConstraints.length < 2 ^ 32 ∧ ∀ c ∈ cs.zeroConstraints,
          True ∧ OperandFits c.val ∧ True) ∧
        (cs.andConstraints.length < 2 ^ 32 ∧ ∀ c ∈ cs.andConstraints,
          True ∧ OperandFits c.a ∧ OperandFits c.b ∧ OperandFits c.c ∧ True) ∧
        (cs.imulConstraints.length < 2 ^ 32 ∧ ∀ c ∈ cs.imulConstraints,
          True ∧ OperandFits c.a ∧ OperandFits c.b ∧ OperandFits c.lo ∧ OperandFits c.hi ∧
            True) ∧
        (cs.bmulConstraints.length < 2 ^ 32 ∧ ∀ c ∈ cs.bmulConstraints,
          True ∧ OperandFits c.aLo ∧ OperandFits c.aHi ∧ OperandFits c.bLo ∧
            OperandFits c.bHi ∧ OperandFits c.cLo ∧ OperandFits c.cHi ∧ True) ∧ True) := by
    refine u32_lawful.field (fun _ : System => serializationVersion) fun version _ => ?_
    by_cases hv : version = serializationVersion
    · subst hv
      rw [if_neg (not_not.mpr rfl)]
      exact (vec_lawful word_lawful).field System.constants fun constants _ =>
        usize_lawful.field System.nInout fun nInout _ =>
        usize_lawful.field System.nPrivate fun nPrivate _ =>
        (vec_lawful zero_lawful).field System.zeroConstraints fun zero _ =>
        (vec_lawful and_lawful).field System.andConstraints fun and _ =>
        (vec_lawful imul_lawful).field System.imulConstraints fun imul _ =>
        (vec_lawful bmul_lawful).field System.bmulConstraints fun bmul _ =>
          Lawful.done fun cs => by
            obtain ⟨constants',nInout',nPrivate',zero',and',imul',bmul'⟩ := cs
            simp only [true_and,System.mk.injEq,and_assoc]
    · rw [if_pos hv]
      exact Lawful.throw fun cs hcs => hv hcs.1.2.symm
  refine hf.congr fun cs => ?_
  have hz := forall_operandsOf cs.zeroConstraints OperandFits
    (fun c => True ∧ OperandFits c.val ∧ True) fun c => by
      simp [HasOperands.operands]
  have ha := forall_operandsOf cs.andConstraints OperandFits
    (fun c => True ∧ OperandFits c.a ∧ OperandFits c.b ∧ OperandFits c.c ∧ True) fun c => by
      simp [HasOperands.operands]
  have hi := forall_operandsOf cs.imulConstraints OperandFits
    (fun c => True ∧ OperandFits c.a ∧ OperandFits c.b ∧ OperandFits c.lo ∧
      OperandFits c.hi ∧ True) fun c => by
      simp [HasOperands.operands]
  have hb := forall_operandsOf cs.bmulConstraints OperandFits
    (fun c => True ∧ OperandFits c.aLo ∧ OperandFits c.aHi ∧ OperandFits c.bLo ∧
      OperandFits c.bHi ∧ OperandFits c.cLo ∧ OperandFits c.cHi ∧ True) fun c => by
      simp [HasOperands.operands]
  have hall : (∀ operand ∈ cs.operands, OperandFits operand) ↔
      (∀ operand ∈ cs.operands, operand.length < 2 ^ 32) ∧ AllShiftsInRange cs :=
    ⟨fun h => ⟨fun o ho => (h o ho).1,fun o ho => (h o ho).2⟩,
      fun h o ho => ⟨h.1 o ho,h.2 o ho⟩⟩
  simp only [System.operands,List.forall_mem_append] at hall
  rw [hz,ha,hi,hb]
  constructor
  · rintro ⟨-,-,⟨hc,-⟩,hn,hp,⟨hzl,hz'⟩,⟨hal,ha'⟩,⟨hil,hi'⟩,⟨hbl,hb'⟩,-⟩
    obtain ⟨hl,hs⟩ := hall.mp ⟨hz',ha',hi',hb'⟩
    exact ⟨⟨hc,hn,hp,hzl,hal,hil,hbl,by
      simpa only [System.operands,List.forall_mem_append] using hl⟩,hs⟩
  · rintro ⟨h,hs⟩
    have ho := h.operands
    simp only [System.operands,List.forall_mem_append] at ho
    obtain ⟨hz',ha',hi',hb'⟩ := hall.mpr ⟨ho,hs⟩
    exact ⟨trivial,by decide,⟨h.constants,fun _ _ => trivial⟩,h.nInout,h.nPrivate,⟨h.zero,hz'⟩,
      ⟨h.and,ha'⟩,⟨h.imul,hi'⟩,⟨h.bmul,hb'⟩,trivial⟩

theorem le_never : Never (· = .bufferPanic) (deserializeLe width) := by
  intro input e h
  simp only [deserializeLe,assertEnoughDataFor,getBytes,bind,StateT.bind] at h
  by_cases hlt : input.length < width
  · simp only [hlt,if_true,Except.bind] at h
    cases h
    exact nofun
  · have hle : width ≤ input.length := Nat.not_lt.mp hlt
    simp only [hlt,hle,if_true,if_false,Except.bind] at h
    cases h

theorem vec_never {α : Type} {item : Reader α} (h : Never (· = .bufferPanic) item) :
    Never (· = .bufferPanic) (deserializeVec item) :=
  (le_never 4).bind fun len => h.many len

theorem shiftVariant_never : Never (· = .bufferPanic) deserializeShiftVariant := by
  refine (le_never 1).bind fun index => ?_
  cases ShiftVariant.fromU8 index with
  | some v => exact Never.pure v
  | none => exact Never.throw nofun

theorem shift_never : Never (· = .bufferPanic) deserializeShift := by
  refine shiftVariant_never.bind fun v => (le_never 4).bind fun n => ?_
  split
  · exact Never.throw nofun
  · exact Never.pure _

theorem word_never : Never (· = .bufferPanic) deserializeWord :=
  (le_never 8).bind fun _ => Never.pure _

theorem term_never : Never (· = .bufferPanic) deserializeTerm :=
  ((le_never 4).bind fun _ => Never.pure _).bind fun _ =>
    shift_never.bind fun _ => shift_never.bind fun _ => Never.pure _

theorem operand_never : Never (· = .bufferPanic) deserializeOperand :=
  vec_never term_never

theorem zero_never : Never (· = .bufferPanic) deserializeZero :=
  operand_never.bind fun _ => Never.pure _

theorem and_never : Never (· = .bufferPanic) deserializeAnd :=
  operand_never.bind fun _ => operand_never.bind fun _ => operand_never.bind fun _ =>
    Never.pure _

theorem imul_never : Never (· = .bufferPanic) deserializeImul :=
  operand_never.bind fun _ => operand_never.bind fun _ => operand_never.bind fun _ =>
    operand_never.bind fun _ => Never.pure _

theorem bmul_never : Never (· = .bufferPanic) deserializeBmul :=
  operand_never.bind fun _ => operand_never.bind fun _ => operand_never.bind fun _ =>
    operand_never.bind fun _ => operand_never.bind fun _ => operand_never.bind fun _ =>
    Never.pure _

theorem deserialize_never : Never (· = .bufferPanic) deserialize := by
  refine (le_never 4).bind fun version => ?_
  split
  · exact Never.throw nofun
  · exact (vec_never word_never).bind fun _ => (le_never 4).bind fun _ =>
      (le_never 4).bind fun _ => (vec_never zero_never).bind fun _ =>
      (vec_never and_never).bind fun _ => (vec_never imul_never).bind fun _ =>
      (vec_never bmul_never).bind fun _ => Never.pure _

theorem reported_of_never {α : Type} {read : Reader α} (h : Never (· = .bufferPanic) read)
    {input : List UInt8} {e : ReadFailure} (he : read input = .error e) :
    ∃ e', read input = .error (.error e') := by
  cases e with
  | error e' => exact ⟨e',he⟩
  | bufferPanic => exact absurd rfl (h input _ he)

theorem unknown_tag {tag : UInt8} (h : ShiftVariant.fromU8 tag.toNat = none)
    (rest : List UInt8) :
    deserializeShift (tag :: rest) =
      .error (.error (.unknownEnumVariant "ShiftVariant" tag.toNat)) := by
  have hd : deserializeU8 (tag :: rest) = .ok (tag.toNat,rest) := by
    have hb : leBytes 1 tag.toNat = [tag] := by
      rw [leBytes,leBytes,UInt8.ofNat_toNat]
    have hl := u8_lawful.decode_encode tag.toNat_lt (by rw [serializeU8,serializeLe,hb]) rest
    exact hl
  simp only [deserializeShift,deserializeShiftVariant,bind,StateT.bind,hd,Except.bind,h]
  rfl

theorem amount_outOfRange {v : ShiftVariant} {n : ℕ} (hn : v.maxAmount ≤ n) (h32 : n < 2 ^ 32)
    (rest : List UInt8) :
    deserializeShift (UInt8.ofNat v.toU8 :: (leBytes 4 n ++ rest)) =
      .error (.error (.invalidConstruction "Shift::amount")) := by
  have hv : deserializeShiftVariant (UInt8.ofNat v.toU8 :: (leBytes 4 n ++ rest)) =
      .ok (v,leBytes 4 n ++ rest) :=
    shiftVariant_lawful.decode_encode trivial (show serializeShiftVariant v =
      .ok [UInt8.ofNat v.toU8] from rfl) _
  have ha : deserializeUsize (leBytes 4 n ++ rest) = .ok (n,rest) :=
    u32_lawful.decode_encode h32 rfl rest
  simp only [deserializeShift,bind,StateT.bind,hv,ha,Except.bind,hn,if_true]
  rfl

theorem count_overlong {α : Type} {item : Reader α} (hc : Consumes item)
    (hp : Never (· = .bufferPanic) item) {n : ℕ} (h32 : n < 2 ^ 32) {rest : List UInt8}
    (hr : rest.length < n) :
    ∃ e, deserializeVec item (leBytes 4 n ++ rest) = .error (.error e) := by
  have ha : deserializeUsize (leBytes 4 n ++ rest) = .ok (n,rest) :=
    u32_lawful.decode_encode h32 rfl rest
  obtain ⟨e,he⟩ := readMany_short hc hr
  refine reported_of_never (vec_never hp) (e := e) ?_
  simp only [deserializeVec,bind,StateT.bind,ha,Except.bind,he]

theorem serializeLe_ne_nil (width n : ℕ) : serializeLe (width + 1) n ≠ .ok [] := by
  intro h
  cases h

theorem serializeUsize_ne_nil : serializeUsize n ≠ .ok [] := by
  unfold serializeUsize
  split
  · exact serializeLe_ne_nil 3 n
  · exact nofun

theorem items_consume :
    Consumes deserializeWord ∧ Consumes deserializeTerm ∧ Consumes deserializeZero ∧
      Consumes deserializeAnd ∧ Consumes deserializeImul ∧ Consumes deserializeBmul := by
  have ho : ∀ operand, serializeOperand operand ≠ .ok [] := fun operand =>
    append_ne_nil (serializeUsize_ne_nil _) _
  refine ⟨word_lawful.consumes fun w => serializeLe_ne_nil 7 _,term_lawful.consumes fun t => ?_,
    zero_lawful.consumes fun c => ?_,and_lawful.consumes fun c => ?_,
    imul_lawful.consumes fun c => ?_,bmul_lawful.consumes fun c => ?_⟩
  · rw [serializeTerm,writeAll]
    exact append_ne_nil (serializeLe_ne_nil 3 _) _
  · rw [serializeZero,writeAll]
    exact append_ne_nil (ho _) _
  · rw [serializeAnd,writeAll]
    exact append_ne_nil (ho _) _
  · rw [serializeImul,writeAll]
    exact append_ne_nil (ho _) _
  · rw [serializeBmul,writeAll]
    exact append_ne_nil (ho _) _

/-- An input is well formed when it starts with the encoding of a system whose
counts fit and whose shifts are in range. -/
def WellFormedInput (input : List UInt8) : Prop :=
  ∃ cs bytes rest, CountsFit cs ∧ AllShiftsInRange cs ∧ serialize cs = .ok bytes ∧
    input = bytes ++ rest

/-- The format round-trips, has unique encodings, and reports an error, never a
panic, on every input that is not well formed: truncations, unknown tags,
amounts out of range and over-long counts among them. -/
theorem wire_format :
    (∀ cs, CountsFit cs → AllShiftsInRange cs → ∃ bytes, serialize cs = .ok bytes ∧
        ∀ rest, deserialize (bytes ++ rest) = .ok (cs,rest)) ∧
      (∀ input cs rest, deserialize input = .ok (cs,rest) →
        ∃ bytes, serialize cs = .ok bytes ∧ input = bytes ++ rest) ∧
      (∀ input, ¬WellFormedInput input → ∃ e, deserialize input = .error (.error e)) ∧
      (∀ input, deserialize input ≠ .error .bufferPanic) ∧
      (∀ cs front back, CountsFit cs → AllShiftsInRange cs →
        serialize cs = .ok (front ++ back) → back ≠ [] →
        ∃ e, deserialize front = .error (.error e)) ∧
      (∀ (tag : UInt8) rest, ShiftVariant.fromU8 tag.toNat = none →
        deserializeShift (tag :: rest) =
          .error (.error (.unknownEnumVariant "ShiftVariant" tag.toNat))) ∧
      (∀ (v : ShiftVariant) n rest, v.maxAmount ≤ n → n < 2 ^ 32 →
        deserializeShift (UInt8.ofNat v.toU8 :: (leBytes 4 n ++ rest)) =
          .error (.error (.invalidConstruction "Shift::amount"))) ∧
      (∀ n (rest : List UInt8), n < 2 ^ 32 → rest.length < n →
        (∃ e, deserializeVec deserializeWord (leBytes 4 n ++ rest) = .error (.error e)) ∧
        (∃ e, deserializeVec deserializeTerm (leBytes 4 n ++ rest) = .error (.error e)) ∧
        (∃ e, deserializeVec deserializeZero (leBytes 4 n ++ rest) = .error (.error e)) ∧
        (∃ e, deserializeVec deserializeAnd (leBytes 4 n ++ rest) = .error (.error e)) ∧
        (∃ e, deserializeVec deserializeImul (leBytes 4 n ++ rest) = .error (.error e)) ∧
        ∃ e, deserializeVec deserializeBmul (leBytes 4 n ++ rest) = .error (.error e)) := by
  have hl := system_lawful
  refine ⟨fun cs hc hs => hl.complete cs ⟨hc,hs⟩,
    fun input cs rest hd => (hl.sound input cs rest hd).2,?_,?_,?_,
    fun tag rest h => unknown_tag h rest,fun v n rest hn h32 => amount_outOfRange hn h32 rest,?_⟩
  · intro input hw
    cases hd : deserialize input with
    | error e =>
      rw [← hd]
      exact reported_of_never deserialize_never hd
    | ok p =>
      obtain ⟨⟨hc,hs⟩,bytes,he,hi⟩ := hl.sound input p.1 p.2 hd
      exact absurd ⟨p.1,bytes,p.2,hc,hs,he,hi⟩ hw
  · intro input hd
    exact deserialize_never input _ hd rfl
  · intro cs front back hc hs he hb
    obtain ⟨e,hd⟩ := hl.strict_prefix ⟨hc,hs⟩ he hb
    exact reported_of_never deserialize_never hd
  · intro n rest h32 hr
    obtain ⟨hw,ht,hz,ha,hi,hb⟩ := items_consume
    exact ⟨count_overlong hw word_never h32 hr,count_overlong ht term_never h32 hr,
      count_overlong hz zero_never h32 hr,count_overlong ha and_never h32 hr,
      count_overlong hi imul_never h32 hr,count_overlong hb bmul_never h32 hr⟩

/-- The masking system survives the wire in front of any rest. -/
theorem wire_format_mask :
    ∃ bytes, serialize maskSystem = .ok bytes ∧
      ∀ rest, deserialize (bytes ++ rest) = .ok (maskSystem,rest) :=
  wire_format.1 maskSystem
    ⟨by decide,by decide,by decide,by decide,by decide,by decide,by decide,by decide⟩
    (by unfold AllShiftsInRange ShiftsInRange; decide)

/-- A hand-built half-word shift by forty bits: the fields are public, so such a
system exists and is written out, but its own bytes are refused. -/
def wideShiftSystem : System where
  constants := [1]
  nInout := 0
  nPrivate := 0
  zeroConstraints := [⟨[.single ⟨.constant,0,zero_lt_segmentCapacity⟩ ⟨.sll32,40⟩]⟩]
  andConstraints := []
  imulConstraints := []
  bmulConstraints := []

/-- Fitting counts alone do not give the round trip. -/
theorem roundTrip_fails :
    CountsFit wideShiftSystem ∧ ∃ bytes, serialize wideShiftSystem = .ok bytes ∧
      deserialize bytes = .error (.error (.invalidConstruction "Shift::amount")) :=
  ⟨⟨by decide,by decide,by decide,by decide,by decide,by decide,by decide,by decide⟩,
    _,rfl,by decide⟩

end Binius64.SystemSerialization
