import Binius64.ShiftAlgebra

/-!
# The value vector

Segment-relative indices, the circuit's layout of the value vector, and the vector itself.
-/

namespace Binius64.ValueVector

open MachineWord

/-- A machine-level failure of the running code, as opposed to a reported error. -/
inductive Panic where
  /-- A buffer was read or written past its end. -/
  | wordOutOfRange
  /-- A shift was applied with an amount outside its variant's width. -/
  | shiftOutOfWidth
  /-- `ValueIndex::new` was given an index past the segment capacity. -/
  | valueIndexOutOfRange
  /-- The constants handed to a layout do not match its count. -/
  | constantsMismatch
  /-- A chip was looked up past the end of a system's chips. -/
  | chipOutOfRange
  /-- An instance was read past the end of its chip's table. -/
  | rowOutOfRange
  /-- A group of a gate was read at a size it does not have. -/
  | gateArity
  /-- A shift gate carries no discriminant of a variant. -/
  | shiftVariant
  /-- Gate fusion met a definition its commit decision ruled out. -/
  | fusion
  /-- The slot of a value outside the scratch segment was asked for. -/
  | slotMissing
  /-- A circuit was built against an assertion of the builder. -/
  | builderAssertion
deriving DecidableEq

/-- A computation that may stop with a machine-level failure. -/
abbrev Checked := Except Panic

/-- A computation does not stop with the given failure. -/
def Avoids {α : Type} (p : Panic) (x : Checked α) : Prop := x ≠ .error p

theorem avoids_ok {α : Type} {p : Panic} (a : α) : Avoids p (.ok a : Checked α) := nofun

theorem avoids_bind {α β : Type} {p : Panic} {x : Checked α} {k : α → Checked β}
    (hx : Avoids p x) (hk : ∀ a, x = .ok a → Avoids p (k a)) : Avoids p (x >>= k) := by
  cases x with
  | error q => exact fun h => hx (by cases h; rfl)
  | ok a => exact hk a rfl

/-- The section of the value vector an index names. -/
inductive ValueSegment where
  /-- The constants the circuit declares. -/
  | constant
  /-- The input/output values, public but chosen per instance. -/
  | inOut
  /-- The declared witness and the values the gates create. -/
  | priv
  /-- The uncommitted temporaries of a circuit evaluation. -/
  | scratch
deriving DecidableEq

namespace ValueSegment

def isReferenceable : ValueSegment → Bool
  | scratch => false
  | _ => true

def tag : ValueSegment → ℕ
  | constant => 0
  | inOut => 1
  | priv => 2
  | scratch => 3

def fromTag (t : ℕ) : ValueSegment :=
  match t % 4 with
  | 0 => constant
  | 1 => inOut
  | 2 => priv
  | _ => scratch

@[simp] theorem fromTag_tag (s : ValueSegment) : fromTag s.tag = s := by
  cases s <;> rfl

theorem tag_fromTag {t : ℕ} (h : t < 4) : (fromTag t).tag = t := by
  have hc : ∀ t : Fin 4, (fromTag t.val).tag = t.val := by decide
  exact hc ⟨t,h⟩

theorem tag_lt (s : ValueSegment) : s.tag < 4 := by
  cases s <;> decide

end ValueSegment

/-- The number of values one segment can hold: the packed index has thirty bits. -/
def segmentCapacity : ℕ := 2 ^ 30

/-- A reference to one word, as a segment and an index within it. -/
structure ValueIndex where
  segment : ValueSegment
  index : ℕ
  index_lt : index < segmentCapacity
deriving DecidableEq

theorem zero_lt_segmentCapacity : 0 < segmentCapacity := by decide

namespace ValueIndex

def new (segment : ValueSegment) (index : ℕ) : Checked ValueIndex :=
  if h : index < segmentCapacity then .ok ⟨segment,index,h⟩ else .error .valueIndexOutOfRange

variable (v : ValueIndex)

/-- The packed `u32`: the segment tag above the index. -/
def toU32 : ℕ :=
  v.segment.tag * segmentCapacity + v.index

def ofU32 (packed : ℕ) : ValueIndex :=
  ⟨.fromTag (packed / segmentCapacity),packed % segmentCapacity,Nat.mod_lt _ (by decide)⟩

theorem toU32_lt : v.toU32 < 2 ^ 32 := by
  have h := v.index_lt
  have ht := v.segment.tag_lt
  simp only [toU32,segmentCapacity] at *
  omega

@[simp] theorem ofU32_toU32 : ofU32 v.toU32 = v := by
  obtain ⟨s,i,h⟩ := v
  have hd : (s.tag * segmentCapacity + i) / segmentCapacity = s.tag := by
    simp only [segmentCapacity] at *
    omega
  have hm : (s.tag * segmentCapacity + i) % segmentCapacity = i := by
    simp only [segmentCapacity] at *
    omega
  simp only [ofU32,toU32,hd,hm,ValueSegment.fromTag_tag]

theorem toU32_ofU32 {packed : ℕ} (h : packed < 2 ^ 32) : (ofU32 packed).toU32 = packed := by
  have ht : packed / segmentCapacity < 4 := by
    simp only [segmentCapacity]
    omega
  simp only [toU32,ofU32,ValueSegment.tag_fromTag ht]
  exact Nat.div_add_mod' packed segmentCapacity

theorem new_ok {segment : ValueSegment} {index : ℕ} (h : index < segmentCapacity) :
    new segment index = .ok ⟨segment,index,h⟩ := by
  simp only [new,h,dite_true]

end ValueIndex

/-- The compiler's view of the value vector: every section the circuit allocates. -/
structure ValueVecLayout where
  nConst : ℕ
  nInout : ℕ
  nWitness : ℕ
  nInternal : ℕ
  nScratch : ℕ
deriving DecidableEq

namespace ValueVecLayout

variable (l : ValueVecLayout)

/-- The word at which the inout values start. -/
def offsetInout : ℕ := l.nConst

/-- The word at which the private values start. -/
def offsetWitness : ℕ := l.nConst + l.nInout

def nPrivate : ℕ := l.nWitness + l.nInternal

/-- The number of words constraint operands can reference. -/
def combinedLen : ℕ := l.offsetWitness + l.nPrivate

end ValueVecLayout

/-- The vector of values constraints are evaluated against. -/
structure ValueVec where
  /-- The number of constants, which is where the inout values start. -/
  nConst : ℕ
  /-- The number of public values, which is where the private ones start. -/
  nPublicValues : ℕ
  nPrivate : ℕ
  data : List Word
deriving DecidableEq

namespace ValueVec

def newFromData (nConst : ℕ) (publicWords privateWords : List Word) : ValueVec :=
  ⟨nConst,publicWords.length,privateWords.length,publicWords ++ privateWords⟩

variable (v : ValueVec)

/-- The number of values the vector holds, excluding scratch. -/
def size : ℕ := v.nPublicValues + v.nPrivate

variable (index : ValueIndex)

/-- The flat position of the word an index names. -/
def wordOffset : ℕ :=
  (match index.segment with
    | .constant => 0
    | .inOut => v.nConst
    | .priv => v.nPublicValues
    | .scratch => v.size) + index.index

variable (offset : ℕ)

/-- Read a flat position, panicking past the buffer. -/
def readOffset : Checked Word :=
  match v.data[offset]? with
  | some w => .ok w
  | none => .error .wordOutOfRange

def read : Checked Word :=
  v.readOffset (v.wordOffset index)

/-- The word at a flat position; zero past the buffer. -/
def wordAt : Word :=
  v.data.getD offset 0

/-- The word an index names; zero past the buffer. -/
def word : Word :=
  v.wordAt (v.wordOffset index)

/-- Overwrite the word at a flat position, panicking past the buffer. -/
def write (w : Word) : Checked ValueVec :=
  if offset < v.data.length then .ok { v with data := v.data.set offset w }
  else .error .wordOutOfRange

def publicWords : List Word := v.data.take v.nPublicValues

def inout : List Word := v.publicWords.drop v.nConst

/-- The slice of the inout values, panicking when the vector is too short for it. -/
def inoutChecked : Checked (List Word) :=
  if v.nConst ≤ v.nPublicValues ∧ v.nPublicValues ≤ v.data.length then .ok v.inout
  else .error .wordOutOfRange

theorem readOffset_ok {v : ValueVec} {offset : ℕ} (h : offset < v.data.length) :
    v.readOffset offset = .ok (v.wordAt offset) := by
  simp only [readOffset,wordAt,List.getElem?_eq_getElem h,List.getD_eq_getElem?_getD,
    Option.getD_some]

theorem read_ok {v : ValueVec} {index : ValueIndex} (h : v.wordOffset index < v.data.length) :
    v.read index = .ok (v.word index) :=
  readOffset_ok h

theorem newFromData_size (n : ℕ) (pub priv : List Word) :
    (newFromData n pub priv).data.length = (newFromData n pub priv).size := by
  simp only [newFromData,size,List.length_append]

end ValueVec

abbrev WordSource := ValueIndex → Word

end Binius64.ValueVector
