import Mathlib.Data.List.Induction
import Binius64.ByteCodec

/-!
# The ELF32 loader

The reader over the file's bytes, the two loops that fold segments and executable sections into
words, and the image they leave.
-/

namespace Binius64.ElfLoader

open ByteCodec
open List (append_nil foldlM_cons foldlM_nil foldl_append foldl_cons map_nil mem_append mem_filter
  mem_map range range_succ replicate)

/-- The ways a run stops without an image. -/
inductive Failure where
  /-- The loader reports an error. -/
  | err (message : String)
  /-- An access is out of range or a sum overflows. -/
  | panic
deriving DecidableEq

structure ElfImage where
  entry : ℕ
  text : List (BitVec 32)
  initWords : List (ℕ × BitVec 32)
deriving DecidableEq

/-- A sum of machine words. -/
def usizeAdd (a b : ℕ) : Except Failure ℕ :=
  if a + b < 2 ^ 64 then .ok (a + b) else .error .panic

/-- A product of machine words. -/
def usizeMul (a b : ℕ) : Except Failure ℕ :=
  if a * b < 2 ^ 64 then .ok (a * b) else .error .panic

/-- The reader: a position in the file's bytes. -/
abbrev ReaderM (α : Type) := StateT ℕ (Except Failure) α

namespace Reader

def u8 (buf : List UInt8) : ReaderM UInt8 := do
  let pos ← get
  match buf[pos]? with
  | none => throw (.err "elf: truncated")
  | some v => do
    set (← usizeAdd pos 1)
    return v

/-- Read two bytes, the low one first. -/
def u16 (buf : List UInt8) : ReaderM ℕ := do
  let b0 ← u8 buf
  let b1 ← u8 buf
  return ofLeBytes [b0,b1]

/-- Read four bytes, the low one first. -/
def u32 (buf : List UInt8) : ReaderM ℕ := do
  let b0 ← u8 buf
  let b1 ← u8 buf
  let b2 ← u8 buf
  let b3 ← u8 buf
  return ofLeBytes [b0,b1,b2,b3]

def bytes (buf : List UInt8) (n : ℕ) : ReaderM (List UInt8) := do
  let pos ← get
  let stop ← usizeAdd pos n
  if stop > buf.length then throw (.err "elf: truncated")
  set stop
  return (buf.drop pos).take n

end Reader

def ptLoad : ℕ := 1

def shtProgbits : ℕ := 1

/-- The words collected so far, and one past the highest executable one. -/
structure LoadState where
  initWords : List (ℕ × BitVec 32)
  maxExecWord : ℕ

def foldWord (data : List UInt8) (off : ℕ) : Except Failure (BitVec 32) :=
  (range 4).foldlM (fun w b => do
    let at_ ← usizeAdd off b
    let byte := data.getD at_ 0
    return w ||| (byte.toBitVec.setWidth 32 <<< (8 * b))) 0

def foldAt (vaddr : ℕ) (data : List UInt8) (executable : Bool) (state : LoadState) (off : ℕ) :
    Except Failure LoadState := do
  let address ← usizeAdd vaddr off
  let k := address / 4
  let w ← foldWord data off
  let next ← usizeAdd k 1
  return ⟨state.initWords ++ [(k,w)],
    if executable then max state.maxExecWord next else state.maxExecWord⟩

def foldWords (vaddr : ℕ) (data : List UInt8) (size : ℕ) (executable : Bool)
    (state : LoadState) : Except Failure LoadState :=
  ((range ((size + 3) / 4)).map (4 * ·)).foldlM (foldAt vaddr data executable) state

/-- Read one program header and fold its segment when it is loadable and not empty. -/
def loadSegment (buf : List UInt8) (phoff phentsize : ℕ) (state : LoadState) (i : ℕ) :
    ReaderM LoadState := do
  set (← usizeAdd phoff (← usizeMul i phentsize))
  let pType ← Reader.u32 buf
  let pOffset ← Reader.u32 buf
  let pVaddr ← Reader.u32 buf
  let _ ← Reader.u32 buf
  let pFilesz ← Reader.u32 buf
  let _ ← Reader.u32 buf
  let pFlags ← Reader.u32 buf
  if pType ≠ ptLoad ∨ pFilesz = 0 then return state
  if pVaddr % 4 ≠ 0 then
    throw (.err "elf: PT_LOAD vaddr not 4-aligned (unsupported; bytes would fold across words)")
  let executable := pFlags % 2 = 1
  set pOffset
  let data ← Reader.bytes buf pFilesz
  foldWords pVaddr data pFilesz executable state

/-- Read one section header and fold its section when it is allocated program code. -/
def loadSection (buf : List UInt8) (sh0 shentsize : ℕ) (state : LoadState) (i : ℕ) :
    ReaderM LoadState := do
  set (← usizeAdd sh0 (← usizeMul i shentsize))
  let _ ← Reader.u32 buf
  let shType ← Reader.u32 buf
  let shFlags ← Reader.u32 buf
  let shAddr ← Reader.u32 buf
  let shOffset ← Reader.u32 buf
  let shSize ← Reader.u32 buf
  -- the execute flag is bit two, the allocate flag bit one
  if shType ≠ shtProgbits ∨ shFlags / 4 % 2 = 0 ∨ shFlags / 2 % 2 = 0 then return state
  if shAddr % 4 ≠ 0 then
    throw (.err "elf: PROGBITS section addr not 4-aligned (unsupported)")
  set shOffset
  let data ← Reader.bytes buf shSize
  foldWords shAddr data shSize true state

structure Header where
  entry : ℕ
  phoff : ℕ
  shoff : ℕ
  phentsize : ℕ
  phnum : ℕ
  shentsize : ℕ
  shnum : ℕ

def readHeader (buf : List UInt8) : ReaderM Header := do
  let magic ← Reader.bytes buf 4
  if magic ≠ [0x7f,0x45,0x4c,0x46] then throw (.err "elf: bad magic")
  let eiClass ← Reader.u8 buf
  if eiClass ≠ 1 then throw (.err "elf: not ELF32")
  let eiData ← Reader.u8 buf
  if eiData ≠ 1 then throw (.err "elf: not little-endian")
  let _ ← Reader.bytes buf 10
  let _ ← Reader.u16 buf
  let _ ← Reader.u16 buf
  let _ ← Reader.u32 buf
  let entry ← Reader.u32 buf
  let phoff ← Reader.u32 buf
  let shoff ← Reader.u32 buf
  let _ ← Reader.u32 buf
  let _ ← Reader.u16 buf
  let phentsize ← Reader.u16 buf
  let phnum ← Reader.u16 buf
  let shentsize ← Reader.u16 buf
  let shnum ← Reader.u16 buf
  let _ ← Reader.u16 buf
  return ⟨entry,phoff,shoff,phentsize,phnum,shentsize,shnum⟩

/-- The word of an unlisted image address: the environment call. -/
def ecallWord : BitVec 32 := 0x00000073

/-- Lay the collected words out: the image up to its length, the rest as initial words. -/
def layOut (entry : ℕ) (state : LoadState) : Except Failure ElfImage := do
  let entryEnd ← usizeAdd (entry / 4) 1
  let textLen := max state.maxExecWord entryEnd
  let text := state.initWords.foldl (fun text kw =>
    if kw.1 < textLen then text.set kw.1 kw.2 else text) (replicate textLen ecallWord)
  return ⟨entry,text,state.initWords.filter fun kw => textLen ≤ kw.1⟩

def parse (buf : List UInt8) : ReaderM ElfImage := do
  let h ← readHeader buf
  let state ← (range h.phnum).foldlM (loadSegment buf h.phoff h.phentsize) ⟨[],0⟩
  set h.shoff
  let sectionEnd ← usizeAdd h.shoff (← usizeMul h.shnum h.shentsize)
  let state ←
    if h.shnum > 0 ∧ sectionEnd ≤ buf.length then
      (range h.shnum).foldlM (loadSection buf h.shoff h.shentsize) state
    else pure state
  layOut h.entry state

def parseElf32 (buf : List UInt8) : Except Failure ElfImage :=
  match parse buf 0 with
  | .ok (img,_) => .ok img
  | .error e => .error e

/-- A run from a position does not panic, and a result and its position meet a condition. -/
def Ensures {α : Type} (m : ReaderM α) (pos : ℕ) (Q : α → ℕ → Prop) : Prop :=
  match m pos with
  | .ok (a,pos') => Q a pos'
  | .error e => e ≠ .panic

section Rules

variable {α β : Type} {pos : ℕ}

variable {Q : α → ℕ → Prop}

theorem Ensures.pure {a : α} (h : Q a pos) : Ensures (Pure.pure a) pos Q := h

theorem Ensures.throw_bind {message : String} {k : α → ReaderM β} {Q : β → ℕ → Prop} :
    Ensures ((MonadExcept.throw (.err message) : ReaderM α) >>= k) pos Q := nofun

theorem Ensures.bind {m : ReaderM α} {k : α → ReaderM β} {R : β → ℕ → Prop}
    (hm : Ensures m pos Q) (hk : ∀ a pos', Q a pos' → Ensures (k a) pos' R) :
    Ensures (m >>= k) pos R := by
  simp only [Ensures,Bind.bind,StateT.bind,Except.bind] at hm hk ⊢
  cases h : m pos with
  | error e =>
    rw [h] at hm
    exact hm
  | ok r =>
    rw [h] at hm
    exact hk r.1 r.2 hm

theorem Ensures.set {pos' : ℕ} : Ensures (MonadStateOf.set pos' : ReaderM PUnit) pos
    fun _ q => q = pos' := rfl

theorem Ensures.lift {x : Except Failure α} {a : α} (h : x = .ok a) :
    Ensures (liftM x : ReaderM α) pos fun b q => b = a ∧ q = pos := by
  subst h
  exact ⟨rfl,rfl⟩

theorem Ensures.mono {m : ReaderM α} {R : α → ℕ → Prop} (h : Ensures m pos Q)
    (hQ : ∀ a q, Q a q → R a q) : Ensures m pos R := by
  rw [Ensures] at h ⊢
  cases hm : m pos with
  | error e =>
    rw [hm] at h
    exact h
  | ok r =>
    rw [hm] at h
    exact hQ _ _ h

theorem Ensures.foldlM_range {σ : Type} {f : σ → ℕ → ReaderM σ} {init : σ} {I : ℕ → σ → Prop}
    {n : ℕ} (h0 : I 0 init)
    (hf : ∀ i < n, ∀ s pos, I i s → Ensures (f s i) pos fun s' _ => I (i + 1) s') :
    Ensures ((range n).foldlM f init) pos fun s _ => I n s := by
  induction n with
  | zero => exact h0
  | succ n ih =>
    rw [range_succ,List.foldlM_append]
    refine (ih fun i hi => hf i (by omega)).bind fun s q hs => ?_
    rw [foldlM_cons]
    refine (hf n (by omega) s q hs).bind fun s' q' hs' => ?_
    exact hs'

end Rules

/-- The number some little-endian bytes of the file denote. -/
def le (buf : List UInt8) (pos width : ℕ) : ℕ := ofLeBytes ((buf.drop pos).take width)

variable (buf : List UInt8) {pos i : ℕ} {state : LoadState} {α : Type} {Q : α → ℕ → Prop}

theorem le_lt (pos width : ℕ) : le buf pos width < 256 ^ width := by
  have hl : ((buf.drop pos).take width).length ≤ width := List.length_take_le _ _
  exact (ofLeBytes_lt _).trans_le (Nat.pow_le_pow_right (by omega) hl)

theorem u8_ensures (h : pos + 1 < 2 ^ 64) :
    Ensures (Reader.u8 buf) pos fun v q => q = pos + 1 ∧ buf[pos]? = some v := by
  rw [Ensures,Reader.u8]
  simp only [get,getThe,MonadStateOf.get,StateT.get,bind,StateT.bind,pure,Except.pure,Except.bind]
  cases hb : buf[pos]? with
  | none => exact nofun
  | some v =>
    simp only [usizeAdd,h,if_true]
    exact ⟨rfl,rfl⟩

theorem take_drop_succ {buf : List UInt8} {width : ℕ} {v : UInt8} (h : buf[pos]? = some v) :
    (buf.drop pos).take (width + 1) = v :: (buf.drop (pos + 1)).take width := by
  obtain ⟨hlt,rfl⟩ := List.getElem?_eq_some_iff.mp h
  rw [List.drop_eq_getElem_cons hlt,List.take_succ_cons]

theorem u16_ensures (h : pos + 2 < 2 ^ 64) :
    Ensures (Reader.u16 buf) pos fun v q => q = pos + 2 ∧ v = le buf pos 2 := by
  rw [Reader.u16]
  refine (u8_ensures buf (by omega)).bind fun b0 q ⟨hq,h0⟩ => ?_
  subst hq
  refine (u8_ensures buf (by omega)).bind fun b1 q ⟨hq,h1⟩ => ?_
  subst hq
  refine .pure ⟨rfl,?_⟩
  rw [le,take_drop_succ h0,take_drop_succ h1,List.take_zero]

theorem u32_ensures (h : pos + 4 < 2 ^ 64) :
    Ensures (Reader.u32 buf) pos fun v q => q = pos + 4 ∧ v = le buf pos 4 := by
  rw [Reader.u32]
  refine (u8_ensures buf (by omega)).bind fun b0 q ⟨hq,h0⟩ => ?_
  subst hq
  refine (u8_ensures buf (by omega)).bind fun b1 q ⟨hq,h1⟩ => ?_
  subst hq
  refine (u8_ensures buf (by omega)).bind fun b2 q ⟨hq,h2⟩ => ?_
  subst hq
  refine (u8_ensures buf (by omega)).bind fun b3 q ⟨hq,h3⟩ => ?_
  subst hq
  refine .pure ⟨rfl,?_⟩
  rw [le,take_drop_succ h0,take_drop_succ h1,take_drop_succ h2,take_drop_succ h3,List.take_zero]

theorem bytes_ensures {n : ℕ} (h : pos + n < 2 ^ 64) :
    Ensures (Reader.bytes buf n) pos fun v q => q = pos + n ∧ pos + n ≤ buf.length ∧
      v = (buf.drop pos).take n := by
  rw [Ensures,Reader.bytes]
  simp only [get,getThe,MonadStateOf.get,StateT.get,bind,StateT.bind,pure,Except.pure,Except.bind,
    usizeAdd,h,if_true,liftM,monadLift,MonadLift.monadLift,StateT.lift]
  by_cases hl : pos + n > buf.length
  · rw [if_pos hl]
    exact nofun
  · rw [if_neg hl]
    exact ⟨rfl,by omega,rfl⟩

/-- The byte at a little-endian position of a word. -/
def byteAt (w : BitVec 32) (i : ℕ) : UInt8 := ⟨(w >>> (8 * i)).setWidth 8⟩

/-- The word four bytes make up, the first one lowest. -/
def wordOf (a b c d : UInt8) : BitVec 32 :=
  a.toBitVec.setWidth 32 ||| (b.toBitVec.setWidth 32 <<< 8) ||| (c.toBitVec.setWidth 32 <<< 16) |||
    (d.toBitVec.setWidth 32 <<< 24)

theorem byteAt_wordOf (a b c d : UInt8) :
    byteAt (wordOf a b c d) 0 = a ∧ byteAt (wordOf a b c d) 1 = b ∧
      byteAt (wordOf a b c d) 2 = c ∧ byteAt (wordOf a b c d) 3 = d := by
  have hext {x y : UInt8} (h : x.toBitVec = y.toBitVec) : x = y := UInt8.toBitVec_inj.mp h
  refine ⟨hext ?_,hext ?_,hext ?_,hext ?_⟩
  all_goals
    apply BitVec.eq_of_getLsbD_eq
    intro j hj
    simp only [byteAt,wordOf,BitVec.getLsbD_setWidth,BitVec.getLsbD_ushiftRight,
      BitVec.getLsbD_or,BitVec.getLsbD_shiftLeft]
    grind

variable (data : List UInt8)

/-- The word folded at an offset of the data, zeros past its end. -/
def dataWord (off : ℕ) : BitVec 32 :=
  wordOf (data.getD off 0) (data.getD (off + 1) 0) (data.getD (off + 2) 0) (data.getD (off + 3) 0)

theorem byteAt_dataWord (off : ℕ) (h : i < 4) : byteAt (dataWord data off) i = data.getD (off + i) 0 := by
  obtain ⟨h0,h1,h2,h3⟩ := byteAt_wordOf (data.getD off 0) (data.getD (off + 1) 0)
    (data.getD (off + 2) 0) (data.getD (off + 3) 0)
  match i,h with
  | 0,_ => exact h0
  | 1,_ => exact h1
  | 2,_ => exact h2
  | 3,_ => exact h3

theorem foldWord_ok {off : ℕ} (h : off + 3 < 2 ^ 64) : foldWord data off = .ok (dataWord data off) := by
  have h0 : off + 0 < 2 ^ 64 := by omega
  have h1 : off + 1 < 2 ^ 64 := by omega
  have h2 : off + 2 < 2 ^ 64 := by omega
  have hr : range 4 = [0,1,2,3] := rfl
  rw [foldWord,hr]
  simp only [foldlM_cons,foldlM_nil,usizeAdd,h0,h1,h2,h,if_true,bind,Except.bind,pure,
    Except.pure,Except.ok.injEq]
  simp [dataWord,wordOf]

/-- Data to be folded from an address. -/
structure Chunk where
  vaddr : ℕ
  data : List UInt8
  executable : Bool
deriving DecidableEq

namespace Chunk

def wordEnd (c : Chunk) : ℕ := c.vaddr / 4 + (c.data.length + 3) / 4

def Touches (c : Chunk) (k : ℕ) : Prop := c.vaddr / 4 ≤ k ∧ k < c.wordEnd

def Covers (c : Chunk) (a : ℕ) : Prop := c.vaddr ≤ a ∧ a < c.vaddr + c.data.length

/-- What the chunk puts at an address of the words it is folded into: its own byte, or a zero past
its end. -/
def byte (c : Chunk) (a : ℕ) : UInt8 := c.data.getD (a - c.vaddr) 0

def word (c : Chunk) (k : ℕ) : BitVec 32 := dataWord c.data (4 * (k - c.vaddr / 4))

def words (c : Chunk) : List (ℕ × BitVec 32) :=
  (range ((c.data.length + 3) / 4)).map fun j => (c.vaddr / 4 + j,dataWord c.data (4 * j))

instance (c : Chunk) (k : ℕ) : Decidable (c.Touches k) := inferInstanceAs (Decidable (_ ∧ _))

variable {c : Chunk}

theorem Covers.touches (hc : c.vaddr % 4 = 0) {a : ℕ} (h : c.Covers a) :
    c.Touches (a / 4) := by
  obtain ⟨h1,h2⟩ := h
  rw [Touches,wordEnd]
  omega

theorem mem_words {k : ℕ} {w : BitVec 32} :
    (k,w) ∈ c.words ↔ c.Touches k ∧ w = c.word k := by
  rw [words,mem_map,Touches,wordEnd,word]
  constructor
  · rintro ⟨j,hj,he⟩
    rw [List.mem_range] at hj
    cases he
    rw [Nat.add_sub_cancel_left]
    exact ⟨⟨by omega,by omega⟩,rfl⟩
  · rintro ⟨⟨h1,h2⟩,rfl⟩
    refine ⟨k - c.vaddr / 4,List.mem_range.mpr (by omega),?_⟩
    rw [show c.vaddr / 4 + (k - c.vaddr / 4) = k by omega]

theorem byteAt_word (hc : c.vaddr % 4 = 0) {a : ℕ} (h : c.Touches (a / 4)) :
    byteAt (c.word (a / 4)) (a % 4) = c.byte a := by
  obtain ⟨h1,-⟩ := h
  rw [word,byteAt_dataWord _ _ (by omega),byte]
  congr 1
  omega

end Chunk

def LoadState.add (state : LoadState) (c : Chunk) : LoadState :=
  ⟨state.initWords ++ c.words,
    if c.executable ∧ c.data ≠ [] then max state.maxExecWord c.wordEnd else state.maxExecWord⟩

theorem foldWords_ok (c : Chunk) (state : LoadState) (hc : c.vaddr % 4 = 0)
    (hv : c.vaddr < 2 ^ 32) (hl : c.data.length < 2 ^ 32) :
    foldWords c.vaddr c.data c.data.length c.executable state = .ok (state.add c) := by
  have hgen : ∀ n, 4 * n ≤ c.data.length + 3 →
      ((range n).map (4 * ·)).foldlM (foldAt c.vaddr c.data c.executable) state =
        .ok ⟨state.initWords ++
            (range n).map fun j => (c.vaddr / 4 + j,dataWord c.data (4 * j)),
          if c.executable ∧ n ≠ 0 then max state.maxExecWord (c.vaddr / 4 + n)
            else state.maxExecWord⟩ := by
    intro n
    induction n with
    | zero =>
      intro _
      simp only [List.range_zero,map_nil,foldlM_nil,append_nil,ne_eq,not_true_eq_false,
        and_false,if_false]
      rfl
    | succ n ih =>
      intro hn
      have ha : c.vaddr + 4 * n < 2 ^ 64 := by omega
      have hk : (c.vaddr + 4 * n) / 4 = c.vaddr / 4 + n := by omega
      have hk' : c.vaddr / 4 + n + 1 < 2 ^ 64 := by omega
      rw [range_succ,List.map_append,List.foldlM_append,ih (by omega)]
      simp only [List.map_singleton,foldlM_cons,foldlM_nil,bind,Except.bind,pure,
        Except.pure]
      rw [foldAt]
      simp only [usizeAdd,ha,if_true,hk,hk',foldWord_ok c.data (show 4 * n + 3 < 2 ^ 64 by omega),
        bind,Except.bind,pure,Except.pure,Except.ok.injEq,LoadState.mk.injEq,List.append_assoc,
        List.map_append,List.map_cons,map_nil,true_and]
      by_cases he : c.executable = true
      · rw [if_pos he]
        by_cases h0 : n = 0
        · subst h0
          simp [he]
        · simp only [he,h0,ne_eq,not_false_eq_true,and_self,if_true,Nat.add_eq_zero_iff,
            one_ne_zero]
          omega
      · simp [he]
  rw [foldWords,hgen _ (by omega),LoadState.add,Chunk.words,Chunk.wordEnd]
  congr 2
  have hiff : ((c.data.length + 3) / 4 ≠ 0) ↔ c.data ≠ [] := by
    rw [ne_eq,ne_eq,←List.length_eq_zero_iff]
    omega
  simp only [hiff]

def headerOf (buf : List UInt8) : Header :=
  ⟨le buf 24 4,le buf 28 4,le buf 32 4,le buf 42 2,le buf 44 2,le buf 46 2,le buf 48 2⟩

/-- The segment a program header describes, when it is loadable and not empty. -/
def segmentAt (buf : List UInt8) (i : ℕ) : Option Chunk :=
  let base := (headerOf buf).phoff + i * (headerOf buf).phentsize
  let filesz := le buf (base + 16) 4
  if le buf base 4 ≠ ptLoad ∨ filesz = 0 then none
  else some ⟨le buf (base + 8) 4,(buf.drop (le buf (base + 4) 4)).take filesz,
    le buf (base + 24) 4 % 2 = 1⟩

/-- The section a section header describes, when it is allocated program code. -/
def sectionAt (buf : List UInt8) (i : ℕ) : Option Chunk :=
  let base := (headerOf buf).shoff + i * (headerOf buf).shentsize
  let flags := le buf (base + 8) 4
  if le buf (base + 4) 4 ≠ shtProgbits ∨ flags / 4 % 2 = 0 ∨ flags / 2 % 2 = 0 then none
  else some ⟨le buf (base + 12) 4,(buf.drop (le buf (base + 16) 4)).take (le buf (base + 20) 4),
    true⟩

def segments (buf : List UInt8) : List Chunk :=
  (range (headerOf buf).phnum).filterMap (segmentAt buf)

/-- The executable sections of a file; none when the section headers do not fit it. -/
def sections (buf : List UInt8) : List Chunk :=
  let h := headerOf buf
  if h.shnum > 0 ∧ h.shoff + h.shnum * h.shentsize ≤ buf.length then
    (range h.shnum).filterMap (sectionAt buf)
  else []

variable (start : LoadState)

/-- The chunks a loop has folded: all aligned, all inside the file. -/
def Folded (chunks : List Chunk) (state : LoadState) : Prop :=
  state = chunks.foldl LoadState.add start ∧ ∀ c ∈ chunks, c.vaddr % 4 = 0

theorem Folded.snoc {start : LoadState} {chunks : List Chunk} (h : Folded start chunks state)
    {c : Chunk} (hc : c.vaddr % 4 = 0) : Folded start (chunks ++ [c]) (state.add c) := by
  obtain ⟨rfl,ha⟩ := h
  refine ⟨by rw [foldl_append,foldl_cons,List.foldl_nil],fun d hd => ?_⟩
  rcases mem_append.mp hd with hd | hd
  · exact ha d hd
  · exact List.mem_singleton.mp hd ▸ hc

theorem filterMap_range_succ {f : ℕ → Option Chunk} (i : ℕ) :
    (range (i + 1)).filterMap f = (range i).filterMap f ++ (f i).toList := by
  rw [range_succ,List.filterMap_append]
  cases h : f i with
  | none => simp [h]
  | some c => simp [h]

theorem u32_step {k : ℕ → ReaderM α}
    (h : pos + 4 < 2 ^ 64) (hk : Ensures (k (le buf pos 4)) (pos + 4) Q) :
    Ensures (Reader.u32 buf >>= k) pos Q := by
  refine (u32_ensures buf h).bind fun v q ⟨hq,hv⟩ => ?_
  subst hq hv
  exact hk

theorem u16_step {k : ℕ → ReaderM α}
    (h : pos + 2 < 2 ^ 64) (hk : Ensures (k (le buf pos 2)) (pos + 2) Q) :
    Ensures (Reader.u16 buf >>= k) pos Q := by
  refine (u16_ensures buf h).bind fun v q ⟨hq,hv⟩ => ?_
  subst hq hv
  exact hk

theorem seek_step {base size : ℕ} {k : ReaderM α}
    (hb : base < 2 ^ 32) (hi : i < 2 ^ 16) (hs : size < 2 ^ 16)
    (hk : Ensures k (base + i * size) Q) :
    Ensures (do set (← usizeAdd base (← usizeMul i size)); k) pos Q := by
  have hmul : i * size < 2 ^ 32 := by
    calc i * size ≤ 2 ^ 16 * size := Nat.mul_le_mul_right _ hi.le
      _ < 2 ^ 16 * 2 ^ 16 := Nat.mul_lt_mul_of_pos_left hs (by omega)
      _ = 2 ^ 32 := by norm_num
  have h1 : usizeMul i size = .ok (i * size) := if_pos (by omega)
  have h2 : usizeAdd base (i * size) = .ok (base + i * size) := if_pos (by omega)
  refine (Ensures.lift h1).bind fun a q ⟨ha,hq⟩ => ?_
  subst ha hq
  refine (Ensures.lift h2).bind fun a q ⟨ha,hq⟩ => ?_
  subst ha hq
  refine Ensures.set.bind fun _ q hq => ?_
  subst hq
  exact hk

theorem bytes_step {off size : ℕ} {k : List UInt8 → ReaderM α}
    (ho : off < 2 ^ 32) (hs : size < 2 ^ 32)
    (hk : ((buf.drop off).take size).length = size →
      ∀ q, Ensures (k ((buf.drop off).take size)) q Q) :
    Ensures (do set off; let data ← Reader.bytes buf size; k data) pos Q := by
  refine Ensures.set.bind fun _ q hq => ?_
  subst hq
  refine (bytes_ensures buf (by omega)).bind fun data q ⟨_,hfit,hd⟩ => ?_
  subst hd
  exact hk (by rw [List.length_take,List.length_drop]; omega) _

theorem loadSegment_ensures (hi : i < 2 ^ 16) {start : LoadState}
    (h : Folded start ((range i).filterMap (segmentAt buf)) state) :
    Ensures (loadSegment buf (headerOf buf).phoff (headerOf buf).phentsize state i) pos
      fun s _ => Folded start ((range (i + 1)).filterMap (segmentAt buf)) s := by
  have hbase : (headerOf buf).phoff < 2 ^ 32 := le_lt buf 28 4
  have hsize : (headerOf buf).phentsize < 2 ^ 16 := le_lt buf 42 2
  have hpos : (headerOf buf).phoff + i * (headerOf buf).phentsize < 2 ^ 33 := by
    have hmul : i * (headerOf buf).phentsize ≤ 2 ^ 16 * 2 ^ 16 := Nat.mul_le_mul hi.le hsize.le
    omega
  rw [filterMap_range_succ,segmentAt,loadSegment]
  refine seek_step hbase hi hsize ?_
  generalize (headerOf buf).phoff + i * (headerOf buf).phentsize = base at hpos ⊢
  refine u32_step buf (by omega) (u32_step buf (by omega) (u32_step buf (by omega)
    (u32_step buf (by omega) (u32_step buf (by omega) (u32_step buf (by omega)
      (u32_step buf (by omega) ?_))))))
  simp only [Nat.add_assoc,Nat.reduceAdd]
  by_cases hskip : le buf base 4 ≠ ptLoad ∨ le buf (base + 16) 4 = 0
  · rw [if_pos hskip,if_pos hskip,Option.toList_none,append_nil]
    exact .pure h
  · rw [if_neg hskip,if_neg hskip,Option.toList_some]
    by_cases halign : le buf (base + 8) 4 % 4 ≠ 0
    · rw [if_pos halign]
      exact .throw_bind
    · rw [if_neg halign]
      refine bytes_step buf (le_lt buf _ 4) (le_lt buf _ 4) fun hlen q => ?_
      have hfold := foldWords_ok ⟨le buf (base + 8) 4,
        (buf.drop (le buf (base + 4) 4)).take (le buf (base + 16) 4),
        le buf (base + 24) 4 % 2 = 1⟩ state (not_not.mp halign) (le_lt buf _ 4)
        (by simp only [hlen]; exact le_lt buf _ 4)
      simp only [hlen] at hfold
      refine (Ensures.lift hfold).mono fun s _ hs => ?_
      rw [hs.1]
      exact h.snoc (not_not.mp halign)

theorem loadSection_ensures (hi : i < 2 ^ 16) {start : LoadState}
    (h : Folded start ((range i).filterMap (sectionAt buf)) state) :
    Ensures (loadSection buf (headerOf buf).shoff (headerOf buf).shentsize state i) pos
      fun s _ => Folded start ((range (i + 1)).filterMap (sectionAt buf)) s := by
  have hbase : (headerOf buf).shoff < 2 ^ 32 := le_lt buf 32 4
  have hsize : (headerOf buf).shentsize < 2 ^ 16 := le_lt buf 46 2
  have hpos : (headerOf buf).shoff + i * (headerOf buf).shentsize < 2 ^ 33 := by
    have hmul : i * (headerOf buf).shentsize ≤ 2 ^ 16 * 2 ^ 16 := Nat.mul_le_mul hi.le hsize.le
    omega
  rw [filterMap_range_succ,sectionAt,loadSection]
  refine seek_step hbase hi hsize ?_
  generalize (headerOf buf).shoff + i * (headerOf buf).shentsize = base at hpos ⊢
  refine u32_step buf (by omega) (u32_step buf (by omega) (u32_step buf (by omega)
    (u32_step buf (by omega) (u32_step buf (by omega) (u32_step buf (by omega) ?_)))))
  simp only [Nat.add_assoc,Nat.reduceAdd]
  by_cases hskip : le buf (base + 4) 4 ≠ shtProgbits ∨ le buf (base + 8) 4 / 4 % 2 = 0 ∨
      le buf (base + 8) 4 / 2 % 2 = 0
  · rw [if_pos hskip,if_pos hskip,Option.toList_none,append_nil]
    exact .pure h
  · rw [if_neg hskip,if_neg hskip,Option.toList_some]
    by_cases halign : le buf (base + 12) 4 % 4 ≠ 0
    · rw [if_pos halign]
      exact .throw_bind
    · rw [if_neg halign]
      refine bytes_step buf (le_lt buf _ 4) (le_lt buf _ 4) fun hlen q => ?_
      have hfold := foldWords_ok ⟨le buf (base + 12) 4,
        (buf.drop (le buf (base + 16) 4)).take (le buf (base + 20) 4),true⟩ state
        (not_not.mp halign) (le_lt buf _ 4) (by simp only [hlen]; exact le_lt buf _ 4)
      simp only [hlen] at hfold
      refine (Ensures.lift hfold).mono fun s _ hs => ?_
      rw [hs.1]
      exact h.snoc (not_not.mp halign)

theorem check_step {c : Prop} [Decidable c] {message : String}
    {k : PUnit → ReaderM α} (hk : ¬c → Ensures (k ⟨⟩) pos Q) :
    Ensures (if c then (do let r ← throw (.err message); k r) else k ⟨⟩) pos Q := by
  by_cases hc : c
  · rw [if_pos hc]
    exact .throw_bind
  · rw [if_neg hc]
    exact hk hc

theorem readHeader_ensures :
    Ensures (readHeader buf) 0 fun h _ => h = headerOf buf := by
  rw [readHeader]
  refine (bytes_ensures buf (by omega)).bind fun magic q ⟨hq,_⟩ => ?_
  subst hq
  refine check_step fun _ => ?_
  refine (u8_ensures buf (by omega)).bind fun eiClass q ⟨hq,_⟩ => ?_
  subst hq
  refine check_step fun _ => ?_
  refine (u8_ensures buf (by omega)).bind fun eiData q ⟨hq,_⟩ => ?_
  subst hq
  refine check_step fun _ => ?_
  refine (bytes_ensures buf (by omega)).bind fun pad q ⟨hq,_⟩ => ?_
  subst hq
  refine u16_step buf (by omega) (u16_step buf (by omega) (u32_step buf (by omega)
    (u32_step buf (by omega) (u32_step buf (by omega) (u32_step buf (by omega)
      (u32_step buf (by omega) (u16_step buf (by omega) (u16_step buf (by omega)
        (u16_step buf (by omega) (u16_step buf (by omega) (u16_step buf (by omega)
          (u16_step buf (by omega) ?_))))))))))))
  exact .pure rfl

def loadedState (buf : List UInt8) : LoadState :=
  (segments buf ++ sections buf).foldl LoadState.add ⟨[],0⟩

theorem parse_ensures :
    Ensures (parse buf) 0 fun img _ =>
      layOut (headerOf buf).entry (loadedState buf) = .ok img ∧
      ∀ c ∈ segments buf ++ sections buf, c.vaddr % 4 = 0 := by
  have hphnum : (headerOf buf).phnum < 2 ^ 16 := le_lt buf 44 2
  have hshnum : (headerOf buf).shnum < 2 ^ 16 := le_lt buf 48 2
  have hshent : (headerOf buf).shentsize < 2 ^ 16 := le_lt buf 46 2
  have hshoff : (headerOf buf).shoff < 2 ^ 32 := le_lt buf 32 4
  have hentry : (headerOf buf).entry < 2 ^ 32 := le_lt buf 24 4
  have hmul : (headerOf buf).shnum * (headerOf buf).shentsize ≤ 2 ^ 16 * 2 ^ 16 :=
    Nat.mul_le_mul hshnum.le hshent.le
  rw [parse]
  refine (readHeader_ensures buf).bind fun h q hh => ?_
  subst hh
  refine (Ensures.foldlM_range (I := fun i s =>
    Folded ⟨[],0⟩ ((range i).filterMap (segmentAt buf)) s) ⟨rfl,by simp⟩
    fun i hi s p hs => loadSegment_ensures buf (by omega) hs).bind fun state q hstate => ?_
  refine Ensures.set.bind fun _ q hq => ?_
  have h1 : usizeMul (headerOf buf).shnum (headerOf buf).shentsize =
      .ok ((headerOf buf).shnum * (headerOf buf).shentsize) := if_pos (by omega)
  have h2 : usizeAdd (headerOf buf).shoff ((headerOf buf).shnum * (headerOf buf).shentsize) =
      .ok ((headerOf buf).shoff + (headerOf buf).shnum * (headerOf buf).shentsize) :=
    if_pos (by omega)
  refine (Ensures.lift h1).bind fun a q ⟨ha,_⟩ => ?_
  subst ha
  refine (Ensures.lift h2).bind fun a q ⟨ha,_⟩ => ?_
  subst ha
  have hlay (state : LoadState) (q : ℕ)
      (hs : Folded ⟨[],0⟩ (segments buf ++ sections buf) state) :
      Ensures (liftM (layOut (headerOf buf).entry state) : ReaderM ElfImage) q fun img _ =>
        layOut (headerOf buf).entry (loadedState buf) = .ok img ∧
        ∀ c ∈ segments buf ++ sections buf, c.vaddr % 4 = 0 := by
    obtain ⟨rfl,ha⟩ := hs
    have hadd : (headerOf buf).entry / 4 + 1 < 2 ^ 64 := by omega
    have hok : ∃ img, layOut (headerOf buf).entry (loadedState buf) = .ok img := by
      rw [layOut]
      simp only [usizeAdd,hadd,if_true,bind,Except.bind,pure,Except.pure]
      exact ⟨_,rfl⟩
    obtain ⟨img,himg⟩ := hok
    refine (Ensures.lift himg).mono fun b _ hb => ?_
    rw [hb.1]
    exact ⟨himg,ha⟩
  by_cases hsec : (headerOf buf).shnum > 0 ∧
      (headerOf buf).shoff + (headerOf buf).shnum * (headerOf buf).shentsize ≤ buf.length
  · rw [if_pos hsec]
    refine (Ensures.foldlM_range (I := fun i s =>
      Folded state ((range i).filterMap (sectionAt buf)) s) ⟨rfl,by simp⟩
      fun i hi s p hs => loadSection_ensures buf (by omega) hs).bind fun final q hfinal => ?_
    apply hlay
    have hsections : sections buf =
        (range (headerOf buf).shnum).filterMap (sectionAt buf) := by
      rw [sections,if_pos hsec]
    rw [hsections]
    obtain ⟨rfl,hsa⟩ := hstate
    obtain ⟨rfl,hfa⟩ := hfinal
    refine ⟨by rw [foldl_append]; rfl,fun c hc => ?_⟩
    exact (mem_append.mp hc).elim (hsa c) (hfa c)
  · rw [if_neg hsec]
    refine Ensures.bind (.pure (Q := fun s _ => s = state) rfl) fun final q hfinal => ?_
    subst hfinal
    apply hlay
    have hsections : sections buf = [] := by rw [sections,if_neg hsec]
    rw [hsections,append_nil]
    exact hstate

variable (entries : List (ℕ × BitVec 32))

def lastEntry (k : ℕ) : Option (BitVec 32) :=
  ((entries.filter fun kw => kw.1 = k).getLast?).map Prod.snd

def lastChunk (chunks : List Chunk) (k : ℕ) : Option Chunk :=
  (chunks.filter fun c => c.Touches k).getLast?

def ElfImage.wordAt (img : ElfImage) (k : ℕ) : Option (BitVec 32) :=
  if k < img.text.length then img.text[k]? else lastEntry img.initWords k

theorem getLast?_append_filter (p : α → Bool) (xs ys : List α) :
    ((xs ++ ys).filter p).getLast? =
      if ys.filter p = [] then (xs.filter p).getLast? else (ys.filter p).getLast? := by
  rw [List.filter_append]
  by_cases h : ys.filter p = []
  · rw [if_pos h,h,append_nil]
  · rw [if_neg h,List.getLast?_append]
    cases hl : (ys.filter p).getLast? with
    | none => exact absurd (List.getLast?_eq_none_iff.mp hl) h
    | some y => rfl

theorem Chunk.lastEntry_words (c : Chunk) (k : ℕ) :
    (c.words.filter fun kw => kw.1 = k) ≠ [] ↔ c.Touches k := by
  constructor
  · intro h
    obtain ⟨⟨k',w⟩,hmem⟩ := List.exists_mem_of_ne_nil _ h
    obtain ⟨hw,hk⟩ := mem_filter.mp hmem
    obtain rfl : k' = k := by simpa using hk
    exact (Chunk.mem_words.mp hw).1
  · intro h
    apply List.ne_nil_of_mem (a := (k,c.word k))
    exact mem_filter.mpr ⟨Chunk.mem_words.mpr ⟨h,rfl⟩,by simp⟩

variable (chunks : List Chunk)

theorem lastEntry_flatMap (k : ℕ) :
    lastEntry (chunks.flatMap Chunk.words) k = (lastChunk chunks k).map fun c => c.word k := by
  induction chunks using List.reverseRecOn with
  | nil => rfl
  | append_singleton chunks c ih =>
    have hwords : [c].flatMap Chunk.words = c.words := by simp
    rw [List.flatMap_append,hwords,lastEntry,getLast?_append_filter,lastChunk,
      getLast?_append_filter]
    by_cases ht : c.Touches k
    · have hne := (c.lastEntry_words k).mpr ht
      have hone : [c].filter (fun c => decide (c.Touches k)) = [c] := by simp [ht]
      rw [if_neg hne,hone,if_neg (by simp)]
      obtain ⟨⟨k',w⟩,hlast⟩ := Option.isSome_iff_exists.mp
        (List.getLast?_isSome.mpr hne)
      obtain ⟨hw,hk⟩ := mem_filter.mp (List.mem_of_getLast? hlast)
      obtain rfl : k' = k := by simpa using hk
      rw [hlast,(Chunk.mem_words.mp hw).2]
      rfl
    · have hnil : c.words.filter (fun kw => decide (kw.1 = k)) = [] := by
        by_contra hne
        exact ht ((c.lastEntry_words k).mp hne)
      have hone : [c].filter (fun c => decide (c.Touches k)) = [] := by simp [ht]
      rw [if_pos hnil,hone,if_pos rfl]
      exact ih

theorem foldl_add_initWords : (chunks.foldl LoadState.add start).initWords =
      start.initWords ++ chunks.flatMap Chunk.words := by
  induction chunks generalizing start with
  | nil => simp
  | cons c chunks ih =>
    rw [foldl_cons,ih,LoadState.add,List.append_assoc,List.flatMap_cons]

theorem foldl_add_maxExecWord (K : ℕ) :
    (chunks.foldl LoadState.add start).maxExecWord ≤ K ↔ start.maxExecWord ≤ K ∧
      ∀ c ∈ chunks, c.executable = true → c.data ≠ [] → c.wordEnd ≤ K := by
  induction chunks generalizing start with
  | nil => simp
  | cons c chunks ih =>
    rw [foldl_cons,ih,List.forall_mem_cons,LoadState.add]
    by_cases hc : c.executable = true ∧ c.data ≠ []
    · simp only [if_pos hc,Nat.max_le]
      tauto
    · simp only [if_neg hc]
      tauto

theorem layText_getElem? (len : ℕ) {k : ℕ} (hk : k < len) :
    (entries.foldl (fun text kw => if kw.1 < len then text.set kw.1 kw.2 else text)
        (replicate len ecallWord)).length = len ∧
      (entries.foldl (fun text kw => if kw.1 < len then text.set kw.1 kw.2 else text)
        (replicate len ecallWord))[k]? = some ((lastEntry entries k).getD ecallWord) := by
  induction entries using List.reverseRecOn with
  | nil => simp [hk,lastEntry]
  | append_singleton entries kw ih =>
    obtain ⟨hl,hg⟩ := ih
    rw [foldl_append,foldl_cons,List.foldl_nil,lastEntry,getLast?_append_filter]
    by_cases heq : kw.1 = k
    · have hone : [kw].filter (fun kw => decide (kw.1 = k)) = [kw] := by simp [heq]
      rw [if_pos (heq ▸ hk),hone,if_neg (by simp),List.length_set,heq,
        List.getElem?_set_self (by omega)]
      exact ⟨hl,rfl⟩
    · have hone : [kw].filter (fun kw => decide (kw.1 = k)) = [] := by simp [heq]
      rw [hone,if_pos rfl]
      split
      · rw [List.length_set,List.getElem?_set_ne heq]
        exact ⟨hl,hg⟩
      · exact ⟨hl,hg⟩

theorem layOut_ok {entry : ℕ} {img : ElfImage}
    (h : layOut entry state = .ok img) :
    (∀ k w, lastEntry state.initWords k = some w → img.wordAt k = some w) ∧
      ∀ k, k ∈ img.initWords.map Prod.fst ↔ max state.maxExecWord (entry / 4 + 1) ≤ k ∧
        k ∈ state.initWords.map Prod.fst := by
  rw [layOut,usizeAdd] at h
  split at h
  swap
  · cases h
  simp only [bind,Except.bind,pure,Except.pure,Except.ok.injEq] at h
  subst h
  generalize hlen : max state.maxExecWord (entry / 4 + 1) = len
  have hpos : 0 < len := by omega
  constructor
  · intro k w hw
    simp only [ElfImage.wordAt]
    rw [(layText_getElem? state.initWords len hpos).1]
    by_cases hk : k < len
    · rw [if_pos hk,(layText_getElem? state.initWords len hk).2,hw]
      rfl
    · have hkeep : (state.initWords.filter fun kw => decide (len ≤ kw.1)).filter
          (fun kw => decide (kw.1 = k)) = state.initWords.filter fun kw => decide (kw.1 = k) := by
        rw [List.filter_filter]
        apply List.filter_congr
        intro kw _
        by_cases heq : kw.1 = k
        · simp [heq,Nat.le_of_not_lt hk]
        · simp [heq]
      rw [if_neg hk,lastEntry,hkeep]
      exact hw
  · intro k
    simp only [mem_map,mem_filter,decide_eq_true_eq]
    constructor
    · rintro ⟨kw,⟨hmem,hle⟩,rfl⟩
      exact ⟨hle,kw,hmem,rfl⟩
    · rintro ⟨hle,kw,hmem,rfl⟩
      exact ⟨kw,⟨hmem,hle⟩,rfl⟩

/-- Every file byte of a segment that no later segment covers is in the image at its address. -/
def BytesPlaced (buf : List UInt8) (img : ElfImage) : Prop :=
  ∀ before s after, segments buf = before ++ s :: after → ∀ a, s.Covers a →
    (∀ t ∈ after, ¬t.Covers a) → ∃ w, img.wordAt (a / 4) = some w ∧ byteAt w (a % 4) = s.byte a

/-- Every word with a byte of a non-executable segment is listed among the initial words. -/
def DataListed (buf : List UInt8) (img : ElfImage) : Prop :=
  ∀ s ∈ segments buf, s.executable = false → ∀ a, s.Covers a →
    a / 4 ∈ img.initWords.map Prod.fst

/-- The last later segment or executable section folded into the word of an uncovered byte puts the
same byte there, be it its own or the padding of its last word. -/
def PaddingHarmless (buf : List UInt8) : Prop :=
  ∀ before s after, segments buf = before ++ s :: after → ∀ a, s.Covers a →
    (∀ t ∈ after, ¬t.Covers a) → ∀ c, lastChunk (after ++ sections buf) (a / 4) = some c →
      c.byte a = s.byte a

/-- Every non-executable segment starts above the entry point's word and above the last word of
every executable segment and section. -/
def DataAbove (buf : List UInt8) : Prop :=
  ∀ s ∈ segments buf, s.executable = false → s.data ≠ [] →
    (headerOf buf).entry / 4 < s.vaddr / 4 ∧
      ∀ c ∈ segments buf ++ sections buf, c.executable = true → c.data ≠ [] →
        c.wordEnd ≤ s.vaddr / 4

theorem lastChunk_split {before after later : List Chunk} {s : Chunk} {k : ℕ} (hs : s.Touches k) :
    lastChunk (before ++ s :: after ++ later) k =
      some ((lastChunk (after ++ later) k).getD s) := by
  have hsplit : before ++ s :: after ++ later = (before ++ [s]) ++ (after ++ later) := by simp
  rw [hsplit,lastChunk,getLast?_append_filter]
  by_cases hnil : (after ++ later).filter (fun c => decide (c.Touches k)) = []
  · have hone : [s].filter (fun c => decide (c.Touches k)) = [s] := by simp [hs]
    rw [if_pos hnil,getLast?_append_filter,hone,if_neg (by simp),lastChunk,hnil]
    rfl
  · obtain ⟨c,hc⟩ : ∃ c, lastChunk (after ++ later) k = some c :=
      Option.isSome_iff_exists.mp (List.getLast?_isSome.mpr hnil)
    rw [if_neg hnil,hc,Option.getD_some]
    exact hc

/-- The loader never panics; an image it returns places every uncovered byte and lists every data
word exactly when no padding or section overwrites such a byte with another and the data lies above
the code. -/
theorem parseElf32_places_iff (buf : List UInt8) :
    parseElf32 buf ≠ .error .panic ∧ ∀ img, parseElf32 buf = .ok img →
      ((BytesPlaced buf img ∧ DataListed buf img) ↔ (PaddingHarmless buf ∧ DataAbove buf)) := by
  have hrun := parse_ensures buf
  rw [Ensures] at hrun
  rw [parseElf32]
  cases hp : parse buf 0 with
  | error e =>
    rw [hp] at hrun
    refine ⟨fun h => hrun (by cases h; rfl),fun img h => ?_⟩
    cases h
  | ok result =>
    rw [hp] at hrun
    refine ⟨nofun,fun img himg => ?_⟩
    cases himg
    obtain ⟨hlay,halign⟩ := hrun
    obtain ⟨hword,hlist⟩ := layOut_ok hlay
    have hinit : (loadedState buf).initWords =
        (segments buf ++ sections buf).flatMap Chunk.words := by
      rw [loadedState,foldl_add_initWords,List.nil_append]
    -- the image's word at an uncovered byte is that of the last chunk folded into it
    have hbyte : ∀ before s after, segments buf = before ++ s :: after → ∀ a, s.Covers a →
        ((∃ w, result.1.wordAt (a / 4) = some w ∧ byteAt w (a % 4) = s.byte a) ↔
          ∀ c, lastChunk (after ++ sections buf) (a / 4) = some c → c.byte a = s.byte a) := by
      intro before s after hsplit a hcov
      have hs : s ∈ segments buf ++ sections buf := by rw [hsplit]; simp
      have htouch := hcov.touches (halign s hs)
      have hlast : lastEntry (loadedState buf).initWords (a / 4) =
          some (((lastChunk (after ++ sections buf) (a / 4)).getD s).word (a / 4)) := by
        rw [hinit,lastEntry_flatMap,hsplit,lastChunk_split htouch,Option.map_some]
      rw [hword _ _ hlast]
      cases hc : lastChunk (after ++ sections buf) (a / 4) with
      | none =>
        constructor
        · intro _ c h
          cases h
        · intro _
          exact ⟨_,rfl,by rw [Option.getD_none,Chunk.byteAt_word (halign s hs) htouch]⟩
      | some c =>
        obtain ⟨hmem,htc⟩ := mem_filter.mp (List.mem_of_getLast? hc)
        have hcmem : c ∈ segments buf ++ sections buf := by
          rw [hsplit]
          rcases mem_append.mp hmem with h | h
          · simp [h]
          · simp [h]
        have hcb := Chunk.byteAt_word (halign c hcmem) (by simpa using htc)
        rw [Option.getD_some]
        constructor
        · rintro ⟨w,hw,hb⟩ d hd
          cases hd
          cases hw
          rw [←hcb,hb]
        · intro h
          exact ⟨_,rfl,by rw [hcb,h c rfl]⟩
    have hdata : ∀ s ∈ segments buf, (∀ a, s.Covers a → a / 4 ∈ result.1.initWords.map Prod.fst) ↔
        (s.data ≠ [] → (headerOf buf).entry / 4 < s.vaddr / 4 ∧
          ∀ c ∈ segments buf ++ sections buf, c.executable = true → c.data ≠ [] →
            c.wordEnd ≤ s.vaddr / 4) := by
      intro s hs
      have hmem : ∀ a, s.Covers a → a / 4 ∈ (loadedState buf).initWords.map Prod.fst := by
        intro a hcov
        have hs' := List.mem_append_left (sections buf) hs
        rw [hinit,mem_map]
        exact ⟨(a / 4,s.word (a / 4)),List.mem_flatMap.mpr
          ⟨s,hs',Chunk.mem_words.mpr ⟨hcov.touches (halign s hs'),rfl⟩⟩,rfl⟩
      have hbound : max (loadedState buf).maxExecWord ((headerOf buf).entry / 4 + 1) ≤
          s.vaddr / 4 ↔ (headerOf buf).entry / 4 < s.vaddr / 4 ∧
            ∀ c ∈ segments buf ++ sections buf, c.executable = true → c.data ≠ [] →
              c.wordEnd ≤ s.vaddr / 4 := by
        rw [Nat.max_le,loadedState,foldl_add_maxExecWord]
        simp only [Nat.zero_le,true_and]
        rw [and_comm,Nat.lt_iff_add_one_le]
      rw [←hbound]
      constructor
      · intro h hne
        have hlen : 0 < s.data.length := List.length_pos_iff.mpr hne
        exact ((hlist _).mp (h s.vaddr ⟨le_rfl,by omega⟩)).1
      · intro h a hcov
        have hne : s.data ≠ [] := by
          intro hnil
          obtain ⟨h1,h2⟩ := hcov
          rw [hnil,List.length_nil] at h2
          omega
        exact (hlist _).mpr ⟨(h hne).trans (Nat.div_le_div_right hcov.1),hmem a hcov⟩
    constructor
    · rintro ⟨hb,hd⟩
      exact ⟨fun before s after hsplit a hcov hlater =>
          (hbyte before s after hsplit a hcov).mp (hb before s after hsplit a hcov hlater),
        fun s hs hx hne => (hdata s hs).mp (hd s hs hx) hne⟩
    · rintro ⟨hb,hd⟩
      exact ⟨fun before s after hsplit a hcov hlater =>
          (hbyte before s after hsplit a hcov).mpr (hb before s after hsplit a hcov hlater),
        fun s hs hx => (hdata s hs).mpr (hd s hs hx)⟩

/-- A file with one executable segment of eight bytes and no sections. -/
def plainFile : List UInt8 :=
  [0x7f,0x45,0x4c,0x46,1,1,0,0,0,0,0,0,0,0,0,0,2,0,0xf3,0,1,0,0,0,0,0,0,0,0x34,0,0,0,0,0,0,0,0,0,0,
   0,0x34,0,0x20,0,1,0,0x28,0,0,0,0,0,1,0,0,0,0x54,0,0,0,0,0,0,0,0,0,0,0,8,0,0,0,8,0,0,0,5,0,0,0,
   4,0,0,0,0x13,0,0,0,0x73,0,0x2a,0x2b]

/-- The file of one segment, whose only section repeats the first six bytes of the segment. -/
def shortSectionFile : List UInt8 :=
  [0x7f,0x45,0x4c,0x46,1,1,0,0,0,0,0,0,0,0,0,0,2,0,0xf3,0,1,0,0,0,0,0,0,0,0x34,0,0,0,0x5c,0,0,0,0,
   0,0,0,0x34,0,0x20,0,1,0,0x28,0,1,0,0,0,1,0,0,0,0x54,0,0,0,0,0,0,0,0,0,0,0,8,0,0,0,8,0,0,0,5,0,
   0,0,4,0,0,0,0x13,0,0,0,0x73,0,0x2a,0x2b,0,0,0,0,1,0,0,0,6,0,0,0,0,0,0,0,0x54,0,0,0,6,0,0,0,0,0,
   0,0,0,0,0,0,2,0,0,0,0,0,0,0]

theorem parseElf32_places_iff_plainFile :
    (∃ img, parseElf32 plainFile = .ok img) ∧ ∀ img, parseElf32 plainFile = .ok img →
      ((BytesPlaced plainFile img ∧ DataListed plainFile img) ↔
        (PaddingHarmless plainFile ∧ DataAbove plainFile)) := by
  refine ⟨⟨⟨0,[0x13,0x2b2a0073],[]⟩,by decide +kernel⟩,(parseElf32_places_iff plainFile).2⟩

/-- The padding of the section's last word overwrites two bytes of the segment. -/
theorem parseElf32_drops_byte : ∃ img, parseElf32 shortSectionFile = .ok img ∧
    ¬BytesPlaced shortSectionFile img := by
  refine ⟨⟨0,[0x13,0x73],[]⟩,by decide +kernel,fun h => ?_⟩
  have hseg : segments shortSectionFile =
      [] ++ ⟨0,[0x13,0,0,0,0x73,0,0x2a,0x2b],true⟩ :: [] := by decide +kernel
  obtain ⟨w,hw,hb⟩ := h [] _ [] hseg 6 ⟨by decide,by decide⟩ (by simp)
  have hword : w = 0x73 := by
    have hat : ElfImage.wordAt ⟨0,[0x13,0x73],[]⟩ (6 / 4) = some (0x73 : BitVec 32) := by
      decide +kernel
    rw [hat] at hw
    exact (Option.some.inj hw).symm
  rw [hword] at hb
  revert hb
  decide +kernel

end Binius64.ElfLoader
