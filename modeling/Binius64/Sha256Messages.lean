import Binius64.ByteVectors
import Binius64.Multiplexers
import Binius64.Sha256Compression
import Mathlib.Data.Fin.VecNotation

/-!
# SHA-256 of messages

The padding and chaining of SHA-256 over any compression, and the two gadgets that compute it.
-/

namespace Binius64.Sha256

open MachineWord (Word loHalf hiHalf isMsbTrue)
open WordGates CheckedRun Bignum LaneWords Multiplexers WordBytes ByteVectors List
open BitVec (allOnes and_allOnes and_zero toNat_inj xor_zero)

variable (compress : Compression)

/-- The initial state. -/
def iv : Fin 8 → BitVec 32 :=
  ![0x6a09e667,0xbb67ae85,0x3c6ef372,0xa54ff53a,0x510e527f,0x9b05688c,0x1f83d9ab,0x5be0cd19]

def chain (word : ℕ → BitVec 32) (nBlocks : ℕ) : Fin 8 → BitVec 32 :=
  (range nBlocks).foldl (fun state b => compress state fun i => word (16 * b + i)) iv

/-- Padding: a one bit, zeros, and the length in bits as eight bytes. -/
def pad (bytes : List Byte) : List Byte :=
  bytes ++ (0x80 :: replicate ((119 - bytes.length % 64) % 64) 0 ++
    (range 8).map fun k => byteAt (BitVec.ofNat 64 (8 * bytes.length)) (7 - k))

def beWordAt (bytes : List Byte) (j : ℕ) : BitVec 32 :=
  ofBytes 32 (fun k => bytes.getD (4 * j + (3 - k)) 0) 4

def digest (bytes : List Byte) : Fin 8 → BitVec 32 :=
  let padded := pad bytes
  chain compress (beWordAt padded) (padded.length / 64)

def beMessageBytes (message : List Word) (len : ℕ) : List Byte :=
  (range len).map fun p => byteAt (message.getD (p / 4) 0) (3 - p % 4)

def blocksOf (word : ℕ → Word) (nBlocks : ℕ) : List Block :=
  (range nBlocks).map fun b i => word (16 * b + i)

def compressBlocks (advice : Advice) : State → List Block → Gadget State
  | state, first :: second :: rest => do
    let next ← sha256Compress2xSeq compress advice state first second
    compressBlocks advice next rest
  | state, [block] => .ok (sha256Compress compress state block)
  | state, [] => .ok state

def delimitedMessage (message : List Word) (lenBytes : ℕ) : List Word :=
  let nMessageWords := lenBytes / 4
  let boundaryBytes := lenBytes % 4
  message.take nMessageWords ++
    [if 0 < boundaryBytes then
      let shiftAmount := (4 - boundaryBytes) * 8
      let masked := band (message.getD nMessageWords 0) (((0xffffffff : Word) >>> shiftAmount) <<< shiftAmount)
      bxor masked ((0x80 : Word) <<< ((3 - boundaryBytes) * 8))
    else 0x80000000]

/-- The gadget for a length known when the circuit is built. -/
def sha256Fixed (advice : Advice) (message : List Word) (lenBytes : ℕ) : Gadget State := do
  ensure (message.length = divCeil lenBytes 4) "message.len() must equal len_bytes.div_ceil(4)"
  ensure (lenBytes * 8 ≤ 2 ^ 32 - 1) "Message length in bits must fit in 32 bits"
  let nBlocks := divCeil (lenBytes + 9) 64
  let nPaddedWords := nBlocks * 16
  let started := delimitedMessage message lenBytes
  let resized := started ++ replicate (nPaddedWords - 2 - started.length) 0
  let padded := resized ++ [0] ++ [BitVec.ofNat 64 (lenBytes * 8)]
  let state ← compressBlocks compress advice (wide iv) (blocksOf (fun j => padded.getD j 0) nBlocks)
  return if nBlocks % 2 = 1 then state else fun i => clearHighBits (state i) 32

def swapBytes32 (input : Word) : Word :=
  let step1 := bxor (shl (band input 0x00ff00ff00ff00ff) 8) (band (shr input 8) 0x00ff00ff00ff00ff)
  bxor (shl (band step1 0x0000ffff0000ffff) 16) (band (shr step1 16) 0x0000ffff0000ffff)

/-- The words of a byte vector as 32-bit words, highest byte first. -/
def messageBe (data : List Word) : List Word :=
  data.flatMap fun word => [clearHighBits (swapBytes32 word) 32,shr (swapBytes32 word) 32]

/-- A word whose first bytes are kept, with the delimiter behind them. -/
def delimited (x : Word) (i : ℕ) : Word :=
  bxor (band x (((0xffffffff : Word) <<< ((4 - i) * 8)) &&& 0xffffffff)) ((0x80000000 : Word) >>> (i * 8))

def boundaryWord (messageBe : List Word) (lenBytes : Word) : Word :=
  let boundaryMessageWord := singleWireMultiplex messageBe (shr lenBytes 2)
  singleWireMultiplex ((range 4).map (delimited boundaryMessageWord)) (band lenBytes 3)

def endBlockIndex (lenBytes : Word) : Word := shr (iadd lenBytes 8) 6

def paddedMessageWord (messageBe : List Word) (lenBytes boundary : Word) (wordIndex : ℕ) : Word :=
  let wBd := shr lenBytes 2
  let isMessageWord := icmpUlt (BitVec.ofNat 64 wordIndex) wBd
  let isBoundaryWord := icmpEq (BitVec.ofNat 64 wordIndex) wBd
  let isLengthBlock := icmpEq (BitVec.ofNat 64 (wordIndex / 16)) (endBlockIndex lenBytes)
  let msgWord := if wordIndex < messageBe.length then messageBe.getD wordIndex 0 else 0
  let pastWord := if wordIndex % 16 = 15 then select isLengthBlock (shl lenBytes 3) 0 else 0
  select isMessageWord msgWord (select isBoundaryWord boundary pastWord)

def chainStates (advice : Advice) : State → List Block → Gadget (List State)
  | state, first :: second :: rest => do
    let out ← sha256Compress2xSeq compress advice state first second
    let stateFirst : State := fun i => shr (out i) 32
    let stateSecond : State := fun i => clearHighBits (out i) 32
    let states ← chainStates advice stateSecond rest
    return stateFirst :: stateSecond :: states
  | state, [block] => .ok [sha256Compress compress state block]
  | _, [] => .ok []

theorem double_lt (j : Fin 4) : 2 * j.val < 8 := by omega

theorem double_succ_lt (j : Fin 4) : 2 * j.val + 1 < 8 := by omega

def pack4x64b (state : State) : Fin 4 → Word := fun j =>
  bxor (state ⟨2 * j + 1,double_succ_lt j⟩) (shl (state ⟨2 * j,double_lt j⟩) 32)

def sha256Varlen (advice : Advice) (message : ByteVec) : Gadget (Fin 4 → Word) := do
  ensure (message.data.length * 64 ≤ 2 ^ 32 - 1) "length of message in bits must fit within 32 bits"
  let maxLenBytes := message.data.length * 8
  let nBlocks := divCeil (message.data.length + 2) 8
  assertFalse "len_check" (icmpUlt (BitVec.ofNat 64 maxLenBytes) message.lenBytes)
  let words := messageBe message.data
  let boundary := boundaryWord words message.lenBytes
  let word := paddedMessageWord words message.lenBytes boundary
  let states ← chainStates compress advice (wide iv) (blocksOf word nBlocks)
  let final ← multiWireMultiplex (states.map fun state => ofFn (pack4x64b state))
    (endBlockIndex message.lenBytes)
  return fun i => final.getD i 0

variable {compress : Compression}

theorem chain_congr {word word' : ℕ → BitVec 32} {n : ℕ} (h : ∀ j < 16 * n, word j = word' j) :
    chain compress word n = chain compress word' n := by
  induction n with
  | zero => rfl
  | succ n ih =>
    have hprev := ih fun j hj => h j (by omega)
    unfold chain at hprev ⊢
    rw [range_succ,foldl_append,foldl_append,hprev]
    exact congrArg (compress _) (funext fun i => h _ (by omega))

theorem length_pad (bytes : List Byte) : (pad bytes).length = 64 * ((bytes.length + 8) / 64 + 1) := by
  unfold pad
  rw [length_append,length_append,length_cons,length_replicate,length_map,
    length_range]
  omega

theorem pad_getD (bytes : List Byte) {p blocks : ℕ} (hblocks : blocks = (bytes.length + 8) / 64 + 1)
    (hp : p < 64 * blocks) :
    (pad bytes).getD p 0 = if p < bytes.length then bytes.getD p 0 else if p = bytes.length then 0x80
      else if p + 8 < 64 * blocks then 0
      else byteAt (BitVec.ofNat 64 (8 * bytes.length)) (64 * blocks - 1 - p) := by
  unfold pad
  have hzeros : bytes.length + 9 + (119 - bytes.length % 64) % 64 = 64 * blocks := by omega
  generalize (119 - bytes.length % 64) % 64 = zeros at hzeros
  by_cases hin : p < bytes.length
  · rw [getD_append _ _ _ _ hin,if_pos hin]
  · rw [getD_append_right _ _ _ _ (by omega),if_neg hin]
    by_cases heq : p = bytes.length
    · rw [if_pos heq,heq,Nat.sub_self]
      rfl
    · have hsucc : p - bytes.length = p - bytes.length - 1 + 1 := by omega
      rw [if_neg heq,hsucc,cons_append,getD_cons_succ]
      by_cases hzero : p + 8 < 64 * blocks
      · have hrep : p - bytes.length - 1 < zeros := by omega
        rw [if_pos hzero,getD_append _ _ _ _ (by rwa [length_replicate]),getD_replicate _ hrep]
      · have hrep : (replicate zeros (0 : Byte)).length ≤ p - bytes.length - 1 := by
          rw [length_replicate]
          omega
        have hlast : p - bytes.length - 1 - zeros < 8 := by omega
        have hpos : 7 - (p - bytes.length - 1 - zeros) = 64 * blocks - 1 - p := by omega
        rw [if_neg hzero,getD_append_right _ _ _ _ hrep,length_replicate,getD_eq_getElem?_getD,
          getElem?_map,getElem?_range hlast,Option.map_some,Option.getD_some,hpos]

def paddedWord (words : List Word) (len j : ℕ) : Word :=
  if j < len / 4 then words.getD j 0
  else if j = len / 4 then delimited (words.getD j 0) (len % 4)
  else if j + 1 = 16 * ((len + 8) / 64 + 1) then BitVec.ofNat 64 (8 * len) else 0

theorem byteAt_delimited (x : Word) {i k : ℕ} (hi : i < 4) (hk : k < 4) :
    byteAt (delimited x i) (3 - k) = if k < i then byteAt x (3 - k) else if k = i then 0x80 else 0 := by
  have hmask : ∀ i k : Fin 4, byteAt (((0xffffffff : Word) <<< ((4 - i.val) * 8)) &&& 0xffffffff) (3 - k.val) =
      if k.val < i.val then allOnes 8 else 0 := by decide
  have hone : ∀ i k : Fin 4, byteAt ((0x80000000 : Word) >>> (i.val * 8)) (3 - k.val) =
      if k.val = i.val then 0x80 else 0 := by decide
  rw [delimited,bxor,band,byteAt_xor,byteAt_and,hmask ⟨i,hi⟩ ⟨k,hk⟩,hone ⟨i,hi⟩ ⟨k,hk⟩]
  dsimp only
  by_cases hlt : k < i
  · rw [if_pos hlt,if_pos hlt,if_neg (by omega),and_allOnes]
    exact xor_zero
  · rw [if_neg hlt,if_neg hlt]
    by_cases heq : k = i
    · rw [if_pos heq,BitVec.ofNat_eq_ofNat,and_zero,BitVec.zero_xor]
    · rw [if_neg heq,BitVec.ofNat_eq_ofNat,and_zero,xor_zero]

theorem byteAt_high {n k : ℕ} (hn : n < 2 ^ 32) (hk : 4 ≤ k) : byteAt (BitVec.ofNat 64 n) k = 0 := by
  have hpow : 2 ^ 32 ≤ 2 ^ (8 * k) := Nat.pow_le_pow_right (by decide) (by omega)
  apply BitVec.eq_of_toNat_eq
  rw [byteAt,BitVec.toNat_setWidth,BitVec.toNat_ushiftRight,toNat_const (by omega),Nat.shiftRight_eq_div_pow,
    Nat.div_eq_of_lt (by omega)]
  rfl

theorem beMessageBytes_getD (message : List Word) {len p : ℕ} (h : p < len) :
    (beMessageBytes message len).getD p 0 = byteAt (message.getD (p / 4) 0) (3 - p % 4) := by
  rw [getD_eq_getElem?_getD,beMessageBytes,getElem?_map,getElem?_range h]
  rfl

@[simp] theorem length_beMessageBytes (message : List Word) (len : ℕ) :
    (beMessageBytes message len).length = len := by
  rw [beMessageBytes,length_map,length_range]

theorem beWordAt_pad (words : List Word) {len j : ℕ} (hlen : 8 * len < 2 ^ 32)
    (hj : j < 16 * ((len + 8) / 64 + 1)) :
    beWordAt (pad (beMessageBytes words len)) j = loHalf (paddedWord words len j) := by
  obtain ⟨blocks,hblocks⟩ : ∃ blocks, blocks = (len + 8) / 64 + 1 := ⟨_,rfl⟩
  refine eq_of_byteAt (n := 4) (by decide) fun k hk => ?_
  rw [beWordAt,byteAt_ofBytes _ (by omega),if_pos hk,pad_getD _ (by rw [length_beMessageBytes]) (by omega),
    length_beMessageBytes,loHalf,byteAt_setWidth _ (by omega),paddedWord,← hblocks]
  by_cases hin : 4 * j + (3 - k) < len
  · have hword : (4 * j + (3 - k)) / 4 = j := by omega
    have hbyte : 3 - (4 * j + (3 - k)) % 4 = k := by omega
    rw [if_pos hin,beMessageBytes_getD _ hin,hword,hbyte]
    by_cases hfull : j < len / 4
    · rw [if_pos hfull]
    · have hk' : k = 3 - (3 - k) := by omega
      have hmod : 3 - k < len % 4 := by omega
      conv_rhs => rw [hk']
      rw [if_neg hfull,if_pos (by omega),byteAt_delimited _ (Nat.mod_lt _ (by decide)) (by omega),if_pos hmod,
        ← hk']
  · have hnot : ¬j < len / 4 := by omega
    rw [if_neg hin,if_neg hnot]
    by_cases hbd : j = len / 4
    · have hk' : k = 3 - (3 - k) := by omega
      have hpast : ¬3 - k < len % 4 := by omega
      have hzero : 4 * j + (3 - k) + 8 < 64 * blocks := by omega
      have heq : 3 - k = len % 4 ↔ 4 * j + (3 - k) = len := by omega
      conv_rhs => rw [hk']
      rw [if_pos hbd,byteAt_delimited _ (Nat.mod_lt _ (by decide)) (by omega),if_neg hpast,if_pos hzero]
      simp only [heq]
    · have hne : ¬4 * j + (3 - k) = len := by omega
      rw [if_neg hne,if_neg hbd]
      by_cases hlast : j + 1 = 16 * blocks
      · have hpos : 64 * blocks - 1 - (4 * j + (3 - k)) = k := by omega
        rw [if_pos hlast,if_neg (by omega),hpos]
      · rw [if_neg hlast,byteAt_zero]
        by_cases hzero : 4 * j + (3 - k) + 8 < 64 * blocks
        · rw [if_pos hzero]
        · rw [if_neg hzero,byteAt_high hlen (by omega)]

theorem digest_eq {word : ℕ → Word} (words : List Word) {len : ℕ} (hlen : 8 * len < 2 ^ 32)
    (h : ∀ j < 16 * ((len + 8) / 64 + 1), word j = paddedWord words len j) :
    digest compress (beMessageBytes words len) =
      chain compress (fun j => loHalf (word j)) ((len + 8) / 64 + 1) := by
  have hblocks : (pad (beMessageBytes words len)).length / 64 = (len + 8) / 64 + 1 := by
    rw [length_pad,length_beMessageBytes]
    exact Nat.mul_div_cancel_left _ (by decide)
  unfold digest
  dsimp only
  rw [hblocks]
  exact chain_congr fun j hj => by rw [beWordAt_pad words hlen hj,h j hj]

theorem foldl_blocksOf (word : ℕ → Word) (n : ℕ) :
    (blocksOf word n).foldl (fun state block => compress state (low block)) iv =
      chain compress (fun j => loHalf (word j)) n := by
  rw [blocksOf,foldl_map]
  rfl

theorem compressBlocks_settles (advice : Advice) : ∀ (state : State) (blocks : List Block),
    Settles (advice.Follows (sha256CompressHint compress)) (compressBlocks compress advice state blocks)
      fun out => low out = blocks.foldl (fun state block => compress state (low block)) (low state) ∧
        (blocks.length % 2 = 1 → out = wide (low out))
  | state,[] => Settles.of_ok rfl ⟨rfl,fun h => absurd h (by simp)⟩
  | state,[block] => Settles.of_ok rfl ⟨low_wide _,fun _ => by rw [sha256Compress,low_wide]⟩
  | state,first :: second :: rest => by
    rw [compressBlocks]
    refine (sha256Compress2xSeq_settles advice state first second).bind fun next hnext => ?_
    have hlow : low next = compress (compress (low state) (low first)) (low second) := by
      funext i
      rw [low,hnext,loHalf_ofHalves]
    obtain ⟨hsound,hret⟩ := compressBlocks_settles advice next rest
    refine ⟨fun out hout => ?_,hret⟩
    obtain ⟨hchain,hodd⟩ := hsound out hout
    rw [hchain,hlow]
    refine ⟨rfl,fun hlen => ?_⟩
    rw [length_cons,length_cons] at hlen
    exact (hodd (by omega)).trans (by rw [hchain,hlow])

theorem chainStates_settles (advice : Advice) : ∀ (start : Fin 8 → BitVec 32) (blocks : List Block),
    Settles (advice.Follows (sha256CompressHint compress)) (chainStates compress advice (wide start) blocks)
      (· = (range blocks.length).map fun k =>
        wide ((blocks.take (k + 1)).foldl (fun state block => compress state (low block)) start))
  | _,[] => Settles.of_ok rfl rfl
  | start,[block] => Settles.of_ok rfl (by rw [sha256Compress,low_wide]; rfl)
  | start,first :: second :: rest => by
    rw [chainStates]
    refine (sha256Compress2xSeq_settles advice (wide start) first second).bind fun out hout => ?_
    have hfirst : (fun i => shr (out i) 32) = wide (compress start (low first)) := by
      funext i
      rw [hout,shr_half,hiHalf_ofHalves,low_wide]
      rfl
    have hsecond : (fun i => clearHighBits (out i) 32) =
        wide (compress (compress start (low first)) (low second)) := by
      funext i
      rw [hout,clearHighBits_half,loHalf_ofHalves,low_wide]
      rfl
    dsimp only
    rw [hfirst,hsecond]
    refine (chainStates_settles advice _ rest).bind fun states hstates => Settles.of_ok rfl ?_
    rw [hstates,length_cons,length_cons,range_succ_eq_map,map_cons,
      range_succ_eq_map,map_cons,map_cons,map_map,map_map]
    rfl

theorem length_delimitedMessage {message : List Word} {len : ℕ} (h : message.length = divCeil len 4) :
    (delimitedMessage message len).length = len / 4 + 1 := by
  rw [divCeil] at h
  unfold delimitedMessage
  rw [length_append,length_take,length_singleton]
  omega

theorem delimitedMessage_getD {message : List Word} {len : ℕ} (h : message.length = divCeil len 4) (j : ℕ) :
    (delimitedMessage message len).getD j 0 = if j < len / 4 then message.getD j 0
      else if j = len / 4 then delimited (message.getD j 0) (len % 4) else 0 := by
  rw [divCeil] at h
  have hlen : (message.take (len / 4)).length = len / 4 := by
    rw [length_take]
    omega
  have hmask : ∀ i : Fin 4, 0 < i.val → (((0xffffffff : Word) <<< ((4 - i.val) * 8)) &&& 0xffffffff) =
      (((0xffffffff : Word) >>> ((4 - i.val) * 8)) <<< ((4 - i.val) * 8)) := by decide
  have hone : ∀ i : Fin 4, (0x80000000 : Word) >>> (i.val * 8) = (0x80 : Word) <<< ((3 - i.val) * 8) := by decide
  have hmod := Nat.mod_lt len (show 0 < 4 by decide)
  have hlast : (if 0 < len % 4 then
      bxor (band (message.getD (len / 4) 0)
        (((0xffffffff : Word) >>> ((4 - len % 4) * 8)) <<< ((4 - len % 4) * 8)))
        ((0x80 : Word) <<< ((3 - len % 4) * 8))
      else 0x80000000) = delimited (message.getD (len / 4) 0) (len % 4) := by
    by_cases hpos : 0 < len % 4
    · have hm := hmask ⟨len % 4,hmod⟩ hpos
      have ho := hone ⟨len % 4,hmod⟩
      dsimp only at hm ho
      rw [if_pos hpos,delimited,hm,ho]
    · have hzero : len % 4 = 0 := by omega
      have hm : (((0xffffffff : Word) <<< ((4 - 0) * 8)) &&& 0xffffffff) = 0#64 := by decide
      rw [if_neg hpos,hzero,delimited,hm,band,and_zero]
      rfl
  unfold delimitedMessage
  dsimp only
  rw [hlast,getD_snoc,hlen]
  by_cases hlt : j < len / 4
  · rw [if_pos hlt,if_pos hlt,getD_eq_getElem?_getD,getElem?_take_of_lt hlt,getD_eq_getElem?_getD]
  · rw [if_neg hlt,if_neg hlt]
    by_cases heq : j = len / 4
    · rw [if_pos heq,if_pos heq,heq]
    · rw [if_neg heq,if_neg heq]

theorem sha256Fixed_settles (advice : Advice) {message : List Word} {len : ℕ}
    (h : message.length = divCeil len 4) (hlen : len * 8 < 2 ^ 32) :
    Settles (advice.Follows (sha256CompressHint compress)) (sha256Fixed compress advice message len)
      (· = wide (digest compress (beMessageBytes message len))) := by
  have hblocks : divCeil (len + 9) 64 = (len + 8) / 64 + 1 := by
    rw [divCeil]
    omega
  have hstarted := length_delimitedMessage h
  unfold sha256Fixed
  rw [ensure_ok h,ok_bind,ensure_ok (show len * 8 ≤ 2 ^ 32 - 1 by omega),ok_bind]
  dsimp only
  rw [hblocks]
  refine (compressBlocks_settles advice _ _).bind fun out hout => Settles.of_ok rfl ?_
  obtain ⟨hchain,hodd⟩ := hout
  rw [low_wide,foldl_blocksOf,← digest_eq message (by omega) fun j hj => ?_] at hchain
  · rw [← hchain]
    by_cases hlast : ((len + 8) / 64 + 1) % 2 = 1
    · rw [if_pos hlast]
      exact hodd (by rwa [blocksOf,length_map,length_range])
    · rw [if_neg hlast]
      exact funext fun i => clearHighBits_half _
  · have hresized : (delimitedMessage message len ++ replicate
        (((len + 8) / 64 + 1) * 16 - 2 - (delimitedMessage message len).length) 0).length =
        ((len + 8) / 64 + 1) * 16 - 2 := by
      rw [length_append,length_replicate]
      omega
    rw [getD_snoc,length_append,hresized,length_singleton,getD_snoc,hresized,getD_resized,
      delimitedMessage_getD h,paddedWord,Nat.mul_comm len 8]
    by_cases hfull : j < len / 4
    · rw [if_pos (by omega),if_pos (by omega),if_pos hfull,if_pos hfull]
    · rw [if_neg hfull,if_neg hfull]
      by_cases hbd : j = len / 4
      · rw [if_pos (by omega),if_pos (by omega),if_pos hbd,if_pos hbd]
      · rw [if_neg hbd,if_neg hbd]
        by_cases hlast : j + 1 = 16 * ((len + 8) / 64 + 1)
        · rw [if_neg (by omega),if_pos (by omega),if_pos hlast]
        · rw [if_neg hlast,if_pos (by omega)]
          split
          · rfl
          · split
            · rfl
            · rfl

theorem byteAt_swapBytes32 (x : Word) {k : ℕ} (hk : k < 8) :
    byteAt (swapBytes32 x) k = byteAt x (if k < 4 then 3 - k else 11 - k) := by
  have hpair : ∀ k : Fin 8, byteAt (0x00ff00ff00ff00ff : Word) k.val =
      if k.val % 2 = 0 then allOnes 8 else 0 := by decide
  have hquad : ∀ k : Fin 8, byteAt (0x0000ffff0000ffff : Word) k.val =
      if k.val % 4 < 2 then allOnes 8 else 0 := by decide
  have hand (b : Byte) : b &&& 0 = 0 := and_zero
  have hright (b : Byte) : b ^^^ 0 = b := xor_zero
  have hleft (b : Byte) : 0 ^^^ b = b := BitVec.zero_xor
  have hstep (mask y : Word) (s : ℕ) {k : ℕ} (hk : k < 8) :
      byteAt (bxor (shl (band y mask) (8 * s)) (band (shr y (8 * s)) mask)) k =
        (if k < s then 0 else byteAt y (k - s) &&& byteAt mask (k - s)) ^^^
          (byteAt y (s + k) &&& byteAt mask k) := by
    have hshl : shl (band y mask) (8 * s) = (y &&& mask) <<< (8 * s) := rfl
    have hshr : shr y (8 * s) = y >>> (8 * s) := rfl
    rw [bxor,hshl,band,hshr,byteAt_xor,byteAt_shiftLeft _ _ (by omega),byteAt_and,byteAt_and,byteAt_ushiftRight]
  have hfirst {k : ℕ} (hk : k < 8) :
      byteAt (bxor (shl (band x 0x00ff00ff00ff00ff) 8) (band (shr x 8) 0x00ff00ff00ff00ff)) k =
        byteAt x (if k % 2 = 0 then k + 1 else k - 1) := by
    refine (hstep _ x 1 hk).trans ?_
    have hk1 := hpair ⟨k - 1,by omega⟩
    dsimp only at hk1
    rw [hk1,hpair ⟨k,hk⟩]
    dsimp only
    by_cases heven : k % 2 = 0
    · rw [if_pos heven,if_pos heven,and_allOnes,Nat.add_comm 1 k]
      by_cases hzero : k < 1
      · rw [if_pos hzero,hleft]
      · rw [if_neg hzero,if_neg (by omega),hand,hleft]
    · rw [if_neg heven,if_neg heven,if_neg (by omega),if_pos (by omega),and_allOnes,
        hand,hright]
  unfold swapBytes32
  dsimp only
  refine (hstep _ _ 2 hk).trans ?_
  have hk2 := hquad ⟨k - 2,by omega⟩
  dsimp only at hk2
  rw [hk2,hquad ⟨k,hk⟩]
  dsimp only
  by_cases hlow : k % 4 < 2
  · rw [if_pos hlow,and_allOnes,hfirst (show 2 + k < 8 by omega)]
    have hpos : (if (2 + k) % 2 = 0 then 2 + k + 1 else 2 + k - 1) = if k < 4 then 3 - k else 11 - k := by
      split
      · split
        · omega
        · omega
      · split
        · omega
        · omega
    rw [hpos]
    by_cases hzero : k < 2
    · rw [if_pos hzero,hleft]
    · rw [if_neg hzero,if_neg (show ¬(k - 2) % 4 < 2 by omega),hand,hleft]
  · rw [if_neg hlow,if_neg (by omega),if_pos (by omega),and_allOnes,hfirst (show k - 2 < 8 by omega),
      hand,hright]
    congr 1
    split
    · split
      · omega
      · omega
    · split
      · omega
      · omega

theorem length_messageBe (data : List Word) : (messageBe data).length = 2 * data.length := by
  induction data with
  | nil => rfl
  | cons word data ih =>
    have hcons : messageBe (word :: data) =
      clearHighBits (swapBytes32 word) 32 :: shr (swapBytes32 word) 32 :: messageBe data := rfl
    rw [hcons,length_cons,length_cons,ih,length_cons]
    omega

theorem messageBe_getD (data : List Word) {j : ℕ} (h : j < 2 * data.length) :
    (messageBe data).getD j 0 = if j % 2 = 0 then clearHighBits (swapBytes32 (data.getD (j / 2) 0)) 32
      else shr (swapBytes32 (data.getD (j / 2) 0)) 32 := by
  induction data generalizing j with
  | nil => exact absurd h (by simp)
  | cons word data ih =>
    have hcons : messageBe (word :: data) =
      clearHighBits (swapBytes32 word) 32 :: shr (swapBytes32 word) 32 :: messageBe data := rfl
    rw [hcons]
    match j with
    | 0 => rfl
    | 1 => rfl
    | j + 2 =>
      rw [length_cons] at h
      have hdiv : (j + 2) / 2 = j / 2 + 1 := by omega
      have hmod : (j + 2) % 2 = j % 2 := by omega
      rw [getD_cons_succ,getD_cons_succ,ih (by omega),hdiv,hmod,getD_cons_succ]

theorem beMessageBytes_messageBe (data : List Word) {len : ℕ} (h : len ≤ 8 * data.length) :
    beMessageBytes (messageBe data) len = messageBytes data len := by
  refine map_congr_left fun p hp => ?_
  have hlt := mem_range.mp hp
  have hword : p / 4 / 2 = p / 8 := by omega
  rw [messageBe_getD _ (by omega),hword]
  by_cases heven : p / 4 % 2 = 0
  · have hbyte : 3 - (3 - p % 4) = p % 8 := by omega
    rw [if_pos heven,clearHighBits_half,ofU32,byteAt_setWidth _ (by omega),loHalf,byteAt_setWidth _ (by omega),
      byteAt_swapBytes32 _ (by omega),if_pos (by omega),hbyte]
  · have hbyte : 11 - (4 + (3 - p % 4)) = p % 8 := by omega
    have hshr (y : Word) : byteAt (shr y 32) (3 - p % 4) = byteAt y (4 + (3 - p % 4)) :=
      byteAt_ushiftRight y 4 _
    rw [if_neg heven,hshr,byteAt_swapBytes32 _ (by omega),if_neg (by omega),hbyte]

theorem boundaryWord_eq {words : List Word} {lenBytes : Word} (hroom : words.length ≤ 2 ^ 64)
    (hlen : lenBytes.toNat ≤ 4 * words.length) :
    boundaryWord words lenBytes = delimited (words.getD (lenBytes.toNat / 4) 0) (lenBytes.toNat % 4) := by
  have hsel : (band lenBytes 3).toNat = lenBytes.toNat % 4 := by
    rw [band,BitVec.toNat_and]
    exact Nat.and_two_pow_sub_one_eq_mod lenBytes.toNat 2
  have hlt : (band lenBytes 3).toNat < 4 := by omega
  unfold boundaryWord
  dsimp only
  rw [singleWireMultiplex_eq (by simpa using hlt) (by simp),hsel,getD_eq_getElem?_getD,
    getElem?_map,getElem?_range (by omega)]
  change delimited (singleWireMultiplex words (shr lenBytes 2)) (lenBytes.toNat % 4) = _
  by_cases hfull : lenBytes.toNat % 4 = 0
  · have hm (x : Word) : delimited x 0 = 0x80000000 := by
      have hmask : (((0xffffffff : Word) <<< ((4 - 0) * 8)) &&& 0xffffffff) = 0#64 := by decide
      rw [delimited,hmask,band,and_zero]
      rfl
    rw [hfull,hm,hm]
  · have hshr : (shr lenBytes 2).toNat = lenBytes.toNat / 4 := toNat_shr lenBytes 2
    rw [singleWireMultiplex_eq (by omega) hroom,hshr]

theorem toNat_endBlockIndex (lenBytes : Word) (h : lenBytes.toNat + 8 < 2 ^ 64) :
    (endBlockIndex lenBytes).toNat = (lenBytes.toNat + 8) / 64 := by
  have hsum : (iadd lenBytes 8).toNat = lenBytes.toNat + 8 := by
    have hadd : iadd lenBytes 8 = lenBytes + 8 + 0#64 := rfl
    rw [hadd,BitVec.add_zero,BitVec.toNat_add]
    exact Nat.mod_eq_of_lt h
  rw [endBlockIndex,toNat_shr,hsum]
  rfl

theorem paddedMessageWord_eq {words : List Word} {lenBytes : Word} (hroom : words.length < 2 ^ 32)
    (hlen : lenBytes.toNat ≤ 4 * words.length) {j : ℕ} (hj : j < 16 * ((lenBytes.toNat + 8) / 64 + 1)) :
    paddedMessageWord words lenBytes (boundaryWord words lenBytes) j = paddedWord words lenBytes.toNat j := by
  have hshr : (shr lenBytes 2).toNat = lenBytes.toNat / 4 := toNat_shr lenBytes 2
  have hjsmall : j < 2 ^ 64 := by omega
  have hend := toNat_endBlockIndex lenBytes (by omega)
  have hmessage : isMsbTrue (icmpUlt (BitVec.ofNat 64 j) (shr lenBytes 2)) =
      decide (j < lenBytes.toNat / 4) := by
    rw [isMsbTrue_icmpUlt,toNat_const hjsmall,hshr]
  have hboundary : isMsbTrue (icmpEq (BitVec.ofNat 64 j) (shr lenBytes 2)) =
      decide (j = lenBytes.toNat / 4) := by
    rw [isMsbTrue_icmpEq,decide_eq_decide,← toNat_inj,toNat_const hjsmall,hshr]
  have hlength : isMsbTrue (icmpEq (BitVec.ofNat 64 (j / 16)) (endBlockIndex lenBytes)) =
      decide (j / 16 = (lenBytes.toNat + 8) / 64) := by
    rw [isMsbTrue_icmpEq,decide_eq_decide,← toNat_inj,toNat_const (by omega),hend]
  have hbits : shl lenBytes 3 = BitVec.ofNat 64 (8 * lenBytes.toNat) := by
    have hshl : shl lenBytes 3 = lenBytes <<< 3 := rfl
    apply BitVec.eq_of_toNat_eq
    rw [hshl,BitVec.toNat_shiftLeft,BitVec.toNat_ofNat,Nat.shiftLeft_eq,Nat.mul_comm]
  unfold paddedMessageWord paddedWord
  dsimp only
  rw [select,hmessage,select,hboundary,select,hlength,hbits,boundaryWord_eq (by omega) hlen]
  by_cases hin : j < lenBytes.toNat / 4
  · rw [decide_eq_true hin,if_pos rfl,if_pos hin,if_pos (by omega)]
  · rw [decide_eq_false hin,if_neg Bool.false_ne_true,if_neg hin]
    by_cases hbd : j = lenBytes.toNat / 4
    · rw [decide_eq_true hbd,if_pos rfl,if_pos hbd,hbd]
    · rw [decide_eq_false hbd,if_neg Bool.false_ne_true,if_neg hbd]
      by_cases hcol : j % 16 = 15
      · by_cases hblock : j / 16 = (lenBytes.toNat + 8) / 64
        · rw [if_pos hcol,decide_eq_true hblock,if_pos rfl,if_pos (by omega)]
        · rw [if_pos hcol,decide_eq_false hblock,if_neg Bool.false_ne_true,if_neg (by omega)]
      · rw [if_neg hcol,if_neg (by omega)]

theorem sha256Varlen_settles (advice : Advice) {message : ByteVec}
    (hcap : message.data.length * 64 < 2 ^ 32) (h : message.lenBytes.toNat ≤ 8 * message.data.length) :
    Settles (advice.Follows (sha256CompressHint compress)) (sha256Varlen compress advice message)
      (· = pack4x64b (wide (digest compress (messageBytes message.data message.lenBytes.toNat)))) := by
  have hwords := length_messageBe message.data
  have hend := toNat_endBlockIndex message.lenBytes (by omega)
  have hcheck : assertFalse "len_check"
      (icmpUlt (BitVec.ofNat 64 (message.data.length * 8)) message.lenBytes) = .ok () := by
    rw [assertFalse_eq_ok,isMsbTrue_icmpUlt,toNat_const (by omega)]
    exact decide_eq_false (by omega)
  have hin : (message.lenBytes.toNat + 8) / 64 < divCeil (message.data.length + 2) 8 := by
    rw [divCeil]
    omega
  have hblocks : divCeil (message.data.length + 2) 8 ≤ 2 ^ 64 := by
    rw [divCeil]
    omega
  unfold sha256Varlen
  rw [ensure_ok (show message.data.length * 64 ≤ 2 ^ 32 - 1 by omega),ok_bind]
  dsimp only
  rw [hcheck,ok_bind]
  refine (chainStates_settles advice iv _).bind fun states hstates => ?_
  have hlen : states.length = divCeil (message.data.length + 2) 8 := by
    rw [hstates,length_map,length_range,blocksOf,length_map,length_range]
  rw [multiWireMultiplex_eq (n := 4) (by rwa [length_map,hlen,hend]) (by rwa [length_map,hlen])
    (by decide) (by simp),ok_bind,hend]
  refine Settles.of_ok rfl (funext fun i => ?_)
  have hstate : (states.map fun state => ofFn (pack4x64b state)).getD ((message.lenBytes.toNat + 8) / 64) [] =
      ofFn (pack4x64b (wide (digest compress (messageBytes message.data message.lenBytes.toNat)))) := by
    rw [getD_eq_getElem?_getD,getElem?_map,hstates,getElem?_map,getElem?_range
      (by rwa [blocksOf,length_map,length_range]),Option.map_some,blocksOf,←map_take,
      take_range,Nat.min_eq_left hin]
    have hfold := @foldl_blocksOf compress (paddedMessageWord (messageBe message.data)
      message.lenBytes (boundaryWord (messageBe message.data) message.lenBytes))
      ((message.lenBytes.toNat + 8) / 64 + 1)
    rw [blocksOf] at hfold
    rw [hfold,← beMessageBytes_messageBe _ h,digest_eq _ (by omega) fun j hj =>
      paddedMessageWord_eq (by omega) (by omega) hj]
    rfl
  rw [hstate,getD_eq_getElem?_getD,List.getElem?_ofFn,dif_pos i.isLt]
  rfl

/-- Both gadgets return the SHA-256 digest of the first bytes of the message, over any compression,
whatever the hinted states are and whatever the words hold behind the message; honest hints meet
their constraints, and the gadgets agree wherever both apply. -/
theorem sha256_messages_exact (compress : Compression) (advice : Advice) :
    (∀ (message : List Word) (lenBytes : ℕ), message.length = divCeil lenBytes 4 → lenBytes * 8 < 2 ^ 32 →
      Settles (advice.Follows (sha256CompressHint compress)) (sha256Fixed compress advice message lenBytes)
        (· = wide (digest compress (beMessageBytes message lenBytes)))) ∧
    (∀ message : ByteVec, message.data.length * 64 < 2 ^ 32 →
      message.lenBytes.toNat ≤ 8 * message.data.length →
      Settles (advice.Follows (sha256CompressHint compress)) (sha256Varlen compress advice message)
        (· = pack4x64b (wide (digest compress (messageBytes message.data message.lenBytes.toNat))))) ∧
    ∀ (message : ByteVec) (words : List Word) (state : State) (packed : Fin 4 → Word),
      message.data.length * 64 < 2 ^ 32 → message.lenBytes.toNat ≤ 8 * message.data.length →
      words.length = divCeil message.lenBytes.toNat 4 →
      beMessageBytes words message.lenBytes.toNat = messageBytes message.data message.lenBytes.toNat →
      sha256Fixed compress advice words message.lenBytes.toNat = .ok state →
      sha256Varlen compress advice message = .ok packed → packed = pack4x64b state := by
  refine ⟨fun message lenBytes => sha256Fixed_settles advice,fun message => sha256Varlen_settles advice,?_⟩
  intro message words state packed hcap hlen hwords hsame hfixed hvar
  have hstate := (sha256Fixed_settles advice hwords (by omega)).1 state hfixed
  have hpacked := (sha256Varlen_settles advice hcap hlen).1 packed hvar
  rw [hpacked,hstate,hsame]

end Binius64.Sha256
