import Binius64.Challenger

/-!
# Transcripts

The prover's transcript writes a tape, the verifier's reads it.
-/

namespace Binius64.FiatShamir

open ByteCodec List

inductive SerializationError where
  | writeBufferFull
  /-- The input ends inside a value. -/
  | notEnoughBytes
  /-- A tag byte names no variant. -/
  | unknownEnumVariant (name : String) (index : ℕ)
  /-- The bytes of a string are not valid. -/
  | fromUtf8Error
  /-- A value breaks the invariant of its type. -/
  | invalidConstruction (name : String)
  /-- A count does not fit the wire integer. -/
  | usizeTooLarge (size : ℕ)
deriving DecidableEq

/-- How a value reads itself: take some bytes, after a test that there are as many, and go on. -/
inductive Reader (α : Type) where
  | done (a : α)
  /-- The bytes are not those of a value. -/
  | fail (error : SerializationError)
  | take (n : ℕ) (next : List UInt8 → Reader α)

/-- A buffer to read from. -/
structure Buf (β : Type) where
  enough : ℕ → β → Bool
  copyToSlice : ℕ → β → List UInt8 × β

def Reader.run {α β : Type} (buf : Buf β) : Reader α → β → Except SerializationError α × β
  | .done a,b => (.ok a,b)
  | .fail e,b => (.error e,b)
  | .take n next,b =>
    if buf.enough n b then
      let (bytes,b) := buf.copyToSlice n b
      (next bytes).run buf b
    else (.error .notEnoughBytes,b)

/-- The tape. -/
def bytesBuf : Buf (List UInt8) := ⟨fun n b => decide (n ≤ b.length),fun n b => (b.take n,b.drop n)⟩

/-- A type with a byte form: the slices a value puts, and how it reads itself. -/
structure Codec (α : Type) where
  serialize : α → Except SerializationError (List (List UInt8))
  deserialize : Reader α
  roundTrip : ∀ a slices, serialize a = .ok slices →
    ∀ rest, deserialize.run bytesBuf (slices.flatten ++ rest) = (.ok a,rest)

def Codec.array (n : ℕ) : Codec (List UInt8) where
  serialize bytes := if bytes.length = n then .ok [bytes] else .error (.invalidConstruction "Array")
  deserialize := .take n .done
  roundTrip bytes slices h rest := by
    split at h
    · rename_i hlen
      cases h
      rw [flatten_cons,flatten_nil,append_nil,Reader.run]
      simp only [bytesBuf,←hlen,length_append,Nat.le_add_right,decide_true,if_true,take_left,
        drop_left]
      rfl
    · cases h

def Codec.u64 : Codec (BitVec 64) where
  serialize n := .ok [leBytes 8 n.toNat]
  deserialize := .take 8 fun bytes => .done (BitVec.ofNat 64 (ofLeBytes bytes))
  roundTrip n slices h rest := by
    cases h
    have hlen := leBytes_length 8 n.toNat
    have hvalue : ofLeBytes (leBytes 8 n.toNat) = n.toNat := ofLeBytes_leBytes n.isLt
    have henough : 8 ≤ (leBytes 8 n.toNat ++ rest).length := by
      rw [length_append,hlen]
      omega
    rw [flatten_cons,flatten_nil,append_nil,Reader.run]
    simp only [bytesBuf,henough,decide_true,if_true]
    rw [take_left' hlen,drop_left' hlen,hvalue,BitVec.ofNat_toNat,BitVec.setWidth_eq]
    rfl

/-- A buffer whose bytes the challenger observes. -/
structure FiatShamirBuf (β σ : Type) where
  buffer : β
  challenger : σ

/-- A growing buffer: what is written, and the room left before it grows. -/
structure BytesMut where
  bytes : List UInt8
  spare : ℕ

/-- How a buffer grows: the room after a reservation. -/
structure Growth where
  /-- The room, from the length, the room left and the room asked for. -/
  reserve : ℕ → ℕ → ℕ → ℕ
  reserve_ge : ∀ len spare additional, additional ≤ reserve len spare additional

namespace BytesMut

variable (G : Growth)

/-- The room left, after growing when there is none. -/
def chunkMut (b : BytesMut) : BytesMut :=
  if b.spare = 0 then { b with spare := G.reserve b.bytes.length 0 64 } else b

def putSlice (src : List UInt8) (b : BytesMut) : BytesMut :=
  let spare := if src.length ≤ b.spare then b.spare
    else G.reserve b.bytes.length b.spare src.length
  ⟨b.bytes ++ src,spare - src.length⟩

end BytesMut

variable {σ V : Type}

namespace FiatShamirBuf

variable (C : Challenger σ)

/-- Observe the next bytes and pass over them. -/
def advance (cnt : ℕ) (b : FiatShamirBuf (List UInt8) σ) : FiatShamirBuf (List UInt8) σ :=
  ⟨b.buffer.drop cnt,C.putSlice (b.buffer.take cnt) (C.observer b.challenger)⟩

/-- The tape with its challenger. The tape is one chunk, so bytes are taken at once. -/
def buf : Buf (FiatShamirBuf (List UInt8) σ) where
  enough n b := bytesBuf.enough n b.buffer
  copyToSlice n b := if n = 0 then ([],b) else (b.buffer.take n,advance C n b)

def advanceMut (chunk : List UInt8) (b : FiatShamirBuf BytesMut σ) : FiatShamirBuf BytesMut σ :=
  ⟨⟨b.buffer.bytes ++ chunk,b.buffer.spare - chunk.length⟩,C.putSlice chunk (C.observer b.challenger)⟩

/-- Write a slice, chunk after chunk. -/
def putSlice (G : Growth) (src : List UInt8) (b : FiatShamirBuf BytesMut σ) : FiatShamirBuf BytesMut σ :=
  putChunks (fun b => let buffer := b.buffer.chunkMut G; (buffer.spare,{ b with buffer := buffer }))
    (advanceMut C) src.length src b

end FiatShamirBuf

/-- What is written in one call. -/
inductive Item (V : Type) where
  | value (codec : Codec V) (v : V)
  | bytes (data : List UInt8)
  /-- A message written in debugging only. -/
  | debug (msg : List UInt8)

/-- What is read in one call. -/
inductive Shape (V : Type) where
  | value (codec : Codec V)
  | bytes (len : ℕ)
  /-- A message that has to be there in debugging. -/
  | debug (msg : List UInt8)

/-- What a read returns. -/
inductive Data (V : Type) where
  | value (v : V)
  | bytes (data : List UInt8)
  | unit

def Item.shape : Item V → Shape V
  | .value codec _ => .value codec
  | .bytes data => .bytes data.length
  | .debug msg => .debug msg

def Item.data : Item V → Data V
  | .value _ v => .value v
  | .bytes data => .bytes data
  | .debug _ => .unit

/-- Whether messages for debugging are written and read. -/
structure Options where
  debugAssertions : Bool
deriving DecidableEq

/-- The slices that an item puts; a value that has no byte form panics. -/
def Item.slices (options : Options) : Item V → Option (List (List UInt8))
  | .value codec v =>
    match codec.serialize v with
    | .ok slices => some slices
    | .error _ => none
  | .bytes data => some [data]
  | .debug msg => some (if options.debugAssertions then [msg] else [])

def itemSlices (options : Options) : List (Item V) → Option (List (List UInt8))
  | [] => some []
  | item :: items => do
    let first ← item.slices options
    let rest ← itemSlices options items
    return first ++ rest

/-- The ways the verifier's transcript stops. -/
inductive Error where
  | transcriptNotEmpty (remaining : ℕ)
  | notEnoughBytes
  | serialization (error : SerializationError)
  | insufficientWork (bits sampled : ℕ)
  | assertionFailed
deriving DecidableEq

def Shape.read {β : Type} (buf : Buf β) (options : Options) : Shape V → β → Except Error (Data V) × β
  | .value codec,b =>
    let (outcome,b) := codec.deserialize.run buf b
    ((outcome.mapError .serialization).map .value,b)
  | .bytes len,b =>
    if buf.enough len b then
      let (taken,b) := buf.copyToSlice len b
      (.ok (.bytes taken),b)
    else (.error .notEnoughBytes,b)
  | .debug msg,b =>
    if options.debugAssertions then
      if buf.enough msg.length b then
        let (taken,b) := buf.copyToSlice msg.length b
        if msg = taken then (.ok .unit,b) else (.error .assertionFailed,b)
      else (.error .assertionFailed,b)
    else (.ok .unit,b)

/-- Read one after another, up to the first error. -/
def readShapes {β : Type} (buf : Buf β) (options : Options) :
    List (Shape V) → β → Except Error (List (Data V)) × β
  | [],b => (.ok [],b)
  | shape :: shapes,b =>
    match shape.read buf options b with
    | (.error e,b) => (.error e,b)
    | (.ok first,b) =>
      match readShapes buf options shapes b with
      | (.error e,b) => (.error e,b)
      | (.ok rest,b) => (.ok (first :: rest),b)

/-- The largest difficulty of a proof of work. -/
def maxGrindingBits : ℕ := 32

def sampleBitsReader (C : Challenger σ) (bits : ℕ) (sampler : σ) : ℕ × σ :=
  let bits := min bits 32
  let (sampled,sampler) := C.copyToSlice 4 sampler
  let mask := 1 <<< bits - 1
  (mask &&& ofLeBytes sampled,sampler)

/-- The challenger as a buffer, which never ends. -/
def samplerBuf (C : Challenger σ) : Buf σ := ⟨fun _ _ => true,C.copyToSlice⟩

structure VerifierTranscript (σ : Type) where
  combined : FiatShamirBuf (List UInt8) σ
  options : Options

structure ProverTranscript (σ : Type) where
  combined : FiatShamirBuf BytesMut σ
  options : Options

namespace VerifierTranscript

variable (C : Challenger σ)

def withOpts (challenger : σ) (vec : List UInt8) (options : Options) : VerifierTranscript σ :=
  ⟨⟨vec,challenger⟩,options⟩

/-- Require that the tape is read out. -/
def finalize (t : VerifierTranscript σ) : Except Error Unit :=
  if t.combined.buffer ≠ [] then .error (.transcriptNotEmpty t.combined.buffer.length) else .ok ()

/-- Observe data that is not on the tape; data without a byte form panics. -/
def observe (items : List (Item V)) (t : VerifierTranscript σ) : Except Error Unit × VerifierTranscript σ :=
  match itemSlices t.options items with
  | none => (.error .assertionFailed,t)
  | some slices =>
    let challenger := slices.foldl (fun c slice => C.putSlice slice c) (C.observer t.combined.challenger)
    (.ok (),{ t with combined := { t.combined with challenger := challenger } })

variable (shapes : List (Shape V))

/-- Read what was committed to before. -/
def decommitment (t : VerifierTranscript σ) : Except Error (List (Data V)) × VerifierTranscript σ :=
  let (read,buffer) := readShapes bytesBuf t.options shapes t.combined.buffer
  (read,{ t with combined := { t.combined with buffer := buffer } })

def message (t : VerifierTranscript σ) : Except Error (List (Data V)) × VerifierTranscript σ :=
  let (read,combined) := readShapes (FiatShamirBuf.buf C) t.options shapes t.combined
  (read,{ t with combined := combined })

def sample (reader : Reader V) (t : VerifierTranscript σ) : Except Error V × VerifierTranscript σ :=
  let (value,challenger) := reader.run (samplerBuf C) (C.sampler t.combined.challenger)
  (value.mapError fun _ => .assertionFailed,{ t with combined := { t.combined with challenger := challenger } })

def sampleBits (bits : ℕ) (t : VerifierTranscript σ) : ℕ × VerifierTranscript σ :=
  let (sampled,challenger) := sampleBitsReader C bits (C.sampler t.combined.challenger)
  (sampled,{ t with combined := { t.combined with challenger := challenger } })

/-- Check a proof of work. -/
def verifyGrind (bits : ℕ) (t : VerifierTranscript σ) : Except Error (BitVec 64) × VerifierTranscript σ :=
  if bits ≤ maxGrindingBits then
    let (nonce,combined) := Codec.u64.deserialize.run (FiatShamirBuf.buf C) t.combined
    match nonce with
    | .error e => (.error (.serialization e),{ t with combined := combined })
    | .ok nonce =>
      let (sampled,t) := sampleBits C bits { t with combined := combined }
      if sampled ≠ 0 then (.error (.insufficientWork bits sampled),t) else (.ok nonce,t)
  else (.error .assertionFailed,t)

end VerifierTranscript

namespace ProverTranscript

variable (C : Challenger σ) (G : Growth)

def withOpts (challenger : σ) (options : Options) : ProverTranscript σ := ⟨⟨⟨[],0⟩,challenger⟩,options⟩

/-- The tape. -/
def finalize (t : ProverTranscript σ) : List UInt8 := t.combined.buffer.bytes

def intoVerifier (start : σ) (t : ProverTranscript σ) : VerifierTranscript σ :=
  .withOpts start t.finalize t.options

variable (items : List (Item V))

def observe (t : ProverTranscript σ) : Option (ProverTranscript σ) := do
  let slices ← itemSlices t.options items
  let challenger := slices.foldl (fun c slice => C.putSlice slice c) (C.observer t.combined.challenger)
  return { t with combined := { t.combined with challenger := challenger } }

/-- Write what was committed to before. -/
def decommitment (t : ProverTranscript σ) : Option (ProverTranscript σ) := do
  let slices ← itemSlices t.options items
  let buffer := slices.foldl (fun b slice => b.putSlice G slice) t.combined.buffer
  return { t with combined := { t.combined with buffer := buffer } }

def message (t : ProverTranscript σ) : Option (ProverTranscript σ) := do
  let slices ← itemSlices t.options items
  return { t with combined := slices.foldl (fun b slice => b.putSlice C G slice) t.combined }

def sample (reader : Reader V) (t : ProverTranscript σ) : Option (V × ProverTranscript σ) :=
  match reader.run (samplerBuf C) (C.sampler t.combined.challenger) with
  | (.error _,_) => none
  | (.ok value,challenger) => some (value,{ t with combined := { t.combined with challenger := challenger } })

variable (bits : ℕ)

def sampleBits (t : ProverTranscript σ) : ℕ × ProverTranscript σ :=
  let (sampled,challenger) := sampleBitsReader C bits (C.sampler t.combined.challenger)
  (sampled,{ t with combined := { t.combined with challenger := challenger } })

def trial (challenger : σ) (nonce : ℕ) : ℕ :=
  (sampleBitsReader C bits (C.sampler (C.putSlice (leBytes 8 nonce) (C.observer challenger)))).1

/-- Try `2 ^ k` nonces in order, until one lands: the lower half, then the upper. -/
def findNonce (bits : ℕ) (challenger : σ) : ℕ → ℕ → Option ℕ
  | 0,nonce => if trial C bits challenger nonce = 0 then some nonce else none
  | k + 1,nonce =>
    match findNonce bits challenger k nonce with
    | some found => some found
    | none => findNonce bits challenger k (nonce + 2 ^ k)

def grind (t : ProverTranscript σ) : Option (BitVec 64 × ProverTranscript σ) := do
  guard (bits ≤ maxGrindingBits)
  let nonce ← findNonce C bits t.combined.challenger 64 0
  let nonce := BitVec.ofNat 64 nonce
  let t ← message C G [.value Codec.u64 nonce] t
  let (_,t) := sampleBits C bits t
  return (nonce,t)

end ProverTranscript

inductive Call (V : Type) where
  | message (items : List (Item V))
  | decommitment (items : List (Item V))
  | observe (items : List (Item V))
  | sample (reader : Reader V)
  | sampleBits (bits : ℕ)
  | grind (bits : ℕ)

/-- What a call tells: the data that is written or read, or what is sampled or ground. -/
inductive Answer (V : Type) where
  | data (read : List (Data V))
  | observed
  | challenge (v : V)
  | bits (sampled : ℕ)
  /-- The nonce of a proof of work. -/
  | nonce (n : BitVec 64)

def ProverTranscript.call (C : Challenger σ) (G : Growth) :
    Call V → ProverTranscript σ → Option (Answer V × ProverTranscript σ)
  | .message items,t => do
    let t ← t.message C G items
    return (.data (items.map Item.data),t)
  | .decommitment items,t => do
    let t ← t.decommitment G items
    return (.data (items.map Item.data),t)
  | .observe items,t => do
    let t ← t.observe C items
    return (.observed,t)
  | .sample reader,t => do
    let (value,t) ← t.sample C reader
    return (.challenge value,t)
  | .sampleBits bits,t =>
    let (sampled,t) := t.sampleBits C bits
    some (.bits sampled,t)
  | .grind bits,t => do
    let (nonce,t) ← t.grind C G bits
    return (.nonce nonce,t)

def VerifierTranscript.call (C : Challenger σ) :
    Call V → VerifierTranscript σ → Except Error (Answer V) × VerifierTranscript σ
  | .message items,t =>
    let (read,t) := t.message C (items.map Item.shape)
    (read.map .data,t)
  | .decommitment items,t =>
    let (read,t) := t.decommitment (items.map Item.shape)
    (read.map .data,t)
  | .observe items,t =>
    let (outcome,t) := t.observe C items
    (outcome.map fun _ => .observed,t)
  | .sample reader,t =>
    let (value,t) := t.sample C reader
    (value.map .challenge,t)
  | .sampleBits bits,t =>
    let (sampled,t) := t.sampleBits C bits
    (.ok (.bits sampled),t)
  | .grind bits,t =>
    let (nonce,t) := t.verifyGrind C bits
    (nonce.map .nonce,t)

/-- The prover makes calls in turn. -/
def ProverTranscript.run (C : Challenger σ) (G : Growth) :
    List (Call V) → ProverTranscript σ → Option (List (Answer V) × ProverTranscript σ)
  | [],t => some ([],t)
  | call :: calls,t => do
    let (answer,t) ← t.call C G call
    let (answers,t) ← ProverTranscript.run C G calls t
    return (answer :: answers,t)

/-- The verifier makes the mirrored calls in turn, up to the first error. -/
def VerifierTranscript.run (C : Challenger σ) :
    List (Call V) → VerifierTranscript σ → Except Error (List (Answer V)) × VerifierTranscript σ
  | [],t => (.ok [],t)
  | call :: calls,t =>
    match t.call C call with
    | (.error e,t) => (.error e,t)
    | (.ok answer,t) =>
      match VerifierTranscript.run C calls t with
      | (.error e,t) => (.error e,t)
      | (.ok answers,t) => (.ok (answer :: answers),t)

end Binius64.FiatShamir
