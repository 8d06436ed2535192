import Binius64.MerkleChannel

/-!
# Merkle channels in step

A verifier's Merkle channel mirrors a prover's: it samples the same words, receives the commitments
that were sent and reads back the leaves that were opened.
-/

namespace Binius64.MerkleChannel

open Ntt (Buffer)
open FiatShamir ReplayedRuns ByteCodec MerkleTree MerkleProver List
open OracleChannel (merkleTranscriptChannel)

/-- The calls of a verifier's channel mirror those of a prover's. -/
structure Mirrored {F σ τ K K' : Type} [Zero F] (R : Replay σ τ) (T : Prop)
    (P : MerkleIPProverChannel F σ K) (V : MerkleIPVerifierChannel F τ K')
    (Committed : K → K' → Buffer F → ℕ → Prop) : Prop where
  /-- The words sampled are the same, of as many bits as asked for. -/
  sampleBits : ∀ bits, Mirrors R T (P.sampleBits bits) (V.sampleBits bits) fun w w' =>
    w = w' ∧ w.toNat < 2 ^ bits
  assertZero : ∀ u, V.assertZero 0 u = .ok ((),u)
  commitment : ∀ (data : Buffer F) (k : ℕ), k ≤ data.logLen →
    Mirrors R T (P.sendMerkleCommitment data (1 <<< k)) (V.recvMerkleCommitment (1 <<< k) (data.logLen - k))
      fun c c' => Committed c c' data k
  openings : ∀ {c c' data k} (indices : List (BitVec 64)), Committed c c' data k →
    (∀ idx ∈ indices, idx.toNat < 2 ^ (data.logLen - k)) →
    Mirrors R T (P.sendOpenings c data indices) (V.recvOpenings c' indices)
      fun _ vals => vals = (indices.map fun idx => data.chunk k idx.toNat).flatten
  vector : ∀ {c c' data k}, Committed c c' data k →
    Mirrors R T (P.sendCommittedVector c data) (V.recvCommittedVector c') fun _ vals => vals = data.iterScalars

section Transcripts

variable {F σ : Type} {n : ℕ} (C : Challenger σ) (G : Growth)

/-- The verifier's transcript holds what the prover wrote later; both challengers are in one state. -/
def transcriptReplay : Replay (ProverTranscript σ) (VerifierTranscript σ) where
  Leads t t' := t'.options = t.options ∧ ∃ written, t'.finalize = t.finalize ++ written
  At t f v := v.options = t.options ∧ v.combined.challenger = t.combined.challenger ∧
    f.finalize = t.finalize ++ v.combined.buffer
  refl t := ⟨rfl,[],(append_nil _).symm⟩
  trans := by
    rintro s t u ⟨hst,w,hw⟩ ⟨htu,w',hw'⟩
    exact ⟨htu.trans hst,w ++ w',by rw [hw',hw,append_assoc]⟩

variable {α : Type}

theorem mirrors_of_tape {β : Type} {T : Prop} {write : Writing (ProverTranscript σ) α}
    {read : Reading (VerifierTranscript σ) Stop β} {P : α → β → Prop}
    (hreturns : T → ∀ t, ∃ r, write t = some r)
    (h : ∀ t a t', write t = some (a,t') → ∃ written, t'.finalize = t.finalize ++ written ∧
      t'.options = t.options ∧ ∃ b, P a b ∧ ∀ rest,
        read ⟨⟨written ++ rest,t.combined.challenger⟩,t.options⟩ =
          .ok (b,⟨⟨rest,t'.combined.challenger⟩,t.options⟩)) :
    Mirrors transcriptReplay T write read P := by
  intro t
  refine ⟨fun ht => hreturns ht t,fun a t' hrun => ?_⟩
  obtain ⟨written,hwritten,hoptions,b,hb,hread⟩ := h t a t' hrun
  refine ⟨⟨hoptions,written,hwritten⟩,b,hb,fun f v hf hat => ?_⟩
  obtain ⟨hsame,rest,hrest⟩ := hf
  obtain ⟨hopts,hchallenger,htape⟩ := hat
  have hbuffer : v.combined.buffer = written ++ rest := by
    rw [hrest,hwritten,append_assoc] at htape
    exact (append_cancel_left htape).symm
  have hstate : v = ⟨⟨written ++ rest,t.combined.challenger⟩,t.options⟩ := by
    rw [←hbuffer,←hchallenger,←hopts]
  refine ⟨⟨⟨rest,t'.combined.challenger⟩,t.options⟩,?_,hoptions.symm,rfl,hrest⟩
  rw [hstate]
  exact hread rest

theorem sampleBits_mirrors [Zero F] [DecidableEq F] (T : Prop) (scalar : Codec F) (bits : ℕ) :
    Mirrors transcriptReplay T
      (fun t : ProverTranscript σ =>
        let (sampled,t) := t.sampleBits C bits
        some (BitVec.ofNat 64 sampled,t))
      (orPanic ((merkleTranscriptChannel C scalar n).sampleBits bits))
      fun w w' => w = w' ∧ w.toNat < 2 ^ bits := by
  refine mirrors_of_tape (fun _ t => ⟨_,rfl⟩) fun t a t' h => ?_
  cases h
  refine ⟨[],(append_nil _).symm,rfl,_,⟨rfl,?_⟩,fun rest => rfl⟩
  have hmask : (t.sampleBits C bits).1 < 2 ^ min bits 32 := by
    have hpow : (1 <<< min bits 32) - 1 < 2 ^ min bits 32 := by
      rw [Nat.shiftLeft_eq,one_mul]
      exact Nat.sub_lt (Nat.two_pow_pos _) Nat.one_pos
    exact lt_of_le_of_lt Nat.and_le_left hpow
  have hle : 2 ^ min bits 32 ≤ 2 ^ bits := Nat.pow_le_pow_right (by decide) (min_le_left _ _)
  rw [BitVec.toNat_ofNat]
  exact lt_of_le_of_lt (Nat.mod_le _ _) (lt_of_lt_of_le hmask hle)

theorem calls_mirror {V : Type} {T : Prop} {calls : List (Call V)}
    (hreturns : T → ∀ t : ProverTranscript σ, ∃ r, t.run C G calls = some r) :
    Mirrors transcriptReplay T (fun t : ProverTranscript σ => t.run C G calls)
      (fun v => match VerifierTranscript.run C calls v with
        | (.ok answers,v) => .ok (answers,v)
        | (.error _,_) => .error Stop.panic) fun answers answers' => answers = answers' := by
  refine mirrors_of_tape hreturns fun t answers t' h => ?_
  obtain ⟨written,hwritten,hoptions,hread⟩ := run_step C G h
  refine ⟨written,hwritten,hoptions,answers,rfl,fun rest => ?_⟩
  simp only [hread rest]

variable (H : HashSuite n) (codec : ScalarCodec F)

structure CommittedTo (c : ProverMerkleCommitment n) (c' : Commitment n) (data : Buffer F) (k : ℕ) :
    Prop where
  le : k ≤ data.logLen
  tree : BinaryMerkleTree.new H codec.toFixedSizeSerializeBytes data.iterScalars (2 ^ k) = .ok c.committed
  root : c.committed.root = .ok c'.root
  depth : c.depth = data.logLen - k
  logLeafSize : c.logLeafSize = k
  depth' : c'.depth = data.logLen - k
  leafSize : c'.leafSize = 2 ^ k

variable (data : Buffer F) {k : ℕ} {c : ProverMerkleCommitment n} {c' : Commitment n}

theorem iterScalars_length : data.iterScalars.length = 2 ^ data.logLen := by
  rw [Buffer.iterScalars,length_map,length_range,Nat.shiftLeft_eq,one_mul]

theorem buffer_opens (hk : k ≤ data.logLen) :
    ∃ tree root, BinaryMerkleTree.new H codec.toFixedSizeSerializeBytes data.iterScalars (2 ^ k) = .ok tree ∧
      tree.logLen = data.logLen - k ∧ tree.root = .ok root ∧
      verifyVector H codec.toFixedSizeSerializeBytes root data.iterScalars (2 ^ k) = .ok () ∧
      ∀ layerDepth ≤ data.logLen - k, ∃ layer, tree.layer layerDepth = .ok layer ∧
        verifyLayer H root layerDepth layer = .ok () ∧
        ∀ idx < 2 ^ (data.logLen - k), ∃ branch bytes, tree.branch idx layerDepth = .ok branch ∧
          writeAll (branch.map Digest.serialize) = .ok bytes ∧
          ∀ rest, verifyOpening H codec.toFixedSizeSerializeBytes idx
            ((data.iterScalars.drop (idx * 2 ^ k)).take (2 ^ k)) layerDepth (data.logLen - k) layer
              (bytes ++ rest) = .ok ((),rest) := by
  have hpow : 2 ^ data.logLen = 2 ^ (data.logLen - k) * 2 ^ k := by rw [←pow_add,Nat.sub_add_cancel hk]
  refine tree_opens H codec.toFixedSizeSerializeBytes (Nat.two_pow_pos k).ne' ?_ ?_ fun x _ => codec.total x
  · rw [iterScalars_length,hpow,Nat.mul_mod_left]
  · rw [iterScalars_length,hpow,Nat.mul_div_cancel _ (Nat.two_pow_pos k)]

theorem chunk_eq {idx : ℕ} (hk : k ≤ data.logLen) (hidx : idx < 2 ^ (data.logLen - k)) :
    data.chunk k idx = (data.iterScalars.drop (idx * 2 ^ k)).take (2 ^ k) := by
  have hin : (idx + 1) * 2 ^ k ≤ 2 ^ data.logLen := by
    have hpow : 2 ^ data.logLen = 2 ^ (data.logLen - k) * 2 ^ k := by rw [←pow_add,Nat.sub_add_cancel hk]
    rw [hpow]
    exact Nat.mul_le_mul_right _ hidx
  rw [add_mul,one_mul] at hin
  refine ext_getElem? fun j => ?_
  simp only [Buffer.chunk,Buffer.iterScalars,Nat.shiftLeft_eq,one_mul,getElem?_take]
  by_cases hj : j < 2 ^ k
  · rw [if_pos hj,getElem?_drop,getElem?_map,getElem?_map,getElem?_range hj,
      getElem?_range (by omega),Option.map_some,Option.map_some]
  · rw [if_neg hj,getElem?_map,getElem?_eq_none (by rw [length_range]; omega)]
    rfl

theorem reads_value {V : Type} {value : Codec V} {v : V} {options : Options} {tape rest : List UInt8}
    {challenger challenger' : σ}
    (h : VerifierTranscript.message C ([Item.value value v].map Item.shape) ⟨⟨tape,challenger⟩,options⟩ =
      (.ok ([Item.value value v].map Item.data),⟨⟨rest,challenger'⟩,options⟩)) :
    value.deserialize.run (FiatShamirBuf.buf C) ⟨tape,challenger⟩ = (.ok v,⟨rest,challenger'⟩) := by
  simp only [VerifierTranscript.message,map_cons,map_nil,Item.shape,Item.data,readShapes,
    Shape.read] at h
  cases hrun : value.deserialize.run (FiatShamirBuf.buf C) ⟨tape,challenger⟩ with
  | mk outcome b =>
    rw [hrun] at h
    cases outcome with
    | error e => cases h
    | ok read =>
      cases h
      rfl

theorem commitment_mirrors [Zero F] [DecidableEq F] (T : Prop) (scalar : Codec F) (data : Buffer F)
    (hk : k ≤ data.logLen) :
    Mirrors transcriptReplay T (sendMerkleCommitment C G H codec data (1 <<< k))
      ((verifierMerkleTranscriptChannel C H codec scalar).recvMerkleCommitment (1 <<< k) (data.logLen - k))
      fun c c' => CommittedTo H codec c c' data k := by
  obtain ⟨tree,root,hnew,hlen,hroot,-,-⟩ := buffer_opens H codec data hk
  have hshift : 1 <<< k = 2 ^ k := by rw [Nat.shiftLeft_eq,one_mul]
  have hlog : Nat.log2 (1 <<< k) = k := by rw [hshift,Nat.log2_two_pow]
  have hpower : (1 <<< k).isPowerOfTwo := ⟨k,hshift⟩
  have hleaves : BinaryMerkleTree.fromLeaves H codec.toFixedSizeSerializeBytes
      (chunks (1 <<< k) data.iterScalars) = .ok tree := by
    rw [BinaryMerkleTree.new] at hnew
    split at hnew
    · cases hnew
    · split at hnew
      · cases hnew
      · rw [hshift]
        exact hnew
  have hwrite : ∀ t : ProverTranscript σ, ∃ t', t.message C G [.value (Codec.array n) root.bytes] = some t' ∧
      sendMerkleCommitment C G H codec data (1 <<< k) t = some (⟨tree,data.logLen - k,k⟩,t') := by
    intro t
    have hslices : itemSlices t.options [.value (Codec.array n) root.bytes] = some [root.bytes] := by
      simp only [itemSlices,Item.slices,Codec.array,if_pos root.sized]
      rfl
    refine ⟨_,congrArg (fun slices => slices >>= _) hslices,?_⟩
    simp only [sendMerkleCommitment,hlog,guard,if_pos hpower,if_pos hk,hleaves,Except.toOption,
      Option.pure_def,Option.bind_eq_bind,Option.bind_some,hroot,hlen,ProverTranscript.message,hslices]
  refine mirrors_of_tape (fun _ t => ?_) fun t a t' h => ?_
  · obtain ⟨t',-,hrun⟩ := hwrite t
    exact ⟨_,hrun⟩
  · obtain ⟨t₁,hmessage,hrun⟩ := hwrite t
    rw [hrun] at h
    cases h
    obtain ⟨written,hwritten,hoptions,hread⟩ := message_step C G hmessage
    refine ⟨written,hwritten,hoptions,⟨root,data.logLen - k,1 <<< k⟩,
      ⟨hk,hnew,hroot,rfl,rfl,rfl,hshift⟩,fun rest => ?_⟩
    have hreceived : (Codec.array n).deserialize.run (FiatShamirBuf.buf C)
        ⟨written ++ rest,t.combined.challenger⟩ = (.ok root.bytes,⟨rest,t'.combined.challenger⟩) :=
      reads_value C (hread rest)
    have hcall : orStop Stop.transcript ((merkleTranscriptChannel C scalar n).recvMerkleCommitment (1 <<< k)
        (data.logLen - k)) ⟨⟨written ++ rest,t.combined.challenger⟩,t.options⟩ =
          .ok (⟨root.bytes,data.logLen - k,1 <<< k⟩,⟨⟨rest,t'.combined.challenger⟩,t.options⟩) := by
      simp only [orStop,merkleTranscriptChannel,hreceived]
      rfl
    refine CheckedRun.state_bind_eq_ok.mpr ⟨_,_,hcall,?_⟩
    simp only [root.sized,dite_true]
    rfl

theorem decommitment_bytes (bytes : List (List UInt8)) (t : ProverTranscript σ) :
    ∃ t', t.decommitment G (bytes.map (Item.bytes (V := Unit))) = some t' ∧
      t'.finalize = t.finalize ++ bytes.flatten ∧ t'.options = t.options ∧
      t'.combined.challenger = t.combined.challenger := by
  have hslices : ∀ bytes : List (List UInt8),
      itemSlices t.options (bytes.map (Item.bytes (V := Unit))) = some bytes := by
    intro bytes
    induction bytes with
    | nil => rfl
    | cons first bytes ih =>
      rw [map_cons,itemSlices,Item.slices,ih]
      rfl
  exact ⟨_,congrArg (fun slices => slices >>= _) (hslices bytes),putBytes_spec G bytes _,rfl,rfl⟩

theorem openingBytes_run {data : Buffer F}
    (hc : CommittedTo H codec c c' data k) {layerDepth idx : ℕ} {layer branch : List (MerkleTree.Digest n)}
    {siblings : List UInt8} (hidx : idx < 2 ^ (data.logLen - k))
    (hbranch : c.committed.branch idx layerDepth = .ok branch)
    (hsiblings : writeAll (branch.map Digest.serialize) = .ok siblings)
    (hopen : ∀ rest, verifyOpening H codec.toFixedSizeSerializeBytes idx
      ((data.iterScalars.drop (idx * 2 ^ k)).take (2 ^ k)) layerDepth (data.logLen - k) layer
        (siblings ++ rest) = .ok ((),rest)) :
    ∃ bytes, openingBytes codec c data layerDepth idx = some bytes ∧ ∀ rest,
      recvOpening H codec.toFixedSizeSerializeBytes (2 ^ k) layerDepth (data.logLen - k) layer idx
        (bytes ++ rest) = .ok (data.chunk k idx,rest) := by
  obtain ⟨leaf,hleaf⟩ : ∃ leaf, leafBytes codec.toFixedSizeSerializeBytes (data.chunk k idx) = .ok leaf :=
    exists_writeAll fun x _ => codec.total x
  refine ⟨leaf ++ siblings,?_,fun rest => ?_⟩
  · simp only [openingBytes,hc.logLeafSize,hleaf,hbranch,hsiblings,Except.toOption,Option.pure_def,
      Option.bind_eq_bind,Option.bind_some]
  · have hsize : (data.chunk k idx).length = 2 ^ k := by
      rw [Buffer.chunk,length_map,length_range,Nat.shiftLeft_eq,one_mul]
    have hread := readMany_writeAll codec.roundTrip hleaf (siblings ++ rest)
    rw [hsize,←append_assoc] at hread
    have hverify := hopen rest
    rw [←chunk_eq data hc.le hidx] at hverify
    exact CheckedRun.state_bind_eq_ok.mpr ⟨_,_,hread,
      CheckedRun.state_bind_eq_ok.mpr ⟨_,_,hverify,rfl⟩⟩

theorem openings_run {write : ℕ → Option (List UInt8)} {read : ℕ → Decoder Failure (List F)}
    {leaf : ℕ → List F} {indices : List ℕ}
    (h : ∀ idx ∈ indices, ∃ bytes, write idx = some bytes ∧ ∀ rest, read idx (bytes ++ rest) =
      .ok (leaf idx,rest)) :
    ∃ openings, indices.mapM write = some openings ∧ ∀ rest,
      indices.mapM read (openings.flatten ++ rest) = .ok (indices.map leaf,rest) := by
  induction indices with
  | nil => exact ⟨[],rfl,fun rest => rfl⟩
  | cons idx indices ih =>
    obtain ⟨bytes,hbytes,hread⟩ := h idx mem_cons_self
    obtain ⟨openings,hopenings,hrest⟩ := ih fun idx' hidx => h idx' (mem_cons_of_mem _ hidx)
    refine ⟨bytes :: openings,?_,fun rest => ?_⟩
    · rw [mapM_cons,hbytes,hopenings]
      rfl
    · rw [mapM_cons,flatten_cons,append_assoc]
      exact CheckedRun.state_bind_eq_ok.mpr ⟨_,_,hread _,
        CheckedRun.state_bind_eq_ok.mpr ⟨_,_,hrest rest,rfl⟩⟩

theorem decommit_run {decoder : Decoder Failure α} {v : VerifierTranscript σ} {a : α}
    {rest : List UInt8} (h : decoder v.combined.buffer = .ok (a,rest)) :
    decommit decoder v = .ok (a,⟨⟨rest,v.combined.challenger⟩,v.options⟩) := by
  simp only [decommit,h]

theorem lift_run {check : Except Failure α} {a : α} (h : check = .ok a) (tape : List UInt8) :
    (liftM check : Decoder Failure α) tape = .ok (a,tape) := by
  rw [h]
  rfl

theorem openings_mirror [Zero F] [DecidableEq F] (T : Prop) (scalar : Codec F)
    {data : Buffer F}
    (hc : CommittedTo H codec c c' data k) (indices : List (BitVec 64))
    (hindices : ∀ idx ∈ indices, idx.toNat < 2 ^ (data.logLen - k)) :
    Mirrors transcriptReplay T (sendOpenings (σ := σ) G codec c data indices)
      ((verifierMerkleTranscriptChannel C H codec scalar).recvOpenings c' indices)
      fun _ vals => vals = (indices.map fun idx => data.chunk k idx.toNat).flatten := by
  obtain ⟨tree,root,hnew,-,hroot,-,hlayers⟩ := buffer_opens H codec data hc.le
  have htree : tree = c.committed := Except.ok.inj (hnew.symm.trans hc.tree)
  rw [htree] at hroot hlayers
  have hsame : root = c'.root := Except.ok.inj (hroot.symm.trans hc.root)
  rw [hsame] at hlayers
  have hall : ∀ idx ∈ indices.map BitVec.toNat, idx < 2 ^ (data.logLen - k) := by
    intro idx hidx
    obtain ⟨word,hword,rfl⟩ := mem_map.mp hidx
    exact hindices word hword
  have hcheck : (indices.map BitVec.toNat).all (· < 2 ^ (data.logLen - k)) = true :=
    all_eq_true.mpr fun idx hidx => decide_eq_true (hall idx hidx)
  have hcheck' : (indices.map BitVec.toNat).all (· < 1 <<< (data.logLen - k)) = true := by
    simp only [Nat.shiftLeft_eq,one_mul]
    exact hcheck
  have hdepth := min_le_right (Nat.size ((indices.map BitVec.toNat).length - 1)) (data.logLen - k)
  obtain ⟨layer,hlayer,hverify,hbranches⟩ := hlayers _ hdepth
  obtain ⟨layerBytes,hlayerBytes⟩ : ∃ bytes, (writeAll (layer.map Digest.serialize) : Encoded Failure) =
      .ok bytes := exists_writeAll fun d _ => ⟨d.bytes,rfl⟩
  have hopened : ∀ idx ∈ indices.map BitVec.toNat, ∃ bytes, openingBytes codec c data
      (min (Nat.size ((indices.map BitVec.toNat).length - 1)) (data.logLen - k)) idx = some bytes ∧
        ∀ rest, recvOpening H codec.toFixedSizeSerializeBytes (2 ^ k)
          (min (Nat.size ((indices.map BitVec.toNat).length - 1)) (data.logLen - k)) (data.logLen - k) layer
            idx (bytes ++ rest) = .ok (data.chunk k idx,rest) := by
    intro idx hidx
    obtain ⟨branch,siblings,hbranch,hsiblings,hopen⟩ := hbranches idx (hall idx hidx)
    exact openingBytes_run H codec hc (hall idx hidx) hbranch hsiblings hopen
  obtain ⟨openings,hopenings,hread⟩ := openings_run hopened
  have hwrite : ∀ t : ProverTranscript σ, ∃ t', t'.finalize = t.finalize ++ (layerBytes :: openings).flatten ∧
      t'.options = t.options ∧ t'.combined.challenger = t.combined.challenger ∧
      sendOpenings G codec c data indices t = some ((),t') := by
    intro t
    obtain ⟨t',hrun,hwritten,hoptions,hchallenger⟩ := decommitment_bytes G (layerBytes :: openings) t
    refine ⟨t',hwritten,hoptions,hchallenger,?_⟩
    have hwidth : c.depth = data.logLen - c.logLeafSize := by rw [hc.depth,hc.logLeafSize]
    simp only [sendOpenings,guard,if_pos hwidth,Option.pure_def,Option.bind_eq_bind,Option.bind_some]
    rw [hc.depth,if_pos hcheck']
    simp only [optimalVerifyLayer,hlayer,hlayerBytes,Except.toOption,hopenings,hrun,Option.bind_some]
  have hlength := (verifyLayer_ok_iff H c'.root _ _).mp hverify
  refine mirrors_of_tape (fun _ t => ?_) fun t a t' h => ?_
  · obtain ⟨t',-,-,-,hrun⟩ := hwrite t
    exact ⟨_,hrun⟩
  · obtain ⟨t₁,hwritten,hoptions,hchallenger,hrun⟩ := hwrite t
    rw [hrun] at h
    cases h
    refine ⟨_,hwritten,hoptions,_,rfl,fun rest => ?_⟩
    rw [hchallenger]
    refine decommit_run ?_
    have hlayerRead := readMany_writeAll Digest.roundTrip hlayerBytes (openings.flatten ++ rest)
    rw [hlength.1,←append_assoc] at hlayerRead
    have hleaves := hread rest
    rw [MerkleTree.recvOpenings,hc.depth',hc.leafSize,if_neg (not_not.mpr hcheck)]
    refine CheckedRun.state_bind_eq_ok.mpr ⟨_,_,hlayerRead,
      CheckedRun.state_bind_eq_ok.mpr ⟨(),_,lift_run hverify _,
        CheckedRun.state_bind_eq_ok.mpr ⟨_,_,hleaves,?_⟩⟩⟩
    rw [map_map]
    rfl

theorem vector_mirrors [Zero F] [DecidableEq F] (T : Prop) (scalar : Codec F)
    {data : Buffer F}
    (hc : CommittedTo H codec c c' data k) :
    Mirrors transcriptReplay T (sendCommittedVector (σ := σ) G codec c data)
      ((verifierMerkleTranscriptChannel C H codec scalar).recvCommittedVector c')
      fun _ vals => vals = data.iterScalars := by
  obtain ⟨tree,root,hnew,-,hroot,hverify,-⟩ := buffer_opens H codec data hc.le
  have htree : tree = c.committed := Except.ok.inj (hnew.symm.trans hc.tree)
  rw [htree] at hroot
  have hsame : root = c'.root := Except.ok.inj (hroot.symm.trans hc.root)
  rw [hsame] at hverify
  obtain ⟨bytes,hbytes⟩ : ∃ bytes, leafBytes codec.toFixedSizeSerializeBytes data.iterScalars = .ok bytes :=
    exists_writeAll fun x _ => codec.total x
  have hwrite : ∀ t : ProverTranscript σ, ∃ t', t'.finalize = t.finalize ++ bytes ∧
      t'.options = t.options ∧ t'.combined.challenger = t.combined.challenger ∧
      sendCommittedVector G codec c data t = some ((),t') := by
    intro t
    obtain ⟨t',hrun,hwritten,hoptions,hchallenger⟩ := decommitment_bytes G [bytes] t
    rw [flatten_cons,flatten_nil,append_nil] at hwritten
    refine ⟨t',hwritten,hoptions,hchallenger,?_⟩
    have hwidth : c.depth = data.logLen - c.logLeafSize := by rw [hc.depth,hc.logLeafSize]
    rw [map_cons,map_nil] at hrun
    simp only [sendCommittedVector,guard,if_pos hwidth,Option.pure_def,Option.bind_eq_bind,Option.bind_some,
      hbytes,Except.toOption,hrun]
  refine mirrors_of_tape (fun _ t => ?_) fun t a t' h => ?_
  · obtain ⟨t',-,-,-,hrun⟩ := hwrite t
    exact ⟨_,hrun⟩
  · obtain ⟨t₁,hwritten,hoptions,hchallenger,hrun⟩ := hwrite t
    rw [hrun] at h
    cases h
    refine ⟨_,hwritten,hoptions,_,rfl,fun rest => ?_⟩
    rw [hchallenger]
    refine decommit_run ?_
    have hread := readMany_writeAll codec.roundTrip hbytes rest
    have hsize : data.iterScalars.length = 2 ^ k * 2 ^ (data.logLen - k) := by
      rw [iterScalars_length,←pow_add,Nat.add_sub_cancel' hc.le]
    rw [hsize] at hread
    rw [MerkleTree.recvCommittedVector,hc.depth',hc.leafSize]
    exact CheckedRun.state_bind_eq_ok.mpr ⟨_,_,hread,
      CheckedRun.state_bind_eq_ok.mpr ⟨(),_,lift_run hverify _,rfl⟩⟩

theorem transcripts_mirrored [Zero F] [DecidableEq F] (T : Prop) (scalar : Codec F) :
    Mirrored transcriptReplay T (proverMerkleTranscriptChannel (σ := σ) C G H codec)
      (verifierMerkleTranscriptChannel C H codec scalar) (CommittedTo H codec) where
  sampleBits bits := sampleBits_mirrors (n := n) C T scalar bits
  assertZero u := by
    simp only [verifierMerkleTranscriptChannel,orStop,merkleTranscriptChannel,
      OracleChannel.transcriptChannel,if_true]
  commitment data k hk := commitment_mirrors C G H codec T scalar data hk
  openings indices hc hindices := openings_mirror C G H codec T scalar hc indices hindices
  vector hc := vector_mirrors C G H codec T scalar hc

end Transcripts

end Binius64.MerkleChannel
