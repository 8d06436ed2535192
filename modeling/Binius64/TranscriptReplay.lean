import Binius64.Transcript

/-!
# Replaying a transcript

The verifier's transcript over the tape of a prover's transcript stays in step with it.
-/

namespace Binius64.FiatShamir

open ByteCodec List

variable {σ V α : Type}

/-- Observe bytes, if there are any. -/
def absorb (C : Challenger σ) (c : σ) (bytes : List UInt8) : σ :=
  if bytes = [] then c else C.putSlice bytes (C.observer c)

variable (C : Challenger σ) {items : List (Item V)}

theorem absorb_append (c : σ) (a b : List UInt8) :
    absorb C (absorb C c a) b = absorb C c (a ++ b) := by
  by_cases ha : a = []
  · rw [ha,absorb,nil_append,absorb,if_pos rfl]
    rfl
  · by_cases hb : b = []
    · rw [hb,append_nil,absorb,if_pos rfl]
    · have hab : a ++ b ≠ [] := fun h => ha (append_eq_nil_iff.mp h).1
      rw [absorb,absorb,absorb,if_neg ha,if_neg hb,if_neg hab,C.observe_append]

variable (G : Growth)

theorem putSlice_spec (src : List UInt8) (b : FiatShamirBuf BytesMut σ) :
    ∃ spare, b.putSlice C G src = ⟨⟨b.buffer.bytes ++ src,spare⟩,absorb C b.challenger src⟩ := by
  suffices h : ∀ (fuel : ℕ) (src : List UInt8) (b : FiatShamirBuf BytesMut σ), src.length ≤ fuel →
      ∃ spare, putChunks (fun b : FiatShamirBuf BytesMut σ =>
          let buffer := b.buffer.chunkMut G; (buffer.spare,{ b with buffer := buffer }))
        (FiatShamirBuf.advanceMut C) fuel src b =
          ⟨⟨b.buffer.bytes ++ src,spare⟩,absorb C b.challenger src⟩ from h _ src b le_rfl
  intro fuel
  induction fuel with
  | zero =>
    intro src b hfuel
    rw [eq_nil_of_length_eq_zero (Nat.le_zero.mp hfuel)]
    exact ⟨b.buffer.spare,by rw [putChunks,append_nil]; rfl⟩
  | succ fuel ih =>
    intro src b hfuel
    rw [putChunks]
    by_cases hsrc : src = []
    · rw [if_pos hsrc,hsrc]
      exact ⟨b.buffer.spare,by rw [append_nil]; rfl⟩
    · have hpos := length_pos_iff.mpr hsrc
      have hroom : 0 < (b.buffer.chunkMut G).spare := by
        rw [BytesMut.chunkMut]
        split
        · exact (by decide : 0 < 64).trans_le (G.reserve_ge _ _ _)
        · omega
      have hbytes : (b.buffer.chunkMut G).bytes = b.buffer.bytes := by
        rw [BytesMut.chunkMut]
        split <;> rfl
      have hcut : src.take (min src.length (b.buffer.chunkMut G).spare) ≠ [] := by
        rw [Ne,take_eq_nil_iff]
        intro h
        rcases h with h | h
        · omega
        · exact hsrc h
      rw [if_neg hsrc]
      simp only
      obtain ⟨spare,hrest⟩ := ih (src.drop (min src.length (b.buffer.chunkMut G).spare))
        (FiatShamirBuf.advanceMut C (src.take (min src.length (b.buffer.chunkMut G).spare))
          { b with buffer := b.buffer.chunkMut G }) (by rw [length_drop]; omega)
      refine ⟨spare,hrest.trans ?_⟩
      have habsorb : (FiatShamirBuf.advanceMut C (src.take (min src.length (b.buffer.chunkMut G).spare))
          { b with buffer := b.buffer.chunkMut G }).challenger =
            absorb C b.challenger (src.take (min src.length (b.buffer.chunkMut G).spare)) :=
        (if_neg hcut).symm
      rw [habsorb,absorb_append,take_append_drop]
      simp only [FiatShamirBuf.advanceMut,hbytes,append_assoc,take_append_drop]

variable (slices : List (List UInt8))

theorem putSlices_spec (b : FiatShamirBuf BytesMut σ) :
    ∃ spare, slices.foldl (fun b slice => b.putSlice C G slice) b =
      ⟨⟨b.buffer.bytes ++ slices.flatten,spare⟩,absorb C b.challenger slices.flatten⟩ := by
  induction slices generalizing b with
  | nil => exact ⟨b.buffer.spare,by rw [flatten_nil,append_nil]; rfl⟩
  | cons slice slices ih =>
    obtain ⟨spare,hfirst⟩ := putSlice_spec C G slice b
    obtain ⟨spare',hrest⟩ := ih (b.putSlice C G slice)
    refine ⟨spare',?_⟩
    rw [foldl_cons,hrest,hfirst,flatten_cons,absorb_append,append_assoc]

theorem putBytes_spec (b : BytesMut) :
    (slices.foldl (fun b slice => b.putSlice G slice) b).bytes = b.bytes ++ slices.flatten := by
  induction slices generalizing b with
  | nil => rw [flatten_nil,append_nil]; rfl
  | cons slice slices ih =>
    rw [foldl_cons,ih,flatten_cons,←append_assoc]
    rfl

theorem copyToSlice_eq {n : ℕ} {tape : List UInt8} (h : n ≤ tape.length) (c : σ) :
    (FiatShamirBuf.buf C).copyToSlice n ⟨tape,c⟩ =
      (tape.take n,⟨tape.drop n,absorb C c (tape.take n)⟩) := by
  by_cases hn : n = 0
  · rw [hn]
    rfl
  · have htake : tape.take n ≠ [] := by
      rw [Ne,take_eq_nil_iff]
      intro hnil
      rcases hnil with hnil | hnil
      · exact hn hnil
      · rw [hnil] at h
        exact hn (Nat.le_zero.mp h)
    rw [absorb,if_neg htake]
    exact if_neg hn

/-- A read over the tape takes a leading part of it; over the tape with the challenger it takes the
same part, and the challenger absorbs it. -/
def Observed (C : Challenger σ) (read : List UInt8 → α × List UInt8)
    (observed : FiatShamirBuf (List UInt8) σ → α × FiatShamirBuf (List UInt8) σ) : Prop :=
  ∀ tape c, ∃ used, tape = used ++ (read tape).2 ∧
    observed ⟨tape,c⟩ = ((read tape).1,⟨(read tape).2,absorb C c used⟩)

theorem Reader.observed (reader : Reader α) :
    Observed C (reader.run bytesBuf) (reader.run (FiatShamirBuf.buf C)) := by
  intro tape c
  induction reader generalizing tape c with
  | done a => exact ⟨[],rfl,rfl⟩
  | fail e => exact ⟨[],rfl,rfl⟩
  | take n next ih =>
    have htest : (FiatShamirBuf.buf C).enough n ⟨tape,c⟩ = bytesBuf.enough n tape := rfl
    rw [Reader.run,Reader.run,htest]
    by_cases henough : n ≤ tape.length
    · have hbytes : bytesBuf.enough n tape = true := decide_eq_true henough
      obtain ⟨used,hused,hrun⟩ := ih (tape.take n) (tape.drop n) (absorb C c (tape.take n))
      rw [if_pos hbytes,if_pos hbytes,copyToSlice_eq C henough]
      refine ⟨tape.take n ++ used,?_,?_⟩
      · calc tape = tape.take n ++ tape.drop n := (take_append_drop n tape).symm
          _ = _ := by
            conv_lhs => rw [hused]
            rw [append_assoc]
            rfl
      · rw [←absorb_append]
        exact hrun
    · have hbytes : ¬bytesBuf.enough n tape = true := by
        simpa only [bytesBuf,decide_eq_true_eq] using henough
      rw [if_neg hbytes,if_neg hbytes]
      exact ⟨[],rfl,rfl⟩

variable (options : Options)

theorem Shape.observed (shape : Shape V) :
    Observed C (shape.read bytesBuf options) (shape.read (FiatShamirBuf.buf C) options) := by
  intro tape c
  have htest : ∀ n, (FiatShamirBuf.buf C).enough n ⟨tape,c⟩ = bytesBuf.enough n tape := fun n => rfl
  have hnot : ∀ n, ¬n ≤ tape.length → ¬bytesBuf.enough n tape = true := by
    intro n hn
    simpa only [bytesBuf,decide_eq_true_eq] using hn
  cases shape with
  | value codec =>
    obtain ⟨used,hused,hrun⟩ := codec.deserialize.observed C tape c
    exact ⟨used,hused,by rw [Shape.read,Shape.read,hrun]⟩
  | bytes len =>
    rw [Shape.read,Shape.read,htest]
    by_cases henough : len ≤ tape.length
    · have hbytes : bytesBuf.enough len tape = true := decide_eq_true henough
      rw [if_pos hbytes,if_pos hbytes,copyToSlice_eq C henough]
      exact ⟨tape.take len,(take_append_drop len tape).symm,rfl⟩
    · rw [if_neg (hnot len henough),if_neg (hnot len henough)]
      exact ⟨[],rfl,rfl⟩
  | debug msg =>
    rw [Shape.read,Shape.read,htest]
    by_cases hdebug : options.debugAssertions = true
    · rw [if_pos hdebug,if_pos hdebug]
      by_cases henough : msg.length ≤ tape.length
      · have hbytes : bytesBuf.enough msg.length tape = true := decide_eq_true henough
        have hcopy : bytesBuf.copyToSlice msg.length tape = (tape.take msg.length,tape.drop msg.length) := rfl
        rw [if_pos hbytes,if_pos hbytes,copyToSlice_eq C henough,hcopy]
        simp only
        by_cases hmsg : msg = tape.take msg.length
        · rw [if_pos hmsg,if_pos hmsg]
          exact ⟨tape.take msg.length,(take_append_drop msg.length tape).symm,rfl⟩
        · rw [if_neg hmsg,if_neg hmsg]
          exact ⟨tape.take msg.length,(take_append_drop msg.length tape).symm,rfl⟩
      · rw [if_neg (hnot _ henough),if_neg (hnot _ henough)]
        exact ⟨[],rfl,rfl⟩
    · rw [if_neg hdebug,if_neg hdebug]
      exact ⟨[],rfl,rfl⟩

theorem readShapes_observed (shapes : List (Shape V)) :
    Observed C (readShapes bytesBuf options shapes) (readShapes (FiatShamirBuf.buf C) options shapes) := by
  intro tape c
  induction shapes generalizing tape c with
  | nil => exact ⟨[],rfl,rfl⟩
  | cons shape shapes ih =>
    obtain ⟨used,hused,hread⟩ := shape.observed C options tape c
    rw [readShapes,readShapes,hread]
    cases hfirst : shape.read bytesBuf options tape with
    | mk outcome rest =>
      rw [hfirst] at hused
      cases outcome with
      | error e => exact ⟨used,hused,rfl⟩
      | ok first =>
        obtain ⟨used',hused',hread'⟩ := ih rest (absorb C c used)
        simp only
        rw [hread']
        refine ⟨used ++ used',?_,?_⟩
        · cases hrest : readShapes bytesBuf options shapes rest with
          | mk outcome' rest' =>
            rw [hrest] at hused'
            rw [hused,hused',append_assoc]
            cases outcome' <;> rfl
        · rw [←absorb_append]
          cases readShapes bytesBuf options shapes rest with
          | mk outcome' rest' => cases outcome' <;> rfl

theorem readShapes_items {slices : List (List UInt8)}
    (h : itemSlices options items = some slices) (rest : List UInt8) :
    readShapes bytesBuf options (items.map Item.shape) (slices.flatten ++ rest) =
      (.ok (items.map Item.data),rest) := by
  induction items generalizing slices with
  | nil =>
    cases h
    rfl
  | cons item items ih =>
    rw [itemSlices] at h
    obtain ⟨first,hfirst,h⟩ := Option.bind_eq_some_iff.mp h
    obtain ⟨later,hlater,h⟩ := Option.bind_eq_some_iff.mp h
    cases h
    have hitem : ∀ rest, item.shape.read bytesBuf options (first.flatten ++ rest) = (.ok item.data,rest) := by
      intro rest
      cases item with
      | value codec v =>
        rw [Item.slices] at hfirst
        cases hs : codec.serialize v with
        | error e =>
          rw [hs] at hfirst
          cases hfirst
        | ok slices =>
          rw [hs] at hfirst
          cases hfirst
          rw [Item.shape,Shape.read,codec.roundTrip v _ hs]
          rfl
      | bytes data =>
        cases hfirst
        have henough : bytesBuf.enough data.length ([data].flatten ++ rest) = true := by
          simp [bytesBuf]
        rw [Item.shape,Shape.read,if_pos henough]
        simp [bytesBuf,Item.data]
      | debug msg =>
        rw [Item.slices] at hfirst
        rw [Item.shape,Shape.read]
        by_cases hdebug : options.debugAssertions = true
        · rw [if_pos hdebug] at hfirst ⊢
          cases hfirst
          have henough : bytesBuf.enough msg.length ([msg].flatten ++ rest) = true := by
            simp [bytesBuf]
          rw [if_pos henough]
          simp [bytesBuf,Item.data]
        · rw [if_neg hdebug] at hfirst ⊢
          cases hfirst
          rfl
    rw [map_cons,readShapes,flatten_append,append_assoc,hitem]
    simp only
    rw [ih hlater]
    rfl

theorem message_step {t t' : ProverTranscript σ} (h : t.message C G items = some t') :
    ∃ written, t'.finalize = t.finalize ++ written ∧ t'.options = t.options ∧ ∀ rest,
      VerifierTranscript.message C (items.map Item.shape)
          ⟨⟨written ++ rest,t.combined.challenger⟩,t.options⟩ =
        (.ok (items.map Item.data),⟨⟨rest,t'.combined.challenger⟩,t.options⟩) := by
  obtain ⟨slices,hslices,h⟩ := Option.bind_eq_some_iff.mp h
  cases h
  obtain ⟨spare,hput⟩ := putSlices_spec C G slices t.combined
  refine ⟨slices.flatten,by rw [ProverTranscript.finalize,hput]; rfl,rfl,fun rest => ?_⟩
  have hitems := readShapes_items t.options hslices rest
  obtain ⟨used,hused,hread⟩ := readShapes_observed C t.options (items.map Item.shape)
    (slices.flatten ++ rest) t.combined.challenger
  rw [hitems] at hused hread
  have hsame : slices.flatten = used := append_cancel_right hused
  rw [VerifierTranscript.message,hread,hput,hsame]

theorem message_options {t t' : ProverTranscript σ}
    (h : t.message C G items = some t') : t'.options = t.options := by
  obtain ⟨-,-,hoptions,-⟩ := message_step C G h
  exact hoptions

theorem nonce_step {nonce : BitVec 64} {t t' : ProverTranscript σ}
    (h : t.message C G [.value Codec.u64 nonce] = some t') :
    t'.finalize = t.finalize ++ leBytes 8 nonce.toNat ∧
      t'.combined.challenger = C.putSlice (leBytes 8 nonce.toNat) (C.observer t.combined.challenger) := by
  rw [ProverTranscript.message] at h
  obtain ⟨slices,hslices,h⟩ := Option.bind_eq_some_iff.mp h
  cases hslices
  cases h
  obtain ⟨spare,hput⟩ := putSlice_spec C G (leBytes 8 nonce.toNat) t.combined
  have hne : leBytes 8 nonce.toNat ≠ [] := ne_nil_of_length_eq_add_one (leBytes_length 8 _)
  refine ⟨congrArg (fun b : FiatShamirBuf BytesMut σ => b.buffer.bytes) hput,?_⟩
  have habsorb : absorb C t.combined.challenger (leBytes 8 nonce.toNat) =
      C.putSlice (leBytes 8 nonce.toNat) (C.observer t.combined.challenger) := if_neg hne
  exact (congrArg FiatShamirBuf.challenger hput).trans habsorb

theorem findNonce_trial {bits : ℕ} {c : σ} {k nonce found : ℕ}
    (h : ProverTranscript.findNonce C bits c k nonce = some found) :
    ProverTranscript.trial C bits c found = 0 ∧ found < nonce + 2 ^ k := by
  induction k generalizing nonce with
  | zero =>
    rw [ProverTranscript.findNonce] at h
    split at h
    · cases h
      exact ⟨by assumption,Nat.lt_add_one _⟩
    · cases h
  | succ k ih =>
    rw [ProverTranscript.findNonce] at h
    split at h
    · rename_i found' hlow
      cases h
      obtain ⟨htrial,hlt⟩ := ih hlow
      exact ⟨htrial,by rw [pow_succ]; omega⟩
    · obtain ⟨htrial,hlt⟩ := ih h
      exact ⟨htrial,by rw [pow_succ]; omega⟩

theorem call_step {call : Call V} {t t' : ProverTranscript σ}
    {answer : Answer V} (h : t.call C G call = some (answer,t')) :
    ∃ written, t'.finalize = t.finalize ++ written ∧ t'.options = t.options ∧ ∀ rest,
      VerifierTranscript.call C call ⟨⟨written ++ rest,t.combined.challenger⟩,t.options⟩ =
        (.ok answer,⟨⟨rest,t'.combined.challenger⟩,t.options⟩) := by
  cases call with
  | message items =>
    obtain ⟨t₁,hmessage,h⟩ := Option.bind_eq_some_iff.mp h
    cases h
    obtain ⟨written,hwritten,hoptions,hread⟩ := message_step C G hmessage
    refine ⟨written,hwritten,hoptions,fun rest => ?_⟩
    rw [VerifierTranscript.call,hread]
    rfl
  | decommitment items =>
    obtain ⟨t₁,hmessage,h⟩ := Option.bind_eq_some_iff.mp h
    cases h
    obtain ⟨slices,hslices,hmessage⟩ := Option.bind_eq_some_iff.mp hmessage
    cases hmessage
    refine ⟨slices.flatten,putBytes_spec G slices _,rfl,fun rest => ?_⟩
    rw [VerifierTranscript.call,VerifierTranscript.decommitment]
    simp only [readShapes_items t.options hslices rest]
    rfl
  | observe items =>
    obtain ⟨t₁,hobserve,h⟩ := Option.bind_eq_some_iff.mp h
    cases h
    obtain ⟨slices,hslices,hobserve⟩ := Option.bind_eq_some_iff.mp hobserve
    cases hobserve
    refine ⟨[],(append_nil _).symm,rfl,fun rest => ?_⟩
    rw [VerifierTranscript.call,VerifierTranscript.observe]
    simp only [hslices]
    rfl
  | sample reader =>
    obtain ⟨⟨value,t₁⟩,hsample,h⟩ := Option.bind_eq_some_iff.mp h
    cases h
    rw [ProverTranscript.sample] at hsample
    split at hsample
    · cases hsample
    · rename_i value' challenger hrun
      cases hsample
      refine ⟨[],(append_nil _).symm,rfl,fun rest => ?_⟩
      rw [VerifierTranscript.call,VerifierTranscript.sample]
      simp only [hrun]
      rfl
  | sampleBits bits =>
    cases h
    exact ⟨[],(append_nil _).symm,rfl,fun rest => rfl⟩
  | grind bits =>
    obtain ⟨⟨nonce,t₁⟩,hgrind,h⟩ := Option.bind_eq_some_iff.mp h
    cases h
    obtain ⟨u,hguard,hgrind⟩ := Option.bind_eq_some_iff.mp hgrind
    obtain ⟨found,hfound,hgrind⟩ := Option.bind_eq_some_iff.mp hgrind
    obtain ⟨t₂,hmessage,hgrind⟩ := Option.bind_eq_some_iff.mp hgrind
    cases hgrind
    have hbits : bits ≤ maxGrindingBits := by
      by_contra hlarge
      have hnone : (guard (bits ≤ maxGrindingBits) : Option Unit) = none := if_neg hlarge
      rw [hnone] at hguard
      cases hguard
    obtain ⟨htrial,hlt⟩ := findNonce_trial C hfound
    have hnat : (BitVec.ofNat 64 found).toNat = found := by
      rw [BitVec.toNat_ofNat]
      exact Nat.mod_eq_of_lt (by omega)
    have hoptions := message_options C G hmessage
    obtain ⟨hwritten,habsorbed⟩ := nonce_step C G hmessage
    rw [hnat] at hwritten habsorbed
    refine ⟨leBytes 8 found,hwritten,hoptions,fun rest => ?_⟩
    have hround := Codec.u64.roundTrip (BitVec.ofNat 64 found) _ rfl rest
    rw [flatten_cons,flatten_nil,append_nil,hnat] at hround
    obtain ⟨used,hused,hread⟩ := Codec.u64.deserialize.observed C (leBytes 8 found ++ rest)
      t.combined.challenger
    rw [hround] at hused hread
    have hsame : leBytes 8 found = used := append_cancel_right hused
    -- the bits sampled are those of the trial
    have hsampled : (sampleBitsReader C bits (C.sampler t₂.combined.challenger)).1 = 0 := by
      rw [habsorbed]
      exact htrial
    rw [VerifierTranscript.call,VerifierTranscript.verifyGrind,if_pos hbits]
    simp only [hread,←hsame]
    have hchallenger : absorb C t.combined.challenger (leBytes 8 found) = t₂.combined.challenger := by
      rw [habsorbed]
      exact if_neg (ne_nil_of_length_eq_add_one (leBytes_length 8 found))
    rw [hchallenger,VerifierTranscript.sampleBits]
    simp only [hsampled]
    rfl

theorem run_step {calls : List (Call V)} {t t' : ProverTranscript σ}
    {answers : List (Answer V)} (h : t.run C G calls = some (answers,t')) :
    ∃ written, t'.finalize = t.finalize ++ written ∧ t'.options = t.options ∧ ∀ rest,
      VerifierTranscript.run C calls ⟨⟨written ++ rest,t.combined.challenger⟩,t.options⟩ =
        (.ok answers,⟨⟨rest,t'.combined.challenger⟩,t.options⟩) := by
  induction calls generalizing t answers with
  | nil =>
    cases h
    exact ⟨[],(append_nil _).symm,rfl,fun rest => rfl⟩
  | cons call calls ih =>
    obtain ⟨⟨answer,t₁⟩,hcall,h⟩ := Option.bind_eq_some_iff.mp h
    obtain ⟨⟨later,t₂⟩,hrun,h⟩ := Option.bind_eq_some_iff.mp h
    cases h
    obtain ⟨first,hfirst,hoptions,hread⟩ := call_step C G hcall
    obtain ⟨others,hothers,hoptions',hread'⟩ := ih hrun
    refine ⟨first ++ others,by rw [hothers,hfirst,append_assoc],hoptions'.trans hoptions,fun rest => ?_⟩
    rw [VerifierTranscript.run,append_assoc,hread]
    simp only
    rw [←hoptions,hread']

theorem run_append {calls later : List (Call V)}
    {t t' : ProverTranscript σ} {answers : List (Answer V)}
    (h : t.run C G (calls ++ later) = some (answers,t')) :
    ∃ t₁, t.run C G calls = some (answers.take calls.length,t₁) ∧
      t₁.run C G later = some (answers.drop calls.length,t') := by
  induction calls generalizing t answers with
  | nil => exact ⟨t,rfl,h⟩
  | cons call calls ih =>
    obtain ⟨⟨answer,t₁⟩,hcall,h⟩ := Option.bind_eq_some_iff.mp h
    obtain ⟨⟨rest,t₂⟩,hrun,h⟩ := Option.bind_eq_some_iff.mp h
    cases h
    obtain ⟨t₃,hfirst,hlater⟩ := ih hrun
    refine ⟨t₃,?_,hlater⟩
    rw [ProverTranscript.run,hcall]
    exact Option.bind_eq_some_iff.mpr ⟨_,rfl,Option.bind_eq_some_iff.mpr ⟨_,hfirst,rfl⟩⟩

/-- Transcripts stay in step: the mirrored calls of a verifier over the tape return what the prover
wrote and sampled, call by call, every proof of work included; after any of the calls both challengers
are in the same state, and the tape is read out exactly when all of it was written by then. -/
theorem transcripts_in_step (C : Challenger σ) (G : Growth) (start : σ) (options : Options)
    (calls later : List (Call V)) (answers : List (Answer V)) (t : ProverTranscript σ)
    (h : (ProverTranscript.withOpts start options).run C G (calls ++ later) = some (answers,t)) :
    ∃ (t₁ : ProverTranscript σ) (v : VerifierTranscript σ),
      (ProverTranscript.withOpts start options).run C G calls = some (answers.take calls.length,t₁) ∧
        (t.intoVerifier start).run C calls = (.ok (answers.take calls.length),v) ∧
        v.combined.challenger = t₁.combined.challenger ∧
        t.finalize = t₁.finalize ++ v.combined.buffer ∧
        v.finalize = if t₁.finalize = t.finalize then .ok ()
          else .error (.transcriptNotEmpty (t.finalize.length - t₁.finalize.length)) := by
  obtain ⟨t₁,hcalls,hlater⟩ := run_append C G h
  obtain ⟨first,hfirst,hoptions,hread⟩ := run_step C G hcalls
  obtain ⟨rest,hrest,hoptions',-⟩ := run_step C G hlater
  have hstart : t₁.finalize = first := hfirst
  have htape : t.finalize = first ++ rest := by rw [hrest,hstart]
  refine ⟨t₁,⟨⟨rest,t₁.combined.challenger⟩,options⟩,hcalls,?_,rfl,by rw [hrest],?_⟩
  · have hall : t.options = options := hoptions'.trans hoptions
    rw [ProverTranscript.intoVerifier,VerifierTranscript.withOpts,htape,hall]
    exact hread rest
  · have hleft : t₁.finalize = t.finalize ↔ rest = [] := by
      rw [hrest,self_eq_append_right]
    have hcount : t.finalize.length - t₁.finalize.length = rest.length := by
      rw [hrest,length_append,Nat.add_sub_cancel_left]
    rw [VerifierTranscript.finalize,hcount]
    by_cases hnil : rest = []
    · rw [if_pos (hleft.mpr hnil)]
      exact if_neg (not_not.mpr hnil)
    · rw [if_neg fun hsame => hnil (hleft.mp hsame)]
      exact if_pos hnil

def countDigest : Digest where
  outputSize := 4
  blockSize := 2
  digest bytes := replicate 4 (UInt8.ofNat bytes.length)
  digest_length _ := length_replicate
  outputSize_pos := by decide
  blockSize_pos := by decide

def exactGrowth : Growth := ⟨fun _ _ additional => additional,fun _ _ _ => le_rfl⟩

/-- Nothing is observed yet. -/
def countStart : { c : HasherChallenger // c.Valid countDigest } :=
  ⟨HasherChallenger.initial countDigest,trivial⟩

/-- A byte is written, bits are sampled, and both come back over the tape. -/
theorem transcripts_in_step_message :
    ∃ answers t v, (ProverTranscript.withOpts countStart ⟨true⟩).run (HasherChallenger.challenger countDigest)
        exactGrowth ([.message [.bytes [7]],.sampleBits 3] : List (Call Unit)) = some (answers,t) ∧
      (t.intoVerifier countStart).run (HasherChallenger.challenger countDigest)
        ([.message [.bytes [7]],.sampleBits 3] : List (Call Unit)) = (.ok answers,v) := by
  obtain ⟨t₁,v,hprover,hverifier,-⟩ := transcripts_in_step (V := Unit)
    (HasherChallenger.challenger countDigest) exactGrowth countStart ⟨true⟩
    [.message [.bytes [7]],.sampleBits 3] [] _ _ rfl
  exact ⟨_,_,v,rfl,hverifier⟩

end Binius64.FiatShamir
