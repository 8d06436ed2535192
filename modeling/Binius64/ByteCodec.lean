import Mathlib.Tactic.Linarith

/-!
# Lawful byte codecs

A decoder consumes a leading part of a byte list; an encoder produces bytes or refuses.
-/

namespace Binius64.ByteCodec

open List

/-- The bytes of an encoding, or the reason there is none. -/
abbrev Encoded (ε : Type) := Except ε (List UInt8)

/-- A decoder consumes a leading part of its input. -/
abbrev Decoder (δ α : Type) := StateT (List UInt8) (Except δ) α

variable {α β ε δ : Type}

def append (x y : Encoded ε) : Encoded ε :=
  match x with
  | .error e => .error e
  | .ok a =>
    match y with
    | .error e => .error e
    | .ok b => .ok (a ++ b)

def writeAll : List (Encoded ε) → Encoded ε
  | [] => .ok []
  | x :: xs => append x (writeAll xs)

def readMany (dec : Decoder δ α) : ℕ → Decoder δ (List α)
  | 0 => pure []
  | n + 1 => do
    let x ← dec
    let xs ← readMany dec n
    return x :: xs

/-- The little-endian bytes of a number in a fixed width. -/
def leBytes : ℕ → ℕ → List UInt8
  | 0, _ => []
  | width + 1, n => UInt8.ofNat n :: leBytes width (n / 256)

/-- The number little-endian bytes denote. -/
def ofLeBytes : List UInt8 → ℕ
  | [] => 0
  | b :: bs => b.toNat + 256 * ofLeBytes bs

@[simp] theorem leBytes_length (width n : ℕ) : (leBytes width n).length = width := by
  induction width generalizing n with
  | zero => rfl
  | succ width ih => rw [leBytes,length_cons,ih]

theorem ofLeBytes_leBytes {width n : ℕ} (h : n < 256 ^ width) :
    ofLeBytes (leBytes width n) = n := by
  induction width generalizing n with
  | zero =>
    rw [pow_zero] at h
    rw [leBytes,ofLeBytes]
    omega
  | succ width ih =>
    have hd : n / 256 < 256 ^ width := by
      rw [pow_succ] at h
      exact Nat.div_lt_of_lt_mul (by rwa [Nat.mul_comm] at h)
    rw [leBytes,ofLeBytes,ih hd,UInt8.toNat_ofNat']
    omega

theorem ofLeBytes_lt (bytes : List UInt8) : ofLeBytes bytes < 256 ^ bytes.length := by
  induction bytes with
  | nil => exact Nat.one_pos
  | cons b bs ih =>
    have hb := b.toNat_lt
    rw [ofLeBytes,length_cons,pow_succ]
    omega

theorem leBytes_ofLeBytes (bytes : List UInt8) :
    leBytes bytes.length (ofLeBytes bytes) = bytes := by
  induction bytes with
  | nil => rfl
  | cons b bs ih =>
    have hb := b.toNat_lt
    have hd : (b.toNat + 256 * ofLeBytes bs) / 256 = ofLeBytes bs := by omega
    have hm : UInt8.ofNat (b.toNat + 256 * ofLeBytes bs) = b := by
      apply UInt8.toNat_inj.mp
      rw [UInt8.toNat_ofNat']
      omega
    rw [ofLeBytes,length_cons,leBytes,hd,ih,hm]

theorem leBytes_mod (width n : ℕ) : leBytes width (n % 256 ^ width) = leBytes width n := by
  induction width generalizing n with
  | zero => rfl
  | succ width ih =>
    have hbyte : UInt8.ofNat (n % 256 ^ (width + 1)) = UInt8.ofNat n := by
      apply UInt8.toNat_inj.mp
      rw [UInt8.toNat_ofNat',UInt8.toNat_ofNat',pow_succ']
      exact Nat.mod_mod_of_dvd n (Nat.dvd_mul_right 256 _)
    have hrest : n % 256 ^ (width + 1) / 256 = n / 256 % 256 ^ width := by
      rw [pow_succ',Nat.mod_mul_right_div_self]
    rw [leBytes,leBytes,hbyte,hrest,ih]

variable {enc : α → Encoded ε} {xs : List α} {dec : Decoder δ α}

theorem exists_writeAll
    (h : ∀ x ∈ xs, ∃ bytes, enc x = .ok bytes) : ∃ bytes, writeAll (xs.map enc) = .ok bytes := by
  induction xs with
  | nil => exact ⟨[],rfl⟩
  | cons x xs ih =>
    obtain ⟨front,hx⟩ := h x mem_cons_self
    obtain ⟨back,hxs⟩ := ih fun y hy => h y (mem_cons_of_mem _ hy)
    exact ⟨front ++ back,by simp only [map_cons,writeAll,append,hx,hxs]⟩

theorem readMany_length {n : ℕ} {input rest : List UInt8}
    (h : readMany dec n input = .ok (xs,rest)) : xs.length = n := by
  induction n generalizing input xs with
  | zero =>
    cases h
    rfl
  | succ n ih =>
    simp only [readMany,bind,StateT.bind,Except.bind] at h
    cases hx : dec input with
    | error e =>
      rw [hx] at h
      cases h
    | ok p =>
      rw [hx] at h
      simp only at h
      cases hxs : readMany dec n p.2 with
      | error e =>
        rw [hxs] at h
        cases h
      | ok q =>
        rw [hxs] at h
        cases h
        rw [length_cons,ih hxs]

theorem readMany_writeAll
    (hr : ∀ a bytes, enc a = .ok bytes → ∀ rest, dec (bytes ++ rest) = .ok (a,rest))
    {bytes : List UInt8} (h : writeAll (xs.map enc) = .ok bytes)
    (rest : List UInt8) : readMany dec xs.length (bytes ++ rest) = .ok (xs,rest) := by
  induction xs generalizing bytes with
  | nil =>
    cases h
    rfl
  | cons x xs ih =>
    rw [map_cons,writeAll] at h
    cases hx : enc x with
    | error e =>
      rw [hx] at h
      cases h
    | ok front =>
      cases hxs : writeAll (xs.map enc) with
      | error e =>
        rw [hx,hxs] at h
        cases h
      | ok back =>
        have hback := ih hxs
        rw [hx,hxs] at h
        cases h
        rw [length_cons,readMany,append_assoc]
        simp only [bind,StateT.bind,hr x front hx,Except.bind,hback]
        rfl

structure Lawful (enc : α → Encoded ε) (dec : Decoder δ α) (Valid : α → Prop) : Prop where
  /-- A valid value encodes, and decodes back in front of any rest. -/
  complete : ∀ a, Valid a →
    ∃ bytes, enc a = .ok bytes ∧ ∀ rest, dec (bytes ++ rest) = .ok (a,rest)
  sound : ∀ input a rest, dec input = .ok (a,rest) →
    Valid a ∧ ∃ bytes, enc a = .ok bytes ∧ input = bytes ++ rest

namespace Lawful

variable {enc : α → Encoded ε} {dec : Decoder δ α} {Valid : α → Prop}

theorem decode_encode (h : Lawful enc dec Valid) {a : α} (ha : Valid a) {bytes : List UInt8}
    (he : enc a = .ok bytes) (rest : List UInt8) : dec (bytes ++ rest) = .ok (a,rest) := by
  obtain ⟨bytes',he',hd⟩ := h.complete a ha
  rw [he] at he'
  cases he'
  exact hd rest

theorem strict_prefix (h : Lawful enc dec Valid) {a : α} (ha : Valid a) {front back : List UInt8}
    (he : enc a = .ok (front ++ back)) (hb : back ≠ []) : ∃ e, dec front = .error e := by
  cases hd : dec front with
  | error e => exact ⟨e,rfl⟩
  | ok p =>
    obtain ⟨a',rest⟩ := p
    obtain ⟨ha',bytes',he',hf⟩ := h.sound front a' rest hd
    have hl := h.decode_encode ha' he' (rest ++ back)
    have hr := h.decode_encode ha he []
    rw [append_nil,hf,append_assoc,hl] at hr
    simp only [Except.ok.injEq,Prod.mk.injEq,append_eq_nil_iff] at hr
    exact absurd hr.2.2 hb

theorem congr (h : Lawful enc dec Valid) {Valid' : α → Prop} (hv : ∀ a, Valid a ↔ Valid' a) :
    Lawful enc dec Valid' where
  complete a ha := h.complete a ((hv a).mpr ha)
  sound input a rest hd :=
    ⟨(hv a).mp (h.sound input a rest hd).1,(h.sound input a rest hd).2⟩

theorem throw {e : δ} (hv : ∀ a, ¬Valid a) :
    Lawful enc (MonadExcept.throw e : Decoder δ α) Valid where
  complete a ha := absurd ha (hv a)
  sound _ _ _ hd := by cases hd

theorem done {a₀ : α} {G : α → Prop} (hG : ∀ a, G a ↔ a = a₀) :
    Lawful (fun _ : α => (.ok [] : Encoded ε)) (pure a₀ : Decoder δ α)
      (fun a => G a ∧ True) where
  complete b hb := by
    refine ⟨[],rfl,fun rest => ?_⟩
    rw [(hG b).mp hb.1]
    rfl
  sound input b rest hd := by
    cases hd
    exact ⟨⟨(hG a₀).mpr rfl,trivial⟩,[],rfl,rfl⟩

theorem field {encA : α → Encoded ε} {decA : Decoder δ α} {VA : α → Prop}
    (hA : Lawful encA decA VA) (proj : β → α) {encRest : β → Encoded ε}
    {k : α → Decoder δ β} {G V : β → Prop}
    (hk : ∀ a, VA a → Lawful encRest (k a) (fun b => (G b ∧ proj b = a) ∧ V b)) :
    Lawful (fun b => append (encA (proj b)) (encRest b)) (decA >>= k)
      (fun b => G b ∧ VA (proj b) ∧ V b) where
  complete b hb := by
    obtain ⟨hG,ha,hV⟩ := hb
    obtain ⟨x,hx,hdx⟩ := hA.complete _ ha
    obtain ⟨y,hy,hdy⟩ := (hk _ ha).complete b ⟨⟨hG,rfl⟩,hV⟩
    refine ⟨x ++ y,by simp only [append,hx,hy],fun rest => ?_⟩
    rw [append_assoc]
    simp only [bind,StateT.bind,hdx,Except.bind]
    exact hdy rest
  sound input b rest hd := by
    simp only [bind,StateT.bind] at hd
    cases ha : decA input with
    | error e =>
      rw [ha] at hd
      cases hd
    | ok p =>
      obtain ⟨a,tail⟩ := p
      rw [ha] at hd
      obtain ⟨hva,x,hx,rfl⟩ := hA.sound input a tail ha
      obtain ⟨⟨⟨hG,rfl⟩,hV⟩,y,hy,rfl⟩ := (hk a hva).sound tail b rest hd
      exact ⟨⟨hG,hva,hV⟩,x ++ y,by simp only [append,hx,hy],by rw [append_assoc]⟩

theorem map {encA : α → Encoded ε} {decA : Decoder δ α} {VA : α → Prop} (hA : Lawful encA decA VA)
    (proj : β → α) (f : α → β) (hf : ∀ b, f (proj b) = b) (hp : ∀ a, VA a → proj (f a) = a) :
    Lawful (fun b => encA (proj b)) (decA >>= fun a => pure (f a)) (fun b => VA (proj b)) where
  complete b hb := by
    obtain ⟨x,hx,hdx⟩ := hA.complete _ hb
    refine ⟨x,hx,fun rest => ?_⟩
    simp only [bind,StateT.bind,hdx,Except.bind,hf]
    rfl
  sound input b rest hd := by
    simp only [bind,StateT.bind] at hd
    cases ha : decA input with
    | error e =>
      rw [ha] at hd
      cases hd
    | ok p =>
      obtain ⟨a,tail⟩ := p
      rw [ha] at hd
      cases hd
      obtain ⟨hva,x,hx,rfl⟩ := hA.sound input a tail ha
      rw [hp a hva]
      exact ⟨hva,x,hx,rfl⟩

theorem many (h : Lawful enc dec Valid) (n : ℕ) :
    Lawful (fun xs : List α => writeAll (xs.map enc)) (readMany dec n)
      (fun xs => xs.length = n ∧ ∀ x ∈ xs, Valid x) := by
  induction n with
  | zero =>
    refine ⟨fun xs hxs => ?_,fun input xs rest hd => ?_⟩
    · rw [length_eq_zero_iff.mp hxs.1]
      exact ⟨[],rfl,fun rest => rfl⟩
    · cases hd
      exact ⟨⟨rfl,fun x hx => absurd hx not_mem_nil⟩,[],rfl,rfl⟩
  | succ n ih =>
    refine ⟨fun xs hxs => ?_,fun input xs rest hd => ?_⟩
    · cases xs with
      | nil => cases hxs.1
      | cons a as =>
        obtain ⟨hl,hv⟩ := hxs
        rw [length_cons,Nat.succ_inj] at hl
        rw [forall_mem_cons] at hv
        obtain ⟨x,hx,hdx⟩ := h.complete a hv.1
        obtain ⟨y,hy,hdy⟩ := ih.complete as ⟨hl,hv.2⟩
        refine ⟨x ++ y,by simp only [map_cons,writeAll,append,hx,hy],fun rest => ?_⟩
        rw [append_assoc]
        simp only [readMany,bind,StateT.bind,hdx,hdy,Except.bind]
        rfl
    · simp only [readMany,bind,StateT.bind] at hd
      cases ha : dec input with
      | error e =>
        rw [ha] at hd
        cases hd
      | ok p =>
        obtain ⟨a,tail⟩ := p
        rw [ha] at hd
        simp only [Except.bind] at hd
        cases has : readMany dec n tail with
        | error e =>
          rw [has] at hd
          cases hd
        | ok q =>
          obtain ⟨as,tail'⟩ := q
          rw [has] at hd
          cases hd
          obtain ⟨hva,x,hx,rfl⟩ := h.sound input a tail ha
          obtain ⟨⟨hl,hvs⟩,y,hy,rfl⟩ := ih.sound tail as tail' has
          refine ⟨⟨by rw [length_cons,hl],?_⟩,x ++ y,?_,by rw [append_assoc]⟩
          · rw [forall_mem_cons]
            exact ⟨hva,hvs⟩
          · simp only [map_cons,writeAll,append,hx,hy]

end Lawful

/-- No input makes the decoder report an error of the given kind. -/
def Never (bad : δ → Prop) (dec : Decoder δ α) : Prop :=
  ∀ input e, dec input = .error e → ¬bad e

namespace Never

variable {bad : δ → Prop}

theorem pure (a : α) : Never bad (pure a : Decoder δ α) := by
  intro input e h
  cases h

theorem throw {e : δ} (h : ¬bad e) : Never bad (MonadExcept.throw e : Decoder δ α) := by
  intro input e' h'
  cases h'
  exact h

theorem bind {dec : Decoder δ α} {k : α → Decoder δ β} (hd : Never bad dec)
    (hk : ∀ a, Never bad (k a)) : Never bad (dec >>= k) := by
  intro input e h
  simp only [Bind.bind,StateT.bind] at h
  cases ha : dec input with
  | error e' =>
    rw [ha] at h
    cases h
    exact hd input e ha
  | ok p =>
    rw [ha] at h
    exact hk p.1 p.2 e h

theorem many {dec : Decoder δ α} (hd : Never bad dec) (n : ℕ) : Never bad (readMany dec n) := by
  induction n with
  | zero => exact pure []
  | succ n ih => exact bind hd fun a => bind ih fun as => pure (a :: as)

end Never

/-- Every value the decoder accepts satisfies a predicate. -/
def Yields (P : α → Prop) (dec : Decoder δ α) : Prop :=
  ∀ input a rest, dec input = .ok (a,rest) → P a

namespace Yields

variable {P : α → Prop} {Q : β → Prop}

theorem pure {a : α} (h : P a) : Yields P (pure a : Decoder δ α) := by
  intro input b rest hd
  cases hd
  exact h

theorem bind {dec : Decoder δ α} {k : α → Decoder δ β} (hd : Yields P dec)
    (hk : ∀ a, P a → Yields Q (k a)) : Yields Q (dec >>= k) := by
  intro input b rest h
  simp only [Bind.bind,StateT.bind] at h
  cases ha : dec input with
  | error e =>
    rw [ha] at h
    cases h
  | ok p =>
    rw [ha] at h
    exact hk p.1 (hd input p.1 p.2 ha) p.2 b rest h

theorem any {dec : Decoder δ α} {k : α → Decoder δ β} (hk : ∀ a, Yields Q (k a)) :
    Yields Q (dec >>= k) :=
  bind (P := fun _ => True) (fun _ _ _ _ => trivial) fun a _ => hk a

end Yields

/-- A decoder that consumes at least one byte of any accepted input. -/
def Consumes (dec : Decoder δ α) : Prop :=
  ∀ input a rest, dec input = .ok (a,rest) → rest.length < input.length

theorem Lawful.consumes {Valid : α → Prop}
    (h : Lawful enc dec Valid) (hne : ∀ a, enc a ≠ .ok []) : Consumes dec := by
  intro input a rest hd
  obtain ⟨-,bytes,he,rfl⟩ := h.sound input a rest hd
  have hb : bytes ≠ [] := by
    rintro rfl
    exact hne a he
  have := length_pos_iff.mpr hb
  rw [length_append]
  omega

theorem append_ne_nil {x : Encoded ε} (hx : x ≠ .ok []) (y : Encoded ε) :
    append x y ≠ .ok [] := by
  intro h
  cases x with
  | error e => cases h
  | ok a =>
    cases y with
    | error e => cases h
    | ok b =>
      simp only [append,Except.ok.injEq,append_eq_nil_iff] at h
      exact hx (by rw [h.1])

theorem readMany_short (hc : Consumes dec) {n : ℕ} {input : List UInt8}
    (h : input.length < n) : ∃ e, readMany dec n input = .error e := by
  induction n generalizing input with
  | zero => exact absurd h (Nat.not_lt_zero _)
  | succ n ih =>
    simp only [readMany,bind,StateT.bind]
    cases ha : dec input with
    | error e => exact ⟨e,rfl⟩
    | ok p =>
      have hlt := hc input p.1 p.2 ha
      have hs : p.2.length < n := by omega
      obtain ⟨e,he⟩ := ih hs
      refine ⟨e,?_⟩
      simp only [Except.bind,he]

end Binius64.ByteCodec
