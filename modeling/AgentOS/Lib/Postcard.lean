import Mathlib

/-!
# The postcard wire format

The primitives of the format: little-endian base-128 integers, one byte for a Boolean and for the
tag of an option, length-prefixed strings and sequences, and a discriminant before an enumeration's
fields. Structure fields follow one another in declaration order, so the encoding of a structure is
the concatenation of its fields' encodings.

A decoder consumes a prefix of its input and hands back the rest. Trailing bytes are not an error.
-/

namespace Postcard

/-! ## Encoding -/

/-- The base-128 digits of `n`, least significant first, in at most `k + 1` bytes. -/
def varintDigits : ℕ → ℕ → List UInt8
  | 0, n => [UInt8.ofNat n]
  | k + 1, n =>
    if n < 128 then [UInt8.ofNat n]
    else UInt8.ofNat (n % 128 + 128) :: varintDigits k (n / 128)

/-- A variable-length integer of up to 64 bits, which ten bytes always hold. -/
def encodeVarint (n : ℕ) : List UInt8 := varintDigits 9 n

def encodeBool (b : Bool) : List UInt8 := [if b then 1 else 0]

def encodeOption {α : Type*} (enc : α → List UInt8) : Option α → List UInt8
  | none => [0]
  | some a => 1 :: enc a

def encodeSeq {α : Type*} (enc : α → List UInt8) (l : List α) : List UInt8 :=
  encodeVarint l.length ++ l.flatMap enc

/-- A sequence of bytes. Each byte stands for itself. -/
def encodeBytes (l : List UInt8) : List UInt8 := encodeVarint l.length ++ l

def encodeString (s : String) : List UInt8 := encodeBytes s.toUTF8.data.toList

inductive Error where
  | serializeBufferFull
  deriving DecidableEq, Repr

/-- Push bytes to a buffer from its start, one at a time. The buffer afterwards, unless it was full
before the last byte. -/
def push : List UInt8 → List UInt8 → Except Error (List UInt8)
  | [], buf => .ok buf
  | _ :: _, [] => .error .serializeBufferFull
  | b :: bytes, _ :: buf =>
    match push bytes buf with
    | .ok rest => .ok (b :: rest)
    | .error e => .error e

/-- Pushing fails on a buffer that is too small, and else changes only the front. -/
theorem push_eq (bytes buf : List UInt8) : push bytes buf =
    if bytes.length ≤ buf.length then .ok (bytes ++ buf.drop bytes.length)
    else .error .serializeBufferFull := by
  induction bytes generalizing buf with
  | nil => rfl
  | cons b bytes ih =>
    cases buf with
    | nil => rfl
    | cons c buf =>
      rw [push, ih]
      simp only [List.length_cons, Nat.add_le_add_iff_right, List.drop_succ_cons, List.cons_append]
      split_ifs <;> rfl

/-! ## Decoding -/

/-- Decoders consume a prefix of a byte string, or fail. -/
abbrev Decoder (α : Type) := StateT (List UInt8) Option α

/-- The next byte. -/
def pop : Decoder UInt8 := fun
  | [] => none
  | b :: rest => some (b, rest)

/-- The next `n` bytes. -/
def take (n : ℕ) : Decoder (List UInt8) := fun bytes ↦
  if n ≤ bytes.length then some (bytes.take n, bytes.drop n) else none

/-- At most `k + 1` base-128 digits, the last of which may not exceed `lastMax`. -/
def decodeVarintDigits (lastMax : ℕ) : ℕ → Decoder ℕ
  | 0 => do
    let b ← pop
    if b.toNat ≤ lastMax then pure b.toNat else failure
  | k + 1 => do
    let b ← pop
    if b.toNat < 128 then pure b.toNat
    else do
      let n ← decodeVarintDigits lastMax k
      pure (b.toNat % 128 + 128 * n)

/-- A 16-bit integer: three bytes, two bits in the last. -/
def decodeU16 : Decoder ℕ := decodeVarintDigits 3 2

/-- A 32-bit integer: five bytes, four bits in the last. -/
def decodeU32 : Decoder ℕ := decodeVarintDigits 15 4

/-- A 64-bit integer: ten bytes, one bit in the last. -/
def decodeU64 : Decoder ℕ := decodeVarintDigits 1 9

def decodeBool : Decoder Bool := do
  let b ← pop
  if b = 0 then pure false else if b = 1 then pure true else failure

def decodeOption {α : Type} (dec : Decoder α) : Decoder (Option α) := do
  let b ← pop
  if b = 0 then pure none
  else if b = 1 then do
    let a ← dec
    pure (some a)
  else failure

/-- Run a decoder `n` times. -/
def replicate {α : Type} (dec : Decoder α) : ℕ → Decoder (List α)
  | 0 => pure []
  | n + 1 => do
    let a ← dec
    let l ← replicate dec n
    pure (a :: l)

def decodeSeq {α : Type} (dec : Decoder α) : Decoder (List α) := do
  let n ← decodeU64
  replicate dec n

def decodeBytes : Decoder (List UInt8) := do
  let n ← decodeU64
  take n

/-- A string must be valid UTF-8. -/
def decodeString : Decoder String := do
  let bytes ← decodeBytes
  match String.fromUTF8? ⟨bytes.toArray⟩ with
  | some s => pure s
  | none => failure

/-- Decode from the front of a buffer and ignore what follows. -/
def fromBytes {α : Type} (dec : Decoder α) (bytes : List UInt8) : Option α :=
  (dec bytes).map Prod.fst

/-! ## Reading back

A decoder that reads a value from its code, whatever follows, and that never changes its mind when more
input comes, fails on every proper prefix of the code. -/

section Reading

variable {α β : Type}

/-- The decoder reads a value from the front of its code, and leaves the rest. -/
def Reads (dec : Decoder α) (code : List UInt8) (a : α) : Prop :=
  ∀ rest, dec (code ++ rest) = some (a, rest)

/-- What the decoder reads from an input it reads from every longer one. -/
def Steady (dec : Decoder α) : Prop :=
  ∀ bytes a rest more, dec bytes = some (a, rest) → dec (bytes ++ more) = some (a, rest ++ more)

/-! ### Sequencing -/

theorem bind_apply (dec : Decoder α) (f : α → Decoder β) (bytes : List UInt8) :
    (dec >>= f) bytes = (dec bytes).bind fun p ↦ f p.1 p.2 := rfl

theorem reads_pure (a : α) : Reads (pure a) [] a := fun _ ↦ rfl

theorem Reads.bind {dec : Decoder α} {f : α → Decoder β} {code code' : List UInt8} {a : α} {b : β}
    (h : Reads dec code a) (h' : Reads (f a) code' b) : Reads (dec >>= f) (code ++ code') b := by
  intro rest
  rw [bind_apply, List.append_assoc, h, Option.bind_some]
  exact h' rest

/-- The last part of a code may be all there is left. -/
theorem Reads.map {dec : Decoder α} {code : List UInt8} {a : α} (h : Reads dec code a) (f : α → β) :
    Reads (do let a ← dec; pure (f a)) code (f a) := by
  have hbind := h.bind (f := fun a ↦ pure (f a)) (reads_pure (f a))
  rwa [List.append_nil] at hbind

theorem steady_pure (a : α) : Steady (pure a : Decoder α) := by
  intro bytes b rest more h
  obtain ⟨rfl, rfl⟩ := Prod.mk.inj (Option.some.inj h)
  rfl

theorem steady_failure : Steady (failure : Decoder α) := fun _ _ _ _ h ↦ absurd h nofun

theorem Steady.bind {dec : Decoder α} {f : α → Decoder β} (h : Steady dec)
    (h' : ∀ a, Steady (f a)) : Steady (dec >>= f) := by
  intro bytes b rest more hbind
  rw [bind_apply] at hbind ⊢
  obtain ⟨⟨a, rest'⟩, ha, hb⟩ := Option.bind_eq_some_iff.mp hbind
  rw [h _ _ _ more ha, Option.bind_some]
  exact h' a _ _ _ more hb

theorem Steady.ite {p : Prop} [Decidable p] {dec dec' : Decoder α} (h : Steady dec)
    (h' : Steady dec') : Steady (if p then dec else dec') := by
  split
  · exact h
  · exact h'

/-- **Prefix-freeness.** -/
theorem Reads.none_of_prefix {dec : Decoder α} {code : List UInt8} {a : α} (h : Reads dec code a)
    (hsteady : Steady dec) {bytes : List UInt8} (hinit : bytes <+: code)
    (hproper : bytes.length < code.length) : dec bytes = none := by
  obtain ⟨more, rfl⟩ := hinit
  rcases hdec : dec bytes with _ | ⟨b, rest⟩
  · rfl
  · -- reading all of the code then leaves something over
    have hall := h []
    rw [List.append_nil, hsteady _ _ _ more hdec] at hall
    have hrest := (Prod.mk.inj (Option.some.inj hall)).2
    obtain ⟨-, rfl⟩ := List.append_eq_nil_iff.mp hrest
    rw [List.append_nil] at hproper
    exact absurd hproper (lt_irrefl _)

/-! ### Bytes and integers -/

theorem reads_pop (b : UInt8) : Reads pop [b] b := fun _ ↦ rfl

theorem steady_pop : Steady pop := by
  intro bytes b rest more h
  cases bytes with
  | nil => exact absurd h nofun
  | cons b' bytes =>
    obtain ⟨rfl, rfl⟩ := Prod.mk.inj (Option.some.inj h)
    rfl

theorem reads_take (l : List UInt8) : Reads (take l.length) l l := by
  intro rest
  rw [take, if_pos (by simp), List.take_left, List.drop_left]

theorem steady_take (n : ℕ) : Steady (take n) := by
  intro bytes l rest more h
  unfold take at h ⊢
  split at h
  · rename_i hle
    obtain ⟨rfl, rfl⟩ := Prod.mk.inj (Option.some.inj h)
    rw [if_pos (by rw [List.length_append]; omega), List.take_append_of_le_length hle,
      List.drop_append_of_le_length hle]
  · exact absurd h nofun

/-- The decoder of a width may stop before the encoder would have to. -/
theorem reads_varintDigits {lastMax k k' n : ℕ} (hlast : lastMax < 128) (hk : k ≤ k')
    (hn : n < 128 ^ k * (lastMax + 1)) :
    Reads (decodeVarintDigits lastMax k) (varintDigits k' n) n := by
  have one_byte : ∀ (k' : ℕ) {n : ℕ}, n < 128 → varintDigits k' n = [UInt8.ofNat n] ∧
      (UInt8.ofNat n).toNat = n := by
    intro k' n hlt
    refine ⟨?_, by rw [UInt8.toNat_ofNat']; omega⟩
    cases k' with
    | zero => rfl
    | succ k' => exact if_pos hlt
  induction k generalizing k' n with
  | zero =>
    obtain ⟨hcode, hbyte⟩ := one_byte k' (n := n) (by omega)
    rw [hcode]
    intro rest
    rw [decodeVarintDigits, bind_apply]
    show (if (UInt8.ofNat n).toNat ≤ lastMax then _ else _ : Decoder ℕ) rest = _
    rw [hbyte, if_pos (by omega)]
    rfl
  | succ k ih =>
    by_cases hlt : n < 128
    · obtain ⟨hcode, hbyte⟩ := one_byte k' hlt
      rw [hcode]
      intro rest
      rw [decodeVarintDigits, bind_apply]
      show (if (UInt8.ofNat n).toNat < 128 then _ else _ : Decoder ℕ) rest = _
      rw [hbyte, if_pos hlt]
      rfl
    · obtain ⟨k', rfl⟩ := Nat.exists_eq_add_of_le' (Nat.lt_of_lt_of_le (Nat.succ_pos k) hk)
      have hbyte : (UInt8.ofNat (n % 128 + 128)).toNat = n % 128 + 128 := by
        rw [UInt8.toNat_ofNat']
        omega
      have hrest := ih (Nat.succ_le_succ_iff.mp hk) (n := n / 128) (by
        rw [pow_succ] at hn
        exact Nat.div_lt_of_lt_mul (by linarith))
      have hcode : varintDigits (k' + 1) n =
          [UInt8.ofNat (n % 128 + 128)] ++ varintDigits k' (n / 128) := if_neg hlt
      have hsum : (UInt8.ofNat (n % 128 + 128)).toNat % 128 + 128 * (n / 128) = n := by
        rw [hbyte]
        omega
      rw [hcode, decodeVarintDigits]
      refine (reads_pop _).bind ?_
      rw [if_neg (by rw [hbyte]; omega)]
      have hmap := hrest.map fun m ↦ (UInt8.ofNat (n % 128 + 128)).toNat % 128 + 128 * m
      rwa [hsum] at hmap

theorem steady_decodeVarintDigits (lastMax k : ℕ) : Steady (decodeVarintDigits lastMax k) := by
  induction k with
  | zero => exact steady_pop.bind fun _ ↦ (steady_pure _).ite steady_failure
  | succ k ih => exact steady_pop.bind fun _ ↦ (steady_pure _).ite (ih.bind fun _ ↦ steady_pure _)

theorem reads_u32 {n : ℕ} (h : n < 2 ^ 32) : Reads decodeU32 (encodeVarint n) n :=
  reads_varintDigits (by decide) (by decide) (by omega)

theorem reads_u64 {n : ℕ} (h : n < 2 ^ 64) : Reads decodeU64 (encodeVarint n) n :=
  reads_varintDigits (by decide) (by decide) (by omega)

theorem reads_bool (b : Bool) : Reads decodeBool (encodeBool b) b := by
  cases b <;> exact fun _ ↦ rfl

theorem steady_decodeBool : Steady decodeBool :=
  steady_pop.bind fun _ ↦ (steady_pure _).ite ((steady_pure _).ite steady_failure)

/-! ### Options, bytes and strings -/

/-- The value of an option, if there is one, is read from its code. -/
theorem reads_option {dec : Decoder α} {enc : α → List UInt8} {o : Option α}
    (h : ∀ a, o = some a → Reads dec (enc a) a) : Reads (decodeOption dec) (encodeOption enc o) o := by
  cases o with
  | none => exact fun _ ↦ rfl
  | some a =>
    have hcode : encodeOption enc (some a) = [1] ++ enc a := rfl
    rw [hcode]
    exact (reads_pop 1).bind ((h a rfl).map some)

theorem steady_decodeOption {dec : Decoder α} (h : Steady dec) : Steady (decodeOption dec) :=
  steady_pop.bind fun _ ↦
    (steady_pure _).ite ((h.bind fun _ ↦ steady_pure _).ite steady_failure)

theorem reads_bytes {l : List UInt8} (h : l.length < 2 ^ 64) :
    Reads decodeBytes (encodeBytes l) l := (reads_u64 h).bind (reads_take l)

theorem steady_decodeBytes : Steady decodeBytes :=
  (steady_decodeVarintDigits _ _).bind fun _ ↦ steady_take _

theorem reads_string {s : String} (h : s.utf8ByteSize < 2 ^ 64) :
    Reads decodeString (encodeString s) s := by
  have hbytes : (⟨s.toUTF8.data.toList.toArray⟩ : ByteArray) = s.toUTF8 := by
    rw [Array.toArray_toList]
  have hstring : String.fromUTF8? s.toUTF8 = some s := by
    have hvalid : s.toUTF8.IsValidUTF8 := s.isValidUTF8
    rw [String.fromUTF8?, dif_pos hvalid]
    rfl
  have hread := reads_bytes (l := s.toUTF8.data.toList) h
  have hlast : Reads (match String.fromUTF8? ⟨s.toUTF8.data.toList.toArray⟩ with
      | some s => pure s
      | none => failure : Decoder String) [] s := by
    rw [hbytes, hstring]
    exact reads_pure s
  have hbind := hread.bind (f := fun bytes ↦ (match String.fromUTF8? ⟨bytes.toArray⟩ with
      | some s => pure s
      | none => failure : Decoder String)) hlast
  rwa [List.append_nil] at hbind

theorem steady_decodeString : Steady decodeString := by
  refine steady_decodeBytes.bind fun bytes ↦ ?_
  split
  · exact steady_pure _
  · exact steady_failure

/-! ### Sequences -/

/-- Values that are read one after the other. -/
theorem reads_replicate {dec : Decoder β} {enc : α → List UInt8} {f : α → β} {l : List α}
    (h : ∀ a ∈ l, Reads dec (enc a) (f a)) :
    Reads (replicate dec l.length) (l.flatMap enc) (l.map f) := by
  induction l with
  | nil => exact reads_pure _
  | cons a l ih =>
    have hrest := ih fun b hb ↦ h b (List.mem_cons_of_mem a hb)
    exact (h a List.mem_cons_self).bind (hrest.map (f a :: ·))

/-- **A sequence is read** when its values are, into what the decoder makes of them. -/
theorem reads_seq {dec : Decoder β} {enc : α → List UInt8} {f : α → β} {l : List α}
    (hlen : l.length < 2 ^ 64) (h : ∀ a ∈ l, Reads dec (enc a) (f a)) :
    Reads (decodeSeq dec) (encodeSeq enc l) (l.map f) :=
  (reads_u64 hlen).bind (reads_replicate h)

end Reading

/-! ## Lengths -/

/-- A number of `k + 1` digits takes no more bytes. -/
theorem length_varintDigits_le (k' : ℕ) {k n : ℕ} (hn : n < 128 ^ (k + 1)) :
    (varintDigits k' n).length ≤ k + 1 := by
  induction k' generalizing k n with
  | zero => exact Nat.succ_le_succ (Nat.zero_le k)
  | succ k' ih =>
    rw [varintDigits]
    by_cases hlt : n < 128
    · rw [if_pos hlt]
      exact Nat.succ_le_succ (Nat.zero_le k)
    · rw [if_neg hlt, List.length_cons]
      cases k with
      | zero => omega
      | succ k =>
        rw [pow_succ] at hn
        exact Nat.succ_le_succ (ih (Nat.div_lt_of_lt_mul (by linarith)))

theorem length_encodeVarint_u32 {n : ℕ} (h : n < 2 ^ 32) : (encodeVarint n).length ≤ 5 :=
  length_varintDigits_le 9 (by omega)

theorem length_encodeVarint_le (n : ℕ) : (encodeVarint n).length ≤ 10 := by
  have h : ∀ k n, (varintDigits k n).length ≤ k + 1 := by
    intro k
    induction k with
    | zero => exact fun _ ↦ le_rfl
    | succ k ih =>
      intro n
      rw [varintDigits]
      split
      · exact Nat.succ_le_succ (Nat.zero_le _)
      · exact Nat.succ_le_succ (ih _)
  exact h 9 n

/-- A sequence takes no more than its values at most, and its length before them. -/
theorem length_encodeSeq_le {α : Type*} {enc : α → List UInt8} {l : List α} {k : ℕ}
    (h : ∀ a ∈ l, (enc a).length ≤ k) :
    (encodeSeq enc l).length ≤ (encodeVarint l.length).length + l.length * k := by
  have hsum : (l.flatMap enc).length ≤ l.length * k := by
    rw [List.length_flatMap]
    refine (List.sum_le_card_nsmul _ k fun n hn ↦ ?_).trans (by simp)
    obtain ⟨a, ha, rfl⟩ := List.mem_map.mp hn
    exact h a ha
  rw [encodeSeq, List.length_append]
  exact Nat.add_le_add_left hsum _

example : encodeVarint 300 = [0xAC, 0x02] := by decide

example : fromBytes decodeU64 [0xAC, 0x02, 0xFF] = some 300 := by decide

end Postcard
