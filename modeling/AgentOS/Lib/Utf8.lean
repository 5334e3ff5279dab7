import Mathlib

/-!
# Cutting UTF-8

A text that is cut into pieces has only pieces that are texts themselves when it is cut between characters. No
character begins another one, so a text whose front is a text goes on with a text.
-/

namespace Utf8

/-- The bytes are characters in UTF-8. -/
def Valid (bytes : List UInt8) : Prop := ∃ cs : List Char, cs.flatMap String.utf8EncodeChar = bytes

variable {a b bytes : List UInt8} {c d : Char} {pieces : List (List UInt8)}

theorem valid_nil : Valid [] := ⟨[], rfl⟩

theorem Valid.append (ha : Valid a) (hb : Valid b) : Valid (a ++ b) := by
  obtain ⟨cs, rfl⟩ := ha
  obtain ⟨ds, rfl⟩ := hb
  exact ⟨cs ++ ds, List.flatMap_append⟩

/-- The first character is known from the bytes, whatever comes behind it. -/
theorem encode_append_inj (h : String.utf8EncodeChar c ++ a = String.utf8EncodeChar d ++ b) :
    c = d ∧ a = b := by
  have hdecode : ∀ (e : Char) (x : List UInt8),
      ByteArray.utf8DecodeChar? (String.utf8EncodeChar e ++ x).toByteArray 0 = some e := by
    intro e x
    rw [List.toByteArray_append]
    exact ByteArray.utf8DecodeChar?_utf8EncodeChar_append
  have hc := hdecode c a
  rw [h, hdecode d b] at hc
  obtain rfl := Option.some.inj hc
  exact ⟨rfl, List.append_cancel_left h⟩

/-- **Behind a text** a text goes on with a text. -/
theorem Valid.of_append (ha : Valid a) (h : Valid (a ++ b)) : Valid b := by
  obtain ⟨cs, rfl⟩ := ha
  obtain ⟨ds, hds⟩ := h
  induction cs generalizing ds with
  | nil => exact ⟨ds, hds⟩
  | cons c cs ih =>
    cases ds with
    | nil =>
      have hnil := List.append_eq_nil_iff.mp hds.symm
      rw [List.flatMap_cons] at hnil
      exact absurd (List.append_eq_nil_iff.mp hnil.1).1 String.utf8EncodeChar_ne_nil
    | cons d ds =>
      rw [List.flatMap_cons, List.flatMap_cons, List.append_assoc] at hds
      exact ih ds (encode_append_inj hds).2

/-- **All pieces are texts** when the bytes up to each cut are one. -/
theorem forall_valid_iff : (∀ piece ∈ pieces, Valid piece) ↔
    ∀ i ≤ pieces.length, Valid (pieces.take i).flatten := by
  constructor
  · intro h i hi
    induction i with
    | zero => exact valid_nil
    | succ i ih =>
      rw [List.take_succ_eq_append_getElem hi, List.flatten_append, List.flatten_singleton]
      exact (ih (Nat.le_of_succ_le hi)).append (h _ (List.getElem_mem _))
  · intro h piece hpiece
    obtain ⟨i, hi, rfl⟩ := List.getElem_of_mem hpiece
    have hnext := h (i + 1) hi
    rw [List.take_succ_eq_append_getElem hi, List.flatten_append, List.flatten_singleton] at hnext
    exact (h i hi.le).of_append hnext

theorem utf8Encode_eq (cs : List Char) :
    cs.utf8Encode = ⟨(cs.flatMap String.utf8EncodeChar).toArray⟩ :=
  ByteArray.ext (by rw [List.utf8Encode, List.data_toByteArray])

theorem valid_iff : Valid bytes ↔ ByteArray.IsValidUTF8 ⟨bytes.toArray⟩ := by
  constructor
  · rintro ⟨cs, rfl⟩
    exact .intro cs (utf8Encode_eq cs).symm
  · rintro ⟨cs, hcs⟩
    rw [utf8Encode_eq] at hcs
    exact ⟨cs, Array.toList_inj.mpr (congrArg ByteArray.data hcs).symm⟩

instance (bytes : List UInt8) : Decidable (Valid bytes) := decidable_of_iff _ valid_iff.symm

/-- The bytes of a text can be read as a string, which has these bytes. -/
theorem Valid.fromUTF8 (h : Valid bytes) : ∃ string : String,
    String.fromUTF8? ⟨bytes.toArray⟩ = some string ∧ string.toUTF8.data.toList = bytes := by
  refine ⟨⟨⟨bytes.toArray⟩, valid_iff.mp h⟩, ?_, rfl⟩
  rw [String.fromUTF8?, dif_pos (valid_iff.mp h)]
  rfl

theorem valid_of_fromUTF8 {string : String} (h : String.fromUTF8? ⟨bytes.toArray⟩ = some string) :
    Valid bytes := by
  by_contra hinvalid
  rw [String.fromUTF8?, dif_neg fun hvalid ↦ hinvalid (valid_iff.mpr hvalid)] at h
  cases h

end Utf8
