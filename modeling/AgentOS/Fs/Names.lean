import Mathlib
import AgentOS.Fs.Layout

/-!
# Names in directory entries

A name lies in a slot of 28 bytes, with zeros behind it, and is read up to the first zero. So a name comes
back as it was when it is at most 27 bytes long and has no NUL in it. What is behind a NUL is lost, and a
name that fills the slot cannot be read at all.
-/

namespace AgentOS.Fs

/-- The characters before the first NUL. -/
def shown (name : String) : String := String.ofList (name.toList.takeWhile (· ≠ '\x00'))

/-- There is a zero in the slot of the name. -/
def Terminated (name : String) : Prop :=
  (DirEntry.nameBytes name).length ≤ nameLengthLimit ∨ '\x00' ∈ name.toList

/-- The names that the slot is made for. -/
def Proper (name : String) : Prop :=
  (DirEntry.nameBytes name).length ≤ nameLengthLimit ∧ '\x00' ∉ name.toList

instance (name : String) : Decidable (Terminated name) := inferInstanceAs (Decidable (_ ∨ _))

instance (name : String) : Decidable (Proper name) := inferInstanceAs (Decidable (_ ∧ _))

theorem Proper.terminated {name : String} (h : Proper name) : Terminated name := Or.inl h.1

theorem Proper.shown {name : String} (h : Proper name) : shown name = name := by
  have hall : name.toList.takeWhile (· ≠ '\x00') = name.toList := by
    refine List.takeWhile_eq_self_iff.mpr fun c hc ↦ ?_
    exact decide_eq_true fun heq ↦ h.2 (heq ▸ hc)
  rw [Fs.shown, hall, String.ofList_toList]

/-- What is shown has no NUL in it. -/
theorem nul_not_mem_shown (name : String) : '\x00' ∉ (shown name).toList := by
  rw [shown, String.toList_ofList]
  intro hmem
  simpa using List.mem_takeWhile_imp hmem

/-! ## UTF-8 -/

theorem zero_eq_ofNat {k : ℕ} : 0 = UInt8.ofNat k ↔ k % 256 = 0 := by
  rw [← UInt8.toNat_inj, UInt8.toNat_ofNat']
  exact eq_comm

/-- Only NUL has a zero in its UTF-8 encoding. -/
theorem zero_mem_utf8EncodeChar {c : Char} : 0 ∈ String.utf8EncodeChar c ↔ c = '\x00' := by
  have hc : c = '\x00' ↔ c.val.toNat = 0 := by
    rw [Char.ext_iff, ← UInt32.toNat_inj]
    rfl
  rw [hc, String.utf8EncodeChar]
  split_ifs <;> simp only [List.mem_cons, List.not_mem_nil, or_false, zero_eq_ofNat] <;> omega

theorem nameBytes_eq (name : String) :
    DirEntry.nameBytes name = name.toList.flatMap String.utf8EncodeChar := by
  rw [DirEntry.nameBytes, String.toUTF8_eq_toByteArray, ← String.utf8Encode_toList, List.utf8Encode,
    List.data_toByteArray]

theorem zero_mem_nameBytes {name : String} : 0 ∈ DirEntry.nameBytes name ↔ '\x00' ∈ name.toList := by
  rw [nameBytes_eq, List.mem_flatMap]
  constructor
  · rintro ⟨c, hc, hzero⟩
    rwa [← zero_mem_utf8EncodeChar.mp hzero]
  · intro h
    exact ⟨_, h, zero_mem_utf8EncodeChar.mpr rfl⟩

/-- The bytes before the first zero are those of the characters before the first NUL. -/
theorem takeWhile_utf8 (cs : List Char) : (cs.flatMap String.utf8EncodeChar).takeWhile (· ≠ 0) =
    (cs.takeWhile (· ≠ '\x00')).flatMap String.utf8EncodeChar := by
  induction cs with
  | nil => rfl
  | cons c cs ih =>
    by_cases hc : c = '\x00'
    · subst hc
      rfl
    · have hall : ∀ b ∈ String.utf8EncodeChar c, decide (b ≠ 0) = true := fun b hb ↦
        decide_eq_true fun heq ↦ hc (zero_mem_utf8EncodeChar.mp (heq ▸ hb))
      have hcons : (c :: cs).takeWhile (· ≠ '\x00') = c :: cs.takeWhile (· ≠ '\x00') :=
        List.takeWhile_cons_of_pos (decide_eq_true hc)
      rw [List.flatMap_cons, List.takeWhile_append_of_pos hall, ih, hcons, List.flatMap_cons]

theorem fromUTF8?_nameBytes (name : String) :
    String.fromUTF8? ⟨(DirEntry.nameBytes name).toArray⟩ = some name := by
  have hvalid : name.toUTF8.IsValidUTF8 := name.isValidUTF8
  rw [DirEntry.nameBytes, Array.toArray_toList, String.fromUTF8?, dif_pos hvalid]
  rfl

/-- Zeros behind some bytes are not looked at. -/
theorem takeWhile_append_zeros (bs : List UInt8) (k : ℕ) :
    (bs ++ List.replicate k 0).takeWhile (· ≠ 0) = bs.takeWhile (· ≠ 0) := by
  induction bs with
  | nil =>
    cases k with
    | zero => rfl
    | succ k => rfl
  | cons b bs ih =>
    by_cases hb : b = 0
    · subst hb
      rfl
    · have hpos : decide (b ≠ 0) = true := decide_eq_true hb
      rw [List.cons_append, List.takeWhile_cons, if_pos hpos, ih, List.takeWhile_cons, if_pos hpos]

/-! ## Entries -/

namespace DirEntry

/-- The entry of a name that fits in the slot. -/
def entryOf (name : String) (inodeNumber : UInt32) : DirEntry where
  name := Vector.ofFn fun i ↦ (nameBytes name).getD i 0
  inodeNumber

theorem new_eq_some {name : String} (h : (nameBytes name).length ≤ nameLengthLimit + 1)
    (inodeNumber : UInt32) : new name inodeNumber = some (entryOf name inodeNumber) := if_pos h

theorem new_eq_none {name : String} (h : nameLengthLimit + 1 < (nameBytes name).length)
    (inodeNumber : UInt32) : new name inodeNumber = none := if_neg (Nat.not_le.mpr h)

theorem getElem_entryOf (name : String) (inodeNumber : UInt32) {i : ℕ} (hi : i < nameLengthLimit + 1) :
    (entryOf name inodeNumber).name[i] = (nameBytes name).getD i 0 := by
  rw [entryOf, Vector.getElem_ofFn]

theorem toList_entryOf {name : String} (h : (nameBytes name).length ≤ nameLengthLimit + 1)
    (inodeNumber : UInt32) : (entryOf name inodeNumber).name.toList =
      nameBytes name ++ List.replicate (nameLengthLimit + 1 - (nameBytes name).length) 0 := by
  have hlength : (nameBytes name ++ List.replicate (nameLengthLimit + 1 - (nameBytes name).length)
      (0 : UInt8)).length = nameLengthLimit + 1 := by
    rw [List.length_append, List.length_replicate, Nat.add_sub_cancel' h]
  refine List.ext_getElem (by rw [Vector.length_toList, hlength]) fun i hi hi' ↦ ?_
  have hi'' : i < nameLengthLimit + 1 := hlength ▸ hi'
  rw [Vector.getElem_toList, getElem_entryOf name inodeNumber hi'', List.getElem_append]
  split
  · rename_i hlt
    exact List.getD_eq_getElem _ _ hlt
  · rename_i hlt
    rw [List.getElem_replicate]
    exact List.getD_eq_default _ _ (Nat.le_of_not_lt hlt)

theorem zero_mem_entryOf {name : String} (h : (nameBytes name).length ≤ nameLengthLimit + 1)
    (inodeNumber : UInt32) : 0 ∈ (entryOf name inodeNumber).name.toList ↔ Terminated name := by
  rw [toList_entryOf h, List.mem_append, zero_mem_nameBytes, List.mem_replicate, Terminated]
  constructor
  · rintro (hmem | ⟨hne, -⟩)
    · exact Or.inr hmem
    · exact Or.inl (by omega)
  · rintro (hle | hmem)
    · exact Or.inr ⟨by omega, rfl⟩
    · exact Or.inl hmem

/-- **Reading a name back** gives what is before the first NUL. -/
theorem getName_entryOf {name : String} (h : (nameBytes name).length ≤ nameLengthLimit + 1)
    (inodeNumber : UInt32) : (entryOf name inodeNumber).getName =
      if Terminated name then some (shown name) else none := by
  rw [getName]
  by_cases hterm : Terminated name
  · rw [if_pos ((zero_mem_entryOf h inodeNumber).mpr hterm), if_pos hterm, toList_entryOf h]
    have hbytes : (name.toList.takeWhile (· ≠ '\x00')).flatMap String.utf8EncodeChar =
        nameBytes (shown name) := by rw [nameBytes_eq, shown, String.toList_ofList]
    rw [takeWhile_append_zeros, nameBytes_eq, takeWhile_utf8, hbytes, fromUTF8?_nameBytes]
  · rw [if_neg ((zero_mem_entryOf h inodeNumber).not.mpr hterm), if_neg hterm]

theorem getName_of_proper {name : String} (h : Proper name) (inodeNumber : UInt32) :
    (entryOf name inodeNumber).getName = some name := by
  rw [getName_entryOf (h.1.trans (Nat.le_succ _)), if_pos h.terminated, h.shown]

@[simp] theorem length_asBytes (e : DirEntry) : e.asBytes.length = direntSz := by
  rw [asBytes, List.length_map, List.length_range]

theorem ofBytes_asBytes (e : DirEntry) : ofBytes e.asBytes = e := by
  have hget : ofBytes e.asBytes = layout.get (layout.set e fun _ ↦ 0) := by
    refine layout.get_congr fun i hi ↦ ?_
    have hi' : i < direntSz := hi
    unfold asBytes
    rw [List.getD_eq_getElem _ _ (by rwa [List.length_map, List.length_range]), List.getElem_map,
      List.getElem_range]
  rw [hget, layout.get_set]

end DirEntry

/-! ## Directories -/

/-- The entries of a directory. Inodes are handed out one after the other, and number 0 is the directory. -/
def dirEntries (names : List String) : List DirEntry :=
  names.mapIdx fun k name ↦ DirEntry.entryOf name (UInt32.ofNat (k + 1))

/-- The bytes of a directory. -/
def dirBytes (names : List String) : List UInt8 := (dirEntries names).flatMap DirEntry.asBytes

@[simp] theorem dirBytes_nil : dirBytes [] = [] := rfl

theorem dirBytes_concat (names : List String) (name : String) : dirBytes (names ++ [name]) =
    dirBytes names ++ (DirEntry.entryOf name (UInt32.ofNat (names.length + 1))).asBytes := by
  rw [dirBytes, dirEntries, List.mapIdx_concat, List.flatMap_append, List.flatMap_singleton]
  rfl

/-- Pieces of one length lie one behind the other. -/
theorem drop_flatMap {α β : Type} {f : α → List β} {c : ℕ} (h : ∀ a, (f a).length = c) (l : List α) (k : ℕ) :
    (l.flatMap f).drop (c * k) = (l.drop k).flatMap f := by
  induction l generalizing k with
  | nil => simp
  | cons a l ih =>
    cases k with
    | zero => rfl
    | succ k =>
      rw [List.flatMap_cons, Nat.mul_succ, Nat.add_comm, ← List.drop_drop, List.drop_left' (h a), ih,
        List.drop_succ_cons]

@[simp] theorem length_dirBytes (names : List String) :
    (dirBytes names).length = names.length * direntSz := by
  have hsum : ∀ es : List DirEntry, (es.flatMap DirEntry.asBytes).length = es.length * direntSz := by
    intro es
    induction es with
    | nil => rfl
    | cons e es ih =>
      rw [List.flatMap_cons, List.length_append, DirEntry.length_asBytes, ih, List.length_cons,
        Nat.succ_mul, Nat.add_comm]
  rw [dirBytes, hsum, dirEntries, List.length_mapIdx]

/-- The bytes of one entry. -/
theorem slice_dirBytes {names : List String} {k : ℕ} {name : String} (h : names[k]? = some name) :
    ((dirBytes names).drop (direntSz * k)).take direntSz =
      (DirEntry.entryOf name (UInt32.ofNat (k + 1))).asBytes := by
  have hentry : (dirEntries names)[k]? = some (DirEntry.entryOf name (UInt32.ofNat (k + 1))) := by
    rw [dirEntries, List.getElem?_mapIdx, h, Option.map_some]
  obtain ⟨hlt, heq⟩ := List.getElem?_eq_some_iff.mp hentry
  rw [dirBytes, drop_flatMap DirEntry.length_asBytes, List.drop_eq_getElem_cons hlt, heq, List.flatMap_cons,
    List.take_left' (DirEntry.length_asBytes _)]

end AgentOS.Fs
