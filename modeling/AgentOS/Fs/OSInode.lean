import Mathlib
import AgentOS.Fs.Reopening

/-!
# Open files

`os/src/fs/inode.rs`. The kernel opens an inode as an `OSInode`, which keeps the offset. A user's buffer comes
as slices, because it is cut where its pages end, and each slice is read or written on its own. The bytes of
the file do not show it: slices that are not empty do what one buffer does.
-/

namespace AgentOS.Fs

open Exec

/-- The OS inode inner in 'UPSafeCell' -/
structure OSInodeInner where
  offset : ℕ
  inode : Inode

/-- A wrapper around a filesystem inode to implement File trait atop -/
structure OSInode where
  readable : Bool
  writable : Bool
  inner : OSInodeInner

namespace OSInodeInner

/-- The loop of `read`. The number of bytes read, and the slices. -/
def readSlices (inner : OSInodeInner) (totalReadSize : ℕ) :
    List (List UInt8) → Exec Storage (ℕ × List (List UInt8) × OSInodeInner)
  | [] => pure (totalReadSize, [], inner)
  | slice :: slices => do
    let (readSize, slice) ← inner.inode.readAt inner.offset slice
    if readSize = 0 then pure (totalReadSize, slice :: slices, inner)
    else
      let inner := { inner with offset := inner.offset + readSize }
      let (total, rest, inner) ← inner.readSlices (totalReadSize + readSize) slices
      pure (total, slice :: rest, inner)

/-- The loop of `write`. -/
def writeSlices (inner : OSInodeInner) (totalWriteSize : ℕ) :
    List (List UInt8) → Exec Storage (ℕ × OSInodeInner)
  | [] => pure (totalWriteSize, inner)
  | slice :: slices => do
    let writeSize ← inner.inode.writeAt inner.offset slice
    assert (writeSize = slice.length)
    let inner := { inner with offset := inner.offset + writeSize }
    inner.writeSlices (totalWriteSize + writeSize) slices

end OSInodeInner

namespace OSInode

/-- `read`: the result, the slices and the file afterwards. -/
def read (self : OSInode) (buf : List (List UInt8)) :
    Exec Storage (ℕ × List (List UInt8) × OSInode) := do
  let (totalReadSize, buf, inner) ← self.inner.readSlices 0 buf
  pure (totalReadSize, buf, { self with inner })

/-- `write`: the result and the file afterwards. -/
def write (self : OSInode) (buf : List (List UInt8)) : Exec Storage (ℕ × OSInode) := do
  let (totalWriteSize, inner) ← self.inner.writeSlices 0 buf
  pure (totalWriteSize, { self with inner })

end OSInode

/-! ## One write after the other -/

/-- A write that goes on where the one before has ended. -/
theorem overlay_overlay (bytes : List UInt8) (offset : ℕ) (a b : List UInt8) :
    overlay (overlay bytes offset a) (offset + a.length) b = overlay bytes offset (a ++ b) := by
  refine List.ext_getElem ?_ fun k hk hk' ↦ ?_
  · simp only [length_overlay, List.length_append]
    omega
  · rw [← List.getD_eq_getElem _ 0 hk, ← List.getD_eq_getElem _ 0 hk', getD_overlay, getD_overlay,
      getD_overlay, List.length_append]
    by_cases hb : offset + a.length ≤ k ∧ k < offset + a.length + b.length
    · rw [if_pos hb, if_pos (by omega), List.getD_append_right _ _ _ _ (by omega)]
      congr 1
      omega
    · rw [if_neg hb]
      by_cases ha : offset ≤ k ∧ k < offset + a.length
      · rw [if_pos ha, if_pos (by omega), List.getD_append _ _ _ _ (by omega)]
      · rw [if_neg ha, if_neg (by omega)]

/-- A read that goes on where the one before has ended. -/
theorem readInto_append (bytes : List UInt8) (offset : ℕ) (a b : List UInt8) :
    readInto bytes offset (a ++ b) = readInto bytes offset a ++
      readInto bytes (offset + min a.length (bytes.length - offset)) b := by
  simp only [readInto, List.length_append]
  rcases le_total a.length (bytes.length - offset) with hle | hle
  · -- the first buffer is filled
    rw [Nat.min_eq_left hle, List.take_add, List.drop_drop, List.drop_append, List.append_assoc,
      List.drop_of_length_le hle, List.append_nil, List.nil_append, Nat.sub_sub]
  · -- the end of the file is in the first buffer
    have hend : bytes.length ≤ offset + (bytes.length - offset) := by omega
    have hlen : (bytes.drop offset).length ≤ a.length := by rwa [List.length_drop]
    rw [Nat.min_eq_right hle, List.take_of_length_le (hlen.trans (Nat.le_add_right _ _)),
      List.take_of_length_le hlen, List.drop_of_length_le hend, List.take_nil, List.nil_append,
      List.drop_append_of_le_length hle, List.append_assoc, Nat.sub_eq_zero_of_le hend, List.drop_zero]

/-- Behind what was read the buffer is as it was. -/
theorem take_readInto (bytes : List UInt8) (offset : ℕ) (buf : List UInt8) :
    (readInto bytes offset buf).take (min buf.length (bytes.length - offset)) ++
      buf.drop (min buf.length (bytes.length - offset)) = readInto bytes offset buf := by
  have hlen : ((bytes.drop offset).take buf.length).length = min buf.length (bytes.length - offset) := by
    rw [List.length_take, List.length_drop]
  rw [readInto, List.take_left' hlen]
  rcases le_total buf.length (bytes.length - offset) with hle | hle
  · rw [Nat.min_eq_left hle, List.drop_length, List.drop_of_length_le hle]
  · rw [Nat.min_eq_right hle]

/-- Nothing is read from the end on. -/
theorem readInto_of_le {bytes : List UInt8} {offset : ℕ} (h : bytes.length ≤ offset) (buf : List UInt8) :
    readInto bytes offset buf = buf := by
  rw [readInto, List.drop_of_length_le h, List.take_nil, Nat.sub_eq_zero_of_le h, List.drop_zero,
    List.nil_append]

@[simp] theorem length_readInto (bytes : List UInt8) (offset : ℕ) (buf : List UInt8) :
    (readInto bytes offset buf).length = buf.length := by
  rw [readInto, List.length_append, List.length_take, List.length_drop, List.length_drop]
  omega

/-! ## The loops -/

variable {g : Geometry} {D : DeviceId} {V : Volume} {s : Storage} {i : ℕ} {bytes : List UInt8}

/-- **Slices written one after the other** are one write. -/
theorem Ready.writeSlices {slices : List (List UInt8)} (h : Ready g D V s) (hi : V[i]? = some bytes)
    (hslices : ∀ slice ∈ slices, slice ≠ []) {offset : ℕ} (hnil : slices = [] → offset ≤ bytes.length)
    (hfits : Volume.Fits g (V.set i (overlay bytes offset slices.flatten))) (total : ℕ) :
    ∃ s', (OSInodeInner.writeSlices ⟨offset, g.inode D i⟩ total slices).Returns s
        (total + slices.flatten.length, ⟨offset + slices.flatten.length, g.inode D i⟩) s' ∧
      Ready g D (V.set i (overlay bytes offset slices.flatten)) s' := by
  induction slices generalizing V s bytes offset total with
  | nil =>
    have hsame : V.set i (overlay bytes offset []) = V := by
      obtain ⟨hlt, rfl⟩ := List.getElem?_eq_some_iff.mp hi
      rw [overlay_nil (hnil rfl), List.set_getElem_self]
    exact ⟨s, returns_pure.mpr ⟨rfl, rfl⟩, by rwa [List.flatten_nil, hsame]⟩
  | cons slice slices ih =>
    have hlt := (List.getElem?_eq_some_iff.mp hi).1
    rw [List.flatten_cons] at hfits
    obtain ⟨s₁, hret, hready, -⟩ := h.writeAt hi (div_lt_of_ne_nil _ _ (hslices slice List.mem_cons_self))
      (hfits.shorter hi (overlay bytes offset slice)
        (by simp only [length_overlay, List.length_append]; omega))
    obtain ⟨s', hrest, hready'⟩ := ih hready (List.getElem?_set_self hlt)
      (fun b hb ↦ hslices b (List.mem_cons_of_mem _ hb))
      (show slices = [] → offset + slice.length ≤ (overlay bytes offset slice).length from fun _ ↦ by
        rw [length_overlay]
        exact Nat.le_max_right _ _)
      (by rwa [overlay_overlay, List.set_set]) (total + slice.length)
    rw [overlay_overlay, List.set_set] at hready'
    rw [Nat.add_assoc, Nat.add_assoc, ← List.length_append] at hrest
    rw [List.flatten_cons]
    exact ⟨s', hret.bind ((returns_assert_of rfl _).bind hrest), hready'⟩

/-- **Slices read one after the other** are one read, wherever the file ends. -/
theorem Ready.readSlices {slices : List (List UInt8)} (h : Ready g D V s) (hi : V[i]? = some bytes)
    (hslices : ∀ slice ∈ slices, slice ≠ []) (offset total : ℕ) :
    ∃ filled s', (OSInodeInner.readSlices ⟨offset, g.inode D i⟩ total slices).Returns s
        (total + min slices.flatten.length (bytes.length - offset), filled,
          ⟨offset + min slices.flatten.length (bytes.length - offset), g.inode D i⟩) s' ∧
      Ready g D V s' ∧ filled.flatten = readInto bytes offset slices.flatten ∧
      filled.map List.length = slices.map List.length := by
  induction slices generalizing s offset total with
  | nil =>
    refine ⟨[], s, returns_pure.mpr ⟨?_, rfl⟩, h, ?_, rfl⟩
    · simp
    · simp [readInto]
  | cons slice slices ih =>
    obtain ⟨s₁, hret, hready, -⟩ := h.readAt hi offset slice
    have hpos : 0 < slice.length := List.length_pos_iff.mpr (hslices slice List.mem_cons_self)
    rw [List.flatten_cons, List.length_append]
    by_cases hzero : min slice.length (bytes.length - offset) = 0
    · -- the file has ended before this slice
      have hend : bytes.length ≤ offset := by omega
      have hnone : min (slice.length + slices.flatten.length) (bytes.length - offset) = 0 := by omega
      refine ⟨slice :: slices, s₁, hret.bind ?_, hready, ?_, rfl⟩
      · dsimp only
        rw [if_pos hzero, hnone, readInto_of_le hend]
        exact returns_pure.mpr ⟨rfl, rfl⟩
      · rw [List.flatten_cons, readInto_of_le hend]
    · obtain ⟨filled, s', hrest, hready', hfilled, hlengths⟩ := ih hready
        (fun b hb ↦ hslices b (List.mem_cons_of_mem _ hb))
        (offset + min slice.length (bytes.length - offset))
        (total + min slice.length (bytes.length - offset))
      have hcount : min slice.length (bytes.length - offset) +
          min slices.flatten.length (bytes.length - (offset + min slice.length (bytes.length - offset))) =
          min (slice.length + slices.flatten.length) (bytes.length - offset) := by omega
      rw [Nat.add_assoc, Nat.add_assoc, hcount] at hrest
      refine ⟨readInto bytes offset slice :: filled, s', hret.bind ?_, hready', ?_, ?_⟩
      · dsimp only
        rw [if_neg hzero]
        exact hrest.bind (returns_pure.mpr ⟨rfl, rfl⟩)
      · rw [List.flatten_cons, hfilled, readInto_append]
      · rw [List.map_cons, List.map_cons, hlengths, length_readInto]

end AgentOS.Fs
