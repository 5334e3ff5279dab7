import Mathlib
import AgentOS.Fs.Geometry

/-!
# Free data blocks

A data block is either free and zero, or it has been handed out and its bit is set. Allocation hands out a
free block, and deallocation clears a block and takes it back.
-/

namespace AgentOS.Fs

open Exec

/-- The data blocks of the list have been handed out. The others are zero. -/
structure Space (g : Geometry) (l : List UInt32) (m : ℕ → Block) : Prop where
  area : ∀ b ∈ l, g.dataStart ≤ b.toNat ∧ b.toNat < g.dataStart + g.capacity
  bit_iff : ∀ i < g.dataBitmap.maximum,
    (g.dataBitmap.bit m i = true ↔ ∃ b ∈ l, b.toNat = g.dataStart + i)
  zero : ∀ id, g.dataStart ≤ id → id < g.dataStart + g.dataBlocks → (∀ b ∈ l, b.toNat ≠ id) →
    m id = zeroBlock

namespace Space

variable {g : Geometry} {l l' : List UInt32} {m m' : ℕ → Block} {D : DeviceId}
  {used : List (ℕ × Bool)}

theorem capacity_le (g : Geometry) : g.capacity ≤ g.dataBlocks ∧ g.capacity ≤ g.dataBitmap.maximum :=
  ⟨Nat.min_le_left _ _, Nat.min_le_right _ _⟩

theorem congr_mem (h : Space g l m) (hmem : ∀ b, b ∈ l ↔ b ∈ l') : Space g l' m where
  area b hb := h.area b ((hmem b).mpr hb)
  bit_iff i hi := by simp only [h.bit_iff i hi, hmem]
  zero id hle hlt hid := h.zero id hle hlt fun b hb ↦ hid b ((hmem b).mp hb)

theorem region_lt {id : ℕ} (h : g.dataBitmap.Region id) : g.dataBitmapStart ≤ id ∧ id < g.dataStart := h

theorem bit_of_frame (h : ∀ id, g.dataBitmap.Region id → m' id = m id) {i : ℕ}
    (hi : i < g.dataBitmap.maximum) : g.dataBitmap.bit m' i = g.dataBitmap.bit m i :=
  Bitmap.bit_congr (h _ (Bitmap.region_block ((Nat.div_lt_iff_lt_mul (by decide)).mpr hi)))

/-- Writing to blocks that have been handed out does no harm. -/
theorem frame (h : Space g l m) (hbitmap : ∀ id, g.dataBitmap.Region id → m' id = m id)
    (hzero : ∀ id, g.dataStart ≤ id → (∀ b ∈ l, b.toNat ≠ id) → m' id = m id) : Space g l m' where
  area := h.area
  bit_iff i hi := by rw [bit_of_frame hbitmap hi, h.bit_iff i hi]
  zero id hle hlt hid := by rw [hzero id hle hid, h.zero id hle hlt hid]

/-- As long as not all blocks have been handed out, there is a free one. -/
theorem exists_free (hroom : l.length < g.capacity) :
    ∃ i < g.capacity, ∀ b ∈ l, b.toNat ≠ g.dataStart + i := by
  by_contra! hall
  have hsub : (Finset.range g.capacity).image (g.dataStart + ·) ⊆ (l.map UInt32.toNat).toFinset := by
    intro id hid
    obtain ⟨i, hi, rfl⟩ := Finset.mem_image.mp hid
    obtain ⟨b, hb, heq⟩ := hall i (Finset.mem_range.mp hi)
    rw [List.mem_toFinset, ← heq]
    exact List.mem_map_of_mem hb
  have hcard := Finset.card_le_card hsub
  rw [Finset.card_image_of_injective _ (add_right_injective g.dataStart), Finset.card_range] at hcard
  have hlength := (l.map UInt32.toNat).toFinset_card_le
  rw [List.length_map] at hlength
  omega

/-- No more blocks are handed out than there are. -/
theorem length_le (h : Space g l m) (hnodup : l.Nodup) : l.length ≤ g.capacity := by
  have hsub : (l.map UInt32.toNat).toFinset ⊆ Finset.Ico g.dataStart (g.dataStart + g.capacity) := by
    intro id hid
    obtain ⟨b, hb, rfl⟩ := List.mem_map.mp (List.mem_toFinset.mp hid)
    exact Finset.mem_Ico.mpr (h.area b hb)
  have hcard := Finset.card_le_card hsub
  rwa [List.toFinset_card_of_nodup (hnodup.map fun _ _ ↦ UInt32.toNat_inj.mp), List.length_map, Nat.card_Ico,
    Nat.add_sub_cancel_left] at hcard

theorem toNat_block {i : ℕ} (hi : i < g.capacity) :
    (UInt32.ofNat i + UInt32.ofNat g.dataStart).toNat = g.dataStart + i := by
  have hsum := g.dataStart_add_dataBlocks
  have hlt := g.totalBlocks_lt
  have hle := (capacity_le g).1
  rw [UInt32.toNat_add, g.toNat_dataStart, UInt32.toNat_ofNat_of_lt' (by change _ < 2 ^ 32; omega)]
  omega

variable [HeldLimit]

/-- **Allocation** hands out a block that was free, when there is one. -/
theorem does_allocData_of_free (h : Space g l m)
    (hexists : ∃ i < g.capacity, ∀ b ∈ l, b.toNat ≠ g.dataStart + i)
    (hused : ∀ id ∈ used.map Prod.fst, id < g.dataBitmapStart) (hshort : used.length < HeldLimit.limit) :
    ∃ b m', Does D (g.efs D).allocData used m b m' ∧ b ∉ l ∧ Space g (b :: l) m' ∧
      m b.toNat = zeroBlock ∧ ∀ id, ¬g.dataBitmap.Region id → m' id = m id := by
  classical
  obtain ⟨hi, hfree⟩ := Nat.find_spec hexists
  have hmin := fun j hj ↦ Nat.find_min hexists (m := j) hj
  generalize Nat.find hexists = i at hi hfree hmin
  have hmax : i < g.dataBitmap.maximum := hi.trans_le (capacity_le g).2
  have hbit : g.dataBitmap.bit m i = false := by
    rw [← Bool.not_eq_true, h.bit_iff i hmax]
    rintro ⟨b, hb, heq⟩
    exact hfree b hb heq
  have hbefore : ∀ j < i, g.dataBitmap.bit m j = true := by
    intro j hj
    have hj' := hmin j hj
    push Not at hj'
    exact (h.bit_iff j (hj.trans hmax)).mpr (hj' (hj.trans hi))
  obtain ⟨m', hm', hsets⟩ := Bitmap.does_alloc (D := D) hmax hbit hbefore
    (fun id hid hregion ↦ Nat.not_le.mpr (hused id hid) (region_lt hregion).1) hshort
  have hblock : (UInt32.ofNat i + (g.efs D).dataAreaStartBlock).toNat = g.dataStart + i := toNat_block hi
  have hnew : UInt32.ofNat i + (g.efs D).dataAreaStartBlock ∉ l := fun hmem ↦ hfree _ hmem hblock
  have hdata : g.dataStart + i < g.dataStart + g.dataBlocks := by
    have := (capacity_le g).1
    omega
  refine ⟨_, m', hm'.bind ((does_unwrap rfl).bind (does_pure _)), hnew, ⟨?_, fun j hj ↦ ?_, ?_⟩, ?_,
    hsets.frame⟩
  · intro b hb
    rcases List.mem_cons.mp hb with rfl | hb
    · omega
    · exact h.area b hb
  · rw [hsets.bit]
    by_cases hji : j = i
    · subst hji
      rw [Function.update_self]
      exact ⟨fun _ ↦ ⟨_, List.mem_cons_self, hblock⟩, fun _ ↦ rfl⟩
    · rw [Function.update_of_ne hji, h.bit_iff j hj]
      constructor
      · rintro ⟨b, hb, heq⟩
        exact ⟨b, List.mem_cons_of_mem _ hb, heq⟩
      · rintro ⟨b, hb, heq⟩
        rcases List.mem_cons.mp hb with rfl | hb
        · exact absurd (hblock.symm.trans heq) (by omega)
        · exact ⟨b, hb, heq⟩
  · intro id hle hlt hid
    rw [hsets.frame id fun hregion ↦ Nat.not_le.mpr (region_lt hregion).2 hle]
    exact h.zero id hle hlt fun b hb ↦ hid b (List.mem_cons_of_mem _ hb)
  · rw [hblock]
    exact h.zero _ (by omega) hdata hfree

theorem does_allocData (h : Space g l m) (hroom : l.length < g.capacity)
    (hused : ∀ id ∈ used.map Prod.fst, id < g.dataBitmapStart) (hshort : used.length < HeldLimit.limit) :
    ∃ b m', Does D (g.efs D).allocData used m b m' ∧ b ∉ l ∧ Space g (b :: l) m' ∧
      m b.toNat = zeroBlock ∧ ∀ id, ¬g.dataBitmap.Region id → m' id = m id :=
  h.does_allocData_of_free (exists_free hroom) hused hshort

/-- **Deallocation** takes back a block. -/
theorem does_deallocData {b : UInt32} (h : Space g (b :: l) m) (hnodup : (b :: l).Nodup)
    (hused : ∀ id ∈ used.map Prod.fst, id < g.dataBitmapStart) (hshort : used.length < HeldLimit.limit) :
    ∃ m', Does D ((g.efs D).deallocData b) used m () m' ∧ Space g l m' ∧
      ∀ id, ¬g.dataBitmap.Region id → b.toNat ≠ id → m' id = m id := by
  obtain ⟨hle, hlt⟩ := h.area b List.mem_cons_self
  have hareas := g.areas
  have hid : b.toNat ∉ used.map Prod.fst := fun hin ↦ by
    have := hused _ hin
    omega
  have hnot : b ∉ l := (List.nodup_cons.mp hnodup).1
  have hindex : (b - UInt32.ofNat g.dataStart).toNat = b.toNat - g.dataStart := by
    rw [UInt32.toNat_sub_of_le _ _ (by rw [UInt32.le_iff_toNat_le, g.toNat_dataStart]; exact hle),
      g.toNat_dataStart]
  have hmax : b.toNat - g.dataStart < g.dataBitmap.maximum := by
    have := (capacity_le g).2
    omega
  have hzeroed : Does D (modifyBlock D b.toNat dataBlock 0 fun _ ↦ pure ((), zeroBlock)) used m ()
      (Function.update m b.toNat zeroBlock) := by
    have hdoes := does_modifyBlock (D := D) (m := m) (L := dataBlock) (o := 0)
      (f := fun _ ↦ pure ((), zeroBlock)) hid hshort (by decide) (does_pure _)
    rwa [dataBlock, ByteLayout.write_bytes_self] at hdoes
  have hregion : ∀ id, g.dataBitmap.Region id → Function.update m b.toNat zeroBlock id = m id := by
    intro id hid
    refine Function.update_of_ne ?_ _ _
    have := (region_lt hid).2
    omega
  have hbit : g.dataBitmap.bit (Function.update m b.toNat zeroBlock) (b.toNat - g.dataStart) = true := by
    rw [bit_of_frame hregion hmax]
    exact (h.bit_iff _ hmax).mpr ⟨b, List.mem_cons_self, by omega⟩
  obtain ⟨m', hm', hsets⟩ := Bitmap.does_dealloc (D := D) hmax hbit
    (fun id hin hreg ↦ Nat.not_le.mpr (hused id hin) (region_lt hreg).1) hshort
  refine ⟨m', ?_, ⟨fun c hc ↦ h.area c (List.mem_cons_of_mem _ hc), fun j hj ↦ ?_, ?_⟩, ?_⟩
  · unfold EasyFileSystem.deallocData
    change Does D (modifyBlock D b.toNat dataBlock 0 (fun _ ↦ pure ((), zeroBlock)) >>= fun _ ↦
      g.dataBitmap.dealloc D (b - UInt32.ofNat g.dataStart).toNat) used m () m'
    rw [hindex]
    exact hzeroed.bind hm'
  · rw [hsets.bit]
    by_cases hjb : j = b.toNat - g.dataStart
    · subst hjb
      rw [Function.update_self]
      refine ⟨nofun, ?_⟩
      rintro ⟨c, hc, heq⟩
      have hcb : c = b := UInt32.toNat_inj.mp (by omega)
      exact absurd (hcb ▸ hc) hnot
    · rw [Function.update_of_ne hjb, bit_of_frame hregion hj, h.bit_iff j hj]
      constructor
      · rintro ⟨c, hc, heq⟩
        rcases List.mem_cons.mp hc with rfl | hc
        · omega
        · exact ⟨c, hc, heq⟩
      · rintro ⟨c, hc, heq⟩
        exact ⟨c, List.mem_cons_of_mem _ hc, heq⟩
  · intro id hle' hlt' hid'
    rw [hsets.frame id fun hreg ↦ Nat.not_le.mpr (region_lt hreg).2 hle']
    by_cases heq : id = b.toNat
    · rw [heq, Function.update_self]
    · rw [Function.update_of_ne heq]
      refine h.zero id hle' hlt' fun c hc ↦ ?_
      rcases List.mem_cons.mp hc with rfl | hc
      · exact Ne.symm heq
      · exact hid' c hc
  · intro id hreg hne
    rw [hsets.frame id hreg, Function.update_of_ne (Ne.symm hne)]

/-- Allocating some blocks one after the other. -/
theorem does_allocBlocks (n : ℕ) (h : Space g l m) (hnodup : l.Nodup) (hroom : l.length + n ≤ g.capacity)
    (hused : ∀ id ∈ used.map Prod.fst, id < g.dataBitmapStart) (hshort : used.length < HeldLimit.limit) :
    ∃ v m', Does D (Inode.allocBlocks (g.efs D) n) used m v m' ∧ v.length = n ∧
      (v ++ l).Nodup ∧ Space g (v ++ l) m' ∧ (∀ b ∈ v, m b.toNat = zeroBlock) ∧
      ∀ id, ¬g.dataBitmap.Region id → m' id = m id := by
  induction n generalizing l m with
  | zero => exact ⟨[], m, does_pure _, rfl, hnodup, h, nofun, fun _ _ ↦ rfl⟩
  | succ n ih =>
    obtain ⟨b, m₁, hm₁, hnew, hspace, hzero, hframe⟩ := h.does_allocData (D := D) (by omega) hused
      hshort
    obtain ⟨v, m', hm', hlength, hnodup', hspace', hzero', hframe'⟩ := ih hspace
      (List.nodup_cons.mpr ⟨hnew, hnodup⟩) (by rw [List.length_cons]; omega)
    have hperm : (v ++ b :: l).Perm (b :: v ++ l) := List.perm_middle
    refine ⟨b :: v, m', hm₁.bind (hm'.bind (does_pure _)), congrArg (· + 1) hlength,
      hperm.nodup_iff.mp hnodup', hspace'.congr_mem fun c ↦ hperm.mem_iff, fun c hc ↦ ?_, fun id hid ↦ ?_⟩
    · rcases List.mem_cons.mp hc with rfl | hc
      · exact hzero
      · have harea := hspace'.area c (List.mem_append_left _ hc)
        rw [← hframe c.toNat fun hreg ↦ Nat.not_le.mpr (region_lt hreg).2 harea.1]
        exact hzero' c hc
    · rw [hframe' id hid, hframe id hid]

/-- Deallocating some blocks one after the other. -/
theorem does_deallocBlocks (v : List UInt32) (h : Space g (v ++ l) m) (hnodup : (v ++ l).Nodup)
    (hused : ∀ id ∈ used.map Prod.fst, id < g.dataBitmapStart) (hshort : used.length < HeldLimit.limit) :
    ∃ m', Does D (Inode.deallocBlocks (g.efs D) v) used m () m' ∧ Space g l m' ∧
      ∀ id, ¬g.dataBitmap.Region id → (∀ b ∈ v, b.toNat ≠ id) → m' id = m id := by
  induction v generalizing m with
  | nil => exact ⟨m, does_pure _, h, fun _ _ _ ↦ rfl⟩
  | cons b v ih =>
    obtain ⟨m₁, hm₁, hspace, hframe⟩ := h.does_deallocData (D := D) hnodup hused hshort
    obtain ⟨m', hm', hspace', hframe'⟩ := ih hspace (List.nodup_cons.mp hnodup).2
    refine ⟨m', hm₁.bind hm', hspace', fun id hreg hid ↦ ?_⟩
    rw [hframe' id hreg fun c hc ↦ hid c (List.mem_cons_of_mem _ hc),
      hframe id hreg (hid b List.mem_cons_self)]

end Space

end AgentOS.Fs
