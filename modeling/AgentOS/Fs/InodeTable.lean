import Mathlib
import AgentOS.Fs.VolumeOps

/-!
# The inodes on the device

Four inodes lie in a block. `Holds` says that the blocks hold a volume, with the inodes that are on the
device, and `Ready` that a storage does when nothing is in use and everything has been written back.
-/

namespace AgentOS.Fs

open Exec

/-- The inode of a number, as it is on the device. -/
def inodeAt (g : Geometry) (m : ℕ → Block) (i : ℕ) : DiskInode :=
  DiskInode.layout.read (i % 4 * 128) (m (g.inodeStart + i / 4))

/-- The blocks hold a volume. -/
def Holds (g : Geometry) (V : Volume) (m : ℕ → Block) : Prop := Rep g (inodeAt g m) V m

/-- The file of an inode number. -/
def Geometry.inode (g : Geometry) (D : DeviceId) (i : ℕ) : Inode where
  blockId := g.inodeStart + i / 4
  blockOffset := i % 4 * 128
  fs := g.efs D
  blockDevice := D

variable {g : Geometry} {table : ℕ → DiskInode} {V : Volume} {m m' : ℕ → Block} {i : ℕ}
  {bytes : List UInt8} {D : DeviceId} {used : List (ℕ × Bool)} {s : Storage}

theorem size_diskInode (i : ℕ) : i % 4 * 128 + DiskInode.layout.size ≤ blockSz := by
  rw [DiskInode.size_layout]
  simp only [blockSz]
  omega

theorem inodes_le (g : Geometry) : g.inodes ≤ 4096 * g.inodeBitmapBlocks.toNat := by
  have h : g.inodes ≤ g.inodeBitmapBlocks.toNat * (512 * 8) := Nat.min_le_left _ _
  omega

theorem inodeBlock_lt (hi : i < g.inodes) : g.inodeStart + i / 4 < g.dataBitmapStart := by
  have h := inodes_le g
  have hareas := g.areas
  omega

/-- `get_disk_inode_pos`. -/
theorem getDiskInodePos_eq (hi : i < g.inodes) :
    ((g.efs D).getDiskInodePos (UInt32.ofNat i)).1.toNat = g.inodeStart + i / 4 ∧
      ((g.efs D).getDiskInodePos (UInt32.ofNat i)).2 = i % 4 * 128 := by
  have hareas := g.areas
  have hlt := g.totalBlocks_lt
  have hblock := inodeBlock_lt hi
  have hi32 : i < 2 ^ 32 := hi.trans_le (Nat.min_le_right _ _)
  have htoNat : (UInt32.ofNat i).toNat = i := UInt32.toNat_ofNat_of_lt' hi32
  have hstart : (UInt32.ofNat g.inodeStart).toNat = g.inodeStart :=
    UInt32.toNat_ofNat_of_lt' (by change _ < 2 ^ 32; omega)
  constructor
  · change (UInt32.ofNat g.inodeStart + UInt32.ofNat i / 4).toNat = _
    rw [UInt32.toNat_add, UInt32.toNat_div, hstart, htoNat]
    change (g.inodeStart + i / 4) % 2 ^ 32 = _
    omega
  · change (UInt32.ofNat i % 4).toNat * 128 = _
    rw [UInt32.toNat_mod, htoNat]
    rfl

theorem efs_inode (hi : i < g.inodes) :
    (g.efs D).inode (UInt32.ofNat i) D = g.inode D i := by
  obtain ⟨hblock, hoffset⟩ := getDiskInodePos_eq (D := D) hi
  rw [EasyFileSystem.inode, Geometry.inode, hblock, hoffset]

/-- Writing an inode to its place changes this inode and no other. -/
theorem inodeAt_write (g : Geometry) (m : ℕ → Block) (i : ℕ) (d : DiskInode) :
    inodeAt g (Function.update m (g.inodeStart + i / 4)
      (DiskInode.layout.write (i % 4 * 128) d (m (g.inodeStart + i / 4)))) =
      Function.update (inodeAt g m) i d := by
  funext j
  by_cases hj : j = i
  · subst hj
    rw [Function.update_self, inodeAt, Function.update_self, ByteLayout.read_write (size_diskInode j)]
  · rw [Function.update_of_ne hj]
    by_cases hblock : j / 4 = i / 4
    · rw [inodeAt, hblock, Function.update_self, ByteLayout.read_write_of_disjoint, inodeAt, hblock]
      · rw [DiskInode.size_layout]
        omega
      · exact size_diskInode j
    · rw [inodeAt, Function.update_of_ne (by omega), inodeAt]

namespace Rep

/-- The inode area may change under a table. -/
theorem frame_inodes (h : Rep g table V m)
    (hframe : ∀ id, (id < g.inodeStart ∨ g.dataBitmapStart ≤ id) → m' id = m id) : Rep g table V m' := by
  have hareas := g.areas
  have hdata : ∀ x ∈ owned table m (List.range V.length), m' x.toNat = m x.toNat := fun x hx ↦ by
    have harea := h.space.area x hx
    exact hframe _ (by omega)
  have howned : owned table m' (List.range V.length) = owned table m (List.range V.length) :=
    owned_congr fun j hj ↦ blocks_of_frame fun x hx ↦ hdata x (List.mem_flatMap.mpr ⟨j, hj, hx⟩)
  refine ⟨?_, h.inodes, fun j hj ↦ ?_, fun j b hj ↦ ?_, ?_, ?_⟩
  · rw [hframe 0 (by omega), h.superBlock]
  · rw [← h.bit j hj]
    refine Bitmap.bit_congr (hframe _ (Or.inl ?_))
    have hregion : j / blockBits + 1 < 1 + g.inodeBitmapBlocks.toNat :=
      (Bitmap.region_block (b := g.inodeBitmap) ((Nat.div_lt_iff_lt_mul (by decide)).mpr hj)).2
    exact hregion
  · exact (h.files j b hj).frame fun x hx ↦ hdata x (List.mem_flatMap.mpr
      ⟨j, List.mem_range.mpr (lt_length hj), hx⟩)
  · rw [howned]
    exact h.nodup
  · rw [howned]
    refine h.space.frame (fun id hreg ↦ hframe id ?_) fun id hle _ ↦ hframe id ?_
    · exact Or.inr (Space.region_lt hreg).1
    · exact Or.inr (by omega)

/-- The table counts for the inodes of the volume only. -/
theorem congr_table (h : Rep g table V m) {table' : ℕ → DiskInode}
    (htable : ∀ j < V.length, table' j = table j) : Rep g table' V m := by
  have howned : owned table' m (List.range V.length) = owned table m (List.range V.length) :=
    owned_congr fun j hj ↦ by rw [htable j (List.mem_range.mp hj)]
  refine ⟨h.superBlock, h.inodes, h.bit, fun j b hj ↦ ?_, ?_, ?_⟩
  · rw [htable j (lt_length hj)]
    exact h.files j b hj
  · rw [howned]
    exact h.nodup
  · rw [howned]
    exact h.space

/-- **The inode that was modified is written back** to its place. -/
theorem store {d : DiskInode} (h : Rep g (Function.update (inodeAt g m) i d) V m')
    (hsame : ∀ id < g.dataBitmapStart, m' id = m id) (hi : i < g.inodes) :
    Holds g V (Function.update m' (g.inodeStart + i / 4)
      (DiskInode.layout.write (i % 4 * 128) d (m' (g.inodeStart + i / 4)))) := by
  have hblock := inodeBlock_lt hi
  unfold Holds
  rw [inodeAt_write]
  refine (h.congr_table fun j hj ↦ ?_).frame_inodes fun id hid ↦ Function.update_of_ne (by omega) _ _
  by_cases hji : j = i
  · rw [hji, Function.update_self, Function.update_self]
  · have hj' := inodeBlock_lt (hj.trans_le h.inodes)
    rw [Function.update_of_ne hji, Function.update_of_ne hji, inodeAt, hsame _ hj', inodeAt]

/-- A new inode has no bytes and no blocks. -/
theorem add {d : DiskInode} (h : Rep g table V m) (hroom : V.length < g.inodes)
    (hsize : d.size = 0) (htype : d.type_ = typeOf V.length)
    (hsets : g.inodeBitmap.Sets m V.length true m') :
    Rep g (Function.update table V.length d) (V ++ [[]]) m' := by
  have hareas := g.areas
  have hframe : ∀ id, (id = 0 ∨ g.inodeStart ≤ id) → m' id = m id := fun id hid ↦
    hsets.frame id fun hreg ↦ by
      obtain ⟨hle, hlt⟩ : 1 ≤ id ∧ id < 1 + g.inodeBitmapBlocks.toNat := hreg
      have hstart : g.inodeStart = 1 + g.inodeBitmapBlocks.toNat := rfl
      omega
  have hdata : ∀ x ∈ owned table m (List.range V.length), m' x.toNat = m x.toNat := fun x hx ↦ by
    have harea := h.space.area x hx
    exact hframe _ (by omega)
  have hzero : d.dataBlocks.toNat = 0 := by
    rw [DiskInode.dataBlocks, hsize]
    rfl
  have hblocks : d.blocks m' = [] := by
    rw [DiskInode.blocks, hzero]
    rfl
  have howned : owned (Function.update table V.length d) m' (List.range (V ++ [[]]).length) =
      owned table m (List.range V.length) := by
    rw [List.length_append, List.length_singleton, List.range_succ, owned, List.flatMap_append,
      List.flatMap_singleton, Function.update_self, hblocks, List.append_nil]
    refine owned_congr fun j hj ↦ ?_
    have hlt := List.mem_range.mp hj
    rw [Function.update_of_ne hlt.ne]
    exact blocks_of_frame fun x hx ↦ hdata x (List.mem_flatMap.mpr ⟨j, hj, hx⟩)
  refine ⟨?_, ?_, fun j hj ↦ ?_, fun j b hj ↦ ?_, ?_, ?_⟩
  · rw [hframe 0 (Or.inl rfl), h.superBlock]
  · rw [List.length_append, List.length_singleton]
    exact hroom
  · rw [hsets.bit, List.length_append, List.length_singleton]
    by_cases hji : j = V.length
    · rw [hji, Function.update_self]
      simp
    · rw [Function.update_of_ne hji, h.bit j hj]
      congr 1
      exact propext (by omega)
  · by_cases hji : j = V.length
    · subst hji
      rw [List.getElem?_append_right le_rfl, Nat.sub_self, List.getElem?_cons_zero] at hj
      rw [Function.update_self, ← Option.some.inj hj]
      refine ⟨htype, ?_, Nat.zero_le _, fun idx hidx ↦ ?_⟩
      · rw [hsize]
        rfl
      · rw [hzero, Nat.zero_mul] at hidx
        exact absurd hidx (Nat.not_lt_zero _)
    · have hlt : j < V.length := by
        have hlt' := lt_length hj
        rw [List.length_append, List.length_singleton] at hlt'
        omega
      rw [List.getElem?_append_left hlt] at hj
      rw [Function.update_of_ne hji]
      exact (h.files j b hj).frame fun x hx ↦ hdata x (List.mem_flatMap.mpr
        ⟨j, List.mem_range.mpr hlt, hx⟩)
  · rw [howned]
    exact h.nodup
  · rw [howned]
    refine h.space.frame (fun id hreg ↦ hframe id (Or.inr ?_)) fun id hle _ ↦ hframe id (Or.inr (by omega))
    have hle := (Space.region_lt hreg).1
    omega

end Rep

end AgentOS.Fs
