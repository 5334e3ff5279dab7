import Mathlib
import AgentOS.Fs.Mount
import AgentOS.Lib.Tiling

/-!
# The layout of a disk

What `create` computes from the number of blocks and the number of bitmap blocks, before it writes anything.
When none of its numbers wraps, the five areas fill the disk, every inode has a place of its own in a block,
and there is a bit for every data block. `open` computes the same from the super block.
-/

namespace AgentOS.Fs

open Exec Tiling

/-- The numbers of `create` as they should be. None of them is below zero or too large for a `u32`. -/
def LayoutFits (totalBlocks inodeBitmapBlocks : ℕ) : Prop :=
  let inodeAreaBlocks := (inodeBitmapBlocks * blockBits * DiskInode.layout.size + blockSz - 1) / blockSz
  let inodeTotalBlocks := inodeBitmapBlocks + inodeAreaBlocks
  let dataTotalBlocks := totalBlocks - 1 - inodeTotalBlocks
  let dataBitmapBlocks := (dataTotalBlocks + 4096) / 4097
  inodeAreaBlocks < 2 ^ 32 ∧ inodeTotalBlocks < 2 ^ 32 ∧ 1 ≤ totalBlocks ∧
    inodeTotalBlocks ≤ totalBlocks - 1 ∧ dataTotalBlocks + 4096 < 2 ^ 32 ∧
    dataBitmapBlocks ≤ dataTotalBlocks ∧ 1 + inodeTotalBlocks < 2 ^ 32 ∧
    1 + inodeBitmapBlocks < 2 ^ 32 ∧ 1 + inodeTotalBlocks + dataBitmapBlocks < 2 ^ 32

variable {g : Geometry} {D : DeviceId} {totalBlocks inodeBitmapBlocks : UInt32}

theorem layoutFits_iff : LayoutFits totalBlocks.toNat inodeBitmapBlocks.toNat ↔
    1 + 1025 * inodeBitmapBlocks.toNat ≤ totalBlocks.toNat ∧
      totalBlocks.toNat - (1 + 1025 * inodeBitmapBlocks.toNat) + 4096 < 2 ^ 32 := by
  have hlt := totalBlocks.toNat_lt
  have harea : (inodeBitmapBlocks.toNat * blockBits * DiskInode.layout.size + blockSz - 1) / blockSz =
      1024 * inodeBitmapBlocks.toNat := by
    simp only [blockBits, DiskInode.size_layout, blockSz]
    omega
  simp only [LayoutFits, harea]
  omega

/-! ## The areas -/

/-- The super block, the inode bitmap, the inodes, the data bitmap and the data, with their lengths. -/
def areas (efs : EasyFileSystem) (superBlock : SuperBlock) : List (ℕ × ℕ) :=
  [(0, 1), (efs.inodeBitmap.startBlockId, efs.inodeBitmap.blocks),
    (efs.inodeAreaStartBlock.toNat, superBlock.inodeAreaBlocks.toNat),
    (efs.dataBitmap.startBlockId, efs.dataBitmap.blocks),
    (efs.dataAreaStartBlock.toNat, superBlock.dataAreaBlocks.toNat)]

/-- The areas fill the disk. Each inode has a place in the inode area that it shares with no other, and each
data block has a bit. -/
structure SoundLayout (totalBlocks : UInt32) (efs : EasyFileSystem) (superBlock : SuperBlock) : Prop where
  tiles : Tiles totalBlocks.toNat 0 (areas efs superBlock)
  inside : ∀ id : UInt32, id.toNat < efs.inodeBitmap.maximum →
    (efs.getDiskInodePos id).1.toNat ∈
        extent (efs.inodeAreaStartBlock.toNat, superBlock.inodeAreaBlocks.toNat) ∧
      (efs.getDiskInodePos id).2 + DiskInode.layout.size ≤ blockSz
  apart : ∀ i j : UInt32, i.toNat < efs.inodeBitmap.maximum → j.toNat < efs.inodeBitmap.maximum →
    i ≠ j → (efs.getDiskInodePos i).1 = (efs.getDiskInodePos j).1 →
      Disjoint (extent ((efs.getDiskInodePos i).2, DiskInode.layout.size))
        (extent ((efs.getDiskInodePos j).2, DiskInode.layout.size))
  bits : superBlock.dataAreaBlocks.toNat ≤ efs.dataBitmap.maximum

theorem toNat_dataAreaBlocks (g : Geometry) : g.superBlock.dataAreaBlocks.toNat = g.dataBlocks := by
  have hsum := g.dataStart_add_dataBlocks
  have hlt := g.totalBlocks_lt
  exact UInt32.toNat_ofNat_of_lt' (by change _ < 2 ^ 32; omega)

theorem toNat_inodeAreaStartBlock (g : Geometry) (D : DeviceId) :
    (g.efs D).inodeAreaStartBlock.toNat = g.inodeStart := by
  have hareas := g.areas
  have hlt := g.totalBlocks_lt
  exact UInt32.toNat_ofNat_of_lt' (by change _ < 2 ^ 32; omega)

theorem tiles_areas (g : Geometry) (D : DeviceId) :
    Tiles g.totalBlocks.toNat 0 (areas (g.efs D) g.superBlock) := by
  have hareas := g.areas
  have hsum := g.dataStart_add_dataBlocks
  have hinodes : g.superBlock.inodeAreaBlocks.toNat = 1024 * g.inodeBitmapBlocks.toNat :=
    g.toNat_inodeAreaBlocks
  have hdata : (g.efs D).dataAreaStartBlock.toNat = g.dataStart := g.toNat_dataStart
  have hstart : g.inodeStart = 1 + g.inodeBitmapBlocks.toNat := rfl
  have hbitmap : g.dataStart = g.dataBitmapStart + g.dataBitmapBlocks := rfl
  simp only [areas, Tiles, toNat_inodeAreaStartBlock, toNat_dataAreaBlocks, hinodes, hdata]
  refine ⟨trivial, rfl, hstart, ?_, ?_, ?_⟩
  · change g.dataBitmapStart = _ + g.inodeBitmapBlocks.toNat + _
    omega
  · change _ = _ + g.inodeBitmapBlocks.toNat + _ + g.dataBitmapBlocks
    omega
  · change _ + g.inodeBitmapBlocks.toNat + _ + g.dataBitmapBlocks + _ = _
    omega

/-- Where an inode is. -/
theorem getDiskInodePos_spec {id : UInt32} (hid : id.toNat < g.inodeBitmap.maximum) :
    ((g.efs D).getDiskInodePos id).1.toNat = g.inodeStart + id.toNat / 4 ∧
      ((g.efs D).getDiskInodePos id).2 = id.toNat % 4 * 128 := by
  have hpos := getDiskInodePos_eq (D := D) (i := id.toNat) (g := g) (lt_min hid id.toNat_lt)
  rwa [UInt32.ofNat_toNat] at hpos

theorem soundLayout (hsum : g.dataTotalBlocks + 4096 < 2 ^ 32) :
    SoundLayout g.totalBlocks (g.efs D) g.superBlock where
  tiles := tiles_areas g D
  inside id hid := by
    obtain ⟨hblock, hoffset⟩ := getDiskInodePos_spec (D := D) hid
    have hmax : id.toNat < g.inodeBitmapBlocks.toNat * 4096 := hid
    have hinodes : g.superBlock.inodeAreaBlocks.toNat = 1024 * g.inodeBitmapBlocks.toNat :=
      g.toNat_inodeAreaBlocks
    rw [hblock, hoffset, toNat_inodeAreaStartBlock, hinodes, extent, Set.mem_Ico]
    exact ⟨by omega, size_diskInode _⟩
  apart i j hi hj hne hblock := by
    obtain ⟨hi₁, hi₂⟩ := getDiskInodePos_spec (D := D) hi
    obtain ⟨hj₁, hj₂⟩ := getDiskInodePos_spec (D := D) hj
    have hdiv : i.toNat / 4 = j.toNat / 4 := by
      have := congrArg UInt32.toNat hblock
      omega
    have hne' : i.toNat ≠ j.toNat := fun heq ↦ hne (UInt32.toNat_inj.mp heq)
    rw [hi₂, hj₂, DiskInode.size_layout]
    refine Set.disjoint_left.mpr fun x hx hx' ↦ ?_
    rw [extent, Set.mem_Ico] at hx hx'
    omega
  bits := by
    have hmax : (g.efs D).dataBitmap.maximum = g.dataBitmapBlocks * 4096 := rfl
    have hblocks : g.dataBitmapBlocks = (g.dataTotalBlocks + 4096) % 2 ^ 32 / 4097 := rfl
    have hdata : g.dataBlocks = g.dataTotalBlocks - g.dataBitmapBlocks := rfl
    rw [Nat.mod_eq_of_lt hsum] at hblocks
    rw [toNat_dataAreaBlocks, hmax]
    omega

/-- **The layout of a disk is sound**, and a disk that has been made is opened with the same layout. Without
blocks for the inode bitmap there is a layout, but `create` has no inode for the root directory. -/
theorem layout_sound (D : DeviceId) (h : LayoutFits totalBlocks.toNat inodeBitmapBlocks.toNat) :
    SoundLayout totalBlocks (createLayout D totalBlocks inodeBitmapBlocks).1
        (createLayout D totalBlocks inodeBitmapBlocks).2 ∧
      (areas (createLayout D totalBlocks inodeBitmapBlocks).1
        (createLayout D totalBlocks inodeBitmapBlocks).2).Pairwise
          (fun p q ↦ Disjoint (extent p) (extent q)) ∧
      (∀ id, (∃ p ∈ areas (createLayout D totalBlocks inodeBitmapBlocks).1
        (createLayout D totalBlocks inodeBitmapBlocks).2, id ∈ extent p) ↔ id < totalBlocks.toNat) ∧
      DiskInode.layout.size = 128 ∧
      (∀ m s, View D [] m s → 0 < inodeBitmapBlocks.toNat →
        ∃ s', (EasyFileSystem.create D totalBlocks inodeBitmapBlocks).Returns s
            (createLayout D totalBlocks inodeBitmapBlocks).1 s' ∧
          SuperBlock.layout.read 0 (s'.device D 0) =
            (createLayout D totalBlocks inodeBitmapBlocks).2) ∧
      ∀ m s, View D [] m s →
        SuperBlock.layout.read 0 (m 0) = (createLayout D totalBlocks inodeBitmapBlocks).2 →
        ∃ s', (EasyFileSystem.open_ D).Returns s (createLayout D totalBlocks inodeBitmapBlocks).1 s' := by
  obtain ⟨hfits, hsum⟩ := layoutFits_iff.mp h
  obtain ⟨g, rfl, rfl⟩ : ∃ g : Geometry, g.totalBlocks = totalBlocks ∧
      g.inodeBitmapBlocks = inodeBitmapBlocks := ⟨⟨_, _, hfits⟩, rfl, rfl⟩
  have hsound := soundLayout (D := D) (g := g) hsum
  rw [createLayout_eq]
  refine ⟨hsound, hsound.tiles.pairwise_disjoint, fun id ↦ ?_, DiskInode.size_layout,
    fun m s hview hpos ↦ ?_, fun m s hview hsuper ↦ ?_⟩
  · rw [hsound.tiles.exists_mem_iff]
    exact and_iff_right (Nat.zero_le id)
  · obtain ⟨s', hret, hready⟩ := create_returns (g := g) hpos hview
    exact ⟨s', hret, hready.holds.superBlock⟩
  · obtain ⟨s', hret, -⟩ := reads_open_of_superBlock (D := D) hsuper s hview
    exact ⟨s', hret⟩

/-- The disk of 16 MiB the image is built for. -/
theorem layout_sound_image : SoundLayout 32768 (createLayout 0 32768 1).1 (createLayout 0 32768 1).2 ∧
    ∃ s, (EasyFileSystem.create 0 32768 1).Returns (Storage.boot fun _ _ ↦ zeroBlock)
      (createLayout 0 32768 1).1 s := by
  have hfits : LayoutFits (32768 : UInt32).toNat (1 : UInt32).toNat := layoutFits_iff.mpr (by decide)
  obtain ⟨hsound, -, -, -, hcreate, -⟩ := layout_sound 0 hfits
  obtain ⟨s, hret, -⟩ := hcreate (fun _ ↦ zeroBlock) (Storage.boot fun _ _ ↦ zeroBlock)
    ⟨Storage.wf_boot _, nofun, congrFun (Storage.content_boot _) 0, rfl, List.Forall₂.nil⟩ (by decide)
  exact ⟨hsound, s, hret⟩

end AgentOS.Fs
