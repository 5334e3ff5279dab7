import Mathlib
import AgentOS.Fs.Efs

/-!
# The areas of a file system

Behind the super block come the bitmap of the inodes, the inodes, the bitmap of the data blocks and the data
blocks. `create` computes where they start from two numbers, and `open` from what `create` wrote to the super
block. Both come to the same areas, as long as the inodes fit on the device.
-/

namespace AgentOS.Fs

open Exec

/-- What a file system is created with. The super block and the inodes fit in its blocks. -/
structure Geometry where
  totalBlocks : UInt32
  inodeBitmapBlocks : UInt32
  fits : 1 + 1025 * inodeBitmapBlocks.toNat ≤ totalBlocks.toNat

namespace Geometry

variable (g : Geometry)

/-- The first block of the inodes. -/
def inodeStart : ℕ := 1 + g.inodeBitmapBlocks.toNat

/-- The first block of the data bitmap. -/
def dataBitmapStart : ℕ := 1 + 1025 * g.inodeBitmapBlocks.toNat

/-- The blocks for data and their bitmap. -/
def dataTotalBlocks : ℕ := g.totalBlocks.toNat - g.dataBitmapStart

/-- On a device of almost 2^32 blocks the sum wraps. -/
def dataBitmapBlocks : ℕ := (g.dataTotalBlocks + 4096) % 2 ^ 32 / 4097

/-- The first data block. -/
def dataStart : ℕ := g.dataBitmapStart + g.dataBitmapBlocks

/-- The number of data blocks. -/
def dataBlocks : ℕ := g.dataTotalBlocks - g.dataBitmapBlocks

/-- The number of data blocks that have a bit. -/
def capacity : ℕ := min g.dataBlocks (g.dataBitmapBlocks * blockBits)

def inodeBitmap : Bitmap := { startBlockId := 1, blocks := g.inodeBitmapBlocks.toNat }

def dataBitmap : Bitmap := { startBlockId := g.dataBitmapStart, blocks := g.dataBitmapBlocks }

/-- The number of inodes that have a bit and a number. -/
def inodes : ℕ := min g.inodeBitmap.maximum (2 ^ 32)

/-- The file system on a device. -/
def efs (dev : DeviceId) : EasyFileSystem where
  blockDevice := dev
  inodeBitmap := g.inodeBitmap
  dataBitmap := g.dataBitmap
  inodeAreaStartBlock := UInt32.ofNat g.inodeStart
  dataAreaStartBlock := UInt32.ofNat g.dataStart

def superBlock : SuperBlock where
  magic := efsMagic
  totalBlocks := g.totalBlocks
  inodeBitmapBlocks := g.inodeBitmapBlocks
  inodeAreaBlocks := UInt32.ofNat (1024 * g.inodeBitmapBlocks.toNat)
  dataBitmapBlocks := UInt32.ofNat g.dataBitmapBlocks
  dataAreaBlocks := UInt32.ofNat g.dataBlocks

theorem dataBitmapBlocks_le : g.dataBitmapBlocks ≤ g.dataTotalBlocks := by
  unfold dataBitmapBlocks
  omega

theorem dataStart_add_dataBlocks : g.dataStart + g.dataBlocks = g.totalBlocks.toNat := by
  have hfits := g.fits
  have hle := g.dataBitmapBlocks_le
  unfold dataStart dataBlocks
  unfold dataTotalBlocks dataBitmapStart at *
  omega

theorem totalBlocks_lt : g.totalBlocks.toNat < 2 ^ 32 := g.totalBlocks.toNat_lt

/-- The areas lie one behind the other. -/
theorem areas : 0 < g.inodeStart ∧ g.inodeStart + 1024 * g.inodeBitmapBlocks.toNat = g.dataBitmapStart ∧
    g.dataBitmapStart + g.dataBitmapBlocks = g.dataStart ∧ g.dataStart ≤ g.totalBlocks.toNat := by
  have hsum := g.dataStart_add_dataBlocks
  unfold inodeStart dataStart dataBitmapStart at *
  omega

/-! ## The numbers of `create` and `open` -/

theorem toNat_inodeAreaBlocks : (UInt32.ofNat (1024 * g.inodeBitmapBlocks.toNat)).toNat =
    1024 * g.inodeBitmapBlocks.toNat := by
  have hfits := g.fits
  have hlt := g.totalBlocks_lt
  exact UInt32.toNat_ofNat_of_lt' (by change _ < 2 ^ 32; omega)

theorem inodeAreaBlocks_eq : UInt32.ofNat
    ((g.inodeBitmap.maximum * DiskInode.layout.size + blockSz - 1) / blockSz) =
      UInt32.ofNat (1024 * g.inodeBitmapBlocks.toNat) := by
  congr 1
  simp only [Bitmap.maximum, inodeBitmap, blockBits, DiskInode.size_layout, blockSz]
  omega

theorem inodeTotalBlocks_eq :
    g.inodeBitmapBlocks + UInt32.ofNat (1024 * g.inodeBitmapBlocks.toNat) =
      UInt32.ofNat (1025 * g.inodeBitmapBlocks.toNat) := by
  refine UInt32.toNat_inj.mp ?_
  have hfits := g.fits
  have hlt := g.totalBlocks_lt
  rw [UInt32.toNat_add, g.toNat_inodeAreaBlocks,
    UInt32.toNat_ofNat_of_lt' (by change _ < 2 ^ 32; omega)]
  omega

theorem toNat_dataBitmapStart : (1 + UInt32.ofNat (1025 * g.inodeBitmapBlocks.toNat)).toNat =
    g.dataBitmapStart := by
  have hfits := g.fits
  have hlt := g.totalBlocks_lt
  rw [UInt32.toNat_add, UInt32.toNat_ofNat_of_lt' (by change _ < 2 ^ 32; omega)]
  change (1 + _) % 2 ^ 32 = _
  unfold dataBitmapStart
  omega

theorem dataTotalBlocks_eq :
    g.totalBlocks - 1 - UInt32.ofNat (1025 * g.inodeBitmapBlocks.toNat) = UInt32.ofNat g.dataTotalBlocks := by
  refine UInt32.toNat_inj.mp ?_
  have hfits := g.fits
  have hlt := g.totalBlocks_lt
  have hone : (1 : UInt32) ≤ g.totalBlocks := by
    rw [UInt32.le_iff_toNat_le]
    change 1 ≤ _
    omega
  have hsub : (g.totalBlocks - 1).toNat = g.totalBlocks.toNat - 1 := UInt32.toNat_sub_of_le _ _ hone
  have hinode : (UInt32.ofNat (1025 * g.inodeBitmapBlocks.toNat)).toNat =
      1025 * g.inodeBitmapBlocks.toNat := UInt32.toNat_ofNat_of_lt' (by change _ < 2 ^ 32; omega)
  have hle : UInt32.ofNat (1025 * g.inodeBitmapBlocks.toNat) ≤ g.totalBlocks - 1 := by
    rw [UInt32.le_iff_toNat_le, hsub, hinode]
    omega
  have htotal : g.dataTotalBlocks < 2 ^ 32 := by
    unfold dataTotalBlocks
    omega
  rw [UInt32.toNat_sub_of_le _ _ hle, hsub, hinode, UInt32.toNat_ofNat_of_lt' htotal]
  unfold dataTotalBlocks dataBitmapStart
  omega

theorem dataBitmapBlocks_eq :
    (UInt32.ofNat g.dataTotalBlocks + 4096) / 4097 = UInt32.ofNat g.dataBitmapBlocks := by
  refine UInt32.toNat_inj.mp ?_
  have hlt := g.totalBlocks_lt
  have htotal : g.dataTotalBlocks < 2 ^ 32 := by
    unfold dataTotalBlocks
    omega
  have hbitmap : g.dataBitmapBlocks < 2 ^ 32 := g.dataBitmapBlocks_le.trans_lt htotal
  rw [UInt32.toNat_div, UInt32.toNat_add, UInt32.toNat_ofNat_of_lt' htotal,
    UInt32.toNat_ofNat_of_lt' hbitmap]
  rfl

theorem dataBlocks_eq :
    UInt32.ofNat g.dataTotalBlocks - UInt32.ofNat g.dataBitmapBlocks = UInt32.ofNat g.dataBlocks := by
  refine UInt32.toNat_inj.mp ?_
  have hlt := g.totalBlocks_lt
  have htotal : g.dataTotalBlocks < 2 ^ 32 := by
    unfold dataTotalBlocks
    omega
  have hle := g.dataBitmapBlocks_le
  have hbitmap := UInt32.toNat_ofNat_of_lt' (hle.trans_lt htotal)
  have hle' : UInt32.ofNat g.dataBitmapBlocks ≤ UInt32.ofNat g.dataTotalBlocks := by
    rw [UInt32.le_iff_toNat_le, hbitmap, UInt32.toNat_ofNat_of_lt' htotal]
    exact hle
  rw [UInt32.toNat_sub_of_le _ _ hle', hbitmap, UInt32.toNat_ofNat_of_lt' htotal,
    UInt32.toNat_ofNat_of_lt']
  · rfl
  · change _ < 2 ^ 32
    unfold dataBlocks
    omega

theorem toNat_dataBitmapBlocks : (UInt32.ofNat g.dataBitmapBlocks).toNat = g.dataBitmapBlocks := by
  have hareas := g.areas
  have hlt := g.totalBlocks_lt
  exact UInt32.toNat_ofNat_of_lt' (by change _ < 2 ^ 32; omega)

theorem toNat_dataStart : (UInt32.ofNat g.dataStart).toNat = g.dataStart := by
  have hareas := g.areas
  have hlt := g.totalBlocks_lt
  exact UInt32.toNat_ofNat_of_lt' (by change _ < 2 ^ 32; omega)

theorem inodeStart_eq : 1 + g.inodeBitmapBlocks = UInt32.ofNat g.inodeStart := by
  refine UInt32.toNat_inj.mp ?_
  have hareas := g.areas
  have hlt := g.totalBlocks_lt
  rw [UInt32.toNat_add, UInt32.toNat_ofNat_of_lt' (by change _ < 2 ^ 32; omega)]
  change (1 + _) % 2 ^ 32 = _
  unfold inodeStart at *
  omega

theorem dataStart_eq : 1 + UInt32.ofNat (1025 * g.inodeBitmapBlocks.toNat) +
    UInt32.ofNat g.dataBitmapBlocks = UInt32.ofNat g.dataStart := by
  refine UInt32.toNat_inj.mp ?_
  have hareas := g.areas
  have hlt := g.totalBlocks_lt
  rw [UInt32.toNat_add, g.toNat_dataBitmapStart, g.toNat_dataBitmapBlocks, g.toNat_dataStart]
  omega

end Geometry

end AgentOS.Fs
