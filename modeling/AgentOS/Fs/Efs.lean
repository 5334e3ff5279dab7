import Mathlib
import AgentOS.Fs.Layout

/-!
# The file system

`easy-fs/src/efs.rs` and `easy-fs/src/vfs.rs`: the areas of the device, and the inodes in them as files and
a directory. Arithmetic of `u32` wraps, as in the release build.

An `EasyFileSystem` never changes once it has been made, so that an inode keeps a copy of it and not a
reference. Its `Mutex` is never taken twice at a time.
-/

namespace AgentOS.Fs

open Exec

/-- An easy file system on block -/
structure EasyFileSystem where
  /-- Real device -/
  blockDevice : DeviceId
  /-- Inode bitmap -/
  inodeBitmap : Bitmap
  /-- Data bitmap -/
  dataBitmap : Bitmap
  inodeAreaStartBlock : UInt32
  dataAreaStartBlock : UInt32

namespace EasyFileSystem

/-- Allocate a new inode -/
def allocInode (efs : EasyFileSystem) : Exec Storage UInt32 := do
  let i ← efs.inodeBitmap.alloc efs.blockDevice
  let i ← unwrap i
  pure (UInt32.ofNat i)

/-- Allocate a data block -/
def allocData (efs : EasyFileSystem) : Exec Storage UInt32 := do
  let i ← efs.dataBitmap.alloc efs.blockDevice
  let i ← unwrap i
  pure (UInt32.ofNat i + efs.dataAreaStartBlock)

/-- Deallocate a data block -/
def deallocData (efs : EasyFileSystem) (blockId : UInt32) : Exec Storage Unit := do
  modifyBlock efs.blockDevice blockId.toNat dataBlock 0 fun _ ↦ pure ((), zeroBlock)
  efs.dataBitmap.dealloc efs.blockDevice (blockId - efs.dataAreaStartBlock).toNat

/-- Get inode by id -/
def getDiskInodePos (efs : EasyFileSystem) (inodeId : UInt32) : UInt32 × ℕ :=
  let inodeSize := DiskInode.layout.size
  let inodesPerBlock := UInt32.ofNat (blockSz / inodeSize)
  (efs.inodeAreaStartBlock + inodeId / inodesPerBlock, (inodeId % inodesPerBlock).toNat * inodeSize)

/-- Clear some blocks. -/
def clearBlocks (dev : DeviceId) : List ℕ → Exec Storage Unit
  | [] => pure ()
  | i :: blocks => do
    modifyBlock dev i dataBlock 0 fun _ ↦ pure ((), zeroBlock)
    clearBlocks dev blocks

/-- A data block of block size -/
def create (dev : DeviceId) (totalBlocks inodeBitmapBlocks : UInt32) : Exec Storage EasyFileSystem := do
  -- calculate block size of areas & create bitmaps
  let inodeBitmap : Bitmap := { startBlockId := 1, blocks := inodeBitmapBlocks.toNat }
  let inodeNum := inodeBitmap.maximum
  let inodeAreaBlocks := UInt32.ofNat ((inodeNum * DiskInode.layout.size + blockSz - 1) / blockSz)
  let inodeTotalBlocks := inodeBitmapBlocks + inodeAreaBlocks
  let dataTotalBlocks := totalBlocks - 1 - inodeTotalBlocks
  let dataBitmapBlocks := (dataTotalBlocks + 4096) / 4097
  let dataAreaBlocks := dataTotalBlocks - dataBitmapBlocks
  let efs : EasyFileSystem :=
    { blockDevice := dev
      inodeBitmap
      dataBitmap :=
        { startBlockId := (1 + inodeTotalBlocks).toNat, blocks := dataBitmapBlocks.toNat }
      inodeAreaStartBlock := 1 + inodeBitmapBlocks
      dataAreaStartBlock := 1 + inodeTotalBlocks + dataBitmapBlocks }
  -- clear all blocks
  clearBlocks dev (List.range totalBlocks.toNat)
  -- initialize SuperBlock
  modifyBlock dev 0 SuperBlock.layout 0 fun _ ↦
    pure ((), { magic := efsMagic, totalBlocks, inodeBitmapBlocks, inodeAreaBlocks, dataBitmapBlocks,
                dataAreaBlocks })
  -- write back immediately
  -- create a inode for root node "/"
  let id ← efs.allocInode
  assert (id = 0)
  let pos := efs.getDiskInodePos 0
  modifyBlock dev pos.1.toNat DiskInode.layout pos.2 fun _ ↦
    pure ((), DiskInode.initializeInode .directory)
  blockCacheSyncAll
  pure efs

/-- Open a block device as a filesystem -/
def open_ (dev : DeviceId) : Exec Storage EasyFileSystem :=
  -- read SuperBlock
  readBlock dev 0 SuperBlock.layout 0 fun superBlock ↦ do
    assert (superBlock.isValid = true)
    let inodeTotalBlocks := superBlock.inodeBitmapBlocks + superBlock.inodeAreaBlocks
    pure
      { blockDevice := dev
        inodeBitmap := { startBlockId := 1, blocks := superBlock.inodeBitmapBlocks.toNat }
        dataBitmap :=
          { startBlockId := (1 + inodeTotalBlocks).toNat, blocks := superBlock.dataBitmapBlocks.toNat }
        inodeAreaStartBlock := 1 + superBlock.inodeBitmapBlocks
        dataAreaStartBlock := 1 + inodeTotalBlocks + superBlock.dataBitmapBlocks }

end EasyFileSystem

/-! ## Inodes as files -/

/-- Virtual filesystem layer over easy-fs -/
structure Inode where
  blockId : ℕ
  blockOffset : ℕ
  fs : EasyFileSystem
  blockDevice : DeviceId

/-- The inode of an id. -/
def EasyFileSystem.inode (efs : EasyFileSystem) (inodeId : UInt32) (dev : DeviceId) : Inode :=
  { blockId := (efs.getDiskInodePos inodeId).1.toNat, blockOffset := (efs.getDiskInodePos inodeId).2,
    fs := efs, blockDevice := dev }

/-- Get the root inode of the filesystem -/
def EasyFileSystem.rootInode (efs : EasyFileSystem) : Inode := efs.inode 0 efs.blockDevice

namespace Inode

variable {V : Type}

/-- Call a function over a disk inode to read it -/
def readDiskInode (self : Inode) (f : DiskInode → Exec Storage V) : Exec Storage V :=
  readBlock self.blockDevice self.blockId DiskInode.layout self.blockOffset f

/-- Call a function over a disk inode to modify it -/
def modifyDiskInode (self : Inode) (f : DiskInode → Exec Storage (V × DiskInode)) : Exec Storage V :=
  modifyBlock self.blockDevice self.blockId DiskInode.layout self.blockOffset f

/-- Read an entry of a directory over another one. -/
def readDirent (self : Inode) (d : DiskInode) (i : ℕ) (dirent : DirEntry) : Exec Storage DirEntry := do
  let (n, bytes) ← d.readAt (direntSz * i) dirent.asBytes self.blockDevice
  assert (n = direntSz)
  pure (DirEntry.ofBytes bytes)

/-- The loop of `find_inode_id`. -/
def findEntry (self : Inode) (name : String) (d : DiskInode) :
    DirEntry → List ℕ → Exec Storage (Option UInt32)
  | _, [] => pure none
  | dirent, i :: rest => do
    let dirent ← self.readDirent d i dirent
    let entryName ← unwrap dirent.getName
    if entryName = name then pure (some dirent.inodeNumber)
    else self.findEntry name d dirent rest

/-- Find inode under a disk inode by name -/
def findInodeId (self : Inode) (name : String) (d : DiskInode) : Exec Storage (Option UInt32) := do
  -- assert it is a directory
  assert (d.isDir = true)
  let fileCount := d.size.toNat / direntSz
  self.findEntry name d DirEntry.empty (List.range fileCount)

/-- Find inode under current inode by name -/
def find (self : Inode) (name : String) : Exec Storage (Option Inode) :=
  self.readDiskInode fun d ↦ do
    let inodeId ← self.findInodeId name d
    pure (inodeId.map fun inodeId ↦ self.fs.inode inodeId self.blockDevice)

/-- `for _ in 0..blocks_needed { v.push(fs.alloc_data()); }` -/
def allocBlocks (fs : EasyFileSystem) : ℕ → Exec Storage (List UInt32)
  | 0 => pure []
  | n + 1 => do
    let b ← fs.allocData
    let v ← allocBlocks fs n
    pure (b :: v)

/-- Increase the size of a disk inode -/
def increaseSize (self : Inode) (newSize : UInt32) (d : DiskInode) : Exec Storage DiskInode := do
  if newSize < d.size then pure d
  else
    let blocksNeeded ← d.blocksNumNeeded newSize
    let v ← allocBlocks self.fs blocksNeeded.toNat
    d.increaseSize newSize v self.blockDevice

/-- Create inode under current inode by name -/
def create (self : Inode) (name : String) : Exec Storage (Option Inode) := do
  let found ← self.readDiskInode fun rootInode ↦ do
    -- assert it is a directory
    assert (rootInode.isDir = true)
    -- has the file been created?
    self.findInodeId name rootInode
  if found.isSome then pure none
  else
    -- create a new file
    -- alloc a inode with an indirect block
    let newInodeId ← self.fs.allocInode
    -- initialize inode
    let pos := self.fs.getDiskInodePos newInodeId
    modifyBlock self.blockDevice pos.1.toNat DiskInode.layout pos.2 fun _ ↦
      pure ((), DiskInode.initializeInode .file)
    self.modifyDiskInode fun rootInode ↦ do
      -- append file in the dirent
      let fileCount := rootInode.size.toNat / direntSz
      let newSize := (fileCount + 1) * direntSz
      -- increase size
      let rootInode ← self.increaseSize (UInt32.ofNat newSize) rootInode
      -- write dirent
      let dirent ← unwrap (DirEntry.new name newInodeId)
      let _ ← rootInode.writeAt (fileCount * direntSz) dirent.asBytes self.blockDevice
      pure ((), rootInode)
    blockCacheSyncAll
    -- return inode
    pure (some (self.fs.inode newInodeId self.blockDevice))

/-- The loop of `ls`. -/
def listEntries (self : Inode) (d : DiskInode) : List ℕ → Exec Storage (List String)
  | [] => pure []
  | i :: rest => do
    let dirent ← self.readDirent d i DirEntry.empty
    let name ← unwrap dirent.getName
    let names ← self.listEntries d rest
    pure (name :: names)

/-- List inodes under current inode -/
def ls (self : Inode) : Exec Storage (List String) :=
  self.readDiskInode fun d ↦ do
    let fileCount := d.size.toNat / direntSz
    self.listEntries d (List.range fileCount)

/-- Read data from current inode -/
def readAt (self : Inode) (offset : ℕ) (buf : List UInt8) : Exec Storage (ℕ × List UInt8) :=
  self.readDiskInode fun d ↦ d.readAt offset buf self.blockDevice

/-- Write data to current inode -/
def writeAt (self : Inode) (offset : ℕ) (buf : List UInt8) : Exec Storage ℕ := do
  let size ← self.modifyDiskInode fun d ↦ do
    let d ← self.increaseSize (UInt32.ofNat (offset + buf.length)) d
    let n ← d.writeAt offset buf self.blockDevice
    pure (n, d)
  blockCacheSyncAll
  pure size

/-- `for data_block in data_blocks_dealloc { fs.dealloc_data(data_block); }` -/
def deallocBlocks (fs : EasyFileSystem) : List UInt32 → Exec Storage Unit
  | [] => pure ()
  | b :: blocks => do
    fs.deallocData b
    deallocBlocks fs blocks

/-- Clear the data in current inode -/
def clear (self : Inode) : Exec Storage Unit := do
  self.modifyDiskInode fun d ↦ do
    let size := d.size
    let (dataBlocksDealloc, d) ← d.clearSize self.blockDevice
    assert (dataBlocksDealloc.length = (DiskInode.totalBlocks size).toNat)
    deallocBlocks self.fs dataBlocksDealloc
    pure ((), d)
  blockCacheSyncAll

end Inode

end AgentOS.Fs
