import Mathlib
import AgentOS.Fs.Bitmap

/-!
# What is on the device

`easy-fs/src/layout.rs`: the super block, the inodes with their direct, indirect and doubly indirect blocks,
and the entries of a directory.
-/

namespace AgentOS.Fs

open Exec

/-- Magic number for sanity check -/
def efsMagic : UInt32 := 0x3b800001

/-- The max number of direct inodes -/
abbrev inodeDirectCount : ℕ := 28

/-- The max length of inode name -/
abbrev nameLengthLimit : ℕ := 27

/-- The max number of indirect1 inodes: `BLOCK_SZ / 4` -/
abbrev inodeIndirect1Count : ℕ := 128

/-- The max number of indirect2 inodes -/
abbrev inodeIndirect2Count : ℕ := inodeIndirect1Count * inodeIndirect1Count

/-- The upper bound of direct inode index -/
abbrev directBound : ℕ := inodeDirectCount

/-- The upper bound of indirect1 inode index -/
abbrev indirect1Bound : ℕ := directBound + inodeIndirect1Count

/-- The upper bound of indirect2 inode indexs -/
abbrev indirect2Bound : ℕ := indirect1Bound + inodeIndirect2Count

/-! ## The super block -/

/-- Super block of a filesystem -/
structure SuperBlock where
  magic : UInt32
  totalBlocks : UInt32
  inodeBitmapBlocks : UInt32
  inodeAreaBlocks : UInt32
  dataBitmapBlocks : UInt32
  dataAreaBlocks : UInt32
  deriving DecidableEq

namespace SuperBlock

open ByteLayout in
/-- The bytes of a super block, field by field. -/
def layout : ByteLayout SuperBlock :=
  (u32.prod (u32.prod (u32.prod (u32.prod (u32.prod u32))))).map
    { toFun := fun p ↦ ⟨p.1, p.2.1, p.2.2.1, p.2.2.2.1, p.2.2.2.2.1, p.2.2.2.2.2⟩
      invFun := fun s ↦ (s.magic, s.totalBlocks, s.inodeBitmapBlocks, s.inodeAreaBlocks,
        s.dataBitmapBlocks, s.dataAreaBlocks)
      left_inv := fun _ ↦ rfl
      right_inv := fun _ ↦ rfl }

/-- Check if a super block is valid using efs magic -/
def isValid (s : SuperBlock) : Bool := s.magic = efsMagic

end SuperBlock

/-! ## Inodes -/

/-- Type of a disk inode -/
inductive DiskInodeType where
  | file
  | directory
  deriving DecidableEq

/-- A byte: the discriminant. -/
def DiskInodeType.layout : ByteLayout DiskInodeType where
  size := 1
  get b := if b 0 = 0 then .file else .directory
  set t b i := if i = 0 then (match t with | .file => 0 | .directory => 1) else b i
  get_set t _ := by cases t <;> rfl
  get_congr h := by rw [h 0 Nat.one_pos]
  set_of_le _ _ _ h := if_neg (Nat.one_le_iff_ne_zero.mp h)

/-- A indirect block -/
abbrev IndirectBlock := Vector UInt32 inodeIndirect1Count

def indirectBlock : ByteLayout IndirectBlock :=
  ByteLayout.array inodeIndirect1Count ByteLayout.u32 (by decide)

/-- A data block -/
def dataBlock : ByteLayout Block := ByteLayout.bytes blockSz

/-- A disk inode -/
structure DiskInode where
  size : UInt32
  direct : Vector UInt32 inodeDirectCount
  indirect1 : UInt32
  indirect2 : UInt32
  type_ : DiskInodeType

namespace DiskInode

open ByteLayout in
/-- The bytes of a disk inode, field by field. The last three are padding. -/
def layout : ByteLayout DiskInode :=
  (u32.prod ((array inodeDirectCount u32 (by decide)).prod (u32.prod (u32.prod
    (DiskInodeType.layout.prod (pad 3)))))).map
    { toFun := fun p ↦ ⟨p.1, p.2.1, p.2.2.1, p.2.2.2.1, p.2.2.2.2.1⟩
      invFun := fun d ↦ (d.size, d.direct, d.indirect1, d.indirect2, d.type_, ())
      left_inv := fun _ ↦ rfl
      right_inv := fun _ ↦ rfl }

theorem size_layout : layout.size = 128 := rfl

/-- `DiskInode::initialize` -/
def initializeInode (type_ : DiskInodeType) : DiskInode :=
  { size := 0, direct := Vector.replicate inodeDirectCount 0, indirect1 := 0, indirect2 := 0, type_ }

/-- Whether this inode is a directory -/
def isDir (d : DiskInode) : Bool := d.type_ = .directory

/-- `_data_blocks`: block number correspond to size. -/
def dataBlocksOf (size : UInt32) : UInt32 := (size + 512 - 1) / 512

/-- Return block number correspond to size. -/
def dataBlocks (d : DiskInode) : UInt32 := dataBlocksOf d.size

/-- Return number of blocks needed include indirect1/2. -/
def totalBlocks (size : UInt32) : UInt32 :=
  let dataBlocks := (dataBlocksOf size).toNat
  let total := dataBlocks
  -- indirect1
  let total := if dataBlocks > inodeDirectCount then total + 1 else total
  -- indirect2 and sub indirect1
  let total := if dataBlocks > indirect1Bound then
    total + 1 + (dataBlocks - indirect1Bound + inodeIndirect1Count - 1) / inodeIndirect1Count
  else total
  UInt32.ofNat total

/-- Get the number of data blocks that have to be allocated given the new size of data -/
def blocksNumNeeded (d : DiskInode) (newSize : UInt32) : Exec Storage UInt32 := do
  assert (newSize ≥ d.size)
  pure (totalBlocks newSize - totalBlocks d.size)

/-- Get id of block given inner id -/
def getBlockId (d : DiskInode) (innerId : UInt32) (dev : DeviceId) : Exec Storage UInt32 :=
  let innerId := innerId.toNat
  if innerId < inodeDirectCount then
    unwrap d.direct[innerId]?
  else if innerId < indirect1Bound then
    readBlock dev d.indirect1.toNat indirectBlock 0 fun indirectBlock ↦
      unwrap indirectBlock[innerId - inodeDirectCount]?
  else do
    let last := innerId - indirect1Bound
    let indirect1 ← readBlock dev d.indirect2.toNat indirectBlock 0 fun indirect2 ↦
      unwrap indirect2[last / inodeIndirect1Count]?
    readBlock dev indirect1.toNat indirectBlock 0 fun indirect1 ↦
      unwrap indirect1[last % inodeIndirect1Count]?

/-! ### Growing -/

/-- `while current < bound { entries[current] = new_blocks.next().unwrap(); current += 1; }`, with what is
left of the new blocks. -/
def fill {n : ℕ} (entries : Vector UInt32 n) (current bound : ℕ) :
    List UInt32 → Option (Vector UInt32 n × List UInt32)
  | [] => if current < bound then none else some (entries, [])
  | b :: newBlocks =>
    if current < bound then
      if h : current < n then fill (entries.set current b) (current + 1) bound newBlocks else none
    else some (entries, b :: newBlocks)

/-- Fill indirect2 from (a0, b0) -> (a1, b1). A new low-level indirect1 block takes the first of the new
blocks. -/
def fillIndirect2 (dev : DeviceId) (a1 b1 : ℕ) :
    List UInt32 → ℕ → ℕ → IndirectBlock → Exec Storage IndirectBlock
  | [], a0, b0, indirect2 => do
    assert ¬(a0 < a1 ∨ a0 = a1 ∧ b0 < b1)
    pure indirect2
  | b :: newBlocks, a0, b0, indirect2 =>
    if a0 < a1 ∨ a0 = a1 ∧ b0 < b1 then
      if b0 = 0 then
        match newBlocks with
        | [] => panic
        | b' :: newBlocks => do
          assert (a0 < inodeIndirect1Count)
          let indirect2 := indirect2.setIfInBounds a0 b
          storeEntry indirect2 a0 b0 b'
          fillIndirect2 dev a1 b1 newBlocks (next a0 b0).1 (next a0 b0).2 indirect2
      else do
        storeEntry indirect2 a0 b0 b
        fillIndirect2 dev a1 b1 newBlocks (next a0 b0).1 (next a0 b0).2 indirect2
    else pure indirect2
where
  /-- `indirect1[b0] = new_blocks.next().unwrap()` in the block `indirect2[a0]` -/
  storeEntry (indirect2 : IndirectBlock) (a0 b0 : ℕ) (b : UInt32) : Exec Storage Unit := do
    let id ← unwrap indirect2[a0]?
    modifyBlock dev id.toNat indirectBlock 0 fun indirect1 ↦ do
      assert (b0 < inodeIndirect1Count)
      pure ((), indirect1.setIfInBounds b0 b)
  /-- move to next -/
  next (a0 b0 : ℕ) : ℕ × ℕ := if b0 + 1 = inodeIndirect1Count then (a0 + 1, 0) else (a0, b0 + 1)

/-- The part of `increase_size` from indirect2 on: `current` and `total` do not count what comes before. -/
def increaseIndirect2 (d : DiskInode) (current total : ℕ) (newBlocks : List UInt32) (dev : DeviceId) :
    Exec Storage DiskInode := do
  -- alloc indirect2
  if total > inodeIndirect1Count then
    let (d, newBlocks) ← if current = inodeIndirect1Count then
        match newBlocks with
        | [] => panic
        | b :: newBlocks => pure ({ d with indirect2 := b }, newBlocks)
      else pure (d, newBlocks)
    let current := current - inodeIndirect1Count
    let total := total - inodeIndirect1Count
    modifyBlock dev d.indirect2.toNat indirectBlock 0 fun indirect2 ↦ do
      let indirect2 ← fillIndirect2 dev (total / inodeIndirect1Count) (total % inodeIndirect1Count)
        newBlocks (current / inodeIndirect1Count) (current % inodeIndirect1Count) indirect2
      pure ((), indirect2)
    pure d
  else pure d

/-- The part of `increase_size` from indirect1 on. -/
def increaseIndirect1 (d : DiskInode) (current total : ℕ) (newBlocks : List UInt32) (dev : DeviceId) :
    Exec Storage DiskInode := do
  -- alloc indirect1
  if total > inodeDirectCount then
    let (d, newBlocks) ← if current = inodeDirectCount then
        match newBlocks with
        | [] => panic
        | b :: newBlocks => pure ({ d with indirect1 := b }, newBlocks)
      else pure (d, newBlocks)
    let current := current - inodeDirectCount
    let total := total - inodeDirectCount
    -- fill indirect1
    let bound := min total inodeIndirect1Count
    let newBlocks ← modifyBlock dev d.indirect1.toNat indirectBlock 0 fun indirect1 ↦ do
      let (indirect1, newBlocks) ← unwrap (fill indirect1 current bound newBlocks)
      pure (newBlocks, indirect1)
    increaseIndirect2 d (max current bound) total newBlocks dev
  else pure d

/-- Inncrease the size of current disk inode -/
def increaseSize (d : DiskInode) (newSize : UInt32) (newBlocks : List UInt32) (dev : DeviceId) :
    Exec Storage DiskInode := do
  let current := d.dataBlocks.toNat
  let d := { d with size := newSize }
  let total := d.dataBlocks.toNat
  -- fill direct
  let bound := min total inodeDirectCount
  let (direct, newBlocks) ← unwrap (fill d.direct current bound newBlocks)
  increaseIndirect1 { d with direct } (max current bound) total newBlocks dev

/-! ### Clearing -/

/-- The blocks of a low-level indirect1 block, and it. -/
def clearIndirect1 (dev : DeviceId) (count : ℕ) (entry : UInt32) : Exec Storage (List UInt32) := do
  let v ← modifyBlock dev entry.toNat indirectBlock 0 fun indirect1 ↦
    pure (indirect1.toList.take count, indirect1)
  pure (entry :: v)

/-- `for entry in entries { v.push(*entry); .. }` -/
def clearEntries (dev : DeviceId) (count : ℕ) : List UInt32 → Exec Storage (List UInt32)
  | [] => pure []
  | entry :: entries => do
    let v ← clearIndirect1 dev count entry
    let vs ← clearEntries dev count entries
    pure (v ++ vs)

/-- The part of `clear_size` from indirect2 on, for the data blocks that come after. -/
def clearIndirect2 (d : DiskInode) (dataBlocks : ℕ) (dev : DeviceId) :
    Exec Storage (List UInt32 × DiskInode) := do
  -- indirect2 block
  if dataBlocks > inodeIndirect1Count then
    let dataBlocks := dataBlocks - inodeIndirect1Count
    assert (dataBlocks ≤ inodeIndirect2Count)
    let a1 := dataBlocks / inodeIndirect1Count
    let b1 := dataBlocks % inodeIndirect1Count
    let v ← modifyBlock dev d.indirect2.toNat indirectBlock 0 fun indirect2 ↦ do
      -- full indirect1 blocks
      let v ← clearEntries dev inodeIndirect1Count (indirect2.toList.take a1)
      -- last indirect1 block
      if b1 > 0 then
        let last ← unwrap indirect2[a1]?
        let w ← clearIndirect1 dev b1 last
        pure (v ++ w, indirect2)
      else pure (v, indirect2)
    pure (d.indirect2 :: v, { d with indirect2 := 0 })
  else pure ([], d)

/-- Clear size to zero and return blocks that should be deallocated. -/
def clearSize (d : DiskInode) (dev : DeviceId) : Exec Storage (List UInt32 × DiskInode) := do
  let dataBlocks := d.dataBlocks.toNat
  let d := { d with size := 0 }
  -- direct
  let bound := min dataBlocks inodeDirectCount
  let v := d.direct.toList.take bound
  let d := { d with direct := Vector.ofFn fun i ↦ if i.val < bound then 0 else d.direct[i] }
  -- indirect1 block
  if dataBlocks > inodeDirectCount then
    let dataBlocks := dataBlocks - inodeDirectCount
    let w ← modifyBlock dev d.indirect1.toNat indirectBlock 0 fun indirect1 ↦
      pure (indirect1.toList.take (min dataBlocks inodeIndirect1Count), indirect1)
    let indirect1 := d.indirect1
    let (x, d) ← clearIndirect2 { d with indirect1 := 0 } dataBlocks dev
    pure (v ++ indirect1 :: w ++ x, d)
  else pure (v, d)

/-! ### Reading and writing -/

/-- The end of the current block, or of what is to be read or written. -/
def endOfBlock (start end_ : ℕ) : ℕ := min ((start / blockSz + 1) * blockSz) end_

theorem endOfBlock_decreases {start end_ : ℕ} (h : endOfBlock start end_ ≠ end_) :
    end_ - endOfBlock start end_ < end_ - start := by
  have hlt : start < (start / blockSz + 1) * blockSz := by
    simp only [blockSz]
    omega
  rcases Nat.le_total ((start / blockSz + 1) * blockSz) end_ with hle | hle
  · rw [endOfBlock, Nat.min_eq_left hle] at h ⊢
    exact Nat.sub_lt_sub_left (hlt.trans_le hle) hlt
  · exact absurd (Nat.min_eq_right hle) h

/-- The loop of `read_at`: the bytes from `start` to `end_` go to the buffer behind the first `readSize`. -/
def readLoop (d : DiskInode) (dev : DeviceId) (end_ start startBlock readSize : ℕ) (buf : List UInt8) :
    Exec Storage (ℕ × List UInt8) := do
  -- calculate end of current block
  let endCurrentBlock := endOfBlock start end_
  -- read and update read size
  let blockReadSize := endCurrentBlock - start
  assert (readSize + blockReadSize ≤ buf.length)
  let blockId ← d.getBlockId (UInt32.ofNat startBlock) dev
  let src ← readBlock dev blockId.toNat dataBlock 0 fun dataBlock ↦ do
    assert (start % blockSz + blockReadSize ≤ blockSz)
    pure ((dataBlock.toList.drop (start % blockSz)).take blockReadSize)
  let buf := buf.take readSize ++ src ++ buf.drop (readSize + blockReadSize)
  -- move to next block
  if _h : endCurrentBlock = end_ then pure (readSize + blockReadSize, buf)
  else d.readLoop dev end_ endCurrentBlock (startBlock + 1) (readSize + blockReadSize) buf
termination_by end_ - start
decreasing_by exact endOfBlock_decreases ‹_›

/-- Read data from current disk inode. What is read, and the buffer. -/
def readAt (d : DiskInode) (offset : ℕ) (buf : List UInt8) (dev : DeviceId) :
    Exec Storage (ℕ × List UInt8) :=
  let end_ := min (offset + buf.length) d.size.toNat
  if offset ≥ end_ then pure (0, buf)
  else d.readLoop dev end_ offset (offset / blockSz) 0 buf

/-- The loop of `write_at`. -/
def writeLoop (d : DiskInode) (dev : DeviceId) (end_ start startBlock writeSize : ℕ) (buf : List UInt8) :
    Exec Storage ℕ := do
  -- calculate end of current block
  let endCurrentBlock := endOfBlock start end_
  -- write and update write size
  let blockWriteSize := endCurrentBlock - start
  let blockId ← d.getBlockId (UInt32.ofNat startBlock) dev
  modifyBlock dev blockId.toNat dataBlock 0 fun dataBlock ↦ do
    assert (writeSize + blockWriteSize ≤ buf.length)
    assert (start % blockSz + blockWriteSize ≤ blockSz)
    let src := (buf.drop writeSize).take blockWriteSize
    pure ((), Vector.ofFn fun i : Fin blockSz ↦
      if start % blockSz ≤ i then src.getD (i - start % blockSz) dataBlock[i] else dataBlock[i])
  -- move to next block
  if _h : endCurrentBlock = end_ then pure (writeSize + blockWriteSize)
  else d.writeLoop dev end_ endCurrentBlock (startBlock + 1) (writeSize + blockWriteSize) buf
termination_by end_ - start
decreasing_by exact endOfBlock_decreases ‹_›

/-- Write data into current disk inode. Size must be adjusted properly beforehand. -/
def writeAt (d : DiskInode) (offset : ℕ) (buf : List UInt8) (dev : DeviceId) : Exec Storage ℕ := do
  let end_ := min (offset + buf.length) d.size.toNat
  assert (offset ≤ end_)
  d.writeLoop dev end_ offset (offset / blockSz) 0 buf

end DiskInode

/-! ## Directory entries -/

/-- A directory entry -/
structure DirEntry where
  name : Vector UInt8 (nameLengthLimit + 1)
  inodeNumber : UInt32

/-- Size of a directory entry -/
abbrev direntSz : ℕ := 32

namespace DirEntry

open ByteLayout in
def layout : ByteLayout DirEntry :=
  ((bytes (nameLengthLimit + 1)).prod u32).map
    { toFun := fun p ↦ ⟨p.1, p.2⟩
      invFun := fun e ↦ (e.name, e.inodeNumber)
      left_inv := fun _ ↦ rfl
      right_inv := fun _ ↦ rfl }

/-- Create an empty directory entry -/
def empty : DirEntry := { name := Vector.replicate _ 0, inodeNumber := 0 }

/-- `name.as_bytes()` -/
def nameBytes (name : String) : List UInt8 := name.toUTF8.data.toList

/-- Crate a directory entry from name and inode number. A longer name than the slot is a panic. -/
def new (name : String) (inodeNumber : UInt32) : Option DirEntry :=
  if (nameBytes name).length ≤ nameLengthLimit + 1 then
    some { name := Vector.ofFn fun i ↦ (nameBytes name).getD i 0, inodeNumber }
  else none

/-- Serialize into bytes -/
def asBytes (e : DirEntry) : List UInt8 :=
  (List.range direntSz).map fun i ↦ layout.set e (fun _ ↦ 0) i

/-- What the bytes written through `as_bytes_mut` make of the entry. -/
def ofBytes (bytes : List UInt8) : DirEntry := layout.get fun i ↦ bytes.getD i 0

/-- Get name of the entry: the bytes before the first zero. Without one, or when they are not UTF-8, it is
a panic. -/
def getName (e : DirEntry) : Option String :=
  if 0 ∈ e.name.toList then String.fromUTF8? ⟨(e.name.toList.takeWhile (· ≠ 0)).toArray⟩ else none

end DirEntry

end AgentOS.Fs
