import AgentOS.Mm.PageTable

/-!
# Address spaces

A `MemorySet` is a page table and the areas entered in it. Areas of a user space are `Framed`: each
of their pages has a frame of its own, which goes back to the allocator when the area is dropped. The
trampoline is mapped into every space and belongs to no area.

Program files are read by a third-party parser. `Elf` is what it makes of a file: the loadable
segments in order and the entry point.
-/

namespace AgentOS

/-! ## Areas -/

inductive MapType where
  | identical
  | framed
  deriving DecidableEq, Repr

namespace MapPermission

def R : ℕ := 1 <<< 1
def W : ℕ := 1 <<< 2
def X : ℕ := 1 <<< 3
def U : ℕ := 1 <<< 4

end MapPermission

structure MapArea where
  /-- `vpn_range`. -/
  start : ℕ
  stop : ℕ
  /-- The frame of each page, in the order of the pages. -/
  dataFrames : List (ℕ × ℕ)
  mapType : MapType
  mapPerm : ℕ
  deriving DecidableEq, Repr

namespace MapArea

/-- The pages of an area, which no mapping is entered for yet. -/
def new (startVa endVa : ℕ) (mapType : MapType) (mapPerm : ℕ) : Exec Machine MapArea := do
  let start := VirtAddr.floor startVa
  let stop := VirtAddr.ceil endVa
  -- `VPNRange::new`
  Exec.assert (start ≤ stop)
  pure ⟨start, stop, [], mapType, mapPerm⟩

def fromAnother (another : MapArea) : MapArea :=
  ⟨another.start, another.stop, [], another.mapType, another.mapPerm⟩

/-- The page numbers of `vpn_range`, in order. -/
def vpns (area : MapArea) : List ℕ := List.range' area.start (area.stop - area.start)

/-- The frames of the area. -/
def frames (area : MapArea) : List ℕ := area.dataFrames.map Prod.snd

def mapOne (area : MapArea) (pt : PageTable) (vpn : ℕ) : Exec Machine (MapArea × PageTable) :=
  match area.mapType with
  | .identical => do
    let pt ← pt.map vpn vpn area.mapPerm
    pure (area, pt)
  | .framed => do
    let frame ← Machine.frameAlloc
    let area := { area with dataFrames := area.dataFrames ++ [(vpn, frame)] }
    let pt ← pt.map vpn frame area.mapPerm
    pure (area, pt)

/-- Drop the frame of a page of a framed area, if there is one. -/
def dropFrame (area : MapArea) (vpn : ℕ) : Exec Machine MapArea :=
  if area.mapType = .framed then
    match area.dataFrames.find? (·.1 = vpn) with
    | none => pure area
    | some entry => do
      Machine.frameDealloc entry.2
      pure { area with dataFrames := area.dataFrames.erase entry }
  else pure area

def unmapOne (area : MapArea) (pt : PageTable) (vpn : ℕ) : Exec Machine (MapArea × PageTable) := do
  let area ← area.dropFrame vpn
  let pt ← pt.unmap vpn
  pure (area, pt)

/-- Map the pages of a list, one after the other. -/
def mapPages : List ℕ → MapArea → PageTable → Exec Machine (MapArea × PageTable)
  | [], area, pt => pure (area, pt)
  | vpn :: vpns, area, pt => do
    let (area, pt) ← area.mapOne pt vpn
    mapPages vpns area pt

def map (area : MapArea) (pt : PageTable) : Exec Machine (MapArea × PageTable) :=
  mapPages area.vpns area pt

def unmapPages : List ℕ → MapArea → PageTable → Exec Machine (MapArea × PageTable)
  | [], area, pt => pure (area, pt)
  | vpn :: vpns, area, pt => do
    let (area, pt) ← area.unmapOne pt vpn
    unmapPages vpns area pt

def unmap (area : MapArea) (pt : PageTable) : Exec Machine (MapArea × PageTable) :=
  unmapPages area.vpns area pt

section CopyData

variable [KernelLayout]

open KernelLayout

/-- Copy bytes to the start of a physical page. -/
def fillPage (ppn : ℕ) (data : List UInt8) : Exec Machine Unit :=
  if data.isEmpty then pure ()
  else do
    Exec.assert (kernelWrites ppn = true)
    Exec.modify fun m ↦ m.setPage ppn fun o ↦ data[o]?.getD (m.bytes ppn o)

/-- Copy a physical page. -/
def copyPage (src dst : ℕ) : Exec Machine Unit := do
  Exec.assert (kernelReads src = true)
  Exec.assert (kernelWrites dst = true)
  Exec.modify fun m ↦ m.setPage dst (m.bytes src)

/-- The loop of `copy_data`: a turn for each page of data, and one turn at least. -/
def copyPages (pt : PageTable) : ℕ → ℕ → List UInt8 → Exec Machine Unit
  | 0, _, _ => pure ()
  | turns + 1, vpn, data => do
    let pte ← Exec.unwrap (pt.translate vpn)
    fillPage pte.ppn (data.take pageSize)
    if data.length ≤ pageSize then pure ()
    else copyPages pt turns (vpn + 1) (data.drop pageSize)

def copyData (area : MapArea) (pt : PageTable) (data : List UInt8) : Exec Machine Unit := do
  Exec.assert (area.mapType = .framed)
  copyPages pt (data.length / pageSize + 1) area.start data

end CopyData

end MapArea

/-! ## Program files -/

/-- A `PT_LOAD` program header, and the bytes of the file it names. -/
structure LoadSegment where
  virtualAddr : ℕ
  memSize : ℕ
  read : Bool
  write : Bool
  execute : Bool
  /-- `none` when the header names bytes that the file does not have. -/
  data : Option (List UInt8)
  deriving DecidableEq, Repr

structure Elf where
  segments : List LoadSegment
  entryPoint : ℕ
  deriving DecidableEq, Repr

namespace LoadSegment

def perm (ph : LoadSegment) : ℕ :=
  MapPermission.U ||| (if ph.read then MapPermission.R else 0) |||
    (if ph.write then MapPermission.W else 0) ||| (if ph.execute then MapPermission.X else 0)

def startVa (ph : LoadSegment) : ℕ := VirtAddr.ofUsize ph.virtualAddr

def endVa (ph : LoadSegment) : ℕ := VirtAddr.ofUsize ((ph.virtualAddr + ph.memSize) % 2 ^ 64)

end LoadSegment

/-! ## Memory sets -/

structure MemorySet where
  pageTable : PageTable
  areas : List MapArea

namespace MemorySet

def newBare : Exec Machine MemorySet := do
  let pt ← PageTable.new
  pure ⟨pt, []⟩

/-- The page number of the trampoline. -/
def trampolineVpn : ℕ := VirtAddr.floor (VirtAddr.ofUsize trampoline)

/-- The page number of the trap context. -/
def trapContextVpn : ℕ := VirtAddr.floor (VirtAddr.ofUsize trapContext)

def translate (ms : MemorySet) (vpn : ℕ) : Option PageTableEntry := ms.pageTable.translate vpn

/-- Drop the frames of all areas. The entries of the page table stay. -/
def recycleDataPages (ms : MemorySet) : Exec Machine MemorySet := do
  Machine.frameDeallocAll (ms.areas.flatMap MapArea.frames)
  pure { ms with areas := [] }

/-- Dropping an address space gives back its page table and then its areas. -/
def drop (ms : MemorySet) : Exec Machine Unit := do
  Machine.frameDeallocAll ms.pageTable.frames
  Machine.frameDeallocAll (ms.areas.flatMap MapArea.frames)

/-- Unmap the first area that starts with the page, and drop what frames it has left. -/
def removeAreaWithStartVpn (ms : MemorySet) (startVpn : ℕ) : Exec Machine MemorySet :=
  match ms.areas.find? (·.start = startVpn) with
  | none => pure ms
  | some area => do
    let (area', pt) ← area.unmap ms.pageTable
    Machine.frameDeallocAll area'.frames
    pure ⟨pt, ms.areas.erase area⟩

section Layout

variable [KernelLayout]

/-- Map an area and put data in it, if there is any. -/
def push (ms : MemorySet) (mapArea : MapArea) (data : Option (List UInt8)) :
    Exec Machine MemorySet := do
  let (mapArea, pt) ← mapArea.map ms.pageTable
  let _ ← data.elim (pure ()) (mapArea.copyData pt)
  pure ⟨pt, ms.areas ++ [mapArea]⟩

def insertFramedArea (ms : MemorySet) (startVa endVa permission : ℕ) : Exec Machine MemorySet := do
  let area ← MapArea.new startVa endVa .framed permission
  ms.push area none

def mapTrampoline (ms : MemorySet) : Exec Machine MemorySet := do
  let pt ← ms.pageTable.map trampolineVpn (KernelLayout.strampoline / pageSize)
    (PTEFlags.R ||| PTEFlags.X)
  pure { ms with pageTable := pt }

/-- Map the loadable segments. The second component is `max_end_vpn`, where the last one ends. -/
def mapSegments : List LoadSegment → MemorySet × ℕ → Exec Machine (MemorySet × ℕ)
  | [], acc => pure acc
  | ph :: phs, (ms, _) => do
    let area ← MapArea.new ph.startVa ph.endVa .framed ph.perm
    let data ← Exec.unwrap ph.data
    let ms ← ms.push area (some data)
    mapSegments phs (ms, area.stop)

/-- Where the user stack starts, one guard page above the last segment. -/
def userStackBottom (maxEndVpn : ℕ) : ℕ :=
  (VirtAddr.toUsize (VirtPageNum.toVirtAddr maxEndVpn) + pageSize) % 2 ^ 64

def userStackTop (maxEndVpn : ℕ) : ℕ := (userStackBottom maxEndVpn + userStackSize) % 2 ^ 64

/-- The address space of a program, its initial stack pointer and its entry point. -/
def fromElf (elf : Elf) : Exec Machine (MemorySet × ℕ × ℕ) := do
  let ms ← newBare
  let ms ← ms.mapTrampoline
  let (ms, maxEndVpn) ← mapSegments elf.segments (ms, 0)
  let stack ← MapArea.new (VirtAddr.ofUsize (userStackBottom maxEndVpn))
    (VirtAddr.ofUsize (userStackTop maxEndVpn)) .framed
    (MapPermission.R ||| MapPermission.W ||| MapPermission.U)
  let ms ← ms.push stack none
  let trapCx ← MapArea.new (VirtAddr.ofUsize trapContext) (VirtAddr.ofUsize trampoline) .framed
    (MapPermission.R ||| MapPermission.W)
  let ms ← ms.push trapCx none
  pure (ms, userStackTop maxEndVpn, elf.entryPoint)

/-- Copy the pages of a list from one space to another. -/
def copyPagesFrom (userSpace ms : MemorySet) : List ℕ → Exec Machine Unit
  | [] => pure ()
  | vpn :: vpns => do
    let src ← Exec.unwrap (userSpace.translate vpn)
    let dst ← Exec.unwrap (ms.translate vpn)
    MapArea.copyPage src.ppn dst.ppn
    copyPagesFrom userSpace ms vpns

/-- Enter copies of the areas of a list, with their contents. -/
def copyAreas (userSpace : MemorySet) : List MapArea → MemorySet → Exec Machine MemorySet
  | [], ms => pure ms
  | area :: areas, ms => do
    let ms ← ms.push (.fromAnother area) none
    copyPagesFrom userSpace ms area.vpns
    copyAreas userSpace areas ms

/-- A copy of an address space. -/
def fromExistedUser (userSpace : MemorySet) : Exec Machine MemorySet := do
  let ms ← newBare
  let ms ← ms.mapTrampoline
  copyAreas userSpace userSpace.areas ms

end Layout

end MemorySet

end AgentOS
