import Mathlib
import AgentOS.Lib.ByteLayout
import AgentOS.Lib.Exec

/-!
# The block cache

`easy-fs/src/block_cache.rs`. Blocks of the devices are read and written through a queue of at most 16
cached blocks. A cached block lives behind an `Arc`, and the entry of the queue is one of its references.
When the queue is full, the first entry nobody else holds makes room for the next block. What was modified
goes to the device when the block is synced, which it also is when it is dropped.

An `Arc` is a number, and its strong count is counted from the queue and the handles. The `Mutex` around a
block is a spin lock: taking it twice never ends, which is a panic here.
-/

namespace AgentOS.Fs

/-- `BLOCK_SZ`. -/
def blockSz : ℕ := 512

/-- The contents of a block. -/
abbrev Block := Vector UInt8 blockSz

/-- An `Arc<dyn BlockDevice>`. -/
abbrev DeviceId := ℕ

/-- The block nobody has written to. -/
def zeroBlock : Block := Vector.replicate blockSz 0

structure BlockCache where
  cache : Block
  /-- underlying block id -/
  blockId : ℕ
  /-- underlying block device -/
  blockDevice : DeviceId
  /-- whether the block is dirty -/
  modified : Bool

/-- What was locked, and when: the block, the blocks that were locked at the time, and how many references
there were outside the queue. -/
structure Use where
  block : Option ℕ
  held : List (Option ℕ)
  entries : ℕ
  deriving DecidableEq

/-- The devices, the cached blocks in memory and the references to them. `uses` is no part of the source: it
records what is locked, the last block first, for statements about whole runs. -/
structure Storage where
  device : DeviceId → ℕ → Block
  /-- The block behind each `Arc`. -/
  arcs : ℕ → Option BlockCache
  nextArc : ℕ
  /-- `BLOCK_CACHE_MANAGER.queue` -/
  queue : List (ℕ × ℕ)
  /-- The references outside the queue. -/
  handles : List ℕ
  locked : List ℕ
  uses : List Use := []

/-- Devices with nothing of them in memory. -/
def Storage.boot (device : DeviceId → ℕ → Block) : Storage :=
  { device, arcs := fun _ ↦ none, nextArc := 0, queue := [], handles := [], locked := [] }

/-- `Arc::strong_count`. -/
def Storage.strongCount (s : Storage) (arc : ℕ) : ℕ :=
  (s.queue.map Prod.snd).count arc + s.handles.count arc

/-- `BlockDevice::write_block`. -/
def Storage.writeBlock (dev : DeviceId) (blockId : ℕ) (buf : Block) (s : Storage) : Storage :=
  { s with device := Function.update s.device dev (Function.update (s.device dev) blockId buf) }

def Storage.setArc (arc : ℕ) (b : Option BlockCache) (s : Storage) : Storage :=
  { s with arcs := Function.update s.arcs arc b }

/-- The id of the block behind an `Arc`. -/
def Storage.blockOf (s : Storage) (arc : ℕ) : Option ℕ := (s.arcs arc).map BlockCache.blockId

/-- What is recorded of a lock. -/
def Storage.use (s : Storage) (arc : ℕ) : Use := ⟨s.blockOf arc, s.locked.map s.blockOf, s.handles.length⟩

open Exec

/-- The block behind an `Arc`. -/
def cached (arc : ℕ) : Exec Storage BlockCache := do
  let s ← get
  unwrap (s.arcs arc)

namespace BlockCache

/-- Load a new BlockCache from disk. -/
def new (blockId : ℕ) (dev : DeviceId) : Exec Storage ℕ := do
  let s ← get
  let cache := s.device dev blockId
  let block : BlockCache := { cache, blockId, blockDevice := dev, modified := false }
  modify fun s ↦ { s.setArc s.nextArc (some block) with nextArc := s.nextArc + 1 }
  pure s.nextArc

def sync (arc : ℕ) : Exec Storage Unit := do
  let b ← cached arc
  if b.modified then
    modify (Storage.setArc arc (some { b with modified := false }))
    modify (Storage.writeBlock b.blockDevice b.blockId b.cache)

variable {T V : Type}

/-- `get_ref`. -/
def getRef (L : ByteLayout T) (offset arc : ℕ) : Exec Storage T := do
  assert (offset + L.size ≤ blockSz)
  let b ← cached arc
  pure (L.read offset b.cache)

/-- `get_mut`. -/
def getMut (L : ByteLayout T) (offset arc : ℕ) : Exec Storage T := do
  assert (offset + L.size ≤ blockSz)
  let b ← cached arc
  modify (Storage.setArc arc (some { b with modified := true }))
  pure (L.read offset b.cache)

/-- What a closure has made of the value `get_mut` gave it. -/
def putMut (L : ByteLayout T) (offset arc : ℕ) (v : T) : Exec Storage Unit := do
  let b ← cached arc
  modify (Storage.setArc arc (some { b with cache := L.write offset v b.cache }))

/-- `BlockCache::read`. -/
def read (L : ByteLayout T) (offset arc : ℕ) (f : T → Exec Storage V) : Exec Storage V := do
  let v ← getRef L offset arc
  f v

/-- `BlockCache::modify`. The closure gives its result and what it leaves behind the reference. -/
def modify (L : ByteLayout T) (offset arc : ℕ) (f : T → Exec Storage (V × T)) : Exec Storage V := do
  let v ← getMut L offset arc
  let r ← f v
  putMut L offset arc r.2
  pure r.1

end BlockCache

/-- A reference is gone. The last one takes the block with it. -/
def releaseArc (arc : ℕ) : Exec Storage Unit := do
  let s ← get
  if s.strongCount arc = 0 then
    BlockCache.sync arc
    modify (Storage.setArc arc none)

/-- `drop` of a handle. -/
def dropHandle (arc : ℕ) : Exec Storage Unit := do
  modify fun s ↦ { s with handles := s.handles.erase arc }
  releaseArc arc

/-- `Mutex::lock`. -/
def lock (arc : ℕ) : Exec Storage Unit := do
  let s ← get
  assert (arc ∉ s.locked)
  modify fun s ↦ { s with locked := arc :: s.locked, uses := s.use arc :: s.uses }

def unlock (arc : ℕ) : Exec Storage Unit :=
  modify fun s ↦ { s with locked := s.locked.erase arc }

/-- Do something while the guard of `lock` lives. -/
def withLock {α : Type} (arc : ℕ) (x : Exec Storage α) : Exec Storage α := do
  lock arc
  let v ← x
  unlock arc
  pure v

/-- Use a block cache of 16 blocks -/
def blockCacheSize : ℕ := 16

/-- Make room in a full queue: from front to tail, the first entry with no handle. -/
def substitute : Exec Storage Unit := do
  let s ← get
  if s.queue.length = blockCacheSize then
    match s.queue.find? fun pair ↦ s.strongCount pair.2 = 1 with
    | some pair =>
      modify fun s ↦ { s with queue := s.queue.erase pair }
      releaseArc pair.2
    | none => panic

/-- `BlockCacheManager::get_block_cache`. The entry is looked up by the block id. -/
def getBlockCache (blockId : ℕ) (dev : DeviceId) : Exec Storage ℕ := do
  let s ← get
  match s.queue.find? fun pair ↦ pair.1 = blockId with
  | some pair =>
    modify fun s ↦ { s with handles := pair.2 :: s.handles }
    pure pair.2
  | none =>
    substitute
    let arc ← BlockCache.new blockId dev
    modify fun s ↦ { s with queue := s.queue ++ [(blockId, arc)], handles := arc :: s.handles }
    pure arc

/-- Sync the blocks of some entries of the queue. -/
def syncEntries : List (ℕ × ℕ) → Exec Storage Unit
  | [] => pure ()
  | pair :: queue => do
    lock pair.2
    BlockCache.sync pair.2
    unlock pair.2
    syncEntries queue

/-- Sync all block cache to block device -/
def blockCacheSyncAll : Exec Storage Unit := do
  let s ← get
  syncEntries s.queue

/-! ## The calls of a client

A client keeps the handles it got in variables. A variable belongs to the device its handle was obtained
with. -/

/-- A variable for handles of one device. -/
structure Handle where
  device : DeviceId
  name : ℕ
  deriving DecidableEq

inductive Call where
  /-- `let h = get_block_cache(block_id, device)` -/
  | get (h : Handle) (blockId : ℕ)
  /-- `h.lock().read(offset, |bytes: &[u8; len]| *bytes)` -/
  | read (h : Handle) (offset len : ℕ)
  /-- `h.lock().modify(offset, |bytes: &mut [u8; len]| ..)`, which gives the bytes before -/
  | modify (h : Handle) (offset len : ℕ) (f : Vector UInt8 len → Vector UInt8 len)
  /-- `drop(h)` -/
  | release (h : Handle)
  /-- `block_cache_sync_all()` -/
  | syncAll

/-- The storage and the handles of the client. -/
structure Client where
  storage : Storage
  vars : List (Handle × ℕ)

namespace Client

def arcOf (c : Client) (h : Handle) : Option ℕ := c.vars.lookup h

/-- Run a computation on the storage. -/
def onStorage {α : Type} (x : Exec Storage α) : Exec Client α :=
  zoom Client.storage (fun s c ↦ { c with storage := s }) x

/-- The block behind a variable. -/
def useHandle (h : Handle) : Exec Client ℕ := do
  let c ← Exec.get
  unwrap (c.arcOf h)

/-- A call, and the bytes it gives to the client. -/
def step : Call → Exec Client (List UInt8)
  | .get h blockId => do
    let c ← Exec.get
    assert (c.arcOf h = none)
    let arc ← onStorage (getBlockCache blockId h.device)
    Exec.modify fun c ↦ { c with vars := (h, arc) :: c.vars }
    pure []
  | .read h offset len => do
    let arc ← useHandle h
    let v ← onStorage (withLock arc (BlockCache.read (ByteLayout.bytes len) offset arc pure))
    pure v.toList
  | .modify h offset len f => do
    let arc ← useHandle h
    let v ← onStorage (withLock arc
      (BlockCache.modify (ByteLayout.bytes len) offset arc fun v ↦ pure (v, f v)))
    pure v.toList
  | .release h => do
    let arc ← useHandle h
    Exec.modify fun c ↦ { c with vars := c.vars.filter fun p ↦ p.1 ≠ h }
    onStorage (dropHandle arc)
    pure []
  | .syncAll => do
    onStorage blockCacheSyncAll
    pure []

/-- The calls one after the other, and what each gave. -/
def run : List Call → Exec Client (List (List UInt8))
  | [] => pure []
  | call :: calls => do
    let out ← step call
    let outs ← run calls
    pure (out :: outs)

end Client

end AgentOS.Fs
