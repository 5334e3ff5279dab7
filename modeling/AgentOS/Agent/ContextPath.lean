import AgentOS.Lib.Packed
import AgentOS.Lib.Postcard
import AgentOS.Agent.ContextArea
import AgentOS.Agent.Error
import AgentOS.Agent.PcbExt

/-!
# The context path

A path is a sequence of nodes, each a request and a response. The kernel keeps the metadata of the
nodes in the process's extension, and their bytes in the path buffer of the context area, which the
user can read.

Offsets and lengths have 32 bits in the source, where their sums and differences wrap around.

Nothing in the user's memory is read back by the kernel, except to move it.
-/

namespace AgentOS

open LittleEndian

namespace ContextPath

/-! ## The operations -/

def nodeHeaderSize : ℕ := 8 + 8 + 4 + 4

def nodeTotalSize (reqLen respLen : ℕ) : ℕ := nodeHeaderSize + reqLen + respLen

/-- The node to evict under the current policy. The least recently written one is the first of those
with the smallest time. -/
def pickVictim (ext : AgentExt) : Option ℕ :=
  if ext.pathMeta.isEmpty then none
  else match ext.pathQuota.policy with
    | .fifo => some 0
    | .lru => (ext.pathMeta.zipIdx.argmin fun p ↦ p.1.writeTime).map Prod.snd

/-- The metadata as the user gets it. -/
def serializeMeta (ext : AgentExt) : AgentResult (List UInt8) :=
  .ok <| Postcard.encodeSeq (fun m : PathNodeMeta ↦
    Postcard.encodeVarint m.offsetInBuffer ++ Postcard.encodeVarint m.len ++
      Postcard.encodeVarint m.seq ++ Postcard.encodeVarint m.writeTime) ext.pathMeta

section Operations

variable [KernelLayout]

/-- Copy the used bytes and the number of nodes to the header. -/
def syncHeader (ext : AgentExt) (pt : PageTable) : Exec Machine Unit := do
  let base := ext.contextAreaBase
  writeUserBytes .contextArea pt (base + 36) (leBytes 4 ext.pathUsedBytes)
  writeUserBytes .contextArea pt (base + 40) (leBytes 4 ext.pathMeta.length)

def writeNodeAt (pt : PageTable) (pathBufferVa offsetInBuffer seq ts : ℕ)
    (req resp : List UInt8) : Exec Machine Unit := do
  let header := leBytes 8 seq ++ leBytes 8 ts ++ leBytes 4 req.length ++ leBytes 4 resp.length
  let abs := pathBufferVa + offsetInBuffer
  writeUserBytes .contextArea pt abs header
  writeUserBytes .contextArea pt (abs + nodeHeaderSize) req
  writeUserBytes .contextArea pt (abs + nodeHeaderSize + req.length) resp

/-- The loop of `shift_path_buffer_left`, which moves 256 bytes a turn through a buffer. -/
def shiftFrom (pt : PageTable) (pathBufferVa «from» len shift : ℕ) :
    ℕ → ℕ → List UInt8 → Exec Machine Unit
  | 0, _, _ => Exec.panic
  | turns + 1, copied, buf =>
    if copied < len then do
      let n := min (len - copied) 256
      let got ← readUserBytes .contextArea pt (pathBufferVa + («from» + copied) % 2 ^ 32)
        (buf.take n)
      writeUserBytes .contextArea pt (pathBufferVa + («from» + copied + (2 ^ 32 - shift)) % 2 ^ 32)
        got
      shiftFrom pt pathBufferVa «from» len shift turns (copied + n) (got ++ buf.drop n)
    else pure ()

/-- Move `len` bytes of the path buffer to the left. The loop makes a turn for every 256 bytes. -/
def shiftPathBufferLeft (pt : PageTable) (pathBufferVa «from» len shift : ℕ) :
    Exec Machine Unit :=
  if len = 0 ∨ shift = 0 then pure ()
  else shiftFrom pt pathBufferVa «from» len shift (len / 256 + 2) 0 (List.replicate 256 0)

def evictOne (ext : AgentExt) (pt : PageTable) : Exec Machine (AgentResult Unit × AgentExt) :=
  match pickVictim ext with
  | none => pure (.error .notFound, ext)
  | some victimIdx => do
    let victim ← Exec.unwrap ext.pathMeta[victimIdx]?
    let pathBufferVa := ext.contextAreaBase + Layout.pathBufferOff
    let moveFrom := (victim.offsetInBuffer + victim.len) % 2 ^ 32
    let moveLen := ext.pathUsedBytes - moveFrom
    shiftPathBufferLeft pt pathBufferVa moveFrom moveLen victim.len
    let pathMeta := (ext.pathMeta.eraseIdx victimIdx).map fun m ↦
      if moveFrom ≤ m.offsetInBuffer then
        { m with offsetInBuffer := (m.offsetInBuffer + (2 ^ 32 - victim.len)) % 2 ^ 32 }
      else m
    pure (.ok (), { ext with
      pathMeta := pathMeta
      pathUsedBytes := ext.pathUsedBytes - victim.len })

/-- The loop of `push_node`: evict until a node of the given size fits. Each turn but the last evicts
a node. -/
def evictUntil (pt : PageTable) (size : ℕ) :
    ℕ → AgentExt → Exec Machine (AgentResult Unit × AgentExt)
  | 0, _ => Exec.panic
  | turns + 1, ext =>
    if ext.pathQuota.maxBytes < (ext.pathUsedBytes + size) % 2 ^ 32 ∨
        ext.pathQuota.maxNodes ≤ ext.pathMeta.length % 2 ^ 32 then
      if ext.pathMeta.isEmpty then pure (.error .internalError, ext)
      else do
        let (r, ext) ← evictOne ext pt
        match r with
        | .error e => pure (.error e, ext)
        | .ok () => evictUntil pt size turns ext
    else pure (.ok (), ext)

/-- Append a node, and return its index. -/
def pushNode (ext : AgentExt) (pt : PageTable) (reqSummary respSummary : List UInt8) :
    Exec Machine (AgentResult ℕ × AgentExt) :=
  let size := nodeTotalSize reqSummary.length respSummary.length % 2 ^ 32
  if Layout.pathBufferLen < size then pure (.error .quotaExceeded, ext)
  else if ext.pathQuota.maxBytes < size then pure (.error .quotaExceeded, ext)
  else do
    let (r, ext) ← evictUntil pt size (ext.pathMeta.length + 1) ext
    match r with
    | .error e => pure (.error e, ext)
    | .ok () => do
      let offset := ext.pathUsedBytes
      let seq := ext.nextSeq
      let now ← Machine.getTime
      writeNodeAt pt (ext.contextAreaBase + Layout.pathBufferOff) offset seq now reqSummary
        respSummary
      let ext := { ext with
        pathMeta := ext.pathMeta ++ [⟨offset, size, now, seq⟩]
        pathUsedBytes := (ext.pathUsedBytes + size) % 2 ^ 32
        nextSeq := ext.nextSeq + 1 }
      syncHeader ext pt
      pure (.ok (ext.pathMeta.length - 1), ext)

/-- The metadata of the first nodes. -/
def truncate (ext : AgentExt) (nodeCount : ℕ) : Option AgentExt :=
  if nodeCount = 0 then some { ext with pathMeta := [], pathUsedBytes := 0 }
  else ext.pathMeta[nodeCount - 1]?.map fun last ↦
    { ext with
      pathMeta := ext.pathMeta.take nodeCount
      pathUsedBytes := (last.offsetInBuffer + last.len) % 2 ^ 32 }

/-- Keep the first nodes and drop the others. Their bytes stay where they are. -/
def rollback (ext : AgentExt) (pt : PageTable) (nodeCount : ℕ) :
    Exec Machine (AgentResult Unit × AgentExt) :=
  if ext.pathMeta.length < nodeCount then pure (.error .notFound, ext)
  else do
    let ext ← Exec.unwrap (truncate ext nodeCount)
    syncHeader ext pt
    pure (.ok (), ext)

def clear (ext : AgentExt) (pt : PageTable) : Exec Machine AgentExt := do
  let ext := { ext with pathMeta := [], pathUsedBytes := 0 }
  syncHeader ext pt
  pure ext

end Operations

/-! ## The reader in user space -/

/-- Request and response of a node, read from the path buffer at its fixed address. `none` when the
metadata are too short for a node, or a load faults. -/
def readPathNodeZeroCopy (m : Machine) (pt : PageTable) (node : PathNodeMeta) :
    Option (List UInt8 × List UInt8) :=
  if node.len < 8 + 8 + 4 + 4 then none
  else do
    let base := contextAreaBase + 0x4100 + node.offsetInBuffer
    let header ← userLoads m pt base (8 + 8 + 4 + 4)
    let reqLen := leValue ((header.drop 16).take 4)
    let respLen := leValue ((header.drop 20).take 4)
    let req ← userLoads m pt (base + (8 + 8 + 4 + 4)) reqLen
    let resp ← userLoads m pt (base + (8 + 8 + 4 + 4) + reqLen) respLen
    pure (req, resp)

/-- The sequence number in the header of a node. -/
def readSeq (m : Machine) (pt : PageTable) (node : PathNodeMeta) : Option ℕ :=
  (userLoads m pt (contextAreaBase + 0x4100 + node.offsetInBuffer) 8).map leValue

end ContextPath

end AgentOS
