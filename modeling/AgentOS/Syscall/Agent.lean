import AgentOS.Agent.ContextPath
import AgentOS.Agent.Tool.Registry

/-!
# Agent system calls

The calls that take user pointers copy through the page table of the calling task, before or after
they change the state. A result is `none` when the call gave the processor away.
-/

namespace AgentOS

open LittleEndian

/-- What is left of an integer in 64 bits with a sign. -/
def toI64 (z : ℤ) : ℤ := Int.bmod z (2 ^ 64)

/-- `core::str::from_utf8`. -/
def fromUtf8 (bytes : List UInt8) : Option String := String.fromUTF8? ⟨bytes.toArray⟩

namespace AgentExt

/-- The events that `sys_agent_wait` looks for. -/
def waitMask (ext : AgentExt) : ℕ :=
  if ext.watchedEvents = 0 then eventHeartbeat ||| eventMessage else ext.watchedEvents

/-- The events that have happened. -/
def pendingEvents (ext : AgentExt) : ℕ :=
  (if ext.heartbeatPending then eventHeartbeat else 0) |||
    (if ext.mailbox.isEmpty then 0 else eventMessage) |||
    (if ext.fileEventPending then eventFileModified else 0)

/-- The events that end a wait. -/
def triggered (ext : AgentExt) : ℕ := ext.pendingEvents &&& ext.waitMask

/-- The extension after these events were reported. The messages stay. -/
def consume (ext : AgentExt) : AgentExt :=
  { ext with
    heartbeatPending := ext.heartbeatPending && (ext.triggered &&& eventHeartbeat = 0)
    fileEventPending := ext.fileEventPending && (ext.triggered &&& eventFileModified = 0) }

end AgentExt

def LoopState.ofCode : ℕ → Option LoopState
  | 0 => some .idle
  | 1 => some .thinking
  | 2 => some .calling
  | 3 => some .observing
  | 4 => some .done
  | _ => none

def LoopState.code : LoopState → ℕ
  | .idle => 0
  | .thinking => 1
  | .calling => 2
  | .observing => 3
  | .done => 4

def AgentType.code : AgentType → ℕ
  | .normal => 1
  | .system => 2

/-- What `sys_tool_call` returns for a status. -/
def ToolStatus.returnValue : ToolStatus → ℤ
  | .ok => 0
  | .toolNotFound => 100
  | .badParams => 101
  | .permissionDenied => 102
  | .quotaExceeded => 103
  | .internalError => 104
  | .notImplemented => 105

namespace Kernel

/-- The body of a call that only agents may make. -/
def withExt (f : ℕ → TaskControlBlock → AgentExt → Exec Kernel (Option ℤ)) :
    Exec Kernel (Option ℤ) := do
  let (t, tcb) ← currentTask
  match tcb.agentExt with
  | none => pure (some (-4))
  | some ext => f t tcb ext

/-- A call that changes the extension of the calling agent and returns zero. -/
def updateExt (f : AgentExt → AgentExt) : Exec Kernel (Option ℤ) :=
  withExt fun t _ _ ↦ do
    Exec.modify fun k ↦ k.setExt t f
    pure (some 0)

/-! ## Calls without user pointers -/

def sysAgentSetLoopState (stateCode : ℕ) : Exec Kernel (Option ℤ) :=
  match LoopState.ofCode (stateCode % 2 ^ 32) with
  | none => pure (some (-1))
  | some newState => updateExt fun ext ↦ { ext with loopState := newState }

def sysAgentSetPriority (priority : ℕ) : Exec Kernel (Option ℤ) := do
  let p := min priority maxPriority
  let (t, _) ← currentTask
  Exec.modify fun k ↦ k.setTask t fun tcb ↦ { tcb with priority := p }
  pure (some p)

def sysAgentHeartbeatSet (intervalMs : ℕ) : Exec Kernel (Option ℤ) :=
  withExt fun t _ _ ↦ do
    let now ← onMachine Machine.getTimeMs
    Exec.modify fun k ↦ k.setExt t fun ext ↦
      { ext with
        heartbeatIntervalMs := intervalMs
        heartbeatLastMs := now
        heartbeatPending := false }
    pure (some 0)

def sysAgentHeartbeatStop : Exec Kernel (Option ℤ) :=
  updateExt fun ext ↦ { ext with heartbeatIntervalMs := 0, heartbeatPending := false }

def sysAgentWatch (eventMask : ℕ) : Exec Kernel (Option ℤ) :=
  updateExt fun ext ↦ { ext with watchedEvents := ext.watchedEvents ||| eventMask % 2 ^ 32 }

def sysAgentUnwatch (eventMask : ℕ) : Exec Kernel (Option ℤ) :=
  updateExt fun ext ↦
    { ext with watchedEvents := ext.watchedEvents &&& ((2 ^ 32 - 1) ^^^ (eventMask % 2 ^ 32)) }

/-! ## Waiting -/

/-- The end of a wait. -/
def endWait (t : ℕ) (value : ℕ) : Exec Kernel (Option ℤ) := do
  Exec.modify fun k ↦ k.setExt t fun ext ↦ { ext with loopState := .idle }
  pure (some value)

/-- Go to sleep, to go on with the next turn of the loop. -/
def sleep (startMs timeoutMs : ℤ) (absoluteDeadlineMs : Option ℕ) : Exec Kernel (Option ℤ) := do
  blockCurrentAgent (.agentWait startMs timeoutMs absoluteDeadlineMs) absoluteDeadlineMs
  pure none

/-- One turn of the loop of `sys_agent_wait`: report events, or time out, or go to sleep. -/
def waitTurn (startMs timeoutMs : ℤ) (absoluteDeadlineMs : Option ℕ) : Exec Kernel (Option ℤ) :=
  withExt fun t _ ext ↦ do
    Exec.modify fun k ↦ k.setExt t fun _ ↦ ext.consume
    if ext.triggered ≠ 0 then endWait t ext.triggered
    else if 0 ≤ timeoutMs then do
      let now ← onMachine Machine.getTimeMs
      if timeoutMs ≤ toI64 (toI64 now - startMs) then endWait t 0
      else sleep startMs timeoutMs absoluteDeadlineMs
    else sleep startMs timeoutMs absoluteDeadlineMs

/-- The deadline of a wait, which reads the clock if there is one. -/
def waitDeadline (timeoutMs : ℤ) : Exec Machine (Option ℕ) :=
  if timeoutMs < 0 then pure none
  else do
    let now ← Machine.getTimeMs
    pure (some (max (toI64 (toI64 now + timeoutMs)) 0).toNat)

def sysAgentWait (timeoutMs : ℤ) : Exec Kernel (Option ℤ) := do
  let start ← onMachine Machine.getTimeMs
  let (t, _) ← currentTask
  Exec.modify fun k ↦ k.setExt t fun ext ↦ { ext with loopState := .thinking }
  let deadline ← onMachine (waitDeadline timeoutMs)
  waitTurn (toI64 start) timeoutMs deadline

section Copies

variable [KernelLayout]

/-- Become an agent. -/
def sysAgentCreate (_cfgPtr : ℕ) : Exec Kernel (Option ℤ) := do
  let (t, tcb) ← currentTask
  if tcb.agentExt.isSome then pure (some 0)
  else do
    let (area, ms) ← onMachine (AgentContextArea.allocate tcb.memorySet contextAreaDefaultSize)
    Exec.modify fun k ↦ k.setTask t fun tcb ↦ { tcb with memorySet := ms }
    onMachine (area.initHeader ms)
    Exec.modify fun k ↦ k.setTask t fun tcb ↦
      { tcb with agentExt := some (.new .normal area.base area.size 128 (16 * 1024)) }
    pure (some 0)

/-- The 16 bytes of `sys_agent_info`. -/
def agentInfo (ext : AgentExt) : List UInt8 :=
  leBytes 4 ext.agentType.code ++ leBytes 4 ext.contextAreaSize ++ leBytes 4 ext.pathMeta.length ++
    leBytes 4 ext.loopState.code

/-- Write as much of the information as fits, and return how much that is. -/
def sysAgentInfo (_pid infoPtr infoLen : ℕ) : Exec Kernel (Option ℤ) :=
  withExt fun _ tcb ext ↦ do
    let buf := agentInfo ext
    let chunks ← Exec.unwrap
      (tcb.memorySet.pageTable.translatedByteBuffer infoPtr (min infoLen buf.length))
    let written ← onMachine (writeChunks .userPtr chunks buf)
    pure (some written)

omit [KernelLayout] in
/-- Copy a request part from the user. A null pointer stands for zeros. -/
def readOptional (pt : PageTable) (ptr len : ℕ) : Exec Machine (List UInt8) :=
  if 0 < len ∧ ptr ≠ 0 then readUserBytes .userPtr pt ptr (List.replicate len 0)
  else pure (List.replicate len 0)

/-- Write a 32-bit result to the user, unless the pointer is null. -/
def writeOut (pt : PageTable) (ptr value : ℕ) : Exec Machine Unit :=
  if ptr ≠ 0 then writeUserBytes .userPtr pt ptr (leBytes 4 value) else pure ()

/-! ## Tool calls -/

/-- What `sys_tool_call` does with the result of a tool: write it to the context area, write its
offset and length to the user, and return the status. -/
def toolReply (t : ℕ) (pt : PageTable) (areaBase : ℕ) (dr : DispatchResult)
    (outOffsetPtr outLenPtr : ℕ) : Exec Kernel (Option ℤ) := do
  let filled := dr.status = .ok ∧ dr.body ≠ []
  if filled ∧ Layout.toolResultLen < dr.body.length then pure (some (-5))
  else do
    onMachine (if filled then
      writeUserBytes .contextArea pt (areaBase + Layout.toolResultOff) dr.body else pure ())
    onMachine (writeOut pt outOffsetPtr (if filled then Layout.toolResultOff else 0))
    onMachine (writeOut pt outLenPtr (if filled then dr.body.length else 0))
    Exec.modify fun k ↦ k.setExt t fun ext ↦ { ext with loopState := .observing }
    pure (some dr.status.returnValue)

def sysToolCall (reqPtr reqLen outOffsetPtr outLenPtr : ℕ) : Exec Kernel (Option ℤ) :=
  if reqPtr = 0 ∨ reqLen = 0 ∨ 64 * 1024 < reqLen then pure (some (-1))
  else withExt fun t tcb ext ↦ do
    let pt := tcb.memorySet.pageTable
    Exec.modify fun k ↦ k.setExt t fun ext ↦ { ext with loopState := .calling }
    let reqBuf ← onMachine (readUserBytes .userPtr pt reqPtr (List.replicate reqLen 0))
    match decodeRequest reqBuf with
    | .error _ => pure (some (-3))
    | .ok req => do
      let r ← dispatch req
      match r with
      | .error e => pure (some e.intoIsize)
      | .ok dr => toolReply t pt ext.contextAreaBase dr outOffsetPtr outLenPtr

def sysToolList (bufPtr bufLen : ℕ) : Exec Kernel (Option ℤ) :=
  if bufPtr = 0 then pure (some (-1))
  else if bufLen < toolList.length then pure (some (-2))
  else do
    let (_, tcb) ← currentTask
    onMachine (writeUserBytes .userPtr tcb.memorySet.pageTable bufPtr toolList)
    pure (some toolList.length)

/-! ## The context path -/

/-- Append a node to the path. The request and the response are read before the caller is known to
be an agent. -/
def sysContextPush (reqPtr reqLen respPtr respLen : ℕ) : Exec Kernel (Option ℤ) :=
  if 4096 < reqLen ∨ 4096 < respLen then pure (some (-2))
  else do
    let (t, tcb) ← currentTask
    let pt := tcb.memorySet.pageTable
    let reqBuf ← onMachine (readOptional pt reqPtr reqLen)
    let respBuf ← onMachine (readOptional pt respPtr respLen)
    match tcb.agentExt with
    | none => pure (some (-4))
    | some ext => do
      let (r, ext) ← onMachine (ContextPath.pushNode ext pt reqBuf respBuf)
      Exec.modify fun k ↦ k.setExt t fun _ ↦ ext
      match r with
      | .ok idx => pure (some idx)
      | .error e => pure (some e.intoIsize)

def sysContextQuery (_start _count outOffsetPtr outLenPtr : ℕ) : Exec Kernel (Option ℤ) :=
  withExt fun _ tcb ext ↦
    match ContextPath.serializeMeta ext with
    | .error e => pure (some e.intoIsize)
    | .ok body =>
      if Layout.toolResultLen < body.length then pure (some (-5))
      else do
        let pt := tcb.memorySet.pageTable
        onMachine (writeUserBytes .contextArea pt (ext.contextAreaBase + Layout.toolResultOff) body)
        onMachine (writeOut pt outOffsetPtr Layout.toolResultOff)
        onMachine (writeOut pt outLenPtr body.length)
        pure (some 0)

def sysContextRollback (nodeCount : ℕ) : Exec Kernel (Option ℤ) :=
  withExt fun t tcb ext ↦ do
    let (r, ext) ← onMachine (ContextPath.rollback ext tcb.memorySet.pageTable nodeCount)
    Exec.modify fun k ↦ k.setExt t fun _ ↦ ext
    match r with
    | .ok () => pure (some 0)
    | .error e => pure (some e.intoIsize)

def sysContextClear : Exec Kernel (Option ℤ) :=
  withExt fun t tcb ext ↦ do
    let ext ← onMachine (ContextPath.clear ext tcb.memorySet.pageTable)
    Exec.modify fun k ↦ k.setExt t fun _ ↦ ext
    pure (some 0)

end Copies

/-! ## File attributes and mail -/

/-- Add a tag to a file, and tell the agents that watch for it. -/
def sysFileAttrSet (namePtr nameLen tagPtr tagLen : ℕ) : Exec Kernel (Option ℤ) :=
  if namePtr = 0 ∨ nameLen = 0 ∨ 256 < nameLen ∨ 256 < tagLen then pure (some (-1))
  else do
    let (_, tcb) ← currentTask
    let pt := tcb.memorySet.pageTable
    let nameBuf ← onMachine (readUserBytes .userPtr pt namePtr (List.replicate nameLen 0))
    let tagBuf ← onMachine (readOptional pt tagPtr tagLen)
    match fromUtf8 nameBuf, fromUtf8 tagBuf with
    | some name, some tag => do
      Exec.modify fun k ↦ { k with fileAttrStore := k.fileAttrStore.addTag name tag }
      broadcastFileEvent
      pure (some 0)
    | _, _ => pure (some (-7))

/-- What a deletion leaves of the store, and whether there was anything to delete. -/
def finishDel (r : Bool × FileAttrStore) : Exec Kernel (Option ℤ) := do
  Exec.modify fun k ↦ { k with fileAttrStore := r.2 }
  if r.1 then do
    broadcastFileEvent
    pure (some 1)
  else pure (some 0)

/-- Remove a tag of a file, or with an empty tag the whole file. -/
def sysFileAttrDel (namePtr nameLen tagPtr tagLen : ℕ) : Exec Kernel (Option ℤ) :=
  if namePtr = 0 ∨ nameLen = 0 ∨ 256 < nameLen ∨ 256 < tagLen then pure (some (-1))
  else do
    let (_, tcb) ← currentTask
    let pt := tcb.memorySet.pageTable
    let nameBuf ← onMachine (readUserBytes .userPtr pt namePtr (List.replicate nameLen 0))
    match fromUtf8 nameBuf with
    | none => pure (some (-7))
    | some name =>
      if tagLen = 0 then do
        let k ← Exec.get
        finishDel (k.fileAttrStore.removeFile name)
      else do
        let tagBuf ← onMachine (readUserBytes .userPtr pt tagPtr (List.replicate tagLen 0))
        match fromUtf8 tagBuf with
        | none => pure (some (-7))
        | some tag => do
          let k ← Exec.get
          finishDel (k.fileAttrStore.removeTag name tag)

/-- Take the oldest message out of the mailbox, and write as much of it as the caller asks for. -/
def sysMailboxRecv [KernelLayout] (bufPtr bufLen : ℕ) : Exec Kernel (Option ℤ) :=
  if bufPtr = 0 then pure (some (-1))
  else withExt fun t tcb ext ↦
    match ext.mailbox with
    | [] => pure (some (-6))
    | msg :: rest => do
      let n := min bufLen msg.length
      Exec.modify fun k ↦
        { k.setExt t fun ext ↦ { ext with mailbox := rest } with
          history := k.history ++ [MailEvent.received t msg n] }
      onMachine (writeUserBytes .userPtr tcb.memorySet.pageTable bufPtr (msg.take n))
      pure (some n)

end Kernel

end AgentOS
