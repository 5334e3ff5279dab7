import AgentOS.Task.Processor

/-!
# Heartbeats, messages and file events

Events reach an agent in two steps. First the agent is marked: a flag is set in its extension, or a
message put in its mailbox. Then, if it is blocked, it is woken by its process identifier. The
heartbeat and the file event mark every agent that they concern before they wake the first one.
-/

namespace AgentOS

def eventHeartbeat : ℕ := 1 <<< 0

def eventMessage : ℕ := 1 <<< 1

def eventFileModified : ℕ := 1 <<< 2

namespace AgentExt

/-- The heartbeat of an agent at a time, if it is due. -/
def heartbeat (nowMs : ℕ) (ext : AgentExt) : Option AgentExt :=
  if 0 < ext.heartbeatIntervalMs ∧ ext.heartbeatIntervalMs ≤ nowMs - ext.heartbeatLastMs then
    some { ext with heartbeatPending := true, heartbeatLastMs := nowMs }
  else none

/-- The file event, for an agent that watches it. -/
def fileEvent (ext : AgentExt) : Option AgentExt :=
  if ext.watchedEvents &&& eventFileModified ≠ 0 then some { ext with fileEventPending := true }
  else none

/-- The message that makes room in a full mailbox. -/
def evicted (ext : AgentExt) : Option (List UInt8) :=
  if ext.mailboxCapacity ≤ ext.mailbox.length then ext.mailbox.head? else none

/-- Put a message in the mailbox. A full one loses its oldest. -/
def accept (payload : List UInt8) (ext : AgentExt) : AgentExt :=
  { ext with
    mailbox := (if ext.mailboxCapacity ≤ ext.mailbox.length then ext.mailbox.tail else ext.mailbox)
      ++ [payload] }

end AgentExt

namespace Kernel

/-- Mark the agents of a list that an event concerns, and collect their process identifiers. -/
def markAgents (mark : AgentExt → Option AgentExt) :
    List ℕ → Kernel × List ℕ → Kernel × List ℕ
  | [], acc => acc
  | t :: ts, (k, pids) =>
    markAgents mark ts <|
      match (k.extOf t).bind mark with
      | some ext => (k.setExt t fun _ ↦ ext, pids ++ (k.pidOf t).toList)
      | none => (k, pids)

/-- Mark the agents that an event concerns, then wake them. -/
def notify (mark : AgentExt → Option AgentExt) (ts : List ℕ) (k : Kernel) : Kernel :=
  let (k, pids) := markAgents mark ts (k, [])
  pids.foldl wakeAgentByPid k

/-- What a timer interrupt does for heartbeats. -/
def tickAllAgents : Exec Kernel Unit := do
  let nowMs ← onMachine Machine.getTimeMs
  let k ← Exec.get
  let tasks ← Exec.unwrap k.snapshotAllProcesses
  Exec.modify (notify (AgentExt.heartbeat nowMs) tasks)

def broadcastFileEvent : Exec Kernel Unit := do
  let k ← Exec.get
  let tasks ← Exec.unwrap k.snapshotAllProcesses
  Exec.modify (notify AgentExt.fileEvent tasks)

/-- Put a message in the mailbox of an agent and wake it. -/
def deliver (k : Kernel) (t pid : ℕ) (ext : AgentExt) (payload : List UInt8) : Kernel :=
  let k := { k.setExt t (AgentExt.accept payload) with
    history := k.history ++ [MailEvent.accepted t payload ext.evicted] }
  k.wakeAgentByPid pid

/-- Deliver a message to the agent with a process identifier. Is there one? The oldest message of a
mailbox of capacity zero does not exist, and removing it stops the kernel. -/
def deliverMessage (targetPid : ℕ) (payload : List UInt8) : Exec Kernel Bool := do
  let k ← Exec.get
  let tasks ← Exec.unwrap k.snapshotAllProcesses
  match tasks.find? fun t ↦ k.pidOf t = some targetPid with
  | none => pure false
  | some t =>
    match k.extOf t with
    | none => pure false
    | some ext => do
      Exec.assert (¬(ext.mailboxCapacity ≤ ext.mailbox.length ∧ ext.mailbox = []))
      Exec.modify fun k ↦ k.deliver t targetPid ext payload
      pure true

end Kernel

end AgentOS
