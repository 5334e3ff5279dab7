import AgentOS.Agent.EventBus
import AgentOS.Agent.Tool.Handlers

/-!
# The tool dispatcher
-/

namespace AgentOS

def mapStatus : TaskStatus → ProcStatus
  | .ready => .ready
  | .running => .running
  | .zombie => .zombie
  | .blocked => .blocked

namespace Kernel

/-- What the tools report about a process. Its name is made from its identifier. -/
def processInfo (tcb : TaskControlBlock) : ProcessInfo where
  pid := tcb.pid % 2 ^ 32
  name := "proc-" ++ toString (tcb.pid % 2 ^ 32)
  status := mapStatus tcb.taskStatus
  isAgent := tcb.agentExt.isSome

def collectProcesses : Exec Kernel (List ProcessInfo) := do
  let k ← Exec.get
  let tasks ← Exec.unwrap k.snapshotAllProcesses
  pure ((tasks.filterMap k.tasks).map processInfo)

def sendMessage (req : ToolRequest) : Exec Kernel (AgentResult DispatchResult) :=
  match req.params with
  | .sendMessage targetPid payload => do
    let ok ← deliverMessage targetPid payload
    pure (.ok ⟨if ok then .ok else .permissionDenied, []⟩)
  | _ => pure (.ok ⟨.badParams, []⟩)

/-- `ToolDispatcher::dispatch`. -/
def dispatch (req : ToolRequest) : Exec Kernel (AgentResult DispatchResult) :=
  match req.tool with
  | .systemStatus => do
    let procs ← collectProcesses
    let now ← onMachine Machine.getTime
    pure (systemStatus procs now)
  | .queryProcess => do
    let procs ← collectProcesses
    pure (queryProcess procs req)
  | .readContext => do
    let procs ← collectProcesses
    pure (readContext procs req)
  | .sendMessage => sendMessage req
  | .queryFile => do
    let k ← Exec.get
    pure (queryFile k.fileAttrStore req)

end Kernel

end AgentOS
