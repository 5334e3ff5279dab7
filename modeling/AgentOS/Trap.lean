import AgentOS.Syscall.Agent
import AgentOS.Syscall.Process

/-!
# Traps and runs of the system

Control is in user mode, where the current task runs, or in `run_tasks`, where there is none. From
user mode a task enters the kernel by a system call, a fault or a timer interrupt; user mode by itself
changes nothing but the task's memory. From `run_tasks` the next task is switched to. Interrupts are off
while the kernel runs, so each of these happens without another in between.

A run starts where `add_initproc` left the kernel. What the kernel had done before that is summed up
in `Initial`.
-/

namespace AgentOS

inductive Syscall where
  | exit (exitCode : ℤ)
  | yield
  | fork
  | exec (file : Option (Option Elf))
  | waitpid (pid : ℤ) (exitCodePtr : ℕ)
  | agentCreate (cfgPtr : ℕ)
  | agentInfo (pid infoPtr infoLen : ℕ)
  | toolCall (reqPtr reqLen outOffsetPtr outLenPtr : ℕ)
  | toolList (bufPtr bufLen : ℕ)
  | contextPush (reqPtr reqLen respPtr respLen : ℕ)
  | contextQuery (start count outOffsetPtr outLenPtr : ℕ)
  | contextRollback (nodeCount : ℕ)
  | contextClear
  | agentHeartbeatSet (intervalMs : ℕ)
  | agentHeartbeatStop
  | agentWatch (eventMask : ℕ)
  | agentWait (timeoutMs : ℤ)
  | agentUnwatch (eventMask : ℕ)
  | mailboxRecv (bufPtr bufLen : ℕ)
  | agentSetLoopState (stateCode : ℕ)
  | fileAttrDel (namePtr nameLen tagPtr tagLen : ℕ)
  | fileAttrSet (namePtr nameLen tagPtr tagLen : ℕ)
  | agentSetPriority (priority : ℕ)
  deriving DecidableEq, Repr

inductive Event where
  /-- `run_tasks` switches to a task. -/
  | schedule
  /-- The current task makes a system call. -/
  | syscall (call : Syscall)
  /-- A timer interrupt. -/
  | timer
  /-- The current task causes a fault, and is killed. -/
  | fault (exitCode : ℤ)
  /-- The current task stores a byte. -/
  | store (addr : ℕ) (value : UInt8)
  deriving DecidableEq, Repr

/-- Where a store in user mode goes. `none` is a page fault. -/
def storePlace (pt : PageTable) (a : ℕ) : Option (ℕ × ℕ) :=
  if a < 2 ^ 38 ∨ (2 ^ 64 - 2 ^ 38 ≤ a ∧ a < 2 ^ 64) then
    match pt.lookup (pageOf a) with
    | some pte => if pte.writable ∧ pte.user then some (pte.ppn, a % pageSize) else none
    | none => none
  else none

namespace Kernel

section Steps

variable [KernelLayout]

/-- `syscall`. -/
def syscall : Syscall → Exec Kernel (Option ℤ)
  | .exit exitCode => sysExit exitCode
  | .yield => sysYield
  | .fork => sysFork
  | .exec file => sysExec file
  | .waitpid pid exitCodePtr => sysWaitpid pid exitCodePtr
  | .agentCreate cfgPtr => sysAgentCreate cfgPtr
  | .agentInfo pid infoPtr infoLen => sysAgentInfo pid infoPtr infoLen
  | .toolCall reqPtr reqLen outOffsetPtr outLenPtr =>
    sysToolCall reqPtr reqLen outOffsetPtr outLenPtr
  | .toolList bufPtr bufLen => sysToolList bufPtr bufLen
  | .contextPush reqPtr reqLen respPtr respLen => sysContextPush reqPtr reqLen respPtr respLen
  | .contextQuery start count outOffsetPtr outLenPtr =>
    sysContextQuery start count outOffsetPtr outLenPtr
  | .contextRollback nodeCount => sysContextRollback nodeCount
  | .contextClear => sysContextClear
  | .agentHeartbeatSet intervalMs => sysAgentHeartbeatSet intervalMs
  | .agentHeartbeatStop => sysAgentHeartbeatStop
  | .agentWatch eventMask => sysAgentWatch eventMask
  | .agentWait timeoutMs => sysAgentWait timeoutMs
  | .agentUnwatch eventMask => sysAgentUnwatch eventMask
  | .mailboxRecv bufPtr bufLen => sysMailboxRecv bufPtr bufLen
  | .agentSetLoopState stateCode => sysAgentSetLoopState stateCode
  | .fileAttrDel namePtr nameLen tagPtr tagLen => sysFileAttrDel namePtr nameLen tagPtr tagLen
  | .fileAttrSet namePtr nameLen tagPtr tagLen => sysFileAttrSet namePtr nameLen tagPtr tagLen
  | .agentSetPriority priority => sysAgentSetPriority priority

omit [KernelLayout] in
/-- What a task does first after it was switched to. -/
def resume : TaskContext → Exec Kernel (Option ℤ)
  | .trapReturn => pure none
  | .agentWait startMs timeoutMs absoluteDeadlineMs => waitTurn startMs timeoutMs absoluteDeadlineMs

omit [KernelLayout] in
/-- A timer interrupt in user mode. -/
def timerTick : Exec Kernel (Option ℤ) := do
  tickAllAgents
  let now ← onMachine Machine.getTimeMs
  Exec.modify fun k ↦ k.tickWakeTimeouts now
  suspendCurrent
  pure none

/-- A store in user mode. -/
def userStore (addr : ℕ) (value : UInt8) : Exec Kernel (Option ℤ) := do
  let (_, tcb) ← currentTask
  match storePlace tcb.memorySet.pageTable addr with
  | none => do
    exitCurrent (-2)
    pure none
  | some p => do
    Exec.modify fun k ↦ { k with machine := k.machine.written [p] [value] [] }
    pure none

/-- What one event does, and the value a system call returns to the user, if one returns. -/
def step : Event → Exec Kernel (Option ℤ)
  | .schedule => do
    let k ← Exec.get
    Exec.assert (k.current = none)
    let cx ← runNext
    resume cx
  | .syscall call => do
    let k ← Exec.get
    Exec.assert (k.current ≠ none)
    syscall call
  | .timer => do
    let k ← Exec.get
    Exec.assert (k.current ≠ none)
    timerTick
  | .fault exitCode => do
    exitCurrent exitCode
    pure none
  | .store addr value => userStore addr value

/-- `add_initproc`, which makes the first process. -/
def addInitproc (elf : Elf) : Exec Kernel Unit := do
  let t ← newTask elf
  Exec.modify fun k ↦ k.addTask t

end Steps

variable [KernelLayout]

/-- The kernel before its first process: nobody but the kernel address space holds a page, and the
allocator has pages behind the kernel image. -/
structure Initial (k : Kernel) : Prop where
  separate : ∀ f, k.kernelSpace.frames.count f + k.machine.free f ≤ 1
  inRam : ∀ f, 0 < k.kernelSpace.frames.count f + k.machine.free f → KernelLayout.InRam f
  pids : k.pidAllocator = .new
  tasks : ∀ t, k.tasks t = none
  nextTask : k.nextTask = 0
  readyQueue : k.readyQueue = []
  current : k.current = none
  blockedAgents : k.blockedAgents = []
  history : k.history = []

/-- The states of runs in which the first program and every event meet a condition. -/
inductive Reach (boots : Elf → Prop) (allowed : Kernel → Event → Prop) : Kernel → Prop
  | boot {k₀ k : Kernel} {elf : Elf} (h₀ : k₀.Initial) (hboot : boots elf)
      (h : (addInitproc elf).Returns k₀ () k) : Reach boots allowed k
  | step {k k' : Kernel} {event : Event} {r : Option ℤ} (hk : Reach boots allowed k)
      (hallowed : allowed k event) (h : (step event).Returns k r k') : Reach boots allowed k'

/-- The states of all runs. -/
abbrev Reachable : Kernel → Prop := Reach (fun _ ↦ True) fun _ _ ↦ True

end Kernel

end AgentOS
