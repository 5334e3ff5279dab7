import AgentOS.Agent.FileAttr
import AgentOS.Agent.PcbExt
import AgentOS.Mm.MemorySet

/-!
# Tasks and the state of the kernel

A task control block is shared by reference: the children list of its parent, the ready queue, the
list of blocked agents and the processor all hold references to it. Here a reference is a number, and
the blocks themselves are a partial function from references. A new block gets a reference that was
never used, so a reference to a block that is gone stays dangling.

Registers are not modelled, and a trap context is the page it lies in and nothing more. What matters
of a saved task context is where the task goes on when it is switched to.

Every global is a field of the kernel state. `history` is not one of them: it records what happened to
the mailboxes, for statements about whole runs.
-/

namespace AgentOS

/-! ## Process identifiers -/

/-- `recycled` is a stack, its top first. -/
structure PidAllocator where
  current : ℕ
  recycled : List ℕ
  deriving DecidableEq, Repr

namespace PidAllocator

def new : PidAllocator := ⟨0, []⟩

def alloc (pa : PidAllocator) : ℕ × PidAllocator :=
  match pa.recycled with
  | pid :: rest => (pid, { pa with recycled := rest })
  | [] => (pa.current, { pa with current := pa.current + 1 })

/-- `none` when an assertion fails. -/
def dealloc (pa : PidAllocator) (pid : ℕ) : Option PidAllocator :=
  if pid < pa.current ∧ pid ∉ pa.recycled then some { pa with recycled := pid :: pa.recycled }
  else none

end PidAllocator

/-- Bottom and top of a kernel stack in the kernel address space. -/
def kernelStackPosition (appId : ℕ) : ℕ × ℕ :=
  let top := trampoline - appId * (kernelStackSize + pageSize)
  (top - kernelStackSize, top)

/-! ## Control blocks -/

inductive TaskStatus where
  | ready
  | running
  | zombie
  | blocked
  deriving DecidableEq, Repr

/-- Where a task goes on when it is switched to. -/
inductive TaskContext where
  /-- Back to user mode, at the latest after returning from the call that suspended it. -/
  | trapReturn
  /-- Into the loop of `sys_agent_wait`, with the values of its local variables. -/
  | agentWait (startMs timeoutMs : ℤ) (absoluteDeadlineMs : Option ℕ)
  deriving DecidableEq, Repr

def defaultPriority : ℕ := 16

def maxPriority : ℕ := 255

structure TaskControlBlock where
  pid : ℕ
  trapCxPpn : ℕ
  taskCx : TaskContext
  taskStatus : TaskStatus
  memorySet : MemorySet
  parent : Option ℕ
  children : List ℕ
  exitCode : ℤ
  agentExt : Option AgentExt
  priority : ℕ

structure BlockedEntry where
  task : ℕ
  /-- `none` for a task that waits without limit. -/
  wakeDeadlineMs : Option ℕ
  deriving DecidableEq, Repr

/-! ## The kernel -/

/-- What happens to the mailbox of a task. -/
inductive MailEvent where
  /-- A message was accepted, and the oldest one dropped for it, if any. -/
  | accepted (task : ℕ) (payload : List UInt8) (dropped : Option (List UInt8))
  /-- A message was taken out, and the caller told that `n` bytes of it were written. -/
  | received (task : ℕ) (payload : List UInt8) (n : ℕ)
  deriving DecidableEq, Repr

structure Kernel where
  machine : Machine
  kernelSpace : MemorySet
  pidAllocator : PidAllocator
  tasks : ℕ → Option TaskControlBlock
  /-- The next unused reference. -/
  nextTask : ℕ
  readyQueue : List ℕ
  /-- The current task of the processor. -/
  current : Option ℕ
  blockedAgents : List BlockedEntry
  fileAttrStore : FileAttrStore
  history : List MailEvent

/-- The reference to the first process. -/
def initproc : ℕ := 0

namespace Kernel

/-- Change a control block. -/
def setTask (k : Kernel) (t : ℕ) (f : TaskControlBlock → TaskControlBlock) : Kernel :=
  { k with tasks := fun u ↦ if u = t then (k.tasks t).map f else k.tasks u }

/-- Change the agent extension of a task, if it has one. -/
def setExt (k : Kernel) (t : ℕ) (f : AgentExt → AgentExt) : Kernel :=
  k.setTask t fun tcb ↦ { tcb with agentExt := tcb.agentExt.map f }

def pidOf (k : Kernel) (t : ℕ) : Option ℕ := (k.tasks t).map TaskControlBlock.pid

def childrenOf (k : Kernel) (t : ℕ) : List ℕ :=
  ((k.tasks t).map TaskControlBlock.children).getD []

def extOf (k : Kernel) (t : ℕ) : Option AgentExt :=
  (k.tasks t).bind TaskControlBlock.agentExt

/-- How many references to a block there are, besides that of the caller. -/
def strongCount (k : Kernel) (t : ℕ) : ℕ :=
  (if t = initproc then 1 else 0) + (if k.current = some t then 1 else 0) + k.readyQueue.count t +
    (k.blockedAgents.map BlockedEntry.task).count t +
    ((List.range k.nextTask).map fun u ↦ (k.childrenOf u).count t).sum

/-- Run on the machine. -/
def onMachine {α : Type} (x : Exec Machine α) : Exec Kernel α :=
  Exec.zoom Kernel.machine (fun m k ↦ { k with machine := m }) x

/-- `current_task().unwrap()`, with the block it refers to. -/
def currentTask : Exec Kernel (ℕ × TaskControlBlock) := do
  let k ← Exec.get
  let t ← Exec.unwrap k.current
  let tcb ← Exec.unwrap (k.tasks t)
  pure (t, tcb)

def pidAlloc : Exec Kernel ℕ := do
  let k ← Exec.get
  let (pid, pa) := k.pidAllocator.alloc
  Exec.modify fun k ↦ { k with pidAllocator := pa }
  pure pid

/-- Dropping a `PidHandle`. -/
def pidDealloc (pid : ℕ) : Exec Kernel Unit := do
  let k ← Exec.get
  let pa ← Exec.unwrap (k.pidAllocator.dealloc pid)
  Exec.modify fun k ↦ { k with pidAllocator := pa }

/-- A new reference to a block. -/
def addBlock (tcb : TaskControlBlock) : Exec Kernel ℕ := do
  let k ← Exec.get
  Exec.modify fun k ↦
    { k with
      tasks := fun t ↦ if t = k.nextTask then some tcb else k.tasks t
      nextTask := k.nextTask + 1 }
  pure k.nextTask

/-- The page of the trap context of a new space. -/
def trapCxPpn (ms : MemorySet) : Option ℕ :=
  (ms.translate MemorySet.trapContextVpn).map PageTableEntry.ppn

/-- Dropping a `KernelStack`. -/
def dropKernelStack (pid : ℕ) : Exec Kernel Unit := do
  let k ← Exec.get
  let (bottom, _) := kernelStackPosition pid
  let ms ← onMachine <| k.kernelSpace.removeAreaWithStartVpn
    (VirtAddr.floor (VirtAddr.ofUsize bottom))
  Exec.modify fun k ↦ { k with kernelSpace := ms }

variable [KernelLayout]

/-- `KernelStack::new`. -/
def newKernelStack (pid : ℕ) : Exec Kernel Unit := do
  let k ← Exec.get
  let (bottom, top) := kernelStackPosition pid
  let ms ← onMachine <| k.kernelSpace.insertFramedArea (VirtAddr.ofUsize bottom)
    (VirtAddr.ofUsize top) (MapPermission.R ||| MapPermission.W)
  Exec.modify fun k ↦ { k with kernelSpace := ms }

/-- `TaskControlBlock::new`. -/
def newTask (elf : Elf) : Exec Kernel ℕ := do
  let (ms, _, _) ← onMachine (MemorySet.fromElf elf)
  let trapCx ← Exec.unwrap (trapCxPpn ms)
  let pid ← pidAlloc
  newKernelStack pid
  addBlock
    { pid := pid, trapCxPpn := trapCx, taskCx := .trapReturn, taskStatus := .ready, memorySet := ms
      parent := none, children := [], exitCode := 0, agentExt := none, priority := defaultPriority }

/-- `TaskControlBlock::exec`. The old address space is dropped when the new one takes its place. -/
def exec (t : ℕ) (elf : Elf) : Exec Kernel Unit := do
  let (ms, _, _) ← onMachine (MemorySet.fromElf elf)
  let trapCx ← Exec.unwrap (trapCxPpn ms)
  let k ← Exec.get
  let tcb ← Exec.unwrap (k.tasks t)
  onMachine tcb.memorySet.drop
  Exec.modify fun k ↦ k.setTask t fun tcb ↦ { tcb with memorySet := ms, trapCxPpn := trapCx }

/-- `TaskControlBlock::fork`. The child is no agent, whatever its parent is. -/
def fork (t : ℕ) : Exec Kernel ℕ := do
  let k ← Exec.get
  let parent ← Exec.unwrap (k.tasks t)
  let ms ← onMachine (MemorySet.fromExistedUser parent.memorySet)
  let trapCx ← Exec.unwrap (trapCxPpn ms)
  let pid ← pidAlloc
  newKernelStack pid
  let child ← addBlock
    { pid := pid, trapCxPpn := trapCx, taskCx := .trapReturn, taskStatus := .ready, memorySet := ms
      parent := some t, children := [], exitCode := 0, agentExt := none
      priority := parent.priority }
  Exec.modify fun k ↦ k.setTask t fun tcb ↦ { tcb with children := tcb.children ++ [child] }
  pure child

end Kernel

end AgentOS
