import AgentOS.Lib.LittleEndian
import AgentOS.Agent.EventBus
import AgentOS.Mm.UserMemory

/-!
# Process system calls

A system call gives the value it returns to the user, or `none` when the processor was given away: the
call goes on, or returns, when the task runs again.
-/

namespace AgentOS

namespace Kernel

open LittleEndian

variable [KernelLayout]

def sysExit (exitCode : ℤ) : Exec Kernel (Option ℤ) := do
  exitCurrent exitCode
  pure none

omit [KernelLayout] in
def sysYield : Exec Kernel (Option ℤ) := do
  suspendCurrent
  pure none

def sysFork : Exec Kernel (Option ℤ) := do
  let (t, _) ← currentTask
  let child ← fork t
  let k ← Exec.get
  let pid ← Exec.unwrap (k.pidOf child)
  Exec.modify fun k ↦ k.addTask child
  pure (some pid)

/-- The path names no file, or a file that the program parser refuses, or a program. -/
def sysExec (file : Option (Option Elf)) : Exec Kernel (Option ℤ) :=
  match file with
  | none => pure (some (-1))
  | some image => do
    let (t, _) ← currentTask
    let elf ← Exec.unwrap image
    exec t elf
    pure (some 0)

/-- `*translated_refmut(token, ptr) = value` for four bytes. The address must be a multiple of four,
so the bytes are in one page; the source does not look at it. -/
def storeI32 (pt : PageTable) (ptr : ℕ) (value : ℤ) : Exec Machine Unit := do
  Exec.assert (ptr % 4 = 0)
  let (ppn, off) ← Exec.unwrap (pt.translateVa (VirtAddr.ofUsize ptr))
  writeSlice .userPtr ⟨VirtAddr.floor (VirtAddr.ofUsize ptr), ppn, off, off + 4⟩
    (leBytes 4 (value % 2 ^ 32).toNat)

/-- Dropping the last reference to a control block. -/
def dropTask (t : ℕ) : Exec Kernel Unit := do
  let k ← Exec.get
  let tcb ← Exec.unwrap (k.tasks t)
  pidDealloc tcb.pid
  dropKernelStack tcb.pid
  onMachine tcb.memorySet.drop
  Exec.modify fun k ↦ { k with tasks := fun u ↦ if u = t then none else k.tasks u }

/-- Reap the first child that ended, of those the caller asks for. -/
def sysWaitpid (pid : ℤ) (exitCodePtr : ℕ) : Exec Kernel (Option ℤ) := do
  let (t, tcb) ← currentTask
  let k ← Exec.get
  let wanted := fun c ↦ decide (pid = -1) || (k.pidOf c).any fun p ↦ decide ((p : ℤ) = pid)
  if tcb.children.any wanted then
    match tcb.children.findIdx? fun c ↦
        (k.tasks c).any (fun child ↦ child.taskStatus = .zombie) && wanted c with
    | none => pure (some (-2))
    | some idx => do
      let child ← Exec.unwrap tcb.children[idx]?
      Exec.modify fun k ↦ k.setTask t fun tcb ↦ { tcb with children := tcb.children.eraseIdx idx }
      let k ← Exec.get
      Exec.assert (k.strongCount child = 0)
      let childTcb ← Exec.unwrap (k.tasks child)
      onMachine (storeI32 tcb.memorySet.pageTable exitCodePtr childTcb.exitCode)
      dropTask child
      pure (some childTcb.pid)
  else pure (some (-1))

end Kernel

end AgentOS
