import AgentOS.Lib.SwapRemove
import AgentOS.Task.Task

/-!
# The processor, the ready queue and the blocked agents

Tasks are taken from the ready queue by priority, the first of the best. A task leaves the processor
when it is suspended, goes to sleep or exits, and then the processor is idle until `run_tasks` takes
the next one.

An agent that waits is not in the ready queue. Each way of waking it takes its entry out of the list
of blocked agents and puts the task back in the queue.
-/

namespace AgentOS

namespace Kernel

/-! ## The ready queue -/

def addTask (k : Kernel) (t : ℕ) : Kernel := { k with readyQueue := k.readyQueue ++ [t] }

def priorityOf (k : Kernel) (t : ℕ) : ℕ := ((k.tasks t).map TaskControlBlock.priority).getD 0

/-- The loop of `fetch`, over the rest of the queue from index `i` on. -/
def bestIdx (prio : ℕ → ℕ) : List ℕ → ℕ → ℕ → ℕ → ℕ
  | [], _, best, _ => best
  | t :: ts, i, best, bestPrio =>
    if bestPrio < prio t then bestIdx prio ts (i + 1) i (prio t)
    else bestIdx prio ts (i + 1) best bestPrio

/-- Take the first task of the highest priority out of the ready queue. -/
def fetchTask (k : Kernel) : Option (ℕ × Kernel) :=
  match k.readyQueue with
  | [] => none
  | t :: ts =>
    let idx := bestIdx k.priorityOf ts 1 0 (k.priorityOf t)
    k.readyQueue[idx]?.map fun t ↦ (t, { k with readyQueue := k.readyQueue.eraseIdx idx })

/-! ## Blocked agents -/

/-- Put a task that was taken out of the list of blocked agents back in the ready queue. -/
def wakeOne (k : Kernel) (t : ℕ) : Kernel :=
  (k.setTask t fun tcb ↦ { tcb with taskStatus := .ready }).addTask t

/-- Wake the blocked agent with a process identifier, if there is one. -/
def wakeAgentByPid (k : Kernel) (pid : ℕ) : Kernel :=
  match k.blockedAgents.findIdx? (fun e ↦ k.pidOf e.task = some pid) with
  | none => k
  | some idx =>
    match k.blockedAgents[idx]? with
    | none => k
    | some e =>
      { k with blockedAgents := SwapRemove.swapRemove k.blockedAgents idx }.wakeOne e.task

/-- Wake the blocked agents whose deadline has passed. -/
def tickWakeTimeouts (k : Kernel) (nowMs : ℕ) : Kernel :=
  let due := fun e : BlockedEntry ↦
    match e.wakeDeadlineMs with
    | some d => decide (d ≤ nowMs)
    | none => false
  let (blocked, toWake) := SwapRemove.sweep due k.blockedAgents.length 0 k.blockedAgents []
  (toWake.map BlockedEntry.task).foldl wakeOne { k with blockedAgents := blocked }

/-! ## The processor -/

/-- One turn of `run_tasks`: take a task and switch to where it goes on. Nothing happens before there
is a task to take. -/
def runNext : Exec Kernel TaskContext := do
  let k ← Exec.get
  let (t, k) ← Exec.unwrap k.fetchTask
  let tcb ← Exec.unwrap (k.tasks t)
  Exec.modify fun _ ↦
    { k.setTask t fun tcb ↦ { tcb with taskStatus := .running } with current := some t }
  pure tcb.taskCx

/-- `suspend_current_and_run_next`, up to the switch to the idle task. -/
def suspendCurrent : Exec Kernel Unit := do
  let k ← Exec.get
  let t ← Exec.unwrap k.current
  Exec.modify fun k ↦
    ({ k with current := none }.setTask t fun tcb ↦
      { tcb with taskStatus := .ready, taskCx := .trapReturn }).addTask t

/-- `block_current_agent`, up to the switch to the idle task. `cx` is where the task goes on. -/
def blockCurrentAgent (cx : TaskContext) (wakeDeadlineMs : Option ℕ) : Exec Kernel Unit := do
  let k ← Exec.get
  let t ← Exec.unwrap k.current
  Exec.modify fun k ↦
    let k := { k with current := none }.setTask t fun tcb ↦
      { tcb with taskStatus := .blocked, taskCx := cx }
    { k with blockedAgents := k.blockedAgents ++ [⟨t, wakeDeadlineMs⟩] }

/-- Make a task the parent of others, and them its children. -/
def adopt (k : Kernel) (parent : ℕ) (children : List ℕ) : Kernel :=
  children.foldl (fun k c ↦
    (k.setTask c fun tcb ↦ { tcb with parent := some parent }).setTask parent fun tcb ↦
      { tcb with children := tcb.children ++ [c] }) k

/-- `exit_current_and_run_next`, up to the switch to the idle task. The exit of the first process
shuts the machine down, and nothing comes after it. -/
def exitCurrent (exitCode : ℤ) : Exec Kernel Unit := do
  let (t, tcb) ← currentTask
  Exec.modify fun k ↦ { k with current := none }
  Exec.assert (tcb.pid ≠ 0)
  Exec.modify fun k ↦
    ((k.setTask t fun tcb ↦ { tcb with taskStatus := .zombie, exitCode := exitCode }).adopt initproc
      tcb.children).setTask t fun tcb ↦ { tcb with children := [] }
  let ms ← onMachine tcb.memorySet.recycleDataPages
  Exec.modify fun k ↦ k.setTask t fun tcb ↦ { tcb with memorySet := ms }

/-! ## All processes -/

/-- The loop of `snapshot_all_processes`: visit the queue front to back, children last. It takes a
turn for every task it visits, and does not end when a task is its own descendant. -/
def visit (children : ℕ → List ℕ) : ℕ → List ℕ → Option (List ℕ)
  | _, [] => some []
  | 0, _ :: _ => none
  | turns + 1, t :: queue => (visit children turns (queue ++ children t)).map (t :: ·)

/-- Every process, the first one first. -/
def snapshotAllProcesses (k : Kernel) : Option (List ℕ) :=
  visit k.childrenOf (k.nextTask + 1) [initproc]

end Kernel

end AgentOS
