import AgentOS.Syscall.Frames
import AgentOS.Task.Views
import AgentOS.Trap

/-!
# What one event does

Most events are sequences of small effects that leave processes, address spaces and the page allocator
as they are. They are the constructors of `Quiet`, indexed by the event where only one event has the
effect. What is left, the making, loading and ending of processes and of agents, is `Change`.

`step_effect` takes a step of the system apart into these. Invariants of runs are proved from the
effects, one case each.
-/

namespace AgentOS

namespace Kernel

/-! ## Small effects -/

/-- Can the event be a turn of the loop of `sys_agent_wait`? -/
def Waits : Event → Prop
  | .schedule => True
  | .syscall (.agentWait _) => True
  | _ => False

/-- An effect of an event that leaves processes and memory as they are. -/
inductive Quiet : Event → Kernel → Kernel → Prop
  /-- Copies, and readings of the clock. -/
  | machine {event : Event} {k : Kernel} {m : Machine} (h : k.machine.SameFrames m) :
      Quiet event k { k with machine := m }
  /-- The path and the loop state of the current agent. -/
  | path {event : Event} {k : Kernel} {t : ℕ} {f : AgentExt → AgentExt} (hcur : k.current = some t)
      (hf : ∀ ext, k.extOf t = some ext → (f ext).sansPath = ext.sansPath) :
      Quiet event k (k.setExt t f)
  | heartbeatSet {k : Kernel} {t intervalMs now : ℕ} (hcur : k.current = some t) :
      Quiet (.syscall (.agentHeartbeatSet intervalMs)) k (k.setExt t fun ext ↦
        { ext with
          heartbeatIntervalMs := intervalMs
          heartbeatLastMs := now
          heartbeatPending := false })
  | heartbeatStop {k : Kernel} {t : ℕ} (hcur : k.current = some t) :
      Quiet (.syscall .agentHeartbeatStop) k (k.setExt t fun ext ↦
        { ext with heartbeatIntervalMs := 0, heartbeatPending := false })
  | watch {k : Kernel} {t eventMask : ℕ} (hcur : k.current = some t) :
      Quiet (.syscall (.agentWatch eventMask)) k (k.setExt t fun ext ↦
        { ext with watchedEvents := ext.watchedEvents ||| eventMask % 2 ^ 32 })
  | unwatch {k : Kernel} {t eventMask : ℕ} (hcur : k.current = some t) :
      Quiet (.syscall (.agentUnwatch eventMask)) k (k.setExt t fun ext ↦
        { ext with watchedEvents := ext.watchedEvents &&& ((2 ^ 32 - 1) ^^^ (eventMask % 2 ^ 32)) })
  /-- A turn of the wait loop reports events. -/
  | consume {event : Event} {k : Kernel} {t : ℕ} {ext : AgentExt} (hwaits : Waits event)
      (hcur : k.current = some t) (hext : k.extOf t = some ext) :
      Quiet event k (k.setExt t fun _ ↦ ext.consume)
  | priority {event : Event} {k : Kernel} {t p : ℕ} :
      Quiet event k (k.setTask t fun tcb ↦ { tcb with priority := p })
  | store {event : Event} {k : Kernel} {op : FileAttrOp} :
      Quiet event k { k with fileAttrStore := k.fileAttrStore.apply op }
  | deliver {event : Event} {k : Kernel} {t pid : ℕ} {ext : AgentExt} {payload : List UInt8}
      (hpid : k.pidOf t = some pid) (hext : k.extOf t = some ext)
      (hroom : ¬(ext.mailboxCapacity ≤ ext.mailbox.length ∧ ext.mailbox = [])) :
      Quiet event k (k.deliver t pid ext payload)
  | receive {event : Event} {k : Kernel} {t n : ℕ} {ext : AgentExt} {msg : List UInt8}
      {rest : List (List UInt8)} (hcur : k.current = some t) (hext : k.extOf t = some ext)
      (hmsg : ext.mailbox = msg :: rest) :
      Quiet event k { k.setExt t fun ext ↦ { ext with mailbox := rest } with
        history := k.history ++ [MailEvent.received t msg n] }
  /-- Heartbeats that are due. -/
  | heartbeats {k : Kernel} {now : ℕ} {ts : List ℕ} :
      Quiet .timer k (k.notify (AgentExt.heartbeat now) ts)
  | fileEvents {event : Event} {k : Kernel} {ts : List ℕ} :
      Quiet event k (k.notify AgentExt.fileEvent ts)
  | timeouts {event : Event} {k : Kernel} {now : ℕ} : Quiet event k (k.tickWakeTimeouts now)
  | suspend {event : Event} {k : Kernel} {t : ℕ} (hcur : k.current = some t) :
      Quiet event k (({ k with current := none }.setTask t fun tcb ↦
        { tcb with taskStatus := .ready, taskCx := .trapReturn }).addTask t)
  /-- An agent goes to sleep that has no event to report. -/
  | block {event : Event} {k : Kernel} {t : ℕ} {cx : TaskContext} {wakeDeadlineMs : Option ℕ}
      {ext : AgentExt} (hwaits : Waits event) (hcur : k.current = some t)
      (hext : k.extOf t = some ext) (hnone : ext.triggered = 0) :
      Quiet event k { ({ k with current := none }.setTask t fun tcb ↦
        { tcb with taskStatus := .blocked, taskCx := cx }) with
          blockedAgents := k.blockedAgents ++ [⟨t, wakeDeadlineMs⟩] }
  | run {k k₁ : Kernel} {t : ℕ} (hidle : k.current = none) (hfetch : k.fetchTask = some (t, k₁))
      (hlive : k.tasks t ≠ none) :
      Quiet .schedule k { k₁.setTask t fun tcb ↦ { tcb with taskStatus := .running } with
        current := some t }

/-- Small effects, one after the other. -/
abbrev Quiets (event : Event) : Kernel → Kernel → Prop := Relation.ReflTransGen (Quiet event)

/-! ## Large effects -/

/-- A new block waits for the processor. -/
def spawn (k : Kernel) (tcb : TaskControlBlock) : Kernel :=
  { k with
    tasks := fun t ↦ if t = k.nextTask then some tcb else k.tasks t
    nextTask := k.nextTask + 1
    readyQueue := k.readyQueue ++ [k.nextTask] }

/-- The block of a new process. -/
def freshTask (pid trapCx : ℕ) (ms : MemorySet) (parent : Option ℕ) (priority : ℕ) :
    TaskControlBlock :=
  { pid := pid, trapCxPpn := trapCx, taskCx := .trapReturn, taskStatus := .ready, memorySet := ms
    parent := parent, children := [], exitCode := 0, agentExt := none, priority := priority }

/-- The extension of a new agent. -/
def freshExt : AgentExt := .new .normal contextAreaBase contextAreaDefaultSize 128 (16 * 1024)

/-- The parent without one of its children. -/
def disown (k : Kernel) (t idx : ℕ) : Kernel :=
  k.setTask t fun tcb ↦ { tcb with children := tcb.children.eraseIdx idx }

/-- The kernel after the current task became a zombie, and its children those of the first process. -/
def buried (k : Kernel) (t : ℕ) (exitCode : ℤ) (children : List ℕ) : Kernel :=
  (({ k with current := none }.setTask t fun tcb ↦
    { tcb with taskStatus := .zombie, exitCode := exitCode }).adopt initproc children).setTask t
      fun tcb ↦ { tcb with children := [] }

variable [KernelLayout]

/-- An effect of an event on the processes: it is the only effect of the event. -/
inductive Change : Event → Kernel → Kernel → Prop
  /-- The current process becomes an agent. -/
  | create {cfgPtr : ℕ} {k : Kernel} {t : ℕ} {tcb : TaskControlBlock} {ms : MemorySet}
      {m m' : Machine} {area : AgentContextArea} (hcur : k.current = some t)
      (htcb : k.tasks t = some tcb) (hext : tcb.agentExt = none)
      (halloc : (AgentContextArea.allocate tcb.memorySet contextAreaDefaultSize).Returns k.machine
        (area, ms) m) (hm : m.SameFrames m') :
      Change (.syscall (.agentCreate cfgPtr)) k { k.setTask t fun tcb ↦
        { tcb with memorySet := ms, agentExt := some freshExt } with machine := m' }
  /-- The current process gets a new address space. -/
  | load {k : Kernel} {t sp entry trapCx : ℕ} {tcb : TaskControlBlock} {elf : Elf} {ms : MemorySet}
      {m m' : Machine} (hcur : k.current = some t) (htcb : k.tasks t = some tcb)
      (hload : (MemorySet.fromElf elf).Returns k.machine (ms, sp, entry) m)
      (hdrop : tcb.memorySet.drop.Returns m () m') :
      Change (.syscall (.exec (some (some elf)))) k { k.setTask t fun tcb ↦
        { tcb with memorySet := ms, trapCxPpn := trapCx } with machine := m' }
  /-- A child of the current process begins. -/
  | fork {k : Kernel} {t pid trapCx : ℕ} {parent : TaskControlBlock} {ms ks : MemorySet}
      {m m' : Machine} {pa : PidAllocator} (hcur : k.current = some t)
      (htcb : k.tasks t = some parent)
      (hcopy : (MemorySet.fromExistedUser parent.memorySet).Returns k.machine ms m)
      (hpid : k.pidAllocator.alloc = (pid, pa))
      (hstack : (k.kernelSpace.insertFramedArea (VirtAddr.ofUsize (kernelStackPosition pid).1)
        (VirtAddr.ofUsize (kernelStackPosition pid).2)
        (MapPermission.R ||| MapPermission.W)).Returns m ks m') :
      Change (.syscall .fork) k
        (({ k with machine := m', pidAllocator := pa, kernelSpace := ks }.spawn
          (freshTask pid trapCx ms (some t) parent.priority)).setTask t fun tcb ↦
            { tcb with children := tcb.children ++ [k.nextTask] })
  /-- The current process ends. -/
  | exit {event : Event} {k : Kernel} {t : ℕ} {exitCode : ℤ} {tcb : TaskControlBlock}
      {ms : MemorySet} {m : Machine} (hcur : k.current = some t) (htcb : k.tasks t = some tcb)
      (hpid : tcb.pid ≠ 0) (hrecycle : tcb.memorySet.recycleDataPages.Returns k.machine ms m) :
      Change event k { (k.buried t exitCode tcb.children).setTask t fun tcb ↦
        { tcb with memorySet := ms } with machine := m }
  /-- A child that ended is forgotten. -/
  | reap {pid : ℤ} {exitCodePtr : ℕ} {k : Kernel} {t c idx : ℕ} {parent child : TaskControlBlock}
      {m m₁ m₂ : Machine} {pa : PidAllocator} {ks : MemorySet} (hcur : k.current = some t)
      (htcb : k.tasks t = some parent) (hc : parent.children[idx]? = some c)
      (hchild : (k.disown t idx).tasks c = some child) (hzombie : child.taskStatus = .zombie)
      (hm : k.machine.SameFrames m) (hpid : k.pidAllocator.dealloc child.pid = some pa)
      (hstack : (k.kernelSpace.removeAreaWithStartVpn (VirtAddr.floor (VirtAddr.ofUsize
        (kernelStackPosition child.pid).1))).Returns m ks m₁)
      (hdrop : child.memorySet.drop.Returns m₁ () m₂) :
      Change (.syscall (.waitpid pid exitCodePtr)) k
        { k.disown t idx with
          machine := m₂
          pidAllocator := pa
          kernelSpace := ks
          tasks := fun u ↦ if u = c then none else (k.disown t idx).tasks u }

/-- The first process, right after it was made. -/
inductive Booted (elf : Elf) (k : Kernel) : Kernel → Prop
  | mk {sp entry pid trapCx : ℕ} {ms ks : MemorySet} {m m' : Machine} {pa : PidAllocator}
      (hload : (MemorySet.fromElf elf).Returns k.machine (ms, sp, entry) m)
      (hpid : k.pidAllocator.alloc = (pid, pa))
      (hstack : (k.kernelSpace.insertFramedArea (VirtAddr.ofUsize (kernelStackPosition pid).1)
        (VirtAddr.ofUsize (kernelStackPosition pid).2)
        (MapPermission.R ||| MapPermission.W)).Returns m ks m') :
      Booted elf k ({ k with machine := m', pidAllocator := pa, kernelSpace := ks }.spawn
        (freshTask pid trapCx ms none defaultPriority))

/-! ## Calls and their effects -/

section Calls

omit [KernelLayout]

theorem returns_onMachine {α : Type} {x : Exec Machine α} {k k' : Kernel} {a : α} :
    (onMachine x).Returns k a k' ↔
      ∃ m, x.Returns k.machine a m ∧ k' = { k with machine := m } :=
  Exec.returns_zoom

theorem returns_currentTask {k k' : Kernel} {t : ℕ} {tcb : TaskControlBlock} :
    currentTask.Returns k (t, tcb) k' ↔
      k.current = some t ∧ k.tasks t = some tcb ∧ k' = k := by
  simp only [currentTask, Exec.returns_bind, Exec.returns_get, Exec.returns_unwrap,
    Exec.returns_pure, Prod.mk.injEq]
  constructor
  · rintro ⟨_, _, ⟨rfl, rfl⟩, u, _, ⟨hcur, rfl⟩, ucb, _, ⟨htcb, rfl⟩, ⟨rfl, rfl⟩, rfl⟩
    exact ⟨hcur, htcb, rfl⟩
  · rintro ⟨hcur, htcb, rfl⟩
    exact ⟨_, _, ⟨rfl, rfl⟩, t, _, ⟨hcur, rfl⟩, tcb, _, ⟨htcb, rfl⟩, ⟨rfl, rfl⟩, rfl⟩

/-- A call that only agents may make is refused, or its body runs. -/
theorem returns_withExt {f : ℕ → TaskControlBlock → AgentExt → Exec Kernel (Option ℤ)}
    {k k' : Kernel} {r : Option ℤ} (h : (withExt f).Returns k r k') :
    ∃ t tcb, k.current = some t ∧ k.tasks t = some tcb ∧
      ((tcb.agentExt = none ∧ r = some (-4) ∧ k' = k) ∨
        ∃ ext, tcb.agentExt = some ext ∧ (f t tcb ext).Returns k r k') := by
  obtain ⟨⟨t, tcb⟩, k₁, hcurrent, hrest⟩ := Exec.returns_bind.mp h
  obtain ⟨hcur, htcb, rfl⟩ := returns_currentTask.mp hcurrent
  dsimp only at hrest
  refine ⟨t, tcb, hcur, htcb, ?_⟩
  split at hrest
  · rename_i hnone
    obtain ⟨rfl, rfl⟩ := Exec.returns_pure.mp hrest
    exact Or.inl ⟨hnone, rfl, rfl⟩
  · rename_i ext hext
    exact Or.inr ⟨ext, hext, hrest⟩

variable {event : Event} {k k' : Kernel} {r : Option ℤ}

theorem quiets_onMachine {α : Type} {x : Exec Machine α} {a : α}
    (hx : Exec.Keeps Machine.SameFrames x) (h : (onMachine x).Returns k a k') :
    Quiets event k k' := by
  obtain ⟨m, hm, rfl⟩ := returns_onMachine.mp h
  exact .single (.machine (hx _ _ _ hm))

theorem quiets_pure {α : Type} {a b : α} (h : (pure a : Exec Kernel α).Returns k b k') :
    Quiets event k k' := by
  obtain ⟨-, rfl⟩ := Exec.returns_pure.mp h
  exact .refl

/-- The body of a call runs from the state in which the call was made. -/
theorem quiets_withExt {f : ℕ → TaskControlBlock → AgentExt → Exec Kernel (Option ℤ)}
    (h : (withExt f).Returns k r k')
    (hf : ∀ t tcb ext, k.current = some t → k.tasks t = some tcb → tcb.agentExt = some ext →
      (f t tcb ext).Returns k r k' → Quiets event k k') : Quiets event k k' := by
  obtain ⟨t, tcb, hcur, htcb, ⟨-, -, rfl⟩ | ⟨ext, hext, hbody⟩⟩ := returns_withExt h
  · exact .refl
  · exact hf t tcb ext hcur htcb hext hbody

theorem quiets_updateExt {f : AgentExt → AgentExt}
    (hf : ∀ t, k.current = some t → Quiet event k (k.setExt t f))
    (h : (updateExt f).Returns k r k') : Quiets event k k' := by
  refine quiets_withExt h fun t tcb ext hcur _ _ hbody ↦ ?_
  obtain ⟨_, k₁, hmodify, hpure⟩ := Exec.returns_bind.mp hbody
  obtain rfl := Exec.returns_modify.mp hmodify
  obtain ⟨-, rfl⟩ := Exec.returns_pure.mp hpure
  exact .single (hf t hcur)

/-! ## Waiting -/

theorem quiets_endWait {t value : ℕ} (hcur : k.current = some t)
    (h : (endWait t value).Returns k r k') : Quiets event k k' := by
  obtain ⟨_, k₁, hmodify, hpure⟩ := Exec.returns_bind.mp h
  obtain rfl := Exec.returns_modify.mp hmodify
  obtain ⟨-, rfl⟩ := Exec.returns_pure.mp hpure
  exact .single (.path hcur fun _ _ ↦ rfl)

/-- When there is nothing to report, nothing is consumed. -/
theorem consume_of_triggered {ext : AgentExt} (h : ext.triggered = 0) :
    ext.consume = ext := by
  simp [AgentExt.consume, h]

theorem extOf_setExt_self {t : ℕ} {ext : AgentExt} (f : AgentExt → AgentExt)
    (h : k.extOf t = some ext) : (k.setExt t f).extOf t = some (f ext) := by
  rw [extOf_setExt, if_pos rfl, h, Option.map_some]

theorem quiets_sleep {t : ℕ} {startMs timeoutMs : ℤ} {deadline : Option ℕ} {ext : AgentExt}
    (hwaits : Waits event) (hcur : k.current = some t) (hext : k.extOf t = some ext)
    (hnone : ext.triggered = 0) (h : (sleep startMs timeoutMs deadline).Returns k r k') :
    Quiets event k k' := by
  obtain ⟨_, k₁, hblock, hpure⟩ := Exec.returns_bind.mp h
  obtain ⟨-, rfl⟩ := Exec.returns_pure.mp hpure
  simp only [blockCurrentAgent, Exec.returns_bind, Exec.returns_get, Exec.returns_unwrap,
    Exec.returns_modify] at hblock
  obtain ⟨_, _, ⟨rfl, rfl⟩, u, _, ⟨hu, rfl⟩, rfl⟩ := hblock
  obtain rfl : t = u := Option.some.inj (hcur.symm.trans hu)
  exact .single (.block hwaits hcur hext hnone)

theorem quiets_waitTurn {startMs timeoutMs : ℤ} {deadline : Option ℕ} (hwaits : Waits event)
    (h : (waitTurn startMs timeoutMs deadline).Returns k r k') : Quiets event k k' := by
  refine quiets_withExt h fun t tcb ext hcur htcb hext hbody ↦ ?_
  obtain ⟨_, k₁, hmodify, hrest⟩ := Exec.returns_bind.mp hbody
  have hk₁ := Exec.returns_modify.mp hmodify
  have hextOf : k.extOf t = some ext := (extOf_of_tasks htcb).trans hext
  have hcur₁ : k₁.current = some t := hk₁ ▸ hcur
  have hconsume : Quiets event k k₁ := hk₁ ▸ .single (.consume hwaits hcur hextOf)
  refine hconsume.trans ?_
  split at hrest
  · exact quiets_endWait hcur₁ hrest
  · rename_i hnone
    have hnone := not_not.mp hnone
    have hext₁ : k₁.extOf t = some ext := by
      rw [hk₁, extOf_setExt_self _ hextOf, consume_of_triggered hnone]
    split at hrest
    · obtain ⟨now, k₂, hnow, hrest⟩ := Exec.returns_bind.mp hrest
      refine (quiets_onMachine Machine.getTimeMs_keeps hnow).trans ?_
      obtain ⟨m, -, hk₂⟩ := returns_onMachine.mp hnow
      have hcur₂ : k₂.current = some t := hk₂ ▸ hcur₁
      have hext₂ : k₂.extOf t = some ext := hk₂ ▸ hext₁
      split at hrest
      · exact quiets_endWait hcur₂ hrest
      · exact quiets_sleep hwaits hcur₂ hext₂ hnone hrest
    · exact quiets_sleep hwaits hcur₁ hext₁ hnone hrest

theorem quiets_sysAgentWait {timeoutMs : ℤ}
    (h : (sysAgentWait timeoutMs).Returns k r k') :
    Quiets (.syscall (.agentWait timeoutMs)) k k' := by
  obtain ⟨start, k₁, hstart, h₁⟩ := Exec.returns_bind.mp h
  obtain ⟨⟨t, tcb⟩, k₂, hcurrent, h₂⟩ := Exec.returns_bind.mp h₁
  obtain ⟨_, k₃, hmodify, h₃⟩ := Exec.returns_bind.mp h₂
  obtain ⟨deadline, k₄, hdeadline, h₄⟩ := Exec.returns_bind.mp h₃
  obtain ⟨hcur, -, rfl⟩ := returns_currentTask.mp hcurrent
  have hpath : Quiets (.syscall (.agentWait timeoutMs)) k₂ k₃ := by
    rw [Exec.returns_modify.mp hmodify]
    exact .single (.path hcur fun _ _ ↦ rfl)
  have hwaits : Waits (.syscall (.agentWait timeoutMs)) := trivial
  exact (quiets_onMachine Machine.getTimeMs_keeps hstart).trans <| hpath.trans <|
    (quiets_onMachine (waitDeadline_keeps _) hdeadline).trans (quiets_waitTurn hwaits h₄)

theorem quiets_sysAgentHeartbeatSet {intervalMs : ℕ}
    (h : (sysAgentHeartbeatSet intervalMs).Returns k r k') :
    Quiets (.syscall (.agentHeartbeatSet intervalMs)) k k' := by
  refine quiets_withExt h fun t tcb ext hcur _ _ hbody ↦ ?_
  obtain ⟨now, k₁, hnow, h₁⟩ := Exec.returns_bind.mp hbody
  obtain ⟨_, k₂, hmodify, hpure⟩ := Exec.returns_bind.mp h₁
  refine (quiets_onMachine Machine.getTimeMs_keeps hnow).trans ?_
  obtain ⟨m, -, rfl⟩ := returns_onMachine.mp hnow
  obtain rfl := Exec.returns_modify.mp hmodify
  obtain ⟨-, rfl⟩ := Exec.returns_pure.mp hpure
  exact .single (.heartbeatSet hcur)

theorem quiets_sysAgentSetPriority {priority : ℕ}
    (h : (sysAgentSetPriority priority).Returns k r k') : Quiets event k k' := by
  obtain ⟨⟨t, tcb⟩, k₁, hcurrent, h₁⟩ := Exec.returns_bind.mp h
  obtain ⟨_, k₂, hmodify, hpure⟩ := Exec.returns_bind.mp h₁
  obtain ⟨-, -, rfl⟩ := returns_currentTask.mp hcurrent
  obtain rfl := Exec.returns_modify.mp hmodify
  obtain ⟨-, rfl⟩ := Exec.returns_pure.mp hpure
  exact .single .priority

/-! ## Events and messages -/

theorem quiets_broadcastFileEvent {u : Unit} (h : broadcastFileEvent.Returns k u k') :
    Quiets event k k' := by
  simp only [broadcastFileEvent, Exec.returns_bind, Exec.returns_get, Exec.returns_unwrap,
    Exec.returns_modify] at h
  obtain ⟨_, _, ⟨rfl, rfl⟩, ts, _, ⟨-, rfl⟩, rfl⟩ := h
  exact .single .fileEvents

theorem quiets_tickAllAgents {u : Unit} (h : tickAllAgents.Returns k u k') :
    Quiets .timer k k' := by
  obtain ⟨now, k₁, hnow, h₁⟩ := Exec.returns_bind.mp h
  refine (quiets_onMachine Machine.getTimeMs_keeps hnow).trans ?_
  simp only [Exec.returns_bind, Exec.returns_get, Exec.returns_unwrap, Exec.returns_modify] at h₁
  obtain ⟨_, _, ⟨rfl, rfl⟩, ts, _, ⟨-, rfl⟩, rfl⟩ := h₁
  exact .single .heartbeats

/-- What a delivery does: nothing, or it finds an agent of the asked identifier among all processes
and gives it the message. -/
theorem deliverMessage_cases {targetPid : ℕ} {payload : List UInt8} {b : Bool}
    (h : (deliverMessage targetPid payload).Returns k b k') :
    ∃ tasks, k.snapshotAllProcesses = some tasks ∧
      ((b = false ∧ k' = k ∧ ∀ t, (tasks.find? fun t ↦ k.pidOf t = some targetPid) = some t →
        k.extOf t = none) ∨
      ∃ t ext, (tasks.find? fun t ↦ k.pidOf t = some targetPid) = some t ∧
        k.extOf t = some ext ∧
        ¬(ext.mailboxCapacity ≤ ext.mailbox.length ∧ ext.mailbox = []) ∧ b = true ∧
        k' = k.deliver t targetPid ext payload) := by
  obtain ⟨k₀, k₁, hget, h₁⟩ := Exec.returns_bind.mp h
  obtain ⟨tasks, k₂, hunwrap, h₂⟩ := Exec.returns_bind.mp h₁
  obtain ⟨rfl, rfl⟩ := Exec.returns_get.mp hget
  obtain ⟨hsnapshot, rfl⟩ := Exec.returns_unwrap.mp hunwrap
  refine ⟨tasks, hsnapshot, ?_⟩
  split at h₂
  · rename_i hnone
    obtain ⟨rfl, rfl⟩ := Exec.returns_pure.mp h₂
    exact Or.inl ⟨rfl, rfl, fun t ht ↦ absurd (hnone.symm.trans ht) (by simp)⟩
  · rename_i t hfind
    split at h₂
    · rename_i hext
      obtain ⟨rfl, rfl⟩ := Exec.returns_pure.mp h₂
      refine Or.inl ⟨rfl, rfl, fun u hu ↦ ?_⟩
      obtain rfl : t = u := Option.some.inj (hfind.symm.trans hu)
      exact hext
    · rename_i ext hext
      simp only [Exec.returns_bind, Exec.returns_assert, Exec.returns_modify,
        Exec.returns_pure] at h₂
      obtain ⟨_, _, ⟨hroom, rfl⟩, _, _, rfl, rfl, rfl⟩ := h₂
      exact Or.inr ⟨t, ext, hfind, hext, hroom, rfl, rfl⟩

theorem quiets_deliverMessage {targetPid : ℕ} {payload : List UInt8} {b : Bool}
    (h : (deliverMessage targetPid payload).Returns k b k') :
    Quiets event k k' ∧ k'.current = k.current := by
  obtain ⟨tasks, -, ⟨-, rfl, -⟩ | ⟨t, ext, hfind, hext, hroom, -, rfl⟩⟩ := deliverMessage_cases h
  · exact ⟨.refl, rfl⟩
  · exact ⟨.single (.deliver (by simpa using List.find?_some hfind) hext hroom),
      (wakes_wakeAgentByPid _ _).current⟩

theorem collectProcesses_state {procs : List ProcessInfo}
    (h : collectProcesses.Returns k procs k') : k' = k := by
  simp only [collectProcesses, Exec.returns_bind, Exec.returns_get, Exec.returns_unwrap,
    Exec.returns_pure] at h
  obtain ⟨_, _, ⟨rfl, rfl⟩, _, _, ⟨-, rfl⟩, -, rfl⟩ := h
  rfl

theorem quiets_dispatch (event : Event) {req : ToolRequest} {res : AgentResult DispatchResult}
    (h : (dispatch req).Returns k res k') : Quiets event k k' ∧ k'.current = k.current := by
  unfold dispatch at h
  split at h
  · obtain ⟨procs, k₁, hprocs, h₁⟩ := Exec.returns_bind.mp h
    obtain ⟨now, k₂, hnow, hpure⟩ := Exec.returns_bind.mp h₁
    obtain ⟨-, rfl⟩ := Exec.returns_pure.mp hpure
    obtain rfl := collectProcesses_state hprocs
    refine ⟨quiets_onMachine Machine.getTime_keeps hnow, ?_⟩
    obtain ⟨m, -, rfl⟩ := returns_onMachine.mp hnow
    rfl
  · obtain ⟨procs, k₁, hprocs, hpure⟩ := Exec.returns_bind.mp h
    obtain ⟨-, rfl⟩ := Exec.returns_pure.mp hpure
    obtain rfl := collectProcesses_state hprocs
    exact ⟨.refl, rfl⟩
  · obtain ⟨procs, k₁, hprocs, hpure⟩ := Exec.returns_bind.mp h
    obtain ⟨-, rfl⟩ := Exec.returns_pure.mp hpure
    obtain rfl := collectProcesses_state hprocs
    exact ⟨.refl, rfl⟩
  · unfold sendMessage at h
    split at h
    · obtain ⟨ok, k₁, hdeliver, hpure⟩ := Exec.returns_bind.mp h
      obtain ⟨-, rfl⟩ := Exec.returns_pure.mp hpure
      exact quiets_deliverMessage hdeliver
    · obtain ⟨-, rfl⟩ := Exec.returns_pure.mp h
      exact ⟨.refl, rfl⟩
  · simp only [Exec.returns_bind, Exec.returns_get, Exec.returns_pure] at h
    obtain ⟨_, _, ⟨rfl, rfl⟩, -, rfl⟩ := h
    exact ⟨.refl, rfl⟩

/-! ## Calls that copy -/

end Calls

section CopyingCalls

variable {event : Event} {k k' : Kernel} {r : Option ℤ}

theorem quiets_sysAgentInfo {pid infoPtr infoLen : ℕ}
    (h : (sysAgentInfo pid infoPtr infoLen).Returns k r k') : Quiets event k k' := by
  refine quiets_withExt h fun t tcb ext _ _ _ hbody ↦ ?_
  obtain ⟨chunks, k₁, hchunks, h₁⟩ := Exec.returns_bind.mp hbody
  obtain ⟨written, k₂, hwrite, hpure⟩ := Exec.returns_bind.mp h₁
  obtain ⟨-, rfl⟩ := Exec.returns_unwrap.mp hchunks
  exact (quiets_onMachine (writeChunks_keeps _ _ _) hwrite).trans (quiets_pure hpure)

theorem quiets_toolReply {t areaBase outOffsetPtr outLenPtr : ℕ} {pt : PageTable}
    {dr : DispatchResult} (hcur : k.current = some t)
    (h : (toolReply t pt areaBase dr outOffsetPtr outLenPtr).Returns k r k') :
    Quiets event k k' := by
  simp only [toolReply] at h
  split at h
  · exact quiets_pure h
  · obtain ⟨_, k₁, hbody, h₁⟩ := Exec.returns_bind.mp h
    obtain ⟨_, k₂, hoff, h₂⟩ := Exec.returns_bind.mp h₁
    obtain ⟨_, k₃, hlen, h₃⟩ := Exec.returns_bind.mp h₂
    obtain ⟨_, k₄, hmodify, hpure⟩ := Exec.returns_bind.mp h₃
    refine (quiets_onMachine
      (Exec.keeps_ite (writeUserBytes_keeps _ _ _ _) (Exec.keeps_pure _)) hbody).trans ?_
    refine (quiets_onMachine (writeOut_keeps _ _ _) hoff).trans ?_
    refine (quiets_onMachine (writeOut_keeps _ _ _) hlen).trans ?_
    obtain ⟨_, -, rfl⟩ := returns_onMachine.mp hbody
    obtain ⟨_, -, rfl⟩ := returns_onMachine.mp hoff
    obtain ⟨_, -, rfl⟩ := returns_onMachine.mp hlen
    obtain rfl := Exec.returns_modify.mp hmodify
    obtain ⟨-, rfl⟩ := Exec.returns_pure.mp hpure
    exact .single (.path hcur fun _ _ ↦ rfl)

theorem quiets_sysToolCall {reqPtr reqLen outOffsetPtr outLenPtr : ℕ}
    (h : (sysToolCall reqPtr reqLen outOffsetPtr outLenPtr).Returns k r k') :
    Quiets event k k' := by
  unfold sysToolCall at h
  split at h
  · exact quiets_pure h
  refine quiets_withExt h fun t tcb ext hcur _ _ hbody ↦ ?_
  obtain ⟨_, k₁, hmodify, h₁⟩ := Exec.returns_bind.mp hbody
  obtain ⟨reqBuf, k₂, hread, h₂⟩ := Exec.returns_bind.mp h₁
  have hk₁ := Exec.returns_modify.mp hmodify
  have hpath : Quiets event k k₁ := by
    rw [hk₁]
    exact .single (.path hcur fun _ _ ↦ rfl)
  have hcur₁ : k₁.current = some t := hk₁ ▸ hcur
  refine hpath.trans <| (quiets_onMachine (readUserBytes_keeps _ _ _ _) hread).trans ?_
  obtain ⟨_, -, rfl⟩ := returns_onMachine.mp hread
  split at h₂
  · exact quiets_pure h₂
  · obtain ⟨res, k₃, hdispatch, h₃⟩ := Exec.returns_bind.mp h₂
    obtain ⟨hquiets, hcur₃⟩ := quiets_dispatch event hdispatch
    refine hquiets.trans ?_
    split at h₃
    · exact quiets_pure h₃
    · exact quiets_toolReply (hcur₃.trans hcur₁) h₃

theorem quiets_sysToolList {bufPtr bufLen : ℕ}
    (h : (sysToolList bufPtr bufLen).Returns k r k') : Quiets event k k' := by
  unfold sysToolList at h
  split at h
  · exact quiets_pure h
  split at h
  · exact quiets_pure h
  obtain ⟨⟨t, tcb⟩, k₁, hcurrent, h₁⟩ := Exec.returns_bind.mp h
  obtain ⟨_, k₂, hwrite, hpure⟩ := Exec.returns_bind.mp h₁
  obtain ⟨-, -, rfl⟩ := returns_currentTask.mp hcurrent
  exact (quiets_onMachine (writeUserBytes_keeps _ _ _ _) hwrite).trans (quiets_pure hpure)

omit [KernelLayout] in
/-- An extension whose path changed is stored. -/
private theorem quiets_storeExt (event : Event) {t : ℕ} {ext ext' : AgentExt} (hcur : k.current = some t)
    (hext : k.extOf t = some ext) (hpath : ext'.sansPath = ext.sansPath) :
    Quiets event k (k.setExt t fun _ ↦ ext') := by
  refine .single (.path hcur fun e he ↦ ?_)
  obtain rfl : ext = e := Option.some.inj (hext.symm.trans he)
  exact hpath

theorem quiets_sysContextPush {reqPtr reqLen respPtr respLen : ℕ}
    (h : (sysContextPush reqPtr reqLen respPtr respLen).Returns k r k') : Quiets event k k' := by
  unfold sysContextPush at h
  split at h
  · exact quiets_pure h
  obtain ⟨⟨t, tcb⟩, k₁, hcurrent, h₁⟩ := Exec.returns_bind.mp h
  obtain ⟨reqBuf, k₂, hreq, h₂⟩ := Exec.returns_bind.mp h₁
  obtain ⟨respBuf, k₃, hresp, h₃⟩ := Exec.returns_bind.mp h₂
  obtain ⟨hcur, htcb, rfl⟩ := returns_currentTask.mp hcurrent
  refine (quiets_onMachine (readOptional_keeps _ _ _) hreq).trans <|
    (quiets_onMachine (readOptional_keeps _ _ _) hresp).trans ?_
  obtain ⟨_, -, rfl⟩ := returns_onMachine.mp hreq
  obtain ⟨_, -, rfl⟩ := returns_onMachine.mp hresp
  dsimp only at h₃
  split at h₃
  · exact quiets_pure h₃
  · rename_i ext hext
    obtain ⟨⟨res, ext'⟩, k₄, hpush, h₄⟩ := Exec.returns_bind.mp h₃
    obtain ⟨_, k₅, hmodify, h₅⟩ := Exec.returns_bind.mp h₄
    obtain ⟨m, hm, rfl⟩ := returns_onMachine.mp hpush
    obtain ⟨hpath, hframes⟩ := ContextPath.pushNode_frame hm
    refine Relation.ReflTransGen.head (.machine hframes) ?_
    obtain rfl := Exec.returns_modify.mp hmodify
    have hstore := quiets_storeExt event (k := { k₁ with machine := m }) hcur
      ((extOf_of_tasks htcb).trans hext) hpath
    rcases res with e | idx
    · obtain ⟨-, rfl⟩ := Exec.returns_pure.mp h₅
      exact hstore
    · obtain ⟨-, rfl⟩ := Exec.returns_pure.mp h₅
      exact hstore

theorem quiets_sysContextQuery {start count outOffsetPtr outLenPtr : ℕ}
    (h : (sysContextQuery start count outOffsetPtr outLenPtr).Returns k r k') :
    Quiets event k k' := by
  refine quiets_withExt h fun t tcb ext _ _ _ hbody ↦ ?_
  split at hbody
  · exact quiets_pure hbody
  split at hbody
  · exact quiets_pure hbody
  obtain ⟨_, k₁, hwrite, h₁⟩ := Exec.returns_bind.mp hbody
  obtain ⟨_, k₂, hoff, h₂⟩ := Exec.returns_bind.mp h₁
  obtain ⟨_, k₃, hlen, hpure⟩ := Exec.returns_bind.mp h₂
  exact (quiets_onMachine (writeUserBytes_keeps _ _ _ _) hwrite).trans <|
    (quiets_onMachine (writeOut_keeps _ _ _) hoff).trans <|
    (quiets_onMachine (writeOut_keeps _ _ _) hlen).trans (quiets_pure hpure)

theorem quiets_sysContextRollback {nodeCount : ℕ}
    (h : (sysContextRollback nodeCount).Returns k r k') : Quiets event k k' := by
  refine quiets_withExt h fun t tcb ext hcur htcb hext hbody ↦ ?_
  obtain ⟨⟨res, ext'⟩, k₁, hrollback, h₁⟩ := Exec.returns_bind.mp hbody
  obtain ⟨_, k₂, hmodify, h₂⟩ := Exec.returns_bind.mp h₁
  obtain ⟨m, hm, rfl⟩ := returns_onMachine.mp hrollback
  obtain ⟨hpath, hframes⟩ := ContextPath.rollback_frame hm
  refine Relation.ReflTransGen.head (.machine hframes) ?_
  obtain rfl := Exec.returns_modify.mp hmodify
  have hstore := quiets_storeExt event (k := { k with machine := m }) hcur
    ((extOf_of_tasks htcb).trans hext) hpath
  rcases res with e | ⟨⟩
  · obtain ⟨-, rfl⟩ := Exec.returns_pure.mp h₂
    exact hstore
  · obtain ⟨-, rfl⟩ := Exec.returns_pure.mp h₂
    exact hstore

theorem quiets_sysContextClear (h : sysContextClear.Returns k r k') : Quiets event k k' := by
  refine quiets_withExt h fun t tcb ext hcur htcb hext hbody ↦ ?_
  obtain ⟨ext', k₁, hclear, h₁⟩ := Exec.returns_bind.mp hbody
  obtain ⟨_, k₂, hmodify, h₂⟩ := Exec.returns_bind.mp h₁
  obtain ⟨m, hm, rfl⟩ := returns_onMachine.mp hclear
  obtain ⟨hpath, hframes⟩ := ContextPath.clear_frame hm
  refine Relation.ReflTransGen.head (.machine hframes) ?_
  obtain rfl := Exec.returns_modify.mp hmodify
  obtain ⟨-, rfl⟩ := Exec.returns_pure.mp h₂
  exact quiets_storeExt _ (k := { k with machine := m }) hcur
    ((extOf_of_tasks htcb).trans hext) hpath

omit [KernelLayout] in
theorem quiet_store (event : Event) (k : Kernel) (op : FileAttrOp) :
    Quiet event k { k with fileAttrStore := k.fileAttrStore.apply op } :=
  .store

omit [KernelLayout] in
theorem quiets_sysFileAttrSet {namePtr nameLen tagPtr tagLen : ℕ}
    (h : (sysFileAttrSet namePtr nameLen tagPtr tagLen).Returns k r k') : Quiets event k k' := by
  unfold sysFileAttrSet at h
  split at h
  · exact quiets_pure h
  obtain ⟨⟨t, tcb⟩, k₁, hcurrent, h₁⟩ := Exec.returns_bind.mp h
  obtain ⟨nameBuf, k₂, hname, h₂⟩ := Exec.returns_bind.mp h₁
  obtain ⟨tagBuf, k₃, htag, h₃⟩ := Exec.returns_bind.mp h₂
  obtain ⟨-, -, rfl⟩ := returns_currentTask.mp hcurrent
  refine (quiets_onMachine (readUserBytes_keeps _ _ _ _) hname).trans <|
    (quiets_onMachine (readOptional_keeps _ _ _) htag).trans ?_
  split at h₃
  · rename_i name tag _ _
    obtain ⟨_, k₄, hmodify, h₄⟩ := Exec.returns_bind.mp h₃
    obtain ⟨_, k₅, hbroadcast, hpure⟩ := Exec.returns_bind.mp h₄
    obtain rfl := Exec.returns_modify.mp hmodify
    exact Relation.ReflTransGen.head (quiet_store event k₃ (.addTag name tag))
      ((quiets_broadcastFileEvent hbroadcast).trans (quiets_pure hpure))
  · exact quiets_pure h₃

omit [KernelLayout] in
theorem quiets_finishDel {res : Bool × FileAttrStore} (op : FileAttrOp)
    (hop : res.2 = k.fileAttrStore.apply op) (h : (finishDel res).Returns k r k') :
    Quiets event k k' := by
  obtain ⟨_, k₁, hmodify, h₁⟩ := Exec.returns_bind.mp h
  obtain rfl := Exec.returns_modify.mp hmodify
  rw [hop] at h₁
  refine Relation.ReflTransGen.head (quiet_store event k op) ?_
  split at h₁
  · obtain ⟨_, k₂, hbroadcast, hpure⟩ := Exec.returns_bind.mp h₁
    exact (quiets_broadcastFileEvent hbroadcast).trans (quiets_pure hpure)
  · exact quiets_pure h₁

omit [KernelLayout] in
theorem quiets_sysFileAttrDel {namePtr nameLen tagPtr tagLen : ℕ}
    (h : (sysFileAttrDel namePtr nameLen tagPtr tagLen).Returns k r k') : Quiets event k k' := by
  unfold sysFileAttrDel at h
  split at h
  · exact quiets_pure h
  obtain ⟨⟨t, tcb⟩, k₁, hcurrent, h₁⟩ := Exec.returns_bind.mp h
  obtain ⟨nameBuf, k₂, hname, h₂⟩ := Exec.returns_bind.mp h₁
  obtain ⟨-, -, rfl⟩ := returns_currentTask.mp hcurrent
  refine (quiets_onMachine (readUserBytes_keeps _ _ _ _) hname).trans ?_
  split at h₂
  · exact quiets_pure h₂
  split at h₂
  · obtain ⟨k₃, k₄, hget, hdel⟩ := Exec.returns_bind.mp h₂
    obtain ⟨rfl, rfl⟩ := Exec.returns_get.mp hget
    exact quiets_finishDel (.removeFile _) rfl hdel
  · obtain ⟨tagBuf, k₃, htag, h₃⟩ := Exec.returns_bind.mp h₂
    refine (quiets_onMachine (readUserBytes_keeps _ _ _ _) htag).trans ?_
    split at h₃
    · exact quiets_pure h₃
    · obtain ⟨k₄, k₅, hget, hdel⟩ := Exec.returns_bind.mp h₃
      obtain ⟨rfl, rfl⟩ := Exec.returns_get.mp hget
      exact quiets_finishDel (.removeTag _ _) rfl hdel

theorem quiets_sysMailboxRecv {bufPtr bufLen : ℕ}
    (h : (sysMailboxRecv bufPtr bufLen).Returns k r k') : Quiets event k k' := by
  unfold sysMailboxRecv at h
  split at h
  · exact quiets_pure h
  refine quiets_withExt h fun t tcb ext hcur htcb hext hbody ↦ ?_
  split at hbody
  · exact quiets_pure hbody
  · rename_i msg rest hmsg
    obtain ⟨_, k₁, hmodify, h₁⟩ := Exec.returns_bind.mp hbody
    obtain ⟨_, k₂, hwrite, hpure⟩ := Exec.returns_bind.mp h₁
    have hreceive : Quiets event k k₁ := by
      rw [Exec.returns_modify.mp hmodify]
      exact .single (.receive hcur ((extOf_of_tasks htcb).trans hext) hmsg)
    exact hreceive.trans <| (quiets_onMachine (writeUserBytes_keeps _ _ _ _) hwrite).trans
      (quiets_pure hpure)

/-! ## Processes -/

omit [KernelLayout] in
theorem quiets_suspendCurrent {u : Unit} (h : suspendCurrent.Returns k u k') :
    Quiets event k k' := by
  simp only [suspendCurrent, Exec.returns_bind, Exec.returns_get, Exec.returns_unwrap,
    Exec.returns_modify] at h
  obtain ⟨_, _, ⟨rfl, rfl⟩, t, _, ⟨hcur, rfl⟩, rfl⟩ := h
  exact .single (.suspend hcur)

theorem change_exitCurrent {exitCode : ℤ} {u : Unit} (h : (exitCurrent exitCode).Returns k u k') :
    Change event k k' := by
  obtain ⟨⟨t, tcb⟩, k₁, hcurrent, h₁⟩ := Exec.returns_bind.mp h
  obtain ⟨_, k₂, htake, h₂⟩ := Exec.returns_bind.mp h₁
  obtain ⟨_, k₃, hassert, h₃⟩ := Exec.returns_bind.mp h₂
  obtain ⟨_, k₄, hbury, h₄⟩ := Exec.returns_bind.mp h₃
  obtain ⟨ms, k₅, hrecycle, hmodify⟩ := Exec.returns_bind.mp h₄
  obtain ⟨hcur, htcb, rfl⟩ := returns_currentTask.mp hcurrent
  obtain rfl := Exec.returns_modify.mp htake
  obtain ⟨hpid, rfl⟩ := Exec.returns_assert.mp hassert
  obtain rfl := Exec.returns_modify.mp hbury
  obtain ⟨m, hm, rfl⟩ := returns_onMachine.mp hrecycle
  obtain rfl := Exec.returns_modify.mp hmodify
  have hmachine : ∀ (cs : List ℕ) (k : Kernel), (k.adopt initproc cs).machine = k.machine := by
    intro cs
    induction cs with
    | nil => exact fun _ ↦ rfl
    | cons c cs ih => exact fun k ↦ ih _
  have hm' : tcb.memorySet.recycleDataPages.Returns k₁.machine ms m := by
    have heq : (k₁.buried t exitCode tcb.children).machine = k₁.machine := hmachine _ _
    rw [← heq]
    exact hm
  exact .exit hcur htcb hpid hm'

theorem returns_newKernelStack {pid : ℕ} {u : Unit} :
    (newKernelStack pid).Returns k u k' ↔ ∃ ks m,
      (k.kernelSpace.insertFramedArea (VirtAddr.ofUsize (kernelStackPosition pid).1)
        (VirtAddr.ofUsize (kernelStackPosition pid).2)
        (MapPermission.R ||| MapPermission.W)).Returns k.machine ks m ∧
      k' = { k with machine := m, kernelSpace := ks } := by
  unfold newKernelStack
  rcases kernelStackPosition pid with ⟨bottom, top⟩
  simp only [Exec.returns_bind, Exec.returns_get, Exec.returns_modify, returns_onMachine]
  constructor
  · rintro ⟨_, _, ⟨rfl, rfl⟩, ks, _, ⟨m, hm, rfl⟩, rfl⟩
    exact ⟨ks, m, hm, rfl⟩
  · rintro ⟨ks, m, hm, rfl⟩
    exact ⟨_, _, ⟨rfl, rfl⟩, ks, _, ⟨m, hm, rfl⟩, rfl⟩

omit [KernelLayout] in
theorem returns_dropKernelStack {pid : ℕ} {u : Unit} :
    (dropKernelStack pid).Returns k u k' ↔ ∃ ks m,
      (k.kernelSpace.removeAreaWithStartVpn (VirtAddr.floor (VirtAddr.ofUsize
        (kernelStackPosition pid).1))).Returns k.machine ks m ∧
      k' = { k with machine := m, kernelSpace := ks } := by
  unfold dropKernelStack
  rcases kernelStackPosition pid with ⟨bottom, top⟩
  simp only [Exec.returns_bind, Exec.returns_get, Exec.returns_modify, returns_onMachine]
  constructor
  · rintro ⟨_, _, ⟨rfl, rfl⟩, ks, _, ⟨m, hm, rfl⟩, rfl⟩
    exact ⟨ks, m, hm, rfl⟩
  · rintro ⟨ks, m, hm, rfl⟩
    exact ⟨_, _, ⟨rfl, rfl⟩, ks, _, ⟨m, hm, rfl⟩, rfl⟩

omit [KernelLayout] in
theorem returns_pidAlloc {pid : ℕ} : pidAlloc.Returns k pid k' ↔
    ∃ pa, k.pidAllocator.alloc = (pid, pa) ∧ k' = { k with pidAllocator := pa } := by
  simp only [pidAlloc, Exec.returns_bind, Exec.returns_get, Exec.returns_modify, Exec.returns_pure]
  constructor
  · rintro ⟨_, _, ⟨rfl, rfl⟩, _, _, rfl, rfl, rfl⟩
    exact ⟨_, rfl, rfl⟩
  · rintro ⟨pa, hpa, rfl⟩
    exact ⟨_, _, ⟨rfl, rfl⟩, (), _, rfl, by rw [hpa], by rw [hpa]⟩

omit [KernelLayout] in
theorem returns_addBlock {tcb : TaskControlBlock} {t : ℕ} : (addBlock tcb).Returns k t k' ↔
    t = k.nextTask ∧ k' = { k with
      tasks := fun t ↦ if t = k.nextTask then some tcb else k.tasks t
      nextTask := k.nextTask + 1 } := by
  simp only [addBlock, Exec.returns_bind, Exec.returns_get, Exec.returns_modify, Exec.returns_pure]
  constructor
  · rintro ⟨_, _, ⟨rfl, rfl⟩, _, _, rfl, rfl, rfl⟩
    exact ⟨rfl, rfl⟩
  · rintro ⟨rfl, rfl⟩
    exact ⟨_, _, ⟨rfl, rfl⟩, (), _, rfl, rfl, rfl⟩

theorem change_fork (h : sysFork.Returns k r k') : Change (.syscall .fork) k k' := by
  obtain ⟨⟨t, tcb⟩, k₁, hcurrent, h₁⟩ := Exec.returns_bind.mp h
  obtain ⟨hcur, htcb, rfl⟩ := returns_currentTask.mp hcurrent
  obtain ⟨child, k₂, hfork, h₂⟩ := Exec.returns_bind.mp h₁
  obtain ⟨_, _, hget, hf₁⟩ := Exec.returns_bind.mp hfork
  obtain ⟨parent, _, hparent, hf₂⟩ := Exec.returns_bind.mp hf₁
  obtain ⟨ms, k₃, hcopy, hf₃⟩ := Exec.returns_bind.mp hf₂
  obtain ⟨trapCx, _, htrap, hf₄⟩ := Exec.returns_bind.mp hf₃
  obtain ⟨pid, k₄, hpid, hf₅⟩ := Exec.returns_bind.mp hf₄
  obtain ⟨_, k₅, hstack, hf₆⟩ := Exec.returns_bind.mp hf₅
  obtain ⟨c, k₆, hadd, hf₇⟩ := Exec.returns_bind.mp hf₆
  obtain ⟨_, k₇, hmodify, hpure⟩ := Exec.returns_bind.mp hf₇
  obtain ⟨rfl, rfl⟩ := Exec.returns_get.mp hget
  obtain ⟨hparent, rfl⟩ := Exec.returns_unwrap.mp hparent
  obtain ⟨m, hm, rfl⟩ := returns_onMachine.mp hcopy
  obtain ⟨-, rfl⟩ := Exec.returns_unwrap.mp htrap
  obtain ⟨pa, hpa, rfl⟩ := returns_pidAlloc.mp hpid
  obtain ⟨ks, m', hm', rfl⟩ := returns_newKernelStack.mp hstack
  obtain ⟨rfl, rfl⟩ := returns_addBlock.mp hadd
  obtain rfl := Exec.returns_modify.mp hmodify
  obtain ⟨rfl, rfl⟩ := Exec.returns_pure.mp hpure
  simp only [Exec.returns_bind, Exec.returns_get, Exec.returns_unwrap, Exec.returns_modify,
    Exec.returns_pure] at h₂
  obtain ⟨_, _, ⟨rfl, rfl⟩, p, _, ⟨-, rfl⟩, _, _, rfl, -, rfl⟩ := h₂
  obtain rfl : tcb = parent := Option.some.inj (htcb.symm.trans hparent)
  exact .fork hcur htcb hm hpa hm'

theorem change_exec {elf : Elf} (h : (sysExec (some (some elf))).Returns k r k') :
    Change (.syscall (.exec (some (some elf)))) k k' := by
  obtain ⟨⟨t, tcb⟩, k₁, hcurrent, h₁⟩ := Exec.returns_bind.mp h
  obtain ⟨hcur, htcb, rfl⟩ := returns_currentTask.mp hcurrent
  simp only [exec, Exec.returns_bind, Exec.returns_get, Exec.returns_unwrap, Exec.returns_modify,
    Exec.returns_pure, returns_onMachine] at h₁
  obtain ⟨elf', _, ⟨helf, rfl⟩, _, _, ⟨⟨ms, sp, entry⟩, _, ⟨m, hm, rfl⟩, trapCx, _, ⟨-, rfl⟩,
    _, _, ⟨rfl, rfl⟩, tcb', _, ⟨htcb', rfl⟩, _, _, ⟨m', hm', rfl⟩, rfl⟩, -, rfl⟩ := h₁
  obtain rfl : elf = elf' := Option.some.inj helf
  obtain rfl : tcb = tcb' := Option.some.inj (htcb.symm.trans htcb')
  exact .load hcur htcb hm hm'

theorem change_agentCreate {cfgPtr : ℕ} (h : (sysAgentCreate cfgPtr).Returns k r k') :
    Quiets (.syscall (.agentCreate cfgPtr)) k k' ∨ Change (.syscall (.agentCreate cfgPtr)) k k' := by
  obtain ⟨⟨t, tcb⟩, k₁, hcurrent, h₁⟩ := Exec.returns_bind.mp h
  obtain ⟨hcur, htcb, rfl⟩ := returns_currentTask.mp hcurrent
  dsimp only at h₁
  split at h₁
  · exact Or.inl (quiets_pure h₁)
  rename_i hext
  simp only [AgentContextArea.allocate_eq, Exec.returns_bind, Exec.returns_modify,
    Exec.returns_pure, returns_onMachine] at h₁
  obtain ⟨⟨area, ms⟩, _, ⟨m, ⟨ms₁, m₁, hinsert, heq, rfl⟩, rfl⟩, _, _, rfl, _, _,
    ⟨m', hm', rfl⟩, _, _, rfl, -, rfl⟩ := h₁
  obtain ⟨rfl, rfl⟩ := Prod.mk.inj heq
  have halloc : (AgentContextArea.allocate tcb.memorySet contextAreaDefaultSize).Returns
      k₁.machine (⟨contextAreaBase, contextAreaDefaultSize⟩, ms) m := by
    rw [AgentContextArea.allocate_eq]
    exact hinsert.bind (Exec.returns_pure.mpr ⟨rfl, rfl⟩)
  have hchange : Change (.syscall (.agentCreate cfgPtr)) k₁ _ := .create hcur htcb
    (Option.not_isSome_iff_eq_none.mp hext) halloc (writeUserBytes_keeps _ _ _ _ _ _ _ hm')
  have htasks := congrArg Kernel.tasks (setTask_setTask k₁ t
    (fun tcb ↦ { tcb with memorySet := ms }) fun tcb ↦ { tcb with agentExt := some freshExt })
  refine Or.inr ?_
  show Change _ k₁ { k₁ with
    machine := m'
    tasks := ((k₁.setTask t fun tcb ↦ { tcb with memorySet := ms }).setTask t fun tcb ↦
      { tcb with agentExt := some freshExt }).tasks }
  rw [htasks]
  exact hchange

theorem change_waitpid {pid : ℤ} {exitCodePtr : ℕ}
    (h : (sysWaitpid pid exitCodePtr).Returns k r k') :
    Quiets (.syscall (.waitpid pid exitCodePtr)) k k' ∨
      Change (.syscall (.waitpid pid exitCodePtr)) k k' := by
  obtain ⟨⟨t, tcb⟩, k₁, hcurrent, h₁⟩ := Exec.returns_bind.mp h
  obtain ⟨hcur, htcb, rfl⟩ := returns_currentTask.mp hcurrent
  obtain ⟨k₂, k₃, hget, h₂⟩ := Exec.returns_bind.mp h₁
  obtain ⟨rfl, rfl⟩ := Exec.returns_get.mp hget
  dsimp only at h₂
  split at h₂
  swap
  · exact Or.inl (quiets_pure h₂)
  split at h₂
  · exact Or.inl (quiets_pure h₂)
  rename_i idx hidx
  simp only [dropTask, pidDealloc, Exec.returns_bind, Exec.returns_get, Exec.returns_unwrap,
    Exec.returns_assert, Exec.returns_modify, Exec.returns_pure, returns_onMachine,
    returns_dropKernelStack] at h₂
  obtain ⟨c, k₃, ⟨hc, rfl⟩, _, _, rfl, _, _, ⟨rfl, rfl⟩, _, _, ⟨-, rfl⟩, child, _, ⟨hchild, rfl⟩,
    _, _, ⟨m, hm, rfl⟩, _, _, ⟨_, _, ⟨rfl, rfl⟩, child', _, ⟨hchild', rfl⟩, _, _,
    ⟨_, _, ⟨rfl, rfl⟩, pa, _, ⟨hpid, rfl⟩, rfl⟩, _, _, ⟨ks, m₁, hks, rfl⟩, _, _,
    ⟨m₂, hdrop, rfl⟩, rfl⟩, -, rfl⟩ := h₂
  obtain rfl : child = child' := Option.some.inj (hchild.symm.trans hchild')
  -- the index is that of a zombie, and taking it out of the list does not change it
  have hzombie : child.taskStatus = .zombie := by
    obtain ⟨hlt, hp, -⟩ := List.findIdx?_eq_some_iff_getElem.mp hidx
    obtain rfl : tcb.children[idx] = c := Option.some.inj
      ((List.getElem?_eq_getElem hlt).symm.trans hc)
    have hany := (Bool.and_eq_true _ _ ▸ hp).1
    obtain ⟨old, hold, hz⟩ := (Option.any_eq_true _ _).mp hany
    have hstatus := map_tasks_setTask (v := TaskControlBlock.taskStatus) k₃ t
      (fun tcb ↦ { tcb with children := tcb.children.eraseIdx idx }) (fun _ _ ↦ rfl)
      tcb.children[idx]
    rw [hchild, hold] at hstatus
    have hz : old.taskStatus = .zombie := by simpa using hz
    rw [← hz]
    exact Option.some.inj hstatus
  exact Or.inr (.reap hcur htcb hc hchild hzombie (storeI32_keeps _ _ _ _ _ _ hm) hpid hks hdrop)

/-! ## Every event -/

omit [KernelLayout] in
/-- Switching to a task, and where it goes on. -/
theorem returns_runNext {cx : TaskContext} (h : runNext.Returns k cx k') :
    ∃ t k₁ tcb, k.fetchTask = some (t, k₁) ∧ k.tasks t = some tcb ∧ cx = tcb.taskCx ∧
      k' = { k₁.setTask t fun tcb ↦ { tcb with taskStatus := .running } with current := some t } := by
  obtain ⟨k₀, k₁, hget, h₁⟩ := Exec.returns_bind.mp h
  obtain ⟨⟨t, k₂⟩, k₃, hfetch, h₂⟩ := Exec.returns_bind.mp h₁
  obtain ⟨tcb, k₄, htcb, h₃⟩ := Exec.returns_bind.mp h₂
  obtain ⟨_, k₅, hmodify, hpure⟩ := Exec.returns_bind.mp h₃
  obtain ⟨hcx, hk₅⟩ := Exec.returns_pure.mp hpure
  have hk₀ := (Exec.returns_get.mp hget).1
  have hfetch := (Exec.returns_unwrap.mp hfetch).1
  have htcb := (Exec.returns_unwrap.mp htcb).1
  have hk' := Exec.returns_modify.mp hmodify
  rw [hk₀] at hfetch
  obtain ⟨rest, -, hk₂⟩ := fetchTask_eq_some hfetch
  exact ⟨t, k₂, tcb, hfetch, by rw [← htcb, hk₂], hcx, hk₅.trans hk'⟩

omit [KernelLayout] in
private theorem quiets_runNext {cx : TaskContext} (hidle : k.current = none)
    (h : runNext.Returns k cx k') : Quiets .schedule k k' := by
  obtain ⟨t, k₁, tcb, hfetch, htcb, -, rfl⟩ := returns_runNext h
  exact .single (.run hidle hfetch (by simp [htcb]))

theorem syscall_effect {call : Syscall} (h : (syscall call).Returns k r k') :
    Quiets (.syscall call) k k' ∨ Change (.syscall call) k k' := by
  cases call with
  | exit exitCode =>
    obtain ⟨_, k₁, hexit, hpure⟩ := Exec.returns_bind.mp h
    obtain ⟨-, rfl⟩ := Exec.returns_pure.mp hpure
    exact Or.inr (change_exitCurrent hexit)
  | yield =>
    obtain ⟨_, k₁, hsuspend, hpure⟩ := Exec.returns_bind.mp h
    exact Or.inl ((quiets_suspendCurrent hsuspend).trans (quiets_pure hpure))
  | fork => exact Or.inr (change_fork h)
  | exec file =>
    rcases file with _ | image
    · exact Or.inl (quiets_pure h)
    rcases image with _ | elf
    · -- a file that is no program stops the kernel
      obtain ⟨_, _, -, h₁⟩ := Exec.returns_bind.mp h
      obtain ⟨_, _, hnone, -⟩ := Exec.returns_bind.mp h₁
      exact absurd (Exec.returns_unwrap.mp hnone).1 (by simp)
    · exact Or.inr (change_exec h)
  | waitpid pid exitCodePtr => exact change_waitpid h
  | agentCreate cfgPtr => exact change_agentCreate h
  | agentInfo pid infoPtr infoLen =>
    change (sysAgentInfo pid infoPtr infoLen).Returns k r k' at h
    exact Or.inl (quiets_sysAgentInfo h)
  | toolCall reqPtr reqLen outOffsetPtr outLenPtr => exact Or.inl (quiets_sysToolCall h)
  | toolList bufPtr bufLen => exact Or.inl (quiets_sysToolList h)
  | contextPush reqPtr reqLen respPtr respLen => exact Or.inl (quiets_sysContextPush h)
  | contextQuery start count outOffsetPtr outLenPtr =>
    change (sysContextQuery start count outOffsetPtr outLenPtr).Returns k r k' at h
    exact Or.inl (quiets_sysContextQuery h)
  | contextRollback nodeCount => exact Or.inl (quiets_sysContextRollback h)
  | contextClear => exact Or.inl (quiets_sysContextClear h)
  | agentHeartbeatSet intervalMs => exact Or.inl (quiets_sysAgentHeartbeatSet h)
  | agentHeartbeatStop => exact Or.inl (quiets_updateExt (fun _ hcur ↦ .heartbeatStop hcur) h)
  | agentWatch eventMask => exact Or.inl (quiets_updateExt (fun _ hcur ↦ .watch hcur) h)
  | agentWait timeoutMs => exact Or.inl (quiets_sysAgentWait h)
  | agentUnwatch eventMask => exact Or.inl (quiets_updateExt (fun _ hcur ↦ .unwatch hcur) h)
  | mailboxRecv bufPtr bufLen => exact Or.inl (quiets_sysMailboxRecv h)
  | agentSetLoopState stateCode =>
    change (sysAgentSetLoopState stateCode).Returns k r k' at h
    unfold sysAgentSetLoopState at h
    split at h
    · exact Or.inl (quiets_pure h)
    · rename_i newState _
      exact Or.inl (quiets_updateExt (fun _ hcur ↦
        .path (f := fun ext ↦ { ext with loopState := newState }) hcur fun _ _ ↦ rfl) h)
  | fileAttrDel namePtr nameLen tagPtr tagLen => exact Or.inl (quiets_sysFileAttrDel h)
  | fileAttrSet namePtr nameLen tagPtr tagLen => exact Or.inl (quiets_sysFileAttrSet h)
  | agentSetPriority priority => exact Or.inl (quiets_sysAgentSetPriority h)

/-- **What a step does:** small effects one after the other, or one large effect. -/
theorem step_effect (h : (step event).Returns k r k') : Quiets event k k' ∨ Change event k k' := by
  cases event with
  | schedule =>
    obtain ⟨_, _, hget, h₁⟩ := Exec.returns_bind.mp h
    obtain ⟨_, _, hassert, h₂⟩ := Exec.returns_bind.mp h₁
    obtain ⟨cx, k₁, hrun, hresume⟩ := Exec.returns_bind.mp h₂
    obtain ⟨rfl, rfl⟩ := Exec.returns_get.mp hget
    obtain ⟨hidle, rfl⟩ := Exec.returns_assert.mp hassert
    refine Or.inl ((quiets_runNext hidle hrun).trans ?_)
    cases cx with
    | trapReturn => exact quiets_pure hresume
    | agentWait startMs timeoutMs deadline =>
      exact quiets_waitTurn (show Waits .schedule from trivial) hresume
  | syscall call =>
    obtain ⟨_, _, hget, h₁⟩ := Exec.returns_bind.mp h
    obtain ⟨_, _, hassert, hcall⟩ := Exec.returns_bind.mp h₁
    obtain ⟨rfl, rfl⟩ := Exec.returns_get.mp hget
    obtain ⟨-, rfl⟩ := Exec.returns_assert.mp hassert
    exact syscall_effect hcall
  | timer =>
    obtain ⟨_, _, hget, h₁⟩ := Exec.returns_bind.mp h
    obtain ⟨_, _, hassert, h₂⟩ := Exec.returns_bind.mp h₁
    obtain ⟨_, k₁, htick, h₃⟩ := Exec.returns_bind.mp h₂
    obtain ⟨now, k₂, hnow, h₄⟩ := Exec.returns_bind.mp h₃
    obtain ⟨_, k₃, hmodify, h₅⟩ := Exec.returns_bind.mp h₄
    obtain ⟨_, k₄, hsuspend, hpure⟩ := Exec.returns_bind.mp h₅
    obtain ⟨rfl, rfl⟩ := Exec.returns_get.mp hget
    obtain ⟨-, rfl⟩ := Exec.returns_assert.mp hassert
    have htimeouts : Quiets .timer k₂ k₃ := by
      rw [Exec.returns_modify.mp hmodify]
      exact .single .timeouts
    exact Or.inl <| (quiets_tickAllAgents htick).trans <|
      (quiets_onMachine Machine.getTimeMs_keeps hnow).trans <| htimeouts.trans <|
      (quiets_suspendCurrent hsuspend).trans (quiets_pure hpure)
  | fault exitCode =>
    obtain ⟨_, k₁, hexit, hpure⟩ := Exec.returns_bind.mp h
    obtain ⟨-, rfl⟩ := Exec.returns_pure.mp hpure
    exact Or.inr (change_exitCurrent hexit)
  | store addr value =>
    obtain ⟨⟨t, tcb⟩, k₁, hcurrent, h₁⟩ := Exec.returns_bind.mp h
    obtain ⟨-, -, rfl⟩ := returns_currentTask.mp hcurrent
    dsimp only at h₁
    split at h₁
    · obtain ⟨_, k₂, hexit, hpure⟩ := Exec.returns_bind.mp h₁
      obtain ⟨-, rfl⟩ := Exec.returns_pure.mp hpure
      exact Or.inr (change_exitCurrent hexit)
    · obtain ⟨_, k₂, hmodify, hpure⟩ := Exec.returns_bind.mp h₁
      obtain ⟨-, rfl⟩ := Exec.returns_pure.mp hpure
      rw [Exec.returns_modify.mp hmodify]
      exact Or.inl (.single (.machine rfl))

/-- Making the first process. -/
theorem boot_effect {elf : Elf} {u : Unit} (h : (addInitproc elf).Returns k u k') :
    Booted elf k k' := by
  obtain ⟨t, k₁, hnew, hadd⟩ := Exec.returns_bind.mp h
  obtain ⟨⟨ms, sp, entry⟩, k₂, hload, h₁⟩ := Exec.returns_bind.mp hnew
  obtain ⟨trapCx, _, htrap, h₂⟩ := Exec.returns_bind.mp h₁
  obtain ⟨pid, k₃, hpid, h₃⟩ := Exec.returns_bind.mp h₂
  obtain ⟨_, k₄, hstack, hblock⟩ := Exec.returns_bind.mp h₃
  obtain ⟨m, hm, rfl⟩ := returns_onMachine.mp hload
  obtain ⟨-, rfl⟩ := Exec.returns_unwrap.mp htrap
  obtain ⟨pa, hpa, rfl⟩ := returns_pidAlloc.mp hpid
  obtain ⟨ks, m', hm', rfl⟩ := returns_newKernelStack.mp hstack
  obtain ⟨rfl, rfl⟩ := returns_addBlock.mp hblock
  obtain rfl := Exec.returns_modify.mp hadd
  exact .mk hm hpa hm'

end CopyingCalls

/-! ## Invariants of runs -/

omit [KernelLayout] in
theorem Quiets.invariant {event : Event} {I : Kernel → Prop}
    (hquiet : ∀ k k', I k → Quiet event k k' → I k') {k k' : Kernel} (h : Quiets event k k')
    (hk : I k) : I k' := by
  induction h with
  | refl => exact hk
  | tail _ hstep ih => exact hquiet _ _ ih hstep

/-- A property of the first state that the effects keep is one of all states of a run. -/
theorem Reach.invariant {boots : Elf → Prop} {allowed : Kernel → Event → Prop}
    {I : Kernel → Prop} (hboot : ∀ k₀ elf k, k₀.Initial → boots elf → Booted elf k₀ k → I k)
    (hquiet : ∀ event k k', I k → Quiet event k k' → I k')
    (hchange : ∀ event k k', I k → allowed k event → Change event k k' → I k') {k : Kernel}
    (h : Reach boots allowed k) : I k := by
  induction h with
  | boot h₀ hb hinit => exact hboot _ _ _ h₀ hb (boot_effect hinit)
  | step _ hallowed hstep ih =>
    rcases step_effect hstep with hquiets | hc
    · exact Quiets.invariant (hquiet _) hquiets ih
    · exact hchange _ _ _ ih hallowed hc

end Kernel

end AgentOS
