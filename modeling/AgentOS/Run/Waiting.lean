import AgentOS.Run.Agents

/-!
# Waiting for events

A turn of the loop of `sys_agent_wait` reports the events that are pending and looked for, or finds that
the time is up, or goes to sleep. A task that sleeps there keeps the time of its call and its timeout in
its context, so each later turn measures from the same start, however often the task was woken for
nothing.
-/

namespace AgentOS

open Scheduler

/-- A reading of the clock, in milliseconds: the first, or one of those after it. -/
def Machine.ms (m : Machine) (n : ℕ) : ℕ := m.clock n / 12500

/-- The machine after some readings of the clock. -/
def Machine.later (m : Machine) (n : ℕ) : Machine := { m with clock := fun i ↦ m.clock (i + n) }

namespace Kernel

/-! ## One turn -/

section Turn

variable {k k' : Kernel} {t : ℕ} {r : Option ℤ}

/-- Only the value at the extension of the task matters. -/
theorem setExt_congr {f g : AgentExt → AgentExt} (h : ∀ ext, k.extOf t = some ext → f ext = g ext) :
    k.setExt t f = k.setExt t g := by
  have htasks : (k.setExt t f).tasks = (k.setExt t g).tasks := by
    funext u
    rw [setExt, setExt, setTask_tasks, setTask_tasks]
    split
    · rcases htcb : k.tasks t with _ | tcb
      · rfl
      · rcases hext : tcb.agentExt with _ | ext
        · simp only [Option.map_some, hext, Option.map_none]
        · simp only [Option.map_some, hext, h ext ((extOf_of_tasks htcb).trans hext)]
    · rfl
  calc k.setExt t f = { k with tasks := (k.setExt t f).tasks } := rfl
    _ = k.setExt t g := by rw [htasks]; rfl

theorem setExt_id (k : Kernel) (t : ℕ) : k.setExt t id = k := by
  have htasks : (k.setExt t id).tasks = k.tasks := by
    funext u
    rw [setExt, setTask_tasks]
    split
    · rename_i heq
      rw [heq]
      cases k.tasks t <;> simp
    · rfl
  calc k.setExt t id = { k with tasks := (k.setExt t id).tasks } := rfl
    _ = k := by rw [htasks]

/-- Setting an extension to what it is. -/
theorem setExt_self {ext : AgentExt} (h : k.extOf t = some ext) : (k.setExt t fun _ ↦ ext) = k :=
  (setExt_congr fun _ he ↦ Option.some.inj (h.symm.trans he)).trans (setExt_id k t)

theorem setExt_setExt (f g : AgentExt → AgentExt) :
    (k.setExt t f).setExt t g = k.setExt t fun ext ↦ g (f ext) := by
  rw [setExt, setExt, setTask_setTask]
  simp only [Option.map_map, Function.comp_def]
  rfl

/-- The kernel after the current task went to sleep. -/
def asleep (k : Kernel) (t : ℕ) (cx : TaskContext) (deadline : Option ℕ) : Kernel :=
  { ({ k with current := none }.setTask t fun tcb ↦
      { tcb with taskStatus := .blocked, taskCx := cx }) with
    blockedAgents := k.blockedAgents ++ [⟨t, deadline⟩] }

theorem returns_endWait {value : ℕ} : (endWait t value).Returns k r k' ↔
    r = some (value : ℤ) ∧ k' = k.setExt t fun ext ↦ { ext with loopState := .idle } := by
  simp only [endWait, Exec.returns_bind, Exec.returns_modify, Exec.returns_pure]
  constructor
  · rintro ⟨_, _, rfl, rfl, rfl⟩
    exact ⟨rfl, rfl⟩
  · rintro ⟨rfl, rfl⟩
    exact ⟨(), _, rfl, rfl, rfl⟩

theorem returns_sleep {startMs timeoutMs : ℤ} {deadline : Option ℕ} (hcur : k.current = some t) :
    (sleep startMs timeoutMs deadline).Returns k r k' ↔
      r = none ∧ k' = k.asleep t (.agentWait startMs timeoutMs deadline) deadline := by
  simp only [sleep, blockCurrentAgent, Exec.returns_bind, Exec.returns_get, Exec.returns_unwrap,
    Exec.returns_modify, Exec.returns_pure]
  constructor
  · rintro ⟨_, _, ⟨_, _, ⟨rfl, rfl⟩, u, _, ⟨hu, rfl⟩, rfl⟩, rfl, rfl⟩
    obtain rfl := Option.some.inj (hcur.symm.trans hu)
    exact ⟨rfl, rfl⟩
  · rintro ⟨rfl, rfl⟩
    exact ⟨(), _, ⟨_, _, ⟨rfl, rfl⟩, t, _, ⟨hcur, rfl⟩, rfl⟩, rfl, rfl⟩

/-- What a turn of an agent can come to: it has read the clock `n` times. -/
inductive Turn (k : Kernel) (t : ℕ) (ext : AgentExt) (startMs timeoutMs : ℤ)
    (deadline : Option ℕ) : Option ℤ → Kernel → Prop
  /-- Events are reported. -/
  | report (h : ext.triggered ≠ 0) :
      Turn k t ext startMs timeoutMs deadline (some ext.triggered)
        (k.setExt t fun _ ↦ { ext.consume with loopState := .idle })
  /-- The time is up. -/
  | timeout (h : ext.triggered = 0) (htimeout : 0 ≤ timeoutMs)
      (hup : timeoutMs ≤ toI64 (toI64 (k.machine.ms 0) - startMs)) :
      Turn k t ext startMs timeoutMs deadline (some 0)
        { k.setExt t fun _ ↦ { ext with loopState := .idle } with machine := k.machine.later 1 }
  /-- There is nothing to report yet. -/
  | sleep {n : ℕ} (h : ext.triggered = 0) :
      Turn k t ext startMs timeoutMs deadline none
        ({ k with machine := k.machine.later n }.asleep t
          (.agentWait startMs timeoutMs deadline) deadline)

theorem waitTurn_cases {startMs timeoutMs : ℤ} {deadline : Option ℕ}
    (h : (waitTurn startMs timeoutMs deadline).Returns k r k') :
    ∃ t, k.current = some t ∧ ((k.extOf t = none ∧ r = some (-4) ∧ k' = k) ∨
      ∃ ext, k.extOf t = some ext ∧ Turn k t ext startMs timeoutMs deadline r k') := by
  obtain ⟨t, tcb, hcur, htcb, ⟨hnone, hr, hk'⟩ | ⟨ext, hext, hbody⟩⟩ := returns_withExt h
  · exact ⟨t, hcur, Or.inl ⟨(extOf_of_tasks htcb).trans hnone, hr, hk'⟩⟩
  have hextOf := (extOf_of_tasks htcb).trans hext
  refine ⟨t, hcur, Or.inr ⟨ext, hextOf, ?_⟩⟩
  obtain ⟨_, k₁, hmodify, hrest⟩ := Exec.returns_bind.mp hbody
  have hk₁ := Exec.returns_modify.mp hmodify
  split at hrest
  · rename_i hevents
    obtain ⟨rfl, rfl⟩ := returns_endWait.mp hrest
    rw [hk₁, setExt_setExt]
    exact .report hevents
  · rename_i hevents
    have hnone := not_not.mp hevents
    rw [consume_of_triggered hnone, setExt_self hextOf] at hk₁
    subst hk₁
    split at hrest
    · rename_i htimeout
      obtain ⟨now, k₂, hnow, hrest⟩ := Exec.returns_bind.mp hrest
      obtain ⟨m, hm, hk₂⟩ := returns_onMachine.mp hnow
      obtain ⟨rfl, rfl⟩ := Machine.returns_getTimeMs.mp hm
      have hcur₂ : k₂.current = some t := by rw [hk₂, hcur]
      split at hrest
      · rename_i hup
        subst hk₂
        obtain ⟨rfl, rfl⟩ := returns_endWait.mp hrest
        have hdone : Turn k₁ t ext startMs timeoutMs deadline _ _ := .timeout hnone htimeout hup
        rw [setExt_congr (g := fun _ ↦ { ext with loopState := .idle }) fun e he ↦ ?_]
        · exact hdone
        · obtain rfl := Option.some.inj (hextOf.symm.trans he)
          rfl
      · obtain ⟨rfl, rfl⟩ := (returns_sleep hcur₂).mp hrest
        rw [hk₂]
        exact .sleep (n := 1) hnone
    · obtain ⟨rfl, rfl⟩ := (returns_sleep hcur).mp hrest
      exact .sleep (n := 0) hnone

section Outcome

variable {ext : AgentExt} {startMs timeoutMs : ℤ} {deadline : Option ℕ}

theorem extOf_asleep (k : Kernel) (t : ℕ) (cx : TaskContext) :
    (k.asleep t cx deadline).extOf = k.extOf :=
  extOf_setTask (k := { k with current := none }) (t := t)
    (f := fun tcb ↦ { tcb with taskStatus := .blocked, taskCx := cx }) fun _ _ ↦ rfl

theorem cxOf_setExt (k : Kernel) (t : ℕ) (f : AgentExt → AgentExt) :
    (k.setExt t f).cxOf = k.cxOf := cxOf_setTask fun _ _ ↦ rfl

theorem cxOf_asleep_of_ne {t u : ℕ} (hne : u ≠ t) (k : Kernel) (cx : TaskContext) :
    (k.asleep t cx deadline).cxOf u = k.cxOf u :=
  congrArg (Option.map TaskControlBlock.taskCx) <|
    setTask_tasks_of_ne { k with current := none } t _ hne

theorem cxOf_asleep_self {tcb : TaskControlBlock} (htcb : k.tasks t = some tcb) (cx : TaskContext) :
    (k.asleep t cx deadline).cxOf t = some cx := by
  have hself := setTask_tasks_self { k with current := none } t fun tcb ↦
    { tcb with taskStatus := .blocked, taskCx := cx }
  show (Option.map _ _) = _
  exact (congrArg (Option.map TaskControlBlock.taskCx) hself).trans (by rw [htcb]; rfl)

/-- A turn that returns has reported what was pending, and if that was nothing the time is up. -/
theorem Turn.returned {v : ℤ} (h : Turn k t ext startMs timeoutMs deadline (some v) k')
    (hext : k.extOf t = some ext) :
    v = ext.triggered ∧ k'.extOf t = some { ext.consume with loopState := .idle } ∧
      k'.current = k.current ∧ (ext.triggered = 0 → 0 ≤ timeoutMs ∧
        timeoutMs ≤ toI64 (toI64 (k.machine.ms 0) - startMs) ∧
        k'.machine.clock = (k.machine.later 1).clock) := by
  generalize hr : some v = r at h
  cases h with
  | report h =>
    refine ⟨Option.some.inj hr, ?_, rfl, fun hzero ↦ absurd hzero h⟩
    exact extOf_setExt_self _ hext
  | timeout h htimeout hup =>
    refine ⟨by rw [h]; exact Option.some.inj hr, ?_, rfl, fun _ ↦ ⟨htimeout, hup, rfl⟩⟩
    rw [consume_of_triggered h]
    exact extOf_setExt_self (fun _ ↦ { ext with loopState := .idle }) hext
  | sleep h => exact absurd hr (by simp)

/-- A turn that does not return leaves the task asleep, to go on with the same wait. -/
theorem Turn.slept {tcb : TaskControlBlock} (htcb : k.tasks t = some tcb)
    (h : Turn k t ext startMs timeoutMs deadline none k') :
    k'.current = none ∧ k'.cxOf t = some (.agentWait startMs timeoutMs deadline) ∧
      k'.sched.place t = some .blocked := by
  generalize hr : none = r at h
  cases h with
  | report h => exact absurd hr (by simp)
  | timeout h htimeout hup => exact absurd hr (by simp)
  | @sleep n h =>
    refine ⟨rfl, cxOf_asleep_self (k := { k with machine := k.machine.later n }) htcb _, ?_⟩
    have hplace := place_setTask (k := { k with machine := k.machine.later n, current := none })
      (t := t) (s := .blocked) (f := fun tcb ↦
        { tcb with taskStatus := .blocked, taskCx := .agentWait startMs timeoutMs deadline })
      (by simp [htcb]) fun _ ↦ rfl
    exact (congrFun hplace t).trans (Function.update_self ..)

/-- A turn concerns the task whose turn it is. -/
theorem Turn.other {u : ℕ} (hne : u ≠ t) (h : Turn k t ext startMs timeoutMs deadline r k') :
    k'.cxOf u = k.cxOf u ∧ k'.sched.place u = k.sched.place u := by
  cases h with
  | report h =>
    exact ⟨congrFun (cxOf_setExt k t _) u, congrArg (Sched.place · u) (sched_setTask fun _ _ ↦ rfl)⟩
  | timeout h htimeout hup =>
    have hsched : (k.setExt t fun _ ↦ { ext with loopState := .idle }).sched = k.sched :=
      sched_setTask fun _ _ ↦ rfl
    exact ⟨congrFun (cxOf_setExt k t _) u, congrArg (Sched.place · u) hsched⟩
  | @sleep n h =>
    refine ⟨cxOf_asleep_of_ne hne _ _, ?_⟩
    exact congrArg (Option.map fun tcb ↦ tcb.taskStatus.place) <|
      setTask_tasks_of_ne { k with machine := k.machine.later n, current := none } t _ hne

end Outcome

end Turn

/-! ## The call and the switch back -/

section Entry

variable {k k' : Kernel} {r : Option ℤ}

/-- The kernel when the loop of a wait begins: the loop state is set and the clock was read. -/
def thinking (k : Kernel) (t n : ℕ) : Kernel :=
  { k.setExt t fun ext ↦ { ext with loopState := .thinking } with machine := k.machine.later n }

/-- The deadline of a wait that computes it when the clock reads `now`. -/
def deadlineAt (timeoutMs : ℤ) (now : ℕ) : Option ℕ :=
  if timeoutMs < 0 then none else some (max (toI64 (toI64 now + timeoutMs)) 0).toNat

theorem returns_waitDeadline {timeoutMs : ℤ} {m m' : Machine} {deadline : Option ℕ}
    (h : (waitDeadline timeoutMs).Returns m deadline m') :
    deadline = deadlineAt timeoutMs (m.ms 0) ∧ ∃ n, m' = m.later n := by
  unfold waitDeadline at h
  unfold deadlineAt
  split at h
  · obtain ⟨rfl, rfl⟩ := Exec.returns_pure.mp h
    exact ⟨(if_pos ‹_›).symm, 0, rfl⟩
  · obtain ⟨now, m₁, hnow, hpure⟩ := Exec.returns_bind.mp h
    obtain ⟨rfl, rfl⟩ := Exec.returns_pure.mp hpure
    obtain ⟨rfl, rfl⟩ := Machine.returns_getTimeMs.mp hnow
    exact ⟨(if_neg ‹_›).symm, 1, rfl⟩

/-- **The call of `sys_agent_wait`:** its first turn. -/
theorem sysAgentWait_cases {timeoutMs : ℤ} (h : (sysAgentWait timeoutMs).Returns k r k') :
    ∃ t n, k.current = some t ∧
      ((k.extOf t = none ∧ r = some (-4) ∧ k' = k.thinking t n) ∨
        ∃ ext, k.extOf t = some ext ∧ Turn (k.thinking t n) t { ext with loopState := .thinking }
          (toI64 (k.machine.ms 0)) timeoutMs (deadlineAt timeoutMs (k.machine.ms 1)) r k') := by
  obtain ⟨start, k₁, hstart, h₁⟩ := Exec.returns_bind.mp h
  obtain ⟨⟨t, tcb⟩, k₂, hcurrent, h₂⟩ := Exec.returns_bind.mp h₁
  obtain ⟨_, k₃, hmodify, h₃⟩ := Exec.returns_bind.mp h₂
  obtain ⟨deadline, k₄, hdeadline, hturn⟩ := Exec.returns_bind.mp h₃
  obtain ⟨m₁, hm₁, rfl⟩ := returns_onMachine.mp hstart
  obtain ⟨rfl, rfl⟩ := Machine.returns_getTimeMs.mp hm₁
  obtain ⟨hcur, htcb, rfl⟩ := returns_currentTask.mp hcurrent
  obtain rfl := Exec.returns_modify.mp hmodify
  obtain ⟨m₂, hm₂, rfl⟩ := returns_onMachine.mp hdeadline
  obtain ⟨hat, n, rfl⟩ := returns_waitDeadline hm₂
  obtain rfl : deadline = deadlineAt timeoutMs (k.machine.ms 1) := hat
  have hcur : k.current = some t := hcur
  obtain ⟨u, hu, hcases⟩ := waitTurn_cases hturn
  have hu : k.current = some u := hu
  obtain rfl : t = u := Option.some.inj (hcur.symm.trans hu)
  refine ⟨t, n + 1, hcur, ?_⟩
  have hext : (k.thinking t (n + 1)).extOf t =
      (k.extOf t).map fun ext ↦ { ext with loopState := .thinking } :=
    (extOf_setExt k t _ t).trans (if_pos rfl)
  rcases hcases with ⟨hnone, hr, hk'⟩ | ⟨ext', hext', hturn⟩
  · exact Or.inl ⟨Option.map_eq_none_iff.mp (hext.symm.trans hnone), hr, hk'⟩
  · obtain ⟨ext, hextOf, rfl⟩ := Option.map_eq_some_iff.mp (hext.symm.trans hext')
    exact Or.inr ⟨ext, hextOf, hturn⟩

/-- The kernel after a task was switched to. -/
def switched (k k₁ : Kernel) (t : ℕ) : Prop :=
  k₁.current = some t ∧ k₁.extOf = k.extOf ∧ k₁.cxOf = k.cxOf ∧ k₁.machine = k.machine ∧
    k.sched.place t = some .ready ∧ ∀ u, u ≠ t → k₁.sched.place u = k.sched.place u

variable [KernelLayout]

/-- **A turn of `run_tasks`:** the task goes on in user mode, or with its wait. -/
theorem schedule_cases (hc : Coherent k.sched) (h : (step .schedule).Returns k r k') :
    ∃ t k₁, switched k k₁ t ∧ k₁.blockedAgents = k.blockedAgents ∧ k.current = none ∧
      ((r = none ∧ k' = k₁ ∧ k.cxOf t = some .trapReturn) ∨
      ∃ startMs timeoutMs deadline, k.cxOf t = some (.agentWait startMs timeoutMs deadline) ∧
        ((k.extOf t = none ∧ r = some (-4) ∧ k' = k₁) ∨
          ∃ ext, k.extOf t = some ext ∧ Turn k₁ t ext startMs timeoutMs deadline r k')) := by
  obtain ⟨_, _, hget, h₁⟩ := Exec.returns_bind.mp h
  obtain ⟨_, _, hassert, h₂⟩ := Exec.returns_bind.mp h₁
  obtain ⟨cx, k₁, hrun, hresume⟩ := Exec.returns_bind.mp h₂
  obtain ⟨rfl, rfl⟩ := Exec.returns_get.mp hget
  obtain ⟨hidle, rfl⟩ := Exec.returns_assert.mp hassert
  obtain ⟨t, k₂, tcb, hfetch, htcb, rfl, hk₁⟩ := returns_runNext hrun
  obtain ⟨rest, hperm, rfl⟩ := fetchTask_eq_some hfetch
  rename_i k
  have hplace : k.sched.place t = some .ready :=
    hc.place_of_mem_ready (Multiset.mem_coe.mpr (hperm.subset List.mem_cons_self))
  have hswitched : switched k k₁ t := by
    subst hk₁
    refine ⟨rfl, ?_, ?_, rfl, hplace, fun u hne ↦ ?_⟩
    · exact extOf_setTask (k := { k with readyQueue := rest }) (t := t)
        (f := fun tcb ↦ { tcb with taskStatus := .running }) fun _ _ ↦ rfl
    · exact cxOf_setTask (k := { k with readyQueue := rest }) (t := t)
        (f := fun tcb ↦ { tcb with taskStatus := .running }) fun _ _ ↦ rfl
    · exact congrArg (Option.map fun tcb ↦ tcb.taskStatus.place) <|
        setTask_tasks_of_ne { k with readyQueue := rest } t _ hne
  have hcx : k.cxOf t = some tcb.taskCx := by rw [cxOf, htcb]; rfl
  have hblocked : k₁.blockedAgents = k.blockedAgents := by rw [hk₁]; rfl
  refine ⟨t, k₁, hswitched, hblocked, hidle, ?_⟩
  rcases htaskCx : tcb.taskCx with _ | ⟨startMs, timeoutMs, deadline⟩
  · rw [htaskCx] at hresume hcx
    obtain ⟨hr, hk'⟩ := Exec.returns_pure.mp hresume
    exact Or.inl ⟨hr, hk', hcx⟩
  · rw [htaskCx] at hresume hcx
    refine Or.inr ⟨startMs, timeoutMs, deadline, hcx, ?_⟩
    obtain ⟨u, hu, hcases⟩ := waitTurn_cases hresume
    obtain rfl : t = u := Option.some.inj (hswitched.1.symm.trans hu)
    rwa [hswitched.2.1] at hcases

end Entry

/-! ## Events that are no turns of a wait -/

/-- A task will go on with a wait when it gets the processor. -/
def Parked (k : Kernel) (t : ℕ) (startMs timeoutMs : ℤ) (deadline : Option ℕ) : Prop :=
  k.current ≠ some t ∧ k.sched.place t ≠ some .finished ∧
    k.cxOf t = some (.agentWait startMs timeoutMs deadline)

section Apart

variable {event : Event} {k k' : Kernel} {t : ℕ} {startMs timeoutMs : ℤ} {deadline : Option ℕ}

theorem Parked.of_eq (h : Parked k' t startMs timeoutMs deadline) (hcur : k'.current = k.current)
    (hcx : k'.cxOf t = k.cxOf t)
    (hplace : k.sched.place t = some .finished → k'.sched.place t = some .finished) :
    Parked k t startMs timeoutMs deadline :=
  ⟨hcur ▸ h.1, mt hplace h.2.1, hcx ▸ h.2.2⟩

/-- Whoever is parked was parked before, in the same wait. -/
theorem Quiet.parked (hc : Coherent k.sched) (hq : Quiet event k k') (hw : ¬Waits event)
    (h : Parked k' t startMs timeoutMs deadline) : Parked k t startMs timeoutMs deadline := by
  have hplace := ((hc.finished_moves (hq.moves hc) t).2).mpr
  have setExt : ∀ (u : ℕ) (f : AgentExt → AgentExt), (k.setExt u f).cxOf t = k.cxOf t :=
    fun u f ↦ congrFun (cxOf_setExt k u f) t
  have notify : ∀ {mark : AgentExt → Option AgentExt} {ts : List ℕ},
      (∀ ext ext', mark ext = some ext' → ext'.area = ext.area) →
        (k.notify mark ts).current = k.current ∧ (k.notify mark ts).cxOf t = k.cxOf t := by
    intro mark ts hmark
    have hm := marks_markAgents hmark ts (k, [])
    rw [notify_eq, (wakes_foldl_wakeAgentByPid _ _).current, (wakes_foldl_wakeAgentByPid _ _).cxOf]
    exact ⟨hm.current, congrFun hm.cxOf t⟩
  cases hq with
  | machine hm => exact h
  | path hcur hf => exact h.of_eq rfl (setExt _ _) hplace
  | heartbeatSet hcur => exact h.of_eq rfl (setExt _ _) hplace
  | heartbeatStop hcur => exact h.of_eq rfl (setExt _ _) hplace
  | watch hcur => exact h.of_eq rfl (setExt _ _) hplace
  | unwatch hcur => exact h.of_eq rfl (setExt _ _) hplace
  | consume hwaits hcur hext => exact absurd hwaits hw
  | @priority _ _ u p =>
    have hcx := cxOf_setTask (k := k) (t := u) (f := fun tcb ↦ { tcb with priority := p })
      fun _ _ ↦ rfl
    exact h.of_eq rfl (congrFun hcx t) hplace
  | store => exact h
  | @deliver _ _ u pid ext payload hpid hext hroom =>
    have hwake := wakes_wakeAgentByPid { k.setExt u (AgentExt.accept payload) with
      history := k.history ++ [MailEvent.accepted u payload ext.evicted] } pid
    exact h.of_eq hwake.current
      ((congrFun hwake.cxOf t).trans (setExt u (AgentExt.accept payload))) hplace
  | @receive _ _ u n ext msg rest hcur hext hmsg =>
    exact h.of_eq rfl (setExt u fun ext ↦ { ext with mailbox := rest }) hplace
  | heartbeats =>
    obtain ⟨hcur, hcx⟩ := notify fun _ _ ↦ area_heartbeat
    exact h.of_eq hcur hcx hplace
  | fileEvents =>
    obtain ⟨hcur, hcx⟩ := notify fun _ _ ↦ area_fileEvent
    exact h.of_eq hcur hcx hplace
  | @timeouts _ _ now =>
    have hwake := wakes_tickWakeTimeouts k now
    exact h.of_eq hwake.current (congrFun hwake.cxOf t) hplace
  | @suspend _ _ u hcur =>
    have hself := setTask_tasks_self { k with current := none } u fun tcb ↦
      { tcb with taskStatus := .ready, taskCx := .trapReturn }
    have hne : t ≠ u := by
      rintro rfl
      have hcx := (congrArg (Option.map TaskControlBlock.taskCx) hself).symm.trans h.2.2
      rw [Option.map_map] at hcx
      obtain ⟨tcb, -, hcx⟩ := Option.map_eq_some_iff.mp hcx
      exact absurd hcx TaskContext.noConfusion
    refine ⟨fun ht ↦ hne (Option.some.inj (ht.symm.trans hcur)), mt hplace h.2.1, ?_⟩
    rw [← h.2.2]
    exact (congrArg (Option.map TaskControlBlock.taskCx) <|
      setTask_tasks_of_ne { k with current := none } u _ hne).symm
  | block hwaits hcur hext hnone => exact absurd hwaits hw
  | run hidle hfetch hlive => exact absurd trivial hw

theorem Quiets.parked (hc : Coherent k.sched) (hq : Quiets event k k') (hw : ¬Waits event)
    (h : Parked k' t startMs timeoutMs deadline) : Parked k t startMs timeoutMs deadline := by
  have hcoherent : ∀ {k₁}, Quiets event k k₁ → Coherent k₁.sched := fun hq ↦
    Quiets.invariant (I := fun k ↦ Coherent k.sched)
      (fun _ _ hk hstep ↦ hk.moves (hstep.moves hk)) hq hc
  induction hq with
  | refl => exact h
  | tail hquiets hstep ih => exact ih (hstep.parked (hcoherent hquiets) hw h)

variable [KernelLayout]

theorem Change.parked (hfresh : Fresh k) (hc : Change event k k')
    (h : Parked k' t startMs timeoutMs deadline) : Parked k t startMs timeoutMs deadline := by
  cases hc with
  | @create cfgPtr _ u tcb ms m m' area hcur htcb hext halloc hm =>
    have hcx := cxOf_setTask (k := k) (t := u)
      (f := fun tcb ↦ { tcb with memorySet := ms, agentExt := some freshExt }) fun _ _ ↦ rfl
    have hsched := sched_setTask (k := k) (t := u)
      (f := fun tcb ↦ { tcb with memorySet := ms, agentExt := some freshExt }) fun _ _ ↦ rfl
    exact h.of_eq rfl (congrFun hcx t) fun hfin ↦ (congrArg (Sched.place · t) hsched).trans hfin
  | @load _ u sp entry trapCx tcb elf ms m m' hcur htcb hload hdrop =>
    have hcx := cxOf_setTask (k := k) (t := u)
      (f := fun tcb ↦ { tcb with memorySet := ms, trapCxPpn := trapCx }) fun _ _ ↦ rfl
    have hsched := sched_setTask (k := k) (t := u)
      (f := fun tcb ↦ { tcb with memorySet := ms, trapCxPpn := trapCx }) fun _ _ ↦ rfl
    exact h.of_eq rfl (congrFun hcx t) fun hfin ↦ (congrArg (Sched.place · t) hsched).trans hfin
  | @fork _ u pid trapCx parent ms ks m m' pa hcur htcb hcopy hpid hstack =>
    have hne : u ≠ k.nextTask := by
      rintro rfl
      rw [hfresh _ le_rfl] at htcb
      exact absurd htcb (by simp)
    have hs := spawned_spawn (k := { k with machine := m', pidAllocator := pa, kernelSpace := ks })
      hne (freshTask pid trapCx ms (some u) parent.priority)
    have hnew : t ≠ k.nextTask := by
      rintro rfl
      have hcx := h.2.2
      rw [cxOf, hs, if_pos rfl, Option.map_some] at hcx
      exact absurd (Option.some.inj hcx) TaskContext.noConfusion
    refine h.of_eq rfl ?_ fun hfin ↦ (hs.place hnew).trans hfin
    rw [cxOf, hs, if_neg hnew, cxOf]
    split
    · rename_i htu
      rw [htu, Option.map_map]
      rfl
    · rfl
  | @exit _ _ u exitCode tcb ms m hcur htcb hpid hrecycle =>
    have hcx := cxOf_setTask (k := k.buried u exitCode tcb.children) (t := u)
      (f := fun tcb ↦ { tcb with memorySet := ms }) fun _ _ ↦ rfl
    have hsched := sched_setTask (k := k.buried u exitCode tcb.children) (t := u)
      (f := fun tcb ↦ { tcb with memorySet := ms }) fun _ _ ↦ rfl
    have hne : t ≠ u := by
      rintro rfl
      obtain ⟨zcb, hzcb, hzombie⟩ :=
        zombie_buried exitCode ms m htcb
      exact h.2.1 ((sched_place hzcb .zombie).mpr hzombie)
    refine ⟨fun ht ↦ hne (Option.some.inj (ht.symm.trans hcur)), fun hfin ↦ h.2.1 ?_, ?_⟩
    · refine (congrArg (Sched.place · t) hsched).trans ?_
      show ((k.buried u exitCode tcb.children).tasks t).map _ = _
      rw [tasks_buried, Option.map_map]
      simp only [Function.comp_def, if_neg hne]
      exact hfin
    · rw [← h.2.2]
      refine Eq.trans ?_ (congrFun hcx t).symm
      rw [cxOf, cxOf, tasks_buried, Option.map_map]
      rfl
  | @reap pid exitCodePtr _ u c idx parent child m m₁ m₂ pa ks hcur htcb hc' hchild hzombie hm hpid
      hstack hdrop =>
    have hr := reaped_disown k u c idx m₂ pa ks
    have htc : t ≠ c := by
      rintro rfl
      have hcx := h.2.2
      rw [cxOf] at hcx
      simp only [if_true, Option.map_none] at hcx
      exact absurd hcx (by simp)
    refine h.of_eq rfl ?_ fun hfin ↦ ?_
    · rw [cxOf]
      simp only [if_neg htc]
      exact map_tasks_setTask k u (fun tcb ↦ { tcb with children := tcb.children.eraseIdx idx })
        (fun _ _ ↦ rfl) t
    · rw [hr.2, if_neg htc]
      exact hfin

end Apart

/-! ## Turns of a wait -/

section Turns

variable {k k₁ k' : Kernel} {t u : ℕ} {r : Option ℤ} {ext : AgentExt}
  {startMs timeoutMs startMs' timeoutMs' : ℤ} {deadline deadline' : Option ℕ}

theorem waits_iff {event : Event} :
    Waits event ↔ event = .schedule ∨ ∃ timeoutMs, event = .syscall (.agentWait timeoutMs) := by
  constructor
  · intro h
    match event, h with
    | .schedule, _ => exact Or.inl rfl
    | .syscall (.agentWait timeoutMs), _ => exact Or.inr ⟨timeoutMs, rfl⟩
  · rintro (rfl | ⟨timeoutMs, rfl⟩) <;> trivial

/-- When another task is switched to, whoever is parked then was parked before. -/
theorem switched.parked (hs : switched k k₁ u) (hidle : k.current = none)
    (h : Parked k₁ t startMs timeoutMs deadline) : Parked k t startMs timeoutMs deadline := by
  have hne : t ≠ u := fun htu ↦ h.1 (htu ▸ hs.1)
  refine ⟨by rw [hidle]; exact (Option.some_ne_none t).symm, ?_, ?_⟩
  · rw [← hs.2.2.2.2.2 t hne]
    exact h.2.1
  · rw [← hs.2.2.1]
    exact h.2.2

theorem thinking_parked {n : ℕ} (h : Parked (k.thinking u n) t startMs timeoutMs deadline) :
    Parked k t startMs timeoutMs deadline := by
  have hsched : (k.setExt u fun ext ↦ { ext with loopState := .thinking }).sched = k.sched :=
    sched_setTask fun _ _ ↦ rfl
  exact h.of_eq rfl (congrFun (cxOf_setExt k u _) t) fun hfin ↦
    (congrArg (Sched.place · t) hsched).trans hfin

/-- After a turn of `u`, whoever is parked is `u` in this wait, or was parked before. -/
theorem Turn.parked {tcb : TaskControlBlock} (htcb : k.tasks u = some tcb)
    (hcur : k.current = some u) (hturn : Turn k u ext startMs' timeoutMs' deadline' r k')
    (hext : k.extOf u = some ext) (h : Parked k' t startMs timeoutMs deadline) :
    (t = u ∧ startMs = startMs' ∧ timeoutMs = timeoutMs' ∧ deadline = deadline') ∨
      Parked k t startMs timeoutMs deadline := by
  rcases eq_or_ne t u with rfl | hne
  · refine Or.inl ⟨rfl, ?_⟩
    cases r with
    | none =>
      obtain ⟨-, hcx, -⟩ := hturn.slept htcb
      rw [h.2.2] at hcx
      simp only [Option.some.injEq, TaskContext.agentWait.injEq] at hcx
      exact hcx
    | some v =>
      obtain ⟨-, -, hcur', -⟩ := hturn.returned hext
      exact absurd (hcur'.trans hcur) h.1
  · obtain ⟨hcx, hplace⟩ := hturn.other hne
    refine Or.inr ⟨fun ht ↦ hne (Option.some.inj (ht.symm.trans hcur)), ?_, ?_⟩
    · rw [← hplace]
      exact h.2.1
    · rw [← hcx]
      exact h.2.2

end Turns

/-! ## The call that a wait goes back to -/

section Runs

variable [KernelLayout] {k₀ k k' : Kernel} {tr : List Transition} {t : ℕ} {timeoutMs : ℤ} {start : ℕ}

omit [KernelLayout] in
/-- The last thing a task did in user mode was to call `sys_agent_wait`, at a time. -/
def Entered (tr : List Transition) (t : ℕ) (timeoutMs : ℤ) (start : ℕ) : Prop :=
  ∃ before x after, tr = before ++ x :: after ∧ x.event = .syscall (.agentWait timeoutMs) ∧
    x.before.current = some t ∧ start = x.before.machine.ms 0 ∧
    ∀ y ∈ after, y.before.current ≠ some t

omit [KernelLayout] in
/-- The last thing a task did in user mode was to call `sys_agent_wait`, on a machine. -/
def Called (tr : List Transition) (t : ℕ) (timeoutMs : ℤ) (m : Machine) : Prop :=
  ∃ before x after, tr = before ++ x :: after ∧ x.event = .syscall (.agentWait timeoutMs) ∧
    x.before.current = some t ∧ m = x.before.machine ∧ ∀ y ∈ after, y.before.current ≠ some t

omit [KernelLayout] in
theorem Called.entered {m : Machine} (h : Called tr t timeoutMs m) :
    Entered tr t timeoutMs (m.ms 0) := by
  obtain ⟨before, x, after, htr, hevent, hcur, rfl, hafter⟩ := h
  exact ⟨before, x, after, htr, hevent, hcur, rfl, hafter⟩

omit [KernelLayout] in
theorem Called.snoc {m : Machine} (h : Called tr t timeoutMs m) {x : Transition}
    (hx : x.before.current ≠ some t) : Called (tr ++ [x]) t timeoutMs m := by
  obtain ⟨before, y, after, rfl, hevent, hcur, hm, hafter⟩ := h
  refine ⟨before, y, after ++ [x], by simp, hevent, hcur, hm, fun z hz ↦ ?_⟩
  rcases List.mem_append.mp hz with hz | hz
  · exact hafter z hz
  · rwa [List.mem_singleton.mp hz]

omit [KernelLayout] in
theorem called_self {x : Transition} (hevent : x.event = .syscall (.agentWait timeoutMs))
    (hcur : x.before.current = some t) : Called (tr ++ [x]) t timeoutMs x.before.machine :=
  ⟨tr, x, [], rfl, hevent, hcur, rfl, fun _ h ↦ absurd h List.not_mem_nil⟩

/-- **A task that will go on with a wait** called it, and was not in user mode since. The start and the
deadline of the wait are from the two readings of the clock at the call. -/
theorem Trace.called (h₀ : Starts k₀) (h : Trace k₀ tr k) {startMs : ℤ} {deadline : Option ℕ}
    (hparked : Parked k t startMs timeoutMs deadline) :
    ∃ m, Called tr t timeoutMs m ∧ startMs = toI64 (m.ms 0) ∧
      deadline = deadlineAt timeoutMs (m.ms 1) := by
  induction h generalizing t startMs timeoutMs deadline with
  | nil =>
    obtain ⟨k₁, elf, hinitial, hboot⟩ := h₀
    obtain ⟨hload, hpid, hstack⟩ := boot_effect hboot
    have hcx := hparked.2.2
    change Option.map TaskControlBlock.taskCx (if t = k₁.nextTask then _ else k₁.tasks t) = _ at hcx
    split at hcx
    · exact absurd (Option.some.inj hcx) TaskContext.noConfusion
    · rw [hinitial.tasks] at hcx
      exact absurd hcx (by simp)
  | @snoc k₁ k₂ tr event r htrace hstep ih =>
    have hsound := (htrace.reach (A := fun _ _ ↦ True) h₀.reachable
      fun _ _ ↦ trivial).sound
    have hold : Parked k₁ t startMs timeoutMs deadline →
        ∃ m, Called (tr ++ [⟨k₁, event, r, k₂⟩]) t timeoutMs m ∧ startMs = toI64 (m.ms 0) ∧
          deadline = deadlineAt timeoutMs (m.ms 1) := by
      intro hp
      obtain ⟨m, hcalled, htimes⟩ := ih hp
      exact ⟨m, hcalled.snoc hp.1, htimes⟩
    by_cases hw : Waits event
    swap
    · rcases step_effect hstep with hquiets | hc
      · exact hold (hquiets.parked hsound.coherent hw hparked)
      · exact hold (hc.parked hsound.fresh hparked)
    have live : ∀ {k : Kernel} {u : ℕ} {ext : AgentExt}, k.extOf u = some ext →
        ∃ tcb, k.tasks u = some tcb := fun h ↦ (extOf_eq_some.mp h).imp fun _ h ↦ h.1
    obtain rfl | ⟨timeoutMs', rfl⟩ := waits_iff.mp hw
    · obtain ⟨u, k₃, hs, -, hidle, ⟨-, rfl, -⟩ | ⟨startMs', timeoutMs', deadline', hcx,
        ⟨-, -, rfl⟩ | ⟨ext, hext, hturn⟩⟩⟩ := schedule_cases hsound.coherent hstep
      · exact hold (hs.parked hidle hparked)
      · exact hold (hs.parked hidle hparked)
      · have hext₃ : k₃.extOf u = some ext := hs.2.1 ▸ hext
        obtain ⟨tcb, htcb⟩ := live hext₃
        rcases hturn.parked htcb hs.1 hext₃ hparked with ⟨rfl, rfl, rfl, rfl⟩ | hp
        · refine hold ⟨by rw [hidle]; exact (Option.some_ne_none t).symm, ?_, hcx⟩
          rw [hs.2.2.2.2.1]
          decide
        · exact hold (hs.parked hidle hp)
    · obtain ⟨_, _, hget, h₁⟩ := Exec.returns_bind.mp hstep
      obtain ⟨_, _, hassert, hcall⟩ := Exec.returns_bind.mp h₁
      obtain ⟨rfl, rfl⟩ := Exec.returns_get.mp hget
      obtain ⟨-, rfl⟩ := Exec.returns_assert.mp hassert
      rename_i k₁
      obtain ⟨u, n, hcur, ⟨-, -, rfl⟩ | ⟨ext, hext, hturn⟩⟩ := sysAgentWait_cases hcall
      · exact hold (thinking_parked hparked)
      · have hext' := extOf_setExt_self (fun ext ↦ { ext with loopState := .thinking }) hext
        have hext₁ : (k₁.thinking u n).extOf u = some { ext with loopState := .thinking } := hext'
        obtain ⟨tcb, htcb⟩ := live hext₁
        rcases hturn.parked htcb hcur hext₁ hparked with ⟨htu, hstart, htimeout, hdeadline⟩ | hp
        · rw [htu, hstart, hdeadline, htimeout]
          exact ⟨_, called_self rfl hcur, rfl, rfl⟩
        · exact hold (thinking_parked hp)

end Runs

/-! ## The contract -/

section Contract

variable [KernelLayout] {k₀ k k' : Kernel} {tr : List Transition} {event : Event} {t : ℕ} {v : ℤ}

omit [KernelLayout] in
/-- The event is a turn of a wait of the task: its call, or going on with it. -/
def WaitsIn (event : Event) (k k' : Kernel) (t : ℕ) : Prop :=
  (∃ timeoutMs, event = .syscall (.agentWait timeoutMs) ∧ k.current = some t) ∨
    (event = .schedule ∧ k'.current = some t)

/-- **A wait that returns** reports what is pending and looked for, and consumes what it reports. When
that is nothing, the time of the wait is up. -/
theorem step_wait_returns (hc : Coherent k.sched) (hstep : (step event).Returns k (some v) k')
    (hwait : WaitsIn event k k' t) :
    ∃ startMs timeoutMs, ((event = .syscall (.agentWait timeoutMs) ∧ k.current = some t ∧
        startMs = toI64 (k.machine.ms 0)) ∨
        (k.current = none ∧ ∃ deadline, Parked k t startMs timeoutMs deadline)) ∧
      ((v = -4 ∧ k.extOf t = none) ∨ ∃ ext, k.extOf t = some ext ∧ v = ext.triggered ∧
        k'.extOf t = some { ext.consume with loopState := .idle } ∧
        (ext.triggered = 0 → 0 ≤ timeoutMs ∧ ∃ n,
          timeoutMs ≤ toI64 (toI64 (k.machine.ms n) - startMs) ∧
          k'.machine.clock = (k.machine.later (n + 1)).clock)) := by
  rcases hwait with ⟨timeoutMs, rfl, hcur⟩ | ⟨rfl, hcur⟩
  · obtain ⟨_, _, hget, h₁⟩ := Exec.returns_bind.mp hstep
    obtain ⟨_, _, hassert, hcall⟩ := Exec.returns_bind.mp h₁
    obtain ⟨rfl, rfl⟩ := Exec.returns_get.mp hget
    obtain ⟨-, rfl⟩ := Exec.returns_assert.mp hassert
    rename_i k
    obtain ⟨u, n, hu, hcases⟩ := sysAgentWait_cases hcall
    obtain rfl : t = u := Option.some.inj (hcur.symm.trans hu)
    refine ⟨_, timeoutMs, Or.inl ⟨rfl, hcur, rfl⟩, ?_⟩
    rcases hcases with ⟨hnone, hv, -⟩ | ⟨ext, hext, hturn⟩
    · exact Or.inl ⟨Option.some.inj hv, hnone⟩
    · have hext' := extOf_setExt_self (fun ext ↦ { ext with loopState := .thinking }) hext
      have hthinking : (k.thinking t n).extOf t = some { ext with loopState := .thinking } := hext'
      obtain ⟨hv, hafter, -, hzero⟩ := hturn.returned hthinking
      refine Or.inr ⟨ext, hext, hv, hafter, fun h ↦ ?_⟩
      obtain ⟨htimeout, hup, hclock⟩ := hzero h
      have hms : (k.thinking t n).machine.ms 0 = k.machine.ms n := by
        show k.machine.clock (0 + n) / 12500 = _
        rw [Nat.zero_add]
        rfl
      refine ⟨htimeout, n, hms ▸ hup, hclock.trans ?_⟩
      funext i
      show k.machine.clock (i + 1 + n) = k.machine.clock (i + (n + 1))
      congr 1
      omega
  · obtain ⟨u, k₁, hs, -, hidle, ⟨hv, -, -⟩ | ⟨startMs, timeoutMs, deadline, hcx, hcases⟩⟩ :=
      schedule_cases hc hstep
    · exact absurd hv (by simp)
    have hparked : Parked k u startMs timeoutMs deadline := by
      refine ⟨by rw [hidle]; exact (Option.some_ne_none u).symm, ?_, hcx⟩
      rw [hs.2.2.2.2.1]
      decide
    rcases hcases with ⟨hnone, hv, rfl⟩ | ⟨ext, hext, hturn⟩
    · obtain rfl : u = t := Option.some.inj (hs.1.symm.trans hcur)
      exact ⟨startMs, timeoutMs, Or.inr ⟨hidle, deadline, hparked⟩,
        Or.inl ⟨Option.some.inj hv, hnone⟩⟩
    · obtain ⟨hv, hafter, hcur', hzero⟩ := hturn.returned (hs.2.1 ▸ hext)
      obtain rfl : u = t := Option.some.inj ((hcur'.trans hs.1).symm.trans hcur)
      refine ⟨startMs, timeoutMs, Or.inr ⟨hidle, deadline, hparked⟩,
        Or.inr ⟨ext, hext, hv, hafter, fun h ↦ ?_⟩⟩
      obtain ⟨htimeout, hup, hclock⟩ := hzero h
      rw [hs.2.2.2.1] at hup hclock
      exact ⟨htimeout, 0, hup, hclock⟩

omit [KernelLayout] in
theorem toI64_of_lt {n : ℕ} (h : n < 2 ^ 63) : toI64 n = n := by
  rw [toI64, Int.bmod_eq_of_le] <;> omega

omit [KernelLayout] in
theorem toI64_sub {m n : ℕ} (hm : m < 2 ^ 63) (hn : n < 2 ^ 63) :
    toI64 (toI64 m - toI64 n) = (m : ℤ) - n := by
  rw [toI64_of_lt hm, toI64_of_lt hn, toI64, Int.bmod_eq_of_le] <;> omega

omit [KernelLayout] in
/-- What a wait of `t` that returns `v` has done, at the end of a run. It was entered at some time, and
the task was not in user mode since. It returns the events that are pending and looked for; it clears
the marks of those it returns, and no other, and leaves the messages; the loop state is idle. When
there are none, it has a timeout, and by the last reading of the clock that much time has passed since
the call (as long as both readings fit in 63 bits). -/
def WaitContract (tr : List Transition) (k k' : Kernel) (t : ℕ) (v : ℤ) : Prop :=
  (v = -4 ∧ k.extOf t = none) ∨ ∃ ext timeoutMs start,
    k.extOf t = some ext ∧ Entered tr t timeoutMs start ∧
    v = (ext.pendingEvents &&& ext.waitMask : ℕ) ∧
    k'.extOf t = some { ext with
      loopState := .idle
      heartbeatPending := ext.heartbeatPending && (v.toNat &&& eventHeartbeat = 0)
      fileEventPending := ext.fileEventPending && (v.toNat &&& eventFileModified = 0) } ∧
    (v = 0 → 0 ≤ timeoutMs ∧ ∃ n, (start < 2 ^ 63 → k.machine.ms n < 2 ^ 63 →
      (start : ℤ) + timeoutMs ≤ k.machine.ms n) ∧
      k'.machine.clock = fun i ↦ k.machine.clock (i + (n + 1)))

/-- **The contract of `sys_agent_wait`** holds of every return of every run. -/
theorem agent_wait_contract (h₀ : Starts k₀) (h : Trace k₀ tr k)
    (hstep : (step event).Returns k (some v) k') (hwait : WaitsIn event k k' t) :
    WaitContract (tr ++ [⟨k, event, some v, k'⟩]) k k' t v := by
  have hc := (h.reach (A := fun _ _ ↦ True) h₀.reachable fun _ _ ↦ trivial).sound.coherent
  obtain ⟨startMs, timeoutMs, horigin, hcases⟩ := step_wait_returns hc hstep hwait
  obtain ⟨start, hentered, hstart⟩ : ∃ start,
      Entered (tr ++ [⟨k, event, some v, k'⟩]) t timeoutMs start ∧ startMs = toI64 start := by
    rcases horigin with ⟨hevent, hcur, hstart⟩ | ⟨hidle, deadline, hparked⟩
    · exact ⟨_, (called_self (x := ⟨k, event, some v, k'⟩) hevent hcur).entered, hstart⟩
    · obtain ⟨m, hcalled, hstart, -⟩ := h.called h₀ hparked
      exact ⟨_, (hcalled.snoc hparked.1).entered, hstart⟩
  rcases hcases with ⟨hv, hnone⟩ | ⟨ext, hext, hv, hafter, hzero⟩
  · exact Or.inl ⟨hv, hnone⟩
  refine Or.inr ⟨ext, timeoutMs, start, hext, hentered, hv, ?_, fun hv0 ↦ ?_⟩
  · rw [hafter, hv]
    rfl
  · obtain ⟨htimeout, n, hup, hclock'⟩ := hzero (by omega)
    refine ⟨htimeout, n, fun hbegin hnow ↦ ?_, hclock'⟩
    rw [hstart, toI64_sub hnow hbegin] at hup
    omega

end Contract

section Sample

attribute [local instance] sampleLayout

/-- An agent waits for five milliseconds, while its child runs. -/
private def napEvents : List Event :=
  [.schedule, .syscall (.agentCreate 0), .syscall .fork, .syscall (.agentWait 5), .schedule, .timer,
    .schedule, .timer]

/-- The wait of the agent times out. -/
theorem agent_wait_contract_timeout :
    let k := (sampleRun sampleElf napEvents).2
    let k' := (step .schedule k).2
    WaitContract (transitions (sampleStart sampleElf) napEvents ++ [⟨k, .schedule, some 0, k'⟩])
      k k' 0 0 :=
  agent_wait_contract (starts_sampleStart (by decide +kernel))
    (trace_sampleRun (by decide +kernel)) (Exec.returns_of_fst (by decide +kernel))
    (Or.inr ⟨rfl, by decide +kernel⟩)

end Sample

end Kernel

end AgentOS
