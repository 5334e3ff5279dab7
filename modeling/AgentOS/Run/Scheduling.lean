import AgentOS.Run.Trace

/-!
# Every task is in one place

The kernel schedules as a scheduler does: what an event does to the processor, the ready queue, the list
of blocked agents and the status of the tasks is a sequence of the steps of `Scheduler`. So every task
is where its status says, in every state of every run.
-/

namespace AgentOS

open Scheduler

namespace Kernel

/-! ## Small effects -/

section Quiet

variable {event : Event} {k k' : Kernel}

theorem area_heartbeat {now : ℕ} {ext ext' : AgentExt}
    (h : AgentExt.heartbeat now ext = some ext') : ext'.area = ext.area := by
  unfold AgentExt.heartbeat at h
  split at h
  · obtain rfl := Option.some.inj h
    rfl
  · exact absurd h (by simp)

theorem area_fileEvent {ext ext' : AgentExt} (h : AgentExt.fileEvent ext = some ext') :
    ext'.area = ext.area := by
  unfold AgentExt.fileEvent at h
  split at h
  · obtain rfl := Option.some.inj h
    rfl
  · exact absurd h (by simp)

theorem frame_notify {mark : AgentExt → Option AgentExt}
    (hmark : ∀ ext ext', mark ext = some ext' → ext'.area = ext.area) (ts : List ℕ) (k : Kernel) :
    Frame k (k.notify mark ts) := by
  rw [notify_eq]
  exact (marks_markAgents hmark ts (k, [])).frame.trans (wakes_foldl_wakeAgentByPid _ _).frame

private theorem area_of_sansPath {ext ext' : AgentExt} (h : ext'.sansPath = ext.sansPath) :
    ext'.area = ext.area := by
  have harea := congrArg AgentExt.area h
  exact harea

/-- **Small effects** leave processes, address spaces and the page allocator as they are. -/
theorem Quiet.frame (h : Quiet event k k') : Frame k k' := by
  cases h with
  | machine hm => exact ⟨hm, rfl, rfl, rfl, rfl⟩
  | path hcur hf =>
    exact Frame.setExt fun ext hext ↦ area_of_sansPath (hf ext hext)
  | heartbeatSet hcur => exact Frame.setExt fun _ _ ↦ rfl
  | heartbeatStop hcur => exact Frame.setExt fun _ _ ↦ rfl
  | watch hcur => exact Frame.setExt fun _ _ ↦ rfl
  | unwatch hcur => exact Frame.setExt fun _ _ ↦ rfl
  | consume hwaits hcur hext =>
    refine Frame.setExt fun e he ↦ ?_
    obtain rfl := Option.some.inj (hext.symm.trans he)
    rfl
  | priority => exact Frame.setTask fun _ _ ↦ rfl
  | store => exact ⟨rfl, rfl, rfl, rfl, rfl⟩
  | @deliver _ _ t pid ext payload hpid hext hroom =>
    have haccept : Frame k (k.setExt t (AgentExt.accept payload)) := Frame.setExt fun _ _ ↦ rfl
    have hwake := (wakes_wakeAgentByPid { k.setExt t (AgentExt.accept payload) with
      history := k.history ++ [MailEvent.accepted t payload ext.evicted] } pid).frame
    have hlogged : Frame k { k.setExt t (AgentExt.accept payload) with
        history := k.history ++ [MailEvent.accepted t payload ext.evicted] } :=
      ⟨rfl, rfl, rfl, rfl, haccept.coreOf⟩
    exact hlogged.trans hwake
  | @receive _ _ t n ext msg rest hcur hext hmsg =>
    have htake : Frame k (k.setExt t fun ext ↦ { ext with mailbox := rest }) :=
      Frame.setExt fun _ _ ↦ rfl
    exact ⟨rfl, rfl, rfl, rfl, htake.coreOf⟩
  | heartbeats => exact frame_notify (fun _ _ ↦ area_heartbeat) _ _
  | fileEvents => exact frame_notify (fun _ _ ↦ area_fileEvent) _ _
  | timeouts => exact (wakes_tickWakeTimeouts _ _).frame
  | @suspend _ _ t hcur =>
    have hcore := coreOf_setTask (k := { k with current := none }) (t := t)
      (f := fun tcb ↦ { tcb with taskStatus := .ready, taskCx := .trapReturn }) fun _ _ ↦ rfl
    exact ⟨rfl, rfl, rfl, rfl, hcore⟩
  | @block _ _ t cx deadline ext hwaits hcur hext hnone =>
    have hcore := coreOf_setTask (k := { k with current := none }) (t := t)
      (f := fun tcb ↦ { tcb with taskStatus := .blocked, taskCx := cx }) fun _ _ ↦ rfl
    exact ⟨rfl, rfl, rfl, rfl, hcore⟩
  | @run _ k₁ t hidle hfetch hlive =>
    obtain ⟨rest, -, rfl⟩ := fetchTask_eq_some hfetch
    have hcore := coreOf_setTask (k := { k with readyQueue := rest }) (t := t)
      (f := fun tcb ↦ { tcb with taskStatus := .running }) fun _ _ ↦ rfl
    exact ⟨rfl, rfl, rfl, rfl, hcore⟩

private theorem moves_notify {mark : AgentExt → Option AgentExt}
    (hmark : ∀ ext ext', mark ext = some ext' → ext'.area = ext.area) (ts : List ℕ)
    (hc : Coherent k.sched) : Moves k.sched (k.notify mark ts).sched := by
  have hsched := (marks_markAgents hmark ts (k, [])).sched
  have hmoves := (wakes_foldl_wakeAgentByPid (markAgents mark ts (k, [])).2
    (markAgents mark ts (k, [])).1).moves
  rw [hsched] at hmoves
  exact hmoves hc

/-- **Small effects move tasks**, as a scheduler does. -/
theorem Quiet.moves (hc : Coherent k.sched) (h : Quiet event k k') : Moves k.sched k'.sched := by
  have stay : ∀ {t : ℕ} {f : AgentExt → AgentExt}, (k.setExt t f).sched = k.sched :=
    sched_setTask fun _ _ ↦ rfl
  have live : ∀ {t : ℕ}, k.current = some t → k.tasks t ≠ none := by
    intro t hcur hnone
    have := (hc.current_iff t).mp hcur
    simp [sched, hnone] at this
  cases h with
  | machine hm => exact .refl
  | path hcur hf => rw [stay]
  | heartbeatSet hcur => rw [stay]
  | heartbeatStop hcur => rw [stay]
  | watch hcur => rw [stay]
  | unwatch hcur => rw [stay]
  | consume hwaits hcur hext => rw [stay]
  | @priority _ _ t p =>
    rw [sched_setTask (t := t) (f := fun tcb ↦ { tcb with priority := p }) fun _ _ ↦ rfl]
  | store => exact .refl
  | @deliver _ _ t pid ext payload hpid hext hroom =>
    have hmoves := (wakes_wakeAgentByPid { k.setExt t (AgentExt.accept payload) with
      history := k.history ++ [MailEvent.accepted t payload ext.evicted] } pid).moves
    have hsched : ({ k.setExt t (AgentExt.accept payload) with
        history := k.history ++ [MailEvent.accepted t payload ext.evicted] }).sched = k.sched := stay
    rw [hsched] at hmoves
    exact hmoves hc
  | @receive _ _ t n ext msg rest hcur hext hmsg =>
    have hsched : ({ k.setExt t fun ext ↦ { ext with mailbox := rest } with
        history := k.history ++ [MailEvent.received t msg n] }).sched = k.sched := stay
    rw [hsched]
  | heartbeats => exact moves_notify (fun _ _ ↦ area_heartbeat) _ hc
  | fileEvents => exact moves_notify (fun _ _ ↦ area_fileEvent) _ hc
  | timeouts => exact (wakes_tickWakeTimeouts _ _).moves hc
  | @suspend _ _ t hcur =>
    refine .single ?_
    convert Move.suspend (s := k.sched) hcur using 1
    refine Sched.ext ?_ rfl (Multiset.coe_eq_coe.mpr (List.perm_append_singleton t _)) rfl
    exact place_setTask (k := { k with current := none }) (s := .ready) (live hcur) fun _ ↦ rfl
  | @block _ _ t cx deadline ext hwaits hcur hext hnone =>
    refine .single ?_
    convert Move.block (s := k.sched) hcur using 1
    refine Sched.ext ?_ rfl rfl ?_
    · exact place_setTask (k := { k with current := none }) (s := .blocked) (live hcur) fun _ ↦ rfl
    · show (((k.blockedAgents ++ [BlockedEntry.mk t deadline]).map BlockedEntry.task : List ℕ) :
        Multiset ℕ) = _
      rw [List.map_append, List.map_singleton]
      exact Multiset.coe_eq_coe.mpr (List.perm_append_singleton t _)
  | @run _ k₁ t hidle hfetch hlive =>
    obtain ⟨rest, hperm, rfl⟩ := fetchTask_eq_some hfetch
    have hready : k.sched.ready = t ::ₘ ↑rest := Multiset.coe_eq_coe.mpr hperm.symm
    refine .single ?_
    convert Move.dispatch (s := k.sched) hidle hready using 1
    refine Sched.ext ?_ rfl rfl rfl
    exact place_setTask (k := { k with readyQueue := rest }) (s := .running) hlive fun _ ↦ rfl

end Quiet

/-! ## Large effects -/

/-- The blocks after the current task was buried. -/
theorem tasks_buried (k : Kernel) (t : ℕ) (exitCode : ℤ) (cs : List ℕ) (u : ℕ) :
    (k.buried t exitCode cs).tasks u = (k.tasks u).map fun tcb ↦
      { tcb with
        taskStatus := if u = t then .zombie else tcb.taskStatus
        exitCode := if u = t then exitCode else tcb.exitCode
        parent := if u ∈ cs then some initproc else tcb.parent
        children := if u = t then [] else if u = initproc then tcb.children ++ cs
          else tcb.children } := by
  rw [buried, setTask_tasks, tasks_adopt, tasks_adopt, setTask_tasks_self]
  rcases eq_or_ne u t with rfl | hne
  · cases k.tasks u <;> simp
  · rw [if_neg hne, setTask_tasks_of_ne _ _ _ hne]
    cases k.tasks u <;> simp [hne]

theorem buried_eq (k : Kernel) (t : ℕ) (exitCode : ℤ) (cs : List ℕ) :
    k.buried t exitCode cs =
      { k with current := none, tasks := (k.buried t exitCode cs).tasks } := by
  have h := adopt_eq ({ k with current := none }.setTask t fun tcb ↦
    { tcb with taskStatus := .zombie, exitCode := exitCode }) initproc cs
  unfold buried
  rw [h]
  rfl

/-- References that were not given out refer to nothing. -/
def Fresh (k : Kernel) : Prop := ∀ t, k.nextTask ≤ t → k.tasks t = none

/-- A new block is a new task in the ready queue. -/
theorem sched_spawn {k : Kernel} (hfresh : Fresh k) {tcb : TaskControlBlock}
    (hready : tcb.taskStatus = .ready) : Step k.sched (k.spawn tcb).sched := by
  have hnew : k.sched.place k.nextTask = none := by
    show (k.tasks k.nextTask).map _ = none
    rw [hfresh _ le_rfl]
    rfl
  convert Step.arrive hnew using 1
  refine Sched.ext ?_ rfl (Multiset.coe_eq_coe.mpr (List.perm_append_singleton _ _)) rfl
  funext u
  rcases eq_or_ne u k.nextTask with rfl | hne
  · simp [sched, spawn, hready, TaskStatus.place]
  · simp [sched, spawn, hne]

variable [KernelLayout] {event : Event} {k k' : Kernel}

/-- **A large effect is a step of a scheduler**, or none. -/
theorem Change.step (hfresh : Fresh k) (h : Change event k k') :
    k'.sched = k.sched ∨ Step k.sched k'.sched := by
  cases h with
  | @create cfgPtr _ t tcb ms m m' area hcur htcb hext halloc hm =>
    exact Or.inl (sched_setTask (k := k) (t := t)
      (f := fun tcb ↦ { tcb with memorySet := ms, agentExt := some freshExt }) fun _ _ ↦ rfl)
  | @load _ t sp entry trapCx tcb elf ms m m' hcur htcb hload hdrop =>
    exact Or.inl (sched_setTask (k := k) (t := t)
      (f := fun tcb ↦ { tcb with memorySet := ms, trapCxPpn := trapCx }) fun _ _ ↦ rfl)
  | @fork _ t pid trapCx parent ms ks m m' pa hcur htcb hcopy hpid hstack =>
    rw [sched_setTask (f := fun tcb ↦
      { tcb with children := tcb.children ++ [k.nextTask] }) fun _ _ ↦ rfl]
    exact Or.inr (sched_spawn (k := { k with machine := m', pidAllocator := pa, kernelSpace := ks })
      hfresh rfl)
  | @exit _ _ t exitCode tcb ms m hcur htcb hpid hrecycle =>
    refine Or.inr ?_
    have hmemory : ({ (k.buried t exitCode tcb.children).setTask t fun tcb ↦
        { tcb with memorySet := ms } with machine := m }).sched =
        (k.buried t exitCode tcb.children).sched :=
      sched_setTask (k := k.buried t exitCode tcb.children) (t := t)
        (f := fun tcb ↦ { tcb with memorySet := ms }) fun _ _ ↦ rfl
    rw [hmemory]
    convert Step.finish (s := k.sched) hcur using 1
    refine Sched.ext ?_ ?_ ?_ ?_
    · funext u
      show ((k.buried t exitCode tcb.children).tasks u).map _ = _
      rw [tasks_buried]
      rcases eq_or_ne u t with rfl | hne
      · simp [htcb, TaskStatus.place]
      · simp [sched, hne, Option.map_map, Function.comp_def]
    all_goals rw [buried_eq]; rfl
  | @reap pid exitCodePtr _ t c idx parent child m m₁ m₂ pa ks hcur htcb hc' hchild hzombie hm hpid
      hstack hdrop =>
    refine Or.inr ?_
    have hsched : (k.disown t idx).sched = k.sched := sched_setTask fun _ _ ↦ rfl
    have hplace : k.sched.place c = some .finished := by
      rw [← hsched]
      show ((k.disown t idx).tasks c).map _ = _
      rw [hchild]
      simp [hzombie, TaskStatus.place]
    convert Step.reap hplace using 1
    rw [← hsched]
    refine Sched.ext ?_ rfl rfl rfl
    funext u
    rcases eq_or_ne u c with rfl | hne
    · simp [sched]
    · simp [sched, hne]

omit [KernelLayout] in
theorem Fresh.of_frame (h : Fresh k) (hf : Frame k k') : Fresh k' := by
  intro t ht
  have hcore := congrFun hf.coreOf t
  rw [hf.nextTask] at ht
  rw [coreOf, coreOf, h t ht, Option.map_none] at hcore
  exact Option.map_eq_none_iff.mp hcore

theorem Fresh.change (h : Fresh k) (hc : Change event k k') : Fresh k' := by
  have live : ∀ {t : ℕ} {tcb : TaskControlBlock}, k.tasks t = some tcb → t < k.nextTask := by
    intro t tcb htcb
    by_contra hle
    exact absurd htcb (by simp [h t (not_lt.mp hle)])
  intro u hu
  cases hc with
  | create hcur htcb =>
    have hne := (live htcb).trans_le hu
    exact (setTask_tasks_of_ne k _ _ hne.ne').trans (h u hu)
  | load hcur htcb =>
    have hne := (live htcb).trans_le hu
    exact (setTask_tasks_of_ne k _ _ hne.ne').trans (h u hu)
  | fork hcur htcb =>
    have hu : k.nextTask + 1 ≤ u := hu
    have hle : k.nextTask ≤ u := Nat.le_of_succ_le hu
    have hnew : u ≠ k.nextTask := (Nat.lt_of_succ_le hu).ne'
    refine (setTask_tasks_of_ne _ _ _ ((live htcb).trans_le hle).ne').trans ?_
    exact (if_neg hnew).trans (h u hle)
  | @exit _ _ t exitCode tcb ms m hcur htcb =>
    have hu : k.nextTask ≤ u := by
      have heq := congrArg Kernel.nextTask (buried_eq k t exitCode tcb.children)
      exact heq ▸ hu
    have hne := (live htcb).trans_le hu
    refine (setTask_tasks_of_ne _ _ _ hne.ne').trans ?_
    rw [tasks_buried, h u hu]
    rfl
  | reap hcur htcb =>
    have hne := (live htcb).trans_le hu
    simp only
    split
    · rfl
    · exact (setTask_tasks_of_ne _ _ _ hne.ne').trans (h u hu)

/-! ## Runs -/

/-- What all statements about the tasks of a run rest on. -/
structure Sound (k : Kernel) : Prop where
  coherent : Coherent k.sched
  fresh : Fresh k

omit [KernelLayout] in
theorem Sound.quiet (h : Sound k) (hq : Quiet event k k') : Sound k' :=
  ⟨h.coherent.moves (hq.moves h.coherent), h.fresh.of_frame hq.frame⟩

theorem Sound.change (h : Sound k) (hc : Change event k k') : Sound k' := by
  refine ⟨?_, h.fresh.change hc⟩
  rcases hc.step h.fresh with heq | hstep
  · rw [heq]
    exact h.coherent
  · exact h.coherent.step hstep

theorem Sound.boot {k₀ : Kernel} {elf : Elf} (h₀ : k₀.Initial) (h : Booted elf k₀ k) : Sound k := by
  obtain ⟨hload, hpid, hstack⟩ := h
  rename_i ms ks m m' pa
  have hfresh : Fresh { k₀ with machine := m', pidAllocator := pa, kernelSpace := ks } :=
    fun t _ ↦ h₀.tasks t
  have hempty : Coherent
      (Kernel.sched { k₀ with machine := m', pidAllocator := pa, kernelSpace := ks }) := by
    refine ⟨fun t ↦ ?_, fun t ↦ ?_, fun t ↦ ?_⟩
    · simp [sched, h₀.tasks, h₀.current]
    · simp [sched, h₀.tasks, h₀.readyQueue]
    · simp [sched, h₀.tasks, h₀.blockedAgents]
  refine ⟨hempty.step (sched_spawn hfresh rfl), fun t ht ↦ ?_⟩
  have ht : k₀.nextTask + 1 ≤ t := ht
  exact (if_neg (by simp only; omega)).trans (h₀.tasks t)

theorem Reach.sound {boots : Elf → Prop} {allowed : Kernel → Event → Prop}
    (h : Reach boots allowed k) : Sound k :=
  h.invariant (fun _ _ _ h₀ _ hboot ↦ .boot h₀ hboot) (fun _ _ _ hk hq ↦ hk.quiet hq)
    fun _ _ _ hk _ hc ↦ hk.change hc

omit [KernelLayout] in
theorem sched_place {t : ℕ} {tcb : TaskControlBlock} (h : k.tasks t = some tcb)
    (s : TaskStatus) : k.sched.place t = some s.place ↔ tcb.taskStatus = s := by
  show (k.tasks t).map _ = _ ↔ _
  rw [h, Option.map_some, Option.some.injEq]
  exact TaskStatus.place_injective.eq_iff

/-- A task is in one place, or it ended and is in none, and its status says so. -/
structure Placed (k : Kernel) (t : ℕ) (tcb : TaskControlBlock) : Prop where
  running_iff : tcb.taskStatus = .running ↔ k.current = some t
  ready_iff : tcb.taskStatus = .ready ↔ k.readyQueue.count t = 1
  blocked_iff : tcb.taskStatus = .blocked ↔ (k.blockedAgents.map BlockedEntry.task).count t = 1
  zombie_iff : tcb.taskStatus = .zombie ↔ k.current ≠ some t ∧ t ∉ k.readyQueue ∧
    t ∉ k.blockedAgents.map BlockedEntry.task
  places : (if k.current = some t then 1 else 0) + k.readyQueue.count t +
    (k.blockedAgents.map BlockedEntry.task).count t = if tcb.taskStatus = .zombie then 0 else 1

omit [KernelLayout] in
theorem placed_of_coherent (h : Coherent k.sched) {t : ℕ} {tcb : TaskControlBlock}
    (htcb : k.tasks t = some tcb) : Placed k t tcb := by
  have hcur : k.current = some t ↔ tcb.taskStatus = .running :=
    (h.current_iff t).trans (sched_place htcb .running)
  have hready : k.readyQueue.count t = if tcb.taskStatus = .ready then 1 else 0 := by
    have hcount := (h.ready_count t).trans (if_congr (sched_place htcb .ready) rfl rfl)
    rwa [sched, Multiset.coe_count] at hcount
  have hblocked : (k.blockedAgents.map BlockedEntry.task).count t =
      if tcb.taskStatus = .blocked then 1 else 0 := by
    have hcount := (h.blocked_count t).trans (if_congr (sched_place htcb .blocked) rfl rfl)
    rwa [sched, Multiset.coe_count] at hcount
  have hqueue : t ∈ k.readyQueue ↔ tcb.taskStatus = .ready := by
    rw [← List.count_pos_iff, hready]
    split <;> simp_all
  have hsleep : t ∈ k.blockedAgents.map BlockedEntry.task ↔ tcb.taskStatus = .blocked := by
    rw [← List.count_pos_iff, hblocked]
    split <;> simp_all
  refine ⟨hcur.symm, ?_, ?_, ?_, ?_⟩
  · rw [hready]
    split <;> simp_all
  · rw [hblocked]
    split <;> simp_all
  · rw [Ne, hcur, hqueue, hsleep]
    cases tcb.taskStatus <;> simp
  · rw [hready, hblocked, if_congr hcur rfl rfl]
    cases tcb.taskStatus <;> simp

/-- **Every task is in one place.** In every state of every run, each process that was not reaped is
where its status says and nowhere else, only such processes are current, queued or asleep, and the
task that `run_tasks` takes next is a ready one. -/
theorem reachable_placed (h : Reachable k) :
    (∀ t tcb, k.tasks t = some tcb → Placed k t tcb) ∧
      (∀ t, k.current = some t ∨ t ∈ k.readyQueue ∨ t ∈ k.blockedAgents.map BlockedEntry.task →
        k.tasks t ≠ none) ∧
      ∀ t k₁, k.fetchTask = some (t, k₁) → ∃ tcb, k.tasks t = some tcb ∧ tcb.taskStatus = .ready := by
  have hc := h.sound.coherent
  have live : ∀ {t : ℕ} {p : Place}, k.sched.place t = some p → k.tasks t ≠ none := by
    intro t p hp hnone
    exact absurd hp (by simp [sched, hnone])
  refine ⟨fun t tcb ↦ placed_of_coherent hc, fun t ht ↦ ?_, fun t k₁ hfetch ↦ ?_⟩
  · rcases ht with hcur | hready | hblocked
    · exact live ((hc.current_iff t).mp hcur)
    · exact live (hc.place_of_mem_ready (Multiset.mem_coe.mpr hready))
    · exact live (hc.place_of_mem_blocked (Multiset.mem_coe.mpr hblocked))
  · obtain ⟨rest, hperm, -⟩ := fetchTask_eq_some hfetch
    have hplace := hc.place_of_mem_ready
      (Multiset.mem_coe.mpr (hperm.subset List.mem_cons_self))
    obtain ⟨tcb, htcb⟩ := Option.ne_none_iff_exists'.mp (live hplace)
    exact ⟨tcb, htcb, (sched_place htcb .ready).mp hplace⟩

omit [KernelLayout] in
/-- The first process becomes an agent, has a child, and is suspended. -/
theorem reachable_placed_two_tasks :
    let k := (sampleRun sampleElf
      [.schedule, .syscall (.agentCreate 0), .syscall .fork, .timer]).2
    (∀ t tcb, k.tasks t = some tcb → Placed k t tcb) ∧
      (∀ t, k.current = some t ∨ t ∈ k.readyQueue ∨ t ∈ k.blockedAgents.map BlockedEntry.task →
        k.tasks t ≠ none) ∧
      ∀ t k₁, k.fetchTask = some (t, k₁) →
        ∃ tcb, k.tasks t = some tcb ∧ tcb.taskStatus = .ready :=
  @reachable_placed sampleLayout _
    (reach_sampleRun (by decide +kernel) (by decide +kernel) trivial fun _ _ _ ↦ trivial)

end Kernel

end AgentOS
