import AgentOS.Run.Agents

/-!
# No wake-up is lost

An agent that sleeps has no event to report. Whoever marks an agent wakes it afterwards, by its process
identifier, and no other process has that identifier. In between, the agents still to be woken are
those whose identifiers were collected.
-/

namespace AgentOS

open Scheduler

namespace Kernel

/-- The agents that sleep have no event to report, or are about to be woken. -/
def Owes (k : Kernel) (pids : List ℕ) : Prop :=
  ∀ t ext, k.sched.place t = some .blocked → k.extOf t = some ext →
    ext.triggered = 0 ∨ ∃ p ∈ pids, k.pidOf t = some p

/-- No agent sleeps that has an event to report. -/
def NoLost (k : Kernel) : Prop :=
  ∀ t ext, k.sched.place t = some .blocked → k.extOf t = some ext → ext.triggered = 0

/-- What waking by identifier rests on. -/
structure Named (k : Kernel) : Prop where
  coherent : Coherent k.sched
  pid_inj : ∀ t u p, k.pidOf t = some p → k.pidOf u = some p → t = u

section Waking

variable {k k' : Kernel}

theorem Family.named (h : Family k) : Named k := ⟨h.coherent, h.pid_inj⟩

theorem pidOf_of_frame (h : Frame k k') : k'.pidOf = k.pidOf := funext fun t ↦ by
  rw [pidOf_eq, pidOf_eq, h.coreOf]

theorem Named.wakes (h : Named k) (hw : Wakes k k') : Named k' := by
  refine ⟨h.coherent.moves (hw.moves h.coherent), ?_⟩
  rw [pidOf_of_frame hw.frame]
  exact h.pid_inj

theorem Named.marks (h : Named k) (hm : Marks k k') : Named k' := by
  refine ⟨hm.sched ▸ h.coherent, ?_⟩
  rw [pidOf_of_frame hm.frame]
  exact h.pid_inj

/-- After waking by the identifier of a process, it does not sleep. -/
theorem Named.place_wakeAgentByPid (h : Named k) {t pid : ℕ} (hpid : k.pidOf t = some pid) :
    (k.wakeAgentByPid pid).sched.place t ≠ some .blocked := by
  intro hblocked
  have hold : k.sched.place t = some .blocked := by
    rcases (wakes_wakeAgentByPid k pid).place t with heq | hready
    · rwa [heq] at hblocked
    · rw [hready] at hblocked
      exact absurd hblocked (by decide)
  have hmem : t ∈ k.blockedAgents.map BlockedEntry.task :=
    Multiset.mem_coe.mp (h.coherent.mem_blocked hold)
  rcases wakeAgentByPid_cases k pid with ⟨hnone, -⟩ | ⟨e, rest, -, he, heq⟩
  · obtain ⟨e, he, rfl⟩ := List.mem_map.mp hmem
    exact hnone e he hpid
  · obtain rfl := h.pid_inj e.task t pid he hpid
    have hlive : k.tasks e.task ≠ none := by
      intro hnone
      exact absurd hold (by simp [sched, hnone])
    have hready : (k.wakeAgentByPid pid).sched.place e.task = some .ready := by
      rw [heq]
      have hplace := place_setTask (k := { k with blockedAgents := rest }) (t := e.task)
        (f := fun tcb ↦ { tcb with taskStatus := .ready }) (s := .ready) hlive fun _ ↦ rfl
      exact (congrFun hplace _).trans (Function.update_self ..)
    rw [hready] at hblocked
    exact absurd hblocked (by decide)

/-- Waking pays off one identifier. -/
theorem Owes.wakeAgentByPid (h : Named k) {pid : ℕ} {pids : List ℕ} (ho : Owes k (pid :: pids)) :
    Owes (k.wakeAgentByPid pid) pids := by
  have hw := wakes_wakeAgentByPid k pid
  intro t ext hblocked hext
  have hold : k.sched.place t = some .blocked := by
    rcases hw.place t with heq | hready
    · rwa [heq] at hblocked
    · rw [hready] at hblocked
      exact absurd hblocked (by decide)
  rw [hw.extOf] at hext
  rw [pidOf_of_frame hw.frame]
  rcases ho t ext hold hext with hzero | ⟨p, hp, hpid⟩
  · exact Or.inl hzero
  · rcases List.mem_cons.mp hp with rfl | hp
    · exact absurd hblocked (h.place_wakeAgentByPid hpid)
    · exact Or.inr ⟨p, hp, hpid⟩

/-- **Waking all of them** leaves no agent asleep that has an event to report. -/
theorem Owes.foldl_wakeAgentByPid (h : Named k) {pids : List ℕ} (ho : Owes k pids) :
    NoLost (pids.foldl Kernel.wakeAgentByPid k) := by
  induction pids generalizing k with
  | nil =>
    intro t ext hblocked hext
    refine (ho t ext hblocked hext).resolve_right ?_
    rintro ⟨p, hp, -⟩
    exact List.not_mem_nil hp
  | cons pid pids ih => exact ih (h.wakes (wakes_wakeAgentByPid k pid)) (ho.wakeAgentByPid h)

/-- Whoever is marked is owed a wake-up. -/
theorem Owes.setExt {pids : List ℕ} (ho : Owes k pids) {t pid : ℕ} {f : AgentExt → AgentExt}
    (hpid : k.pidOf t = some pid) : Owes (k.setExt t f) (pids ++ [pid]) := by
  have hsched : (k.setExt t f).sched = k.sched := sched_setTask fun _ _ ↦ rfl
  have hpids : (k.setExt t f).pidOf = k.pidOf :=
    funext <| map_tasks_setTask k t _ fun _ _ ↦ rfl
  intro u ext hblocked hext
  rw [hsched] at hblocked
  rw [hpids]
  rcases eq_or_ne u t with rfl | hne
  · exact Or.inr ⟨pid, List.mem_append_right _ (List.mem_singleton.mpr rfl), hpid⟩
  · rw [extOf_setExt, if_neg hne] at hext
    rcases ho u ext hblocked hext with hzero | ⟨p, hp, hpu⟩
    · exact Or.inl hzero
    · exact Or.inr ⟨p, List.mem_append_left _ hp, hpu⟩

theorem Owes.markAgents {mark : AgentExt → Option AgentExt} (ts : List ℕ)
    {a : Kernel × List ℕ} (ho : Owes a.1 a.2) :
    Owes (Kernel.markAgents mark ts a).1 (Kernel.markAgents mark ts a).2 := by
  induction ts generalizing a with
  | nil => exact ho
  | cons t ts ih =>
    rw [markAgents_cons]
    refine ih ?_
    rcases markOne_cases mark t a with ⟨-, heq⟩ | ⟨ext, ext', hext, -, heq⟩
    · rwa [heq]
    · rw [heq]
      obtain ⟨tcb, htcb, -⟩ := extOf_eq_some.mp hext
      have hpid := pidOf_of_tasks htcb
      rw [hpid]
      exact ho.setExt hpid

theorem NoLost.owes (h : NoLost k) (pids : List ℕ) : Owes k pids :=
  fun t ext hblocked hext ↦ Or.inl (h t ext hblocked hext)

/-- **Marking and waking** leaves no agent asleep that has an event to report. -/
theorem NoLost.notify (h : NoLost k) (hk : Named k) {mark : AgentExt → Option AgentExt}
    (hmark : ∀ ext ext', mark ext = some ext' → ext'.area = ext.area) (ts : List ℕ) :
    NoLost (k.notify mark ts) := by
  rw [notify_eq]
  exact ((h.owes []).markAgents (a := (k, [])) ts).foldl_wakeAgentByPid
    (hk.marks (marks_markAgents hmark ts (k, [])))

end Waking

/-! ## Effects -/

section Effects

variable {event : Event} {k k' : Kernel}

/-- Whoever sleeps was asleep before, with the same extension. -/
theorem NoLost.of_sleepers (h : NoLost k) (hsame : ∀ t, k'.sched.place t = some .blocked →
    k.sched.place t = some .blocked ∧ k'.extOf t = k.extOf t) : NoLost k' := by
  intro t ext hblocked hext
  obtain ⟨hold, heq⟩ := hsame t hblocked
  exact h t ext hold (heq ▸ hext)

/-- The current task does not sleep. -/
theorem NoLost.setExt_current (h : NoLost k) (hc : Coherent k.sched) {t : ℕ}
    (hcur : k.current = some t) (f : AgentExt → AgentExt) : NoLost (k.setExt t f) := by
  have hsched : (k.setExt t f).sched = k.sched := sched_setTask fun _ _ ↦ rfl
  refine h.of_sleepers fun u hu ↦ ?_
  rw [hsched] at hu
  have hne : u ≠ t := by
    rintro rfl
    rw [(hc.current_iff u).mp hcur] at hu
    exact absurd hu (by decide)
  exact ⟨hu, by rw [extOf_setExt, if_neg hne]⟩

theorem NoLost.quiet (h : NoLost k) (hk : Named k) (hq : Quiet event k k') : NoLost k' := by
  cases hq with
  | machine hm => exact h
  | path hcur hf => exact h.setExt_current hk.coherent hcur _
  | heartbeatSet hcur => exact h.setExt_current hk.coherent hcur _
  | heartbeatStop hcur => exact h.setExt_current hk.coherent hcur _
  | watch hcur => exact h.setExt_current hk.coherent hcur _
  | unwatch hcur => exact h.setExt_current hk.coherent hcur _
  | consume hwaits hcur hext => exact h.setExt_current hk.coherent hcur _
  | @priority _ _ t p =>
    have hsched := sched_setTask (k := k) (t := t) (f := fun tcb ↦ { tcb with priority := p })
      fun _ _ ↦ rfl
    have hext := extOf_setTask (k := k) (t := t) (f := fun tcb ↦ { tcb with priority := p })
      fun _ _ ↦ rfl
    exact h.of_sleepers fun u hu ↦ ⟨hsched ▸ hu, congrFun hext u⟩
  | store => exact h
  | @deliver _ _ t pid ext payload hpid hext hroom =>
    have hmarks : Marks k (k.setExt t (AgentExt.accept payload)) := Marks.setExt fun _ _ ↦ rfl
    have hnamed := hk.marks hmarks
    have howes : Owes (k.setExt t (AgentExt.accept payload)) [pid] :=
      (h.owes []).setExt (f := AgentExt.accept payload) hpid
    -- the record of what happened to the mailbox is no part of the kernel
    have hlogged : Named { k.setExt t (AgentExt.accept payload) with
        history := k.history ++ [MailEvent.accepted t payload ext.evicted] } :=
      ⟨hnamed.coherent, hnamed.pid_inj⟩
    exact Owes.foldl_wakeAgentByPid hlogged (show Owes _ [pid] from howes)
  | receive hcur hext hmsg => exact h.setExt_current hk.coherent hcur _
  | heartbeats => exact h.notify hk (fun _ _ ↦ area_heartbeat) _
  | fileEvents => exact h.notify hk (fun _ _ ↦ area_fileEvent) _
  | @timeouts _ _ now =>
    have hw := wakes_tickWakeTimeouts k now
    refine h.of_sleepers fun u hu ↦ ⟨?_, congrFun hw.extOf u⟩
    rcases hw.place u with heq | hready
    · rwa [heq] at hu
    · rw [hready] at hu
      exact absurd hu (by decide)
  | @suspend _ _ t hcur =>
    have hext := extOf_setTask (k := { k with current := none }) (t := t)
      (f := fun tcb ↦ { tcb with taskStatus := .ready, taskCx := .trapReturn }) fun _ _ ↦ rfl
    refine h.of_sleepers fun u hu ↦ ⟨?_, congrFun hext u⟩
    rcases place_of_setTask (k := { k with current := none }) (s := .ready) (fun _ ↦ rfl) hu with
      ⟨-, hready⟩ | ⟨-, hold⟩
    · exact absurd hready (by decide)
    · exact hold
  | @block _ _ t cx deadline ext hwaits hcur hext hnone =>
    have hexts := extOf_setTask (k := { k with current := none }) (t := t)
      (f := fun tcb ↦ { tcb with taskStatus := .blocked, taskCx := cx }) fun _ _ ↦ rfl
    intro u ext' hu hextu
    have hold : k.extOf u = some ext' := (congrFun hexts u).symm.trans hextu
    clear hextu
    rcases place_of_setTask (k := { k with current := none }) (s := .blocked) (fun _ ↦ rfl) hu with
      ⟨rfl, -⟩ | ⟨-, hplace⟩
    · obtain rfl := Option.some.inj (hext.symm.trans hold)
      exact hnone
    · exact h u ext' hplace hold
  | @run _ k₁ t hidle hfetch hlive =>
    obtain ⟨rest, -, rfl⟩ := fetchTask_eq_some hfetch
    have hext := extOf_setTask (k := { k with readyQueue := rest }) (t := t)
      (f := fun tcb ↦ { tcb with taskStatus := .running }) fun _ _ ↦ rfl
    refine h.of_sleepers fun u hu ↦ ⟨?_, congrFun hext u⟩
    rcases place_of_setTask (k := { k with readyQueue := rest }) (s := .running) (fun _ ↦ rfl) hu with
      ⟨-, hrunning⟩ | ⟨-, hold⟩
    · exact absurd hrunning (by decide)
    · exact hold

variable [KernelLayout]

theorem NoLost.change (h : NoLost k) (hk : Family k) (hc : Change event k k') : NoLost k' := by
  refine h.of_sleepers fun u hu ↦ ?_
  have hold := hc.sleeper hk.fresh hu
  refine ⟨hold, ?_⟩
  rcases hc.extOf hk.fresh u with heq | hgone | ⟨-, -, hcur, -⟩
  · exact heq
  · exact absurd hu (by simp [sched, hgone])
  · rw [(hk.coherent.current_iff u).mp hcur] at hold
    exact absurd hold (by decide)

theorem NoLost.boot {k₀ : Kernel} {elf : Elf} (h₀ : k₀.Initial) (h : Booted elf k₀ k) :
    NoLost k := by
  have hfamily := Family.boot h₀ h
  obtain ⟨hload, hpid, hstack⟩ := h
  intro t ext hblocked
  have hmem := Multiset.mem_coe.mp (hfamily.coherent.mem_blocked hblocked)
  have hnone : k₀.blockedAgents.map BlockedEntry.task = [] := by rw [h₀.blockedAgents]; rfl
  exact absurd (hnone ▸ hmem : t ∈ ([] : List ℕ)) List.not_mem_nil

theorem Reach.noLost {boots : Elf → Prop} {allowed : Kernel → Event → Prop}
    (h : Reach boots allowed k) : NoLost k := by
  have hboth : Family k ∧ NoLost k :=
    h.invariant (I := fun k ↦ Family k ∧ NoLost k)
      (fun _ _ _ h₀ _ hboot ↦ ⟨.boot h₀ hboot, .boot h₀ hboot⟩)
      (fun _ _ _ hk hq ↦ ⟨hk.1.quiet hq, hk.2.quiet hk.1.named hq⟩)
      fun _ _ _ hk _ hc ↦ ⟨hk.1.change hc, hk.2.change hk.1 hc⟩
  exact hboth.2

/-- **No lost wake-up.** In every state of every run, an agent that sleeps has no event pending that
its wait looks for. -/
theorem no_lost_wakeup (h : Reachable k) :
    ∀ t tcb ext, k.tasks t = some tcb → tcb.taskStatus = .blocked → tcb.agentExt = some ext →
      ext.pendingEvents &&& ext.waitMask = 0 :=
  fun t _ ext htcb hblocked hext ↦
    h.noLost t ext ((sched_place htcb .blocked).mpr hblocked) ((extOf_of_tasks htcb).trans hext)

omit [KernelLayout] in
/-- The first process is an agent that waits without limit. -/
theorem no_lost_wakeup_sleeping :
    let k := (sampleRun sampleElf
      [.schedule, .syscall (.agentCreate 0), .syscall (.agentWait (-1))]).2
    ∀ t tcb ext, k.tasks t = some tcb → tcb.taskStatus = .blocked → tcb.agentExt = some ext →
      ext.pendingEvents &&& ext.waitMask = 0 :=
  @no_lost_wakeup _ sampleLayout (reach_sampleRun (by decide +kernel) (by decide +kernel) trivial fun _ _ _ ↦ trivial)

end Effects

end Kernel

end AgentOS
