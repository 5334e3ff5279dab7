import AgentOS.Run.Processes

/-!
# What one event does to one agent

Statements about an agent follow its extension through a run. An event touches it in few ways: through
a call of the agent itself, through a mark that another task or the clock leaves there, or by reporting
marks to the agent. Everything else leaves it alone, and it comes into being by `sys_agent_create`.
-/

namespace AgentOS

open Scheduler

namespace Kernel

/-! ## Large effects -/

section Large

variable [KernelLayout] {event : Event} {k k' : Kernel}

/-- **A large effect on an extension:** none, unless the process is forgotten or becomes an agent. -/
theorem Change.extOf (hfresh : Fresh k) (hc : Change event k k') (u : ℕ) :
    k'.extOf u = k.extOf u ∨ k'.tasks u = none ∨
      (k.extOf u = none ∧ k'.extOf u = some freshExt ∧ k.current = some u ∧
        ∃ cfgPtr, event = .syscall (.agentCreate cfgPtr)) := by
  cases hc with
  | @create cfgPtr _ t tcb ms m m' area hcur htcb hext halloc hm =>
    rcases eq_or_ne u t with rfl | hne
    · refine Or.inr (Or.inr ⟨(extOf_of_tasks htcb).trans hext, ?_, hcur, cfgPtr, rfl⟩)
      have hself := setTask_tasks_self k u fun tcb ↦
        { tcb with memorySet := ms, agentExt := some freshExt }
      rw [htcb] at hself
      exact extOf_of_tasks hself
    · exact Or.inl (congrArg (Option.bind · _) (setTask_tasks_of_ne k t _ hne))
  | @load _ t sp entry trapCx tcb elf ms m m' hcur htcb hload hdrop =>
    have hext := extOf_setTask (k := k) (t := t)
      (f := fun tcb ↦ { tcb with memorySet := ms, trapCxPpn := trapCx }) fun _ _ ↦ rfl
    exact Or.inl (congrFun hext u)
  | @fork _ t pid trapCx parent ms ks m m' pa hcur htcb hcopy hpid hstack =>
    refine Or.inl ?_
    have hne : t ≠ k.nextTask := by
      rintro rfl
      rw [hfresh _ le_rfl] at htcb
      exact absurd htcb (by simp)
    have hs := spawned_spawn (k := { k with machine := m', pidAllocator := pa, kernelSpace := ks })
      hne (freshTask pid trapCx ms (some t) parent.priority)
    rw [Kernel.extOf, hs, Kernel.extOf]
    rcases eq_or_ne u k.nextTask with rfl | hun
    · rw [if_pos rfl, hfresh _ le_rfl]
      rfl
    · rw [if_neg hun]
      split
      · rename_i hut
        rw [hut, Option.bind_map]
        rfl
      · rfl
  | @exit _ _ t exitCode tcb ms m hcur htcb hpid hrecycle =>
    refine Or.inl ?_
    have hext := extOf_setTask (k := k.buried t exitCode tcb.children) (t := t)
      (f := fun tcb ↦ { tcb with memorySet := ms }) fun _ _ ↦ rfl
    refine (congrFun hext u).trans ?_
    rw [Kernel.extOf, tasks_buried, Option.bind_map]
    rfl
  | @reap pid exitCodePtr _ t c idx parent child m m₁ m₂ pa ks hcur htcb hc' hchild hzombie hm hpid
      hstack hdrop =>
    rcases eq_or_ne u c with rfl | hne
    · exact Or.inr (Or.inl (if_pos rfl))
    · refine Or.inl ?_
      have hext := extOf_setTask (k := k) (t := t)
        (f := fun tcb ↦ { tcb with children := tcb.children.eraseIdx idx }) fun _ _ ↦ rfl
      rw [← congrFun hext u]
      exact congrArg (Option.bind · _) (if_neg hne)

/-- No large effect puts a task to sleep. -/
theorem Change.sleeper (hfresh : Fresh k) (hc : Change event k k') {u : ℕ}
    (hu : k'.sched.place u = some .blocked) : k.sched.place u = some .blocked := by
  cases hc with
  | @create cfgPtr _ t tcb ms m m' area hcur htcb hext halloc hm =>
    have hsched := sched_setTask (k := k) (t := t)
      (f := fun tcb ↦ { tcb with memorySet := ms, agentExt := some freshExt }) fun _ _ ↦ rfl
    exact hsched ▸ hu
  | @load _ t sp entry trapCx tcb elf ms m m' hcur htcb hload hdrop =>
    have hsched := sched_setTask (k := k) (t := t)
      (f := fun tcb ↦ { tcb with memorySet := ms, trapCxPpn := trapCx }) fun _ _ ↦ rfl
    exact hsched ▸ hu
  | @fork _ t pid trapCx parent ms ks m m' pa hcur htcb hcopy hpid hstack =>
    have hne : t ≠ k.nextTask := by
      rintro rfl
      rw [hfresh _ le_rfl] at htcb
      exact absurd htcb (by simp)
    have hs := spawned_spawn (k := { k with machine := m', pidAllocator := pa, kernelSpace := ks })
      hne (freshTask pid trapCx ms (some t) parent.priority)
    have hun : u ≠ k.nextTask := by
      rintro rfl
      change (Option.map _ _) = _ at hu
      rw [hs, if_pos rfl] at hu
      exact absurd hu (by simp [freshTask, TaskStatus.place])
    exact (hs.place hun).symm.trans hu
  | @exit _ _ t exitCode tcb ms m hcur htcb hpid hrecycle =>
    have hsched := sched_setTask (k := k.buried t exitCode tcb.children) (t := t)
      (f := fun tcb ↦ { tcb with memorySet := ms }) fun _ _ ↦ rfl
    have hu : (k.buried t exitCode tcb.children).sched.place u = some .blocked := hsched ▸ hu
    change ((k.buried t exitCode tcb.children).tasks u).map _ = _ at hu
    rw [tasks_buried, Option.map_map] at hu
    rcases eq_or_ne u t with rfl | hne
    · obtain ⟨ucb, -, hplace⟩ := Option.map_eq_some_iff.mp hu
      simp only [Function.comp_def, if_true] at hplace
      exact absurd hplace (by decide)
    · simp only [Function.comp_def, if_neg hne] at hu
      exact hu
  | @reap pid exitCodePtr _ t c idx parent child m m₁ m₂ pa ks hcur htcb hc' hchild hzombie hm hpid
      hstack hdrop =>
    have hr := reaped_disown k t c idx m₂ pa ks
    rw [hr.2] at hu
    split at hu
    · exact absurd hu (by simp)
    · exact hu

end Large

/-! ## Small effects -/

/-- An effect of an event on an agent. `mine` is that the agent itself made the call. -/
inductive Touch (event : Event) (mine : Prop) : AgentExt → AgentExt → Prop
  | path {ext ext' : AgentExt} (h : ext'.sansPath = ext.sansPath) : Touch event mine ext ext'
  | heartbeatSet {ext : AgentExt} {intervalMs now : ℕ} (hmine : mine)
      (hevent : event = .syscall (.agentHeartbeatSet intervalMs)) :
      Touch event mine ext { ext with
        heartbeatIntervalMs := intervalMs
        heartbeatLastMs := now
        heartbeatPending := false }
  | heartbeatStop {ext : AgentExt} (hmine : mine) (hevent : event = .syscall .agentHeartbeatStop) :
      Touch event mine ext { ext with heartbeatIntervalMs := 0, heartbeatPending := false }
  | watch {ext : AgentExt} {eventMask : ℕ} (hmine : mine)
      (hevent : event = .syscall (.agentWatch eventMask)) :
      Touch event mine ext { ext with watchedEvents := ext.watchedEvents ||| eventMask % 2 ^ 32 }
  | unwatch {ext : AgentExt} {eventMask : ℕ} (hmine : mine)
      (hevent : event = .syscall (.agentUnwatch eventMask)) :
      Touch event mine ext { ext with
        watchedEvents := ext.watchedEvents &&& ((2 ^ 32 - 1) ^^^ (eventMask % 2 ^ 32)) }
  | consume {ext : AgentExt} (hwaits : Waits event) : Touch event mine ext ext.consume
  | accept {ext : AgentExt} (payload : List UInt8) : Touch event mine ext (ext.accept payload)
  | receive {ext : AgentExt} {msg : List UInt8} {rest : List (List UInt8)}
      (hmsg : ext.mailbox = msg :: rest) : Touch event mine ext { ext with mailbox := rest }
  | heartbeat {ext ext' : AgentExt} {now : ℕ} (hevent : event = .timer)
      (h : ext.heartbeat now = some ext') : Touch event mine ext ext'
  | fileEvent {ext ext' : AgentExt} (h : ext.fileEvent = some ext') : Touch event mine ext ext'

/-- Effects on an agent, one after the other. -/
abbrev Touches (event : Event) (mine : Prop) : AgentExt → AgentExt → Prop :=
  Relation.ReflTransGen (Touch event mine)

section Small

variable {event : Event} {mine mine' : Prop} {k k' : Kernel} {ext ext' : AgentExt}

/-- Calls are made from user mode only, so `run_tasks` makes none. -/
theorem Touch.mono (h : Touch event mine ext ext') (hmine : event ≠ .schedule → mine → mine') :
    Touch event mine' ext ext' := by
  have ne : ∀ {call : Syscall}, event = .syscall call → event ≠ .schedule := by
    rintro call rfl
    exact Event.noConfusion
  cases h with
  | path h => exact .path h
  | heartbeatSet hm hevent => exact .heartbeatSet (hmine (ne hevent) hm) hevent
  | heartbeatStop hm hevent => exact .heartbeatStop (hmine (ne hevent) hm) hevent
  | watch hm hevent => exact .watch (hmine (ne hevent) hm) hevent
  | unwatch hm hevent => exact .unwatch (hmine (ne hevent) hm) hevent
  | consume hwaits => exact .consume hwaits
  | accept payload => exact .accept payload
  | receive hmsg => exact .receive hmsg
  | heartbeat hevent h => exact .heartbeat hevent h
  | fileEvent h => exact .fileEvent h

theorem Touches.mono (h : Touches event mine ext ext') (hmine : event ≠ .schedule → mine → mine') :
    Touches event mine' ext ext' :=
  Relation.ReflTransGen.mono (fun _ _ ht ↦ ht.mono hmine) _ _ h

theorem Touches.invariant {I : AgentExt → Prop}
    (htouch : ∀ ext ext', I ext → Touch event mine ext ext' → I ext')
    (h : Touches event mine ext ext') (hI : I ext) : I ext' := by
  induction h with
  | refl => exact hI
  | tail _ hstep ih => exact htouch _ _ ih hstep

/-- What happened to each agent is a sequence of effects. -/
def Follows (event : Event) (mine : Prop) : Option AgentExt → Option AgentExt → Prop :=
  Option.Rel (Touches event mine)

theorem Follows.refl (o : Option AgentExt) : Follows event mine o o := by
  cases o with
  | none => exact .none
  | some ext => exact .some .refl

theorem Follows.of_eq {o o' : Option AgentExt} (h : o' = o) : Follows event mine o o' := by
  rw [h]
  exact .refl o

theorem Follows.trans {o₁ o₂ o₃ : Option AgentExt} (h₁ : Follows event mine o₁ o₂)
    (h₂ : Follows event mine o₂ o₃) : Follows event mine o₁ o₃ := by
  cases h₁ with
  | none => exact h₂
  | some h₁ =>
    cases h₂ with
    | some h₂ => exact .some (h₁.trans h₂)

theorem Follows.eq_none {o : Option AgentExt} (h : Follows event mine none o) : o = none := by
  cases h
  rfl

theorem Follows.exists_some {o : Option AgentExt} (h : Follows event mine (some ext) o) :
    ∃ ext', o = some ext' ∧ Touches event mine ext ext' := by
  cases h with
  | some h => exact ⟨_, rfl, h⟩

/-- A change of one extension. -/
theorem follows_setExt {t : ℕ} {f : AgentExt → AgentExt} (u : ℕ)
    (h : ∀ ext, k.extOf t = some ext → u = t → Touch event mine ext (f ext)) :
    Follows event mine (k.extOf u) ((k.setExt t f).extOf u) := by
  rw [extOf_setExt]
  split
  · rename_i heq
    subst heq
    rcases hext : k.extOf u with _ | ext
    · exact .none
    · exact .some (.single (h ext hext rfl))
  · exact .refl _

/-- A mark. -/
theorem follows_markAgents {mark : AgentExt → Option AgentExt}
    (h : ∀ ext ext', mark ext = some ext' → Touch event mine ext ext') (ts : List ℕ)
    (acc : Kernel × List ℕ) (u : ℕ) :
    Follows event mine (acc.1.extOf u) ((markAgents mark ts acc).1.extOf u) := by
  induction ts generalizing acc with
  | nil => exact .refl _
  | cons t ts ih =>
    rw [markAgents_cons]
    refine Follows.trans ?_ (ih _)
    rcases markOne_cases mark t acc with ⟨-, heq⟩ | ⟨ext, ext', hext, hmark, heq⟩
    · rw [heq]
      exact .refl _
    · rw [heq]
      refine follows_setExt (f := fun _ ↦ ext') u fun e he _ ↦ ?_
      obtain rfl := Option.some.inj (hext.symm.trans he)
      exact h ext ext' hmark

theorem follows_notify {mark : AgentExt → Option AgentExt}
    (h : ∀ ext ext', mark ext = some ext' → Touch event mine ext ext') (ts : List ℕ) (u : ℕ) :
    Follows event mine (k.extOf u) ((k.notify mark ts).extOf u) := by
  rw [notify_eq, (wakes_foldl_wakeAgentByPid _ _).extOf]
  exact follows_markAgents h ts (k, []) u

/-- **A small effect on an agent.** -/
theorem Quiet.follows (hq : Quiet event k k') (u : ℕ) :
    Follows event (k.current = some u) (k.extOf u) (k'.extOf u) := by
  cases hq with
  | machine hm => exact .refl _
  | path hcur hf => exact follows_setExt u fun ext hext _ ↦ .path (hf ext hext)
  | heartbeatSet hcur => exact follows_setExt u fun ext _ hut ↦ .heartbeatSet (hut ▸ hcur) rfl
  | heartbeatStop hcur => exact follows_setExt u fun ext _ hut ↦ .heartbeatStop (hut ▸ hcur) rfl
  | watch hcur => exact follows_setExt u fun ext _ hut ↦ .watch (hut ▸ hcur) rfl
  | unwatch hcur => exact follows_setExt u fun ext _ hut ↦ .unwatch (hut ▸ hcur) rfl
  | @consume _ _ t ext hwaits hcur hext =>
    refine follows_setExt (f := fun _ ↦ ext.consume) u fun e he _ ↦ ?_
    obtain rfl := Option.some.inj (hext.symm.trans he)
    exact .consume hwaits
  | @priority _ _ t p =>
    have hext := extOf_setTask (k := k) (t := t) (f := fun tcb ↦ { tcb with priority := p })
      fun _ _ ↦ rfl
    exact .of_eq (congrFun hext u)
  | store => exact .refl _
  | @deliver _ _ t pid ext payload hpid hext hroom =>
    have hw := wakes_wakeAgentByPid { k.setExt t (AgentExt.accept payload) with
      history := k.history ++ [MailEvent.accepted t payload ext.evicted] } pid
    have hf : Follows event (k.current = some u) (k.extOf u)
        ((k.setExt t (AgentExt.accept payload)).extOf u) :=
      follows_setExt u fun ext _ _ ↦ .accept payload
    exact hf.trans (.of_eq (congrFun hw.extOf u))
  | @receive _ _ t n ext msg rest hcur hext hmsg =>
    refine follows_setExt (k := k) (t := t) (f := fun ext ↦ { ext with mailbox := rest }) u
      fun e he _ ↦ ?_
    obtain rfl := Option.some.inj (hext.symm.trans he)
    exact .receive hmsg
  | heartbeats => exact follows_notify (fun _ _ h ↦ .heartbeat rfl h) _ u
  | fileEvents => exact follows_notify (fun _ _ h ↦ .fileEvent h) _ u
  | @timeouts _ _ now => exact .of_eq (congrFun (wakes_tickWakeTimeouts k now).extOf u)
  | @suspend _ _ t hcur =>
    have hext := extOf_setTask (k := { k with current := none }) (t := t)
      (f := fun tcb ↦ { tcb with taskStatus := .ready, taskCx := .trapReturn }) fun _ _ ↦ rfl
    exact .of_eq (congrFun hext u)
  | @block _ _ t cx deadline ext hwaits hcur hext hnone =>
    have hexts := extOf_setTask (k := { k with current := none }) (t := t)
      (f := fun tcb ↦ { tcb with taskStatus := .blocked, taskCx := cx }) fun _ _ ↦ rfl
    exact .of_eq (congrFun hexts u)
  | @run _ k₁ t hidle hfetch hlive =>
    obtain ⟨rest, -, rfl⟩ := fetchTask_eq_some hfetch
    have hext := extOf_setTask (k := { k with readyQueue := rest }) (t := t)
      (f := fun tcb ↦ { tcb with taskStatus := .running }) fun _ _ ↦ rfl
    exact .of_eq (congrFun hext u)

/-- Outside of `run_tasks`, the processor is given away at most. -/
theorem Quiet.current (hq : Quiet event k k') (hevent : event ≠ .schedule) :
    k'.current = k.current ∨ k'.current = none := by
  have notify : ∀ {mark : AgentExt → Option AgentExt} {ts : List ℕ},
      (∀ ext ext', mark ext = some ext' → ext'.area = ext.area) →
        (k.notify mark ts).current = k.current := by
    intro mark ts hmark
    rw [notify_eq, (wakes_foldl_wakeAgentByPid _ _).current, (marks_markAgents hmark ts (k, [])).current]
  cases hq with
  | heartbeats => exact Or.inl (notify fun _ _ ↦ area_heartbeat)
  | fileEvents => exact Or.inl (notify fun _ _ ↦ area_fileEvent)
  | deliver => exact Or.inl (wakes_wakeAgentByPid _ _).current
  | @timeouts _ _ now => exact Or.inl (wakes_tickWakeTimeouts k now).current
  | suspend => exact Or.inr rfl
  | block => exact Or.inr rfl
  | run => exact absurd rfl hevent
  | _ => exact Or.inl rfl

theorem Quiets.current (hq : Quiets event k k') (hevent : event ≠ .schedule) :
    k'.current = k.current ∨ k'.current = none := by
  induction hq with
  | refl => exact Or.inl rfl
  | tail _ hstep ih =>
    rcases hstep.current hevent with heq | hnone
    · rw [heq]
      exact ih
    · exact Or.inr hnone

theorem Quiets.follows (hq : Quiets event k k') (u : ℕ) :
    Follows event (k.current = some u) (k.extOf u) (k'.extOf u) := by
  induction hq with
  | refl => exact .refl _
  | @tail k₁ k₂ hquiets hstep ih =>
    have hmine : event ≠ .schedule → k₁.current = some u → k.current = some u := by
      intro hevent hcur
      rcases Quiets.current hquiets hevent with heq | hnone
      · rw [← heq, hcur]
      · rw [hnone] at hcur
        exact absurd hcur (by simp)
    refine ih.trans ?_
    have hrel := hstep.follows u
    unfold Follows at hrel ⊢
    revert hrel
    generalize k₁.extOf u = o₁
    generalize k₂.extOf u = o₂
    rintro (⟨h⟩ | _)
    · exact .some (Touches.mono h hmine)
    · exact .none

end Small

/-! ## Steps -/

variable [KernelLayout]

/-- **What a step does to an agent:** effects one after the other, unless the process is forgotten or
becomes an agent. -/
theorem step_follows {event : Event} {k k' : Kernel} {r : Option ℤ} (hfresh : Fresh k)
    (h : (step event).Returns k r k') (u : ℕ) :
    Follows event (k.current = some u) (k.extOf u) (k'.extOf u) ∨ k'.tasks u = none ∨
      (k.extOf u = none ∧ k'.extOf u = some freshExt ∧ k.current = some u ∧
        ∃ cfgPtr, event = .syscall (.agentCreate cfgPtr)) := by
  rcases step_effect h with hquiets | hc
  · exact Or.inl (Quiets.follows hquiets u)
  · exact (hc.extOf hfresh u).imp_left Follows.of_eq

/-- A system call, apart from the check that a task makes it. -/
theorem returns_step_syscall {call : Syscall} {k k' : Kernel} {r : Option ℤ} :
    (step (.syscall call)).Returns k r k' ↔ k.current ≠ none ∧ (syscall call).Returns k r k' := by
  constructor
  · intro h
    obtain ⟨_, _, hget, h₁⟩ := Exec.returns_bind.mp h
    obtain ⟨_, _, hassert, hcall⟩ := Exec.returns_bind.mp h₁
    obtain ⟨rfl, rfl⟩ := Exec.returns_get.mp hget
    obtain ⟨hcur, rfl⟩ := Exec.returns_assert.mp hassert
    exact ⟨hcur, hcall⟩
  · rintro ⟨hcur, hcall⟩
    exact (Exec.returns_get.mpr ⟨rfl, rfl⟩).bind ((Exec.returns_assert_of hcur k).bind hcall)

omit [KernelLayout] in
theorem returns_updateExt {f : AgentExt → AgentExt} {k k' : Kernel} {r : Option ℤ}
    (h : (updateExt f).Returns k r k') : ∃ t, k.current = some t ∧
      ((k.extOf t = none ∧ r = some (-4) ∧ k' = k) ∨
        ∃ ext, k.extOf t = some ext ∧ r = some 0 ∧ k' = k.setExt t f) := by
  obtain ⟨t, tcb, hcur, htcb, ⟨hnone, hr, hk'⟩ | ⟨ext, hext, hbody⟩⟩ := returns_withExt h
  · exact ⟨t, hcur, Or.inl ⟨(extOf_of_tasks htcb).trans hnone, hr, hk'⟩⟩
  · obtain ⟨_, k₁, hmodify, hpure⟩ := Exec.returns_bind.mp hbody
    obtain rfl := Exec.returns_modify.mp hmodify
    obtain ⟨hr, hk'⟩ := Exec.returns_pure.mp hpure
    exact ⟨t, hcur, Or.inr ⟨ext, (extOf_of_tasks htcb).trans hext, hr, hk'⟩⟩

end Kernel

end AgentOS
