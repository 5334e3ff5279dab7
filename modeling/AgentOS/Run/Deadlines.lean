import AgentOS.Run.Queues
import AgentOS.Run.Waiting

/-!
# Deadlines

A blocked agent is in the list with the deadline that its call of `sys_agent_wait` computed, however
often it was woken for nothing since. The deadline is the second reading of the clock at the call plus
the timeout, in 64-bit signed arithmetic. As long as the sum is in range the timer leaves the agent
asleep for at least its timeout. A sum out of range wraps around to a deadline in the past.
-/

namespace AgentOS

namespace Kernel

/-! ## The list of blocked agents -/

section Blocked

variable {event : Event} {k k' : Kernel}

/-- Who is blocked now was blocked before, with the same deadline. -/
def NoneBlocked (k k' : Kernel) : Prop := ∀ e ∈ k'.blockedAgents, e ∈ k.blockedAgents

theorem NoneBlocked.trans {k₁ k₂ k₃ : Kernel} (h₁ : NoneBlocked k₁ k₂) (h₂ : NoneBlocked k₂ k₃) :
    NoneBlocked k₁ k₃ := fun e he ↦ h₁ e (h₂ e he)

theorem noneBlocked_wakeAgentByPid (k : Kernel) (pid : ℕ) : NoneBlocked k (k.wakeAgentByPid pid) := by
  intro e he
  rcases wakeAgentByPid_cases k pid with ⟨-, heq⟩ | ⟨e', rest, hperm, -, heq⟩
  · rwa [heq] at he
  · rw [heq] at he
    exact hperm.subset (List.mem_cons_of_mem e' he)

theorem noneBlocked_notify {mark : AgentExt → Option AgentExt}
    (hmark : ∀ ext ext', mark ext = some ext' → ext'.area = ext.area) (ts : List ℕ) (k : Kernel) :
    NoneBlocked k (k.notify mark ts) := by
  have hwake : ∀ (pids : List ℕ) (k : Kernel), NoneBlocked k (pids.foldl wakeAgentByPid k) := by
    intro pids
    induction pids with
    | nil => exact fun _ _ he ↦ he
    | cons pid pids ih => exact fun k ↦ (noneBlocked_wakeAgentByPid k pid).trans (ih _)
  intro e he
  rw [notify_eq] at he
  have hmarked := hwake _ _ e he
  rwa [(marks_markAgents hmark ts (k, [])).blockedAgents] at hmarked

theorem noneBlocked_tickWakeTimeouts (k : Kernel) (now : ℕ) :
    NoneBlocked k (k.tickWakeTimeouts now) := by
  intro e he
  obtain ⟨kept, woken, -, hkept, -, heq⟩ := tickWakeTimeouts_exact k now
  rw [heq] at he
  exact (List.mem_filter.mp (hkept.subset he)).1

/-- Only a turn of a wait puts an agent in the list. -/
theorem Quiet.noneBlocked (hq : Quiet event k k') (hw : ¬Waits event) : NoneBlocked k k' := by
  cases hq with
  | consume hwaits hcur hext => exact absurd hwaits hw
  | block hwaits hcur hext hnone => exact absurd hwaits hw
  | run hidle hfetch hlive => exact absurd trivial hw
  | deliver hpid hext hroom => exact noneBlocked_wakeAgentByPid _ _
  | heartbeats => exact noneBlocked_notify (fun _ _ ↦ area_heartbeat) _ _
  | fileEvents => exact noneBlocked_notify (fun _ _ ↦ area_fileEvent) _ _
  | timeouts => exact noneBlocked_tickWakeTimeouts k _
  | _ => exact fun _ he ↦ he

theorem Quiets.noneBlocked (hq : Quiets event k k') (hw : ¬Waits event) : NoneBlocked k k' := by
  induction hq with
  | refl => exact fun _ he ↦ he
  | tail _ hstep ih => exact ih.trans (hstep.noneBlocked hw)

theorem Change.noneBlocked [KernelLayout] (hc : Change event k k') : NoneBlocked k k' := by
  cases hc with
  | @exit _ _ t exitCode tcb ms m hcur htcb hpid hrecycle =>
    intro e he
    have hburied : e ∈ (k.buried t exitCode tcb.children).blockedAgents := he
    rwa [buried_eq] at hburied
  | _ => exact fun _ he ↦ he

/-- A turn of a wait puts the task in the list, with the deadline of the wait. -/
theorem Turn.blocked {t : ℕ} {ext : AgentExt} {startMs timeoutMs : ℤ} {deadline : Option ℕ}
    {r : Option ℤ} (h : Turn k t ext startMs timeoutMs deadline r k') {e : BlockedEntry}
    (he : e ∈ k'.blockedAgents) : e ∈ k.blockedAgents ∨ e = ⟨t, deadline⟩ := by
  cases h with
  | report h => exact Or.inl he
  | timeout h htimeout hup => exact Or.inl he
  | sleep h => exact (List.mem_append.mp he).imp_right List.mem_singleton.mp

end Blocked

/-! ## The deadlines of a run -/

section Runs

variable [KernelLayout] {k₀ k : Kernel} {tr : List Transition} {e : BlockedEntry}

/-- **A blocked agent waits for the deadline of its call.** -/
theorem Trace.deadline (h₀ : Starts k₀) (h : Trace k₀ tr k) (he : e ∈ k.blockedAgents) :
    ∃ timeoutMs m, Called tr e.task timeoutMs m ∧
      e.wakeDeadlineMs = deadlineAt timeoutMs (m.ms 1) := by
  induction h with
  | nil =>
    obtain ⟨k₁, elf, hinitial, hboot⟩ := h₀
    cases boot_effect hboot
    have hnone : e ∈ k₁.blockedAgents := he
    rw [hinitial.blockedAgents] at hnone
    exact absurd hnone List.not_mem_nil
  | @snoc k₁ k₂ tr event r htrace hstep ih =>
    have hsound := (htrace.reach (A := fun _ _ ↦ True) h₀.reachable
      fun _ _ ↦ trivial).sound
    have hold : e ∈ k₁.blockedAgents → ∃ timeoutMs m,
        Called (tr ++ [⟨k₁, event, r, k₂⟩]) e.task timeoutMs m ∧
          e.wakeDeadlineMs = deadlineAt timeoutMs (m.ms 1) := by
      intro hmem
      obtain ⟨timeoutMs, m, hcalled, hdeadline⟩ := ih hmem
      -- a blocked agent is not running
      have hne : k₁.current ≠ some e.task := by
        intro hcur
        have hrunning := (hsound.coherent.current_iff e.task).mp hcur
        have hblocked := hsound.coherent.place_of_mem_blocked
          (Multiset.mem_coe.mpr (List.mem_map_of_mem hmem) : e.task ∈ k₁.sched.blocked)
        exact absurd (hrunning.symm.trans hblocked) (by decide)
      exact ⟨timeoutMs, m, hcalled.snoc hne, hdeadline⟩
    by_cases hw : Waits event
    swap
    · rcases step_effect hstep with hquiets | hc
      · exact hold (hquiets.noneBlocked hw e he)
      · exact hold (hc.noneBlocked e he)
    obtain rfl | ⟨timeoutMs, rfl⟩ := waits_iff.mp hw
    · obtain ⟨u, k₃, hs, hsame, hidle, ⟨-, rfl, -⟩ | ⟨startMs, timeoutMs, deadline, hcx,
        ⟨-, -, rfl⟩ | ⟨ext, -, hturn⟩⟩⟩ := schedule_cases hsound.coherent hstep
      · exact hold (hsame ▸ he)
      · exact hold (hsame ▸ he)
      · rcases hturn.blocked he with hmem | rfl
        · exact hold (hsame ▸ hmem)
        · -- the task goes back to the wait it was in
          have hparked : Parked k₁ u startMs timeoutMs deadline := by
            refine ⟨by rw [hidle]; exact (Option.some_ne_none u).symm, ?_, hcx⟩
            rw [hs.2.2.2.2.1]
            decide
          obtain ⟨m, hcalled, -, hdeadline⟩ := htrace.called h₀ hparked
          exact ⟨timeoutMs, m, hcalled.snoc hparked.1, hdeadline⟩
    · obtain ⟨_, _, hget, h₁⟩ := Exec.returns_bind.mp hstep
      obtain ⟨_, _, hassert, hcall⟩ := Exec.returns_bind.mp h₁
      obtain ⟨rfl, rfl⟩ := Exec.returns_get.mp hget
      obtain ⟨-, rfl⟩ := Exec.returns_assert.mp hassert
      obtain ⟨u, n, hcur, ⟨-, -, rfl⟩ | ⟨ext, -, hturn⟩⟩ := sysAgentWait_cases hcall
      · exact hold he
      · rcases hturn.blocked he with hmem | rfl
        · exact hold hmem
        · exact ⟨timeoutMs, _, called_self rfl hcur, rfl⟩

end Runs

/-! ## Early and late deadlines -/

section Punctual

variable {timeoutMs : ℤ} {now : ℕ}

/-- A sum in range is the deadline. -/
theorem deadlineAt_of_lt (htimeout : 0 ≤ timeoutMs) (h : now + timeoutMs < 2 ^ 63) :
    toI64 (toI64 now + timeoutMs) = now + timeoutMs ∧
      deadlineAt timeoutMs now = some (now + timeoutMs).toNat := by
  have hsum : toI64 (toI64 now + timeoutMs) = now + timeoutMs := by
    rw [toI64_of_lt (by omega), toI64, Int.bmod_eq_of_le] <;> omega
  refine ⟨hsum, ?_⟩
  rw [deadlineAt, if_neg (not_lt.mpr htimeout), hsum, max_eq_left (by omega)]

/-- A sum out of range wraps around, and the deadline has passed long ago. -/
theorem deadlineAt_of_ge (htimeout : 0 ≤ timeoutMs) (hlt : timeoutMs < 2 ^ 63) (hnow : now < 2 ^ 63)
    (h : 2 ^ 63 ≤ now + timeoutMs) : deadlineAt timeoutMs now = some 0 := by
  have hsum : toI64 (toI64 now + timeoutMs) = now + timeoutMs - 2 ^ 64 := by
    rw [toI64_of_lt hnow, toI64, Int.bmod]
    split <;> omega
  rw [deadlineAt, if_neg (not_lt.mpr htimeout), hsum, max_eq_right (by omega)]
  rfl

/-- What the deadline of a blocked agent should be: the sum is in range, it is no earlier than the time
of the call plus the timeout, and the timer leaves the agent asleep before that. `m` is the machine at
the call, which reads the clock on entry and again for the deadline. -/
structure Punctual (k : Kernel) (e : BlockedEntry) (timeoutMs : ℤ) (m : Machine) : Prop where
  inRange : toI64 (toI64 (m.ms 1) + timeoutMs) = m.ms 1 + timeoutMs
  deadline : ∃ d, e.wakeDeadlineMs = some d ∧ (m.ms 0 : ℤ) + timeoutMs ≤ d
  kept : ∀ now : ℕ, (now : ℤ) < m.ms 0 + timeoutMs → e ∈ (k.tickWakeTimeouts now).blockedAgents

/-- The timer leaves an agent asleep whose deadline has not come. -/
theorem mem_tickWakeTimeouts {k : Kernel} {e : BlockedEntry} (he : e ∈ k.blockedAgents)
    (hdue : e.due now = false) : e ∈ (k.tickWakeTimeouts now).blockedAgents := by
  obtain ⟨kept, woken, -, hkept, -, heq⟩ := tickWakeTimeouts_exact k now
  rw [heq]
  exact hkept.symm.subset (List.mem_filter.mpr ⟨he, by rw [hdue]; rfl⟩)

/-- **When the deadline of a wait is not early.** Every agent that is blocked in a run called
`sys_agent_wait`, and its deadline is as it should be exactly when the time of the call plus the
timeout is in the range of 64-bit signed numbers. -/
theorem wait_deadline_iff [KernelLayout] {k₀ k : Kernel} {tr : List Transition} {e : BlockedEntry}
    (h₀ : Starts k₀) (h : Trace k₀ tr k) (he : e ∈ k.blockedAgents) :
    ∃ timeoutMs m, Called tr e.task timeoutMs m ∧
      (0 ≤ timeoutMs → timeoutMs < 2 ^ 63 → m.clock 0 ≤ m.clock 1 → m.clock 1 < 2 ^ 64 →
        (Punctual k e timeoutMs m ↔ m.ms 1 + timeoutMs < 2 ^ 63)) := by
  obtain ⟨timeoutMs, m, hcalled, hdeadline⟩ := h.deadline h₀ he
  refine ⟨timeoutMs, m, hcalled, fun htimeout hlt hmono hclock ↦ ⟨fun hp ↦ ?_, fun hrange ↦ ?_⟩⟩
  · by_contra hout
    have hnow : m.ms 1 < 2 ^ 63 := by
      unfold Machine.ms
      omega
    rw [deadlineAt_of_ge htimeout hlt hnow (not_lt.mp hout)] at hdeadline
    obtain ⟨d, hd, hle⟩ := hp.deadline
    obtain rfl := Option.some.inj (hdeadline.symm.trans hd)
    have hsmall : m.ms 1 < 2 ^ 51 := by
      unfold Machine.ms
      omega
    omega
  · have hms : m.ms 0 ≤ m.ms 1 := Nat.div_le_div_right hmono
    obtain ⟨hsum, hat⟩ := deadlineAt_of_lt htimeout hrange
    rw [hat] at hdeadline
    refine ⟨hsum, ⟨_, hdeadline, by omega⟩, fun now hnow ↦ mem_tickWakeTimeouts he ?_⟩
    rw [BlockedEntry.due, hdeadline]
    exact decide_eq_false (by omega)

end Punctual

section Sample

attribute [local instance] sampleLayout

/-- An agent waits, while its child runs. -/
private def longWaitEvents (timeoutMs : ℤ) : List Event :=
  [.schedule, .syscall (.agentCreate 0), .syscall .fork, .syscall (.agentWait timeoutMs)]

/-- An agent that waits for as long as it can is woken by the next tick of the timer. -/
theorem wait_deadline_past :
    (sampleRun sampleElf (longWaitEvents (2 ^ 63 - 1))).2.blockedAgents = [⟨0, some 0⟩] ∧
      (sampleRun sampleElf (longWaitEvents (2 ^ 63 - 1) ++ [.schedule, .timer])).2.blockedAgents = [] ∧
      0 ∈ (sampleRun sampleElf (longWaitEvents (2 ^ 63 - 1) ++ [.schedule, .timer])).2.readyQueue ∧
      (sampleRun sampleElf (longWaitEvents (2 ^ 63 - 1) ++ [.schedule, .timer])).2.machine.ms 0 < 100 := by
  decide +kernel

/-- An agent that waits for five milliseconds. -/
theorem wait_deadline_five : ∃ timeoutMs m,
    Called (transitions (sampleStart sampleElf) (longWaitEvents 5)) 0 timeoutMs m ∧
      (0 ≤ timeoutMs → timeoutMs < 2 ^ 63 → m.clock 0 ≤ m.clock 1 → m.clock 1 < 2 ^ 64 →
        (Punctual (sampleRun sampleElf (longWaitEvents 5)).2 ⟨0, some 6⟩ timeoutMs m ↔
          m.ms 1 + timeoutMs < 2 ^ 63)) :=
  wait_deadline_iff (e := ⟨0, some 6⟩) (starts_sampleStart (by decide +kernel))
    (trace_sampleRun (by decide +kernel)) (by decide +kernel)

end Sample

end Kernel

end AgentOS
