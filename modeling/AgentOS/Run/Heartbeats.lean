import AgentOS.Lib.Pulse
import AgentOS.Run.Subscriptions

/-!
# Heartbeats

Of what happens to an agent, three things concern its heartbeat as long as it does not set or stop it: a
timer interrupt fires it, a wait reports it, and everything else leaves it alone. So the heartbeat of an
agent in a run is a run of a pulse.
-/

namespace AgentOS

open Scheduler

/-- The heartbeat of an agent. -/
def AgentExt.pulse (ext : AgentExt) : Pulse :=
  ⟨ext.heartbeatIntervalMs, ext.heartbeatLastMs, ext.heartbeatPending⟩

namespace Kernel

/-- A timer interrupt fires the heartbeat of a task. Its time is the first reading of the clock. -/
def Transition.Fires (x : Transition) (t : ℕ) : Prop :=
  x.event = .timer ∧ ∃ ext ext', x.before.extOf t = some ext ∧
    ext.heartbeat (x.before.machine.ms 0) = some ext'

/-- A wait of a task returns with the heartbeat. -/
def Transition.ReportsHeartbeat (x : Transition) (t : ℕ) : Prop :=
  ∃ v, x.WaitReturned t v ∧ v.toNat.testBit 0

/-- A call of a task that sets or stops its heartbeat. -/
def SetsHeartbeat (event : Event) : Prop :=
  (∃ intervalMs, event = .syscall (.agentHeartbeatSet intervalMs)) ∨
    event = .syscall .agentHeartbeatStop

/-! ## Effects on a heartbeat -/

section Effects

variable {event : Event} {mine : Prop} {ext ext' : AgentExt}

theorem pulse_fileEvent (h : ext.fileEvent = some ext') : ext'.pulse = ext.pulse := by
  unfold AgentExt.fileEvent at h
  split at h
  · obtain rfl := Option.some.inj h
    rfl
  · exact absurd h (by simp)

theorem pulse_heartbeat {now : ℕ} (h : ext.heartbeat now = some ext') :
    ext.pulse.Allows (.fire now) ∧ ext'.pulse = ext.pulse.act (.fire now) := by
  unfold AgentExt.heartbeat at h
  split at h
  · rename_i hdue
    obtain rfl := Option.some.inj h
    exact ⟨hdue, rfl⟩
  · exact absurd h (by simp)

/-- What is no call to that end, no wait and no timer interrupt leaves the heartbeat alone. -/
theorem Touch.pulse (h : Touch event mine ext ext') (hmine : mine → ¬SetsHeartbeat event)
    (hwaits : ¬Waits event) (htimer : event ≠ .timer) : ext'.pulse = ext.pulse := by
  cases h with
  | path h =>
    have hpulse := congrArg AgentExt.pulse h
    exact hpulse
  | heartbeatSet hm hevent => exact absurd (Or.inl ⟨_, hevent⟩) (hmine hm)
  | heartbeatStop hm hevent => exact absurd (Or.inr hevent) (hmine hm)
  | consume h => exact absurd h hwaits
  | heartbeat hevent h => exact absurd hevent htimer
  | fileEvent h => exact pulse_fileEvent h
  | _ => rfl

theorem Touches.pulse (h : Touches event mine ext ext') (hmine : mine → ¬SetsHeartbeat event)
    (hwaits : ¬Waits event) (htimer : event ≠ .timer) : ext'.pulse = ext.pulse :=
  h.invariant (I := fun e ↦ e.pulse = ext.pulse)
    (fun _ _ hI ht ↦ (ht.pulse hmine hwaits htimer).trans hI) rfl

theorem testBit_zero_triggered : ext.triggered.testBit 0 → ext.heartbeatPending := by
  intro h
  rw [AgentExt.triggered, Nat.testBit_and, Bool.and_eq_true] at h
  by_contra hnot
  have hpending := h.1
  rw [AgentExt.pendingEvents, if_neg hnot] at hpending
  split_ifs at hpending <;> exact absurd hpending (by decide)

/-- Reporting events lowers the flag if the heartbeat is among them. -/
theorem pulse_consume : ext.consume.pulse =
    if ext.triggered.testBit 0 then ext.pulse.act .lower else ext.pulse := by
  have hbit : (ext.triggered &&& eventHeartbeat = 0) ↔ ext.triggered.testBit 0 = false := by
    rw [show eventHeartbeat = 1 from rfl, Nat.and_one_is_mod, Nat.testBit_zero]
    simp
  rcases hb : ext.triggered.testBit 0 with _ | _
  · have hzero := hbit.mpr hb
    simp only [AgentExt.pulse, AgentExt.consume, hzero, decide_true, Bool.and_true,
      Bool.false_eq_true, if_false]
  · have hne : ¬(ext.triggered &&& eventHeartbeat = 0) := fun h ↦ by simp [hbit.mp h] at hb
    simp only [AgentExt.pulse, AgentExt.consume, hne, decide_false, Bool.and_false, if_true,
      Pulse.act]

end Effects

/-! ## One timer interrupt -/

section Timer

/-- Marking each agent of a list once. -/
theorem extOf_markAgents {mark : AgentExt → Option AgentExt} {ts : List ℕ} (hnodup : ts.Nodup)
    (acc : Kernel × List ℕ) (u : ℕ) : (markAgents mark ts acc).1.extOf u =
      if u ∈ ts then (acc.1.extOf u).map fun ext ↦ (mark ext).getD ext else acc.1.extOf u := by
  induction ts generalizing acc with
  | nil => rfl
  | cons t ts ih =>
    obtain ⟨hnot, hrest⟩ := List.nodup_cons.mp hnodup
    rw [markAgents_cons, ih hrest]
    rcases eq_or_ne u t with rfl | hne
    · rw [if_neg hnot, if_pos List.mem_cons_self]
      rcases markOne_cases mark u acc with ⟨hnone, heq⟩ | ⟨ext, ext', hext, hmark, heq⟩
      · rw [heq]
        rcases hext : acc.1.extOf u with _ | ext
        · rfl
        · rw [hext, Option.bind_some] at hnone
          rw [Option.map_some, hnone]
          rfl
      · rw [heq, hext, Option.map_some, hmark]
        exact extOf_setExt_self (fun _ ↦ ext') hext
    · have hsame : (markOne mark t acc).1.extOf u = acc.1.extOf u := by
        rcases markOne_cases mark t acc with ⟨-, heq⟩ | ⟨ext, ext', -, -, heq⟩
        · rw [heq]
        · rw [heq, extOf_setExt, if_neg hne]
      have hmem : u ∈ t :: ts ↔ u ∈ ts := by simp [hne]
      rw [hsame]
      simp only [hmem]

theorem extOf_suspendCurrent {k k' : Kernel} {u : Unit} (h : suspendCurrent.Returns k u k') :
    k'.extOf = k.extOf := by
  simp only [suspendCurrent, Exec.returns_bind, Exec.returns_get, Exec.returns_unwrap,
    Exec.returns_modify] at h
  obtain ⟨_, _, ⟨rfl, rfl⟩, t, _, ⟨-, rfl⟩, rfl⟩ := h
  exact extOf_setTask (t := t)
    (f := fun tcb ↦ { tcb with taskStatus := .ready, taskCx := .trapReturn }) fun _ _ ↦ rfl

variable [KernelLayout] {k k' : Kernel} {r : Option ℤ}

/-- **A timer interrupt** looks once at each agent, at the time of one reading of the clock. -/
theorem step_timer (hk : Family k) (h : (step .timer).Returns k r k') (t : ℕ) :
    k'.extOf t = (k.extOf t).map fun ext ↦ (ext.heartbeat (k.machine.ms 0)).getD ext := by
  obtain ⟨_, _, hget, h₁⟩ := Exec.returns_bind.mp h
  obtain ⟨_, _, hassert, h₂⟩ := Exec.returns_bind.mp h₁
  obtain ⟨rfl, rfl⟩ := Exec.returns_get.mp hget
  obtain ⟨hcur, rfl⟩ := Exec.returns_assert.mp hassert
  rename_i k
  obtain ⟨_, k₁, htick, h₃⟩ := Exec.returns_bind.mp h₂
  obtain ⟨now, k₂, hnow, h₄⟩ := Exec.returns_bind.mp h₃
  obtain ⟨_, k₃, htimeouts, h₅⟩ := Exec.returns_bind.mp h₄
  obtain ⟨_, k₄, hsuspend, h₆⟩ := Exec.returns_bind.mp h₅
  obtain ⟨-, rfl⟩ := Exec.returns_pure.mp h₆
  -- the heartbeats
  have hfirst : k₁.extOf t = (k.extOf t).map fun ext ↦
      (ext.heartbeat (k.machine.ms 0)).getD ext := by
    obtain ⟨nowMs, k₅, hread, h₇⟩ := Exec.returns_bind.mp htick
    obtain ⟨_, k₆, hget, h₈⟩ := Exec.returns_bind.mp h₇
    obtain ⟨ts, k₇, hunwrap, hmodify⟩ := Exec.returns_bind.mp h₈
    obtain ⟨m, hm, rfl⟩ := returns_onMachine.mp hread
    obtain ⟨rfl, rfl⟩ := Machine.returns_getTimeMs.mp hm
    obtain ⟨rfl, rfl⟩ := Exec.returns_get.mp hget
    obtain ⟨hts, rfl⟩ := Exec.returns_unwrap.mp hunwrap
    obtain rfl := Exec.returns_modify.mp hmodify
    obtain ⟨ts', hts', hnodup, hmem⟩ := hk.snapshot
    obtain rfl : ts = ts' := Option.some.inj (hts.symm.trans hts')
    rw [notify_eq, (wakes_foldl_wakeAgentByPid _ _).extOf, extOf_markAgents hnodup]
    split
    · rfl
    · rename_i hnot
      have hdead : k.tasks t = none := not_not.mp (mt (hmem t).mpr hnot)
      have hnone : k.extOf t = none := by rw [extOf, hdead]; rfl
      rw [hnone]
      exact hnone
  -- the rest moves tasks
  obtain ⟨m, -, rfl⟩ := returns_onMachine.mp hnow
  have hwakes := wakes_tickWakeTimeouts { k₁ with machine := m } now
  rw [← Exec.returns_modify.mp htimeouts] at hwakes
  exact (congrFun (extOf_suspendCurrent hsuspend) t).trans
    ((congrFun hwakes.extOf t).trans hfirst)

end Timer

/-! ## One turn of a wait -/

section Waiting

variable {k k' : Kernel} {t u : ℕ} {ext : AgentExt} {startMs timeoutMs : ℤ} {deadline : Option ℕ}
  {r : Option ℤ}

/-- A turn changes the extension of the task whose turn it is, if it returns. -/
theorem Turn.extOf (h : Turn k u ext startMs timeoutMs deadline r k') (ht : t ≠ u ∨ r = none) :
    k'.extOf t = k.extOf t := by
  cases h with
  | report h => exact (extOf_setExt _ _ _ _).trans (if_neg (ht.resolve_right (by simp)))
  | timeout h htimeout hup =>
    exact (extOf_setExt k u (fun _ ↦ { ext with loopState := .idle }) t).trans
      (if_neg (ht.resolve_right (by simp)))
  | @sleep n h => exact congrFun (extOf_asleep { k with machine := k.machine.later n } u _) t

theorem pulse_thinking (n : ℕ) :
    ((k.thinking u n).extOf t).map AgentExt.pulse = (k.extOf t).map AgentExt.pulse :=
  map_extOf_setExt (k := k) (t := u) (f := fun ext ↦ { ext with loopState := .thinking })
    (fun _ _ ↦ rfl) t

variable [KernelLayout] {event : Event}

/-- Whoever does not return from a wait keeps the heartbeat. -/
theorem step_waits_pulse (hc : Coherent k.sched) (hw : Waits event)
    (h : (step event).Returns k r k') (hnot : ∀ v, r = some v → ¬WaitsIn event k k' t) :
    (k'.extOf t).map AgentExt.pulse = (k.extOf t).map AgentExt.pulse := by
  obtain rfl | ⟨timeoutMs, rfl⟩ := waits_iff.mp hw
  · obtain ⟨u, k₁, hs, -, -, ⟨-, rfl, -⟩ | ⟨startMs, timeoutMs, deadline, -,
      ⟨-, -, rfl⟩ | ⟨ext, hext, hturn⟩⟩⟩ := schedule_cases hc h
    · rw [hs.2.1]
    · rw [hs.2.1]
    · rw [hturn.extOf, hs.2.1]
      by_contra hboth
      obtain ⟨htu, hr⟩ := not_or.mp hboth
      obtain rfl := not_not.mp htu
      obtain ⟨v, rfl⟩ := Option.ne_none_iff_exists'.mp hr
      obtain ⟨-, -, hcur, -⟩ := hturn.returned (hs.2.1 ▸ hext)
      exact hnot v rfl (Or.inr ⟨rfl, hcur.trans hs.1⟩)
  · obtain ⟨-, hcall⟩ := returns_step_syscall.mp h
    obtain ⟨u, n, hcur, ⟨-, -, rfl⟩ | ⟨ext, -, hturn⟩⟩ := sysAgentWait_cases hcall
    · exact pulse_thinking n
    · rw [hturn.extOf, pulse_thinking]
      by_contra hboth
      obtain ⟨htu, hr⟩ := not_or.mp hboth
      obtain rfl := not_not.mp htu
      obtain ⟨v, rfl⟩ := Option.ne_none_iff_exists'.mp hr
      exact hnot v rfl (Or.inl ⟨timeoutMs, rfl, hcur⟩)

end Waiting

/-! ## The heartbeat of an agent in a run -/

section Runs

open Classical in
/-- What a transition does to the heartbeat of a task. -/
noncomputable def Transition.beat (x : Transition) (t : ℕ) : Pulse.Act :=
  if x.Fires t then .fire (x.before.machine.ms 0)
  else if x.ReportsHeartbeat t then .lower
  else .rest

variable [KernelLayout] {k k' : Kernel} {r : Option ℤ} {event : Event} {t : ℕ} {ext : AgentExt}

omit [KernelLayout] in
theorem waits_of_waitsIn (h : WaitsIn event k k' t) : Waits event := by
  rcases h with ⟨timeoutMs, rfl, -⟩ | ⟨rfl, -⟩ <;> trivial

omit [KernelLayout] in
/-- Nothing happens to the heartbeat of what is no agent. -/
theorem Transition.not_fires {x : Transition} (h : x.before.extOf t = none) : ¬x.Fires t := by
  rintro ⟨-, ext, -, hext, -⟩
  exact absurd (h.symm.trans hext) (by simp)

theorem not_reportsHeartbeat (hc : Coherent k.sched) (h : (step event).Returns k r k')
    (hnone : k.extOf t = none) : ¬Transition.ReportsHeartbeat ⟨k, event, r, k'⟩ t := by
  rintro ⟨v, ⟨hr, hwait⟩, hbit⟩
  obtain rfl : r = some v := hr
  obtain ⟨_, _, -, ⟨rfl, -⟩ | ⟨ext, hext, -⟩⟩ := step_wait_returns hc h hwait
  · exact absurd hbit (by simp)
  · exact absurd (hnone.symm.trans hext) (by simp)

omit [KernelLayout] in
/-- A transition is a step of the pulse of an agent, as long as the agent is there. -/
def Transition.Pulses (x : Transition) (t : ℕ) (ext : AgentExt) : Prop :=
  ext.pulse.Allows (x.beat t) ∧ (x.after.tasks t = none ∨
    ∃ ext', x.after.extOf t = some ext' ∧ ext'.pulse = ext.pulse.act (x.beat t))

/-- A timer interrupt fires the heartbeat if it is due. -/
theorem pulses_timer (hk : Family k) (h : (step .timer).Returns k r k')
    (hext : k.extOf t = some ext) : Transition.Pulses ⟨k, .timer, r, k'⟩ t ext := by
  have hexact := step_timer hk h t
  rw [hext, Option.map_some] at hexact
  unfold Transition.Pulses Transition.beat
  rcases hbeat : ext.heartbeat (k.machine.ms 0) with _ | ext'
  · have hrest : ¬Transition.Fires ⟨k, .timer, r, k'⟩ t := by
      rintro ⟨-, e, e', he, he'⟩
      obtain rfl := Option.some.inj (hext.symm.trans he)
      exact absurd (hbeat.symm.trans he') (by simp)
    have hnot : ¬Transition.ReportsHeartbeat ⟨k, .timer, r, k'⟩ t := by
      rintro ⟨v, ⟨-, hwait⟩, -⟩
      exact waits_of_waitsIn hwait
    rw [if_neg hrest, if_neg hnot]
    rw [hbeat] at hexact
    exact ⟨trivial, Or.inr ⟨_, hexact, rfl⟩⟩
  · have hfires : Transition.Fires ⟨k, .timer, r, k'⟩ t := ⟨rfl, ext, ext', hext, hbeat⟩
    rw [if_pos hfires]
    rw [hbeat] at hexact
    obtain ⟨hallows, hpulse⟩ := pulse_heartbeat hbeat
    exact ⟨hallows, Or.inr ⟨ext', hexact, hpulse⟩⟩

/-- A wait that returns lowers the flag if it reports the heartbeat. -/
theorem pulses_return {v : ℤ} (hc : Coherent k.sched) (h : (step event).Returns k (some v) k')
    (hwait : WaitsIn event k k' t) (hext : k.extOf t = some ext) :
    Transition.Pulses ⟨k, event, some v, k'⟩ t ext := by
  obtain ⟨_, _, -, ⟨-, hnone⟩ | ⟨e, he, rfl, hafter, -⟩⟩ := step_wait_returns hc h hwait
  · exact absurd (hnone.symm.trans hext) (by simp)
  obtain rfl := Option.some.inj (he.symm.trans hext)
  have hrest : ¬Transition.Fires ⟨k, event, some (e.triggered : ℤ), k'⟩ t := by
    rintro ⟨rfl, -⟩
    exact waits_of_waitsIn hwait
  have hiff : Transition.ReportsHeartbeat ⟨k, event, some (e.triggered : ℤ), k'⟩ t ↔
      e.triggered.testBit 0 := by
    constructor
    · rintro ⟨v, ⟨hv, -⟩, hbit⟩
      rwa [← Option.some.inj hv, Int.toNat_natCast] at hbit
    · intro hbit
      exact ⟨_, ⟨rfl, hwait⟩, by rwa [Int.toNat_natCast]⟩
  have hpulse : AgentExt.pulse { e.consume with loopState := .idle } = e.consume.pulse := rfl
  rw [pulse_consume] at hpulse
  unfold Transition.Pulses Transition.beat
  rw [if_neg hrest]
  by_cases hbit : e.triggered.testBit 0
  · rw [if_pos (hiff.mpr hbit)]
    rw [if_pos hbit] at hpulse
    exact ⟨testBit_zero_triggered hbit, Or.inr ⟨_, hafter, hpulse⟩⟩
  · rw [if_neg (mt hiff.mp hbit)]
    rw [if_neg hbit] at hpulse
    exact ⟨trivial, Or.inr ⟨_, hafter, hpulse⟩⟩

/-- **One step of a run is one step of the pulse** of an agent that does not set its heartbeat. -/
theorem step_pulses (hk : Family k) (h : (step event).Returns k r k')
    (hkeep : k.current = some t → ¬SetsHeartbeat event) (hext : k.extOf t = some ext) :
    Transition.Pulses ⟨k, event, r, k'⟩ t ext := by
  by_cases htimer : event = .timer
  · subst htimer
    exact pulses_timer hk h hext
  by_cases hreturn : ∃ v, r = some v ∧ WaitsIn event k k' t
  · obtain ⟨v, rfl, hwait⟩ := hreturn
    exact pulses_return hk.coherent h hwait hext
  have hrest : ¬Transition.Fires ⟨k, event, r, k'⟩ t := fun hfires ↦ htimer hfires.1
  have hnot : ¬Transition.ReportsHeartbeat ⟨k, event, r, k'⟩ t := by
    rintro ⟨v, ⟨hr, hwait⟩, -⟩
    exact hreturn ⟨v, hr, hwait⟩
  unfold Transition.Pulses Transition.beat
  rw [if_neg hrest, if_neg hnot]
  refine ⟨trivial, ?_⟩
  by_cases hw : Waits event
  · have hsame := step_waits_pulse hk.coherent hw h fun v hr hwait ↦ hreturn ⟨v, hr, hwait⟩
    rw [hext, Option.map_some] at hsame
    obtain ⟨ext', hext', hpulse⟩ := Option.map_eq_some_iff.mp hsame
    exact Or.inr ⟨ext', hext', hpulse⟩
  · rcases step_follows hk.fresh h t with hfollows | hdead | ⟨hnone, -⟩
    · rw [hext] at hfollows
      obtain ⟨ext', hext', htouches⟩ := hfollows.exists_some
      exact Or.inr ⟨ext', hext', Touches.pulse htouches hkeep hw htimer⟩
    · exact Or.inl hdead
    · exact absurd (hnone.symm.trans hext) (by simp)

/-- **The heartbeat of an agent in a run is a run of a pulse**, as long as the agent does not set or stop
it. -/
theorem Trace.pulse {tr : List Transition} (hk : Reachable k) (h : Trace k tr k')
    (hext : k.extOf t = some ext)
    (hkeep : ∀ x ∈ tr, x.before.current = some t → ¬SetsHeartbeat x.event) :
    ∃ q, ext.pulse.Run (tr.map fun x ↦ x.beat t) q ∧
      ((∃ ext', k'.extOf t = some ext' ∧ ext'.pulse = q) ∨
        (k'.tasks t = none ∧ t < k'.nextTask)) := by
  induction h with
  | nil => exact ⟨_, .nil, Or.inl ⟨ext, hext, rfl⟩⟩
  | @snoc k₁ k₂ tr event r htrace hstep ih =>
    obtain ⟨q, hrun, hcases⟩ := ih fun x hx ↦ hkeep x (List.mem_append_left _ hx)
    have hfamily := (htrace.reach (A := fun _ _ ↦ True) hk fun _ _ ↦ trivial).family
    have hsucceeds := hfamily.succeeds hstep
    rw [List.map_append, List.map_singleton]
    rcases hcases with ⟨ext₁, hext₁, rfl⟩ | ⟨hdead, hlt⟩
    · obtain ⟨hallows, hafter⟩ := step_pulses hfamily hstep
        (hkeep ⟨k₁, event, r, k₂⟩ (List.mem_append_right _ (List.mem_singleton_self _))) hext₁
      refine ⟨_, hrun.snoc hallows, hafter.symm.imp id fun hdead ↦ ⟨hdead, ?_⟩⟩
      obtain ⟨tcb, htcb, -⟩ := extOf_eq_some.mp hext₁
      refine lt_of_lt_of_le ?_ hsucceeds.nextTask_le
      by_contra hle
      rw [hfamily.fresh t (not_lt.mp hle)] at htcb
      exact absurd htcb (by simp)
    · have hnone : k₁.extOf t = none := by rw [extOf, hdead]; rfl
      have hrest : Transition.beat ⟨k₁, event, r, k₂⟩ t = .rest := by
        unfold Transition.beat
        rw [if_neg (Transition.not_fires hnone),
          if_neg (not_reportsHeartbeat hfamily.coherent hstep hnone)]
      rw [hrest]
      exact ⟨_, hrun.snoc trivial,
        Or.inr ⟨hsucceeds.gone t hlt hdead, hlt.trans_le hsucceeds.nextTask_le⟩⟩

end Runs

/-! ## The rate -/

section Rate

open Classical in
/-- The times at which the heartbeat of a task fired. -/
noncomputable def firings (tr : List Transition) (t : ℕ) : List ℕ :=
  (tr.filter fun x ↦ decide (x.Fires t)).map fun x ↦ x.before.machine.ms 0

open Classical in
/-- How many waits of a task returned with the heartbeat. -/
noncomputable def heartbeatReports (tr : List Transition) (t : ℕ) : ℕ :=
  tr.countP fun x ↦ decide (x.ReportsHeartbeat t)

/-- The clock does not go back over a run. -/
def ClockSteady (tr : List Transition) (k : Kernel) : Prop :=
  (tr.map Transition.before ++ [k]).Pairwise fun k₁ k₂ ↦ k₁.machine.ms 0 ≤ k₂.machine.ms 0

/-- The rate of a heartbeat of an interval that was set at a time, until now. -/
structure HeartbeatRate (tr : List Transition) (t intervalMs start now : ℕ) : Prop where
  /-- The first firing is an interval after the start, and each other one after those before it. -/
  spaced : (start :: firings tr t).Pairwise fun a b ↦ a + intervalMs ≤ b
  firings_le : (firings tr t).length ≤ (now - start) / intervalMs
  reports_le : heartbeatReports tr t ≤ (now - start) / intervalMs

variable {tr tr' : List Transition} {x : Transition} {t : ℕ}

theorem beat_of_fires (h : x.Fires t) : x.beat t = .fire (x.before.machine.ms 0) := by
  rw [Transition.beat, if_pos h]

theorem beat_eq_lower : x.beat t = .lower ↔ x.ReportsHeartbeat t := by
  unfold Transition.beat
  constructor
  · intro h
    by_contra hnot
    rw [if_neg hnot] at h
    split at h <;> exact absurd h (by simp)
  · intro h
    have hrest : ¬x.Fires t := by
      rintro ⟨htimer, -⟩
      obtain ⟨v, ⟨-, hwait⟩, -⟩ := h
      have hwaits := waits_of_waitsIn hwait
      rw [htimer] at hwaits
      exact hwaits
    rw [if_neg hrest, if_pos h]

open Classical in
theorem fired_beat (tr : List Transition) (t : ℕ) :
    Pulse.fired (tr.map fun x ↦ x.beat t) = firings tr t := by
  induction tr with
  | nil => rfl
  | cons x tr ih =>
    rw [List.map_cons, firings, List.filter_cons]
    by_cases h : x.Fires t
    · rw [beat_of_fires h, if_pos (decide_eq_true h), List.map_cons, Pulse.fired, ih, firings]
    · rw [if_neg (by simpa using h), ← firings, ← ih, Transition.beat, if_neg h]
      split <;> rfl

theorem lowered_beat (tr : List Transition) (t : ℕ) :
    Pulse.lowered (tr.map fun x ↦ x.beat t) = heartbeatReports tr t := by
  unfold Pulse.lowered heartbeatReports
  rw [List.count, List.countP_map]
  refine List.countP_congr fun x _ ↦ ?_
  simp only [Function.comp_def, beq_iff_eq, decide_eq_true_eq]
  exact beat_eq_lower

/-- An agent whose heartbeat is stopped and not pending. -/
def Silent (ext : AgentExt) : Prop := ext.heartbeatIntervalMs = 0 ∧ ext.heartbeatPending = false

theorem Touch.silent {event : Event} {mine : Prop} {ext ext' : AgentExt}
    (h : Touch event mine ext ext')
    (hmine : mine → ∀ i, 0 < i → event ≠ .syscall (.agentHeartbeatSet i)) (hsilent : Silent ext) :
    Silent ext' := by
  obtain ⟨hinterval, hpending⟩ := hsilent
  have of_pulse : ∀ {ext' : AgentExt}, ext'.pulse = ext.pulse → Silent ext' := by
    intro ext' h
    simp only [AgentExt.pulse, Pulse.mk.injEq] at h
    exact ⟨h.1.trans hinterval, h.2.2.trans hpending⟩
  cases h with
  | path h =>
    have hpulse := congrArg AgentExt.pulse h
    exact of_pulse hpulse
  | @heartbeatSet i _ hm hevent =>
    exact ⟨Nat.eq_zero_of_not_pos fun hpos ↦ hmine hm i hpos hevent, rfl⟩
  | heartbeatStop hm hevent => exact ⟨rfl, rfl⟩
  | consume => exact ⟨hinterval, by simp only [AgentExt.consume, hpending, Bool.false_and]⟩
  | heartbeat hevent h =>
    rw [AgentExt.heartbeat, hinterval, if_neg (by simp)] at h
    exact absurd h (by simp)
  | fileEvent h => exact of_pulse (pulse_fileEvent h)
  | _ => exact ⟨hinterval, hpending⟩

variable [KernelLayout] {k k' : Kernel}

/-- What setting the heartbeat leaves. -/
theorem step_heartbeatSet {i : ℕ} (hcur : k.current = some t)
    (h : (step (.syscall (.agentHeartbeatSet i))).Returns k (some 0) k') :
    ∃ ext', k'.extOf t = some ext' ∧ ext'.pulse = ⟨i, k.machine.ms 0, false⟩ := by
  obtain ⟨-, hcall⟩ := returns_step_syscall.mp h
  have hcall : (sysAgentHeartbeatSet i).Returns k (some 0) k' := hcall
  obtain ⟨u, tcb, hu, htcb, ⟨-, hneg, -⟩ | ⟨ext, hext, hbody⟩⟩ := returns_withExt hcall
  · exact absurd (Option.some.inj hneg) (by decide)
  obtain rfl : t = u := Option.some.inj (hcur.symm.trans hu)
  obtain ⟨now, k₁, hnow, hrest⟩ := Exec.returns_bind.mp hbody
  obtain ⟨_, k₂, hmodify, hpure⟩ := Exec.returns_bind.mp hrest
  obtain ⟨m, hm, rfl⟩ := returns_onMachine.mp hnow
  obtain ⟨rfl, rfl⟩ := Machine.returns_getTimeMs.mp hm
  obtain ⟨-, rfl⟩ := Exec.returns_pure.mp hpure
  obtain rfl := Exec.returns_modify.mp hmodify
  have hold : k.extOf t = some ext := (extOf_of_tasks htcb).trans hext
  exact ⟨_, extOf_setExt_self (k := { k with machine := k.machine.later 1 }) _ hold, rfl⟩

/-- What stopping the heartbeat leaves. -/
theorem step_heartbeatStop (hcur : k.current = some t)
    (h : (step (.syscall .agentHeartbeatStop)).Returns k (some 0) k') :
    ∃ ext', k'.extOf t = some ext' ∧ Silent ext' := by
  obtain ⟨-, hcall⟩ := returns_step_syscall.mp h
  obtain ⟨u, hu, ⟨-, hneg, -⟩ | ⟨ext, hext, -, rfl⟩⟩ := returns_updateExt hcall
  · exact absurd (Option.some.inj hneg) (by decide)
  · obtain rfl : t = u := Option.some.inj (hcur.symm.trans hu)
    exact ⟨_, extOf_setExt_self _ hext, rfl, rfl⟩

/-- **The rate of a heartbeat.** From a call that sets it to the next that sets or stops it, it fires
and is reported once per interval at most. From a call that stops it to the next that sets it to a
positive interval, it is not reported. -/
theorem heartbeat_rate (hk : Reachable k) (h : Trace k (tr ++ x :: tr') k') :
    (∀ i, 0 < i → x.Calls t (.agentHeartbeatSet i) → x.result = some 0 →
      (∀ z ∈ tr', z.before.current = some t → ¬SetsHeartbeat z.event) →
      ClockSteady (tr ++ x :: tr') k' →
      HeartbeatRate tr' t i (x.before.machine.ms 0) (k'.machine.ms 0)) ∧
    (x.Calls t .agentHeartbeatStop ∨ x.Calls t (.agentHeartbeatSet 0) → x.result = some 0 →
      (∀ z ∈ tr', ∀ i, 0 < i → ¬z.Calls t (.agentHeartbeatSet i)) →
      ∀ z ∈ tr', ¬z.ReportsHeartbeat t) := by
  obtain ⟨k₁, hbefore, hfrom⟩ := h.split
  obtain ⟨rfl, hstep, hrest⟩ := hfrom.uncons
  have hk₁ : Reachable x.before := hbefore.reach hk fun _ _ ↦ trivial
  have hk₂ : Reachable x.after := hk₁.step trivial hstep
  constructor
  · rintro i hpos ⟨hevent, hcur⟩ hresult hkeep hclock
    rw [hevent, hresult] at hstep
    obtain ⟨ext, hext, hpulse⟩ := step_heartbeatSet hcur hstep
    obtain ⟨q, hrun, -⟩ := Trace.pulse hk₂ hrest hext hkeep
    rw [hpulse] at hrun
    -- the clock at the start, at the firings and now
    have hsteady := (List.pairwise_append.mp hclock).2.2
    have hnow : ∀ z ∈ tr ++ x :: tr', z.before.machine.ms 0 ≤ k'.machine.ms 0 := fun z hz ↦
      hsteady _ (List.mem_map_of_mem hz) _ (List.mem_singleton_self _)
    have hfired : ∀ a ∈ Pulse.fired (tr'.map fun x ↦ x.beat t), a ≤ k'.machine.ms 0 := by
      intro a ha
      rw [fired_beat] at ha
      obtain ⟨z, hz, rfl⟩ := List.mem_map.mp ha
      exact hnow z (List.mem_append_right _ (List.mem_cons_of_mem x (List.mem_of_mem_filter hz)))
    obtain ⟨-, hspaced, -⟩ := hrun.spec
    obtain ⟨hfirings, hreports⟩ := hrun.rate rfl hpos
      (hnow x (List.mem_append_right _ List.mem_cons_self)) hfired
    rw [fired_beat] at hspaced hfirings
    rw [lowered_beat] at hreports
    exact ⟨hspaced, hfirings, hreports⟩
  · intro hstop hresult hnever z hz hreports
    obtain ⟨ext, hext, hsilent⟩ : ∃ ext, x.after.extOf t = some ext ∧ Silent ext := by
      rcases hstop with ⟨hevent, hcur⟩ | ⟨hevent, hcur⟩
      · rw [hevent, hresult] at hstep
        exact step_heartbeatStop hcur hstep
      · rw [hevent, hresult] at hstep
        obtain ⟨ext, hext, hpulse⟩ := step_heartbeatSet hcur hstep
        simp only [AgentExt.pulse, Pulse.mk.injEq] at hpulse
        exact ⟨ext, hext, hpulse.1, hpulse.2.2⟩
    obtain ⟨hstepz, before, after, rfl, htrace⟩ := hrest.of_mem hz
    obtain ⟨v, ⟨hv, hwait⟩, hbit⟩ := hreports
    have hinv : ∀ ext, z.before.extOf t = some ext → Silent ext := by
      refine Trace.agent_invariant hk₂ htrace (fun e he ↦ ?_) (fun hnone ↦ ?_)
        fun y hy e e' _ hI htouches ↦ ?_
      · rwa [← Option.some.inj (hext.symm.trans he)]
      · exact absurd (hext.symm.trans hnone) (by simp)
      · refine Touches.invariant (fun _ _ hI ht ↦ ht.silent (fun hmine i hpos hevent ↦ ?_) hI)
          htouches hI
        exact hnever y (List.mem_append_left _ hy) i hpos ⟨hevent, hmine⟩
    have hc := (htrace.reach (A := fun _ _ ↦ True) hk₂ fun _ _ ↦ trivial).sound.coherent
    rw [hv] at hstepz
    obtain ⟨_, _, -, ⟨rfl, -⟩ | ⟨e, he, rfl, -⟩⟩ := step_wait_returns hc hstepz hwait
    · exact absurd hbit (by simp)
    · rw [Int.toNat_natCast] at hbit
      have hpending := testBit_zero_triggered hbit
      rw [(hinv e he).2] at hpending
      exact absurd hpending (by simp)

end Rate

section Sample

attribute [local instance] sampleLayout

private def agentEvents : List Event := [.schedule, .syscall (.agentCreate 0)]

private def waitEvents : List Event := [.timer, .schedule, .syscall (.agentWait 0)]

/-- An agent sets its heartbeat to a millisecond, and waits after an interrupt. -/
theorem heartbeat_rate_wait : ∃ k₀ tr x tr' k, Trace k₀ (tr ++ x :: tr') k ∧
    x.Calls 0 (.agentHeartbeatSet 1) ∧
    HeartbeatRate tr' 0 1 (x.before.machine.ms 0) (k.machine.ms 0) := by
  let k₁ := (sampleRun sampleElf agentEvents).2
  let k₂ := (step (.syscall (.agentHeartbeatSet 1)) k₁).2
  let k₃ := (runAll waitEvents k₂).2
  have hbefore : Trace (sampleStart sampleElf) (transitions (sampleStart sampleElf) agentEvents) k₁ :=
    trace_sampleRun (by decide +kernel)
  have hx : (step (.syscall (.agentHeartbeatSet 1))).Returns k₁ (some 0) k₂ :=
    Exec.returns_of_fst (by decide +kernel)
  have hafter : Trace k₂ (transitions k₂ waitEvents) k₃ := trace_runAll (by decide +kernel)
  have hcur : k₁.current = some 0 := by decide +kernel
  have hclock : ClockSteady (transitions (sampleStart sampleElf) agentEvents ++
      ⟨k₁, .syscall (.agentHeartbeatSet 1), some 0, k₂⟩ :: transitions k₂ waitEvents) k₃ := by
    unfold ClockSteady
    decide +kernel
  clear_value k₃ k₂ k₁
  have htrace := hbefore.append (.cons hx hafter)
  refine ⟨_, _, _, _, k₃, htrace, ⟨rfl, hcur⟩,
    (heartbeat_rate (starts_sampleStart (by decide +kernel)).reachable htrace).1 1 one_pos ⟨rfl, hcur⟩
      rfl (fun z hz _ hsets ↦ ?_) hclock⟩
  have hmem := event_of_mem_transitions hz
  rcases hsets with ⟨i, hevent⟩ | hevent
  · rw [hevent] at hmem
    exact absurd hmem (by simp [waitEvents])
  · rw [hevent] at hmem
    exact absurd hmem (by simp [waitEvents])

end Sample

end Kernel

end AgentOS
