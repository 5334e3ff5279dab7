import AgentOS.Run.Waiting

/-!
# Subscriptions

An agent says by `sys_agent_watch` and `sys_agent_unwatch` which events its waits look for. Nothing else
changes what it watches. An agent that watches nothing is taken to wait for heartbeats and messages,
whether it never watched anything or has just given up the last event.
-/

namespace AgentOS

open Scheduler

/-- A call of a task in a run. -/
def Kernel.Transition.Calls (x : Transition) (t : ℕ) (call : Syscall) : Prop :=
  x.event = .syscall call ∧ x.before.current = some t

/-- A wait of a task that returns. -/
def Kernel.Transition.WaitReturned (x : Transition) (t : ℕ) (v : ℤ) : Prop :=
  x.result = some v ∧ WaitsIn x.event x.before x.after t

/-- What stays of a set of events when others are given up. -/
def unwatched (watched eventMask : ℕ) : ℕ := watched &&& ((2 ^ 32 - 1) ^^^ (eventMask % 2 ^ 32))

namespace Kernel

/-! ## What an agent watches -/

section Watched

variable {event : Event} {mine : Prop} {ext ext' : AgentExt}

theorem watched_of_sansPath (h : ext'.sansPath = ext.sansPath) :
    ext'.watchedEvents = ext.watchedEvents := by
  have hw := congrArg AgentExt.watchedEvents h
  exact hw

theorem watched_heartbeat {now : ℕ} (h : ext.heartbeat now = some ext') :
    ext'.watchedEvents = ext.watchedEvents := by
  unfold AgentExt.heartbeat at h
  split at h
  · obtain rfl := Option.some.inj h
    rfl
  · exact absurd h (by simp)

theorem watched_fileEvent (h : ext.fileEvent = some ext') :
    ext'.watchedEvents = ext.watchedEvents := by
  unfold AgentExt.fileEvent at h
  split at h
  · obtain rfl := Option.some.inj h
    rfl
  · exact absurd h (by simp)

/-- One effect changes what an agent watches if it is a call of the agent to that end. -/
theorem Touch.watched (h : Touch event mine ext ext') :
    ext'.watchedEvents = ext.watchedEvents ∨
      (mine ∧ ∃ m, event = .syscall (.agentWatch m) ∧
        ext'.watchedEvents = ext.watchedEvents ||| m % 2 ^ 32) ∨
      (mine ∧ ∃ m, event = .syscall (.agentUnwatch m) ∧
        ext'.watchedEvents = unwatched ext.watchedEvents m) := by
  cases h with
  | path h => exact Or.inl (watched_of_sansPath h)
  | watch hm hevent => exact Or.inr (Or.inl ⟨hm, _, hevent, rfl⟩)
  | unwatch hm hevent => exact Or.inr (Or.inr ⟨hm, _, hevent, rfl⟩)
  | heartbeat hevent h => exact Or.inl (watched_heartbeat h)
  | fileEvent h => exact Or.inl (watched_fileEvent h)
  | _ => exact Or.inl rfl

theorem unwatched_unwatched (w m : ℕ) : unwatched (unwatched w m) m = unwatched w m := by
  rw [unwatched, unwatched, Nat.and_assoc, Nat.and_self]

/-- **An event changes what an agent watches** if it is a call of the agent to that end. -/
theorem Touches.watched (h : Touches event mine ext ext') :
    ext'.watchedEvents = ext.watchedEvents ∨
      (mine ∧ ∃ m, event = .syscall (.agentWatch m) ∧
        ext'.watchedEvents = ext.watchedEvents ||| m % 2 ^ 32) ∨
      (mine ∧ ∃ m, event = .syscall (.agentUnwatch m) ∧
        ext'.watchedEvents = unwatched ext.watchedEvents m) := by
  induction h with
  | refl => exact Or.inl rfl
  | tail _ hstep ih =>
    rcases hstep.watched with heq | ⟨hm, m, hevent, heq⟩ | ⟨hm, m, hevent, heq⟩
    · rw [heq]
      exact ih
    · refine Or.inr (Or.inl ⟨hm, m, hevent, ?_⟩)
      rcases ih with h | ⟨-, m', hevent', h⟩ | ⟨-, m', hevent', h⟩
      · rw [heq, h]
      · obtain rfl : m' = m := by simpa [hevent] using hevent'.symm
        rw [heq, h, Nat.or_assoc, Nat.or_self]
      · exact absurd (hevent.symm.trans hevent') (by simp)
    · refine Or.inr (Or.inr ⟨hm, m, hevent, ?_⟩)
      rcases ih with h | ⟨-, m', hevent', h⟩ | ⟨-, m', hevent', h⟩
      · rw [heq, h]
      · exact absurd (hevent.symm.trans hevent') (by simp)
      · obtain rfl : m' = m := by simpa [hevent] using hevent'.symm
        rw [heq, h, unwatched_unwatched]

end Watched

/-! ## Following an agent through a run -/

section Runs

variable [KernelLayout] {k k' : Kernel} {tr : List Transition} {t : ℕ}

/-- **An invariant of an agent:** what each event keeps holds as long as the agent is there, and if it
becomes one during the run, it begins afresh. -/
theorem Trace.agent_invariant {I : AgentExt → Prop} (hk : Reachable k) (h : Trace k tr k')
    (hfirst : ∀ ext, k.extOf t = some ext → I ext) (hnew : k.extOf t = none → I freshExt)
    (hstep : ∀ x ∈ tr, ∀ ext ext', x.before.extOf t = some ext → I ext →
      Touches x.event (x.before.current = some t) ext ext' → I ext') :
    ∀ ext, k'.extOf t = some ext → I ext := by
  -- once the agent is gone, its reference is not used again
  have key : (∀ ext, k'.extOf t = some ext → I ext) ∧
      (k'.extOf t = none → k.extOf t = none ∨ (k'.tasks t = none ∧ t < k'.nextTask)) := by
    induction h with
    | nil => exact ⟨hfirst, Or.inl⟩
    | @snoc k₁ k₂ tr event r htrace hlast ih =>
      obtain ⟨hI, hgone⟩ := ih fun x hx ↦ hstep x (List.mem_append_left _ hx)
      have hfamily := (htrace.reach (A := fun _ _ ↦ True) hk fun _ _ ↦ trivial).family
      have hsucceeds := hfamily.succeeds hlast
      have hstep := hstep ⟨k₁, event, r, k₂⟩
        (List.mem_append_right _ (List.mem_singleton.mpr rfl))
      rcases step_follows hfamily.fresh hlast t with hfollows | hdead | ⟨hnone, hfresh, hcur, -⟩
      · rcases hext : k₁.extOf t with _ | ext
        · rw [hext] at hfollows
          have hnone : k₂.extOf t = none := hfollows.eq_none
          refine ⟨fun ext hext₂ ↦ ?_, fun _ ↦ ?_⟩
          · rw [hnone] at hext₂
            exact absurd hext₂ (by simp)
          · rcases hgone hext with hk | ⟨hdead, hlt⟩
            · exact Or.inl hk
            · exact Or.inr ⟨hsucceeds.gone t hlt hdead, hlt.trans_le hsucceeds.nextTask_le⟩
        · rw [hext] at hfollows
          obtain ⟨ext', hext', htouches⟩ := hfollows.exists_some
          refine ⟨fun e he ↦ ?_, fun hnone ↦ ?_⟩
          · obtain rfl := Option.some.inj (hext'.symm.trans he)
            exact hstep ext ext' hext (hI ext hext) htouches
          · rw [hext'] at hnone
            exact absurd hnone (by simp)
      · have hnone : k₂.extOf t = none := by rw [extOf, hdead]; rfl
        refine ⟨fun ext hext ↦ ?_, fun _ ↦ ?_⟩
        · rw [hnone] at hext
          exact absurd hext (by simp)
        · rcases htcb : k₁.tasks t with _ | tcb
          · rcases hgone (by rw [extOf, htcb]; rfl) with hk | ⟨-, hlt⟩
            · exact Or.inl hk
            · exact Or.inr ⟨hdead, hlt.trans_le hsucceeds.nextTask_le⟩
          · refine Or.inr ⟨hdead, lt_of_lt_of_le ?_ hsucceeds.nextTask_le⟩
            by_contra hle
            rw [hfamily.fresh t (not_lt.mp hle)] at htcb
            exact absurd htcb (by simp)
      · have hlive : k₁.tasks t ≠ none := fun hdead ↦ by
          have hplace := (hfamily.coherent.current_iff t).mp hcur
          exact absurd hplace (by simp [sched, hdead])
        have hk : k.extOf t = none := (hgone hnone).resolve_right fun h ↦ hlive h.1
        refine ⟨fun ext hext ↦ ?_, fun _ ↦ Or.inl hk⟩
        obtain rfl := Option.some.inj (hfresh.symm.trans hext)
        exact hnew hk
  exact key.1

end Runs

/-! ## Giving up events -/

/-- An event that an agent does not watch is not among those that end its wait, unless it watches
nothing. -/
theorem testBit_triggered {ext : AgentExt} {i : ℕ} (h : ext.watchedEvents.testBit i = false)
    (hdefault : 2 ≤ i ∨ ext.watchedEvents ≠ 0) : ext.triggered.testBit i = false := by
  have hmask : ext.waitMask.testBit i = false := by
    unfold AgentExt.waitMask
    split
    · rename_i hzero
      have hi := hdefault.resolve_right (not_not.mpr hzero)
      exact Nat.testBit_lt_two_pow (lt_of_lt_of_le (by decide) (Nat.pow_le_pow_right two_pos hi))
    · exact h
  rw [AgentExt.triggered, Nat.testBit_and, hmask, Bool.and_false]

section Unwatch

variable [KernelLayout] {k k' : Kernel} {tr : List Transition} {t i m : ℕ}

end Unwatch

section Sample

attribute [local instance] sampleLayout

end Sample

/-! ## Watching nothing -/

/-- The next wait of a task that returns reports that a file was modified. -/
def ReportsFileEvent (tr : List Transition) (t : ℕ) : Prop :=
  ∀ before y after v, tr = before ++ y :: after → (∀ z ∈ before, ∀ w, ¬z.WaitReturned t w) →
    y.WaitReturned t v → v.toNat.testBit 2

/-- A change of the file attributes that is told to the agents. -/
def Transition.Broadcasts (x : Transition) : Prop :=
  (∃ namePtr nameLen tagPtr tagLen,
      x.event = .syscall (.fileAttrSet namePtr nameLen tagPtr tagLen) ∧ x.result = some 0) ∨
    ∃ namePtr nameLen tagPtr tagLen,
      x.event = .syscall (.fileAttrDel namePtr nameLen tagPtr tagLen) ∧ x.result = some 1

/-- An occasion to tell an agent of a change of the file attributes: the agent is there and has not
exited, it never says what it watches, and it waits, at the time of the change or later. -/
structure Occasion (tr : List Transition) (x : Transition) (tr' : List Transition) (t : ℕ) :
    Prop where
  broadcasts : x.Broadcasts
  agent : (x.before.extOf t).isSome
  live : x.before.sched.place t ≠ some .finished
  never : ∀ z ∈ tr ++ x :: tr', ∀ m, ¬z.Calls t (.agentWatch m)
  returns : ∃ y ∈ tr', ∃ v, y.WaitReturned t v

/-- An agent that watches nothing and has not heard of a file event. -/
def Deaf (ext : AgentExt) : Prop := ext.watchedEvents = 0 ∧ ext.fileEventPending = false

theorem Touch.deaf {event : Event} {mine : Prop} {ext ext' : AgentExt}
    (h : Touch event mine ext ext') (hnever : mine → ∀ m, event ≠ .syscall (.agentWatch m))
    (hdeaf : Deaf ext) : Deaf ext' := by
  obtain ⟨hwatched, hpending⟩ := hdeaf
  cases h with
  | path h =>
    have hp := congrArg AgentExt.fileEventPending h
    exact ⟨(watched_of_sansPath h).trans hwatched, hp.trans hpending⟩
  | watch hm hevent => exact absurd hevent (hnever hm _)
  | unwatch hm hevent =>
    refine ⟨?_, hpending⟩
    simp only [hwatched, Nat.zero_and]
  | consume hwaits => exact ⟨hwatched, by simp only [AgentExt.consume, hpending, Bool.false_and]⟩
  | heartbeat hevent h =>
    refine ⟨(watched_heartbeat h).trans hwatched, ?_⟩
    unfold AgentExt.heartbeat at h
    split at h
    · obtain rfl := Option.some.inj h
      exact hpending
    · exact absurd h (by simp)
  | fileEvent h =>
    rw [AgentExt.fileEvent, hwatched, Nat.zero_and, if_neg (by simp)] at h
    exact absurd h (by simp)
  | _ => exact ⟨hwatched, hpending⟩

theorem Touches.deaf {event : Event} {mine : Prop} {ext ext' : AgentExt}
    (h : Touches event mine ext ext') (hnever : mine → ∀ m, event ≠ .syscall (.agentWatch m))
    (hdeaf : Deaf ext) : Deaf ext' := by
  induction h with
  | refl => exact hdeaf
  | tail _ hstep ih => exact hstep.deaf hnever ih

theorem not_testBit_triggered_of_deaf {ext : AgentExt} (h : Deaf ext) :
    ext.triggered.testBit 2 = false :=
  testBit_triggered (by rw [h.1, Nat.zero_testBit]) (Or.inl le_rfl)

section Default

variable [KernelLayout] {k₀ k : Kernel} {tr tr' : List Transition} {x : Transition} {t : ℕ}

/-- The first process is no agent. -/
theorem Starts.extOf (h₀ : Starts k₀) : k₀.extOf t = none := by
  obtain ⟨k₁, elf, hinitial, hboot⟩ := h₀
  obtain ⟨hload, hpid, hstack⟩ := boot_effect hboot
  show Option.bind (if t = k₁.nextTask then _ else k₁.tasks t) _ = none
  split
  · rfl
  · rw [hinitial.tasks]
    rfl

/-- As long as an agent never says what it watches, no wait of it reports that a file was modified. -/
theorem Trace.not_reported (h₀ : Starts k₀) (h : Trace k₀ tr k)
    (hnever : ∀ z ∈ tr, ∀ m, ¬z.Calls t (.agentWatch m)) {y : Transition} (hy : y ∈ tr) {v : ℤ}
    (hreturn : y.WaitReturned t v) : ¬v.toNat.testBit 2 := by
  obtain ⟨hv, hwait⟩ := hreturn
  obtain ⟨hstep, before, after, rfl, hbefore⟩ := h.of_mem hy
  have hdeaf : ∀ ext, y.before.extOf t = some ext → Deaf ext := by
    refine Trace.agent_invariant h₀.reachable hbefore (fun ext hext ↦ ?_) (fun _ ↦ ⟨rfl, rfl⟩)
      fun z hz ext ext' _ hI htouches ↦ ?_
    · exact absurd (h₀.extOf.symm.trans hext) (by simp)
    · exact htouches.deaf (fun hmine m hevent ↦
        hnever z (List.mem_append_left _ hz) m ⟨hevent, hmine⟩) hI
  have hc := (hbefore.reach (A := fun _ _ ↦ True) h₀.reachable fun _ _ ↦ trivial).sound.coherent
  rw [hv] at hstep
  obtain ⟨_, _, -, ⟨rfl, -⟩ | ⟨ext, hext, rfl, -⟩⟩ := step_wait_returns hc hstep hwait
  · simp
  · rw [Int.toNat_natCast, not_testBit_triggered_of_deaf (hdeaf ext hext)]
    exact Bool.false_ne_true

/-- **Watching nothing is not watching everything:** on no occasion is an agent that watches nothing
told of a change of the file attributes. -/
theorem default_misses_file_event (h₀ : Starts k₀) (h : Trace k₀ (tr ++ x :: tr') k)
    (hoccasion : Occasion tr x tr' t) : ¬ReportsFileEvent tr' t := by
  intro hreports
  obtain ⟨y, hy, v, hreturn⟩ := hoccasion.returns
  -- the first wait that returns
  classical
  obtain ⟨before, y, after, v, rfl, hfirst, hreturn⟩ : ∃ before y after v,
      tr' = before ++ y :: after ∧ (∀ z ∈ before, ∀ w, ¬z.WaitReturned t w) ∧
        y.WaitReturned t v := by
    obtain ⟨y, before, after, hbefore, hwait, heq, -⟩ := List.exists_of_eraseP
      (p := fun z : Transition ↦ decide (∃ w, z.WaitReturned t w)) hy (decide_eq_true ⟨v, hreturn⟩)
    obtain ⟨v, hv⟩ := of_decide_eq_true hwait
    exact ⟨before, y, after, v, heq, fun z hz w hw ↦ hbefore z hz (decide_eq_true ⟨w, hw⟩), hv⟩
  refine h.not_reported h₀ hoccasion.never ?_ hreturn (hreports before y after v rfl hfirst hreturn)
  simp

end Default

section Sample

attribute [local instance] sampleLayout

/-- An agent tags the file `a`. -/
private def tagCall : Event := .syscall (.fileAttrSet 0x10000 1 0 0)

private def tagEvents : List Event := [.schedule, .syscall (.agentCreate 0), .store 0x10000 97]

/-- After the change, the agent waits, and its wait returns nothing. -/
private theorem exists_occasion : ∃ k₀ tr x y k, Starts k₀ ∧ Trace k₀ (tr ++ x :: [y]) k ∧
    Occasion tr x [y] 0 ∧ y.WaitReturned 0 0 := by
  let k₁ := (sampleRun sampleElf tagEvents).2
  let k₂ := (step tagCall k₁).2
  let k₃ := (step (.syscall (.agentWait 0)) k₂).2
  have hbefore : Trace (sampleStart sampleElf) (transitions (sampleStart sampleElf) tagEvents) k₁ :=
    trace_sampleRun (by decide +kernel)
  have hx : (step tagCall).Returns k₁ (some 0) k₂ := Exec.returns_of_fst (by decide +kernel)
  have hy : (step (.syscall (.agentWait 0))).Returns k₂ (some 0) k₃ :=
    Exec.returns_of_fst (by decide +kernel)
  have hext : (k₁.extOf 0).isSome := by decide +kernel
  have hlive : k₁.sched.place 0 ≠ some .finished := by decide +kernel
  have hcur : k₂.current = some 0 := by decide +kernel
  clear_value k₃ k₂ k₁
  refine ⟨_, _, _, _, k₃, starts_sampleStart (by decide +kernel),
    hbefore.append (.cons hx (.cons hy (.nil k₃))), ⟨Or.inl ⟨_, _, _, _, rfl, rfl⟩, hext, hlive,
      fun z hz m hwatch ↦ ?_, _, List.mem_singleton_self _, 0, rfl, Or.inl ⟨0, rfl, hcur⟩⟩,
    rfl, Or.inl ⟨0, rfl, hcur⟩⟩
  have hevent := hwatch.1
  rcases List.mem_append.mp hz with hz | hz
  · have hmem := event_of_mem_transitions hz
    rw [hevent] at hmem
    exact absurd hmem (by simp [tagEvents])
  · rcases List.mem_cons.mp hz with rfl | hz
    · exact absurd hevent (by simp [tagCall])
    · rw [List.mem_singleton.mp hz] at hevent
      exact absurd hevent (by simp)

theorem default_misses_file_event_tag : ∃ tr, ¬ReportsFileEvent tr 0 := by
  obtain ⟨k₀, tr, x, y, k, h₀, h, hoccasion, -⟩ := exists_occasion
  exact ⟨[y], default_misses_file_event h₀ h hoccasion⟩

/-- The next wait after the change returns, and does not report it. -/
theorem not_reportsFileEvent : ∃ k₀ tr x tr' k, Starts k₀ ∧ Trace k₀ (tr ++ x :: tr') k ∧
    Occasion tr x tr' 0 ∧ ¬ReportsFileEvent tr' 0 := by
  obtain ⟨k₀, tr, x, y, k, h₀, h, hoccasion, hreturn⟩ := exists_occasion
  refine ⟨k₀, tr, x, [y], k, h₀, h, hoccasion, fun hreports ↦ ?_⟩
  exact absurd (hreports [] y [] 0 rfl (by simp) hreturn) (by decide)

end Sample

end Kernel

end AgentOS
