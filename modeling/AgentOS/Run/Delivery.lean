import AgentOS.Run.Agents

/-!
# Delivering a message

A message is delivered to a process that is found by its identifier among all that were not reaped. If
it is an agent, the message goes to its mailbox, also when the process has ended and nobody will read
it. Delivering never stops the kernel, since every mailbox has room for thirty-two messages.
-/

namespace AgentOS

namespace Kernel

/-! ## Mailboxes -/

section Mailboxes

variable {event : Event} {mine : Prop} {ext ext' : AgentExt}

/-- The bound of a mailbox. -/
def Roomy (ext : AgentExt) : Prop := ext.mailboxCapacity = 32 ∧ ext.mailbox.length ≤ 32

theorem Touch.roomy (h : Touch event mine ext ext') (hroomy : Roomy ext) : Roomy ext' := by
  obtain ⟨hcapacity, hlength⟩ := hroomy
  have of_eq : ∀ {ext' : AgentExt}, ext'.mailboxCapacity = ext.mailboxCapacity →
      ext'.mailbox = ext.mailbox → Roomy ext' := by
    intro ext' hc hm
    exact ⟨hc.trans hcapacity, hm ▸ hlength⟩
  cases h with
  | path h =>
    have hc := congrArg AgentExt.mailboxCapacity h
    have hm := congrArg AgentExt.mailbox h
    exact of_eq hc hm
  | accept payload =>
    refine ⟨hcapacity, ?_⟩
    rw [AgentExt.accept, hcapacity]
    split
    · rw [List.length_append, List.length_tail, List.length_singleton]
      omega
    · rw [List.length_append, List.length_singleton]
      omega
  | receive hmsg =>
    refine ⟨hcapacity, ?_⟩
    rw [hmsg, List.length_cons] at hlength
    exact (Nat.le_succ _).trans hlength
  | heartbeat hevent h =>
    unfold AgentExt.heartbeat at h
    split at h
    · obtain rfl := Option.some.inj h
      exact ⟨hcapacity, hlength⟩
    · exact absurd h (by simp)
  | fileEvent h =>
    unfold AgentExt.fileEvent at h
    split at h
    · obtain rfl := Option.some.inj h
      exact ⟨hcapacity, hlength⟩
    · exact absurd h (by simp)
  | _ => exact ⟨hcapacity, hlength⟩

end Mailboxes

section Runs

variable [KernelLayout] {k : Kernel} {I : AgentExt → Prop}

/-- **An invariant of all agents** holds of a new one, and each effect keeps it. -/
theorem Reach.agents {boots : Elf → Prop} {allowed : Kernel → Event → Prop}
    (h : Reach boots allowed k) (hfresh : I freshExt)
    (htouch : ∀ event mine ext ext', I ext → Touch event mine ext ext' → I ext') {t : ℕ}
    {ext : AgentExt} (hext : k.extOf t = some ext) : I ext := by
  induction h generalizing t ext with
  | boot h₀ hb hinit =>
    obtain ⟨hload, hpid, hstack⟩ := boot_effect hinit
    change Option.bind (if t = _ then _ else _) _ = some ext at hext
    rw [h₀.tasks] at hext
    split at hext <;> exact absurd hext (Option.some_ne_none ext).symm
  | @step k k' event r hk _ hstep ih =>
    rcases step_follows hk.family.fresh hstep t with hfollows | hdead | ⟨-, hnew, -⟩
    · rcases hold : k.extOf t with _ | old
      · rw [hold] at hfollows
        rw [hfollows.eq_none] at hext
        exact absurd hext (by simp)
      · rw [hold] at hfollows
        obtain ⟨ext', hext', htouches⟩ := hfollows.exists_some
        obtain rfl := Option.some.inj (hext'.symm.trans hext)
        exact Touches.invariant (htouch _ _) htouches (ih hold)
    · rw [extOf, hdead] at hext
      exact absurd hext (by simp)
    · obtain rfl := Option.some.inj (hnew.symm.trans hext)
      exact hfresh

theorem Reach.roomy {boots : Elf → Prop} {allowed : Kernel → Event → Prop}
    (h : Reach boots allowed k) {t : ℕ} {ext : AgentExt} (hext : k.extOf t = some ext) : Roomy ext :=
  h.agents ⟨rfl, Nat.zero_le _⟩ (fun _ _ _ _ hroomy ht ↦ ht.roomy hroomy) hext

end Runs

/-! ## The receiver -/

/-- The process with an identifier is an agent. It may have exited, if nobody has waited for it. -/
def HasAgent (k : Kernel) (pid : ℕ) : Prop :=
  ∃ t tcb, k.tasks t = some tcb ∧ tcb.pid = pid ∧ tcb.agentExt.isSome

/-- The process with an identifier is an agent that has not exited. -/
def HasLiveAgent (k : Kernel) (pid : ℕ) : Prop :=
  ∃ t tcb, k.tasks t = some tcb ∧ tcb.pid = pid ∧ tcb.agentExt.isSome ∧ tcb.taskStatus ≠ .zombie

section Deliver

variable [KernelLayout] {k k' : Kernel} {pid : ℕ} {payload : List UInt8}

omit [KernelLayout] in
theorem pidOf_of_tasks_eq {t : ℕ} {tcb : TaskControlBlock} (h : k.tasks t = some tcb) :
    k.pidOf t = some tcb.pid := by
  rw [pidOf, h]
  rfl

omit [KernelLayout] in
/-- The walk over all processes finds the one with an identifier. -/
theorem Family.find_pid (h : Family k) {ts : List ℕ} (hts : k.snapshotAllProcesses = some ts)
    {t : ℕ} (ht : k.pidOf t = some pid) :
    (ts.find? fun t ↦ k.pidOf t = some pid) = some t := by
  obtain ⟨ts', hts', -, hmem⟩ := h.snapshot
  obtain rfl := Option.some.inj (hts.symm.trans hts')
  have hlive : t ∈ ts := (hmem t).mpr fun hnone ↦ by
    rw [pidOf, hnone] at ht
    exact absurd ht (by simp)
  rcases hfind : ts.find? (fun t ↦ k.pidOf t = some pid) with _ | u
  · have hnot := List.find?_eq_none.mp hfind t hlive
    exact absurd (decide_eq_true ht) hnot
  · have hu : k.pidOf u = some pid := by simpa using List.find?_some hfind
    rw [h.pid_inj u t pid hu ht]

/-- **A delivery** returns, and says whether the process with the identifier is an agent. If it is
not, nothing happens. -/
theorem deliverMessage_spec (hk : Reachable k) (pid : ℕ) (payload : List UInt8) :
    ∃ b k', (deliverMessage pid payload).Returns k b k' ∧ (b = true ↔ HasAgent k pid) ∧
      (b = false → k' = k) := by
  have hfamily := hk.family
  obtain ⟨ts, hts, -, hmem⟩ := hfamily.snapshot
  have hread : ∀ (f : Kernel → List ℕ → Exec Kernel Bool), (do
      let k ← Exec.get
      let tasks ← Exec.unwrap k.snapshotAllProcesses
      f k tasks : Exec Kernel Bool) k = f k ts k := by
    intro f
    have hget : (Exec.get : Exec Kernel Kernel).Returns k k k := rfl
    have hunwrap : (Exec.unwrap k.snapshotAllProcesses : Exec Kernel _).Returns k ts k :=
      Exec.returns_unwrap.mpr ⟨hts, rfl⟩
    rw [hget.bind_apply, hunwrap.bind_apply]
  have none_of : (∀ t, k.pidOf t = some pid → k.extOf t = none) → ¬HasAgent k pid := by
    rintro hnone ⟨t, tcb, htcb, rfl, hagent⟩
    have hext := hnone t (pidOf_of_tasks_eq htcb)
    rw [extOf_of_tasks htcb] at hext
    rw [hext] at hagent
    exact absurd hagent (by simp)
  rcases hfind : ts.find? (fun t ↦ k.pidOf t = some pid) with _ | t
  · refine ⟨false, k, (hread _).trans ?_, ?_, fun _ ↦ rfl⟩
    · rw [hfind]
      rfl
    · refine iff_of_false Bool.false_ne_true (none_of fun t ht ↦ ?_)
      exact absurd ((hfamily.find_pid hts ht).symm.trans hfind) (by simp)
  · have ht : k.pidOf t = some pid := by simpa using List.find?_some hfind
    rcases hext : k.extOf t with _ | ext
    · refine ⟨false, k, (hread _).trans ?_, ?_, fun _ ↦ rfl⟩
      · rw [hfind]
        simp only [hext]
        rfl
      · refine iff_of_false Bool.false_ne_true (none_of fun u hu ↦ ?_)
        rwa [hfamily.pid_inj u t pid hu ht]
    · have hroom : ¬(ext.mailboxCapacity ≤ ext.mailbox.length ∧ ext.mailbox = []) := by
        rintro ⟨hfull, hempty⟩
        rw [(hk.roomy hext).1, hempty] at hfull
        exact absurd hfull (by decide)
      refine ⟨true, k.deliver t pid ext payload, (hread _).trans ?_, ?_, fun h ↦ ?_⟩
      · rw [hfind]
        simp only [hext]
        have hmodify : (Exec.modify fun k ↦ k.deliver t pid ext payload).Returns k ()
            (k.deliver t pid ext payload) := rfl
        exact (Exec.returns_assert_of hroom k).bind (hmodify.bind (Exec.returns_pure.mpr ⟨rfl, rfl⟩))
      · obtain ⟨tcb, htcb, hagent⟩ := extOf_eq_some.mp hext
        refine iff_of_true rfl ⟨t, tcb, htcb, ?_, by rw [hagent]; rfl⟩
        exact Option.some.inj ((pidOf_of_tasks_eq htcb).symm.trans ht)
      · exact absurd h (by simp)

/-- **An accepted message has a receiver** that was not reaped, and a message that is not accepted
changes nothing; the tool says which. -/
theorem delivery_finds_agent (hk : Reachable k) (pid : ℕ) (payload : List UInt8) :
    (∃ b k', (deliverMessage pid payload).Returns k b k' ∧ (b = true ↔ HasAgent k pid) ∧
      (b = false → k' = k)) ∧
    ∀ req : ToolRequest, req.tool = .sendMessage → req.params = .sendMessage pid payload →
      ∃ status k', (dispatch req).Returns k (.ok ⟨status, []⟩) k' ∧
        (status = .ok ↔ HasAgent k pid) ∧ (status ≠ .ok → status = .permissionDenied ∧ k' = k) := by
  obtain ⟨b, k', hdeliver, hb, hsame⟩ := deliverMessage_spec hk pid payload
  refine ⟨⟨b, k', hdeliver, hb, hsame⟩, fun req htool hparams ↦ ?_⟩
  have hsend : (dispatch req).Returns k
      (.ok ⟨if b then .ok else .permissionDenied, []⟩) k' := by
    rw [dispatch, htool]
    show (sendMessage req).Returns k _ k'
    rw [sendMessage, hparams]
    exact hdeliver.bind (Exec.returns_pure.mpr ⟨rfl, rfl⟩)
  refine ⟨_, k', hsend, ?_, fun hnot ↦ ?_⟩
  · rw [← hb]
    cases b <;> simp
  · cases b with
    | false => exact ⟨rfl, hsame rfl⟩
    | true => exact absurd rfl hnot

end Deliver

section Sample

attribute [local instance] sampleLayout

/-- A child becomes an agent and exits. -/
private def orphanedEvents : List Event :=
  [.schedule, .syscall .fork, .timer, .schedule, .syscall (.agentCreate 0), .syscall (.exit 0),
    .schedule]

theorem delivery_finds_agent_none :
    let k := (sampleRun sampleElf orphanedEvents).2
    (∃ b k', (deliverMessage 7 []).Returns k b k' ∧ (b = true ↔ HasAgent k 7) ∧
      (b = false → k' = k)) ∧
    ∀ req : ToolRequest, req.tool = .sendMessage → req.params = .sendMessage 7 [] →
      ∃ status k', (dispatch req).Returns k (.ok ⟨status, []⟩) k' ∧
        (status = .ok ↔ HasAgent k 7) ∧ (status ≠ .ok → status = .permissionDenied ∧ k' = k) :=
  delivery_finds_agent (reach_sampleRun (by decide +kernel) (by decide +kernel) trivial
    fun _ _ _ ↦ trivial) 7 []

/-- While the parent has not waited for it, the child that exited is sent a message. -/
theorem delivers_to_zombie : ∃ k pid payload k', Reachable k ∧
    (deliverMessage pid payload).Returns k true k' ∧ ¬HasLiveAgent k pid := by
  let k := (sampleRun sampleElf orphanedEvents).2
  have hk : Reachable k := reach_sampleRun (by decide +kernel) (by decide +kernel) trivial
    fun _ _ _ ↦ trivial
  have hpid : k.pidOf 1 = some 1 := by decide +kernel
  have hzombie : (k.tasks 1).map TaskControlBlock.taskStatus = some .zombie := by decide +kernel
  have hdeliver : (deliverMessage 1 [65]).Returns k true _ :=
    Exec.returns_of_fst (by decide +kernel)
  clear_value k
  refine ⟨k, 1, [65], _, hk, hdeliver, ?_⟩
  rintro ⟨t, tcb, htcb, hone, -, hlive⟩
  obtain rfl := hk.family.pid_inj t 1 1 (hone ▸ pidOf_of_tasks_eq htcb) hpid
  rw [htcb] at hzombie
  exact hlive (Option.some.inj hzombie)

end Sample

end Kernel

end AgentOS
