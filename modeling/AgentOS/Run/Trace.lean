import AgentOS.Run.Effects

/-!
# Sequences of events

Runs given by the list of their events, and what can be said of one by looking at it from the outside:
its transitions, each with the event, the value a call returned, and the states before and after.
-/

namespace AgentOS

namespace Kernel

section Events

variable [KernelLayout]

/-! ## Running a list of events -/

/-- Do the events in order, and collect the values that calls return. -/
def runAll : List Event → Exec Kernel (List (Option ℤ))
  | [] => pure []
  | event :: events => do
    let r ← step event
    let rs ← runAll events
    pure (r :: rs)

/-- The state after a list of events is one of a run. -/
theorem Reach.runAll {boots : Elf → Prop} {allowed : Kernel → Event → Prop} {k k' : Kernel}
    {events : List Event} {rs : List (Option ℤ)} (hk : Reach boots allowed k)
    (hallowed : ∀ k, ∀ event ∈ events, allowed k event)
    (h : (runAll events).Returns k rs k') : Reach boots allowed k' := by
  induction events generalizing k rs with
  | nil =>
    obtain ⟨-, rfl⟩ := Exec.returns_pure.mp h
    exact hk
  | cons event events ih =>
    obtain ⟨r, k₁, hstep, hrest⟩ := Exec.returns_bind.mp h
    obtain ⟨rs', k₂, hruns, hpure⟩ := Exec.returns_bind.mp hrest
    obtain ⟨-, rfl⟩ := Exec.returns_pure.mp hpure
    exact ih (hk.step (hallowed k event List.mem_cons_self) hstep)
      (fun k e he ↦ hallowed k e (List.mem_cons_of_mem event he)) hruns

/-- The first state of a run. -/
def Starts (k : Kernel) : Prop := ∃ k₀ elf, k₀.Initial ∧ (addInitproc elf).Returns k₀ () k

theorem Starts.reachable {k : Kernel} (h : Starts k) : Reachable k := by
  obtain ⟨k₀, elf, hinitial, hboot⟩ := h
  exact .boot hinitial trivial hboot

/-! ## Transitions -/

/-- One step of a run, seen from the outside. -/
structure Transition where
  before : Kernel
  event : Event
  result : Option ℤ
  after : Kernel

/-- A run from a state to a state, with its transitions in order. -/
inductive Trace : Kernel → List Transition → Kernel → Prop
  | nil (k : Kernel) : Trace k [] k
  | snoc {k k₁ k₂ : Kernel} {tr : List Transition} {event : Event} {r : Option ℤ}
      (h : Trace k tr k₁) (hstep : (step event).Returns k₁ r k₂) :
      Trace k (tr ++ [⟨k₁, event, r, k₂⟩]) k₂

theorem Trace.reach {B : Elf → Prop} {A : Kernel → Event → Prop} {k k' : Kernel}
    {tr : List Transition} (hk : Reach B A k) (h : Trace k tr k')
    (hallowed : ∀ x ∈ tr, A x.before x.event) : Reach B A k' := by
  induction h with
  | nil => exact hk
  | snoc _ hstep ih =>
    have hmem := fun x hx ↦ hallowed x (List.mem_append_left _ hx)
    exact (ih hmem).step (hallowed _ (List.mem_append_right _ (List.mem_singleton.mpr rfl))) hstep

/-- A run and a step before it. -/
theorem Trace.cons {k k₁ k₂ : Kernel} {tr : List Transition} {event : Event} {r : Option ℤ}
    (hstep : (step event).Returns k r k₁) (h : Trace k₁ tr k₂) :
    Trace k (⟨k, event, r, k₁⟩ :: tr) k₂ := by
  induction h with
  | nil => exact Trace.snoc (.nil k) hstep
  | snoc _ hlast ih => exact ih.snoc hlast

/-- A transition of a run is a step, and the run up to there is one. -/
theorem Trace.of_mem {k k' : Kernel} {tr : List Transition} (h : Trace k tr k') {x : Transition}
    (hx : x ∈ tr) : (step x.event).Returns x.before x.result x.after ∧
      ∃ before after, tr = before ++ x :: after ∧ Trace k before x.before := by
  induction h with
  | nil => exact absurd hx List.not_mem_nil
  | @snoc k₁ k₂ tr event r htrace hstep ih =>
    rcases List.mem_append.mp hx with hx | hx
    · obtain ⟨hreturns, before, after, heq, hrun⟩ := ih hx
      exact ⟨hreturns, before, after ++ [⟨k₁, event, r, k₂⟩], by rw [heq]; simp, hrun⟩
    · obtain rfl := List.mem_singleton.mp hx
      exact ⟨hstep, tr, [], rfl, htrace⟩

theorem Trace.append {k k₁ k₂ : Kernel} {tr tr' : List Transition} (h : Trace k tr k₁)
    (h' : Trace k₁ tr' k₂) : Trace k (tr ++ tr') k₂ := by
  induction h' with
  | nil => rwa [List.append_nil]
  | snoc _ hlast ih =>
    rw [← List.append_assoc]
    exact ih.snoc hlast

theorem Trace.split {k k' : Kernel} {tr tr' : List Transition} (h : Trace k (tr ++ tr') k') :
    ∃ k₁, Trace k tr k₁ ∧ Trace k₁ tr' k' := by
  generalize hall : tr ++ tr' = all at h
  induction h generalizing tr' with
  | nil =>
    obtain ⟨rfl, rfl⟩ := List.append_eq_nil_iff.mp hall
    exact ⟨_, .nil _, .nil _⟩
  | @snoc k₁ k₂ all event r h hlast ih =>
    rcases List.eq_nil_or_concat tr' with rfl | ⟨tr'', x, rfl⟩
    · rw [List.append_nil] at hall
      exact ⟨k₂, hall ▸ h.snoc hlast, .nil _⟩
    · rw [List.concat_eq_append, ← List.append_assoc] at hall
      obtain ⟨hall, hx⟩ := List.append_inj' hall rfl
      obtain ⟨k₃, hfirst, hrest⟩ := ih hall
      refine ⟨k₃, hfirst, ?_⟩
      rw [List.concat_eq_append, hx]
      exact hrest.snoc hlast

theorem Trace.eq_of_nil {k k' : Kernel} (h : Trace k [] k') : k' = k := by
  generalize hnil : ([] : List Transition) = tr at h
  cases h with
  | nil => rfl
  | snoc _ _ => exact absurd hnil (by simp)

theorem Trace.eq_of_concat {k k' : Kernel} {tr : List Transition} {x : Transition}
    (h : Trace k (tr ++ [x]) k') : k' = x.after := by
  generalize hall : tr ++ [x] = all at h
  cases h with
  | nil => exact absurd hall (by simp)
  | snoc _ _ =>
    have hx := List.singleton_inj.mp (List.append_inj' hall rfl).2
    rw [hx]

/-- The first transition of a run. -/
theorem Trace.uncons {k k' : Kernel} {x : Transition} {tr : List Transition}
    (h : Trace k (x :: tr) k') : x.before = k ∧ (step x.event).Returns k x.result x.after ∧
      Trace x.after tr k' := by
  obtain ⟨k₁, hfirst, hrest⟩ := Trace.split (show Trace k ([x] ++ tr) k' from h)
  obtain ⟨hstep, before, after, hone, hbefore⟩ := hfirst.of_mem List.mem_cons_self
  obtain ⟨rfl, rfl⟩ : before = [] ∧ after = [] := by
    have hlength := congrArg List.length hone
    simp only [List.length_cons, List.length_nil, List.length_append] at hlength
    constructor <;> exact List.length_eq_zero_iff.mp (by omega)
  have hfrom := hbefore.eq_of_nil
  subst hfrom
  have hlast := Trace.eq_of_concat (show Trace x.before ([] ++ [x]) k₁ from hfirst)
  subst hlast
  exact ⟨rfl, hstep, hrest⟩

/-- The transitions of a list of events, up to the first that panics. -/
def transitions : Kernel → List Event → List Transition
  | _, [] => []
  | k, event :: events =>
    match step event k with
    | (some r, k') => ⟨k, event, r, k'⟩ :: transitions k' events
    | (none, _) => []

theorem trace_transitions {k k' : Kernel} {events : List Event} {rs : List (Option ℤ)}
    (h : (runAll events).Returns k rs k') : Trace k (transitions k events) k' := by
  induction events generalizing k rs with
  | nil =>
    obtain ⟨-, rfl⟩ := Exec.returns_pure.mp h
    exact .nil _
  | cons event events ih =>
    obtain ⟨r, k₁, hstep, hrest⟩ := Exec.returns_bind.mp h
    obtain ⟨rs', k₂, hruns, hpure⟩ := Exec.returns_bind.mp hrest
    obtain ⟨-, rfl⟩ := Exec.returns_pure.mp hpure
    rw [transitions, hstep.eq]
    exact (ih hruns).cons hstep

theorem trace_runAll {k : Kernel} {events : List Event} (h : (runAll events k).1.isSome) :
    Trace k (transitions k events) (runAll events k).2 := by
  obtain ⟨rs, hrs⟩ := Option.isSome_iff_exists.mp h
  exact trace_transitions (Exec.returns_of_fst hrs)

theorem event_of_mem_transitions {k : Kernel} {events : List Event} {x : Transition}
    (hx : x ∈ transitions k events) : x.event ∈ events := by
  induction events generalizing k with
  | nil => exact absurd hx List.not_mem_nil
  | cons event events ih =>
    unfold transitions at hx
    split at hx
    · rcases List.mem_cons.mp hx with rfl | hx
      · exact List.mem_cons_self
      · exact List.mem_cons_of_mem event (ih hx)
    · exact absurd hx List.not_mem_nil

end Events

section Sample

/-! ## A small machine

A kernel before its first process, and a program of one page, for tests. -/

/-- The kernel address space is an empty table; 256 pages are left. A millisecond passes between two
readings of the clock. -/
def sampleKernel : Kernel where
  machine :=
    { sampleMachine with
      frameAllocator := .init 0x83000 0x83100 (by decide)
      clock := fun n ↦ n * 12500 }
  kernelSpace := ⟨⟨0x82000, [0x82000], fun _ _ ↦ .empty⟩, []⟩
  pidAllocator := .new
  tasks _ := none
  nextTask := 0
  readyQueue := []
  current := none
  blockedAgents := []
  fileAttrStore := .new
  history := []

attribute [local instance] sampleLayout

def sampleElf : Elf := ⟨[⟨0x10000, 4096, true, true, true, some []⟩], 0x10000⟩

/-- Each page of the small machine is used once or free once. -/
private theorem pages_sampleKernel (f : ℕ) :
    sampleKernel.kernelSpace.frames.count f + sampleKernel.machine.free f =
      if f = 0x82000 ∨ (0x83000 ≤ f ∧ f < 0x83100) then 1 else 0 := by
  have hspace : sampleKernel.kernelSpace.frames.count f = if f = 0x82000 then 1 else 0 := by
    show [0x82000].count f = _
    rw [List.count_singleton]
    exact if_congr (beq_iff_eq.trans eq_comm) rfl rfl
  have hfree : sampleKernel.machine.free f = if 0x83000 ≤ f ∧ f < 0x83100 then 1 else 0 :=
    Nat.zero_add _
  rw [hspace, hfree]
  split_ifs <;> omega

theorem sampleKernel_initial : sampleKernel.Initial where
  separate f := by
    rw [pages_sampleKernel]
    split_ifs <;> omega
  inRam f h := by
    have hpages : sampleLayout.ekernel / pageSize = 0x81A60 ∧ memoryEnd / pageSize = 0x88000 := by
      decide
    rw [pages_sampleKernel] at h
    show sampleLayout.ekernel / pageSize ≤ f ∧ _
    rw [hpages.1, hpages.2]
    split_ifs at h <;> omega
  pids := rfl
  tasks _ := rfl
  nextTask := rfl
  readyQueue := rfl
  current := rfl
  blockedAgents := rfl
  history := rfl

/-- The small machine with a program in it. -/
def sampleStart (elf : Elf) : Kernel := (addInitproc elf sampleKernel).2

/-- The small machine with a program in it, after the events of a list. -/
def sampleRun (elf : Elf) (events : List Event) : Option (List (Option ℤ)) × Kernel :=
  runAll events (sampleStart elf)

theorem starts_sampleStart {elf : Elf} (h : (addInitproc elf sampleKernel).1.isSome) :
    Starts (sampleStart elf) := by
  obtain ⟨u, hu⟩ := Option.isSome_iff_exists.mp h
  exact ⟨sampleKernel, elf, sampleKernel_initial, Prod.ext hu rfl⟩

theorem trace_sampleRun {elf : Elf} {events : List Event}
    (h : (sampleRun elf events).1.isSome) :
    Trace (sampleStart elf) (transitions (sampleStart elf) events) (sampleRun elf events).2 :=
  trace_runAll h

theorem reach_sampleRun {boots : Elf → Prop} {allowed : Kernel → Event → Prop} {elf : Elf}
    {events : List Event} (h : (sampleRun elf events).1.isSome)
    (hinit : (addInitproc elf sampleKernel).1.isSome) (hboot : boots elf)
    (hallowed : ∀ k, ∀ event ∈ events, allowed k event) :
    Reach boots allowed (sampleRun elf events).2 := by
  obtain ⟨rs, hrs⟩ := Option.isSome_iff_exists.mp h
  obtain ⟨u, hu⟩ := Option.isSome_iff_exists.mp hinit
  have hstart : (addInitproc elf).Returns sampleKernel u (sampleStart elf) := Prod.ext hu rfl
  exact Reach.runAll (.boot sampleKernel_initial hboot hstart) hallowed (Prod.ext hrs rfl)

end Sample

end Kernel

end AgentOS
