import AgentOS.Lib.Scheduler
import AgentOS.Agent.EventBus

/-!
# Views of the kernel state

Statements about runs look at parts of the kernel state. `sched` is what a scheduler is about: where
each task is, and where it says it is. `coreOf` is what only the making, loading and ending of
processes changes. `mailOf` is the mailbox of an agent.

The lemmas say how the views see the changes of one control block, of which the kernel functions are
made.
-/

namespace AgentOS

open Scheduler

def TaskStatus.place : TaskStatus → Place
  | .ready => .ready
  | .running => .running
  | .zombie => .finished
  | .blocked => .blocked

theorem TaskStatus.place_injective : Function.Injective TaskStatus.place := by
  intro s s' h
  cases s <;> cases s' <;> first | rfl | exact absurd h (by decide)

/-- Where the context area of an agent lies. -/
def AgentExt.area (ext : AgentExt) : ℕ × ℕ := (ext.contextAreaBase, ext.contextAreaSize)

/-- The mailbox and its capacity. -/
def AgentExt.mail (ext : AgentExt) : List (List UInt8) × ℕ := (ext.mailbox, ext.mailboxCapacity)

/-- What processes keep while they run. -/
structure TaskCore where
  pid : ℕ
  memorySet : MemorySet
  parent : Option ℕ
  children : List ℕ
  /-- The context area of an agent. -/
  area : Option (ℕ × ℕ)

def TaskControlBlock.core (tcb : TaskControlBlock) : TaskCore :=
  ⟨tcb.pid, tcb.memorySet, tcb.parent, tcb.children, tcb.agentExt.map AgentExt.area⟩

namespace Kernel

/-- The kernel as a scheduler. -/
def sched (k : Kernel) : Sched ℕ where
  place t := (k.tasks t).map fun tcb ↦ tcb.taskStatus.place
  current := k.current
  ready := k.readyQueue
  blocked := k.blockedAgents.map BlockedEntry.task

def coreOf (k : Kernel) (t : ℕ) : Option TaskCore := (k.tasks t).map TaskControlBlock.core

def mailOf (k : Kernel) (t : ℕ) : Option (List (List UInt8) × ℕ) :=
  (k.extOf t).map AgentExt.mail

/-- Where a task goes on. -/
def cxOf (k : Kernel) (t : ℕ) : Option TaskContext := (k.tasks t).map TaskControlBlock.taskCx

theorem pidOf_eq (k : Kernel) (t : ℕ) : k.pidOf t = (k.coreOf t).map TaskCore.pid := by
  rw [pidOf, coreOf, Option.map_map]
  rfl

theorem extOf_eq_some {k : Kernel} {t : ℕ} {ext : AgentExt} :
    k.extOf t = some ext ↔ ∃ tcb, k.tasks t = some tcb ∧ tcb.agentExt = some ext :=
  Option.bind_eq_some_iff

theorem extOf_of_tasks {k : Kernel} {t : ℕ} {tcb : TaskControlBlock} (h : k.tasks t = some tcb) :
    k.extOf t = tcb.agentExt := by
  rw [extOf, h, Option.bind_some]

/-! ## Changing one control block -/

section SetTask

variable (k : Kernel) (t : ℕ) (f : TaskControlBlock → TaskControlBlock)

theorem setTask_tasks (u : ℕ) :
    (k.setTask t f).tasks u = if u = t then (k.tasks t).map f else k.tasks u := rfl

theorem setTask_tasks_self : (k.setTask t f).tasks t = (k.tasks t).map f := if_pos rfl

theorem setTask_tasks_of_ne {u : ℕ} (h : u ≠ t) : (k.setTask t f).tasks u = k.tasks u := if_neg h

theorem setTask_setTask (g : TaskControlBlock → TaskControlBlock) :
    (k.setTask t f).setTask t g = k.setTask t fun tcb ↦ g (f tcb) := by
  simp only [setTask, Kernel.mk.injEq, true_and, and_true]
  funext u
  rcases eq_or_ne u t with rfl | h
  · simp [Option.map_map, Function.comp_def]
  · simp [h]

/-- A view that a change of a block does not touch. -/
theorem map_tasks_setTask {α : Type} {v : TaskControlBlock → α}
    (h : ∀ tcb, k.tasks t = some tcb → v (f tcb) = v tcb) (u : ℕ) :
    ((k.setTask t f).tasks u).map v = (k.tasks u).map v := by
  rcases eq_or_ne u t with rfl | hne
  · rw [setTask_tasks_self, Option.map_map]
    rcases htcb : k.tasks u with _ | tcb
    · rfl
    · exact congrArg some (h tcb htcb)
  · rw [setTask_tasks_of_ne k t f hne]

variable {k t f}

theorem coreOf_setTask (h : ∀ tcb, k.tasks t = some tcb → (f tcb).core = tcb.core) :
    (k.setTask t f).coreOf = k.coreOf :=
  funext <| map_tasks_setTask k t f h

theorem cxOf_setTask (h : ∀ tcb, k.tasks t = some tcb → (f tcb).taskCx = tcb.taskCx) :
    (k.setTask t f).cxOf = k.cxOf :=
  funext <| map_tasks_setTask k t f h

theorem sched_setTask (h : ∀ tcb, k.tasks t = some tcb → (f tcb).taskStatus = tcb.taskStatus) :
    (k.setTask t f).sched = k.sched := by
  have hplace := map_tasks_setTask (v := fun tcb ↦ tcb.taskStatus.place) k t f
    fun tcb htcb ↦ congrArg _ (h tcb htcb)
  exact Sched.ext (funext hplace) rfl rfl rfl

/-- A new status is a new place. -/
theorem place_setTask {s : TaskStatus} (hlive : k.tasks t ≠ none)
    (h : ∀ tcb, (f tcb).taskStatus = s) :
    (k.setTask t f).sched.place = Function.update k.sched.place t (some s.place) := by
  funext u
  rcases eq_or_ne u t with rfl | hne
  · obtain ⟨tcb, htcb⟩ := Option.ne_none_iff_exists'.mp hlive
    simp [sched, setTask_tasks_self, htcb, h]
  · rw [Function.update_of_ne hne]
    show ((k.setTask t f).tasks u).map _ = _
    rw [setTask_tasks_of_ne k t f hne]
    rfl

/-- Where a task is after one got a new status. -/
theorem place_of_setTask {s : TaskStatus} (h : ∀ tcb, (f tcb).taskStatus = s) {u : ℕ} {p : Place}
    (hp : (k.setTask t f).sched.place u = some p) :
    (u = t ∧ p = s.place) ∨ (u ≠ t ∧ k.sched.place u = some p) := by
  change ((k.setTask t f).tasks u).map _ = some p at hp
  rcases eq_or_ne u t with rfl | hne
  · rw [setTask_tasks_self, Option.map_map] at hp
    obtain ⟨tcb, -, rfl⟩ := Option.map_eq_some_iff.mp hp
    exact Or.inl ⟨rfl, congrArg TaskStatus.place (h tcb)⟩
  · rw [setTask_tasks_of_ne k t f hne] at hp
    exact Or.inr ⟨hne, hp⟩

theorem extOf_setTask (h : ∀ tcb, k.tasks t = some tcb → (f tcb).agentExt = tcb.agentExt) :
    (k.setTask t f).extOf = k.extOf := by
  funext u
  have hmap := map_tasks_setTask (v := TaskControlBlock.agentExt) k t f h u
  have hjoin : ∀ o : Option TaskControlBlock,
      o.bind TaskControlBlock.agentExt = (o.map TaskControlBlock.agentExt).join := by
    intro o
    cases o <;> rfl
  rw [extOf, extOf, hjoin, hmap, hjoin]

end SetTask

/-! ## What stays -/

/-- No process came, ended or was loaded, and no page changed hands. -/
structure Frame (k k' : Kernel) : Prop where
  frameAllocator : k'.machine.frameAllocator = k.machine.frameAllocator
  kernelSpace : k'.kernelSpace = k.kernelSpace
  pidAllocator : k'.pidAllocator = k.pidAllocator
  nextTask : k'.nextTask = k.nextTask
  coreOf : k'.coreOf = k.coreOf

theorem Frame.refl (k : Kernel) : Frame k k := ⟨rfl, rfl, rfl, rfl, rfl⟩

theorem Frame.trans {k₁ k₂ k₃ : Kernel} (h₁ : Frame k₁ k₂) (h₂ : Frame k₂ k₃) : Frame k₁ k₃ :=
  ⟨h₂.frameAllocator.trans h₁.frameAllocator, h₂.kernelSpace.trans h₁.kernelSpace,
    h₂.pidAllocator.trans h₁.pidAllocator, h₂.nextTask.trans h₁.nextTask,
    h₂.coreOf.trans h₁.coreOf⟩

theorem Frame.setTask {k : Kernel} {t : ℕ} {f : TaskControlBlock → TaskControlBlock}
    (h : ∀ tcb, k.tasks t = some tcb → (f tcb).core = tcb.core) : Frame k (k.setTask t f) :=
  ⟨rfl, rfl, rfl, rfl, coreOf_setTask h⟩

/-- Tasks were woken, and nothing else happened. -/
structure Wakes (k k' : Kernel) : Prop where
  frame : Frame k k'
  machine : k'.machine = k.machine
  current : k'.current = k.current
  extOf : k'.extOf = k.extOf
  cxOf : k'.cxOf = k.cxOf
  history : k'.history = k.history
  place : ∀ t, k'.sched.place t = k.sched.place t ∨ k'.sched.place t = some .ready
  moves : Coherent k.sched → Moves k.sched k'.sched

theorem Wakes.refl (k : Kernel) : Wakes k k :=
  ⟨.refl k, rfl, rfl, rfl, rfl, rfl, fun _ ↦ Or.inl rfl, fun _ ↦ Relation.ReflTransGen.refl⟩

theorem Wakes.trans {k₁ k₂ k₃ : Kernel} (h₁ : Wakes k₁ k₂) (h₂ : Wakes k₂ k₃) : Wakes k₁ k₃ where
  frame := h₁.frame.trans h₂.frame
  machine := h₂.machine.trans h₁.machine
  current := h₂.current.trans h₁.current
  extOf := h₂.extOf.trans h₁.extOf
  cxOf := h₂.cxOf.trans h₁.cxOf
  history := h₂.history.trans h₁.history
  place t := by
    rcases h₂.place t with heq | hready
    · rw [heq]
      exact h₁.place t
    · exact Or.inr hready
  moves hc := (h₁.moves hc).trans (h₂.moves (hc.moves (h₁.moves hc)))

/-! ## Waking -/

/-- A task that is woken says that it is ready. -/
private theorem place_wakeOne (k : Kernel) (t u : ℕ) :
    (k.wakeOne t).sched.place u = k.sched.place u ∨ (k.wakeOne t).sched.place u = some .ready := by
  rcases eq_or_ne u t with rfl | hne
  · have hself : (k.wakeOne u).tasks u = (k.tasks u).map _ := setTask_tasks_self k u _
    rcases htcb : k.tasks u with _ | tcb
    · refine Or.inl ?_
      simp only [sched, hself, htcb, Option.map_none]
    · refine Or.inr ?_
      simp only [sched, hself, htcb, Option.map_some]
      rfl
  · refine Or.inl ?_
    have hother : (k.wakeOne t).tasks u = k.tasks u := setTask_tasks_of_ne k t _ hne
    simp only [sched, hother]

private theorem coe_append_singleton (l : List ℕ) (t : ℕ) :
    ((l ++ [t] : List ℕ) : Multiset ℕ) = t ::ₘ ↑l := by
  rw [Multiset.cons_coe]
  exact Multiset.coe_eq_coe.mpr (List.perm_append_singleton t l)

/-- The tasks of a list are put back in the queue, and the list of blocked tasks is a new one. -/
private theorem wakes_foldl_wakeOne {k : Kernel} {woken rest : List BlockedEntry}
    (hperm : (woken ++ rest).Perm k.blockedAgents) :
    Wakes k ((woken.map BlockedEntry.task).foldl wakeOne { k with blockedAgents := rest }) := by
  have key : ∀ (ts : List ℕ) (k₁ : Kernel),
      Frame k₁ (ts.foldl wakeOne k₁) ∧ (ts.foldl wakeOne k₁).machine = k₁.machine ∧
        (ts.foldl wakeOne k₁).current = k₁.current ∧
        (ts.foldl wakeOne k₁).extOf = k₁.extOf ∧ (ts.foldl wakeOne k₁).cxOf = k₁.cxOf ∧
        (ts.foldl wakeOne k₁).history = k₁.history ∧
        (∀ u, (ts.foldl wakeOne k₁).sched.place u = k₁.sched.place u ∨
          (ts.foldl wakeOne k₁).sched.place u = some .ready) ∧
        ((∀ t ∈ ts, k₁.tasks t ≠ none) → (ts.foldl wakeOne k₁).sched = { k₁.sched with
          place := ts.foldl (fun pl t ↦ Function.update pl t (some .ready)) k₁.sched.place
          ready := ↑ts + k₁.sched.ready }) := by
    intro ts
    induction ts with
    | nil => exact fun k₁ ↦ ⟨.refl k₁, rfl, rfl, rfl, rfl, rfl, fun _ ↦ Or.inl rfl, fun _ ↦ by simp⟩
    | cons t ts ih =>
      intro k₁
      obtain ⟨hframe, hmachine, hcurrent, hext, hcx, hhistory, hplaces, hsched⟩ :=
        ih (k₁.wakeOne t)
      have hset' : (k₁.wakeOne t).cxOf = k₁.cxOf := cxOf_setTask fun _ _ ↦ rfl
      have hset : (k₁.wakeOne t).extOf = k₁.extOf := extOf_setTask fun _ _ ↦ rfl
      have hcore : (k₁.wakeOne t).coreOf = k₁.coreOf := coreOf_setTask fun _ _ ↦ rfl
      have hframe₁ : Frame k₁ (k₁.wakeOne t) := ⟨rfl, rfl, rfl, rfl, hcore⟩
      have hplaces₁ : ∀ u, (ts.foldl wakeOne (k₁.wakeOne t)).sched.place u = k₁.sched.place u ∨
          (ts.foldl wakeOne (k₁.wakeOne t)).sched.place u = some .ready := fun u ↦ by
        rcases hplaces u with heq | hready
        · rw [heq]
          exact place_wakeOne k₁ t u
        · exact Or.inr hready
      refine ⟨hframe₁.trans hframe, hmachine, hcurrent, hext.trans hset, hcx.trans hset',
        hhistory, hplaces₁, fun hlive ↦ ?_⟩
      have hplace : (k₁.wakeOne t).sched.place = Function.update k₁.sched.place t (some .ready) :=
        place_setTask (s := .ready) (hlive t List.mem_cons_self) fun _ ↦ rfl
      have hready : (k₁.wakeOne t).sched.ready = t ::ₘ k₁.sched.ready :=
        coe_append_singleton k₁.readyQueue t
      have hlive' : ∀ u ∈ ts, (k₁.wakeOne t).tasks u ≠ none := by
        intro u hu hnone
        refine hlive u (List.mem_cons_of_mem t hu) (Option.map_eq_none_iff.mp (?_ :
          (k₁.tasks u).map (fun _ ↦ ()) = none))
        rw [← map_tasks_setTask (v := fun _ ↦ ()) k₁ t _ (fun _ _ ↦ rfl) u]
        exact Option.map_eq_none_iff.mpr hnone
      rw [List.foldl_cons, hsched hlive', hplace, hready, Multiset.add_cons, ← Multiset.cons_add,
        Multiset.cons_coe]
      rfl
  obtain ⟨hframe, hmachine, hcurrent, hext, hcx, hhistory, hplaces, hsched⟩ :=
    key (woken.map BlockedEntry.task) { k with blockedAgents := rest }
  refine ⟨⟨hframe.1, hframe.2, hframe.3, hframe.4, hframe.5⟩, hmachine, hcurrent, hext, hcx,
    hhistory, hplaces, fun hc ↦ ?_⟩
  have hblocked : k.sched.blocked =
      ↑(woken.map BlockedEntry.task) + ↑(rest.map BlockedEntry.task) := by
    rw [Multiset.coe_add, ← List.map_append]
    exact Multiset.coe_eq_coe.mpr (hperm.symm.map _)
  rw [hsched]
  · exact moves_wakeAll hblocked
  · intro t ht hnone
    have hplace := hc.place_of_mem_blocked (t := t) (by
      rw [hblocked]
      exact Multiset.mem_add.mpr (Or.inl ht))
    exact absurd hplace (by simp [sched, show k.tasks t = none from hnone])

/-- Waking by identifier takes the entry of a task with that identifier, if there is one. -/
theorem wakeAgentByPid_cases (k : Kernel) (pid : ℕ) :
    ((∀ e ∈ k.blockedAgents, k.pidOf e.task ≠ some pid) ∧ k.wakeAgentByPid pid = k) ∨
      ∃ e rest, (e :: rest).Perm k.blockedAgents ∧ k.pidOf e.task = some pid ∧
        k.wakeAgentByPid pid = { k with blockedAgents := rest }.wakeOne e.task := by
  unfold wakeAgentByPid
  split
  · rename_i hnone
    refine Or.inl ⟨fun e he ↦ ?_, rfl⟩
    simpa using List.findIdx?_eq_none_iff.mp hnone e he
  · rename_i idx hidx
    obtain ⟨hlt, hpid, -⟩ := List.findIdx?_eq_some_iff_getElem.mp hidx
    rw [List.getElem?_eq_getElem hlt]
    exact Or.inr ⟨_, _, SwapRemove.swapRemove_perm hlt, by simpa using hpid, rfl⟩

theorem wakes_wakeAgentByPid (k : Kernel) (pid : ℕ) : Wakes k (k.wakeAgentByPid pid) := by
  rcases wakeAgentByPid_cases k pid with ⟨-, heq⟩ | ⟨e, rest, hperm, -, heq⟩
  · rw [heq]
    exact .refl k
  · rw [heq]
    have hone : ([e] ++ rest).Perm k.blockedAgents := hperm
    exact wakes_foldl_wakeOne hone

theorem wakes_foldl_wakeAgentByPid (pids : List ℕ) (k : Kernel) :
    Wakes k (pids.foldl wakeAgentByPid k) := by
  induction pids generalizing k with
  | nil => exact .refl k
  | cons pid pids ih => exact (wakes_wakeAgentByPid k pid).trans (ih _)

theorem wakes_tickWakeTimeouts (k : Kernel) (now : ℕ) : Wakes k (k.tickWakeTimeouts now) := by
  exact wakes_foldl_wakeOne (SwapRemove.sweep_perm_self _ _)

/-! ## Marking -/

section Mark

theorem extOf_setExt (k : Kernel) (t : ℕ) (f : AgentExt → AgentExt) (u : ℕ) :
    (k.setExt t f).extOf u = if u = t then (k.extOf t).map f else k.extOf u := by
  rcases eq_or_ne u t with rfl | hne
  · rw [if_pos rfl, extOf, setExt, setTask_tasks_self, extOf]
    cases k.tasks u <;> rfl
  · rw [if_neg hne, extOf, setExt, setTask_tasks_of_ne k t _ hne, extOf]

/-- A view of the extensions that a change of one of them does not touch. -/
theorem map_extOf_setExt {α : Type} {view : AgentExt → α} {k : Kernel} {t : ℕ}
    {f : AgentExt → AgentExt} (h : ∀ ext, k.extOf t = some ext → view (f ext) = view ext)
    (u : ℕ) : ((k.setExt t f).extOf u).map view = (k.extOf u).map view := by
  rw [extOf_setExt]
  split
  · rename_i heq
    rw [heq, Option.map_map]
    rcases hext : k.extOf t with _ | ext
    · rfl
    · exact congrArg some (h ext hext)
  · rfl

theorem Frame.setExt {k : Kernel} {t : ℕ} {f : AgentExt → AgentExt}
    (h : ∀ ext, k.extOf t = some ext → (f ext).area = ext.area) : Frame k (k.setExt t f) := by
  refine Frame.setTask fun tcb htcb ↦ ?_
  have hext := extOf_of_tasks htcb
  simp only [TaskControlBlock.core, TaskCore.mk.injEq, true_and, Option.map_map]
  rcases htcb' : tcb.agentExt with _ | ext
  · rfl
  · exact congrArg some (h ext (hext.trans htcb'))

/-- Agents were marked, and nothing else happened. -/
structure Marks (k k' : Kernel) : Prop where
  frame : Frame k k'
  machine : k'.machine = k.machine
  current : k'.current = k.current
  blockedAgents : k'.blockedAgents = k.blockedAgents
  cxOf : k'.cxOf = k.cxOf
  history : k'.history = k.history
  sched : k'.sched = k.sched

theorem Marks.refl (k : Kernel) : Marks k k := ⟨.refl k, rfl, rfl, rfl, rfl, rfl, rfl⟩

theorem Marks.trans {k₁ k₂ k₃ : Kernel} (h₁ : Marks k₁ k₂) (h₂ : Marks k₂ k₃) : Marks k₁ k₃ :=
  ⟨h₁.frame.trans h₂.frame, h₂.machine.trans h₁.machine, h₂.current.trans h₁.current,
    h₂.blockedAgents.trans h₁.blockedAgents, h₂.cxOf.trans h₁.cxOf,
    h₂.history.trans h₁.history, h₂.sched.trans h₁.sched⟩

theorem Marks.setExt {k : Kernel} {t : ℕ} {f : AgentExt → AgentExt}
    (h : ∀ ext, k.extOf t = some ext → (f ext).area = ext.area) : Marks k (k.setExt t f) :=
  ⟨Frame.setExt h, rfl, rfl, rfl, cxOf_setTask fun _ _ ↦ rfl, rfl, sched_setTask fun _ _ ↦ rfl⟩

/-- One turn of the marking loop. -/
def markOne (mark : AgentExt → Option AgentExt) (t : ℕ) (acc : Kernel × List ℕ) :
    Kernel × List ℕ :=
  match (acc.1.extOf t).bind mark with
  | some ext => (acc.1.setExt t fun _ ↦ ext, acc.2 ++ (acc.1.pidOf t).toList)
  | none => acc

theorem markAgents_cons (mark : AgentExt → Option AgentExt) (t : ℕ) (ts : List ℕ)
    (acc : Kernel × List ℕ) : markAgents mark (t :: ts) acc = markAgents mark ts (markOne mark t acc) :=
  rfl

/-- A turn marks the agent, and then its identifier is collected, or it does nothing. -/
theorem markOne_cases (mark : AgentExt → Option AgentExt) (t : ℕ) (acc : Kernel × List ℕ) :
    ((acc.1.extOf t).bind mark = none ∧ markOne mark t acc = acc) ∨
      ∃ ext ext', acc.1.extOf t = some ext ∧ mark ext = some ext' ∧
        markOne mark t acc = (acc.1.setExt t fun _ ↦ ext', acc.2 ++ (acc.1.pidOf t).toList) := by
  unfold markOne
  rcases h : (acc.1.extOf t).bind mark with _ | ext'
  · exact Or.inl ⟨rfl, rfl⟩
  · obtain ⟨ext, hext, hmark⟩ := Option.bind_eq_some_iff.mp h
    exact Or.inr ⟨ext, ext', hext, hmark, rfl⟩

theorem marks_markAgents {mark : AgentExt → Option AgentExt}
    (h : ∀ ext ext', mark ext = some ext' → ext'.area = ext.area) (ts : List ℕ)
    (acc : Kernel × List ℕ) : Marks acc.1 (markAgents mark ts acc).1 := by
  induction ts generalizing acc with
  | nil => exact .refl _
  | cons t ts ih =>
    rw [markAgents_cons]
    rcases markOne_cases mark t acc with ⟨-, heq⟩ | ⟨ext, ext', hext, hmark, heq⟩
    · rw [heq]
      exact ih acc
    · rw [heq]
      have hrest := ih (acc.1.setExt t fun _ ↦ ext', acc.2 ++ (acc.1.pidOf t).toList)
      refine Marks.trans (Marks.setExt (f := fun _ ↦ ext') fun e he ↦ ?_) hrest
      obtain rfl : ext = e := Option.some.inj (hext.symm.trans he)
      exact h ext ext' hmark

end Mark

/-- Marking and waking: the tasks only move. -/
theorem notify_eq (mark : AgentExt → Option AgentExt) (ts : List ℕ) (k : Kernel) :
    k.notify mark ts = (markAgents mark ts (k, [])).2.foldl wakeAgentByPid
      (markAgents mark ts (k, [])).1 := rfl

/-! ## Adopting -/

/-- Adoption changes the parent of the children and the children of the parent. -/
theorem tasks_adopt (k : Kernel) (parent : ℕ) (cs : List ℕ) (u : ℕ) :
    (k.adopt parent cs).tasks u = (k.tasks u).map fun tcb ↦
      { tcb with
        parent := if u ∈ cs then some parent else tcb.parent
        children := if u = parent then tcb.children ++ cs else tcb.children } := by
  induction cs generalizing k with
  | nil =>
    show k.tasks u = _
    cases k.tasks u <;> simp
  | cons c cs ih =>
    have hadopt : k.adopt parent (c :: cs) = ((k.setTask c fun tcb ↦
      { tcb with parent := some parent }).setTask parent fun tcb ↦
        { tcb with children := tcb.children ++ [c] }).adopt parent cs := rfl
    rw [hadopt, ih, setTask_tasks, setTask_tasks, setTask_tasks]
    rcases eq_or_ne u parent with rfl | hp <;> rcases eq_or_ne u c with rfl | hne <;>
      cases k.tasks u <;> simp_all

/-- Nothing else changes. -/
theorem adopt_eq (k : Kernel) (parent : ℕ) (cs : List ℕ) :
    k.adopt parent cs = { k with tasks := (k.adopt parent cs).tasks } := by
  induction cs generalizing k with
  | nil => rfl
  | cons c cs ih => exact ih ((k.setTask c fun tcb ↦
      { tcb with parent := some parent }).setTask parent fun tcb ↦
        { tcb with children := tcb.children ++ [c] })

/-! ## Fetching -/

/-- What is fetched is taken out of the ready queue, and nothing else changes. -/
theorem fetchTask_eq_some {k k₁ : Kernel} {t : ℕ} (h : k.fetchTask = some (t, k₁)) :
    ∃ rest, (t :: rest).Perm k.readyQueue ∧ k₁ = { k with readyQueue := rest } := by
  unfold fetchTask at h
  split at h
  · exact absurd h (by simp)
  · rename_i u us hqueue
    obtain ⟨v, hv, heq⟩ := Option.map_eq_some_iff.mp h
    obtain ⟨rfl, rfl⟩ := Prod.mk.inj heq
    obtain ⟨hlt, rfl⟩ := List.getElem?_eq_some_iff.mp hv
    exact ⟨_, List.getElem_cons_eraseIdx_perm hlt, rfl⟩

end Kernel

end AgentOS
