import AgentOS.Lib.StableQueue
import AgentOS.Run.Trace

/-!
# The ready queue and the timer

The ready queue is a stable priority queue: over any history of tasks becoming ready and being taken,
a task of the highest priority is taken, the one that has waited longest, and the others keep their
order. The timer takes the tasks whose deadline has passed out of the list of blocked agents, and
puts each of them in the queue.
-/

namespace AgentOS

/-- The time a blocked agent wanted to be woken at has come. -/
def BlockedEntry.due (nowMs : ℕ) (e : BlockedEntry) : Bool :=
  match e.wakeDeadlineMs with
  | some d => decide (d ≤ nowMs)
  | none => false

namespace Kernel

open StableQueue Scheduler

/-! ## Taking a task -/

/-- **The scan of the ready queue** ends at the first task of the highest priority. `done` is what it
has seen, with the best so far. -/
theorem bestIdx_spec (prio : ℕ → ℕ) (rest done before after : List ℕ) (t : ℕ)
    (hdone : done = before ++ t :: after) (hbefore : ∀ u ∈ before, prio u < prio t)
    (hafter : ∀ u ∈ after, prio u ≤ prio t) : ∃ before' t' after',
      done ++ rest = before' ++ t' :: after' ∧
        bestIdx prio rest done.length before.length (prio t) = before'.length ∧
        (∀ u ∈ before', prio u < prio t') ∧ ∀ u ∈ after', prio u ≤ prio t' := by
  induction rest generalizing done before t after with
  | nil => exact ⟨before, t, after, by rw [List.append_nil, hdone], rfl, hbefore, hafter⟩
  | cons u us ih =>
    have hlen : done.length + 1 = (done ++ [u]).length := by simp
    rw [List.append_cons, bestIdx]
    by_cases hlt : prio t < prio u
    · rw [if_pos hlt, hlen]
      refine ih (done ++ [u]) done [] u rfl (fun v hv ↦ ?_) (by simp)
      rw [hdone, List.mem_append, List.mem_cons] at hv
      rcases hv with hv | rfl | hv
      · exact (hbefore v hv).trans hlt
      · exact hlt
      · exact (hafter v hv).trans_lt hlt
    · rw [if_neg hlt, hlen]
      refine ih (done ++ [u]) before (after ++ [u]) t (by rw [hdone]; simp) hbefore fun v hv ↦ ?_
      rcases List.mem_append.mp hv with hv | hv
      · exact hafter v hv
      · obtain rfl := List.mem_singleton.mp hv
        exact not_lt.mp hlt

/-- **Taking a task**: the first of the highest priority, and the others keep their order. -/
theorem fetchTask_cases (k : Kernel) :
    (k.readyQueue = [] ∧ k.fetchTask = none) ∨ ∃ before t after,
      k.readyQueue = before ++ t :: after ∧
        k.fetchTask = some (t, { k with readyQueue := before ++ after }) ∧
        (∀ u ∈ before, k.priorityOf u < k.priorityOf t) ∧
        ∀ u ∈ after, k.priorityOf u ≤ k.priorityOf t := by
  rcases hqueue : k.readyQueue with _ | ⟨u, us⟩
  · exact Or.inl ⟨rfl, by simp [fetchTask, hqueue]⟩
  · obtain ⟨before, t, after, hsplit, hidx, hbefore, hafter⟩ :=
      bestIdx_spec k.priorityOf us [u] [] [] u rfl (by simp) (by simp)
    refine Or.inr ⟨before, t, after, hsplit, ?_, hbefore, hafter⟩
    have hscan : bestIdx k.priorityOf us 1 0 (k.priorityOf u) = before.length := hidx
    have hget : (before ++ t :: after)[before.length]? = some t := by simp
    have herase : (before ++ t :: after).eraseIdx before.length = before ++ after := by
      rw [List.eraseIdx_append_of_length_le le_rfl, Nat.sub_self]
      rfl
    rw [fetchTask, hqueue]
    dsimp only
    rw [hscan, show u :: us = before ++ t :: after from hsplit, hget, herase]
    rfl

/-! ## Histories of the ready queue -/

/-- What happens to the ready queue from the start on: tasks become ready, one that does not wait
already at a time, and tasks are taken. In between anything may happen to the rest of the kernel that
leaves the queue and the priorities of the tasks in it alone. -/
inductive QueueRun : List (Op ℕ ℕ) → Kernel → Prop
  | start {k : Kernel} (h : k.readyQueue = []) : QueueRun [] k
  | add {tr : List (Op ℕ ℕ)} {k : Kernel} {t : ℕ} (h : QueueRun tr k)
      (hnew : t ∉ k.readyQueue) : QueueRun (tr ++ [.add t (k.priorityOf t)]) (k.addTask t)
  | fetch {tr : List (Op ℕ ℕ)} {k k' : Kernel} {t : ℕ} (h : QueueRun tr k)
      (hfetch : k.fetchTask = some (t, k')) : QueueRun (tr ++ [.fetch t]) k'
  | other {tr : List (Op ℕ ℕ)} {k k' : Kernel} (h : QueueRun tr k)
      (hqueue : k'.readyQueue = k.readyQueue)
      (hprio : ∀ t ∈ k.readyQueue, k'.priorityOf t = k.priorityOf t) : QueueRun tr k'

/-- **The ready queue is a stable priority queue**: its tasks are those that wait, with the
priorities they were added with. -/
theorem QueueRun.refines {tr : List (Op ℕ ℕ)} {k : Kernel} (h : QueueRun tr k) :
    Run tr ∧ pending tr = k.readyQueue.map fun t ↦ (t, k.priorityOf t) := by
  induction h with
  | start h => exact ⟨.nil, by rw [h]; rfl⟩
  | @add tr k t _ hnew ih =>
    refine ⟨ih.1.add ?_, ?_⟩
    · rw [ih.2, List.map_map]
      simpa [Function.comp_def] using hnew
    · rw [pending_add, ih.2, addTask, List.map_append]
      rfl
  | @fetch tr k k' t _ hfetch ih =>
    rcases fetchTask_cases k with ⟨-, hnone⟩ | ⟨before, u, after, hqueue, hsome, hbefore, hafter⟩
    · exact absurd (hnone.symm.trans hfetch) (by simp)
    obtain ⟨rfl, rfl⟩ := Prod.mk.inj (Option.some.inj (hsome.symm.trans hfetch))
    have hpending := ih.2
    rw [hqueue, List.map_append, List.map_cons] at hpending
    refine ⟨ih.1.fetch hpending (by simpa using hbefore) (by simpa using hafter), ?_⟩
    rw [ih.1.pending_fetch_eq hpending, ← List.map_append]
    rfl
  | @other tr k k' _ hqueue hprio ih =>
    refine ⟨ih.1, ?_⟩
    rw [ih.2, hqueue]
    exact List.map_congr_left fun t ht ↦ by rw [hprio t ht]

/-- Setting the priority of the running task is no concern of the queue. -/
theorem QueueRun.setPriority {tr : List (Op ℕ ℕ)} {k k' : Kernel} {p : ℕ} {r : Option ℤ}
    (h : QueueRun tr k) (hc : Coherent k.sched) (hcall : (sysAgentSetPriority p).Returns k r k') :
    QueueRun tr k' := by
  obtain ⟨⟨t, tcb⟩, k₁, hcurrent, h₁⟩ := Exec.returns_bind.mp hcall
  obtain ⟨_, k₂, hmodify, hpure⟩ := Exec.returns_bind.mp h₁
  obtain ⟨hcur, -, rfl⟩ := returns_currentTask.mp hcurrent
  obtain rfl := Exec.returns_modify.mp hmodify
  obtain ⟨-, rfl⟩ := Exec.returns_pure.mp hpure
  refine h.other rfl fun u hu ↦ ?_
  -- the running task is not in the queue
  have hne : u ≠ t := by
    rintro rfl
    have hready := hc.place_of_mem_ready (Multiset.mem_coe.mpr hu)
    have hrunning := (hc.current_iff u).mp hcur
    exact absurd (hready.symm.trans hrunning) (by decide)
  rw [priorityOf, setTask_tasks_of_ne _ _ _ hne]
  rfl

/-- **Priority scheduling with FIFO ties**, over every history of the ready queue. -/
theorem ready_queue_stable {tr : List (Op ℕ ℕ)} {k : Kernel} (h : QueueRun tr k) :
    (k.fetchTask = none ↔ k.readyQueue = []) ∧
      (∀ t k', k.fetchTask = some (t, k') → ∃ before after,
        k.readyQueue = before ++ t :: after ∧ k'.readyQueue = before ++ after ∧
          (∀ u ∈ before, k.priorityOf u < k.priorityOf t) ∧
          ∀ u ∈ after, k.priorityOf u ≤ k.priorityOf t) ∧
      k.readyQueue = (pending tr).map Prod.fst ∧ k.readyQueue.Nodup ∧
      (∀ t, added tr t = tr.count (.fetch t) + k.readyQueue.count t) ∧
      ∀ tr₁ tr₂ tr₃ t u p, tr = tr₁ ++ [.add t p] ++ tr₂ ++ [.add u p] ++ tr₃ ++ [.fetch u] →
        .fetch u ∉ tr₃ → .fetch t ∈ tr₂ ++ tr₃ := by
  obtain ⟨hrun, hpending⟩ := h.refines
  have hqueue : k.readyQueue = (pending tr).map Prod.fst := by
    rw [hpending, List.map_map]
    exact (List.map_id _).symm
  refine ⟨?_, fun t k' hfetch ↦ ?_, hqueue, hqueue ▸ hrun.nodup, fun t ↦ hqueue ▸ hrun.added_eq t, ?_⟩
  · rcases fetchTask_cases k with ⟨hnil, hnone⟩ | ⟨before, t, after, hsplit, hsome, -, -⟩
    · exact ⟨fun _ ↦ hnil, fun _ ↦ hnone⟩
    · rw [hsome, hsplit]
      simp
  · rcases fetchTask_cases k with ⟨-, hnone⟩ | ⟨before, u, after, hsplit, hsome, hbefore, hafter⟩
    · exact absurd (hnone.symm.trans hfetch) (by simp)
    obtain ⟨rfl, rfl⟩ := Prod.mk.inj (Option.some.inj (hsome.symm.trans hfetch))
    exact ⟨before, after, hsplit, rfl, hbefore, hafter⟩
  · rintro tr₁ tr₂ tr₃ t u p rfl hu
    exact hrun.fifo hu

/-- **A ready task runs** when no task of a higher priority becomes ready: those that were ahead of it are taken first,
at most once each, and then it is. Until then there is a task to take. -/
theorem ready_task_runs {tr₁ tr₂ : List (Op ℕ ℕ)} {k₁ k₂ : Kernel} {t p : ℕ} (h₁ : QueueRun tr₁ k₁)
    (h₂ : QueueRun (tr₁ ++ [.add t p] ++ tr₂) k₂) (hlow : ∀ u q, .add u q ∈ tr₂ → q ≤ p) :
    (k₁.readyQueue.countP (fun u ↦ p ≤ k₁.priorityOf u) < fetches tr₂ → .fetch t ∈ tr₂) ∧
      (.fetch t ∉ tr₂ → t ∈ k₂.readyQueue ∧ ∃ u k', k₂.fetchTask = some (u, k')) := by
  obtain ⟨hrun, hpending⟩ := h₂.refines
  refine ⟨fun hmany ↦ hrun.mem_of_fetches hlow ?_, fun hnot ↦ ?_⟩
  · rw [h₁.refines.2, List.countP_map]
    exact hmany
  · obtain ⟨ahead, behind, hahead, -, -⟩ := hrun.ahead hnot hlow
    have hmem : (t, p) ∈ k₂.readyQueue.map fun u ↦ (u, k₂.priorityOf u) := by
      rw [← hpending, hahead]
      exact List.mem_append_right _ List.mem_cons_self
    obtain ⟨u, hu, heq⟩ := List.mem_map.mp hmem
    obtain ⟨rfl, -⟩ := Prod.mk.inj heq
    refine ⟨hu, ?_⟩
    rcases fetchTask_cases k₂ with ⟨hnil, -⟩ | ⟨before, v, after, -, hsome, -, -⟩
    · rw [hnil] at hu
      exact absurd hu List.not_mem_nil
    · exact ⟨v, _, hsome⟩

section Sample

/-- A kernel with a control block for every reference, whose priority is the reference. -/
private def rankedKernel : Kernel :=
  { sampleKernel with tasks := fun t ↦ some (freshTask t 0 ⟨⟨0, [], fun _ _ ↦ .empty⟩, []⟩ none t) }

/-- Of three tasks the one of the highest priority is taken, though it came second. -/
theorem ready_queue_stable_three :
    (((rankedKernel.addTask 1).addTask 7).addTask 3).fetchTask.map Prod.fst = some 7 ∧
      ((((rankedKernel.addTask 1).addTask 7).addTask 3).fetchTask = none ↔
        (((rankedKernel.addTask 1).addTask 7).addTask 3).readyQueue = []) := by
  have h₁ : QueueRun [.add 1 1] (rankedKernel.addTask 1) :=
    (QueueRun.start (k := rankedKernel) rfl).add (t := 1) (by decide)
  have h₂ : QueueRun [.add 1 1, .add 7 7] ((rankedKernel.addTask 1).addTask 7) :=
    h₁.add (t := 7) (by decide)
  have h₃ : QueueRun [.add 1 1, .add 7 7, .add 3 3]
      (((rankedKernel.addTask 1).addTask 7).addTask 3) := h₂.add (t := 3) (by decide)
  exact ⟨by decide +kernel, (ready_queue_stable h₃).1⟩

/-- One task is ahead of another one, and when it has been taken the other one is next. -/
theorem ready_task_runs_second : ∃ k, ((rankedKernel.addTask 7).addTask 3).fetchTask = some (7, k) ∧
    3 ∈ k.readyQueue ∧ ∃ u k', k.fetchTask = some (u, k') := by
  have h₁ : QueueRun [.add 7 7] (rankedKernel.addTask 7) :=
    (QueueRun.start (k := rankedKernel) rfl).add (t := 7) (by decide)
  have h₂ : QueueRun [.add 7 7, .add 3 3] ((rankedKernel.addTask 7).addTask 3) := h₁.add (t := 3) (by decide)
  have hfirst : ((rankedKernel.addTask 7).addTask 3).fetchTask.map Prod.fst = some 7 := by decide +kernel
  obtain ⟨⟨t, k⟩, hfetch, rfl⟩ := Option.map_eq_some_iff.mp hfirst
  have h₃ : QueueRun ([.add 7 7] ++ [.add 3 3] ++ [.fetch 7]) k := h₂.fetch hfetch
  exact ⟨k, hfetch, (ready_task_runs h₁ h₃ (by simp)).2 (by simp)⟩

end Sample

/-! ## The timer -/

/-- Waking tasks one by one makes them ready and puts them in the queue in that order. -/
theorem foldl_wakeOne (ts : List ℕ) (k : Kernel) : ts.foldl wakeOne k =
    { k with
      readyQueue := k.readyQueue ++ ts
      tasks := fun t ↦ if t ∈ ts then (k.tasks t).map fun tcb ↦ { tcb with taskStatus := .ready }
        else k.tasks t } := by
  induction ts generalizing k with
  | nil => simp
  | cons t ts ih =>
    rw [List.foldl_cons, ih]
    have hqueue : (k.wakeOne t).readyQueue ++ ts = k.readyQueue ++ t :: ts := by
      simp [wakeOne, addTask, setTask]
    have htasks : (fun u ↦ if u ∈ ts then ((k.wakeOne t).tasks u).map fun tcb ↦
          { tcb with taskStatus := .ready } else (k.wakeOne t).tasks u) =
        fun u ↦ if u ∈ t :: ts then (k.tasks u).map fun tcb ↦ { tcb with taskStatus := .ready }
          else k.tasks u := by
      funext u
      by_cases hut : u = t
      · subst hut
        simp [wakeOne, addTask, setTask, Function.comp_def]
      · simp [wakeOne, addTask, setTask, hut]
    rw [hqueue, htasks]
    rfl

/-- **The timer wakes exactly the agents whose deadline has passed**: the scan ends, the others stay
in the list, and the tasks woken are made ready and go to the end of the queue, one for each entry
taken out. Nothing else changes. -/
theorem tickWakeTimeouts_exact (k : Kernel) (nowMs : ℕ) : ∃ kept woken : List BlockedEntry,
    SwapRemove.Sweeps (BlockedEntry.due nowMs) 0 k.blockedAgents [] (kept, woken) ∧
      kept.Perm (k.blockedAgents.filter fun e ↦ !e.due nowMs) ∧
      woken.Perm (k.blockedAgents.filter fun e ↦ e.due nowMs) ∧
      k.tickWakeTimeouts nowMs =
        { k with
          blockedAgents := kept
          readyQueue := k.readyQueue ++ woken.map BlockedEntry.task
          tasks := fun t ↦ if t ∈ woken.map BlockedEntry.task then
              (k.tasks t).map fun tcb ↦ { tcb with taskStatus := .ready }
            else k.tasks t } := by
  have hlen : k.blockedAgents.length ≤ 0 + k.blockedAgents.length := (Nat.zero_add _).ge
  obtain ⟨hkept, hwoken⟩ := SwapRemove.sweep_perm (BlockedEntry.due nowMs) [] hlen
  simp only [List.take_zero, List.drop_zero, List.nil_append] at hkept hwoken
  exact ⟨_, _, SwapRemove.sweeps_sweep (BlockedEntry.due nowMs) [] hlen, hkept, hwoken,
    foldl_wakeOne _ _⟩

end Kernel

end AgentOS
