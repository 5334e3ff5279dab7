import AgentOS.Lib.Tree
import AgentOS.Run.Scheduling

/-!
# Process identifiers and the process tree

No two processes have the same identifier: the allocator hands out only identifiers that are not in
use, and an identifier is in use until its process is reaped. The lists of children make the
processes a tree with the first process at its root, so the walk that collects all processes ends, and
a process that ended is referred to by one list only.
-/

namespace AgentOS

open Scheduler Tree

/-! ## The identifier allocator -/

namespace PidAllocator

/-- Identifiers that were handed out and not taken back. -/
def InUse (pa : PidAllocator) (pid : ℕ) : Prop := pid < pa.current ∧ pid ∉ pa.recycled

/-- The allocator holds each identifier at most once, and only such as it handed out. -/
structure Wf (pa : PidAllocator) : Prop where
  nodup : pa.recycled.Nodup
  lt : ∀ pid ∈ pa.recycled, pid < pa.current

theorem wf_new : new.Wf := ⟨List.nodup_nil, fun _ h ↦ absurd h List.not_mem_nil⟩

/-- What is handed out was not in use, and is now. -/
theorem alloc_spec {pa pa' : PidAllocator} {pid : ℕ} (hwf : pa.Wf) (h : pa.alloc = (pid, pa')) :
    pa'.Wf ∧ ¬pa.InUse pid ∧ ∀ p, pa'.InUse p ↔ p = pid ∨ pa.InUse p := by
  unfold alloc at h
  split at h
  · rename_i q rest hrec
    obtain ⟨rfl, rfl⟩ := Prod.mk.inj h
    have hnodup := hwf.nodup
    have hlt := hwf.lt
    rw [hrec, List.nodup_cons] at hnodup
    rw [hrec] at hlt
    refine ⟨⟨hnodup.2, fun p hp ↦ hlt p (List.mem_cons_of_mem q hp)⟩, ?_, fun p ↦ ?_⟩
    · rintro ⟨-, hq⟩
      exact hq (hrec ▸ List.mem_cons_self)
    · simp only [InUse, hrec, List.mem_cons]
      constructor
      · rintro ⟨hp, hmem⟩
        rcases eq_or_ne p q with rfl | hne
        · exact Or.inl rfl
        · exact Or.inr ⟨hp, not_or.mpr ⟨hne, hmem⟩⟩
      · rintro (rfl | ⟨hp, hmem⟩)
        · exact ⟨hlt p List.mem_cons_self, hnodup.1⟩
        · exact ⟨hp, (not_or.mp hmem).2⟩
  · rename_i hrec
    obtain ⟨rfl, rfl⟩ := Prod.mk.inj h
    refine ⟨⟨by simp [hrec], by simp [hrec]⟩, fun hin ↦ lt_irrefl _ hin.1, fun p ↦ ?_⟩
    simp only [InUse, hrec, List.not_mem_nil, not_false_eq_true, and_true]
    omega

/-- What is taken back is in use no longer. -/
theorem dealloc_spec {pa pa' : PidAllocator} {pid : ℕ} (hwf : pa.Wf)
    (h : pa.dealloc pid = some pa') : pa'.Wf ∧ ∀ p, pa'.InUse p ↔ p ≠ pid ∧ pa.InUse p := by
  unfold dealloc at h
  split at h
  · rename_i hin
    obtain rfl := Option.some.inj h
    refine ⟨⟨List.nodup_cons.mpr ⟨hin.2, hwf.nodup⟩, fun p hp ↦ ?_⟩, fun p ↦ ?_⟩
    · rcases List.mem_cons.mp hp with rfl | hp
      · exact hin.1
      · exact hwf.lt p hp
    · simp only [InUse, List.mem_cons, not_or]
      tauto
  · exact absurd h (by simp)

end PidAllocator

/-! ## Relatives -/

/-- The identifier of a process and its relatives. -/
structure Kin where
  pid : ℕ
  parent : Option ℕ
  children : List ℕ

def TaskControlBlock.kin (tcb : TaskControlBlock) : Kin := ⟨tcb.pid, tcb.parent, tcb.children⟩

namespace Kernel

def kinOf (k : Kernel) (t : ℕ) : Option Kin := (k.tasks t).map TaskControlBlock.kin

/-- The processes that were not reaped. -/
def live (k : Kernel) : Finset ℕ := (Finset.range k.nextTask).filter fun t ↦ (k.tasks t).isSome

theorem kinOf_eq (k : Kernel) (t : ℕ) :
    k.kinOf t = (k.coreOf t).map fun core ↦ ⟨core.pid, core.parent, core.children⟩ := by
  rw [kinOf, coreOf, Option.map_map]
  rfl

theorem pidOf_eq_kin (k : Kernel) (t : ℕ) : k.pidOf t = (k.kinOf t).map Kin.pid := by
  rw [pidOf, kinOf, Option.map_map]
  rfl

theorem childrenOf_eq (k : Kernel) (t : ℕ) :
    k.childrenOf t = ((k.kinOf t).map Kin.children).getD [] := by
  rw [childrenOf, kinOf, Option.map_map]
  rfl

theorem isSome_kinOf (k : Kernel) (t : ℕ) : (k.kinOf t).isSome = (k.tasks t).isSome :=
  Option.isSome_map

theorem childrenOf_of_tasks {k : Kernel} {t : ℕ} {tcb : TaskControlBlock}
    (h : k.tasks t = some tcb) : k.childrenOf t = tcb.children := by
  rw [childrenOf, h]
  rfl

theorem pidOf_of_tasks {k : Kernel} {t : ℕ} {tcb : TaskControlBlock} (h : k.tasks t = some tcb) :
    k.pidOf t = some tcb.pid := by
  rw [pidOf, h]
  rfl

theorem mem_live {k : Kernel} (hfresh : Fresh k) {t : ℕ} : t ∈ k.live ↔ k.tasks t ≠ none := by
  rw [live, Finset.mem_filter, Finset.mem_range, Option.isSome_iff_ne_none]
  refine ⟨fun h ↦ h.2, fun h ↦ ⟨?_, h⟩⟩
  by_contra hle
  exact h (hfresh t (not_lt.mp hle))

/-- Processes, their identifiers and their relatives. -/
structure Family (k : Kernel) : Prop extends Sound k where
  pids : k.pidAllocator.Wf
  inUse : ∀ t p, k.pidOf t = some p → k.pidAllocator.InUse p
  pid_inj : ∀ t u p, k.pidOf t = some p → k.pidOf u = some p → t = u
  init_pid : k.pidOf initproc = some 0
  tree : IsTree k.childrenOf k.live initproc
  parent : ∀ u t kin, t ∈ k.childrenOf u → k.kinOf t = some kin → kin.parent = some u
  /-- What ended has no children, and it is not the first process. -/
  ended : ∀ t, k.sched.place t = some .finished → k.childrenOf t = [] ∧ t ≠ initproc

section Preserved

variable {k k' : Kernel}

/-- The relatives are the same, and the same processes ended. -/
theorem Family.congr (h : Family k) (hsound : Sound k') (hkin : k'.kinOf = k.kinOf)
    (hnext : k'.nextTask = k.nextTask) (hpids : k'.pidAllocator = k.pidAllocator)
    (hended : ∀ t, k'.sched.place t = some .finished → k.sched.place t = some .finished) :
    Family k' := by
  have hpid : k'.pidOf = k.pidOf := funext fun t ↦ by
    rw [pidOf_eq_kin, pidOf_eq_kin, hkin]
  have hchildren : k'.childrenOf = k.childrenOf := funext fun t ↦ by
    rw [childrenOf_eq, childrenOf_eq, hkin]
  have hlive : k'.live = k.live := by
    simp only [live, hnext, ← isSome_kinOf, hkin]
  exact
    { hsound with
      pids := hpids ▸ h.pids
      inUse := by rw [hpid, hpids]; exact h.inUse
      pid_inj := by rw [hpid]; exact h.pid_inj
      init_pid := by rw [hpid]; exact h.init_pid
      tree := by rw [hchildren, hlive]; exact h.tree
      parent := by rw [hchildren, hkin]; exact h.parent
      ended := fun t ht ↦ by rw [hchildren]; exact h.ended t (hended t ht) }

theorem Family.quiet {event : Event} (h : Family k) (hq : Quiet event k k') : Family k' := by
  have hframe := hq.frame
  refine h.congr (h.toSound.quiet hq) (funext fun t ↦ ?_) hframe.nextTask hframe.pidAllocator
    fun t ↦ ((h.coherent.finished_moves (hq.moves h.coherent) t).2).mp
  rw [kinOf_eq, kinOf_eq, hframe.coreOf]

/-- A change of a block that keeps its relatives and its status. -/
theorem Family.of_setTask {t : ℕ} {f : TaskControlBlock → TaskControlBlock} {m : Machine}
    (h : Family k) (hsound : Sound { k.setTask t f with machine := m })
    (hkin : ∀ tcb, (f tcb).kin = tcb.kin) (hstatus : ∀ tcb, (f tcb).taskStatus = tcb.taskStatus) :
    Family { k.setTask t f with machine := m } := by
  have hsched : (k.setTask t f).sched = k.sched := sched_setTask fun tcb _ ↦ hstatus tcb
  refine h.congr hsound (funext <| map_tasks_setTask k t f fun tcb _ ↦ hkin tcb) rfl rfl
    fun u hu ↦ ?_
  rw [← hsched]
  exact hu

end Preserved

/-! ## A child begins -/

section Spawn

/-- What making a child does to the blocks. -/
def Spawned (k k' : Kernel) (t : ℕ) (tcb : TaskControlBlock) : Prop :=
  ∀ u, k'.tasks u = if u = k.nextTask then some tcb
    else if u = t then (k.tasks t).map fun tcb ↦
      { tcb with children := tcb.children ++ [k.nextTask] }
    else k.tasks u

theorem spawned_spawn {k : Kernel} {t : ℕ} (hne : t ≠ k.nextTask) (tcb : TaskControlBlock) :
    Spawned k ((k.spawn tcb).setTask t fun tcb ↦
      { tcb with children := tcb.children ++ [k.nextTask] }) t tcb := by
  intro u
  rcases eq_or_ne u t with rfl | hut
  · rw [setTask_tasks_self, if_neg hne, if_pos rfl]
    exact congrArg _ (if_neg hne)
  · rw [setTask_tasks_of_ne _ _ _ hut, if_neg hut]
    rfl

variable {k k' : Kernel} {t : ℕ} {tcb parent : TaskControlBlock}

theorem Spawned.pidOf (h : Spawned k k' t tcb) (u : ℕ) :
    k'.pidOf u = if u = k.nextTask then some tcb.pid else k.pidOf u := by
  rw [Kernel.pidOf, h]
  split
  · rfl
  · split
    · rename_i heq
      rw [heq, Option.map_map]
      rfl
    · rfl

/-- A task other than the new one says where it is as before. -/
theorem Spawned.place (h : Spawned k k' t tcb) {u : ℕ} (hne : u ≠ k.nextTask) :
    k'.sched.place u = k.sched.place u := by
  show (k'.tasks u).map _ = _
  rw [h, if_neg hne]
  split
  · rename_i heq
    rw [heq, Option.map_map]
    rfl
  · rfl

theorem Spawned.childrenOf_self (h : Spawned k k' t tcb) (hparent : k.tasks t = some parent)
    (hne : t ≠ k.nextTask) : k'.childrenOf t = k.childrenOf t ++ [k.nextTask] := by
  rw [childrenOf, h, if_neg hne, if_pos rfl, hparent, childrenOf_of_tasks hparent]
  rfl

theorem Spawned.childrenOf_new (h : Spawned k k' t tcb) :
    k'.childrenOf k.nextTask = tcb.children := by
  rw [childrenOf, h, if_pos rfl]
  rfl

theorem Spawned.childrenOf_other (h : Spawned k k' t tcb) {u : ℕ} (hut : u ≠ t)
    (hun : u ≠ k.nextTask) : k'.childrenOf u = k.childrenOf u := by
  rw [childrenOf, h, if_neg hun, if_neg hut]
  rfl

theorem Spawned.live (h : Spawned k k' t tcb) (hfresh : Fresh k) (hfresh' : Fresh k')
    (hparent : k.tasks t = some parent) : k'.live = insert k.nextTask k.live := by
  ext u
  rw [mem_live hfresh', Finset.mem_insert, mem_live hfresh, h]
  split
  · simp_all
  · split <;> simp_all

/-- The parents of the children, the old ones and the new one. -/
theorem Spawned.parent_eq (h : Spawned k k' t tcb) (hk : Family k) (hparent : k.tasks t = some parent)
    (hne : t ≠ k.nextTask) (hup : tcb.parent = some t) (hchildren : tcb.children = [])
    {u c : ℕ} {kin : Kin} (hc : c ∈ k'.childrenOf u) (hkin : k'.kinOf c = some kin) :
    kin.parent = some u := by
  have hold : k.tasks k.nextTask = none := hk.fresh _ le_rfl
  have hcase : (c = k.nextTask ∧ u = t) ∨ c ∈ k.childrenOf u := by
    rcases eq_or_ne u t with rfl | hut
    · rw [h.childrenOf_self hparent hne, List.mem_append, List.mem_singleton] at hc
      exact hc.symm.imp_left fun hc ↦ ⟨hc, rfl⟩
    · rcases eq_or_ne u k.nextTask with rfl | hun
      · rw [h.childrenOf_new, hchildren] at hc
        exact absurd hc List.not_mem_nil
      · exact Or.inr (h.childrenOf_other hut hun ▸ hc)
  rw [kinOf, h] at hkin
  rcases hcase with ⟨rfl, rfl⟩ | hcu
  · rw [if_pos rfl] at hkin
    obtain rfl := Option.some.inj hkin
    exact hup
  · have hlive := (mem_live hk.fresh).mp (hk.tree.child_mem hcu).1
    rw [if_neg fun e : c = k.nextTask ↦ hlive (e ▸ hold)] at hkin
    split at hkin
    · rename_i hct
      subst hct
      rw [hparent] at hkin
      obtain rfl := Option.some.inj hkin
      have hkin' : k.kinOf c = some parent.kin := by
        rw [kinOf, hparent]
        rfl
      exact hk.parent u c parent.kin hcu hkin'
    · exact hk.parent u c kin hcu hkin

/-- **A new child** of the current process. -/
theorem Family.spawned (hk : Family k) (hcur : k.current = some t)
    (hparent : k.tasks t = some parent) (hne : t ≠ k.nextTask)
    (hpid : k.pidAllocator.alloc = (tcb.pid, k'.pidAllocator)) (hup : tcb.parent = some t)
    (hchildren : tcb.children = []) (hready : tcb.taskStatus = .ready)
    (h : Spawned k k' t tcb) (hsound : Sound k') : Family k' := by
  obtain ⟨hwf, hunused, huse⟩ := PidAllocator.alloc_spec hk.pids hpid
  have hfresh : k.nextTask ∉ k.live := fun hin ↦
    (mem_live hk.fresh).mp hin (hk.fresh _ le_rfl)
  refine { hsound with
    pids := hwf, inUse := fun u p hp ↦ ?_, pid_inj := fun u v p hu hv ↦ ?_, init_pid := ?_
    tree := ?_, parent := fun u c kin ↦ h.parent_eq hk hparent hne hup hchildren
    ended := fun u hu ↦ ?_ }
  · refine (huse p).mpr ?_
    rw [h.pidOf] at hp
    split at hp
    · exact Or.inl (Option.some.inj hp).symm
    · exact Or.inr (hk.inUse u p hp)
  · rw [h.pidOf] at hu hv
    split at hu <;> split at hv
    · simp_all
    · obtain rfl := Option.some.inj hu
      exact absurd (hk.inUse v _ hv) hunused
    · obtain rfl := Option.some.inj hv
      exact absurd (hk.inUse u _ hu) hunused
    · exact hk.pid_inj u v p hu hv
  · rw [h.pidOf, if_neg fun e : initproc = k.nextTask ↦ hfresh (e ▸ hk.tree.root_mem)]
    exact hk.init_pid
  · rw [h.live hk.fresh hsound.fresh hparent]
    refine hk.tree.addLeaf ((mem_live hk.fresh).mpr (by simp [hparent])) hfresh ?_
      (h.childrenOf_new.trans hchildren) fun u ↦ h.childrenOf_other
    rw [h.childrenOf_self hparent hne]
    exact List.perm_append_singleton _ _
  · have hun : u ≠ k.nextTask := by
      rintro rfl
      have hplace : (k'.tasks k.nextTask).map (fun tcb ↦ tcb.taskStatus.place) = some .finished := hu
      rw [h, if_pos rfl, Option.map_some, hready] at hplace
      exact absurd hplace (by decide)
    rw [h.place hun] at hu
    have hut : u ≠ t := by
      rintro rfl
      rw [(hk.coherent.current_iff u).mp hcur] at hu
      exact absurd hu (by decide)
    rw [h.childrenOf_other hut hun]
    exact hk.ended u hu

end Spawn

/-! ## A process ends -/

section Exit

/-- What the exit of a process does to the blocks, as far as relatives and status go. -/
def Exited (k k' : Kernel) (t : ℕ) : Prop :=
  k'.nextTask = k.nextTask ∧ k'.pidAllocator = k.pidAllocator ∧
    (∀ u, k'.kinOf u = (k.kinOf u).map fun kin ↦
      { kin with
        parent := if u ∈ k.childrenOf t then some initproc else kin.parent
        children := if u = t then [] else if u = initproc then kin.children ++ k.childrenOf t
          else kin.children }) ∧
    ∀ u, k'.sched.place u = some .finished → u = t ∨ k.sched.place u = some .finished

variable {k k' : Kernel} {t : ℕ}

theorem exited_buried (exitCode : ℤ) {tcb : TaskControlBlock} (ms : MemorySet) (m : Machine)
    (htcb : k.tasks t = some tcb) :
    Exited k { (k.buried t exitCode tcb.children).setTask t fun tcb ↦
      { tcb with memorySet := ms } with machine := m } t := by
  have hb := buried_eq k t exitCode tcb.children
  have hset : ∀ u, ((k.buried t exitCode tcb.children).setTask t fun tcb ↦
      { tcb with memorySet := ms }).kinOf u = (k.buried t exitCode tcb.children).kinOf u :=
    map_tasks_setTask _ t _ fun _ _ ↦ rfl
  have hplace : ((k.buried t exitCode tcb.children).setTask t fun tcb ↦
      { tcb with memorySet := ms }).sched = (k.buried t exitCode tcb.children).sched :=
    sched_setTask fun _ _ ↦ rfl
  refine ⟨by rw [hb]; rfl, by rw [hb]; rfl, fun u ↦ ?_, fun u hu ↦ ?_⟩
  · refine (hset u).trans ?_
    rw [kinOf, tasks_buried, kinOf, Option.map_map, Option.map_map, childrenOf_of_tasks htcb]
    rfl
  · have hu : (k.buried t exitCode tcb.children).sched.place u = some .finished := hplace ▸ hu
    change ((k.buried t exitCode tcb.children).tasks u).map _ = _ at hu
    rw [tasks_buried, Option.map_map] at hu
    rcases eq_or_ne u t with rfl | hne
    · exact Or.inl rfl
    · refine Or.inr ?_
      simp only [Function.comp_def, if_neg hne] at hu
      exact hu

theorem zombie_buried (exitCode : ℤ) {tcb : TaskControlBlock} (ms : MemorySet) (m : Machine)
    (htcb : k.tasks t = some tcb) :
    ∃ zcb, ({ (k.buried t exitCode tcb.children).setTask t fun tcb ↦
      { tcb with memorySet := ms } with machine := m } : Kernel).tasks t = some zcb ∧
        zcb.taskStatus = .zombie := by
  have hself := setTask_tasks_self (k.buried t exitCode tcb.children) t fun tcb ↦
    { tcb with memorySet := ms }
  rw [tasks_buried, htcb] at hself
  exact ⟨_, hself, if_pos rfl⟩

theorem Exited.pidOf (h : Exited k k' t) (u : ℕ) : k'.pidOf u = k.pidOf u := by
  rw [pidOf_eq_kin, pidOf_eq_kin, h.2.2.1, Option.map_map]
  rfl

theorem Exited.childrenOf (h : Exited k k' t) {u : ℕ} (hlive : k.tasks u ≠ none) :
    k'.childrenOf u = if u = t then [] else if u = initproc then
      k.childrenOf u ++ k.childrenOf t else k.childrenOf u := by
  obtain ⟨tcb, htcb⟩ := Option.ne_none_iff_exists'.mp hlive
  rw [childrenOf_eq, h.2.2.1, kinOf, htcb, childrenOf_of_tasks htcb]
  rfl

theorem Exited.childrenOf_dead (h : Exited k k' t) {u : ℕ} (hdead : k.tasks u = none) :
    k'.childrenOf u = [] := by
  rw [childrenOf_eq, h.2.2.1, kinOf, hdead]
  rfl

/-- **The current process ends**, and its children get the first process as their parent. -/
theorem Family.exited (hk : Family k) (hcur : k.current = some t) (hpid : k.pidOf t ≠ some 0)
    (h : Exited k k' t) (hsound : Sound k') : Family k' := by
  have hinit : t ≠ initproc := by
    rintro rfl
    exact hpid hk.init_pid
  have hrunning := (hk.coherent.current_iff t).mp hcur
  have hlive : k'.live = k.live := by
    simp only [live, h.1, ← isSome_kinOf, h.2.2.1, Option.isSome_map]
  have htlive : t ∈ k.live := by
    rw [mem_live hk.fresh]
    intro hnone
    exact absurd hrunning (by simp [sched, hnone])
  have hroot : k.tasks initproc ≠ none := (mem_live hk.fresh).mp hk.tree.root_mem
  have hself : k'.childrenOf t = [] := by
    rw [h.childrenOf ((mem_live hk.fresh).mp htlive), if_pos rfl]
  have hrootc : k'.childrenOf initproc = k.childrenOf initproc ++ k.childrenOf t := by
    rw [h.childrenOf hroot, if_neg hinit.symm, if_pos rfl]
  have hother : ∀ u, u ≠ t → u ≠ initproc → k'.childrenOf u = k.childrenOf u := by
    intro u hut hui
    rcases hu : k.tasks u with _ | tcb
    · rw [h.childrenOf_dead hu, Kernel.childrenOf, hu]
      rfl
    · rw [h.childrenOf (by simp [hu]), if_neg hut, if_neg hui]
  refine { hsound with
    pids := h.2.1 ▸ hk.pids, inUse := fun u p hp ↦ ?_, pid_inj := fun u v p hu hv ↦ ?_
    init_pid := (h.pidOf _).trans hk.init_pid, tree := ?_
    parent := fun u c kin hc hkin ↦ ?_, ended := fun u hu ↦ ?_ }
  · rw [h.2.1]
    exact hk.inUse u p (h.pidOf u ▸ hp)
  · exact hk.pid_inj u v p (h.pidOf u ▸ hu) (h.pidOf v ▸ hv)
  · rw [hlive]
    exact hk.tree.splice htlive hinit hself hrootc hother
  · rw [h.2.2.1] at hkin
    obtain ⟨kin₀, hkin₀, rfl⟩ := Option.map_eq_some_iff.mp hkin
    -- the list a child was in before decides who its parent is now
    have hcase : (u = initproc ∧ c ∈ k.childrenOf t) ∨ (u ≠ t ∧ c ∈ k.childrenOf u) := by
      rcases eq_or_ne u t with rfl | hut
      · rw [hself] at hc
        exact absurd hc List.not_mem_nil
      · rcases eq_or_ne u initproc with rfl | hui
        · rw [hrootc] at hc
          exact (List.mem_append.mp hc).symm.imp (⟨rfl, ·⟩) (⟨hut, ·⟩)
        · exact Or.inr ⟨hut, hother u hut hui ▸ hc⟩
    rcases hcase with ⟨rfl, hct⟩ | ⟨hut, hcu⟩
    · exact if_pos hct
    · have hnot : c ∉ k.childrenOf t := fun hct ↦ hut <|
        (hk.tree.existsUnique_parent (hk.tree.child_mem hcu).1 (hk.tree.child_mem hcu).2).unique
          hcu hct
      exact (if_neg hnot).trans (hk.parent u c kin₀ hcu hkin₀)
  · rcases h.2.2.2 u hu with rfl | hfin
    · exact ⟨hself, hinit⟩
    · obtain ⟨hnil, hui⟩ := hk.ended u hfin
      refine ⟨?_, hui⟩
      rcases eq_or_ne u t with rfl | hut
      · exact hself
      · exact (hother u hut hui).trans hnil

end Exit

/-! ## A child is forgotten -/

section Reap

/-- What reaping the child `c` of `t` does to the relatives and to the places of the tasks. -/
def Reaped (k k' : Kernel) (t c idx : ℕ) : Prop :=
  (∀ u, k'.kinOf u = if u = c then none else (k.kinOf u).map fun kin ↦
    { kin with children := if u = t then kin.children.eraseIdx idx else kin.children }) ∧
    ∀ u, k'.sched.place u = if u = c then none else k.sched.place u

variable {k k' : Kernel} {t c idx : ℕ}

theorem reaped_disown (k : Kernel) (t c idx : ℕ) (m : Machine) (pa : PidAllocator)
    (ks : MemorySet) :
    Reaped k { k.disown t idx with
      machine := m, pidAllocator := pa, kernelSpace := ks
      tasks := fun u ↦ if u = c then none else (k.disown t idx).tasks u } t c idx := by
  refine ⟨fun u ↦ ?_, fun u ↦ ?_⟩
  · rcases eq_or_ne u c with rfl | huc
    · simp [kinOf]
    · rw [if_neg huc, kinOf]
      simp only [if_neg huc]
      rw [disown, setTask_tasks]
      split
      · rename_i hut
        rw [hut, Option.map_map, kinOf, Option.map_map]
        rfl
      · rw [kinOf, Option.map_map]
        rfl
  · have hsched : (k.disown t idx).sched = k.sched := sched_setTask fun _ _ ↦ rfl
    rw [← hsched]
    rcases eq_or_ne u c with rfl | huc
    · simp [sched]
    · simp [sched, huc]

theorem Reaped.pidOf (h : Reaped k k' t c idx) (u : ℕ) :
    k'.pidOf u = if u = c then none else k.pidOf u := by
  rw [pidOf_eq_kin, pidOf_eq_kin, h.1]
  split
  · rfl
  · rw [Option.map_map]
    rfl

theorem Reaped.childrenOf (h : Reaped k k' t c idx) (u : ℕ) :
    k'.childrenOf u = if u = c then [] else if u = t then (k.childrenOf u).eraseIdx idx
      else k.childrenOf u := by
  rw [childrenOf_eq, childrenOf_eq, h.1]
  split
  · rfl
  · rw [Option.map_map]
    rcases k.kinOf u with _ | kin
    · simp
    · split <;> simp [*]

/-- **A process that ended is forgotten** by its parent. -/
theorem Family.reaped (hk : Family k) (hcur : k.current = some t)
    (hc : (k.childrenOf t)[idx]? = some c) (hended : k.sched.place c = some .finished) {pid : ℕ}
    (hpid : k.pidOf c = some pid) (hpids : k.pidAllocator.dealloc pid = some k'.pidAllocator)
    (hnext : k'.nextTask = k.nextTask) (h : Reaped k k' t c idx) (hsound : Sound k') :
    Family k' := by
  obtain ⟨hwf, huse⟩ := PidAllocator.dealloc_spec hk.pids hpids
  obtain ⟨hleaf, hinit⟩ := hk.ended c hended
  have htc : t ≠ c := by
    rintro rfl
    rw [(hk.coherent.current_iff t).mp hcur] at hended
    exact absurd hended (by decide)
  have hlive : k'.live = k.live.erase c := by
    ext u
    simp only [live, hnext, Finset.mem_erase, Finset.mem_filter, ← isSome_kinOf, h.1]
    rcases eq_or_ne u c with rfl | huc
    · simp
    · simp [huc]
  have hsub : ∀ u v, v ∈ k'.childrenOf u → v ∈ k.childrenOf u := by
    intro u v hv
    rw [h.childrenOf] at hv
    split at hv
    · exact absurd hv List.not_mem_nil
    · split at hv
      · exact List.mem_of_mem_eraseIdx hv
      · exact hv
  refine { hsound with
    pids := hwf, inUse := fun u p hp ↦ ?_, pid_inj := fun u v p hu hv ↦ ?_, init_pid := ?_
    tree := ?_, parent := fun u v kin hv hkin ↦ ?_, ended := fun u hu ↦ ?_ }
  · rw [h.pidOf] at hp
    split at hp
    · exact absurd hp (by simp)
    · rename_i huc
      refine (huse p).mpr ⟨?_, hk.inUse u p hp⟩
      rintro rfl
      exact huc (hk.pid_inj u c p hp hpid)
  · rw [h.pidOf] at hu hv
    split at hu
    · exact absurd hu (by simp)
    · split at hv
      · exact absurd hv (by simp)
      · exact hk.pid_inj u v p hu hv
  · rw [h.pidOf, if_neg hinit.symm]
    exact hk.init_pid
  · rw [hlive]
    refine hk.tree.removeLeaf (t := t) hleaf ?_ fun u hut ↦ ?_
    · obtain ⟨hlt, rfl⟩ := List.getElem?_eq_some_iff.mp hc
      rw [h.childrenOf, if_neg htc, if_pos rfl]
      exact (List.getElem_cons_eraseIdx_perm hlt).symm
    · rw [h.childrenOf, if_neg hut]
      split
      · rename_i huc
        rw [huc, hleaf]
      · rfl
  · rw [h.1] at hkin
    split at hkin
    · exact absurd hkin (by simp)
    · obtain ⟨kin₀, hkin₀, rfl⟩ := Option.map_eq_some_iff.mp hkin
      exact hk.parent u v kin₀ (hsub u v hv) hkin₀
  · rw [h.2] at hu
    split at hu
    · exact absurd hu (by simp)
    · obtain ⟨hnil, hui⟩ := hk.ended u hu
      refine ⟨List.eq_nil_iff_forall_not_mem.mpr fun v hv ↦ ?_, hui⟩
      have := hsub u v hv
      rw [hnil] at this
      exact List.not_mem_nil this

end Reap

/-! ## Runs -/

section Runs

variable [KernelLayout] {event : Event} {k k' : Kernel}

theorem Family.change (h : Family k) (hc : Change event k k') : Family k' := by
  have hsound := h.toSound.change hc
  cases hc with
  | create hcur htcb => exact h.of_setTask hsound (fun _ ↦ rfl) fun _ ↦ rfl
  | load hcur htcb => exact h.of_setTask hsound (fun _ ↦ rfl) fun _ ↦ rfl
  | @fork _ t pid trapCx parent ms ks m m' pa hcur htcb hcopy hpid hstack =>
    have hne : t ≠ k.nextTask := by
      rintro rfl
      rw [h.fresh _ le_rfl] at htcb
      exact absurd htcb (by simp)
    exact h.spawned hcur htcb hne hpid rfl rfl rfl
      (spawned_spawn (k := { k with machine := m', pidAllocator := pa, kernelSpace := ks }) hne _)
      hsound
  | @exit _ _ t exitCode tcb ms m hcur htcb hpid hrecycle =>
    refine h.exited hcur (fun hzero ↦ ?_) (exited_buried _ _ _ htcb) hsound
    rw [pidOf_of_tasks htcb] at hzero
    exact hpid (Option.some.inj hzero)
  | @reap pid exitCodePtr _ t c idx parent child m m₁ m₂ pa ks hcur htcb hc' hchild hzombie hm hpid
      hstack hdrop =>
    have hdisown := sched_setTask (k := k) (t := t)
      (f := fun tcb ↦ { tcb with children := tcb.children.eraseIdx idx }) fun _ _ ↦ rfl
    have hplace : k.sched.place c = some .finished := by
      rw [← hdisown]
      show ((k.disown t idx).tasks c).map _ = _
      rw [hchild, Option.map_some, hzombie]
      rfl
    have hpidOf : k.pidOf c = some child.pid := by
      have hmap := map_tasks_setTask (v := TaskControlBlock.pid) k t
        (fun tcb ↦ { tcb with children := tcb.children.eraseIdx idx }) (fun _ _ ↦ rfl) c
      rw [pidOf, ← hmap]
      exact congrArg (Option.map _) hchild
    exact h.reaped hcur (childrenOf_of_tasks htcb ▸ hc') hplace hpidOf hpid rfl (reaped_disown ..) hsound

theorem Family.boot {k₀ : Kernel} {elf : Elf} (h₀ : k₀.Initial) (h : Booted elf k₀ k) :
    Family k := by
  have hsound := Sound.boot h₀ h
  obtain ⟨hload, hpid, hstack⟩ := h
  rename_i sp entry pid trapCx ms ks m m' pa
  have hnext : k₀.nextTask = initproc := h₀.nextTask
  obtain ⟨rfl, rfl⟩ : 0 = pid ∧ ⟨1, []⟩ = pa := by
    rw [h₀.pids] at hpid
    exact Prod.mk.inj hpid
  set k := { k₀ with machine := m', pidAllocator := ⟨1, []⟩, kernelSpace := ks }.spawn
    (freshTask 0 trapCx ms none defaultPriority) with hk
  have htasks : ∀ u, k.tasks u = if u = initproc then
      some (freshTask 0 trapCx ms none defaultPriority) else none := by
    intro u
    show (if u = k₀.nextTask then _ else k₀.tasks u) = _
    rw [hnext, h₀.tasks]
  have hpidOf : ∀ u, k.pidOf u = if u = initproc then some 0 else none := by
    intro u
    rw [pidOf, htasks]
    split <;> rfl
  have hchildren : k.childrenOf = fun _ ↦ [] := by
    funext u
    rw [childrenOf, htasks]
    split <;> rfl
  have hlive : k.live = {initproc} := by
    ext u
    rw [mem_live hsound.fresh, htasks, Finset.mem_singleton]
    split <;> simp_all
  refine { hsound with
    pids := ⟨List.nodup_nil, fun _ h ↦ absurd h List.not_mem_nil⟩
    inUse := fun u p hp ↦ ?_, pid_inj := fun u v p hu hv ↦ ?_
    init_pid := (hpidOf _).trans (if_pos rfl), tree := ?_
    parent := fun u t kin ht ↦ ?_, ended := fun t ht ↦ ?_ }
  · rw [hpidOf] at hp
    split at hp
    · obtain rfl := Option.some.inj hp
      exact ⟨Nat.one_pos, List.not_mem_nil⟩
    · exact absurd hp (by simp)
  · rw [hpidOf] at hu hv
    split at hu <;> split at hv <;> simp_all
  · rw [hchildren, hlive]
    exact IsTree.single initproc
  · rw [hchildren] at ht
    exact absurd ht List.not_mem_nil
  · have hplace : (k.tasks t).map (fun tcb ↦ tcb.taskStatus.place) = some .finished := ht
    rw [htasks] at hplace
    split at hplace
    · exact absurd hplace (by simp [freshTask, TaskStatus.place])
    · exact absurd hplace (by simp)

theorem Reach.family {boots : Elf → Prop} {allowed : Kernel → Event → Prop}
    (h : Reach boots allowed k) : Family k :=
  h.invariant (fun _ _ _ h₀ _ hboot ↦ .boot h₀ hboot) (fun _ _ _ hk hq ↦ hk.quiet hq)
    fun _ _ _ hk _ hc ↦ hk.change hc

end Runs

/-! ## Collecting all processes -/

/-- As long as there are more turns than nodes left to see, the loop completes the walk. -/
theorem visit_of_walk {children : ℕ → List ℕ} {nodes : Finset ℕ} {root : ℕ} (turns : ℕ)
    {seen queue : List ℕ} (ht : IsTree children nodes root) (h : Walk children root seen queue)
    (hturns : nodes.card < seen.length + turns) :
    ∃ ts, visit children turns queue = some ts ∧ Walk children root (seen ++ ts) [] := by
  induction turns generalizing seen queue with
  | zero =>
    have := h.length_le ht
    omega
  | succ turns ih =>
    cases queue with
    | nil => exact ⟨[], rfl, by rwa [List.append_nil]⟩
    | cons t queue =>
      obtain ⟨ts, hts, hwalk⟩ := ih h.step (by rw [List.length_append, List.length_singleton]; omega)
      refine ⟨t :: ts, ?_, ?_⟩
      · rw [visit, hts, Option.map_some]
      · rwa [List.append_assoc, List.singleton_append] at hwalk

/-- **The walk over all processes** ends, and finds each process that was not reaped once. -/
theorem Family.snapshot {k : Kernel} (h : Family k) :
    ∃ ts, k.snapshotAllProcesses = some ts ∧ ts.Nodup ∧ ∀ t, t ∈ ts ↔ k.tasks t ≠ none := by
  have hcard : k.live.card ≤ k.nextTask := by
    have hle := Finset.card_filter_le (Finset.range k.nextTask) fun t ↦ (k.tasks t).isSome
    rwa [Finset.card_range] at hle
  obtain ⟨ts, hts, hwalk⟩ := visit_of_walk (k.nextTask + 1) h.tree Walk.start
    (by rw [List.length_nil]; omega)
  have hnodup := hwalk.nodup h.tree
  rw [List.nil_append] at hwalk hnodup
  exact ⟨ts, hts, List.append_nil ts ▸ hnodup, fun t ↦
    (hwalk.mem_iff h.tree t).trans (mem_live h.fresh)⟩

/-! ## References to a process that ended -/

section References

variable {k : Kernel} {t c idx : ℕ}

/-- What ended is in none of the places of the scheduler. -/
theorem Family.not_scheduled (h : Family k) (hended : k.sched.place t = some .finished) :
    t ≠ initproc ∧ k.current ≠ some t ∧ k.readyQueue.count t = 0 ∧
      (k.blockedAgents.map BlockedEntry.task).count t = 0 := by
  refine ⟨(h.ended t hended).2, fun hcur ↦ ?_, ?_, ?_⟩
  · rw [(h.coherent.current_iff t).mp hcur] at hended
    exact absurd hended (by decide)
  · have hcount := h.coherent.ready_count t
    rwa [hended, if_neg (by decide), sched, Multiset.coe_count] at hcount
  · have hcount := h.coherent.blocked_count t
    rwa [hended, if_neg (by decide), sched, Multiset.coe_count] at hcount

/-- **What ended is referred to once**, by the list of its parent. -/
theorem Family.strongCount_ended (h : Family k) (hended : k.sched.place t = some .finished) :
    k.strongCount t = 1 := by
  obtain ⟨hinit, hcur, hready, hblocked⟩ := h.not_scheduled hended
  have hlive : t ∈ k.live := (mem_live h.fresh).mpr fun hnone ↦ by
    exact absurd hended (by simp [sched, hnone])
  have hsum : ∑ u ∈ Finset.range k.nextTask, (k.childrenOf u).count t = 1 := by
    have hcount := h.tree.count t
    rw [if_pos ⟨hlive, hinit⟩] at hcount
    rw [← hcount]
    refine (Finset.sum_subset (Finset.filter_subset _ _) fun u _ hu ↦ ?_).symm
    rw [h.tree.outside u hu, List.count_nil]
  have hlist : ((List.range k.nextTask).map fun u ↦ (k.childrenOf u).count t).sum = 1 := by
    rw [← hsum]
    rfl
  rw [strongCount, if_neg hinit, if_neg hcur, hready, hblocked, hlist]

/-- **The reference that `sys_waitpid` holds is the last one.** -/
theorem Family.strongCount_disown (h : Family k) (hended : k.sched.place c = some .finished)
    (hc : (k.childrenOf t)[idx]? = some c) : (k.disown t idx).strongCount c = 0 := by
  obtain ⟨hinit, hcur, hready, hblocked⟩ := h.not_scheduled hended
  have hct : c ∈ k.childrenOf t := List.mem_of_getElem? hc
  have hlists : ∀ u, ((k.disown t idx).childrenOf u).count c = 0 := by
    intro u
    have hchildren : (k.disown t idx).childrenOf u =
        if u = t then (k.childrenOf t).eraseIdx idx else k.childrenOf u := by
      rw [childrenOf, disown, setTask_tasks]
      split
      · rw [childrenOf, Option.map_map]
        rcases k.tasks t with _ | tcb
        · rfl
        · rfl
      · rfl
    rw [hchildren]
    split
    · obtain ⟨hlt, hget⟩ := List.getElem?_eq_some_iff.mp hc
      have hperm := List.getElem_cons_eraseIdx_perm hlt
      have hle := h.tree.count_le t c
      rw [← hperm.count_eq, hget, List.count_cons_self] at hle
      omega
    · rename_i hut
      refine List.count_eq_zero.mpr fun hcu ↦ hut ?_
      obtain ⟨hmem, hne⟩ := h.tree.child_mem hct
      exact (h.tree.existsUnique_parent hmem hne).unique hcu hct
  have hsum : ((List.range (k.disown t idx).nextTask).map fun u ↦
      ((k.disown t idx).childrenOf u).count c).sum = 0 := by
    simp only [hlists, List.map_const', List.sum_replicate, smul_zero]
  have hcur' : (k.disown t idx).current ≠ some c := hcur
  have hready' : (k.disown t idx).readyQueue.count c = 0 := hready
  have hblocked' : ((k.disown t idx).blockedAgents.map BlockedEntry.task).count c = 0 := hblocked
  rw [strongCount, if_neg hinit, if_neg hcur', hready', hblocked', hsum]

end References

/-! ## What a step does to the processes -/

section Steps

variable [KernelLayout] {event : Event} {k k' : Kernel}

omit [KernelLayout] in
theorem Quiets.frame (h : Quiets event k k') : Frame k k' := by
  induction h with
  | refl => exact .refl k
  | tail _ hq ih => exact ih.trans hq.frame

/-- From one state of a run to the next, no process is lost, none comes back, and none changes hands
but to the first process. -/
structure Succeeds (event : Event) (k k' : Kernel) : Prop where
  /-- References are not used again. -/
  gone : ∀ t < k.nextTask, k.tasks t = none → k'.tasks t = none
  nextTask_le : k.nextTask ≤ k'.nextTask
  /-- Only an ended child of the current process disappears, and only in `sys_waitpid`. -/
  reaped : ∀ t tcb, k.tasks t = some tcb → k'.tasks t = none → tcb.taskStatus = .zombie ∧
    ∃ pid exitCodePtr u, event = .syscall (.waitpid pid exitCodePtr) ∧ k.current = some u ∧
      t ∈ k.childrenOf u
  /-- Only the first process gets children that were another's, when that one ends. -/
  moved : ∀ t u v, t ∈ k.childrenOf u → t ∈ k'.childrenOf v →
    v = u ∨ (v = initproc ∧ ∃ tcb, k'.tasks u = some tcb ∧ tcb.taskStatus = .zombie)

omit [KernelLayout] in
/-- No process comes, ends or changes hands when all relatives stay. -/
theorem Family.succeeds_of_kin (h : Family k) (hkin : k'.kinOf = k.kinOf)
    (hnext : k'.nextTask = k.nextTask) : Succeeds event k k' := by
  have hnone : ∀ t, k'.tasks t = none ↔ k.tasks t = none := fun t ↦ by
    rw [← Option.isNone_iff_eq_none, ← Option.isNone_iff_eq_none, ← Option.not_isSome,
      ← Option.not_isSome, ← isSome_kinOf, ← isSome_kinOf, hkin]
  refine ⟨fun t _ ↦ (hnone t).mpr, hnext.ge, fun t tcb htcb hgone ↦ ?_, fun t u v hu hv ↦ ?_⟩
  · rw [(hnone t).mp hgone] at htcb
    exact absurd htcb (by simp)
  · rw [childrenOf_eq, hkin, ← childrenOf_eq] at hv
    obtain ⟨hmem, hne⟩ := h.tree.child_mem hu
    exact Or.inl ((h.tree.existsUnique_parent hmem hne).unique hv hu)

theorem Family.succeeds (h : Family k) {r : Option ℤ} (hstep : (step event).Returns k r k') :
    Succeeds event k k' := by
  rcases step_effect hstep with hquiets | hc
  · have hframe := hquiets.frame
    refine h.succeeds_of_kin (funext fun t ↦ ?_) hframe.nextTask
    rw [kinOf_eq, kinOf_eq, hframe.coreOf]
  have same : ∀ {t u v}, t ∈ k.childrenOf u → t ∈ k.childrenOf v → v = u := by
    intro t u v hu hv
    obtain ⟨hmem, hne⟩ := h.tree.child_mem hu
    exact (h.tree.existsUnique_parent hmem hne).unique hv hu
  have live : ∀ {t tcb}, k.tasks t = some tcb → t ≠ k.nextTask := by
    rintro t tcb htcb rfl
    rw [h.fresh _ le_rfl] at htcb
    exact absurd htcb (by simp)
  cases hc with
  | create hcur htcb =>
    exact h.succeeds_of_kin (funext <| map_tasks_setTask k _ _ fun _ _ ↦ rfl) rfl
  | load hcur htcb =>
    exact h.succeeds_of_kin (funext <| map_tasks_setTask k _ _ fun _ _ ↦ rfl) rfl
  | @fork _ t pid trapCx parent ms ks m m' pa hcur htcb hcopy hpid hstack =>
    have hs := spawned_spawn (k := { k with machine := m', pidAllocator := pa, kernelSpace := ks })
      (live htcb) (freshTask pid trapCx ms (some t) parent.priority)
    refine ⟨fun u hu hnone ↦ ?_, Nat.le_succ _, fun u tcb hu hgone ↦ ?_, fun c u v hcu hcv ↦ ?_⟩
    · rw [hs u, if_neg (show u ≠ k.nextTask by omega)]
      split
      · rename_i hut
        rw [← hut, hnone]
        rfl
      · exact hnone
    · rw [hs u, if_neg (live hu)] at hgone
      split at hgone
      · rename_i hut
        rw [← hut, hu] at hgone
        exact absurd hgone (by simp)
      · rw [hu] at hgone
        exact absurd hgone (by simp)
    · have hnew : c ≠ k.nextTask := by
        rintro rfl
        exact (mem_live h.fresh).mp (h.tree.child_mem hcu).1 (h.fresh _ le_rfl)
      refine Or.inl (same hcu ?_)
      rcases eq_or_ne v t with rfl | hvt
      · rw [hs.childrenOf_self (k := { k with
          machine := m', pidAllocator := pa, kernelSpace := ks }) htcb (live htcb)] at hcv
        exact (List.mem_append.mp hcv).resolve_right fun e ↦ hnew (List.mem_singleton.mp e)
      · rcases eq_or_ne v k.nextTask with rfl | hvn
        · rw [hs.childrenOf_new] at hcv
          exact absurd hcv List.not_mem_nil
        · rw [hs.childrenOf_other hvt hvn] at hcv
          exact hcv
  | @exit _ _ t exitCode tcb ms m hcur htcb hpid hrecycle =>
    have hx := exited_buried exitCode ms m htcb
    have hsome : ∀ u, (({ (k.buried t exitCode tcb.children).setTask t fun tcb ↦
        { tcb with memorySet := ms } with machine := m } : Kernel).tasks u).isSome =
        (k.tasks u).isSome := by
      intro u
      rw [← isSome_kinOf, hx.2.2.1, Option.isSome_map, isSome_kinOf]
    refine ⟨fun u _ hnone ↦ ?_, hx.1.ge, fun u ucb hu hgone ↦ ?_, fun c u v hcu hcv ↦ ?_⟩
    · have := hsome u
      rw [hnone] at this
      simpa using this
    · have := hsome u
      rw [hu, hgone] at this
      exact absurd this (by simp)
    · rcases hv : k.tasks v with _ | vcb
      · rw [hx.childrenOf_dead hv] at hcv
        exact absurd hcv List.not_mem_nil
      · rw [hx.childrenOf (by simp [hv])] at hcv
        split at hcv
        · exact absurd hcv List.not_mem_nil
        · split at hcv
          · rename_i hvi
            rcases List.mem_append.mp hcv with hold | hct
            · exact Or.inl (same hcu hold)
            · obtain rfl := same hcu hct
              exact Or.inr ⟨hvi, zombie_buried _ _ _ htcb⟩
          · exact Or.inl (same hcu hcv)
  | @reap pid exitCodePtr _ t c idx parent child m m₁ m₂ pa ks hcur htcb hc' hchild hzombie hm hpid
      hstack hdrop =>
    have hr := reaped_disown k t c idx m₂ pa ks
    have hdisown : ∀ u, ((k.disown t idx).tasks u).map TaskControlBlock.taskStatus =
        (k.tasks u).map TaskControlBlock.taskStatus := map_tasks_setTask k t _ fun _ _ ↦ rfl
    refine ⟨fun u _ hnone ↦ ?_, le_rfl, fun u ucb hu hgone ↦ ?_, fun x u v hxu hxv ↦ ?_⟩
    · have hmap := hdisown u
      rw [hnone, Option.map_none, Option.map_eq_none_iff] at hmap
      show (if u = c then none else (k.disown t idx).tasks u) = none
      rw [hmap, ite_self]
    · rcases eq_or_ne u c with rfl | huc
      · have hmap := hdisown u
        rw [hchild, hu, Option.map_some, Option.map_some, Option.some.injEq] at hmap
        refine ⟨hmap.symm.trans hzombie, pid, exitCodePtr, t, rfl, hcur, ?_⟩
        rw [childrenOf_of_tasks htcb]
        exact List.mem_of_getElem? hc'
      · have hmap := hdisown u
        have hgone : (k.disown t idx).tasks u = none := (if_neg huc).symm.trans hgone
        rw [hgone, hu] at hmap
        exact absurd hmap (by simp)
    · refine Or.inl (same hxu ?_)
      rw [hr.childrenOf] at hxv
      split at hxv
      · exact absurd hxv List.not_mem_nil
      · split at hxv
        · exact List.mem_of_mem_eraseIdx hxv
        · exact hxv

/-! ## The process tree -/

/-- The processes that were not reaped are a tree, and those that ended hang on one reference. -/
structure ProcessTree (k : Kernel) : Prop where
  root_live : k.tasks initproc ≠ none
  root_no_child : ∀ u, initproc ∉ k.childrenOf u
  child_live : ∀ u t, t ∈ k.childrenOf u → k.tasks u ≠ none ∧ k.tasks t ≠ none
  /-- Every other process is in the list of its parent, once, and in no other. -/
  one_list : ∀ t tcb, k.tasks t = some tcb → t ≠ initproc → ∃ u, tcb.parent = some u ∧
    (k.childrenOf u).count t = 1 ∧ ∀ v, v ≠ u → t ∉ k.childrenOf v
  reach : ∀ t, k.tasks t ≠ none →
    Relation.ReflTransGen (fun u v ↦ v ∈ k.childrenOf u) initproc t
  snapshot : ∃ ts, k.snapshotAllProcesses = some ts ∧ ts.Nodup ∧ ∀ t, t ∈ ts ↔ k.tasks t ≠ none
  /-- An ended process is referred to by that one list, and by nothing else. -/
  ended : ∀ t tcb, k.tasks t = some tcb → tcb.taskStatus = .zombie → k.strongCount t = 1
  /-- The assertion of `sys_waitpid`. -/
  reaped : ∀ t idx c tcb, (k.childrenOf t)[idx]? = some c → k.tasks c = some tcb →
    tcb.taskStatus = .zombie → (k.disown t idx).strongCount c = 0

omit [KernelLayout] in
theorem Family.processTree (h : Family k) : ProcessTree k := by
  have hlive := fun t ↦ mem_live h.fresh (t := t)
  have hended : ∀ t tcb, k.tasks t = some tcb → tcb.taskStatus = .zombie →
      k.sched.place t = some .finished := fun t tcb htcb ↦ (sched_place htcb .zombie).mpr
  refine ⟨(hlive _).mp h.tree.root_mem, fun u hu ↦ (h.tree.child_mem hu).2 rfl, fun u t ht ↦
    ⟨(hlive u).mp (h.tree.mem_of_child ht), (hlive t).mp (h.tree.child_mem ht).1⟩,
    fun t tcb htcb hne ↦ ?_, fun t ht ↦ h.tree.reach t ((hlive t).mpr ht), h.snapshot,
    fun t tcb htcb hz ↦ h.strongCount_ended (hended t tcb htcb hz),
    fun t idx c tcb hc htcb hz ↦ h.strongCount_disown (hended c tcb htcb hz) hc⟩
  have hmem : t ∈ k.live := (hlive t).mpr (by simp [htcb])
  obtain ⟨u, hu, hunique⟩ := h.tree.existsUnique_parent hmem hne
  have hkin : k.kinOf t = some tcb.kin := by
    rw [kinOf, htcb]
    rfl
  have hle := h.tree.count_le u t
  have hpos := List.count_pos_iff.mpr hu
  exact ⟨u, h.parent u t tcb.kin hu hkin, by omega, fun v hv hmem' ↦ hv (hunique v hmem')⟩

/-- **The processes are a tree** in every state of every run. Collecting them finds each once, a
process that ended hangs on the list of its parent only, and no step loses or revives a process. -/
theorem reachable_processTree (h : Reachable k) :
    ProcessTree k ∧ ∀ event r k', (step event).Returns k r k' → Succeeds event k k' :=
  ⟨h.family.processTree, fun _ _ _ hstep ↦ h.family.succeeds hstep⟩

omit [KernelLayout] in
/-- The first process has a child that has ended. -/
theorem reachable_processTree_zombie :
    let k := (sampleRun sampleElf
      [.schedule, .syscall .fork, .timer, .schedule, .syscall (.exit 3), .schedule]).2
    ProcessTree k ∧ ∀ event r k', (@step sampleLayout event).Returns k r k' →
      Succeeds event k k' :=
  @reachable_processTree sampleLayout _
    (reach_sampleRun (by decide +kernel) (by decide +kernel) trivial fun _ _ _ ↦ trivial)

end Steps

end Kernel

end AgentOS
