import AgentOS.Run.Trace
import AgentOS.Run.Agents

/-!
# Address spaces over runs

Every page the kernel hands out is in one place at most: in the kernel address space, in the address
space of one process, or with the allocator. So the table of a process that has not ended maps what its
areas say, each page to a frame of its own, whatever the processes did before.

What a step does to the space of a process is one of four things, or nothing.
-/

namespace AgentOS

open Scheduler

namespace Kernel

/-! ## Pages -/

section Pages

variable {k k' : Kernel}

/-- The pages that the address space of a process holds. -/
def framesOf (k : Kernel) (t : ℕ) : List ℕ :=
  ((k.coreOf t).map fun core ↦ core.memorySet.frames).getD []

/-- How often processes hold a page. -/
def owned (k : Kernel) (f : ℕ) : ℕ := ∑ t ∈ Finset.range k.nextTask, (k.framesOf t).count f

/-- How often a page is held or free. -/
def uses (k : Kernel) (f : ℕ) : ℕ := k.kernelSpace.frames.count f + k.owned f + k.machine.free f

theorem framesOf_of_tasks {t : ℕ} {tcb : TaskControlBlock} (h : k.tasks t = some tcb) :
    k.framesOf t = tcb.memorySet.frames := by
  rw [framesOf, coreOf, h]
  rfl

theorem framesOf_of_none {t : ℕ} (h : k.tasks t = none) : k.framesOf t = [] := by
  rw [framesOf, coreOf, h]
  rfl

/-- One process exchanged pages. -/
theorem owned_replace {t : ℕ} (hnext : k'.nextTask = k.nextTask) (ht : t < k.nextTask)
    (hother : ∀ u, u ≠ t → k'.framesOf u = k.framesOf u) (f : ℕ) :
    k'.owned f + (k.framesOf t).count f = k.owned f + (k'.framesOf t).count f := by
  have hmem : t ∈ Finset.range k.nextTask := Finset.mem_range.mpr ht
  have hrest : ∑ u ∈ (Finset.range k.nextTask).erase t, (k'.framesOf u).count f =
      ∑ u ∈ (Finset.range k.nextTask).erase t, (k.framesOf u).count f :=
    Finset.sum_congr rfl fun u hu ↦ by rw [hother u (Finset.ne_of_mem_erase hu)]
  rw [owned, owned, hnext, ← Finset.add_sum_erase _ _ hmem,
    ← Finset.add_sum_erase (Finset.range k.nextTask) (fun u ↦ (k.framesOf u).count f) hmem, hrest]
  omega

/-- A process came into being. -/
theorem owned_extend (hnext : k'.nextTask = k.nextTask + 1)
    (hother : ∀ u, u < k.nextTask → k'.framesOf u = k.framesOf u) (f : ℕ) :
    k'.owned f = k.owned f + (k'.framesOf k.nextTask).count f := by
  rw [owned, owned, hnext, Finset.sum_range_succ]
  congr 1
  exact Finset.sum_congr rfl fun u hu ↦ by rw [hother u (Finset.mem_range.mp hu)]

theorem Frame.uses_eq (h : Frame k k') (f : ℕ) : k'.uses f = k.uses f := by
  rw [uses, uses, owned, owned, h.kernelSpace, h.nextTask, Machine.free, Machine.free,
    h.frameAllocator]
  simp only [framesOf, h.coreOf]

theorem count_le_owned {t : ℕ} (ht : t < k.nextTask) (f : ℕ) :
    (k.framesOf t).count f ≤ k.owned f :=
  Finset.single_le_sum (f := fun u ↦ (k.framesOf u).count f) (fun _ _ ↦ Nat.zero_le _)
    (Finset.mem_range.mpr ht)

theorem count_le_owned_add {t u : ℕ} (ht : t < k.nextTask) (hu : u < k.nextTask) (hne : t ≠ u) (f : ℕ) :
    (k.framesOf t).count f + (k.framesOf u).count f ≤ k.owned f := by
  have hsub : ({t, u} : Finset ℕ) ⊆ Finset.range k.nextTask := by
    intro v hv
    rcases Finset.mem_insert.mp hv with rfl | hv
    · exact Finset.mem_range.mpr ht
    · exact Finset.mem_range.mpr (Finset.mem_singleton.mp hv ▸ hu)
  have hsum := Finset.sum_le_sum_of_subset (f := fun v ↦ (k.framesOf v).count f) hsub
  rwa [Finset.sum_pair hne] at hsum

/-- One process and the kernel exchanged pages with the allocator. -/
theorem uses_of_conserves {t : ℕ} (hnext : k'.nextTask = k.nextTask) (ht : t < k.nextTask)
    (hother : ∀ u, u ≠ t → k'.framesOf u = k.framesOf u)
    (hc : ∀ f, k'.kernelSpace.frames.count f + (k'.framesOf t).count f + k'.machine.free f =
      k.kernelSpace.frames.count f + (k.framesOf t).count f + k.machine.free f) (f : ℕ) :
    k'.uses f = k.uses f := by
  have howned := owned_replace hnext ht hother f
  have := hc f
  rw [uses, uses]
  omega

theorem Fresh.lt_nextTask (h : Fresh k) {t : ℕ} {tcb : TaskControlBlock}
    (htcb : k.tasks t = some tcb) : t < k.nextTask := by
  by_contra hle
  exact absurd htcb (by simp [h t (not_lt.mp hle)])

theorem Spawned.framesOf {t : ℕ} {tcb : TaskControlBlock} (h : Spawned k k' t tcb) (u : ℕ) :
    k'.framesOf u = if u = k.nextTask then tcb.memorySet.frames else k.framesOf u := by
  rw [Kernel.framesOf, coreOf, h]
  split
  · rfl
  · split
    · rename_i hut
      rw [hut, Kernel.framesOf, coreOf, Option.map_map, Option.map_map, Option.map_map]
      rfl
    · rfl

/-- A change of a block that keeps its space. -/
theorem framesOf_setTask {t : ℕ} {g : TaskControlBlock → TaskControlBlock}
    (h : ∀ tcb, (g tcb).memorySet = tcb.memorySet) (u : ℕ) :
    (k.setTask t g).framesOf u = k.framesOf u := by
  rw [framesOf, framesOf, coreOf, coreOf, setTask_tasks]
  split
  · rename_i hut
    rw [hut, Option.map_map, Option.map_map, Option.map_map]
    congr 2
    funext tcb
    exact congrArg MemorySet.frames (h tcb)
  · rfl

theorem framesOf_setTask_of_ne {t u : ℕ} (g : TaskControlBlock → TaskControlBlock) (hne : u ≠ t) :
    (k.setTask t g).framesOf u = k.framesOf u := by
  rw [framesOf, framesOf, coreOf, coreOf, setTask_tasks_of_ne k t g hne]

theorem framesOf_buried (k : Kernel) (t : ℕ) (exitCode : ℤ) (cs : List ℕ) (u : ℕ) :
    (k.buried t exitCode cs).framesOf u = k.framesOf u := by
  rw [framesOf, framesOf, coreOf, coreOf, tasks_buried, Option.map_map, Option.map_map,
    Option.map_map]
  rfl

end Pages

section Accounting

variable [KernelLayout] {event : Event} {k k' : Kernel}

/-- **No large effect loses a page** or makes one up. -/
theorem Change.uses (hfresh : Fresh k) (hc : Change event k k') (f : ℕ) : k'.uses f = k.uses f := by
  cases hc with
  | @create cfgPtr _ t tcb ms m m' area hcur htcb hext halloc hm =>
    refine uses_of_conserves (k := k) (t := t) ?_ (hfresh.lt_nextTask htcb)
      (fun u hne ↦ ?_) (fun f ↦ ?_) f
    · rfl
    · exact framesOf_setTask_of_ne _ hne
    have hself := setTask_tasks_self k t fun tcb ↦
      { tcb with memorySet := ms, agentExt := some freshExt }
    rw [htcb] at hself
    have hcons := AgentContextArea.allocate_conserves halloc f
    have hfree : m'.free f = m.free f := by rw [Machine.free, Machine.free, hm]
    rw [framesOf_of_tasks htcb]
    show k.kernelSpace.frames.count f + ((k.setTask t _).framesOf t).count f + m'.free f = _
    rw [framesOf_of_tasks hself]
    show k.kernelSpace.frames.count f + ms.frames.count f + m'.free f = _
    omega
  | @load _ t sp entry trapCx tcb elf ms m m' hcur htcb hload hdrop =>
    refine uses_of_conserves (k := k) (t := t) ?_ (hfresh.lt_nextTask htcb)
      (fun u hne ↦ ?_) (fun f ↦ ?_) f
    · rfl
    · exact framesOf_setTask_of_ne _ hne
    have hself := setTask_tasks_self k t fun tcb ↦
      { tcb with memorySet := ms, trapCxPpn := trapCx }
    rw [htcb] at hself
    have h₁ := MemorySet.fromElf_conserves hload f
    have h₂ := MemorySet.drop_conserves hdrop f
    simp only [List.count_nil] at h₁ h₂
    rw [framesOf_of_tasks htcb]
    show k.kernelSpace.frames.count f + ((k.setTask t _).framesOf t).count f + m'.free f = _
    rw [framesOf_of_tasks hself]
    show k.kernelSpace.frames.count f + ms.frames.count f + m'.free f = _
    omega
  | @fork _ t pid trapCx parent ms ks m m' pa hcur htcb hcopy hpid hstack =>
    have hne : t ≠ k.nextTask := (hfresh.lt_nextTask htcb).ne
    have hs := (spawned_spawn (k := { k with machine := m', pidAllocator := pa, kernelSpace := ks })
      hne (freshTask pid trapCx ms (some t) parent.priority)).framesOf
    have howned := owned_extend (k := k) rfl (fun u hu ↦ (hs u).trans (if_neg hu.ne)) f
    rw [(hs k.nextTask).trans (if_pos rfl)] at howned
    have h₁ := MemorySet.fromExistedUser_conserves hcopy f
    have h₂ := MemorySet.insertFramedArea_conserves hstack f
    simp only [List.count_nil] at h₁
    rw [Kernel.uses, howned]
    show ks.frames.count f + (k.owned f + ms.frames.count f) + m'.free f = _
    rw [Kernel.uses]
    omega
  | @exit _ _ t exitCode tcb ms m hcur htcb hpid hrecycle =>
    obtain ⟨hcons, -⟩ := MemorySet.recycleDataPages_conserves hrecycle
    have hb := buried_eq k t exitCode tcb.children
    have hself := setTask_tasks_self (k.buried t exitCode tcb.children) t fun z ↦
      { z with memorySet := ms }
    rw [tasks_buried, htcb] at hself
    refine uses_of_conserves (t := t) (by rw [hb]; rfl) (hfresh.lt_nextTask htcb) (fun u hne ↦ ?_)
      (fun f ↦ ?_) f
    · exact (framesOf_setTask_of_ne _ hne).trans (framesOf_buried k t exitCode tcb.children u)
    · have hks : (k.buried t exitCode tcb.children).kernelSpace = k.kernelSpace := by rw [hb]
      have := hcons f
      rw [framesOf_of_tasks htcb]
      show (k.buried t exitCode tcb.children).kernelSpace.frames.count f +
        (((k.buried t exitCode tcb.children).setTask t _).framesOf t).count f + m.free f = _
      rw [framesOf_of_tasks hself, hks]
      show k.kernelSpace.frames.count f + ms.frames.count f + m.free f = _
      omega
  | @reap pid exitCodePtr _ t c idx parent child m m₁ m₂ pa ks hcur htcb hc' hchild hzombie hm hpid
      hstack hdrop =>
    have hdisown : ∀ u, (k.disown t idx).framesOf u = k.framesOf u :=
      framesOf_setTask fun _ ↦ rfl
    have hclt : c < k.nextTask := by
      by_contra hle
      have hnone : (k.disown t idx).tasks c = none := by
        rw [disown, setTask_tasks_of_ne k t _ (by
          rintro rfl
          exact hle (hfresh.lt_nextTask htcb))]
        exact hfresh c (not_lt.mp hle)
      rw [hnone] at hchild
      exact absurd hchild (by simp)
    refine uses_of_conserves (k := k) (t := c) ?_ hclt (fun u hne ↦ ?_) (fun f ↦ ?_) f
    · rfl
    · rw [← hdisown u, framesOf, framesOf, coreOf, coreOf]
      simp only [if_neg hne]
    · have h₁ := MemorySet.removeAreaWithStartVpn_conserves hstack f
      have h₂ := MemorySet.drop_conserves hdrop f
      have hfree : m.free f = k.machine.free f := by rw [Machine.free, Machine.free, hm]
      rw [← hdisown c, framesOf_of_tasks hchild]
      show ks.frames.count f + (framesOf { k.disown t idx with
        tasks := fun u ↦ if u = c then none else (k.disown t idx).tasks u } c).count f + m₂.free f = _
      rw [framesOf_of_none (if_pos rfl)]
      simp only [List.count_nil] at h₂ ⊢
      omega

theorem Booted.uses {k₀ : Kernel} {elf : Elf} (h₀ : k₀.Initial) (h : Booted elf k₀ k) (f : ℕ) :
    k.uses f = k₀.kernelSpace.frames.count f + k₀.machine.free f := by
  obtain ⟨hload, hpid, hstack⟩ := h
  rename_i sp entry pid trapCx ms ks m m' pa
  have h₁ := MemorySet.fromElf_conserves hload f
  have h₂ := MemorySet.insertFramedArea_conserves hstack f
  simp only [List.count_nil] at h₁
  have howned : owned ({ k₀ with machine := m', pidAllocator := pa, kernelSpace := ks }.spawn
      (freshTask pid trapCx ms none defaultPriority)) f = ms.frames.count f := by
    show ∑ t ∈ Finset.range (k₀.nextTask + 1), _ = _
    have hself : ({ k₀ with machine := m', pidAllocator := pa, kernelSpace := ks }.spawn
        (freshTask pid trapCx ms none defaultPriority)).tasks k₀.nextTask =
        some (freshTask pid trapCx ms none defaultPriority) := if_pos rfl
    have hnew : framesOf ({ k₀ with machine := m', pidAllocator := pa, kernelSpace := ks }.spawn
        (freshTask pid trapCx ms none defaultPriority)) k₀.nextTask = ms.frames :=
      framesOf_of_tasks hself
    rw [h₀.nextTask, Nat.zero_add, Finset.sum_range_one, ← h₀.nextTask, hnew]
  rw [Kernel.uses, howned]
  show ks.frames.count f + _ + m'.free f = _
  omega

end Accounting

/-! ## Spaces -/

/-- The address space of a process that has not ended, and its context area if it is an agent. -/
structure Space where
  memorySet : MemorySet
  area : Option (ℕ × ℕ)

def spaceOf (k : Kernel) (t : ℕ) : Option Space :=
  (k.tasks t).bind fun tcb ↦ if tcb.taskStatus = .zombie then none
    else some ⟨tcb.memorySet, tcb.agentExt.map AgentExt.area⟩

theorem spaceOf_eq_some {k : Kernel} {t : ℕ} {s : Space} : k.spaceOf t = some s ↔
    ∃ tcb, k.tasks t = some tcb ∧ tcb.taskStatus ≠ .zombie ∧
      s = ⟨tcb.memorySet, tcb.agentExt.map AgentExt.area⟩ := by
  rw [spaceOf, Option.bind_eq_some_iff]
  refine exists_congr fun tcb ↦ and_congr_right fun _ ↦ ?_
  split
  · rename_i hzombie
    simp [hzombie]
  · rename_i hlive
    simp [hlive, eq_comm]

/-- The space of a process in terms of what small effects keep. -/
theorem spaceOf_eq (k : Kernel) (t : ℕ) : k.spaceOf t =
    if k.sched.place t = some .finished then none
    else (k.coreOf t).map fun core ↦ ⟨core.memorySet, core.area⟩ := by
  rcases htcb : k.tasks t with _ | tcb
  · rw [spaceOf, coreOf, htcb]
    simp
  · have hplace := sched_place htcb .zombie
    change _ = some Place.finished ↔ _ at hplace
    rw [spaceOf, coreOf, htcb, Option.bind_some, Option.map_some, Option.map_some]
    simp only [hplace]
    rfl

/-- A small effect leaves the spaces as they are. -/
theorem Quiet.spaceOf {event : Event} {k k' : Kernel} (hc : Coherent k.sched)
    (hq : Quiet event k k') (t : ℕ) : k'.spaceOf t = k.spaceOf t := by
  have hfinished := (hc.finished_moves (hq.moves hc) t).2
  rw [spaceOf_eq, spaceOf_eq, hq.frame.coreOf]
  simp only [hfinished]

variable [KernelLayout]

/-- The space of a process after an event, compared with the spaces before. -/
inductive Spaces (event : Event) (k : Kernel) (t : ℕ) : Space → Prop
  | stays {s : Space} (h : k.spaceOf t = some s) : Spaces event k t s
  /-- The process becomes an agent, and its context area is mapped. -/
  | created {ms ms' : MemorySet} (hcur : k.current = some t) (h : k.spaceOf t = some ⟨ms, none⟩)
      (hspans : ms'.spans = ms.spans ++ [contextAreaSpan]) :
      Spaces event k t ⟨ms', some (contextAreaBase, contextAreaDefaultSize)⟩
  /-- The process loads a program. -/
  | loaded {ms ms' : MemorySet} {area : Option (ℕ × ℕ)} {elf : Elf}
      (hevent : event = .syscall (.exec (some (some elf)))) (hcur : k.current = some t)
      (h : k.spaceOf t = some ⟨ms, area⟩) (hspans : ms'.spans = elf.spans) :
      Spaces event k t ⟨ms', area⟩
  /-- The process is the child that another one just got. -/
  | forked {ms ms' : MemorySet} {area : Option (ℕ × ℕ)} {parent : ℕ}
      (hevent : event = .syscall .fork) (hcur : k.current = some parent)
      (h : k.spaceOf parent = some ⟨ms, area⟩) (hspans : ms'.spans = ms.spans) :
      Spaces event k t ⟨ms', none⟩

/-- Pages are in one place each, and the spaces are well formed. -/
structure Memory (k : Kernel) : Prop where
  uses_le : ∀ f, k.uses f ≤ 1
  inRam : ∀ f, 0 < k.uses f → KernelLayout.InRam f
  wf : ∀ t s, k.spaceOf t = some s → s.memorySet.Wf

section Steps

variable {event : Event} {k k' : Kernel}

omit [KernelLayout] in
theorem spaceOf_congr {u : ℕ} (h : k'.tasks u = k.tasks u) : k'.spaceOf u = k.spaceOf u := by
  rw [spaceOf, h, spaceOf]

omit [KernelLayout] in
theorem spaceOf_of_tasks {t : ℕ} {tcb : TaskControlBlock} (htcb : k.tasks t = some tcb)
    (hlive : tcb.taskStatus ≠ .zombie) :
    k.spaceOf t = some ⟨tcb.memorySet, tcb.agentExt.map AgentExt.area⟩ :=
  spaceOf_eq_some.mpr ⟨tcb, htcb, hlive, rfl⟩

omit [KernelLayout] in
/-- A change of a block that keeps what its space is made of. -/
private theorem spaceOf_map {u v : ℕ} {g : TaskControlBlock → TaskControlBlock}
    (h : k'.tasks u = (k.tasks v).map g) (hg : ∀ tcb, (g tcb).taskStatus = tcb.taskStatus ∧
      (g tcb).memorySet = tcb.memorySet ∧ (g tcb).agentExt = tcb.agentExt) :
    k'.spaceOf u = k.spaceOf v := by
  rw [spaceOf, h, Option.bind_map, spaceOf]
  congr 1
  funext tcb
  obtain ⟨h₁, h₂, h₃⟩ := hg tcb
  simp only [Function.comp_apply, h₁, h₂, h₃]

omit [KernelLayout] in
/-- The current process has not ended. -/
theorem ne_zombie_of_current (hc : Coherent k.sched) {t : ℕ} {tcb : TaskControlBlock}
    (hcur : k.current = some t) (htcb : k.tasks t = some tcb) : tcb.taskStatus ≠ .zombie := by
  have hrunning := (sched_place htcb .running).mp ((hc.current_iff t).mp hcur)
  rw [hrunning]
  decide

/-- The pages of a space are nobody else's, and entries can name them. -/
theorem Memory.separate (h : Memory k) (hfresh : Fresh k) {t : ℕ} {tcb : TaskControlBlock}
    (htcb : k.tasks t = some tcb) : k.machine.Separate tcb.memorySet.frames := by
  intro f
  have hle := h.uses_le f
  have hcount := count_le_owned (hfresh.lt_nextTask htcb) f
  rw [framesOf_of_tasks htcb] at hcount
  refine ⟨?_, fun hpos ↦ ?_⟩
  · rw [uses] at hle
    omega
  · have hram := h.inRam f (by rw [uses]; omega)
    have hlt : f < memoryEnd / pageSize := hram.2
    exact hlt.trans (by decide)

theorem Memory.separate_nil (h : Memory k) : k.machine.Separate [] := by
  intro f
  have hle := h.uses_le f
  refine ⟨?_, fun hpos ↦ ?_⟩
  · rw [uses] at hle
    rw [List.count_nil]
    omega
  · rw [List.count_nil] at hpos
    have hram := h.inRam f (by rw [uses]; omega)
    have hlt : f < memoryEnd / pageSize := hram.2
    exact hlt.trans (by decide)

/-- **What a large effect does to the spaces.** -/
theorem Change.spaces (hsound : Sound k) (hk : Memory k) (hc : Change event k k') {u : ℕ} {s : Space}
    (hs : k'.spaceOf u = some s) : Spaces event k u s ∧ s.memorySet.Wf := by
  have stays : k'.spaceOf u = k.spaceOf u → Spaces event k u s ∧ s.memorySet.Wf := fun h ↦
    ⟨.stays (h ▸ hs), hk.wf u s (h ▸ hs)⟩
  cases hc with
  | @create cfgPtr _ t tcb ms m m' area hcur htcb hext halloc hm =>
    rcases eq_or_ne u t with rfl | hne
    · have hlive := ne_zombie_of_current hsound.coherent hcur htcb
      have hspace := spaceOf_of_tasks htcb hlive
      rw [hext, Option.map_none] at hspace
      obtain ⟨-, hwf, hspans, -, -⟩ := AgentContextArea.allocate_spec
        (hk.wf u _ hspace) (hk.separate hsound.fresh htcb) halloc
      have hself := setTask_tasks_self k u fun tcb ↦
        { tcb with memorySet := ms, agentExt := some freshExt }
      rw [htcb] at hself
      obtain rfl := Option.some.inj (hs.symm.trans (spaceOf_of_tasks hself hlive))
      exact ⟨.created hcur hspace hspans, hwf⟩
    · exact stays (spaceOf_congr (setTask_tasks_of_ne k t _ hne))
  | @load _ t sp entry trapCx tcb elf ms m m' hcur htcb hload hdrop =>
    rcases eq_or_ne u t with rfl | hne
    · have hlive := ne_zombie_of_current hsound.coherent hcur htcb
      obtain ⟨hwf, hspans⟩ := MemorySet.fromElf_spec hk.separate_nil hload
      have hself := setTask_tasks_self k u fun tcb ↦
        { tcb with memorySet := ms, trapCxPpn := trapCx }
      rw [htcb] at hself
      obtain rfl := Option.some.inj (hs.symm.trans (spaceOf_of_tasks hself hlive))
      have hspace := spaceOf_of_tasks htcb hlive
      exact ⟨.loaded rfl hcur hspace hspans, hwf⟩
    · exact stays (spaceOf_congr (setTask_tasks_of_ne k t _ hne))
  | @fork _ t pid trapCx parent ms ks m m' pa hcur htcb hcopy hpid hstack =>
    have hne : t ≠ k.nextTask := (hsound.fresh.lt_nextTask htcb).ne
    have htasks := spawned_spawn
      (k := { k with machine := m', pidAllocator := pa, kernelSpace := ks }) hne
      (freshTask pid trapCx ms (some t) parent.priority) u
    rcases eq_or_ne u k.nextTask with rfl | hun
    · have hlive := ne_zombie_of_current hsound.coherent hcur htcb
      have hspace := spaceOf_of_tasks htcb hlive
      obtain ⟨hwf, hspans⟩ :=
        MemorySet.fromExistedUser_spec (hk.wf t _ hspace) hk.separate_nil hcopy
      have hnew := spaceOf_of_tasks (htasks.trans (if_pos rfl)) TaskStatus.noConfusion
      obtain rfl := Option.some.inj (hs.symm.trans hnew)
      exact ⟨.forked rfl hcur hspace hspans, hwf⟩
    · rw [if_neg hun] at htasks
      rcases eq_or_ne u t with rfl | hut
      · rw [if_pos rfl] at htasks
        exact stays (spaceOf_map htasks fun _ ↦ ⟨rfl, rfl, rfl⟩)
      · rw [if_neg hut] at htasks
        exact stays (spaceOf_congr htasks)
  | @exit _ _ t exitCode tcb ms m hcur htcb hpid hrecycle =>
    rcases eq_or_ne u t with rfl | hne
    · have hself := setTask_tasks_self (k.buried u exitCode tcb.children) u fun z ↦
        { z with memorySet := ms }
      rw [tasks_buried, htcb] at hself
      obtain ⟨zcb, hzcb, hlive, -⟩ := spaceOf_eq_some.mp hs
      obtain rfl := Option.some.inj (hself.symm.trans hzcb)
      exact absurd (if_pos rfl) hlive
    · have htasks := (setTask_tasks_of_ne (k.buried t exitCode tcb.children) t (fun z ↦
        { z with memorySet := ms }) hne).trans (tasks_buried k t exitCode tcb.children u)
      exact stays (spaceOf_map htasks fun _ ↦ ⟨if_neg hne, rfl, rfl⟩)
  | @reap pid exitCodePtr _ t c idx parent child m m₁ m₂ pa ks hcur htcb hc' hchild hzombie hm hpid
      hstack hdrop =>
    rcases eq_or_ne u c with rfl | hne
    · obtain ⟨zcb, hzcb, -⟩ := spaceOf_eq_some.mp hs
      exact absurd ((if_pos rfl).symm.trans hzcb) (by simp)
    · have htasks := (if_neg hne : (if u = c then none else (k.disown t idx).tasks u) = _)
      refine stays ((spaceOf_congr (k := k.disown t idx) htasks).trans ?_)
      rcases eq_or_ne u t with rfl | hut
      · exact spaceOf_map (setTask_tasks_self k u _) fun _ ↦ ⟨rfl, rfl, rfl⟩
      · exact spaceOf_congr (setTask_tasks_of_ne k t _ hut)

theorem Frame.memory (h : Frame k k') (hk : Memory k)
    (hspaces : ∀ t, k'.spaceOf t = k.spaceOf t) : Memory k' where
  uses_le f := h.uses_eq f ▸ hk.uses_le f
  inRam f := h.uses_eq f ▸ hk.inRam f
  wf t s hs := hk.wf t s (hspaces t ▸ hs)

theorem Memory.change (hk : Memory k) (hsound : Sound k) (hc : Change event k k') : Memory k' where
  uses_le f := hc.uses hsound.fresh f ▸ hk.uses_le f
  inRam f := hc.uses hsound.fresh f ▸ hk.inRam f
  wf _ _ hs := (hc.spaces hsound hk hs).2

/-- The first process has the space of its program. -/
theorem Booted.spaceOf {k₀ : Kernel} {elf : Elf} (h₀ : k₀.Initial) (h : Booted elf k₀ k) {t : ℕ}
    {s : Space} (hs : k.spaceOf t = some s) :
    s.memorySet.Wf ∧ s.memorySet.spans = elf.spans ∧ s.area = none := by
  obtain ⟨hload, hpid, hstack⟩ := h
  rename_i sp entry pid trapCx ms ks m m' pa
  obtain ⟨tcb, htcb, -, rfl⟩ := spaceOf_eq_some.mp hs
  have hsep : k₀.machine.Separate [] := by
    intro f
    have hle := h₀.separate f
    refine ⟨?_, fun hpos ↦ ?_⟩
    · rw [List.count_nil]
      omega
    · rw [List.count_nil] at hpos
      have hram := h₀.inRam f (by omega)
      have hlt : f < memoryEnd / pageSize := hram.2
      exact hlt.trans (by decide)
  change (if t = k₀.nextTask then some (freshTask pid trapCx ms none defaultPriority)
    else k₀.tasks t) = some tcb at htcb
  split at htcb
  · obtain rfl := Option.some.inj htcb
    obtain ⟨hwf, hspans⟩ := MemorySet.fromElf_spec hsep hload
    exact ⟨hwf, hspans, rfl⟩
  · rw [h₀.tasks] at htcb
    exact absurd htcb (by simp)

theorem Memory.boot {k₀ : Kernel} {elf : Elf} (h₀ : k₀.Initial) (h : Booted elf k₀ k) :
    Memory k where
  uses_le f := h.uses h₀ f ▸ h₀.separate f
  inRam f := h.uses h₀ f ▸ h₀.inRam f
  wf _ _ hs := (h.spaceOf h₀ hs).1

end Steps

/-! ## Runs -/

section Runs

variable {boots : Elf → Prop} {allowed : Kernel → Event → Prop} {k : Kernel}

theorem Reach.memory (h : Reach boots allowed k) : Sound k ∧ Memory k :=
  h.invariant (I := fun k ↦ Sound k ∧ Memory k)
    (fun _ _ _ h₀ _ hboot ↦ ⟨.boot h₀ hboot, .boot h₀ hboot⟩)
    (fun _ _ _ hk hq ↦ ⟨hk.1.quiet hq, hq.frame.memory hk.2 (hq.spaceOf hk.1.coherent)⟩)
    fun _ _ _ hk _ hc ↦ ⟨hk.1.change hc, hk.2.change hk.1 hc⟩

/-- A property of spaces holds in all runs when the first space has it and steps keep it. -/
theorem Reach.spaces {P : Space → Prop}
    (hboot : ∀ elf ms, boots elf → ms.spans = elf.spans → P ⟨ms, none⟩)
    (hstep : ∀ event k t s, Memory k → allowed k event → (∀ t s, k.spaceOf t = some s → P s) →
      Spaces event k t s → P s) (h : Reach boots allowed k) {t : ℕ} {s : Space}
    (hs : k.spaceOf t = some s) : P s := by
  have hall : (Sound k ∧ Memory k) ∧ ∀ t s, k.spaceOf t = some s → P s := by
    refine h.invariant (I := fun k ↦ (Sound k ∧ Memory k) ∧ ∀ t s, k.spaceOf t = some s → P s)
      (fun k₀ elf k h₀ hb hboot' ↦ ⟨⟨.boot h₀ hboot', .boot h₀ hboot'⟩, fun t s hs ↦ ?_⟩)
      (fun event k k' hk hq ↦ ⟨⟨hk.1.1.quiet hq, ?_⟩, fun t s hs ↦ ?_⟩)
      fun event k k' hk hallowed hc ↦ ⟨⟨hk.1.1.change hc, hk.1.2.change hk.1.1 hc⟩, fun t s hs ↦ ?_⟩
    · obtain ⟨-, hspans, harea⟩ := hboot'.spaceOf h₀ hs
      obtain ⟨ms, area⟩ := s
      obtain rfl : area = none := harea
      exact hboot elf ms hb hspans
    · exact hq.frame.memory hk.1.2 (hq.spaceOf hk.1.1.coherent)
    · exact hk.2 t s (hq.spaceOf hk.1.1.coherent t ▸ hs)
    · exact hstep event k t s hk.1.2 hallowed hk.2 (hc.spaces hk.1.1 hk.1.2 hs).1
  exact hall.2 t s hs

end Runs

/-! ## Isolation -/

omit [KernelLayout] in
/-- The pages in use: nodes of page tables, pages of areas, and kernel stacks, which are areas of the
kernel address space. -/
def heldFrames (k : Kernel) : List ℕ :=
  k.kernelSpace.frames ++ (List.range k.nextTask).flatMap k.framesOf

/-- Every page has one use, and what a process can access in user mode is its own. -/
structure Isolated (k : Kernel) : Prop where
  nodup : k.heldFrames.Nodup
  inRam : ∀ f ∈ k.heldFrames, KernelLayout.InRam f
  not_free : ∀ f ∈ k.heldFrames, k.machine.free f = 0
  own : ∀ t tcb, k.tasks t = some tcb → tcb.taskStatus ≠ .zombie → ∀ vpn < 2 ^ 27, ∀ pte,
    tcb.memorySet.pageTable.lookup vpn = some pte → pte.user = true →
      pte.ppn ∈ tcb.memorySet.areas.flatMap MapArea.frames ∧ k.machine.free pte.ppn = 0 ∧
        pte.ppn ∉ k.kernelSpace.frames ∧ ∀ u, u ≠ t → pte.ppn ∉ k.framesOf u

section Isolation

variable {k : Kernel}

omit [KernelLayout] in
theorem count_heldFrames (k : Kernel) (f : ℕ) :
    k.heldFrames.count f + k.machine.free f = k.uses f := by
  have howned : ((List.range k.nextTask).flatMap k.framesOf).count f = k.owned f := by
    rw [List.count_flatMap]
    rfl
  rw [heldFrames, List.count_append, howned, uses]

/-- **Memory isolation.** In every state of every run each page in use has one holder, it comes from the
range that the allocator got, and the allocator does not hold it. -/
theorem memory_isolated (h : Reachable k) : Isolated k := by
  obtain ⟨hsound, hk⟩ := h.memory
  have hcount := count_heldFrames k
  refine ⟨List.nodup_iff_count_le_one.mpr fun f ↦ ?_, fun f hf ↦ hk.inRam f ?_, fun f hf ↦ ?_,
    fun t tcb htcb hlive vpn hv pte hpte hu ↦ ?_⟩
  · have := hcount f
    have := hk.uses_le f
    omega
  · have := List.count_pos_iff.mpr hf
    have := hcount f
    omega
  · have := List.count_pos_iff.mpr hf
    have := hcount f
    have := hk.uses_le f
    omega
  · have hwf := hk.wf t _ (spaceOf_of_tasks htcb hlive)
    have hmem := hwf.frame_of_user (hk.separate hsound.fresh htcb) hv hpte hu
    have hlt := hsound.fresh.lt_nextTask htcb
    have hmine : 0 < (k.framesOf t).count pte.ppn := by
      rw [framesOf_of_tasks htcb]
      exact List.count_pos_iff.mpr (List.mem_append_right _ hmem)
    have hle := count_le_owned hlt pte.ppn
    have hone := hk.uses_le pte.ppn
    rw [uses] at hone
    refine ⟨hmem, by omega, fun hks ↦ ?_, fun u hne hu' ↦ ?_⟩
    · have := List.count_pos_iff.mpr hks
      omega
    · have hpos := List.count_pos_iff.mpr hu'
      by_cases hun : u < k.nextTask
      · have := count_le_owned_add hlt hun hne.symm pte.ppn
        omega
      · rw [framesOf_of_none (hsound.fresh u (not_lt.mp hun))] at hu'
        exact absurd hu' List.not_mem_nil

omit [KernelLayout] in
/-- An agent forked, and its child loaded a program and ended. -/
theorem memory_isolated_fork :
    @Isolated sampleLayout (sampleRun sampleElf
      [.schedule, .syscall (.agentCreate 0), .syscall .fork, .timer, .schedule,
        .syscall (.exec (some (some sampleElf))), .syscall (.exit 3), .schedule]).2 :=
  @memory_isolated sampleLayout _
    (reach_sampleRun (by decide +kernel) (by decide +kernel) trivial fun _ _ _ ↦ trivial)

end Isolation

end Kernel

end AgentOS
