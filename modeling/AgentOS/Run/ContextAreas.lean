import AgentOS.Run.Memory

/-!
# Context areas over runs

`sys_agent_create` maps the context area, and the extension of the agent stays with the process. Two
calls make a new address space without a look at the extension. `exec` drops the area of an agent that
stays one, and `fork` copies the area to a child that is none.
-/

namespace AgentOS

open Scheduler

namespace Kernel

variable [KernelLayout] {k : Kernel}

/-! ## Agents have their area -/

omit [KernelLayout] in
/-- Every page of the context area lies in a span that the user may read and write. -/
def Covers (spans : List (ℕ × ℕ × ℕ)) : Prop :=
  ∀ v, 0x80000 ≤ v → v < 0x80010 → ∃ s ∈ spans, s.1 ≤ v ∧ v < s.2.1 ∧ UserWritable s

/-- When an agent loads a program, the program itself covers the context area. -/
def LoadsCovering (k : Kernel) (event : Event) : Prop :=
  ∀ elf t ext, event = .syscall (.exec (some (some elf))) → k.current = some t →
    k.extOf t = some ext → Covers elf.spans

/-- The area of every agent is mapped for the user, to memory of its own that the kernel writes. -/
def AreasMapped (k : Kernel) : Prop :=
  ∀ t tcb ext, k.tasks t = some tcb → tcb.taskStatus ≠ .zombie → tcb.agentExt = some ext →
    AreaMapped tcb.memorySet.pageTable ext.contextAreaBase ext.contextAreaSize ∧
      Backed tcb.memorySet.pageTable ext.contextAreaBase ext.contextAreaSize

omit [KernelLayout] in
theorem covers_contextAreaSpan {spans : List (ℕ × ℕ × ℕ)} (h : contextAreaSpan ∈ spans) :
    Covers spans := fun _ hge hlt ↦ ⟨contextAreaSpan, h, hge, hlt, by decide⟩

/-- A space that covers the area maps it. -/
theorem mapped_of_covers {ms : MemorySet} {m : Machine} (hwf : ms.Wf) (hsep : m.Separate ms.frames)
    (hram : ∀ f ∈ ms.frames, KernelLayout.InRam f) (h : Covers ms.spans) :
    AreaMapped ms.pageTable contextAreaBase contextAreaDefaultSize ∧
      Backed ms.pageTable contextAreaBase contextAreaDefaultSize := by
  refine ⟨hwf.areaMapped_iff.mpr fun a ha ha' ↦ ?_,
    hwf.backed hsep hram (Or.inl (by decide)) fun a ha ha' ↦ ?_⟩
  · obtain ⟨hge, hlt⟩ := pageOf_contextArea ha ha'
    exact h _ hge hlt
  · obtain ⟨hge, hlt⟩ := pageOf_contextArea ha ha'
    obtain ⟨s, hs, hin, hin', -⟩ := h _ hge hlt
    obtain ⟨area, harea, rfl⟩ := List.mem_map.mp hs
    exact ⟨area, harea, MapArea.mem_vpns.mpr ⟨hin, hin'⟩⟩

/-- **The area of an agent stays mapped** in runs in which agents load only programs that cover it. -/
theorem agents_areasMapped (h : Reach (fun _ ↦ True) LoadsCovering k) : AreasMapped k := by
  intro t tcb ext htcb hlive hext
  obtain ⟨hsound, hk⟩ := h.memory
  have hspace := spaceOf_of_tasks htcb hlive
  have hcovers : ∀ area, (⟨tcb.memorySet, tcb.agentExt.map AgentExt.area⟩ : Space).area = some area →
      area = (contextAreaBase, contextAreaDefaultSize) ∧ Covers tcb.memorySet.spans := by
    refine h.spaces (P := fun s ↦ ∀ area, s.area = some area →
        area = (contextAreaBase, contextAreaDefaultSize) ∧ Covers s.memorySet.spans)
      (fun _ _ _ _ area harea ↦ absurd harea (by simp)) (fun event k t s _ hallowed ih hs ↦ ?_) hspace
    cases hs with
    | stays h => exact ih t s h
    | created hcur h hspans =>
      rintro area ⟨⟩
      refine ⟨rfl, covers_contextAreaSpan ?_⟩
      rw [hspans]
      exact List.mem_append_right _ (List.mem_singleton.mpr rfl)
    | @loaded ms ms' o elf hevent hcur h hspans =>
      intro area harea
      obtain ⟨hbase, -⟩ := ih t _ h area harea
      obtain ⟨ucb, hucb, -, hspace⟩ := spaceOf_eq_some.mp h
      obtain ⟨-, hmap⟩ := Space.mk.inj hspace
      obtain ⟨e, he, -⟩ := Option.map_eq_some_iff.mp (hmap.symm.trans harea)
      refine ⟨hbase, ?_⟩
      show Covers ms'.spans
      rw [hspans]
      exact hallowed elf t e hevent hcur ((extOf_of_tasks hucb).trans he)
    | forked => exact fun area harea ↦ absurd harea (by simp)
  obtain ⟨harea, hcov⟩ := hcovers ext.area (by rw [hext]; rfl)
  obtain ⟨hbase, hsize⟩ := Prod.mk.inj harea
  rw [hbase, hsize]
  refine mapped_of_covers (hk.wf t _ hspace) (hk.separate hsound.fresh htcb) (fun f hf ↦ ?_) hcov
  refine hk.inRam f ?_
  have hcount := count_le_owned (hsound.fresh.lt_nextTask htcb) f
  rw [framesOf_of_tasks htcb] at hcount
  have hpos := List.count_pos_iff.mpr hf
  rw [uses]
  omega

omit [KernelLayout] in
/-- A process with a child becomes an agent. -/
theorem agents_areasMapped_fork :
    @AreasMapped sampleLayout (sampleRun sampleElf
      [.schedule, .syscall .fork, .syscall (.agentCreate 0), .timer]).2 :=
  @agents_areasMapped sampleLayout _
    (reach_sampleRun (by decide +kernel) (by decide +kernel) trivial fun _ event hevent elf _ _ h ↦ by
      subst h
      simp at hevent)

omit [KernelLayout] in
/-- An agent that loads a program loses its area. -/
theorem not_areasMapped_exec : ∃ k, @Reachable sampleLayout k ∧ ¬@AreasMapped sampleLayout k := by
  let k := (sampleRun sampleElf
    [.schedule, .syscall (.agentCreate 0), .syscall (.exec (some (some sampleElf)))]).2
  have hk : @Reachable sampleLayout k :=
    reach_sampleRun (by decide +kernel) (by decide +kernel) trivial fun _ _ _ ↦ trivial
  have hagent : ((k.tasks 0).map fun tcb ↦ (tcb.taskStatus, tcb.agentExt.map AgentExt.area,
      tcb.memorySet.pageTable.lookup (pageOf contextAreaBase))) =
        some (.running, some (contextAreaBase, contextAreaDefaultSize), none) := by decide +kernel
  clear_value k
  refine ⟨k, hk, fun h ↦ ?_⟩
  obtain ⟨tcb, htcb, heq⟩ := Option.map_eq_some_iff.mp hagent
  obtain ⟨hstatus, harea, hlookup⟩ := by simpa only [Prod.mk.injEq] using heq
  obtain ⟨ext, hext, harea⟩ := Option.map_eq_some_iff.mp harea
  obtain ⟨hbase, hsize⟩ := Prod.mk.inj harea
  obtain ⟨hmapped, -⟩ := h 0 tcb ext htcb (by rw [hstatus]; decide) hext
  rw [hbase, hsize] at hmapped
  obtain ⟨pte, hpte, -⟩ := hmapped contextAreaBase le_rfl (by decide)
  rw [hlookup] at hpte
  exact absurd hpte (by simp)

/-! ## Other processes have none -/

omit [KernelLayout] in
/-- No span reaches into the context area. -/
def Avoids (spans : List (ℕ × ℕ × ℕ)) : Prop :=
  ∀ s ∈ spans, s.2.1 ≤ 0x80000 ∨ 0x80010 ≤ s.1 ∨ s.2.1 ≤ s.1

instance (spans : List (ℕ × ℕ × ℕ)) : Decidable (Avoids spans) :=
  inferInstanceAs (Decidable (∀ s ∈ spans, _))

omit [KernelLayout] in
/-- So no page of the area is in a span. -/
theorem avoids_iff {spans : List (ℕ × ℕ × ℕ)} : Avoids spans ↔
    ∀ s ∈ spans, ∀ v, 0x80000 ≤ v → v < 0x80010 → ¬(s.1 ≤ v ∧ v < s.2.1) := by
  refine forall₂_congr fun s _ ↦ ⟨fun h v hge hlt ↦ by omega, fun h ↦ ?_⟩
  have := h (max s.1 0x80000)
  omega

omit [KernelLayout] in
/-- No segment of the program reaches into the context area, and neither does the stack it gets. -/
structure LeavesArea (elf : Elf) : Prop where
  segments : Avoids (elf.segments.map LoadSegment.span)
  stack : Avoids [elf.stackSpan]

/-- No page of the context area is mapped. -/
def AreaUnmapped (ms : MemorySet) : Prop := ∀ v, 0x80000 ≤ v → v < 0x80010 → ¬ms.Mapped v

/-- Programs leave the context area alone, and no process forks that has a page of it mapped. -/
def ForksWithout (k : Kernel) : Event → Prop
  | .syscall (.exec (some (some elf))) => LeavesArea elf
  | .syscall .fork => ∀ t tcb, k.current = some t → k.tasks t = some tcb → AreaUnmapped tcb.memorySet
  | _ => True

/-- No process but agents has a page of the context area, and every one of them can become an agent as
long as there are pages. -/
structure AreasPrivate (k : Kernel) : Prop where
  unmapped : ∀ t tcb, k.tasks t = some tcb → tcb.taskStatus ≠ .zombie → tcb.agentExt = none →
    AreaUnmapped tcb.memorySet
  create : ∀ t tcb cfgPtr, k.current = some t → k.tasks t = some tcb → tcb.agentExt = none →
    18 ≤ k.machine.frameAllocator.available →
      ∃ k', (step (.syscall (.agentCreate cfgPtr))).Returns k (some 0) k' ∧
        k'.extOf t = some freshExt

omit [KernelLayout] in
theorem LeavesArea.spans {elf : Elf} (h : LeavesArea elf) : Avoids elf.spans := by
  intro s hs
  rcases List.mem_append.mp hs with hs | hs
  · exact h.segments s hs
  · rcases List.mem_cons.mp hs with rfl | hs
    · exact h.stack _ (List.mem_singleton.mpr rfl)
    · obtain rfl := List.mem_singleton.mp hs
      decide

theorem areaUnmapped_iff {ms : MemorySet} (hwf : ms.Wf) :
    AreaUnmapped ms ↔ Avoids ms.spans := by
  rw [avoids_iff]
  have htramp : MemorySet.trampolineVpn = 2 ^ 27 - 1 := by decide
  constructor
  · intro h s hs v hge hlt hin
    exact h v hge hlt ((hwf.mapped_iff (by omega)).mpr (Or.inr ⟨s, hs, hin⟩))
  · intro h v hge hlt hmapped
    rcases (hwf.mapped_iff (by omega)).mp hmapped with heq | ⟨s, hs, hin⟩
    · omega
    · exact h s hs v hge hlt hin

/-- A process that is no agent becomes one, if its context area is not mapped and there are pages. -/
theorem sysAgentCreate_returns (cfgPtr : ℕ) {t : ℕ} {tcb : TaskControlBlock} (hk : Memory k)
    (hsound : Sound k) (hcur : k.current = some t) (htcb : k.tasks t = some tcb)
    (hext : tcb.agentExt = none) (hnone : AreaUnmapped tcb.memorySet)
    (hav : 18 ≤ k.machine.frameAllocator.available) :
    ∃ k', (sysAgentCreate cfgPtr).Returns k (some 0) k' ∧ k'.extOf t = some freshExt := by
  have hwf₀ : tcb.memorySet.Wf := hk.wf t _ <|
    spaceOf_of_tasks htcb (ne_zombie_of_current hsound.coherent hcur htcb)
  have hsep := hk.separate hsound.fresh htcb
  obtain ⟨ms, m, halloc⟩ := AgentContextArea.allocate_returns hwf₀ hsep hnone hav
  obtain ⟨-, hwf, hspans, hcons, -⟩ := AgentContextArea.allocate_spec hwf₀ hsep halloc
  have hram : ∀ f ∈ ms.frames, KernelLayout.InRam f := by
    intro f hf
    refine hk.inRam f ?_
    have hpos := List.count_pos_iff.mpr hf
    have hcount := count_le_owned (hsound.fresh.lt_nextTask htcb) f
    have := hcons f
    rw [framesOf_of_tasks htcb] at hcount
    rw [uses]
    omega
  obtain ⟨hb, -⟩ := hwf.backed_contextArea (hsep.conserves hcons) hram (by
    rw [hspans]
    exact List.mem_append_right _ (List.mem_singleton.mpr rfl))
  have hlen : areaHeader.length = 248 := by
    simp only [areaHeader, List.length_append, LittleEndian.length_leBytes, List.length_replicate]
  obtain ⟨log, hwrite⟩ := writeUserBytes_backed .contextArea
    (Or.inl (by rw [hlen]; decide) : Canonical contextAreaBase areaHeader.length)
    (hb.sub le_rfl (by rw [hlen]; decide)) m
  have hcurrent : currentTask.Returns k (t, tcb) k := returns_currentTask.mpr ⟨hcur, htcb, rfl⟩
  have hmap := returns_onMachine (k := k).mpr ⟨m, halloc, rfl⟩
  -- the kernel with the new space, before the header is written
  obtain ⟨k₁, hk₁⟩ : ∃ k₁, k₁ = { k with machine := m }.setTask t fun tcb ↦
    { tcb with memorySet := ms } := ⟨_, rfl⟩
  have hself : k₁.tasks t = some { tcb with memorySet := ms } := by
    rw [hk₁, setTask_tasks_self]
    exact congrArg _ htcb
  have hmachine : k₁.machine = m := by rw [hk₁]; rfl
  obtain ⟨m', hinit⟩ : ∃ m', (AgentContextArea.initHeader
      ⟨contextAreaBase, contextAreaDefaultSize⟩ ms).Returns k₁.machine () m' :=
    ⟨_, hmachine.symm ▸ hwrite⟩
  refine ⟨{ k₁ with machine := m' }.setTask t fun tcb ↦ { tcb with agentExt := some freshExt },
    hcurrent.bind ?_, ?_⟩
  · dsimp only
    rw [if_neg (by rw [hext]; decide)]
    refine hmap.bind (Exec.Returns.bind (t := k₁) (a := ()) (Exec.returns_modify.mpr hk₁) ?_)
    have honMachine := returns_onMachine.mpr ⟨m', hinit, rfl⟩
    dsimp only
    exact honMachine.bind ((Exec.returns_modify (u := ()).mpr rfl).bind
      (Exec.returns_pure.mpr ⟨rfl, rfl⟩))
  · rw [extOf, setTask_tasks_self, hself]
    rfl

/-- **Other processes have no page of a context area** in runs in which programs leave the area alone
and no process forks that has it mapped; and then every one of them can become an agent. -/
theorem areas_private (h : Reach LeavesArea ForksWithout k) : AreasPrivate k := by
  obtain ⟨hsound, hk⟩ := h.memory
  have hunmapped : ∀ t tcb, k.tasks t = some tcb → tcb.taskStatus ≠ .zombie → tcb.agentExt = none →
      AreaUnmapped tcb.memorySet := by
    intro t tcb htcb hlive hext
    have hspace := spaceOf_of_tasks htcb hlive
    refine (areaUnmapped_iff (hk.wf t _ hspace)).mpr ?_
    refine h.spaces (P := fun s ↦ s.area = none → Avoids s.memorySet.spans)
      (fun elf ms hboot hspans _ ↦ ?_) (fun event k t s hk hallowed ih hs ↦ ?_) hspace (by rw [hext]; rfl)
    · show Avoids ms.spans
      rw [hspans]
      exact hboot.spans
    · cases hs with
      | stays h => exact ih t s h
      | created => exact fun harea ↦ absurd harea (by simp)
      | @loaded ms ms' area elf hevent hcur h hspans =>
        subst hevent
        intro _
        show Avoids ms'.spans
        rw [hspans]
        exact hallowed.spans
      | @forked ms ms' area parent hevent hcur h hspans =>
        subst hevent
        intro _
        obtain ⟨pcb, hpcb, -, hspace⟩ := spaceOf_eq_some.mp h
        obtain ⟨rfl, -⟩ := Space.mk.inj hspace
        show Avoids ms'.spans
        rw [hspans]
        exact (areaUnmapped_iff (hk.wf parent _ h)).mp (hallowed parent pcb hcur hpcb)
  refine ⟨hunmapped, fun t tcb cfgPtr hcur htcb hext hav ↦ ?_⟩
  have hnone := hunmapped t tcb htcb (ne_zombie_of_current hsound.coherent hcur htcb) hext
  obtain ⟨k', hcall, hext'⟩ := sysAgentCreate_returns cfgPtr hk hsound hcur htcb hext hnone hav
  exact ⟨k', returns_step_syscall.mpr ⟨by rw [hcur]; simp, hcall⟩, hext'⟩

omit [KernelLayout] in
/-- The first process forks, and is no agent. -/
theorem areas_private_fork : ∃ k k' r, (@step sampleLayout (.syscall .fork)).Returns k r k' ∧
    @AreasPrivate sampleLayout k' := by
  let k := (sampleRun sampleElf [.schedule]).2
  let k' := (@step sampleLayout (.syscall .fork) k).2
  have hk : @Reach sampleLayout LeavesArea ForksWithout k :=
    reach_sampleRun (by decide +kernel) (by decide +kernel) ⟨by decide, by decide⟩
      fun _ event hevent ↦ by
        obtain rfl := List.mem_singleton.mp hevent
        trivial
  have hcur : k.current = some 0 := by decide +kernel
  have hpages : ((k.tasks 0).map fun tcb ↦ (List.range' 0x80000 16).all fun v ↦
      tcb.memorySet.pageTable.lookup v = none) = some true := by decide +kernel
  have hstep : (@step sampleLayout (.syscall .fork)).Returns k (some 1) k' :=
    Exec.returns_of_fst (by decide +kernel)
  clear_value k'
  clear_value k
  refine ⟨k, k', some 1, hstep, @areas_private sampleLayout k'
    (@Reach.step sampleLayout _ _ _ _ _ _ hk ?_ hstep)⟩
  intro t tcb ht htcb v hge hlt
  obtain rfl := Option.some.inj (hcur.symm.trans ht)
  rw [htcb, Option.map_some, Option.some.injEq, List.all_eq_true] at hpages
  have hnone := hpages v (List.mem_range'_1.mpr ⟨hge, by omega⟩)
  exact not_not.mpr (of_decide_eq_true hnone)

omit [KernelLayout] in
/-- The child of an agent has a copy of the area, although programs leave it alone. -/
theorem not_areasPrivate_fork : ∃ k, @Reach sampleLayout LeavesArea
    (fun _ event ↦ ∀ elf, event = .syscall (.exec (some (some elf))) → LeavesArea elf) k ∧
      ¬@AreasPrivate sampleLayout k := by
  let k := (sampleRun sampleElf [.schedule, .syscall (.agentCreate 0), .syscall .fork]).2
  have hk : @Reach sampleLayout LeavesArea
      (fun _ event ↦ ∀ elf, event = .syscall (.exec (some (some elf))) → LeavesArea elf) k :=
    reach_sampleRun (by decide +kernel) (by decide +kernel) ⟨by decide, by decide⟩
      fun _ event hevent elf h ↦ by
        subst h
        simp at hevent
  have hchild : ((k.tasks 1).map fun tcb ↦ (tcb.taskStatus, tcb.agentExt.isNone,
      (tcb.memorySet.pageTable.lookup 0x80000).isSome)) = some (.ready, true, true) := by
    decide +kernel
  clear_value k
  refine ⟨k, hk, fun h ↦ ?_⟩
  obtain ⟨tcb, htcb, heq⟩ := Option.map_eq_some_iff.mp hchild
  obtain ⟨hstatus, hext, hlookup⟩ := by simpa only [Prod.mk.injEq] using heq
  exact @AreasPrivate.unmapped sampleLayout k h 1 tcb htcb (by rw [hstatus]; decide)
    (Option.isNone_iff_eq_none.mp hext) 0x80000 le_rfl (by decide)
    (Option.isSome_iff_ne_none.mp hlookup)

end Kernel

end AgentOS
