import AgentOS.Run.Memory
import AgentOS.Trap.Context

/-!
# The pages of trap contexts

The code on the trampoline page saves the registers of a program at `TRAP_CONTEXT`, which is the same address in all
address spaces. In every state of every run the table of a process that has not ended maps it to a page of its own,
and no program may access that page, not even the one whose registers are there. So the processes of the kernel have
trap contexts, and what one of them computes leaves all contexts alone.
-/

namespace AgentOS

open Riscv

/-- `PageTable::token`: SV39 and the page of the root, as `satp` has it. -/
def PageTable.token (pt : PageTable) : ℕ := 8 <<< 60 ||| pt.rootPpn

theorem PageTable.token_eq {pt : PageTable} (h : pt.rootPpn < 2 ^ 44) : pt.token = 2 ^ 63 + pt.rootPpn := by
  have hlt : pt.rootPpn < 2 ^ 60 := by omega
  rw [token, ← Nat.shiftLeft_add_eq_or_of_lt hlt]
  rfl

namespace MemorySet

variable [KernelLayout] {ms : MemorySet} {m : Machine}

/-- What user mode can access is a page of an area, at the place where the area has it. -/
theorem Wf.exists_area_of_user (h : ms.Wf) (hsep : m.Separate ms.frames) {vpn : ℕ} (hv : vpn < 2 ^ 27)
    {pte : PageTableEntry} (hpte : ms.pageTable.lookup vpn = some pte) (hu : pte.user = true) :
    ∃ area ∈ ms.areas, (vpn, pte.ppn) ∈ area.dataFrames := by
  rcases List.mem_cons.mp ((h.lookup_iff _ hv pte).mp hpte) with htramp | hmem
  · -- the trampoline is not for user mode
    obtain ⟨-, rfl⟩ := Prod.mk.inj htramp
    rw [PageTableEntry.user, PageTableEntry.flags_new _ (by decide)] at hu
    exact absurd hu (by decide)
  · obtain ⟨area, harea, hentry⟩ := List.mem_flatMap.mp hmem
    obtain ⟨⟨v, f⟩, hp, heq⟩ := List.mem_map.mp hentry
    obtain ⟨rfl, rfl⟩ := Prod.mk.inj heq
    refine ⟨area, harea, ?_⟩
    rwa [PageTableEntry.ppn_new (hsep.lt (mem_frames harea hp)) (PTEFlags.or_V_lt (h.framed area harea).mapPerm_lt)]

/-- The entry of the trap context. -/
def contextEntry (f : ℕ) : PageTableEntry :=
  .new f (MapPermission.R ||| MapPermission.W ||| PTEFlags.V)

omit [KernelLayout] in
theorem user_contextEntry (f : ℕ) : (contextEntry f).user = false := by
  rw [contextEntry, PageTableEntry.user, PageTableEntry.flags_new _ (by decide)]
  decide

omit [KernelLayout] in
theorem ppn_contextEntry {f : ℕ} (hf : f < 2 ^ 44) : (contextEntry f).ppn = f :=
  PageTableEntry.ppn_new hf (by decide)

/-- A space with an area for the trap context maps it. -/
theorem Wf.exists_context (h : ms.Wf) (hspan : trapContextSpan ∈ ms.spans) : ∃ area ∈ ms.areas, ∃ f,
    (trapContextVpn, f) ∈ area.dataFrames ∧ ms.pageTable.lookup trapContextVpn = some (contextEntry f) := by
  obtain ⟨area, harea, heq⟩ := List.mem_map.mp hspan
  obtain ⟨hstart, hrest⟩ := Prod.mk.inj heq
  obtain ⟨hstop, hperm⟩ := Prod.mk.inj hrest
  have hv : trapContextVpn ∈ area.vpns := by
    rw [MapArea.mem_vpns, hstart, hstop]
    exact ⟨le_rfl, by decide⟩
  obtain ⟨f, hf, hlookup⟩ := h.lookup_of_mem harea hv
  rw [hperm] at hlookup
  exact ⟨area, harea, f, hf, hlookup⟩

/-- No page for user mode is the one of the trap context. -/
theorem Wf.ppn_ne_of_user (h : ms.Wf) (hsep : m.Separate ms.frames) {area : MapArea} (harea : area ∈ ms.areas) {f : ℕ}
    (hf : (trapContextVpn, f) ∈ area.dataFrames)
    (hcontext : ms.pageTable.lookup trapContextVpn = some (contextEntry f)) {vpn : ℕ} (hv : vpn < 2 ^ 27)
    {pte : PageTableEntry} (hpte : ms.pageTable.lookup vpn = some pte) (hu : pte.user = true) : pte.ppn ≠ f := by
  intro heq
  obtain ⟨area', harea', hf'⟩ := h.exists_area_of_user hsep hv hpte hu
  obtain rfl : vpn = trapContextVpn := vpn_eq_of_frame hsep harea' harea (heq ▸ hf') hf
  obtain rfl := Option.some.inj (hpte.symm.trans hcontext)
  rw [user_contextEntry] at hu
  exact absurd hu (by decide)

end MemorySet

namespace Kernel

variable [KernelLayout] {k : Kernel} {t u : ℕ} {s s' : Space}

/-! ## The pages -/

/-- Every space has an area for the trap context: no step takes it away. -/
theorem Reachable.trapContextSpan_mem (h : Reachable k) (hs : k.spaceOf t = some s) :
    trapContextSpan ∈ s.memorySet.spans := by
  have helf : ∀ elf : Elf, trapContextSpan ∈ elf.spans := fun elf ↦ by simp [Elf.spans]
  refine Reach.spaces (P := fun s ↦ trapContextSpan ∈ s.memorySet.spans) (fun elf ms _ hspans ↦ ?_)
    (fun event k t s _ _ hall hstep ↦ ?_) h hs
  · exact hspans ▸ helf elf
  · cases hstep with
    | stays h => exact hall t s h
    | created _ h hspans =>
      rw [hspans]
      exact List.mem_append_left _ (hall t _ h)
    | @loaded _ _ _ elf _ _ _ hspans => exact hspans ▸ helf elf
    | forked _ _ h hspans => exact hspans ▸ hall _ _ h

/-- A page of a process that has not ended is a page of no other one. -/
theorem Reachable.disjoint (h : Reachable k) (hs : k.spaceOf t = some s) (hs' : k.spaceOf u = some s') {f : ℕ}
    (hf : f ∈ s.memorySet.frames) (hf' : f ∈ s'.memorySet.frames) : t = u := by
  obtain ⟨hsound, hk⟩ := Reach.memory h
  obtain ⟨tcb, htcb, -, rfl⟩ := spaceOf_eq_some.mp hs
  obtain ⟨ucb, hucb, -, rfl⟩ := spaceOf_eq_some.mp hs'
  by_contra hne
  have hle := count_le_owned_add (hsound.fresh.lt_nextTask htcb) (hsound.fresh.lt_nextTask hucb) hne f
  have hone := hk.uses_le f
  have hpos : 0 < tcb.memorySet.frames.count f := List.count_pos_iff.mpr hf
  have hpos' : 0 < ucb.memorySet.frames.count f := List.count_pos_iff.mpr hf'
  rw [framesOf_of_tasks htcb, framesOf_of_tasks hucb] at hle
  rw [uses] at hone
  omega

theorem Reachable.separate (h : Reachable k) (hs : k.spaceOf t = some s) : k.machine.Separate s.memorySet.frames := by
  obtain ⟨hsound, hk⟩ := Reach.memory h
  obtain ⟨tcb, htcb, -, rfl⟩ := spaceOf_eq_some.mp hs
  exact hk.separate hsound.fresh htcb

/-- The page where the registers of a process are. -/
structure ContextPage (k : Kernel) (t f : ℕ) : Prop where
  maps : ∃ s, k.spaceOf t = some s ∧ s.memorySet.pageTable.lookup MemorySet.trapContextVpn =
    some (MemorySet.contextEntry f) ∧ f ∈ s.memorySet.frames
  inRam : KernelLayout.InRam f
  /-- No program can get there. -/
  hidden : ∀ u s, k.spaceOf u = some s → ∀ vpn < 2 ^ 27, ∀ pte, s.memorySet.pageTable.lookup vpn = some pte →
    pte.user = true → pte.ppn ≠ f

theorem Reachable.exists_contextPage (h : Reachable k) (hs : k.spaceOf t = some s) : ∃ f, k.ContextPage t f := by
  obtain ⟨hsound, hk⟩ := Reach.memory h
  have hwf := hk.wf t s hs
  obtain ⟨area, harea, f, hf, hcontext⟩ := hwf.exists_context (h.trapContextSpan_mem hs)
  have hmem : f ∈ s.memorySet.frames := MemorySet.mem_frames harea hf
  refine ⟨f, ⟨s, hs, hcontext, hmem⟩, ?_, fun u s' hs' vpn hv pte hpte hu heq ↦ ?_⟩
  · obtain ⟨tcb, htcb, -, rfl⟩ := spaceOf_eq_some.mp hs
    have hcount := count_le_owned (hsound.fresh.lt_nextTask htcb) f
    rw [framesOf_of_tasks htcb] at hcount
    have hpos : 0 < tcb.memorySet.frames.count f := List.count_pos_iff.mpr hmem
    exact hk.inRam f (by rw [uses]; omega)
  · have hwf' := hk.wf u s' hs'
    have huser := hwf'.frame_of_user (h.separate hs') hv hpte hu
    obtain rfl : t = u := h.disjoint hs hs' hmem (heq ▸ List.mem_append_right _ huser)
    obtain rfl := Option.some.inj (hs.symm.trans hs')
    exact hwf.ppn_ne_of_user (h.separate hs) harea hf hcontext hv hpte hu heq

theorem ContextPage.unique {f : ℕ} (h : Reachable k) (ht : k.ContextPage t f) (hu : k.ContextPage u f) : t = u := by
  obtain ⟨s, hs, -, hf⟩ := ht.maps
  obtain ⟨s', hs', -, hf'⟩ := hu.maps
  exact h.disjoint hs hs' hf hf'

/-! ## The words -/

omit [KernelLayout] in
/-- The doubleword that the hardware finds at an address, with the table that a token names. -/
def wordAt (k : Kernel) (satp va : Word) : Option ℕ := do
  let t ← (List.range k.nextTask).find? fun t ↦
    (k.spaceOf t).any fun s ↦ s.memorySet.pageTable.token = satp.toNat
  let s ← k.spaceOf t
  let pte ← s.memorySet.pageTable.lookup (VirtAddr.floor (VirtAddr.ofUsize va.toNat))
  pure (pte.ppn * 512 + VirtAddr.pageOffset va.toNat / 8)

theorem Reachable.rootPpn_mem (h : Reachable k) (hs : k.spaceOf t = some s) :
    s.memorySet.pageTable.rootPpn ∈ s.memorySet.frames :=
  List.mem_append_left _ (((Reach.memory h).2.wf t s hs).table.node_mem [] _ (PageTable.node_root _))

theorem Reachable.token_eq (h : Reachable k) (hs : k.spaceOf t = some s) :
    s.memorySet.pageTable.token = 2 ^ 63 + s.memorySet.pageTable.rootPpn ∧ s.memorySet.pageTable.rootPpn < 2 ^ 44 :=
  have hlt := (h.separate hs).lt (h.rootPpn_mem hs)
  ⟨PageTable.token_eq hlt, hlt⟩

/-- A token names one process. -/
theorem Reachable.find_token (h : Reachable k) (hs : k.spaceOf t = some s) :
    ((List.range k.nextTask).find? fun t ↦ (k.spaceOf t).any fun s' ↦
      s'.memorySet.pageTable.token = s.memorySet.pageTable.token) = some t := by
  obtain ⟨hsound, -⟩ := Reach.memory h
  obtain ⟨tcb, htcb, -, -⟩ := spaceOf_eq_some.mp hs
  rcases hfind : (List.range k.nextTask).find? fun t ↦ (k.spaceOf t).any fun s' ↦
      s'.memorySet.pageTable.token = s.memorySet.pageTable.token with _ | u
  · refine absurd (List.find?_eq_none.mp hfind t (List.mem_range.mpr (hsound.fresh.lt_nextTask htcb))) ?_
    simp [hs]
  have hany := List.find?_some hfind
  obtain ⟨s', hs', htoken⟩ := (Option.any_eq_true _ _).mp hany
  obtain ⟨heq, -⟩ := h.token_eq hs
  obtain ⟨heq', -⟩ := h.token_eq hs'
  have hroot : s'.memorySet.pageTable.rootPpn = s.memorySet.pageTable.rootPpn := by
    have := of_decide_eq_true htoken
    omega
  obtain rfl : t = u := h.disjoint hs hs' (h.rootPpn_mem hs) (hroot ▸ h.rootPpn_mem hs')
  exact hfind

/-- The words of a trap context lie in its page, one after the other. -/
theorem Reachable.at_context {f : ℕ} (h : Reachable k) (hs : k.spaceOf t = some s)
    (hcontext : s.memorySet.pageTable.lookup MemorySet.trapContextVpn = some (MemorySet.contextEntry f))
    (hf : f < 2 ^ 44) : At k.wordAt (BitVec.ofNat 64 s.memorySet.pageTable.token) (BitVec.ofNat 64 trapContext)
      (fun i ↦ f * 512 + i) 37 := by
  intro i hi
  obtain ⟨htoken, hroot⟩ := h.token_eq hs
  have hsatp : (BitVec.ofNat 64 s.memorySet.pageTable.token).toNat = s.memorySet.pageTable.token := by
    rw [BitVec.toNat_ofNat, htoken]
    exact Nat.mod_eq_of_lt (by omega)
  have htrap : trapContext = 18446744073709543424 := rfl
  have hva : (BitVec.ofNat 64 trapContext + BitVec.ofNat 64 (8 * i)).toNat = trapContext + 8 * i := by
    rw [BitVec.toNat_add, BitVec.toNat_ofNat, BitVec.toNat_ofNat, htrap]
    omega
  have hpage : VirtAddr.floor (VirtAddr.ofUsize (trapContext + 8 * i)) = MemorySet.trapContextVpn := by
    have hvpn : MemorySet.trapContextVpn = 134217726 := rfl
    rw [hvpn, VirtAddr.floor, VirtAddr.ofUsize, htrap, pageSize]
    omega
  have hoffset : VirtAddr.pageOffset (trapContext + 8 * i) / 8 = i := by
    rw [VirtAddr.pageOffset, htrap, pageSize]
    omega
  rw [wordAt, hsatp, h.find_token hs, hva, hpage, hoffset]
  simp only [Option.bind_eq_bind, Option.bind_some, hs, hcontext, MemorySet.ppn_contextEntry hf]
  rfl

/-! ## The contexts -/

omit [KernelLayout] in
/-- The processes that have not ended. -/
abbrev Live (k : Kernel) : Type := {t // (k.spaceOf t).isSome}

omit [KernelLayout] in
/-- What a process writes in user mode: words of pages that its table has for user mode. -/
def UserWrites (k : Kernel) (t : ℕ) (mem mem' : ℕ → Word) : Prop :=
  ∀ a, mem' a ≠ mem a → ∃ s, k.spaceOf t = some s ∧ ∃ vpn < 2 ^ 27, ∃ pte,
    s.memorySet.pageTable.lookup vpn = some pte ∧ pte.user = true ∧ a / 512 = pte.ppn

omit [KernelLayout] in
theorem Live.exists_space (t : k.Live) : ∃ s, k.spaceOf t.val = some s := Option.isSome_iff_exists.mp t.property

/-- The words of a context page stay what they are when programs write. -/
theorem ContextPage.word_eq {f : ℕ} (h : k.ContextPage t f) {mem mem' : ℕ → Word} (hwrites : k.UserWrites u mem mem')
    {i : ℕ} (hi : i < 512) : mem' (f * 512 + i) = mem (f * 512 + i) := by
  by_contra hne
  obtain ⟨s, hs, vpn, hv, pte, hpte, huser, hpage⟩ := hwrites _ hne
  have hf : (f * 512 + i) / 512 = f := by omega
  exact h.hidden u s hs vpn hv pte hpte huser (hpage.symm.trans hf)

/-- **The contexts of processes.** In every state of every run each process that has not ended has a trap context,
in memory and apart from all others. The table that its token names has the context at `TRAP_CONTEXT`, and what the
program that runs does in user mode takes no program away from where it has got to. -/
theorem contexts_of_processes (h : Reachable k) (kernelSatp trapHandler : Word) (kernelSp : k.Live → Word) :
    ∃ c : TrapContexts k.wordAt k.Live,
      (c.va = BitVec.ofNat 64 trapContext ∧ c.kernelSatp = kernelSatp ∧ c.kernelSp = kernelSp ∧
        c.trapHandler = trapHandler) ∧
      (∀ t s, k.spaceOf t.val = some s → c.token t = BitVec.ofNat 64 s.memorySet.pageTable.token) ∧
      (∀ t, ∀ i < 37, KernelLayout.InRam (c.place t i / 512)) ∧
      ∀ hart hart' t u, c.Reached hart t u → hart'.user = hart.user → hart'.csr = hart.csr →
        k.UserWrites t.val hart.mem hart'.mem →
          c.Reached hart' t (Function.update u t ⟨hart'.pc, (u t).status, hart'.x⟩) := by
  have hpages : ∀ t : k.Live, ∃ f, k.ContextPage t.val f := fun t ↦ by
    obtain ⟨s, hs⟩ := t.exists_space
    exact h.exists_contextPage hs
  choose space hspace using fun t : k.Live ↦ t.exists_space
  choose page hpage using hpages
  have hat : ∀ t : k.Live, At k.wordAt (BitVec.ofNat 64 (space t).memorySet.pageTable.token)
      (BitVec.ofNat 64 trapContext) (fun i ↦ page t * 512 + i) 37 := fun t ↦ by
    obtain ⟨s, hs, hcontext, hmem⟩ := (hpage t).maps
    obtain rfl := Option.some.inj ((hspace t).symm.trans hs)
    exact h.at_context hs hcontext ((h.separate hs).lt hmem)
  refine ⟨⟨_, _, fun t i ↦ page t * 512 + i, kernelSatp, kernelSp, trapHandler, hat, fun t t' i j hi hj heq ↦ ?_⟩,
    ⟨rfl, rfl, rfl, rfl⟩, fun t s hs ↦ ?_, fun t i hi ↦ ?_, fun hart hart' t u hreached huser hcsr hwrites ↦ ?_⟩
  · have hpages : page t = page t' := by omega
    exact ⟨Subtype.ext ((hpage t).unique h (hpages ▸ hpage t')), by omega⟩
  · rw [Option.some.inj (hs.symm.trans (hspace t))]
  · have hf : (page t * 512 + i) / 512 = page t := by omega
    exact hf ▸ (hpage t).inRam
  · refine .compute hreached huser hcsr fun s i hi ↦ ?_
    exact (hpage s).word_eq hwrites (by omega)

omit [KernelLayout] in
/-- A process forked: two contexts, with the same address and different words. -/
theorem contexts_of_processes_fork : ∃ k, @Reachable sampleLayout k ∧
    ∃ c : TrapContexts k.wordAt k.Live, ∃ t u : k.Live,
      c.va = BitVec.ofNat 64 trapContext ∧ t.val = 0 ∧ u.val = 1 ∧ c.place t 0 ≠ c.place u 0 := by
  obtain ⟨k, hk⟩ : ∃ k, k = (sampleRun sampleElf [.schedule, .syscall .fork]).2 := ⟨_, rfl⟩
  have hreach : @Reachable sampleLayout k :=
    hk ▸ reach_sampleRun (by decide +kernel) (by decide +kernel) trivial fun _ _ _ ↦ trivial
  obtain ⟨c, hva, -⟩ := @contexts_of_processes sampleLayout k hreach 0 0 fun _ ↦ 0
  have hzero : (k.spaceOf 0).isSome := hk ▸ by decide +kernel
  have hone : (k.spaceOf 1).isSome := hk ▸ by decide +kernel
  refine ⟨k, hreach, c, ⟨0, hzero⟩, ⟨1, hone⟩, hva.1, rfl, rfl, fun heq ↦ ?_⟩
  have hsame := (c.separate _ _ 0 0 (by decide) (by decide) heq).1
  exact absurd (congrArg Subtype.val hsame) Nat.zero_ne_one

end Kernel

end AgentOS
