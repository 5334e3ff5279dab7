import AgentOS.Lib.Allocation
import AgentOS.Mm.KernelSpace
import AgentOS.Run.Processes

/-!
# Process identifiers and kernel stacks

A handle is a process identifier in use, and dropping the handle gives the identifier back. A process also
has a kernel stack, at a place in the kernel address space that its identifier determines. When a process is
dropped its handle goes first and its stack second, so for a moment the identifier can be handed out again
while its stack is still mapped; nothing runs in that moment.
-/

namespace AgentOS

/-! ## Where the stacks are -/

/-- The stack of an identifier is in the upper half of the 39-bit address space. -/
def StackFits (pid : ℕ) : Prop := 2 ^ 64 - 2 ^ 38 ≤ (kernelStackPosition pid).1

instance (pid : ℕ) : Decidable (StackFits pid) := inferInstanceAs (Decidable (_ ≤ _))

/-- The first page of a stack. -/
def stackVpn (pid : ℕ) : ℕ := VirtAddr.floor (VirtAddr.ofUsize (kernelStackPosition pid).1)

/-- The stack as an area. -/
def stackSpan (pid : ℕ) : ℕ × ℕ × ℕ :=
  (stackVpn pid, stackVpn pid + 2, MapPermission.R ||| MapPermission.W)

theorem StackFits.le {pid : ℕ} (h : StackFits pid) : 3 * pid + 4 ≤ 2 ^ 26 := by
  simp only [StackFits, kernelStackPosition, trampoline, kernelStackSize, pageSize] at h
  omega

/-- Counted from the end of the address space, each stack takes three pages: two of its own, and one below
them. -/
theorem StackFits.stackVpn_add {pid : ℕ} (h : StackFits pid) : stackVpn pid + (3 * pid + 3) = 2 ^ 27 := by
  have hle := h.le
  simp only [stackVpn, VirtAddr.floor, VirtAddr.ofUsize, kernelStackPosition, trampoline, kernelStackSize,
    pageSize]
  omega

theorem StackFits.ceil_top {pid : ℕ} (h : StackFits pid) :
    VirtAddr.ceil (VirtAddr.ofUsize (kernelStackPosition pid).2) = stackVpn pid + 2 := by
  have hle := h.le
  have hvpn := h.stackVpn_add
  have htop : (kernelStackPosition pid).2 % 2 ^ 39 = (2 ^ 27 - 1 - 3 * pid) * 4096 := by
    simp only [kernelStackPosition, trampoline, kernelStackSize, pageSize]
    omega
  rw [VirtAddr.ceil, VirtAddr.ofUsize, htop, if_neg (by omega), pageSize]
  omega

/-- What is said of the stacks of two processes. -/
structure StacksApart (p q : ℕ) : Prop where
  aligned : (kernelStackPosition p).1 % pageSize = 0 ∧ (kernelStackPosition p).2 % pageSize = 0
  size : (kernelStackPosition p).2 = (kernelStackPosition p).1 + kernelStackSize
  below_trampoline : (kernelStackPosition p).2 ≤ trampoline
  /-- At least one page lies between them. -/
  apart : (kernelStackPosition p).2 + pageSize ≤ (kernelStackPosition q).1 ∨
    (kernelStackPosition q).2 + pageSize ≤ (kernelStackPosition p).1

theorem stacksApart {p q : ℕ} (hp : StackFits p) (hq : StackFits q) (hne : p ≠ q) : StacksApart p q := by
  have hp' := hp.le
  have hq' := hq.le
  constructor <;> simp only [kernelStackPosition, trampoline, kernelStackSize, pageSize] <;> omega

/-! ## Handles -/

/-- An identifier that was handed out twice was given back in between. -/
def ReusedAfterDrop (es : List (Allocation.Event ℕ)) : Prop :=
  ∀ pid xs ys zs, es = xs ++ .alloc pid :: (ys ++ .alloc pid :: zs) → Allocation.Event.free pid ∈ ys

/-- The allocator, and the identifiers of the handles. -/
structure Handles where
  allocator : PidAllocator
  live : Multiset ℕ

namespace Handles

def new : Handles := ⟨.new, 0⟩

/-- `pid_alloc`, and dropping a `PidHandle`. -/
inductive Step : Handles → List (Allocation.Event ℕ) → Handles → Prop
  | alloc {pa pa' : PidAllocator} {live : Multiset ℕ} {pid : ℕ} (h : pa.alloc = (pid, pa')) :
      Step ⟨pa, live⟩ [.alloc pid] ⟨pa', pid ::ₘ live⟩
  | drop {pa pa' : PidAllocator} {live : Multiset ℕ} {pid : ℕ} (hpid : pid ∈ live)
      (h : pa.dealloc pid = some pa') : Step ⟨pa, live⟩ [.free pid] ⟨pa', live.erase pid⟩

/-- The handles are the identifiers in use, and no two of them are the same. -/
structure Inv (h : Handles) : Prop where
  wf : h.allocator.Wf
  nodup : h.live.Nodup
  mem_iff : ∀ pid, pid ∈ h.live ↔ h.allocator.InUse pid

theorem inv_new : new.Inv :=
  ⟨PidAllocator.wf_new, Multiset.nodup_zero, fun pid ↦
    ⟨fun h ↦ absurd h (Multiset.notMem_zero pid), fun h ↦ absurd h.1 (Nat.not_lt_zero pid)⟩⟩

theorem Inv.dealloc {h : Handles} (hinv : h.Inv) {pid : ℕ} (hpid : pid ∈ h.live) :
    (h.allocator.dealloc pid).isSome := by
  have hin : pid < h.allocator.current ∧ pid ∉ h.allocator.recycled := (hinv.mem_iff pid).mp hpid
  rw [PidAllocator.dealloc, if_pos hin]
  rfl

theorem sound : Allocation.Sound Step (fun h ↦ {pid | pid ∈ h.live}) Inv where
  inv := by
    rintro h es h' hinv (@⟨pa, pa', live, pid, halloc⟩ | @⟨pa, pa', live, pid, hpid, hdealloc⟩)
    · obtain ⟨hwf, hunused, huse⟩ := PidAllocator.alloc_spec hinv.wf halloc
      refine ⟨hwf, Multiset.nodup_cons.mpr ⟨fun h ↦ hunused ((hinv.mem_iff pid).mp h), hinv.nodup⟩,
        fun p ↦ ?_⟩
      rw [Multiset.mem_cons, huse p]
      exact or_congr Iff.rfl (hinv.mem_iff p)
    · obtain ⟨hwf, huse⟩ := PidAllocator.dealloc_spec hinv.wf hdealloc
      refine ⟨hwf, hinv.nodup.erase pid, fun p ↦ ?_⟩
      rw [hinv.nodup.mem_erase_iff, huse p]
      exact and_congr Iff.rfl (hinv.mem_iff p)
  lawful := by
    rintro h es h' hinv (@⟨pa, pa', live, pid, halloc⟩ | @⟨pa, pa', live, pid, hpid, hdealloc⟩)
    · obtain ⟨-, hunused, -⟩ := PidAllocator.alloc_spec hinv.wf halloc
      exact ⟨fun h ↦ hunused ((hinv.mem_iff pid).mp h), trivial⟩
    · exact ⟨hpid, trivial⟩
  inUse_eq := by
    rintro h es h' hinv (@⟨pa, pa', live, pid, halloc⟩ | @⟨pa, pa', live, pid, hpid, hdealloc⟩)
    · ext p
      exact Multiset.mem_cons
    · ext p
      rw [Set.mem_ofPred_eq, hinv.nodup.mem_erase_iff]
      exact and_comm

end Handles

/-! ## Stacks -/

/-- The kernel, the handles without a stack, and the handles with one. -/
structure StackState where
  kernel : Kernel
  bare : Multiset ℕ
  stacked : Multiset ℕ

namespace StackState

/-- The allocator and all handles. -/
def handles (s : StackState) : Handles := ⟨s.kernel.pidAllocator, s.bare + s.stacked⟩

/-! ### Frames -/

section

/-- The frames of the kernel space and those that are free are different frames of the memory. -/
structure Frames (m : Machine) (ms : MemorySet) : Prop where
  separate : m.Separate ms.frames
  lt_end : ∀ f, 0 < ms.frames.count f + m.free f → f < m.frameAllocator.end
  end_le : m.frameAllocator.end ≤ 2 ^ 44

variable {m m' : Machine} {ms ms' : MemorySet} {f : ℕ}

/-- Frames move between the allocator and the kernel space. -/
theorem Frames.conserves (h : Frames m ms) (hc : m.Conserves ms.frames m' ms'.frames)
    (hend : m.SameEnd m') : Frames m' ms' where
  separate := h.separate.conserves hc
  lt_end f hf := by
    rw [hc f] at hf
    exact (h.lt_end f hf).trans_eq hend.symm
  end_le := hend.trans_le h.end_le

theorem Frames.frameAlloc (h : Frames m ms) (halloc : Machine.frameAlloc.Returns m f m') :
    Frames m' ms := by
  have hfree := Machine.free_of_frameAlloc halloc
  have hend : m.SameEnd m' := Machine.keeps_frameAlloc _ _ _ halloc
  refine ⟨fun g ↦ ?_, fun g hg ↦ ?_, hend.trans_le h.end_le⟩
  · obtain ⟨hle, hlt⟩ := h.separate g
    have := hfree g
    exact ⟨by omega, fun hpos ↦ hlt (by omega)⟩
  · have := hfree g
    exact (h.lt_end g (by omega)).trans_eq hend.symm

theorem Frames.frameDealloc (h : Frames m ms) (hf : f ∉ ms.frames)
    (hdealloc : (Machine.frameDealloc f).Returns m () m') : Frames m' ms := by
  have hfree := (Machine.free_of_frameDealloc hdealloc).1
  obtain ⟨fa, hfa, rfl⟩ := Machine.returns_frameDealloc.mp hdealloc
  have hcount := List.count_eq_zero_of_not_mem hf
  -- the frame was handed out, so it is not behind the end and not among those given back before
  obtain ⟨hend, hlt, hzero⟩ : fa.end = m.frameAllocator.end ∧ f < m.frameAllocator.end ∧ m.free f = 0 := by
    unfold StackFrameAllocator.dealloc at hfa
    split at hfa
    · exact absurd hfa (by simp)
    · rename_i hout
      obtain ⟨hlt, hmem⟩ := not_or.mp hout
      refine ⟨by rw [← Option.some.inj hfa], (not_le.mp hlt).trans_le m.frameAllocator.current_le, ?_⟩
      rw [Machine.free, StackFrameAllocator.free, List.count_eq_zero_of_not_mem hmem,
        if_neg fun hin ↦ hlt hin.1]
  have hle := h.end_le
  refine ⟨fun g ↦ ?_, fun g hg ↦ ?_, hend.trans_le h.end_le⟩
  · obtain ⟨hone, hlt'⟩ := h.separate g
    have hg := hfree g
    split at hg
    · subst g
      exact ⟨by omega, fun _ ↦ by omega⟩
    · exact ⟨by omega, fun hpos ↦ hlt' (by omega)⟩
  · have hg' := hfree g
    refine lt_of_lt_of_eq ?_ hend.symm
    split at hg'
    · subst g
      exact hlt
    · exact h.lt_end g (by omega)

/-- Before anything is allocated. -/
theorem frames_init {l r : ℕ} {hle : l ≤ r} (hr : r ≤ 2 ^ 44) (hm : m.frameAllocator = .init l r hle) :
    Frames m ⟨⟨0, [], fun _ _ ↦ .empty⟩, []⟩ := by
  have hfree : ∀ f, ([] : List ℕ).count f + m.free f = if l ≤ f ∧ f < r then 1 else 0 := fun f ↦ by
    rw [Machine.free, hm, List.count_nil, Nat.zero_add]
    exact Nat.zero_add _
  have hend : m.frameAllocator.end = r := by
    rw [hm]
    rfl
  refine ⟨fun f ↦ ?_, fun f hf ↦ ?_, hend.trans_le hr⟩
  · show ([] : List ℕ).count f + m.free f ≤ 1 ∧ (0 < ([] : List ℕ).count f + m.free f → f < 2 ^ 44)
    rw [hfree f]
    split_ifs <;> omega
  · replace hf : 0 < ([] : List ℕ).count f + m.free f := hf
    rw [hfree f] at hf
    split_ifs at hf <;> omega

end

/-! ### Steps -/

variable [KernelLayout]

/-- What happens to handles and stacks: a handle is taken, a stack is made for a handle that has none, and
handles and stacks are dropped, the two of a process in the order of its fields. In between others take frames
and give back theirs. -/
inductive Step : StackState → List (Allocation.Event ℕ) → StackState → Prop
  | pidAlloc {k k' : Kernel} {bare stacked : Multiset ℕ} {pid : ℕ}
      (h : Kernel.pidAlloc.Returns k pid k') :
      Step ⟨k, bare, stacked⟩ [.alloc pid] ⟨k', pid ::ₘ bare, stacked⟩
  | newStack {k k' : Kernel} {bare stacked : Multiset ℕ} {pid : ℕ} (hpid : pid ∈ bare)
      (hfits : StackFits pid) (h : (Kernel.newKernelStack pid).Returns k () k') :
      Step ⟨k, bare, stacked⟩ [] ⟨k', bare.erase pid, pid ::ₘ stacked⟩
  | dropHandle {k k' : Kernel} {bare stacked : Multiset ℕ} {pid : ℕ} (hpid : pid ∈ bare)
      (h : (Kernel.pidDealloc pid).Returns k () k') :
      Step ⟨k, bare, stacked⟩ [.free pid] ⟨k', bare.erase pid, stacked⟩
  | dropStack {k k' : Kernel} {bare stacked : Multiset ℕ} {pid : ℕ} (hpid : pid ∈ stacked)
      (h : (Kernel.dropKernelStack pid).Returns k () k') :
      Step ⟨k, bare, stacked⟩ [] ⟨k', pid ::ₘ bare, stacked.erase pid⟩
  | dropBoth {k k₁ k' : Kernel} {bare stacked : Multiset ℕ} {pid : ℕ} (hpid : pid ∈ stacked)
      (hhandle : (Kernel.pidDealloc pid).Returns k () k₁)
      (hstack : (Kernel.dropKernelStack pid).Returns k₁ () k') :
      Step ⟨k, bare, stacked⟩ [.free pid] ⟨k', bare, stacked.erase pid⟩
  | frameAlloc {k : Kernel} {bare stacked : Multiset ℕ} {m : Machine} {f : ℕ}
      (h : Machine.frameAlloc.Returns k.machine f m) :
      Step ⟨k, bare, stacked⟩ [] ⟨{ k with machine := m }, bare, stacked⟩
  | frameDealloc {k : Kernel} {bare stacked : Multiset ℕ} {m : Machine} {f : ℕ}
      (hf : f ∉ k.kernelSpace.frames) (h : (Machine.frameDealloc f).Returns k.machine () m) :
      Step ⟨k, bare, stacked⟩ [] ⟨{ k with machine := m }, bare, stacked⟩

/-- The areas in the upper half of the kernel space are the stacks. -/
def Mapped (ms : MemorySet) (stacked : Multiset ℕ) : Prop :=
  ∃ low high, MemorySet.UpperHalf low high ms ∧
    (high.map MapArea.span : Multiset (ℕ × ℕ × ℕ)) = stacked.map stackSpan

/-- The kernel as it is before the first process. -/
structure Initial (s : StackState) : Prop where
  bare : s.bare = 0
  stacked : s.stacked = 0
  pids : s.kernel.pidAllocator = .new
  frames : Frames s.kernel.machine s.kernel.kernelSpace
  upper : ∃ low, MemorySet.UpperHalf low [] s.kernel.kernelSpace

structure Inv (s : StackState) : Prop where
  handles : s.handles.Inv
  fits : ∀ pid ∈ s.stacked, StackFits pid
  frames : Frames s.kernel.machine s.kernel.kernelSpace
  mapped : Mapped s.kernel.kernelSpace s.stacked

theorem Initial.inv {s : StackState} (h : s.Initial) : s.Inv := by
  obtain ⟨k, bare, stacked⟩ := s
  obtain ⟨rfl, rfl, hpids, hframes, low, hupper⟩ := h
  refine ⟨?_, fun pid hpid ↦ absurd hpid (Multiset.notMem_zero pid), hframes, low, [], hupper, rfl⟩
  have heq : StackState.handles ⟨k, 0, 0⟩ = .new := by
    rw [StackState.handles, hpids]
    rfl
  rw [heq]
  exact Handles.inv_new

/-! ### The stacks in the kernel space -/

section

variable {m m' : Machine} {ms ms' : MemorySet} {stacked : Multiset ℕ} {pid v : ℕ}

omit [KernelLayout] in
theorem mem_vpns_of_span {area : MapArea} (h : area.span = stackSpan pid) :
    v ∈ area.vpns ↔ stackVpn pid ≤ v ∧ v < stackVpn pid + 2 := by
  obtain ⟨hstart, hrest⟩ := Prod.mk.inj h
  rw [MapArea.mem_vpns, hstart, (Prod.mk.inj hrest).1]

/-- The mapped pages of the upper half are the trampoline and the pages of the stacks. -/
theorem Mapped.mapped_iff (h : Mapped ms stacked) (hge : 2 ^ 26 ≤ v) (hlt : v < 2 ^ 27) :
    ms.Mapped v ↔ v = 2 ^ 27 - 1 ∨ ∃ pid ∈ stacked, stackVpn pid ≤ v ∧ v < stackVpn pid + 2 := by
  obtain ⟨low, high, hupper, hspans⟩ := h
  have htramp : MemorySet.trampolineVpn = 2 ^ 27 - 1 := by decide
  rw [hupper.mapped_iff hge hlt, htramp]
  refine or_congr Iff.rfl ⟨?_, ?_⟩
  · rintro ⟨area, harea, hv⟩
    have hmem : area.span ∈ stacked.map stackSpan := by
      rw [← hspans]
      exact List.mem_map_of_mem harea
    obtain ⟨pid, hpid, hspan⟩ := Multiset.mem_map.mp hmem
    exact ⟨pid, hpid, (mem_vpns_of_span hspan.symm).mp hv⟩
  · rintro ⟨pid, hpid, hv⟩
    have hmem : stackSpan pid ∈ (high.map MapArea.span : Multiset (ℕ × ℕ × ℕ)) := by
      rw [hspans]
      exact Multiset.mem_map_of_mem _ hpid
    obtain ⟨area, harea, hspan⟩ := List.mem_map.mp (Multiset.mem_coe.mp hmem)
    exact ⟨area, harea, (mem_vpns_of_span hspan).mpr hv⟩

/-- **The place of a stack is free** as long as it is not one of the stacks. -/
theorem Mapped.not_mapped (h : Mapped ms stacked) (hfits : ∀ p ∈ stacked, StackFits p)
    (hpid : pid ∉ stacked) (hpid' : StackFits pid) (hge : stackVpn pid ≤ v) (hlt : v < stackVpn pid + 2) :
    ¬ms.Mapped v := by
  have hadd := hpid'.stackVpn_add
  have hle := hpid'.le
  rw [h.mapped_iff (by omega) (by omega)]
  rintro (heq | ⟨p, hp, hge', hlt'⟩)
  · omega
  · have hadd' := (hfits p hp).stackVpn_add
    obtain rfl : pid = p := by omega
    exact hpid hp

/-- The page below the place of a stack is never mapped. -/
theorem Mapped.guard (h : Mapped ms stacked) (hfits : ∀ p ∈ stacked, StackFits p) (hpid : StackFits pid) :
    ¬ms.Mapped (stackVpn pid - 1) := by
  have hadd := hpid.stackVpn_add
  have hle := hpid.le
  rw [h.mapped_iff (by omega) (by omega)]
  rintro (heq | ⟨p, hp, hge', hlt'⟩)
  · omega
  · have hadd' := (hfits p hp).stackVpn_add
    omega

/-- **A new stack** is entered where its identifier says. -/
theorem Mapped.insert (h : Mapped ms stacked) (hframes : Frames m ms) (hpid : StackFits pid)
    (hnew : (ms.insertFramedArea (VirtAddr.ofUsize (kernelStackPosition pid).1)
      (VirtAddr.ofUsize (kernelStackPosition pid).2)
      (MapPermission.R ||| MapPermission.W)).Returns m ms' m') :
    Mapped ms' (pid ::ₘ stacked) ∧ Frames m' ms' := by
  obtain ⟨low, high, hupper, hspans⟩ := h
  have hconserves := MemorySet.insertFramedArea_conserves hnew
  obtain ⟨area, m₁, harea, hpush⟩ := Exec.returns_bind.mp hnew
  obtain ⟨⟨-, rfl⟩, rfl⟩ := MapArea.new_spec harea
  rw [hpid.ceil_top] at hpush
  have hadd := hpid.stackVpn_add
  have hle := hpid.le
  have hge : 2 ^ 26 ≤ stackVpn pid := by omega
  obtain ⟨hend, area, hspan, hupper'⟩ :=
    hupper.push hframes.separate hge (by omega) (by decide) hpush
  refine ⟨⟨low, high ++ [area], hupper', ?_⟩, hframes.conserves hconserves hend⟩
  rw [List.map_append, List.map_singleton, hspan, Multiset.map_cons, ← hspans, ← Multiset.coe_add,
    add_comm]
  rfl

/-- And this succeeds when the identifier has no stack yet and there are frames enough. -/
theorem Mapped.insert_returns (h : Mapped ms stacked) (hframes : Frames m ms)
    (hfits : ∀ p ∈ stacked, StackFits p) (hpid : pid ∉ stacked) (hpid' : StackFits pid)
    (hroom : 6 ≤ m.frameAllocator.available) :
    ∃ ms' m', (ms.insertFramedArea (VirtAddr.ofUsize (kernelStackPosition pid).1)
      (VirtAddr.ofUsize (kernelStackPosition pid).2)
      (MapPermission.R ||| MapPermission.W)).Returns m ms' m' := by
  have hmapped := fun v ↦ h.not_mapped (v := v) hfits hpid hpid'
  obtain ⟨low, high, hupper, -⟩ := h
  have htop := hpid'.ceil_top
  have hadd := hpid'.stackVpn_add
  have hbottom : VirtAddr.floor (VirtAddr.ofUsize (kernelStackPosition pid).1) = stackVpn pid := rfl
  refine hupper.insertFramedArea_returns _ _ _ hframes.separate ?_ ?_ (by decide) ?_ ?_
  · rw [hbottom, htop]
    omega
  · rw [htop]
    omega
  · rw [hbottom, htop]
    exact fun v hge hlt ↦ hmapped v hge hlt
  · rw [hbottom, htop]
    omega

/-- **Removing a stack** removes its area and nothing else. -/
theorem Mapped.remove (h : Mapped ms stacked) (hframes : Frames m ms)
    (hfits : ∀ p ∈ stacked, StackFits p) (hnodup : stacked.Nodup) (hpid : pid ∈ stacked) :
    ∃ ms' m' area, (ms.removeAreaWithStartVpn (stackVpn pid)).Returns m ms' m' ∧
      Mapped ms' (stacked.erase pid) ∧ Frames m' ms' ∧ area ∈ ms.areas ∧ area.span = stackSpan pid ∧
      ms'.areas = ms.areas.erase area ∧ (∀ f, m'.free f = m.free f + area.frames.count f) ∧
      ∀ v < 2 ^ 27, ms'.pageTable.lookup v =
        if v ∈ area.vpns then none else ms.pageTable.lookup v := by
  obtain ⟨low, high, hupper, hspans⟩ := h
  have hmem : stackSpan pid ∈ (high.map MapArea.span : Multiset (ℕ × ℕ × ℕ)) := by
    rw [hspans]
    exact Multiset.mem_map_of_mem _ hpid
  obtain ⟨area, harea, hspan⟩ := List.mem_map.mp (Multiset.mem_coe.mp hmem)
  have hstart : area.start = stackVpn pid := (Prod.mk.inj hspan).1
  have hadd := (hfits pid hpid).stackVpn_add
  -- the identifier of every area, and that an area is determined by it
  have howner : ∀ b ∈ high, ∃ p ∈ stacked, b.span = stackSpan p := fun b hb ↦ by
    have hb' : b.span ∈ stacked.map stackSpan := by
      rw [← hspans]
      exact List.mem_map_of_mem hb
    obtain ⟨p, hp, heq⟩ := Multiset.mem_map.mp hb'
    exact ⟨p, hp, heq.symm⟩
  have hinj : ∀ p ∈ stacked, ∀ q ∈ stacked, stackSpan p = stackSpan q → p = q := fun p hp q hq heq ↦ by
    have h₁ := (hfits p hp).stackVpn_add
    have h₂ := (hfits q hq).stackVpn_add
    have h₃ : stackVpn p = stackVpn q := (Prod.mk.inj heq).1
    omega
  have hlist : (high.map MapArea.span).Nodup := by
    rw [← Multiset.coe_nodup, hspans]
    exact hnodup.map_on hinj
  have hsame : ∀ b ∈ high, b.span = area.span → b = area := fun b hb heq ↦
    List.inj_on_of_nodup_map hlist hb harea heq
  have hnodup' : high.Nodup := List.Nodup.of_map _ hlist
  have hother : ∀ b ∈ high.erase area, ∃ p ∈ stacked, b.span = stackSpan p ∧ p ≠ pid := fun b hb ↦ by
    obtain ⟨hne, hb⟩ := hnodup'.mem_erase_iff.mp hb
    obtain ⟨p, hp, heq⟩ := howner b hb
    refine ⟨p, hp, heq, ?_⟩
    rintro rfl
    exact hne (hsame b hb (heq.trans hspan.symm))
  have hunique : ∀ b ∈ high, b.start = area.start → b = area := fun b hb heq ↦ by
    obtain ⟨p, hp, hb'⟩ := howner b hb
    have h₁ := (hfits p hp).stackVpn_add
    have h₂ : b.start = stackVpn p := (Prod.mk.inj hb').1
    obtain rfl : p = pid := by omega
    exact hsame b hb (hb'.trans hspan.symm)
  have htramp : MemorySet.trampolineVpn ∉ area.vpns := by
    have heq : MemorySet.trampolineVpn = 2 ^ 27 - 1 := by decide
    rw [mem_vpns_of_span hspan, heq]
    omega
  have hapart : ∀ b ∈ high.erase area, ∀ v ∈ area.vpns, v ∉ b.vpns := fun b hb v hv hv' ↦ by
    obtain ⟨p, hp, hb', hne⟩ := hother b hb
    have h₁ := (hfits p hp).stackVpn_add
    have h₂ := (mem_vpns_of_span hspan).mp hv
    have h₃ := (mem_vpns_of_span hb').mp hv'
    omega
  obtain ⟨ms', m', hret, hend, hupper', hfree, hl⟩ := hupper.remove hframes.separate
    (fun f hf ↦ hframes.lt_end f (Nat.add_pos_left (List.count_pos_iff.mpr hf) _)) harea hunique htramp
    hapart
  rw [hstart] at hret
  refine ⟨ms', m', area, hret, ⟨low, _, hupper', ?_⟩, hframes.conserves
    (MemorySet.removeAreaWithStartVpn_conserves hret) hend, hupper.mem_areas harea, hspan, ?_, hfree, hl⟩
  · have hperm := Multiset.coe_eq_coe.mpr ((List.perm_cons_erase harea).map MapArea.span)
    rw [List.map_cons, hspan, hspans, ← Multiset.cons_erase hpid, Multiset.map_cons,
      ← Multiset.cons_coe] at hperm
    exact ((Multiset.cons_inj_right _).mp hperm).symm
  · rw [hupper'.areas_eq, hupper.areas_eq, List.erase_append_right]
    intro hlow
    have h₁ := hupper.low_lt area hlow
    have h₂ := hupper.le_high area harea
    omega

end

/-! ### Runs -/

variable {s t : StackState} {es : List (Allocation.Event ℕ)} {k k' : Kernel}

omit [KernelLayout] in
theorem returns_pidAlloc {pid : ℕ} : Kernel.pidAlloc.Returns k pid k' ↔
    ∃ pa, k.pidAllocator.alloc = (pid, pa) ∧ k' = { k with pidAllocator := pa } := by
  unfold Kernel.pidAlloc
  simp only [Exec.returns_bind, Exec.returns_get, Exec.returns_modify, Exec.returns_pure]
  constructor
  · rintro ⟨_, _, ⟨rfl, rfl⟩, u, _, rfl, rfl, rfl⟩
    exact ⟨_, rfl, rfl⟩
  · rintro ⟨pa, halloc, rfl⟩
    refine ⟨k, k, ⟨rfl, rfl⟩, ?_⟩
    rw [halloc]
    exact ⟨(), _, rfl, rfl, rfl⟩

omit [KernelLayout] in
theorem returns_pidDealloc {pid : ℕ} {u : Unit} : (Kernel.pidDealloc pid).Returns k u k' ↔
    ∃ pa, k.pidAllocator.dealloc pid = some pa ∧ k' = { k with pidAllocator := pa } := by
  simp only [Kernel.pidDealloc, Exec.returns_bind, Exec.returns_get, Exec.returns_unwrap,
    Exec.returns_modify]
  constructor
  · rintro ⟨_, _, ⟨rfl, rfl⟩, pa, _, ⟨hpa, rfl⟩, rfl⟩
    exact ⟨pa, hpa, rfl⟩
  · rintro ⟨pa, hpa, rfl⟩
    exact ⟨k, k, ⟨rfl, rfl⟩, pa, k, ⟨hpa, rfl⟩, rfl⟩

/-- For the allocator, a step takes a handle, drops one, or does nothing. -/
theorem Step.handles (h : Step s es t) :
    es = [] ∧ t.handles = s.handles ∨ Handles.Step s.handles es t.handles := by
  cases h with
  | @pidAlloc k k' bare stacked pid h =>
    obtain ⟨pa, halloc, rfl⟩ := returns_pidAlloc.mp h
    right
    show Handles.Step ⟨_, bare + stacked⟩ _ ⟨pa, pid ::ₘ bare + stacked⟩
    rw [Multiset.cons_add]
    exact .alloc halloc
  | @newStack k k' bare stacked pid hpid hfits h =>
    obtain ⟨ks, m, -, rfl⟩ := Kernel.returns_newKernelStack.mp h
    left
    rw [StackState.handles, Multiset.add_cons, ← Multiset.cons_add, Multiset.cons_erase hpid]
    exact ⟨rfl, rfl⟩
  | @dropHandle k k' bare stacked pid hpid h =>
    obtain ⟨pa, hpa, rfl⟩ := returns_pidDealloc.mp h
    right
    show Handles.Step ⟨_, bare + stacked⟩ _ ⟨pa, bare.erase pid + stacked⟩
    rw [← Multiset.erase_add_left_pos _ hpid]
    exact .drop (Multiset.mem_add.mpr (Or.inl hpid)) hpa
  | @dropStack k k' bare stacked pid hpid h =>
    obtain ⟨ks, m, -, rfl⟩ := Kernel.returns_dropKernelStack.mp h
    left
    rw [StackState.handles, Multiset.cons_add, ← Multiset.add_cons, Multiset.cons_erase hpid]
    exact ⟨rfl, rfl⟩
  | @dropBoth k k₁ k' bare stacked pid hpid hhandle hstack =>
    obtain ⟨pa, hpa, rfl⟩ := returns_pidDealloc.mp hhandle
    obtain ⟨ks, m, -, rfl⟩ := Kernel.returns_dropKernelStack.mp hstack
    right
    show Handles.Step ⟨_, bare + stacked⟩ _ ⟨pa, bare + stacked.erase pid⟩
    rw [← Multiset.erase_add_right_pos _ hpid]
    exact .drop (Multiset.mem_add.mpr (Or.inr hpid)) hpa
  | frameAlloc h => exact Or.inl ⟨rfl, rfl⟩
  | frameDealloc hf h => exact Or.inl ⟨rfl, rfl⟩

/-- **One step** keeps the invariant. -/
theorem Inv.step (hinv : s.Inv) (h : Step s es t) : t.Inv := by
  have hhandles : t.handles.Inv := by
    rcases h.handles with ⟨-, heq⟩ | hstep
    · rw [heq]
      exact hinv.handles
    · exact Handles.sound.inv hinv.handles hstep
  have hnodup := (Multiset.nodup_add.mp hinv.handles.nodup).2.1
  obtain ⟨-, hfits, hframes, hmapped⟩ := hinv
  cases h with
  | @pidAlloc k k' bare stacked pid h =>
    obtain ⟨pa, halloc, rfl⟩ := returns_pidAlloc.mp h
    exact ⟨hhandles, hfits, hframes, hmapped⟩
  | @newStack k k' bare stacked pid hpid hpid' h =>
    obtain ⟨ks, m, hinsert, rfl⟩ := Kernel.returns_newKernelStack.mp h
    obtain ⟨hmapped', hframes'⟩ := hmapped.insert hframes hpid' hinsert
    exact ⟨hhandles, Multiset.forall_mem_cons.mpr ⟨hpid', hfits⟩, hframes', hmapped'⟩
  | @dropHandle k k' bare stacked pid hpid h =>
    obtain ⟨pa, hpa, rfl⟩ := returns_pidDealloc.mp h
    exact ⟨hhandles, hfits, hframes, hmapped⟩
  | @dropStack k k' bare stacked pid hpid h =>
    obtain ⟨ks, m, hremove, rfl⟩ := Kernel.returns_dropKernelStack.mp h
    obtain ⟨ms', m', area, hret, hmapped', hframes', -⟩ := hmapped.remove hframes hfits hnodup hpid
    obtain ⟨rfl, rfl⟩ := hret.det hremove
    exact ⟨hhandles, fun p hp ↦ hfits p (Multiset.mem_of_mem_erase hp), hframes', hmapped'⟩
  | @dropBoth k k₁ k' bare stacked pid hpid hhandle hstack =>
    obtain ⟨pa, hpa, rfl⟩ := returns_pidDealloc.mp hhandle
    obtain ⟨ks, m, hremove, rfl⟩ := Kernel.returns_dropKernelStack.mp hstack
    obtain ⟨ms', m', area, hret, hmapped', hframes', -⟩ := hmapped.remove hframes hfits hnodup hpid
    obtain ⟨rfl, rfl⟩ := hret.det hremove
    exact ⟨hhandles, fun p hp ↦ hfits p (Multiset.mem_of_mem_erase hp), hframes', hmapped'⟩
  | frameAlloc h => exact ⟨hhandles, hfits, hframes.frameAlloc h, hmapped⟩
  | frameDealloc hf h => exact ⟨hhandles, hfits, hframes.frameDealloc hf h, hmapped⟩

theorem sound : Allocation.Sound Step (fun s ↦ {pid | pid ∈ s.handles.live}) Inv where
  inv := Inv.step
  lawful hinv h := by
    rcases h.handles with ⟨rfl, -⟩ | hstep
    · trivial
    · exact Handles.sound.lawful hinv.handles hstep
  inUse_eq hinv h := by
    rcases h.handles with ⟨rfl, heq⟩ | hstep
    · rw [heq]
      rfl
    · exact Handles.sound.inUse_eq hinv.handles hstep

omit [KernelLayout] in
/-- Dropping the stack removes its own area: the pages of the area are mapped no longer, their frames are free
again, and nothing else in the kernel space changes. -/
def DropsExactly (k : Kernel) (pid : ℕ) : Prop :=
  ∃ k' area, (Kernel.dropKernelStack pid).Returns k () k' ∧ area ∈ k.kernelSpace.areas ∧
    area.span = stackSpan pid ∧ k'.kernelSpace.areas = k.kernelSpace.areas.erase area ∧
    (∀ f, k'.machine.free f = k.machine.free f + area.frames.count f) ∧
    ∀ v < 2 ^ 27, k'.kernelSpace.pageTable.lookup v =
      if v ∈ area.vpns then none else k.kernelSpace.pageTable.lookup v

/-- What holds in every state of a run. -/
structure Safe (s : StackState) : Prop where
  nodup : (s.bare + s.stacked).Nodup
  /-- The assertions of `dealloc` hold when a handle is dropped. -/
  dealloc : ∀ pid ∈ s.bare + s.stacked, ∃ k', (Kernel.pidDealloc pid).Returns s.kernel () k'
  /-- A new stack is entered where nothing is mapped, so it is entered when there are frames enough. -/
  new : ∀ pid ∈ s.bare, StackFits pid →
    (∀ v, stackVpn pid ≤ v → v < stackVpn pid + 2 → ¬s.kernel.kernelSpace.Mapped v) ∧
      (6 ≤ s.kernel.machine.frameAllocator.available →
        ∃ k', (Kernel.newKernelStack pid).Returns s.kernel () k')
  drop : ∀ pid ∈ s.stacked, DropsExactly s.kernel pid
  /-- Also when its handle was dropped just before. -/
  dropAfter : ∀ pid ∈ s.stacked, ∀ k', (Kernel.pidDealloc pid).Returns s.kernel () k' → DropsExactly k' pid
  /-- The page below a stack is not mapped. -/
  guard : ∀ pid, StackFits pid → ¬s.kernel.kernelSpace.Mapped (stackVpn pid - 1)

theorem Inv.safe (hinv : s.Inv) : s.Safe := by
  obtain ⟨-, hstacked, hdisjoint⟩ := Multiset.nodup_add.mp hinv.handles.nodup
  have hdrop : ∀ pid ∈ s.stacked, ∀ pa, DropsExactly { s.kernel with pidAllocator := pa } pid :=
    fun pid hpid pa ↦ by
      obtain ⟨ms', m', area, hret, -, -, harea, hspan, hareas, hfree, hl⟩ :=
        hinv.mapped.remove hinv.frames hinv.fits hstacked hpid
      exact ⟨_, area, Kernel.returns_dropKernelStack.mpr ⟨ms', m', hret, rfl⟩, harea, hspan, hareas, hfree, hl⟩
  refine ⟨hinv.handles.nodup, fun pid hpid ↦ ?_, fun pid hpid hfits ↦ ?_, fun pid hpid ↦ ?_,
    fun pid hpid k' hk' ↦ ?_, fun pid hfits ↦ hinv.mapped.guard hinv.fits hfits⟩
  · obtain ⟨pa, hpa⟩ := Option.isSome_iff_exists.mp (hinv.handles.dealloc hpid)
    exact ⟨_, returns_pidDealloc.mpr ⟨pa, hpa, rfl⟩⟩
  · have hnot : pid ∉ s.stacked := Multiset.disjoint_left.mp hdisjoint hpid
    refine ⟨fun v hge hlt ↦ hinv.mapped.not_mapped hinv.fits hnot hfits hge hlt, fun hroom ↦ ?_⟩
    obtain ⟨ms', m', hret⟩ := hinv.mapped.insert_returns hinv.frames hinv.fits hnot hfits hroom
    exact ⟨_, Kernel.returns_newKernelStack.mpr ⟨ms', m', hret, rfl⟩⟩
  · exact hdrop pid hpid s.kernel.pidAllocator
  · obtain ⟨pa, -, rfl⟩ := returns_pidDealloc.mp hk'
    exact hdrop pid hpid pa

/-- **The kernel as it boots.** The allocator has the memory behind the image, and the kernel space has been
made. -/
theorem initial_newKernel {m : Machine}
    {hle : KernelLayout.ekernel / pageSize ≤ memoryEnd / pageSize}
    (hm : m.frameAllocator = .init (KernelLayout.ekernel / pageSize) (memoryEnd / pageSize) hle)
    (hspace : MemorySet.newKernel.Returns m k.kernelSpace k.machine) (hpids : k.pidAllocator = .new) :
    Initial ⟨k, 0, 0⟩ := by
  have hframes := frames_init (by decide) hm
  exact ⟨rfl, rfl, hpids, hframes.conserves (MemorySet.newKernel_conserves hspace)
    (MemorySet.keeps_newKernel _ _ _ hspace), MemorySet.newKernel_upperHalf hframes.separate hspace⟩

/-- **Identifiers and kernel stacks.** Whatever is allocated and dropped in whatever order, no identifier has
two handles, and none is handed out again before its handle is dropped. The stacks have their places apart from
each other, and each is entered and removed where nothing else is. -/
theorem handles_and_stacks_safe :
    (∀ es h, Allocation.Runs Handles.Step .new es h → h.live.Nodup ∧
      (∀ pid ∈ h.live, (h.allocator.dealloc pid).isSome) ∧ ReusedAfterDrop es) ∧
    (∀ p q, StackFits p → StackFits q → p ≠ q → StacksApart p q) ∧
    ∀ s₀ es s, Initial s₀ → Allocation.Runs Step s₀ es s → s.Safe ∧ ReusedAfterDrop es := by
  refine ⟨fun es h hrun ↦ ?_, fun p q ↦ stacksApart, fun s₀ es s hinit hrun ↦ ?_⟩
  · obtain ⟨hinv, hlawful, -⟩ := Handles.sound.runs Handles.inv_new hrun
    refine ⟨hinv.nodup, fun pid ↦ hinv.dealloc, fun pid xs ys zs heq ↦ ?_⟩
    rw [heq] at hlawful
    exact hlawful.free_mem
  · obtain ⟨hinv, hlawful, -⟩ := sound.runs hinit.inv hrun
    refine ⟨hinv.safe, fun pid xs ys zs heq ↦ ?_⟩
    rw [heq] at hlawful
    exact hlawful.free_mem

attribute [local instance] sampleLayout

/-- The first process gets the identifier 0 and its stack. -/
theorem handles_and_stacks_safe_first : ∃ s₀ es s, Initial s₀ ∧ Allocation.Runs Step s₀ es s ∧
    0 ∈ s.stacked ∧ s.Safe ∧ ReusedAfterDrop es := by
  have havail : sampleMachine.frameAllocator.available = 100 := by decide
  obtain ⟨ms₁, m₁, ms, m, hnew, htramp, hav⟩ :=
    MemorySet.mapTrampoline_returns (m := sampleMachine) separate_sampleMachine (by omega)
  have hframes : Frames sampleMachine ⟨⟨0, [], fun _ _ ↦ .empty⟩, []⟩ := frames_init (by decide) rfl
  have hend : sampleMachine.SameEnd m := by
    obtain ⟨pt, m₂, hmap, hpure⟩ := Exec.returns_bind.mp htramp
    obtain ⟨-, rfl⟩ := Exec.returns_pure.mp hpure
    exact (PageTable.keeps_map _ _ _ _ _ _ _ hmap).trans (MemorySet.keeps_newBare _ _ _ hnew)
  obtain ⟨k, hk⟩ : ∃ k, k = { Kernel.sampleKernel with machine := m, kernelSpace := ms } := ⟨_, rfl⟩
  have hinit : Initial ⟨k, 0, 0⟩ := by
    subst hk
    refine ⟨rfl, rfl, rfl, hframes.conserves ?_ hend, [],
      MemorySet.mapTrampoline_upperHalf hnew separate_sampleMachine htramp⟩
    exact (MemorySet.newBare_conserves hnew).trans (MemorySet.mapTrampoline_conserves htramp)
  have halloc : Kernel.pidAlloc.Returns k 0 { k with pidAllocator := ⟨1, []⟩ } := by
    subst hk
    exact returns_pidAlloc.mpr ⟨_, rfl, rfl⟩
  have hstep : Step ⟨k, 0, 0⟩ [.alloc 0] ⟨_, 0 ::ₘ 0, 0⟩ := .pidAlloc halloc
  have hrun := Allocation.Runs.nil.snoc hstep
  have hfits : StackFits 0 := by decide
  have hroom : 6 ≤ m.frameAllocator.available := by omega
  obtain ⟨k', hnew'⟩ := ((handles_and_stacks_safe.2.2 _ _ _ hinit hrun).1.new 0
    (Multiset.mem_cons_self 0 0) hfits).2 (by subst hk; exact hroom)
  have hrun' := hrun.snoc (.newStack (Multiset.mem_cons_self 0 0) hfits hnew')
  exact ⟨_, _, _, hinit, hrun', Multiset.mem_cons_self 0 0, handles_and_stacks_safe.2.2 _ _ _ hinit hrun'⟩

end StackState

end AgentOS
