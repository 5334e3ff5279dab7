import AgentOS.Lib.LittleEndian
import AgentOS.Mm.AddressSpace

/-!
# The context area

Every agent gets a range of its address space, at a fixed base, that the kernel writes and the user
reads: a header, a segment for tool results, the path buffer and a history segment. The kernel
reaches it as it reaches any user memory, through the page table of the agent.

The user reads it with its own loads. `userLoad` is what the hardware makes of one: unlike the
kernel's walk, it fails when an entry is invalid or does not allow the user to read.
-/

namespace AgentOS

open LittleEndian

def contextAreaBase : ℕ := 0x80000000

/-- 16 pages. -/
def contextAreaDefaultSize : ℕ := 64 * 1024

namespace Layout

def headerOff : ℕ := 0x0000
def headerLen : ℕ := 0x0100
def toolResultOff : ℕ := 0x0100
def toolResultLen : ℕ := 0x4000
def pathBufferOff : ℕ := 0x4100
def pathBufferLen : ℕ := 0x8000
def historyOff : ℕ := 0xC100
def historyLen : ℕ := 0x2000

end Layout

def headerMagic : ℕ := 0xA9E45EC0

def headerVersion : ℕ := 1

/-- The bytes of a fresh `AreaHeader`: its fields in order, the reserved bytes, and four bytes of
padding that bring the size to a multiple of eight. The compiler leaves the padding as it is; it is
zero here. -/
def areaHeader : List UInt8 :=
  leBytes 4 headerMagic ++ leBytes 4 headerVersion ++ leBytes 8 0 ++
    leBytes 4 Layout.toolResultOff ++ leBytes 4 Layout.toolResultLen ++ leBytes 4 0 ++
    leBytes 4 Layout.pathBufferOff ++ leBytes 4 Layout.pathBufferLen ++ leBytes 4 0 ++
    leBytes 4 0 ++ leBytes 4 Layout.historyOff ++ leBytes 4 Layout.historyLen ++
    List.replicate (256 - 64) 0 ++ List.replicate 4 0

structure AgentContextArea where
  base : ℕ
  size : ℕ
  deriving DecidableEq, Repr

namespace AgentContextArea

variable [KernelLayout]

/-- Map a context area into an address space. -/
def allocate (ms : MemorySet) (size : ℕ) : Exec Machine (AgentContextArea × MemorySet) := do
  let aligned := max ((size + 0xFFF) / 0x1000 * 0x1000) 0x1000
  let base := VirtAddr.ofUsize contextAreaBase
  let «end» := VirtAddr.ofUsize (contextAreaBase + aligned)
  let ms ← ms.insertFramedArea base «end» (MapPermission.R ||| MapPermission.W ||| MapPermission.U)
  pure (⟨base, aligned⟩, ms)

def initHeader (area : AgentContextArea) (ms : MemorySet) : Exec Machine Unit :=
  writeUserBytes .contextArea ms.pageTable area.base areaHeader

/-- Write to the tool result ring. The offset in the area and the length, or `none` when the data is
longer than the ring. -/
def writeToolResult (area : AgentContextArea) (ms : MemorySet) (data : List UInt8) :
    Exec Machine (Option (ℕ × ℕ)) :=
  if Layout.toolResultLen < data.length then pure none
  else do
    let headerBuf ← readUserBytes .contextArea ms.pageTable area.base (List.replicate 256 0)
    let curPos := leValue ((headerBuf.drop 20).take 4)
    let start := if Layout.toolResultLen < curPos + data.length then 0 else curPos
    writeUserBytes .contextArea ms.pageTable (area.base + Layout.toolResultOff + start) data
    let newPos := (start + data.length) % 2 ^ 32
    let seq := (leValue ((headerBuf.drop 8).take 8) + 2) % 2 ^ 64
    writeUserBytes .contextArea ms.pageTable (area.base + 8) (leBytes 8 seq)
    writeUserBytes .contextArea ms.pageTable (area.base + 20) (leBytes 4 newPos)
    pure (some ((Layout.toolResultOff + start) % 2 ^ 32, data.length % 2 ^ 32))

end AgentContextArea

/-! ## The area as the user sees it -/

/-- A load of one byte in user mode. `none` is a page fault. -/
def userLoad (m : Machine) (pt : PageTable) (a : ℕ) : Option UInt8 :=
  if a < 2 ^ 38 ∨ (2 ^ 64 - 2 ^ 38 ≤ a ∧ a < 2 ^ 64) then
    match pt.lookup (pageOf a) with
    | some pte => if pte.readable ∧ pte.user then some (m.byteAt (pte.ppn, a % pageSize)) else none
    | none => none
  else none

/-- Loads of consecutive bytes. -/
def userLoads (m : Machine) (pt : PageTable) (a n : ℕ) : Option (List UInt8) :=
  (List.range' a n).mapM (userLoad m pt)

/-- Every page of the range is valid, and the user may read and write it. -/
def AreaMapped (pt : PageTable) (base size : ℕ) : Prop :=
  ∀ a, base ≤ a → a < base + size → ∃ pte, pt.lookup (pageOf a) = some pte ∧
    pte.readable = true ∧ pte.writable = true ∧ pte.user = true

/-- In a mapped range the user loads what the kernel stores. -/
theorem userLoad_eq {m : Machine} {pt : PageTable} {base size a : ℕ}
    (hmapped : AreaMapped pt base size) (hlow : base + size ≤ 2 ^ 38) (hge : base ≤ a)
    (hlt : a < base + size) : userLoad m pt a = some (m.byteAt (pt.place a)) := by
  obtain ⟨pte, hpte, hr, -, hu⟩ := hmapped a hge hlt
  have htr := PageTable.translate_of_lookup hpte
  rw [userLoad, if_pos (Or.inl (by omega)), hpte]
  simp [hr, hu, PageTable.place, htr]

theorem userLoads_eq {m : Machine} {pt : PageTable} {base size off n : ℕ}
    (hmapped : AreaMapped pt base size) (hlow : base + size ≤ 2 ^ 38) (hle : off + n ≤ size) :
    userLoads m pt (base + off) n = some ((List.range' off n).map (userView m pt base)) := by
  induction n generalizing off with
  | zero => rfl
  | succ n ih =>
    have hnext : userLoads m pt (base + (off + 1)) n = _ := ih (by omega)
    rw [userLoads, List.range'_succ, List.mapM_cons,
      userLoad_eq hmapped hlow (by omega) (by omega)]
    rw [userLoads, ← Nat.add_assoc] at hnext
    rw [hnext, List.range'_succ, List.map_cons]
    rfl

/-! ## Where an area is mapped -/

variable [KernelLayout]

/-- A span whose pages the user may read and write. -/
def UserWritable (s : ℕ × ℕ × ℕ) : Prop :=
  s.2.2.testBit 1 = true ∧ s.2.2.testBit 2 = true ∧ s.2.2.testBit 4 = true

instance (s : ℕ × ℕ × ℕ) : Decidable (UserWritable s) := inferInstanceAs (Decidable (_ ∧ _ ∧ _))

omit [KernelLayout] in
/-- The permissions of an area are those of its entries. -/
private theorem testBit_flags_new {perm i : ℕ} (hperm : perm < 256) (hi : 0 < i) (f : ℕ) :
    (PageTableEntry.new f (perm ||| PTEFlags.V)).flags.testBit i = perm.testBit i := by
  have hV : PTEFlags.V.testBit i = false := by
    rw [Bool.eq_false_iff, PTEFlags.V, Nat.shiftLeft_zero, ne_eq,
      Nat.testBit_one_eq_true_iff_self_eq_zero]
    omega
  rw [PageTableEntry.flags_new _ (PTEFlags.or_V_lt hperm), Nat.testBit_or, hV, Bool.or_false]

/-- A range is mapped for the user when it is covered by areas that are. -/
theorem MemorySet.Wf.areaMapped_iff {ms : MemorySet} (h : ms.Wf) {base size : ℕ} :
    AreaMapped ms.pageTable base size ↔ ∀ a, base ≤ a → a < base + size →
      ∃ s ∈ ms.spans, s.1 ≤ pageOf a ∧ pageOf a < s.2.1 ∧ UserWritable s := by
  refine forall_congr' fun a ↦ forall_congr' fun _ ↦ forall_congr' fun _ ↦ ?_
  have hv : pageOf a < 2 ^ 27 := VirtAddr.floor_ofUsize_lt a
  constructor
  · rintro ⟨pte, hpte, hr, hw, hu⟩
    rcases List.mem_cons.mp ((h.lookup_iff _ hv pte).mp hpte) with htramp | hmem
    · -- the user may not read the trampoline
      obtain ⟨-, rfl⟩ := Prod.mk.inj htramp
      rw [PageTableEntry.user, PageTableEntry.flags_new _ (by decide)] at hu
      exact absurd hu (by decide)
    · obtain ⟨area, harea, hentry⟩ := List.mem_flatMap.mp hmem
      have hframed := h.framed area harea
      have hvpn := MapArea.mem_vpns.mp (hframed.mem_vpns_of_entry hentry)
      obtain ⟨p, -, heq⟩ := List.mem_map.mp hentry
      obtain ⟨-, rfl⟩ := Prod.mk.inj heq
      have hbit := fun i hi ↦ testBit_flags_new (i := i) hframed.mapPerm_lt hi p.2
      exact ⟨area.span, List.mem_map_of_mem harea, hvpn.1, hvpn.2, (hbit 1 (by decide)).symm.trans hr,
        (hbit 2 (by decide)).symm.trans hw, (hbit 4 (by decide)).symm.trans hu⟩
  · rintro ⟨s, hs, hge, hlt, hr, hw, hu⟩
    obtain ⟨area, harea, rfl⟩ := List.mem_map.mp hs
    have hperm := (h.framed area harea).mapPerm_lt
    obtain ⟨f, -, hl⟩ := h.lookup_of_mem harea (MapArea.mem_vpns.mpr ⟨hge, hlt⟩)
    have hbit := fun i hi ↦ testBit_flags_new (i := i) hperm hi f
    exact ⟨_, hl, (hbit 1 (by decide)).trans hr, (hbit 2 (by decide)).trans hw,
      (hbit 4 (by decide)).trans hu⟩

/-- The span of a context area of the default size. -/
def contextAreaSpan : ℕ × ℕ × ℕ :=
  (0x80000, 0x80010, MapPermission.R ||| MapPermission.W ||| MapPermission.U)

omit [KernelLayout] in
theorem pageOf_contextArea {a : ℕ} (hge : contextAreaBase ≤ a)
    (hlt : a < contextAreaBase + contextAreaDefaultSize) : 0x80000 ≤ pageOf a ∧ pageOf a < 0x80010 := by
  simp only [contextAreaBase, contextAreaDefaultSize] at hge hlt
  simp only [pageOf, VirtAddr.floor, VirtAddr.ofUsize, pageSize]
  omega

namespace AgentContextArea

theorem allocate_eq (ms : MemorySet) : allocate ms contextAreaDefaultSize =
    ms.insertFramedArea 0x80000000 0x80010000
      (MapPermission.R ||| MapPermission.W ||| MapPermission.U) >>= fun ms ↦
    pure (⟨contextAreaBase, contextAreaDefaultSize⟩, ms) := rfl

theorem allocate_conserves {ms ms' : MemorySet} {area : AgentContextArea} {m m' : Machine}
    (h : (allocate ms contextAreaDefaultSize).Returns m (area, ms') m') :
    m.Conserves ms.frames m' ms'.frames := by
  rw [allocate_eq] at h
  obtain ⟨ms₁, m₁, hinsert, hpure⟩ := Exec.returns_bind.mp h
  obtain ⟨heq, rfl⟩ := Exec.returns_pure.mp hpure
  obtain ⟨-, rfl⟩ := Prod.mk.inj heq
  exact MemorySet.insertFramedArea_conserves hinsert

/-- **Allocating a context area.** None of its pages was mapped before. -/
theorem allocate_spec {ms ms' : MemorySet} {area : AgentContextArea} {m m' : Machine}
    (hwf : ms.Wf) (hsep : m.Separate ms.frames)
    (h : (allocate ms contextAreaDefaultSize).Returns m (area, ms') m') :
    area = ⟨contextAreaBase, contextAreaDefaultSize⟩ ∧ ms'.Wf ∧
      ms'.spans = ms.spans ++ [contextAreaSpan] ∧ m.Conserves ms.frames m' ms'.frames ∧
      ∀ v, 0x80000 ≤ v → v < 0x80010 → ¬ms.Mapped v := by
  have hcons := allocate_conserves h
  rw [allocate_eq] at h
  obtain ⟨ms₁, m₁, hinsert, hpure⟩ := Exec.returns_bind.mp h
  obtain ⟨heq, rfl⟩ := Exec.returns_pure.mp hpure
  obtain ⟨rfl, rfl⟩ := Prod.mk.inj heq
  obtain ⟨hwf', hspans, hnone⟩ :=
    MemorySet.insertFramedArea_spec hwf hsep (by decide) (by decide) hinsert
  exact ⟨rfl, hwf', hspans, hcons, hnone⟩

/-- It succeeds when no page of the area is mapped and 18 frames are left: the pages, and two nodes of
the page table. -/
theorem allocate_returns {ms : MemorySet} {m : Machine} (hwf : ms.Wf)
    (hsep : m.Separate ms.frames) (hnone : ∀ v, 0x80000 ≤ v → v < 0x80010 → ¬ms.Mapped v)
    (hav : 18 ≤ m.frameAllocator.available) :
    ∃ ms' m', (allocate ms contextAreaDefaultSize).Returns m
      (⟨contextAreaBase, contextAreaDefaultSize⟩, ms') m' := by
  obtain ⟨ms', m', h⟩ := MemorySet.insertFramedArea_returns 0x80000000 0x80010000
    (MapPermission.R ||| MapPermission.W ||| MapPermission.U) (i := 2) (j := 0) hwf hsep
    (by decide) (by decide) (fun v hge hlt ↦ by
      have hge' : 0x80000 ≤ v := hge
      have hlt' : v < 0x80010 := hlt
      refine ⟨by omega, ?_, ?_, hnone v hge' hlt'⟩
      · simp only [VirtPageNum.indexes]
        omega
      · simp only [VirtPageNum.indexes]
        omega) hav
  exact ⟨ms', m', h.bind (Exec.returns_pure.mpr ⟨rfl, rfl⟩)⟩

end AgentContextArea

/-- A space with a context area in it backs the area's range with memory. -/
theorem MemorySet.Wf.backed_contextArea {ms : MemorySet} {m : Machine} (h : ms.Wf)
    (hsep : m.Separate ms.frames) (hram : ∀ f ∈ ms.frames, KernelLayout.InRam f)
    (hmem : contextAreaSpan ∈ ms.spans) :
    Backed ms.pageTable contextAreaBase contextAreaDefaultSize ∧
      AreaMapped ms.pageTable contextAreaBase contextAreaDefaultSize := by
  refine ⟨h.backed hsep hram (Or.inl (by decide)) fun a ha ha' ↦ ?_,
    h.areaMapped_iff.mpr fun a ha ha' ↦ ?_⟩
  · obtain ⟨area, harea, hspan⟩ := List.mem_map.mp hmem
    obtain ⟨hstart, hrest⟩ := Prod.mk.inj hspan
    obtain ⟨hstop, -⟩ := Prod.mk.inj hrest
    have hpage := pageOf_contextArea ha ha'
    exact ⟨area, harea, MapArea.mem_vpns.mpr ⟨hstart ▸ hpage.1, hstop ▸ hpage.2⟩⟩
  · have hpage := pageOf_contextArea ha ha'
    exact ⟨contextAreaSpan, hmem, hpage.1, hpage.2, by decide⟩

/-! ## A mapped area

A page table with the context area in it and nothing else, for tests. -/

/-- Three nodes, and the pages of the area behind them. -/
def samplePageTable : PageTable where
  rootPpn := 0x82000
  frames := [0x82000, 0x82001, 0x82002]
  nodes node idx :=
    if node = 0x82000 ∧ idx = 2 then .new 0x82001 PTEFlags.V
    else if node = 0x82001 ∧ idx = 0 then .new 0x82002 PTEFlags.V
    else if node = 0x82002 ∧ idx < 16 then
      .new (0x82010 + idx) (PTEFlags.V ||| PTEFlags.R ||| PTEFlags.W ||| PTEFlags.U)
    else .empty

/-- A machine with 100 pages left and a clock that counts. -/
def sampleMachine : Machine where
  bytes _ _ := 0
  frameAllocator := .init 0x83000 0x83064 (by decide)
  clock n := n
  accesses := []

omit [KernelLayout] in
private theorem free_sampleMachine (f : ℕ) :
    sampleMachine.free f = if 0x83000 ≤ f ∧ f < 0x83064 then 1 else 0 :=
  Nat.zero_add _

omit [KernelLayout] in
theorem separate_sampleMachine : sampleMachine.Separate [] := fun f ↦ by
  rw [List.count_nil, free_sampleMachine]
  split_ifs <;> omega

omit [KernelLayout] in
theorem inRam_sampleMachine {f : ℕ} (h : 0 < ([] : List ℕ).count f + sampleMachine.free f) :
    @KernelLayout.InRam sampleLayout f := by
  have hpages : sampleLayout.ekernel / pageSize = 0x81A60 ∧ memoryEnd / pageSize = 0x88000 := by
    decide
  rw [List.count_nil, free_sampleMachine] at h
  show sampleLayout.ekernel / pageSize ≤ f ∧ _
  rw [hpages.1, hpages.2]
  split_ifs at h <;> omega

omit [KernelLayout] in
private theorem lookup_samplePageTable : ∀ i < 16, samplePageTable.lookup (0x80000 + i) =
    some (.new (0x82010 + i) (PTEFlags.V ||| PTEFlags.R ||| PTEFlags.W ||| PTEFlags.U)) := by
  decide

omit [KernelLayout] in
theorem samplePageTable_mapped :
    @Backed sampleLayout samplePageTable contextAreaBase contextAreaDefaultSize ∧
      AreaMapped samplePageTable contextAreaBase contextAreaDefaultSize := by
  have key : ∀ a, contextAreaBase ≤ a → a < contextAreaBase + contextAreaDefaultSize →
      ∃ i < 16, pageOf a = 0x80000 + i ∧ samplePageTable.lookup (pageOf a) =
        some (.new (0x82010 + i) (PTEFlags.V ||| PTEFlags.R ||| PTEFlags.W ||| PTEFlags.U)) := by
    intro a ha ha'
    obtain ⟨hge, hlt⟩ := pageOf_contextArea ha ha'
    have hpage : pageOf a = 0x80000 + (pageOf a - 0x80000) := by omega
    exact ⟨pageOf a - 0x80000, by omega, hpage, by
      rw [hpage, lookup_samplePageTable _ (by omega), ← hpage]⟩
  refine ⟨@Backed.mk sampleLayout _ _ _ (fun a ha ha' ↦ ?_) fun a b ha ha' hb hb' heq ↦ ?_,
    fun a ha ha' ↦ ?_⟩
  · obtain ⟨i, hi, -, hl⟩ := key a ha ha'
    refine ⟨_, PageTable.translate_of_lookup hl, ?_⟩
    rw [PageTableEntry.ppn_new (by omega) (by decide)]
    exact ⟨(by omega : 0x81A60 ≤ 0x82010 + i), (by omega : 0x82010 + i < 0x88000)⟩
  · obtain ⟨i, hi, hpage, hl⟩ := key a ha ha'
    obtain ⟨j, hj, hpage', hl'⟩ := key b hb hb'
    simp only [PageTable.place, PageTable.translate_of_lookup hl, PageTable.translate_of_lookup hl',
      Option.map_some, Option.getD_some, Prod.mk.injEq] at heq
    rw [PageTableEntry.ppn_new (by omega) (by decide),
      PageTableEntry.ppn_new (by omega) (by decide)] at heq
    simp only [contextAreaBase, contextAreaDefaultSize] at ha ha' hb hb'
    simp only [pageOf, VirtAddr.floor, VirtAddr.ofUsize, pageSize] at hpage hpage' heq
    omega
  · obtain ⟨i, hi, -, hl⟩ := key a ha ha'
    refine ⟨_, hl, ?_⟩
    simp only [PageTableEntry.readable, PageTableEntry.writable, PageTableEntry.user,
      PageTableEntry.flags_new _ (by decide :
        PTEFlags.V ||| PTEFlags.R ||| PTEFlags.W ||| PTEFlags.U < 256)]
    decide

end AgentOS
