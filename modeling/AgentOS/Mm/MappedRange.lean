import AgentOS.Mm.AddressSpace

/-!
# Mapped ranges

A range that the page table of a process maps need not be one of the process's own memory: it may reach
into the trampoline page, which every address space maps to the same page of the kernel's code. The
kernel cannot write there. So a write to a mapped range that returns went to memory of the process,
where different addresses are different places.
-/

namespace AgentOS

open Scatter

/-- An address that survives the cut to 39 bits. -/
def CanonicalAddr (a : ℕ) : Prop := a < 2 ^ 38 ∨ (2 ^ 64 - 2 ^ 38 ≤ a ∧ a < 2 ^ 64)

instance (a : ℕ) : Decidable (CanonicalAddr a) := inferInstanceAs (Decidable (_ ∨ _))

/-- The page table maps every address of the range. -/
def MappedRange (pt : PageTable) (ptr len : ℕ) : Prop :=
  ∀ a, ptr ≤ a → a < ptr + len → CanonicalAddr a ∧ pt.lookup (pageOf a) ≠ none

theorem pageOf_lt (a : ℕ) : pageOf a < 2 ^ 27 := VirtAddr.floor_ofUsize_lt a

/-- Page number and offset determine an address. -/
theorem CanonicalAddr.eq_of_pageOf {a b : ℕ} (ha : CanonicalAddr a) (hb : CanonicalAddr b)
    (hpage : pageOf a = pageOf b) (hoff : a % pageSize = b % pageSize) : a = b := by
  simp only [pageOf, VirtAddr.floor, VirtAddr.ofUsize, pageSize] at hpage hoff
  rcases ha with ha | ha <;> rcases hb with hb | hb <;> omega

theorem Canonical.canonicalAddr {ptr len a : ℕ} (h : Canonical ptr len) (ha : ptr ≤ a)
    (ha' : a < ptr + len) : CanonicalAddr a := by
  rcases h with hlow | ⟨hge, hlt⟩
  · exact Or.inl (by omega)
  · exact Or.inr ⟨by omega, by omega⟩

theorem MappedRange.sub {pt : PageTable} {ptr len : ℕ} (h : MappedRange pt ptr len) {ptr' len' : ℕ}
    (hge : ptr ≤ ptr') (hle : ptr' + len' ≤ ptr + len) : MappedRange pt ptr' len' :=
  fun a ha ha' ↦ h a (hge.trans ha) (ha'.trans_le hle)

/-- A mapped range that is not too long for the numbers lies in one half of the address space. -/
theorem MappedRange.canonical {pt : PageTable} {ptr len : ℕ} (h : MappedRange pt ptr len)
    (hlen : 0 < len) (hend : ptr + len < 2 ^ 64) : Canonical ptr len := by
  obtain ⟨hfirst, -⟩ := h ptr le_rfl (by omega)
  rcases hfirst with hlow | ⟨hge, -⟩
  · refine Or.inl (not_lt.mp fun hcross ↦ ?_)
    -- otherwise the first address behind the lower half is in the range
    obtain ⟨hhole, -⟩ := h (2 ^ 38) (by omega) hcross
    rcases hhole with hhole | ⟨hhole, -⟩ <;> omega
  · exact Or.inr ⟨hge, hend⟩

/-- When every slice has a byte, a copy of all bytes touches every slice. -/
theorem touched_eq_self {cs : List Chunk} (hpos : ∀ c ∈ cs, 0 < c.length) :
    touched cs (placesOf cs).length = cs := by
  induction cs with
  | nil => rfl
  | cons c cs ih =>
    obtain ⟨hc, hcs⟩ := List.forall_mem_cons.mp hpos
    have hlen : (placesOf (c :: cs)).length = c.length + (placesOf cs).length := by
      rw [placesOf_cons, List.length_append, Chunk.length_places]
    rw [touched, hlen, Nat.add_sub_cancel_left, ih hcs]
    by_cases hle : c.length + (placesOf cs).length ≤ c.length
    · obtain rfl : cs = [] := by
        cases cs with
        | nil => rfl
        | cons c' cs =>
          have hpos' := hcs c' List.mem_cons_self
          rw [placesOf_cons, List.length_append, Chunk.length_places] at hle
          omega
      rw [if_pos hle, if_neg (by omega)]
    · rw [if_neg hle, if_neg (by omega)]
      rfl

namespace MemorySet

variable {ms : MemorySet} {m m' : Machine}

/-- The addresses in the areas of a space. -/
def areaAddrs (ms : MemorySet) : Set ℕ :=
  {a | CanonicalAddr a ∧ ∃ area ∈ ms.areas, pageOf a ∈ area.vpns}

section Spaces

variable [KernelLayout]

/-- Where an address of an area is translated to. -/
theorem Wf.translate_of_areaAddrs (h : ms.Wf) (hsep : m.Separate ms.frames) {a : ℕ}
    (ha : a ∈ ms.areaAddrs) : ∃ area ∈ ms.areas, ∃ f, (pageOf a, f) ∈ area.dataFrames ∧
      ms.pageTable.place a = (f, a % pageSize) := by
  obtain ⟨-, area, harea, hv⟩ := ha
  obtain ⟨f, hf, hl⟩ := h.lookup_of_mem harea hv
  refine ⟨area, harea, f, hf, ?_⟩
  rw [PageTable.place, PageTable.translate_of_lookup hl, Option.map_some, Option.getD_some,
    PageTableEntry.ppn_new (hsep.lt (mem_frames harea hf))
      (PTEFlags.or_V_lt (h.framed area harea).mapPerm_lt)]

/-- **Different addresses of a process are different places.** -/
theorem Wf.injOn_place (h : ms.Wf) (hsep : m.Separate ms.frames) :
    Set.InjOn ms.pageTable.place ms.areaAddrs := by
  intro a ha b hb heq
  obtain ⟨area, harea, f, hf, hpa⟩ := h.translate_of_areaAddrs hsep ha
  obtain ⟨area', harea', f', hf', hpb⟩ := h.translate_of_areaAddrs hsep hb
  rw [hpa, hpb] at heq
  obtain ⟨rfl, hoff⟩ := Prod.mk.inj heq
  exact ha.1.eq_of_pageOf hb.1 (vpn_eq_of_frame hsep harea harea' hf hf') hoff

/-- The kernel does not write to the trampoline page. -/
theorem not_kernelWrites_trampoline :
    KernelLayout.kernelWrites (KernelLayout.strampoline / pageSize) = false := by
  obtain ⟨hge, hlt⟩ := KernelLayout.strampoline_mem
  obtain ⟨hle, -, -⟩ := KernelLayout.ordered
  obtain ⟨haligned, -, herodata, -, -⟩ := KernelLayout.aligned
  refine Bool.eq_false_iff.mpr fun h ↦ ?_
  simp only [KernelLayout.kernelWrites, KernelLayout.isMmio, mmio, List.any_cons, List.any_nil,
    Bool.or_eq_true, Bool.and_eq_true, decide_eq_true_eq, Bool.or_false] at h
  simp only [pageSize, baseAddress] at h hge
  omega

/-- A mapped address that the kernel can write to is one of an area. -/
theorem Wf.mem_areaAddrs (h : ms.Wf) {a : ℕ} (hcan : CanonicalAddr a)
    (hmapped : ms.pageTable.lookup (pageOf a) ≠ none)
    (hwrites : KernelLayout.kernelWrites (ms.pageTable.place a).1 = true) : a ∈ ms.areaAddrs := by
  obtain ⟨pte, hpte⟩ := Option.ne_none_iff_exists'.mp hmapped
  rcases List.mem_cons.mp ((h.lookup_iff _ (pageOf_lt a) pte).mp hpte) with htramp | hmem
  · obtain ⟨-, rfl⟩ := Prod.mk.inj htramp
    have hlt : KernelLayout.strampoline / pageSize < 2 ^ 44 := by
      have hbound := KernelLayout.strampoline_mem.2
      obtain ⟨h₁, h₂, h₃, h₄⟩ := KernelLayout.ordered
      simp only [pageSize, memoryEnd] at *
      omega
    rw [PageTable.place, PageTable.translate_of_lookup hpte, Option.map_some, Option.getD_some,
      PageTableEntry.ppn_new hlt (by decide), not_kernelWrites_trampoline] at hwrites
    exact absurd hwrites Bool.false_ne_true
  · obtain ⟨area, harea, hentry⟩ := List.mem_flatMap.mp hmem
    exact ⟨hcan, area, harea, (h.framed area harea).mem_vpns_of_entry hentry⟩

/-- **A write to a mapped range** that returns went to memory of the process. -/
theorem Wf.write_mapped (h : ms.Wf) {via : Via} {va : ℕ} {data : List UInt8} {u : Unit}
    (hmapped : MappedRange ms.pageTable va data.length) (hend : va + data.length < 2 ^ 64)
    (hwrite : (writeUserBytes via ms.pageTable va data).Returns m u m') :
    (∀ a, va ≤ a → a < va + data.length → a ∈ ms.areaAddrs) ∧
      ∃ log, m' = m.written (ms.pageTable.userPlaces va data.length) data log := by
  obtain ⟨cs, hcs, hwrites, rfl⟩ := returns_writeUserBytes.mp hwrite
  by_cases hlen : data.length = 0
  · obtain rfl := List.length_eq_zero_iff.mp hlen
    refine ⟨fun a ha ha' ↦ absurd ha' (not_lt.mpr ha), accessesOf via true cs 0, ?_⟩
    rw [Machine.written, Machine.written, scatter_nil_right, scatter_nil_right]
    rfl
  have hslices := ms.pageTable.slices_translatedByteBuffer
    (hmapped.canonical (Nat.pos_of_ne_zero hlen) hend)
  rw [hcs] at hslices
  obtain ⟨hplaces, hchunks⟩ := hslices
  have htouched : touched cs data.length = cs := by
    have hall := touched_eq_self fun c hc ↦ (hchunks c hc).1
    rwa [hplaces, PageTable.length_userPlaces] at hall
  rw [htouched] at hwrites
  refine ⟨fun a ha ha' ↦ ?_, _, by rw [hplaces]⟩
  obtain ⟨hcan, hlookup⟩ := hmapped a ha ha'
  refine h.mem_areaAddrs hcan hlookup ?_
  have hmem : ms.pageTable.place a ∈ placesOf cs := by
    rw [hplaces]
    exact List.mem_map_of_mem (List.mem_range'_1.mpr ⟨ha, ha'⟩)
  obtain ⟨c, hc, hin⟩ := List.mem_flatMap.mp hmem
  obtain ⟨o, -, ho⟩ := List.mem_map.mp hin
  rw [← ho]
  exact hwrites c hc

end Spaces

end MemorySet

/-- **The bytes after a write**, where different addresses are different places. -/
theorem byteAt_written_place {pt : PageTable} {S : Set ℕ} (hinj : Set.InjOn pt.place S) {va : ℕ}
    {data : List UInt8} (hrange : ∀ a, va ≤ a → a < va + data.length → a ∈ S) (m : Machine)
    (log : List Access) {x : ℕ} (hx : x ∈ S) :
    (m.written (pt.userPlaces va data.length) data log).byteAt (pt.place x) =
      if x < va then m.byteAt (pt.place x) else data[x - va]?.getD (m.byteAt (pt.place x)) := by
  rw [Machine.byteAt_written, PageTable.userPlaces, scatter_map_apply (g := pt.place), scatter_range']
  · rfl
  · intro a ha heq
    have ha' := List.mem_range'_1.mp ha
    exact hinj (hrange a ha'.1 ha'.2) hx heq

/-! ## Reading ranges back -/

/-- The bytes of a range, as the process sees them. -/
def userBytes (m : Machine) (pt : PageTable) (ptr len : ℕ) : List UInt8 :=
  (pt.userPlaces ptr len).map m.byteAt

section ReadBack

variable {pt : PageTable} {S : Set ℕ} {va : ℕ} {data : List UInt8} {m : Machine} {log : List Access}

/-- A range that was written holds what was written. -/
theorem userBytes_written_self (hinj : Set.InjOn pt.place S)
    (hrange : ∀ a, va ≤ a → a < va + data.length → a ∈ S) :
    userBytes (m.written (pt.userPlaces va data.length) data log) pt va data.length = data := by
  refine List.ext_getElem (by simp [userBytes]) fun i hi hi' ↦ ?_
  have hmem : va + i ∈ S := hrange _ (Nat.le_add_right va i) (Nat.add_lt_add_left hi' va)
  simp only [userBytes, PageTable.userPlaces, List.map_map, List.getElem_map, List.getElem_range',
    Nat.one_mul, Function.comp_apply]
  have hbyte := byteAt_written_place hinj hrange m log hmem
  rw [if_neg (by omega), Nat.add_sub_cancel_left, List.getElem?_eq_getElem hi',
    Option.getD_some] at hbyte
  exact hbyte

/-- A range apart from the one that was written keeps its bytes. -/
theorem userBytes_written_of_apart (hinj : Set.InjOn pt.place S)
    (hrange : ∀ a, va ≤ a → a < va + data.length → a ∈ S) {ptr len : ℕ}
    (hread : ∀ a, ptr ≤ a → a < ptr + len → a ∈ S)
    (hapart : ptr + len ≤ va ∨ va + data.length ≤ ptr) :
    userBytes (m.written (pt.userPlaces va data.length) data log) pt ptr len =
      userBytes m pt ptr len := by
  simp only [userBytes, PageTable.userPlaces, List.map_map]
  refine List.map_congr_left fun a ha ↦ ?_
  have ha' := List.mem_range'_1.mp ha
  have hbyte := byteAt_written_place hinj hrange m log (hread a ha'.1 ha'.2)
  simp only [Function.comp_apply]
  rw [PageTable.userPlaces] at hbyte
  rw [hbyte]
  split
  · rfl
  · rw [List.getElem?_eq_none (by omega), Option.getD_none]

end ReadBack

end AgentOS
