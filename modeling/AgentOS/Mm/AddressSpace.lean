import AgentOS.Mm.MemorySet
import AgentOS.Mm.UserMemory

/-!
# What an address space maps

The operations on address spaces, seen from outside: which frames they take and give back, and which
pages are mapped afterwards. A user space is well formed when its page table maps exactly the pages
of its areas, each to the frame the area holds for it, and the trampoline.
-/

namespace AgentOS

/-! ## Frames

No operation loses a frame or makes one up. -/

namespace MapArea

theorem new_spec {startVa endVa : ℕ} {mapType : MapType} {perm : ℕ} {area : MapArea}
    {m m' : Machine} (h : (new startVa endVa mapType perm).Returns m area m') :
    (area.frames = [] ∧ area = ⟨VirtAddr.floor startVa, VirtAddr.ceil endVa, [], mapType, perm⟩) ∧
      m' = m := by
  obtain ⟨_, m₁, hassert, hpure⟩ := Exec.returns_bind.mp h
  obtain ⟨-, rfl⟩ := Exec.returns_assert.mp hassert
  obtain ⟨rfl, rfl⟩ := Exec.returns_pure.mp hpure
  exact ⟨⟨rfl, rfl⟩, rfl⟩

theorem mapOne_conserves {area area' : MapArea} {pt pt' : PageTable} {vpn : ℕ} {m m' : Machine}
    (h : (area.mapOne pt vpn).Returns m (area', pt') m') :
    m.Conserves (area.frames ++ pt.frames) m' (area'.frames ++ pt'.frames) := by
  unfold mapOne at h
  split at h
  · obtain ⟨pt₁, m₁, hmap, hpure⟩ := Exec.returns_bind.mp h
    obtain ⟨heq, rfl⟩ := Exec.returns_pure.mp hpure
    obtain ⟨rfl, rfl⟩ := Prod.mk.inj heq
    have hc := (PageTable.map_takes hmap).2
    intro f
    have := hc f
    simp only [List.count_append]
    omega
  · obtain ⟨frame, m₁, halloc, hrest⟩ := Exec.returns_bind.mp h
    obtain ⟨pt₁, m₂, hmap, hpure⟩ := Exec.returns_bind.mp hrest
    obtain ⟨heq, rfl⟩ := Exec.returns_pure.mp hpure
    obtain ⟨rfl, rfl⟩ := Prod.mk.inj heq
    have hf := Machine.conserves_frameAlloc halloc area.frames
    have hc := (PageTable.map_takes hmap).2
    intro f
    have h₁ := hf f
    have h₂ := hc f
    simp only [frames, List.map_append, List.map_cons, List.map_nil, List.count_append] at h₁ ⊢
    omega

theorem mapPages_conserves {vpns : List ℕ} {area area' : MapArea} {pt pt' : PageTable}
    {m m' : Machine} (h : (mapPages vpns area pt).Returns m (area', pt') m') :
    m.Conserves (area.frames ++ pt.frames) m' (area'.frames ++ pt'.frames) := by
  induction vpns generalizing area pt m with
  | nil =>
    obtain ⟨heq, rfl⟩ := Exec.returns_pure.mp h
    obtain ⟨rfl, rfl⟩ := Prod.mk.inj heq
    exact Machine.Conserves.refl _ _
  | cons vpn vpns ih =>
    obtain ⟨⟨area₁, pt₁⟩, m₁, h₁, h₂⟩ := Exec.returns_bind.mp h
    exact (mapOne_conserves h₁).trans (ih h₂)

/-- A frame of an area leaves it for the allocator. -/
theorem dropFrame_conserves {area area' : MapArea} {vpn : ℕ} {m m' : Machine}
    (h : (area.dropFrame vpn).Returns m area' m') :
    m.Conserves area.frames m' area'.frames := by
  unfold dropFrame at h
  split at h
  swap
  · obtain ⟨rfl, rfl⟩ := Exec.returns_pure.mp h
    exact Machine.Conserves.refl _ _
  split at h
  · obtain ⟨rfl, rfl⟩ := Exec.returns_pure.mp h
    exact Machine.Conserves.refl _ _
  · rename_i entry hfind
    obtain ⟨_, m₁, hdealloc, hpure⟩ := Exec.returns_bind.mp h
    obtain ⟨rfl, rfl⟩ := Exec.returns_pure.mp hpure
    have hfree := (Machine.free_of_frameDealloc hdealloc).1
    have hperm := (List.perm_cons_erase (List.mem_of_find?_eq_some hfind)).map Prod.snd
    intro f
    have hcount := hperm.count_eq f
    simp only [List.map_cons, List.count_cons, beq_iff_eq] at hcount
    have := hfree f
    simp only [frames]
    omega

theorem unmapOne_conserves {area area' : MapArea} {pt pt' : PageTable} {vpn : ℕ} {m m' : Machine}
    (h : (area.unmapOne pt vpn).Returns m (area', pt') m') :
    m.Conserves (area.frames ++ pt.frames) m' (area'.frames ++ pt'.frames) := by
  obtain ⟨area₁, m₁, h₁, hrest⟩ := Exec.returns_bind.mp h
  obtain ⟨pt₁, m₂, hunmap, hpure⟩ := Exec.returns_bind.mp hrest
  obtain ⟨heq, rfl⟩ := Exec.returns_pure.mp hpure
  obtain ⟨rfl, rfl⟩ := Prod.mk.inj heq
  obtain ⟨hframes, rfl⟩ := PageTable.unmap_frames hunmap
  rw [hframes]
  exact (dropFrame_conserves h₁).append _

theorem unmapPages_conserves {vpns : List ℕ} {area area' : MapArea} {pt pt' : PageTable}
    {m m' : Machine} (h : (unmapPages vpns area pt).Returns m (area', pt') m') :
    m.Conserves (area.frames ++ pt.frames) m' (area'.frames ++ pt'.frames) := by
  induction vpns generalizing area pt m with
  | nil =>
    obtain ⟨heq, rfl⟩ := Exec.returns_pure.mp h
    obtain ⟨rfl, rfl⟩ := Prod.mk.inj heq
    exact Machine.Conserves.refl _ _
  | cons vpn vpns ih =>
    obtain ⟨⟨area₁, pt₁⟩, m₁, h₁, h₂⟩ := Exec.returns_bind.mp h
    exact (unmapOne_conserves h₁).trans (ih h₂)

section

variable [KernelLayout]

theorem fillPage_frameAllocator {ppn : ℕ} {data : List UInt8} {m m' : Machine} {u : Unit}
    (h : (fillPage ppn data).Returns m u m') : m'.frameAllocator = m.frameAllocator := by
  unfold fillPage at h
  split at h
  · obtain ⟨-, rfl⟩ := Exec.returns_pure.mp h
    rfl
  · simp only [Exec.returns_bind, Exec.returns_assert, Exec.returns_modify] at h
    obtain ⟨_, _, ⟨-, rfl⟩, rfl⟩ := h
    rfl

theorem copyPages_frameAllocator {pt : PageTable} {turns vpn : ℕ} {data : List UInt8}
    {m m' : Machine} {u : Unit} (h : (copyPages pt turns vpn data).Returns m u m') :
    m'.frameAllocator = m.frameAllocator := by
  induction turns generalizing vpn data m with
  | zero =>
    obtain ⟨-, rfl⟩ := Exec.returns_pure.mp h
    rfl
  | succ turns ih =>
    obtain ⟨pte, m₁, hpte, hrest⟩ := Exec.returns_bind.mp h
    obtain ⟨-, rfl⟩ := Exec.returns_unwrap.mp hpte
    obtain ⟨_, m₂, hfill, hrest⟩ := Exec.returns_bind.mp hrest
    rw [← fillPage_frameAllocator hfill]
    split at hrest
    · obtain ⟨-, rfl⟩ := Exec.returns_pure.mp hrest
      rfl
    · exact ih hrest

theorem copyPage_frameAllocator {src dst : ℕ} {m m' : Machine} {u : Unit}
    (h : (copyPage src dst).Returns m u m') : m'.frameAllocator = m.frameAllocator := by
  simp only [copyPage, Exec.returns_bind, Exec.returns_assert, Exec.returns_modify] at h
  obtain ⟨_, _, ⟨-, rfl⟩, _, _, ⟨-, rfl⟩, rfl⟩ := h
  rfl

end

end MapArea

namespace MemorySet

/-- The frames an address space holds: its page-table nodes and its data pages. -/
def frames (ms : MemorySet) : List ℕ := ms.pageTable.frames ++ ms.areas.flatMap MapArea.frames

theorem newBare_spec {ms : MemorySet} {m m' : Machine} (h : newBare.Returns m ms m') :
    PageTable.new.Returns m ms.pageTable m' ∧ ms.areas = [] := by
  obtain ⟨pt, m₁, hpt, hpure⟩ := Exec.returns_bind.mp h
  obtain ⟨rfl, rfl⟩ := Exec.returns_pure.mp hpure
  exact ⟨hpt, rfl⟩

theorem newBare_conserves {ms : MemorySet} {m m' : Machine} (h : newBare.Returns m ms m') :
    m.Conserves [] m' ms.frames := by
  obtain ⟨hpt, hareas⟩ := newBare_spec h
  obtain ⟨-, -, hframes, halloc⟩ := PageTable.wf_new hpt
  rw [frames, hframes, hareas]
  exact Machine.conserves_frameAlloc halloc []

theorem recycleDataPages_conserves {ms ms' : MemorySet} {m m' : Machine}
    (h : ms.recycleDataPages.Returns m ms' m') :
    m.Conserves ms.frames m' ms'.frames ∧ ms' = { ms with areas := [] } := by
  obtain ⟨_, m₁, hdealloc, hpure⟩ := Exec.returns_bind.mp h
  obtain ⟨rfl, rfl⟩ := Exec.returns_pure.mp hpure
  refine ⟨fun f ↦ ?_, rfl⟩
  have := Machine.conserves_frameDeallocAll hdealloc ms.pageTable.frames f
  simp only [frames, List.count_append, List.flatMap_nil, List.count_nil] at this ⊢
  omega

theorem drop_conserves {ms : MemorySet} {m m' : Machine} {u : Unit}
    (h : ms.drop.Returns m u m') : m.Conserves ms.frames m' [] := by
  obtain ⟨_, m₁, h₁, h₂⟩ := Exec.returns_bind.mp h
  intro f
  have h₁ := Machine.conserves_frameDeallocAll h₁ (ms.areas.flatMap MapArea.frames) f
  have h₂ := Machine.conserves_frameDeallocAll h₂ [] f
  simp only [frames, List.count_append, List.count_nil] at h₁ h₂ ⊢
  omega

theorem removeAreaWithStartVpn_conserves {ms ms' : MemorySet} {vpn : ℕ} {m m' : Machine}
    (h : (ms.removeAreaWithStartVpn vpn).Returns m ms' m') :
    m.Conserves ms.frames m' ms'.frames := by
  unfold removeAreaWithStartVpn at h
  split at h
  · obtain ⟨rfl, rfl⟩ := Exec.returns_pure.mp h
    exact Machine.Conserves.refl _ _
  · rename_i area hfind
    obtain ⟨⟨area', pt⟩, m₁, hunmap, hrest⟩ := Exec.returns_bind.mp h
    obtain ⟨_, m₂, hdealloc, hpure⟩ := Exec.returns_bind.mp hrest
    obtain ⟨rfl, rfl⟩ := Exec.returns_pure.mp hpure
    have hc := MapArea.unmapPages_conserves hunmap
    have hd := Machine.conserves_frameDeallocAll hdealloc []
    have hperm := (List.perm_cons_erase (List.mem_of_find?_eq_some hfind)).flatMap_right
      MapArea.frames
    intro f
    have h₁ := hc f
    have h₂ := hd f
    have h₃ := hperm.count_eq f
    simp only [frames, List.count_append, List.flatMap_cons, List.count_nil] at h₁ h₂ h₃ ⊢
    omega

section

variable [KernelLayout]

theorem push_conserves {ms ms' : MemorySet} {area : MapArea} {data : Option (List UInt8)}
    {m m' : Machine} (hnew : area.frames = []) (h : (ms.push area data).Returns m ms' m') :
    m.Conserves ms.frames m' ms'.frames := by
  obtain ⟨⟨area', pt⟩, m₁, hmap, hrest⟩ := Exec.returns_bind.mp h
  dsimp only at hrest
  obtain ⟨_, m₂, hcopy, hpure⟩ := Exec.returns_bind.mp hrest
  obtain ⟨rfl, rfl⟩ := Exec.returns_pure.mp hpure
  have hfa : m'.frameAllocator = m₁.frameAllocator := by
    cases data with
    | none =>
      obtain ⟨-, rfl⟩ := Exec.returns_pure.mp hcopy
      rfl
    | some data =>
      obtain ⟨_, m₃, hassert, hpages⟩ := Exec.returns_bind.mp hcopy
      obtain ⟨-, rfl⟩ := Exec.returns_assert.mp hassert
      exact MapArea.copyPages_frameAllocator hpages
  have hc := MapArea.mapPages_conserves hmap
  intro f
  have := hc f
  simp only [frames, hnew, Machine.free, hfa, List.count_append, List.flatMap_append,
    List.flatMap_cons, List.flatMap_nil, List.count_nil] at this ⊢
  omega

theorem insertFramedArea_conserves {ms ms' : MemorySet} {startVa endVa perm : ℕ} {m m' : Machine}
    (h : (ms.insertFramedArea startVa endVa perm).Returns m ms' m') :
    m.Conserves ms.frames m' ms'.frames := by
  obtain ⟨area, m₁, hnew, hpush⟩ := Exec.returns_bind.mp h
  obtain ⟨hframes, rfl⟩ := MapArea.new_spec hnew
  exact push_conserves hframes.1 hpush

theorem mapTrampoline_conserves {ms ms' : MemorySet} {m m' : Machine}
    (h : ms.mapTrampoline.Returns m ms' m') : m.Conserves ms.frames m' ms'.frames := by
  obtain ⟨pt, m₁, hmap, hpure⟩ := Exec.returns_bind.mp h
  obtain ⟨rfl, rfl⟩ := Exec.returns_pure.mp hpure
  exact (PageTable.map_takes hmap).2.append _

theorem mapSegments_conserves {phs : List LoadSegment} {ms ms' : MemorySet} {e e' : ℕ}
    {m m' : Machine} (h : (mapSegments phs (ms, e)).Returns m (ms', e') m') :
    m.Conserves ms.frames m' ms'.frames := by
  induction phs generalizing ms e m with
  | nil =>
    obtain ⟨heq, rfl⟩ := Exec.returns_pure.mp h
    obtain ⟨rfl, rfl⟩ := Prod.mk.inj heq
    exact Machine.Conserves.refl _ _
  | cons ph phs ih =>
    obtain ⟨area, m₁, hnew, h₁⟩ := Exec.returns_bind.mp h
    obtain ⟨data, m₂, hdata, h₂⟩ := Exec.returns_bind.mp h₁
    obtain ⟨ms₁, m₃, hpush, h₃⟩ := Exec.returns_bind.mp h₂
    obtain ⟨hframes, rfl⟩ := MapArea.new_spec hnew
    obtain ⟨-, rfl⟩ := Exec.returns_unwrap.mp hdata
    exact (push_conserves hframes.1 hpush).trans (ih h₃)

theorem fromElf_conserves {elf : Elf} {ms : MemorySet} {sp entry : ℕ} {m m' : Machine}
    (h : (fromElf elf).Returns m (ms, sp, entry) m') : m.Conserves [] m' ms.frames := by
  obtain ⟨ms₁, m₁, hnew, h₁⟩ := Exec.returns_bind.mp h
  obtain ⟨ms₂, m₂, htramp, h₂⟩ := Exec.returns_bind.mp h₁
  obtain ⟨⟨ms₃, e⟩, m₃, hsegs, h₃⟩ := Exec.returns_bind.mp h₂
  dsimp only at h₃
  obtain ⟨stack, m₄, hstack, h₄⟩ := Exec.returns_bind.mp h₃
  obtain ⟨ms₅, m₅, hpush, h₅⟩ := Exec.returns_bind.mp h₄
  obtain ⟨trapCx, m₆, htrapCx, h₆⟩ := Exec.returns_bind.mp h₅
  obtain ⟨ms₇, m₇, hpush', h₇⟩ := Exec.returns_bind.mp h₆
  obtain ⟨heq, rfl⟩ := Exec.returns_pure.mp h₇
  obtain ⟨rfl, -⟩ := Prod.mk.inj heq
  obtain ⟨hframes, rfl⟩ := MapArea.new_spec hstack
  obtain ⟨hframes', rfl⟩ := MapArea.new_spec htrapCx
  exact (newBare_conserves hnew).trans <| (mapTrampoline_conserves htramp).trans <|
    (mapSegments_conserves hsegs).trans <| (push_conserves hframes.1 hpush).trans
      (push_conserves hframes'.1 hpush')

theorem copyPagesFrom_frameAllocator {userSpace ms : MemorySet} {vpns : List ℕ} {m m' : Machine}
    {u : Unit} (h : (copyPagesFrom userSpace ms vpns).Returns m u m') :
    m'.frameAllocator = m.frameAllocator := by
  induction vpns generalizing m with
  | nil =>
    obtain ⟨-, rfl⟩ := Exec.returns_pure.mp h
    rfl
  | cons vpn vpns ih =>
    obtain ⟨src, m₁, hsrc, h₁⟩ := Exec.returns_bind.mp h
    obtain ⟨dst, m₂, hdst, h₂⟩ := Exec.returns_bind.mp h₁
    obtain ⟨_, m₃, hcopy, h₃⟩ := Exec.returns_bind.mp h₂
    obtain ⟨-, rfl⟩ := Exec.returns_unwrap.mp hsrc
    obtain ⟨-, rfl⟩ := Exec.returns_unwrap.mp hdst
    rw [ih h₃, MapArea.copyPage_frameAllocator hcopy]

theorem copyAreas_conserves {userSpace : MemorySet} {areas : List MapArea} {ms ms' : MemorySet}
    {m m' : Machine} (h : (copyAreas userSpace areas ms).Returns m ms' m') :
    m.Conserves ms.frames m' ms'.frames := by
  induction areas generalizing ms m with
  | nil =>
    obtain ⟨rfl, rfl⟩ := Exec.returns_pure.mp h
    exact Machine.Conserves.refl _ _
  | cons area areas ih =>
    obtain ⟨ms₁, m₁, hpush, h₁⟩ := Exec.returns_bind.mp h
    obtain ⟨_, m₂, hcopy, h₂⟩ := Exec.returns_bind.mp h₁
    refine (push_conserves rfl hpush).trans fun f ↦ ?_
    have := ih h₂ f
    rwa [Machine.free, Machine.free, copyPagesFrom_frameAllocator hcopy] at *

theorem fromExistedUser_conserves {userSpace ms : MemorySet} {m m' : Machine}
    (h : (fromExistedUser userSpace).Returns m ms m') : m.Conserves [] m' ms.frames := by
  obtain ⟨ms₁, m₁, hnew, h⟩ := Exec.returns_bind.mp h
  obtain ⟨ms₂, m₂, htramp, h⟩ := Exec.returns_bind.mp h
  exact (newBare_conserves hnew).trans <| (mapTrampoline_conserves htramp).trans <|
    copyAreas_conserves h

end

end MemorySet

/-! ## Mapped pages -/

namespace MapArea

/-- The pages an area maps, each with its entry. -/
def entries (area : MapArea) : List (ℕ × PageTableEntry) :=
  area.dataFrames.map fun p ↦ (p.1, .new p.2 (area.mapPerm ||| PTEFlags.V))

/-- Where an area lies, and what may be done there. -/
def span (area : MapArea) : ℕ × ℕ × ℕ := (area.start, area.stop, area.mapPerm)

/-- A framed area with a frame for each of its pages. -/
structure Framed (area : MapArea) : Prop where
  mapType_eq : area.mapType = .framed
  vpns_eq : area.dataFrames.map Prod.fst = area.vpns
  stop_le : area.stop ≤ 2 ^ 27
  mapPerm_lt : area.mapPerm < 256

theorem mem_vpns {area : MapArea} {vpn : ℕ} :
    vpn ∈ area.vpns ↔ area.start ≤ vpn ∧ vpn < area.stop := by
  simp only [vpns, List.mem_range'_1]
  omega

theorem Framed.exists_entry {area : MapArea} (h : area.Framed) {vpn : ℕ} (hv : vpn ∈ area.vpns) :
    ∃ f, (vpn, f) ∈ area.dataFrames ∧
      (vpn, PageTableEntry.new f (area.mapPerm ||| PTEFlags.V)) ∈ area.entries := by
  rw [← h.vpns_eq] at hv
  obtain ⟨⟨v, f⟩, hmem, rfl⟩ := List.mem_map.mp hv
  exact ⟨f, hmem, List.mem_map.mpr ⟨(v, f), hmem, rfl⟩⟩

theorem Framed.mem_vpns_of_entry {area : MapArea} (h : area.Framed) {vpn : ℕ}
    {pte : PageTableEntry} (he : (vpn, pte) ∈ area.entries) : vpn ∈ area.vpns := by
  obtain ⟨p, hp, heq⟩ := List.mem_map.mp he
  obtain ⟨rfl, -⟩ := Prod.mk.inj heq
  rw [← h.vpns_eq]
  exact List.mem_map_of_mem hp

/-- **Mapping the pages of a framed area.** None of them was mapped; each is mapped to a frame of its
own now; the other pages are as before. -/
theorem mapPages_spec {vpns : List ℕ} {area area' : MapArea} {pt pt' : PageTable} {m m' : Machine}
    (htype : area.mapType = .framed) (hperm : area.mapPerm < 256) (hvpns : ∀ v ∈ vpns, v < 2 ^ 27)
    (hwf : pt.Wf) (hsep : m.Separate pt.frames)
    (h : (mapPages vpns area pt).Returns m (area', pt') m') :
    pt'.Wf ∧ (∀ v ∈ vpns, pt.lookup v = none) ∧ ∃ fs, fs.length = vpns.length ∧
      area' = { area with dataFrames := area.dataFrames ++ vpns.zip fs } ∧
      ∀ w < 2 ^ 27, ∀ pte, pt'.lookup w = some pte ↔ pt.lookup w = some pte ∨
        ∃ f, (w, f) ∈ vpns.zip fs ∧ pte = .new f (area.mapPerm ||| PTEFlags.V) := by
  induction vpns generalizing area pt m with
  | nil =>
    obtain ⟨heq, rfl⟩ := Exec.returns_pure.mp h
    obtain ⟨rfl, rfl⟩ := Prod.mk.inj heq
    exact ⟨hwf, by simp, [], rfl, by simp, by simp⟩
  | cons vpn vpns ih =>
    obtain ⟨⟨area₁, pt₁⟩, m₁, hone, hrest⟩ := Exec.returns_bind.mp h
    dsimp only at hrest
    obtain ⟨start, stop, dataFrames, mapType, perm⟩ := area
    obtain rfl : mapType = .framed := htype
    obtain ⟨frame, m₂, halloc, hone₁⟩ := Exec.returns_bind.mp hone
    obtain ⟨pt₂, m₃, hmap, hpure⟩ := Exec.returns_bind.mp hone₁
    obtain ⟨heq, rfl⟩ := Exec.returns_pure.mp hpure
    obtain ⟨rfl, rfl⟩ := Prod.mk.inj heq
    have hsep₂ : m₂.Separate pt.frames := by
      refine (hsep.conserves (Machine.conserves_frameAlloc halloc _)).mono fun f ↦ ?_
      rw [List.count_append]
      omega
    obtain ⟨hwf₁, hnone, hl₁⟩ :=
      PageTable.map_spec hwf hsep₂ (hvpns vpn List.mem_cons_self) hperm hmap
    obtain ⟨hwf', hnone', fs, hlen, harea, hl⟩ :=
      @ih ⟨start, stop, dataFrames ++ [(vpn, frame)], .framed, perm⟩ pt₁ m₁ rfl hperm
        (fun v hv ↦ hvpns v (List.mem_cons_of_mem _ hv)) hwf₁
        (hsep₂.conserves (PageTable.map_takes hmap).2) hrest
    refine ⟨hwf', ?_, frame :: fs, by simp [hlen], by simp [harea], fun w hw pte ↦ ?_⟩
    · intro v hv
      rcases List.mem_cons.mp hv with rfl | hv
      · exact hnone
      · have := hnone' v hv
        rw [hl₁ v (hvpns v (List.mem_cons_of_mem _ hv))] at this
        split at this
        · exact absurd this (by simp)
        · exact this
    · rw [hl w hw pte, hl₁ w hw]
      simp only [List.zip_cons_cons, List.mem_cons, Prod.mk.injEq]
      constructor
      · rintro (hold | ⟨f, hf, rfl⟩)
        · split at hold
          · rename_i hwv
            exact Or.inr ⟨frame, Or.inl ⟨hwv, rfl⟩, (Option.some.inj hold).symm⟩
          · exact Or.inl hold
        · exact Or.inr ⟨f, Or.inr hf, rfl⟩
      · rintro (hold | ⟨f, ⟨rfl, rfl⟩ | hf, rfl⟩)
        · refine Or.inl ?_
          rw [if_neg]
          · exact hold
          · rintro rfl
            rw [hnone] at hold
            exact absurd hold (by simp)
        · exact Or.inl (by rw [if_pos rfl])
        · exact Or.inr ⟨f, hf, rfl⟩

/-- Pages below one leaf can be mapped when none of them is and there are frames enough: one for each
page and one for each node missing on the way to the leaf. -/
theorem mapPages_returns {vpns : List ℕ} (area : MapArea) {pt : PageTable} {m : Machine} {i j : ℕ}
    (htype : area.mapType = .framed) (hperm : area.mapPerm < 256)
    (hvpns : ∀ v ∈ vpns, v < 2 ^ 27 ∧ (VirtPageNum.indexes v).1 = i ∧
      (VirtPageNum.indexes v).2.1 = j)
    (hnodup : vpns.Nodup) (hnone : ∀ v ∈ vpns, pt.lookup v = none) (hwf : pt.Wf)
    (hsep : m.Separate pt.frames)
    (hav : vpns.length + pt.missing i j ≤ m.frameAllocator.available) :
    ∃ r m', (mapPages vpns area pt).Returns m r m' := by
  induction vpns generalizing area pt m with
  | nil => exact ⟨(area, pt), m, Exec.returns_pure.mpr ⟨rfl, rfl⟩⟩
  | cons vpn vpns ih =>
    obtain ⟨start, stop, dataFrames, mapType, perm⟩ := area
    obtain rfl : mapType = .framed := htype
    obtain ⟨hlt, rfl, rfl⟩ := hvpns vpn List.mem_cons_self
    rw [List.length_cons] at hav
    obtain ⟨frame, m₁, halloc, hav₁⟩ := Machine.frameAlloc_returns (m := m) (by omega)
    have hsep₁ : m₁.Separate pt.frames := by
      refine (hsep.conserves (Machine.conserves_frameAlloc halloc _)).mono fun f ↦ ?_
      rw [List.count_append]
      omega
    obtain ⟨pt₁, m₂, hmap, hmissing, hav₂⟩ := PageTable.map_returns frame perm
      hwf hsep₁ (hnone vpn List.mem_cons_self) (by omega)
    obtain ⟨hwf₁, -, hl⟩ := PageTable.map_spec hwf hsep₁ hlt hperm hmap
    obtain ⟨hnot, hnodup'⟩ := List.nodup_cons.mp hnodup
    have hnone' : ∀ v ∈ vpns, pt₁.lookup v = none := fun v hv ↦ by
      have hne : v ≠ vpn := fun e ↦ hnot (e ▸ hv)
      rw [hl v (hvpns v (List.mem_cons_of_mem _ hv)).1, if_neg hne,
        hnone v (List.mem_cons_of_mem _ hv)]
    obtain ⟨r, m', hrest⟩ := ih ⟨start, stop, dataFrames ++ [(vpn, frame)], .framed, perm⟩
      rfl hperm (fun v hv ↦ hvpns v (List.mem_cons_of_mem _ hv)) hnodup' hnone' hwf₁
      (hsep₁.conserves (PageTable.map_takes hmap).2) (by omega)
    refine ⟨r, m', Exec.Returns.bind (a := (⟨start, stop, dataFrames ++ [(vpn, frame)], .framed,
      perm⟩, pt₁)) ?_ hrest⟩
    exact halloc.bind (hmap.bind (Exec.returns_pure.mpr ⟨rfl, rfl⟩))

end MapArea

/-- The span of a segment. -/
def LoadSegment.span (ph : LoadSegment) : ℕ × ℕ × ℕ :=
  (VirtAddr.floor ph.startVa, VirtAddr.ceil ph.endVa, ph.perm)

theorem LoadSegment.perm_lt (ph : LoadSegment) : ph.perm < 256 := by
  unfold LoadSegment.perm
  cases ph.read <;> cases ph.write <;> cases ph.execute <;> decide

/-- Where the last segment of a program ends. -/
def Elf.maxEndVpn (elf : Elf) : ℕ :=
  (elf.segments.getLast?.map fun ph ↦ VirtAddr.ceil ph.endVa).getD 0

/-- The span of the stack a program gets. -/
def Elf.stackSpan (elf : Elf) : ℕ × ℕ × ℕ :=
  (VirtAddr.floor (VirtAddr.ofUsize (MemorySet.userStackBottom elf.maxEndVpn)),
    VirtAddr.ceil (VirtAddr.ofUsize (MemorySet.userStackTop elf.maxEndVpn)),
    MapPermission.R ||| MapPermission.W ||| MapPermission.U)

/-- The span of the trap context. -/
def trapContextSpan : ℕ × ℕ × ℕ :=
  (MemorySet.trapContextVpn, MemorySet.trampolineVpn, MapPermission.R ||| MapPermission.W)

/-- The areas of a program's space. -/
def Elf.spans (elf : Elf) : List (ℕ × ℕ × ℕ) :=
  elf.segments.map LoadSegment.span ++ [elf.stackSpan, trapContextSpan]

namespace MemorySet

section

variable [KernelLayout]

/-- The trampoline page and its entry. -/
def trampolineEntry : ℕ × PageTableEntry :=
  (trampolineVpn, .new (KernelLayout.strampoline / pageSize)
    (PTEFlags.R ||| PTEFlags.X ||| PTEFlags.V))

/-- The mapped pages of a user space, each with its entry. -/
def entries (ms : MemorySet) : List (ℕ × PageTableEntry) :=
  trampolineEntry :: ms.areas.flatMap MapArea.entries

/-- The page table maps the trampoline and the pages of the areas, and no other page. -/
structure Wf (ms : MemorySet) : Prop where
  table : ms.pageTable.Wf
  lookup_iff : ∀ vpn < 2 ^ 27, ∀ pte,
    ms.pageTable.lookup vpn = some pte ↔ (vpn, pte) ∈ ms.entries
  framed : ∀ area ∈ ms.areas, area.Framed

omit [KernelLayout] in
/-- Where the areas lie. -/
def spans (ms : MemorySet) : List (ℕ × ℕ × ℕ) := ms.areas.map MapArea.span

/-- Is the page mapped? -/
def Mapped (ms : MemorySet) (vpn : ℕ) : Prop := ms.pageTable.lookup vpn ≠ none

/-- The mapped pages are those of the areas and the trampoline. -/
theorem Wf.mapped_iff {ms : MemorySet} (h : ms.Wf) {vpn : ℕ} (hv : vpn < 2 ^ 27) :
    ms.Mapped vpn ↔ vpn = trampolineVpn ∨ ∃ s ∈ ms.spans, s.1 ≤ vpn ∧ vpn < s.2.1 := by
  rw [Mapped, Option.ne_none_iff_exists']
  simp only [h.lookup_iff vpn hv, entries, List.mem_cons, List.mem_flatMap]
  constructor
  · rintro ⟨pte, heq | ⟨area, harea, hpte⟩⟩
    · exact Or.inl (Prod.mk.inj heq).1
    · exact Or.inr ⟨area.span, List.mem_map_of_mem harea,
        MapArea.mem_vpns.mp ((h.framed area harea).mem_vpns_of_entry hpte)⟩
  · rintro (rfl | ⟨s, hs, hlt⟩)
    · exact ⟨_, Or.inl rfl⟩
    · obtain ⟨area, harea, rfl⟩ := List.mem_map.mp hs
      obtain ⟨f, -, hf⟩ := (h.framed area harea).exists_entry (MapArea.mem_vpns.mpr hlt)
      exact ⟨_, Or.inr ⟨area, harea, hf⟩⟩

/-- A page of an area is mapped to a frame of the area with the permissions of the area. -/
theorem Wf.lookup_of_mem {ms : MemorySet} (h : ms.Wf) {area : MapArea} (harea : area ∈ ms.areas)
    {vpn : ℕ} (hv : vpn ∈ area.vpns) :
    ∃ f, (vpn, f) ∈ area.dataFrames ∧
      ms.pageTable.lookup vpn = some (.new f (area.mapPerm ||| PTEFlags.V)) := by
  have hframed := h.framed area harea
  obtain ⟨f, hf, he⟩ := hframed.exists_entry hv
  have hlt : vpn < 2 ^ 27 := (MapArea.mem_vpns.mp hv).2.trans_le hframed.stop_le
  exact ⟨f, hf, (h.lookup_iff vpn hlt _).mpr
    (List.mem_cons_of_mem _ (List.mem_flatMap.mpr ⟨area, harea, he⟩))⟩

omit [KernelLayout] in
theorem separate_pageTable {ms : MemorySet} {m : Machine} (h : m.Separate ms.frames) :
    m.Separate ms.pageTable.frames := h.mono fun f ↦ by
  rw [frames, List.count_append]
  omega

omit [KernelLayout] in
theorem mem_frames {ms : MemorySet} {area : MapArea} (harea : area ∈ ms.areas) {vpn f : ℕ}
    (hf : (vpn, f) ∈ area.dataFrames) : f ∈ ms.frames :=
  List.mem_append_right _ (List.mem_flatMap.mpr ⟨area, harea, List.mem_map_of_mem hf⟩)

/-- A page that the user may access is one of an area. -/
theorem Wf.frame_of_user {ms : MemorySet} {m : Machine} (h : ms.Wf)
    (hsep : m.Separate ms.frames) {vpn : ℕ} (hv : vpn < 2 ^ 27) {pte : PageTableEntry}
    (hpte : ms.pageTable.lookup vpn = some pte) (hu : pte.user = true) :
    pte.ppn ∈ ms.areas.flatMap MapArea.frames := by
  rcases List.mem_cons.mp ((h.lookup_iff _ hv pte).mp hpte) with htramp | hmem
  · obtain ⟨-, rfl⟩ := Prod.mk.inj htramp
    rw [PageTableEntry.user, PageTableEntry.flags_new _ (by decide)] at hu
    exact absurd hu (by decide)
  · obtain ⟨area, harea, hentry⟩ := List.mem_flatMap.mp hmem
    obtain ⟨⟨v, f⟩, hp, heq⟩ := List.mem_map.mp hentry
    obtain ⟨-, rfl⟩ := Prod.mk.inj heq
    rw [PageTableEntry.ppn_new (hsep.lt (mem_frames harea hp))
      (PTEFlags.or_V_lt (h.framed area harea).mapPerm_lt)]
    exact List.mem_flatMap.mpr ⟨area, harea, List.mem_map_of_mem hp⟩

omit [KernelLayout] in
/-- No two pages of a space share a frame. -/
theorem vpn_eq_of_frame {ms : MemorySet} {m : Machine} (hsep : m.Separate ms.frames)
    {area area' : MapArea} (harea : area ∈ ms.areas) (harea' : area' ∈ ms.areas) {v v' f : ℕ}
    (hf : (v, f) ∈ area.dataFrames) (hf' : (v', f) ∈ area'.dataFrames) : v = v' := by
  have hnodup : ((ms.areas.flatMap MapArea.dataFrames).map Prod.snd).Nodup := by
    have h := (List.nodup_append.mp hsep.nodup).2.1
    rwa [List.map_flatMap]
  have hinj := List.inj_on_of_nodup_map hnodup
    (List.mem_flatMap.mpr ⟨area, harea, hf⟩) (List.mem_flatMap.mpr ⟨area', harea', hf'⟩) rfl
  exact (Prod.mk.inj hinj).1

/-- A canonical range of addresses in the areas of a space is mapped to memory of its own. -/
theorem Wf.backed {ms : MemorySet} {m : Machine} (h : ms.Wf) (hsep : m.Separate ms.frames)
    (hram : ∀ f ∈ ms.frames, KernelLayout.InRam f) {ptr len : ℕ} (hcan : Canonical ptr len)
    (hareas : ∀ a, ptr ≤ a → a < ptr + len → ∃ area ∈ ms.areas, pageOf a ∈ area.vpns) :
    Backed ms.pageTable ptr len := by
  have key : ∀ a, ptr ≤ a → a < ptr + len → ∃ area ∈ ms.areas, ∃ f,
      (pageOf a, f) ∈ area.dataFrames ∧ ∃ pte, ms.pageTable.translate (pageOf a) = some pte ∧
        pte.ppn = f := by
    intro a ha ha'
    obtain ⟨area, harea, hv⟩ := hareas a ha ha'
    obtain ⟨f, hf, hl⟩ := h.lookup_of_mem harea hv
    exact ⟨area, harea, f, hf, _, PageTable.translate_of_lookup hl,
      PageTableEntry.ppn_new (hsep.lt (mem_frames harea hf))
        (PTEFlags.or_V_lt (h.framed area harea).mapPerm_lt)⟩
  constructor
  · intro a ha ha'
    obtain ⟨area, harea, f, hf, pte, hpte, rfl⟩ := key a ha ha'
    exact ⟨pte, hpte, hram _ (mem_frames harea hf)⟩
  · intro a b ha ha' hb hb' heq
    obtain ⟨area, harea, f, hf, pte, hpte, hppn⟩ := key a ha ha'
    obtain ⟨area', harea', f', hf', pte', hpte', hppn'⟩ := key b hb hb'
    simp only [PageTable.place, hpte, hpte', Option.map_some, Option.getD_some, hppn, hppn',
      Prod.mk.injEq] at heq
    obtain ⟨rfl, hoff⟩ := heq
    have hpage := vpn_eq_of_frame hsep harea harea' hf hf'
    simp only [pageOf, VirtAddr.floor, VirtAddr.ofUsize, pageSize] at hpage hoff
    rcases hcan with hlow | ⟨hge, hlt⟩ <;> omega

/-- Adding an area to a space, whatever it maps: the pages of the area were not mapped, and now they are. -/
theorem push_lookup {ms ms' : MemorySet} {start stop perm : ℕ} {data : Option (List UInt8)}
    {m m' : Machine} (hwf : ms.pageTable.Wf) (hsep : m.Separate ms.frames) (hstop : stop ≤ 2 ^ 27)
    (hperm : perm < 256) (h : (ms.push ⟨start, stop, [], .framed, perm⟩ data).Returns m ms' m') :
    ∃ area, ms'.areas = ms.areas ++ [area] ∧ area.span = (start, stop, perm) ∧ area.Framed ∧
      ms'.pageTable.Wf ∧ (∀ v, start ≤ v → v < stop → ¬ms.Mapped v) ∧
      ∀ w < 2 ^ 27, ∀ pte, ms'.pageTable.lookup w = some pte ↔
        ms.pageTable.lookup w = some pte ∨ (w, pte) ∈ area.entries := by
  obtain ⟨⟨area', pt⟩, m₁, hmap, hrest⟩ := Exec.returns_bind.mp h
  dsimp only at hrest
  obtain ⟨_, m₂, -, hpure⟩ := Exec.returns_bind.mp hrest
  obtain ⟨rfl, rfl⟩ := Exec.returns_pure.mp hpure
  have hvpns : ∀ v ∈ (⟨start, stop, [], .framed, perm⟩ : MapArea).vpns, v < 2 ^ 27 :=
    fun v hv ↦ (MapArea.mem_vpns.mp hv).2.trans_le hstop
  obtain ⟨hwf', hnone, fs, hlen, rfl, hl⟩ :=
    MapArea.mapPages_spec rfl hperm hvpns hwf (separate_pageTable hsep) hmap
  refine ⟨_, rfl, rfl, ⟨rfl, List.map_fst_zip hlen.ge, hstop, hperm⟩, hwf', fun v hv hv' ↦ ?_,
    fun w hw pte ↦ ?_⟩
  · rw [Mapped, not_not]
    exact hnone v (MapArea.mem_vpns.mpr ⟨hv, hv'⟩)
  · rw [hl w hw pte]
    refine or_congr Iff.rfl ⟨?_, fun hmem ↦ ?_⟩
    · rintro ⟨f, hf, rfl⟩
      exact List.mem_map.mpr ⟨(w, f), hf, rfl⟩
    · obtain ⟨⟨v, f⟩, hf, heq⟩ := List.mem_map.mp hmem
      obtain ⟨rfl, rfl⟩ := Prod.mk.inj heq
      exact ⟨f, hf, rfl⟩

/-- **Adding an area.** None of its pages was mapped. -/
theorem push_spec {ms ms' : MemorySet} {start stop perm : ℕ} {data : Option (List UInt8)}
    {m m' : Machine} (hwf : ms.Wf) (hsep : m.Separate ms.frames) (hstop : stop ≤ 2 ^ 27)
    (hperm : perm < 256)
    (h : (ms.push ⟨start, stop, [], .framed, perm⟩ data).Returns m ms' m') :
    ms'.Wf ∧ ms'.spans = ms.spans ++ [(start, stop, perm)] ∧
      ∀ v, start ≤ v → v < stop → ¬ms.Mapped v := by
  obtain ⟨area', hareas, hspan, hframed, hwf', hnone, hl⟩ :=
    push_lookup hwf.table hsep hstop hperm h
  refine ⟨⟨hwf', fun vpn hv pte ↦ ?_, fun area harea ↦ ?_⟩, ?_, hnone⟩
  · rw [hl vpn hv, hwf.lookup_iff vpn hv, entries, entries, hareas, List.flatMap_append,
      List.flatMap_singleton, ← List.cons_append, List.mem_append]
  · rw [hareas] at harea
    rcases List.mem_append.mp harea with harea | harea
    · exact hwf.framed area harea
    · obtain rfl := List.mem_singleton.mp harea
      exact hframed
  · rw [spans, spans, hareas, List.map_append, List.map_singleton, hspan]

/-- A new space maps the trampoline only. -/
theorem mapTrampoline_spec {ms ms' : MemorySet} {m m' m'' : Machine}
    (hnew : newBare.Returns m ms m') (hsep : m.Separate [])
    (h : ms.mapTrampoline.Returns m' ms' m'') : ms'.Wf ∧ ms'.spans = [] := by
  obtain ⟨hpt, hareas⟩ := newBare_spec hnew
  obtain ⟨hwf, hnone, -, -⟩ := PageTable.wf_new hpt
  have hsep' : m'.Separate ms.pageTable.frames :=
    separate_pageTable (hsep.conserves (newBare_conserves hnew))
  obtain ⟨pt, m₁, hmap, hpure⟩ := Exec.returns_bind.mp h
  obtain ⟨rfl, rfl⟩ := Exec.returns_pure.mp hpure
  obtain ⟨hwf', -, hl⟩ := PageTable.map_spec hwf hsep' (by decide) (by decide) hmap
  refine ⟨⟨hwf', fun vpn hv pte ↦ ?_, by simp [hareas]⟩, by simp [spans, hareas]⟩
  simp only [hl vpn hv, hnone, entries, hareas, List.flatMap_nil, List.mem_singleton]
  constructor
  · intro he
    split at he
    · rename_i hvpn
      rw [← Option.some.inj he, hvpn]
      rfl
    · exact absurd he (by simp)
  · intro he
    obtain ⟨rfl, rfl⟩ := Prod.mk.inj he
    rw [if_pos rfl]

/-! ## The spaces of programs -/

/-- **Inserting an area** in a user space. None of its pages was mapped. -/
theorem insertFramedArea_spec {ms ms' : MemorySet} {startVa endVa perm : ℕ} {m m' : Machine}
    (hwf : ms.Wf) (hsep : m.Separate ms.frames) (hend : VirtAddr.ceil endVa ≤ 2 ^ 27)
    (hperm : perm < 256) (h : (ms.insertFramedArea startVa endVa perm).Returns m ms' m') :
    ms'.Wf ∧ ms'.spans = ms.spans ++ [(VirtAddr.floor startVa, VirtAddr.ceil endVa, perm)] ∧
      ∀ v, VirtAddr.floor startVa ≤ v → v < VirtAddr.ceil endVa → ¬ms.Mapped v := by
  obtain ⟨area, m₁, hnew, hpush⟩ := Exec.returns_bind.mp h
  obtain ⟨⟨-, rfl⟩, rfl⟩ := MapArea.new_spec hnew
  exact push_spec hwf hsep hend hperm hpush

/-- Inserting an area below one leaf succeeds when none of its pages is mapped and there are frames
enough. -/
theorem insertFramedArea_returns {ms : MemorySet} (startVa endVa perm : ℕ) {m : Machine} {i j : ℕ}
    (hwf : ms.Wf) (hsep : m.Separate ms.frames)
    (hle : VirtAddr.floor startVa ≤ VirtAddr.ceil endVa) (hperm : perm < 256)
    (hvpns : ∀ v, VirtAddr.floor startVa ≤ v → v < VirtAddr.ceil endVa → v < 2 ^ 27 ∧
      (VirtPageNum.indexes v).1 = i ∧ (VirtPageNum.indexes v).2.1 = j ∧ ¬ms.Mapped v)
    (hav : VirtAddr.ceil endVa - VirtAddr.floor startVa + 2 ≤ m.frameAllocator.available) :
    ∃ ms' m', (ms.insertFramedArea startVa endVa perm).Returns m ms' m' := by
  have hmem : ∀ v ∈ (⟨VirtAddr.floor startVa, VirtAddr.ceil endVa, [], .framed, perm⟩ :
      MapArea).vpns, VirtAddr.floor startVa ≤ v ∧ v < VirtAddr.ceil endVa :=
    fun v hv ↦ MapArea.mem_vpns.mp hv
  have hmissing := ms.pageTable.missing_le i j
  obtain ⟨⟨area', pt⟩, m', hmap⟩ := MapArea.mapPages_returns
    ⟨VirtAddr.floor startVa, VirtAddr.ceil endVa, [], .framed, perm⟩ rfl hperm
    (fun v hv ↦ ⟨(hvpns v (hmem v hv).1 (hmem v hv).2).1,
      (hvpns v (hmem v hv).1 (hmem v hv).2).2.1, (hvpns v (hmem v hv).1 (hmem v hv).2).2.2.1⟩)
    List.nodup_range' (fun v hv ↦ not_not.mp (hvpns v (hmem v hv).1 (hmem v hv).2).2.2.2)
    hwf.table (separate_pageTable hsep) (by
      simp only [MapArea.vpns, List.length_range']
      omega)
  refine ⟨⟨pt, ms.areas ++ [area']⟩, m', ?_⟩
  refine Exec.Returns.bind (t := m)
    (a := ⟨VirtAddr.floor startVa, VirtAddr.ceil endVa, [], .framed, perm⟩) ?_ ?_
  · exact (Exec.returns_assert_of hle m).bind (Exec.returns_pure.mpr ⟨rfl, rfl⟩)
  · exact hmap.bind (Exec.Returns.bind (a := ()) (Exec.returns_pure.mpr ⟨rfl, rfl⟩)
      (Exec.returns_pure.mpr ⟨rfl, rfl⟩))

theorem mapSegments_spec {phs : List LoadSegment} {ms ms' : MemorySet} {e e' : ℕ}
    {m m' : Machine} (hwf : ms.Wf) (hsep : m.Separate ms.frames)
    (h : (mapSegments phs (ms, e)).Returns m (ms', e') m') :
    ms'.Wf ∧ ms'.spans = ms.spans ++ phs.map LoadSegment.span ∧
      e' = (phs.getLast?.map fun ph ↦ VirtAddr.ceil ph.endVa).getD e := by
  induction phs generalizing ms e m with
  | nil =>
    obtain ⟨heq, rfl⟩ := Exec.returns_pure.mp h
    obtain ⟨rfl, rfl⟩ := Prod.mk.inj heq
    exact ⟨hwf, by simp, rfl⟩
  | cons ph phs ih =>
    obtain ⟨area, m₁, hnew, h₁⟩ := Exec.returns_bind.mp h
    obtain ⟨data, m₂, hdata, h₂⟩ := Exec.returns_bind.mp h₁
    obtain ⟨ms₁, m₃, hpush, h₃⟩ := Exec.returns_bind.mp h₂
    obtain ⟨⟨-, rfl⟩, rfl⟩ := MapArea.new_spec hnew
    obtain ⟨-, rfl⟩ := Exec.returns_unwrap.mp hdata
    obtain ⟨hwf₁, hspans₁, -⟩ := push_spec hwf hsep (VirtAddr.ceil_ofUsize_le _) ph.perm_lt hpush
    obtain ⟨hwf', hspans', he'⟩ := ih hwf₁ (hsep.conserves (push_conserves rfl hpush)) h₃
    refine ⟨hwf', ?_, ?_⟩
    · rw [hspans', hspans₁, List.append_assoc]
      rfl
    · rw [he']
      cases phs with
      | nil => rfl
      | cons ph' phs => simp [List.getLast?_cons]

/-- **The space of a program** maps its segments, its stack and its trap context. -/
theorem fromElf_spec {elf : Elf} {ms : MemorySet} {sp entry : ℕ} {m m' : Machine}
    (hsep : m.Separate []) (h : (fromElf elf).Returns m (ms, sp, entry) m') :
    ms.Wf ∧ ms.spans = elf.spans := by
  obtain ⟨ms₁, m₁, hnew, h₁⟩ := Exec.returns_bind.mp h
  obtain ⟨ms₂, m₂, htramp, h₂⟩ := Exec.returns_bind.mp h₁
  obtain ⟨⟨ms₃, e⟩, m₃, hsegs, h₃⟩ := Exec.returns_bind.mp h₂
  dsimp only at h₃
  obtain ⟨stack, m₄, hstack, h₄⟩ := Exec.returns_bind.mp h₃
  obtain ⟨ms₅, m₅, hpush, h₅⟩ := Exec.returns_bind.mp h₄
  obtain ⟨trapCx, m₆, htrapCx, h₆⟩ := Exec.returns_bind.mp h₅
  obtain ⟨ms₇, m₇, hpush', h₇⟩ := Exec.returns_bind.mp h₆
  obtain ⟨heq, rfl⟩ := Exec.returns_pure.mp h₇
  obtain ⟨rfl, -⟩ := Prod.mk.inj heq
  obtain ⟨⟨-, rfl⟩, rfl⟩ := MapArea.new_spec hstack
  obtain ⟨⟨-, rfl⟩, rfl⟩ := MapArea.new_spec htrapCx
  have hsep₂ := (hsep.conserves (newBare_conserves hnew)).conserves
    (mapTrampoline_conserves htramp)
  have hsep₃ := hsep₂.conserves (mapSegments_conserves hsegs)
  have hsep₅ := hsep₃.conserves (push_conserves rfl hpush)
  obtain ⟨hwf₂, hspans₂⟩ := mapTrampoline_spec hnew hsep htramp
  obtain ⟨hwf₃, hspans₃, rfl⟩ := mapSegments_spec hwf₂ hsep₂ hsegs
  obtain ⟨hwf₅, hspans₅, -⟩ := push_spec hwf₃ hsep₃ (VirtAddr.ceil_ofUsize_le _) (by decide) hpush
  obtain ⟨hwf₇, hspans₇, -⟩ := push_spec hwf₅ hsep₅ (VirtAddr.ceil_ofUsize_le _) (by decide) hpush'
  refine ⟨hwf₇, ?_⟩
  rw [hspans₇, hspans₅, hspans₃, hspans₂, List.nil_append, List.append_assoc]
  rfl

theorem copyAreas_spec {userSpace : MemorySet} {areas : List MapArea} {ms ms' : MemorySet}
    {m m' : Machine} (hframed : ∀ area ∈ areas, area.Framed) (hwf : ms.Wf)
    (hsep : m.Separate ms.frames) (h : (copyAreas userSpace areas ms).Returns m ms' m') :
    ms'.Wf ∧ ms'.spans = ms.spans ++ areas.map MapArea.span := by
  induction areas generalizing ms m with
  | nil =>
    obtain ⟨rfl, rfl⟩ := Exec.returns_pure.mp h
    exact ⟨hwf, by simp⟩
  | cons area areas ih =>
    obtain ⟨ms₁, m₁, hpush, h₁⟩ := Exec.returns_bind.mp h
    obtain ⟨_, m₂, hcopy, h₂⟩ := Exec.returns_bind.mp h₁
    have harea := hframed area List.mem_cons_self
    have hnew : MapArea.fromAnother area = ⟨area.start, area.stop, [], .framed, area.mapPerm⟩ := by
      rw [MapArea.fromAnother, harea.mapType_eq]
    have hpush' := hpush
    rw [hnew] at hpush'
    obtain ⟨hwf₁, hspans₁, -⟩ := push_spec hwf hsep harea.stop_le harea.mapPerm_lt hpush'
    have hsep₂ : m₂.Separate ms₁.frames := fun f ↦ by
      rw [Machine.free, copyPagesFrom_frameAllocator hcopy]
      exact hsep.conserves (push_conserves rfl hpush) f
    obtain ⟨hwf', hspans'⟩ :=
      ih (fun a ha ↦ hframed a (List.mem_cons_of_mem _ ha)) hwf₁ hsep₂ h₂
    refine ⟨hwf', ?_⟩
    rw [hspans', hspans₁, List.append_assoc]
    rfl

/-- **The copy of a space** has areas where the original has them. -/
theorem fromExistedUser_spec {userSpace ms : MemorySet} {m m' : Machine} (hwf : userSpace.Wf)
    (hsep : m.Separate []) (h : (fromExistedUser userSpace).Returns m ms m') :
    ms.Wf ∧ ms.spans = userSpace.spans := by
  obtain ⟨ms₁, m₁, hnew, h₁⟩ := Exec.returns_bind.mp h
  obtain ⟨ms₂, m₂, htramp, h₂⟩ := Exec.returns_bind.mp h₁
  obtain ⟨hwf₂, hspans₂⟩ := mapTrampoline_spec hnew hsep htramp
  obtain ⟨hwf', hspans'⟩ := copyAreas_spec hwf.framed hwf₂
    ((hsep.conserves (newBare_conserves hnew)).conserves (mapTrampoline_conserves htramp)) h₂
  refine ⟨hwf', ?_⟩
  rw [hspans', hspans₂]
  rfl

end

end MemorySet

end AgentOS
