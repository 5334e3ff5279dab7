import AgentOS.Mm.PageMap
import AgentOS.Mm.SpaceCopy

/-!
# The kernel address space

The kernel maps its image, the memory behind the image and the registers of the devices at their own
addresses. All of that lies in the lower half of the address space. In the upper half there are the
trampoline and the areas that are entered later, and these are followed here: an area is entered where
nothing is mapped, and removing it leaves the mappings of all other pages as they are.
-/

namespace AgentOS

/-! ## The end of memory -/

/-- The frame allocator ends at the same page. -/
def Machine.SameEnd (m m' : Machine) : Prop := m'.frameAllocator.end = m.frameAllocator.end

instance : Std.Refl Machine.SameEnd := ⟨fun _ ↦ rfl⟩

instance : IsTrans Machine Machine.SameEnd := ⟨fun _ _ _ h₁ h₂ ↦ h₂.trans h₁⟩

theorem Machine.keeps_frameAlloc : Exec.Keeps SameEnd frameAlloc := by
  intro m ppn m' h
  obtain ⟨fa, hfa, rfl⟩ := returns_frameAlloc.mp h
  show fa.end = _
  unfold StackFrameAllocator.alloc at hfa
  split at hfa
  · rw [← (Prod.mk.inj (Option.some.inj hfa)).2]
  · split at hfa
    · exact absurd hfa (by simp)
    · rw [← (Prod.mk.inj (Option.some.inj hfa)).2]

namespace PageTable

theorem keeps_childCreate (pt : PageTable) (node idx : ℕ) :
    Exec.Keeps Machine.SameEnd (pt.childCreate node idx) :=
  Exec.keeps_ite (Exec.keeps_pure _)
    (Exec.keeps_bind Machine.keeps_frameAlloc fun _ ↦ Exec.keeps_pure _)

theorem keeps_map (pt : PageTable) (vpn ppn flags : ℕ) :
    Exec.Keeps Machine.SameEnd (pt.map vpn ppn flags) := by
  refine Exec.keeps_bind ?_ fun _ ↦ Exec.keeps_bind (Exec.keeps_assert _) fun _ ↦ Exec.keeps_pure _
  exact Exec.keeps_bind (keeps_childCreate _ _ _) fun _ ↦
    Exec.keeps_bind (keeps_childCreate _ _ _) fun _ ↦ Exec.keeps_pure _

end PageTable

theorem MapArea.keeps_mapPages (vpns : List ℕ) (area : MapArea) (pt : PageTable) :
    Exec.Keeps Machine.SameEnd (mapPages vpns area pt) := by
  induction vpns generalizing area pt with
  | nil => exact Exec.keeps_pure _
  | cons vpn vpns ih =>
    refine Exec.keeps_bind ?_ fun _ ↦ ih _ _
    unfold mapOne
    split
    · exact Exec.keeps_bind (PageTable.keeps_map _ _ _ _) fun _ ↦ Exec.keeps_pure _
    · exact Exec.keeps_bind Machine.keeps_frameAlloc fun _ ↦
        Exec.keeps_bind (PageTable.keeps_map _ _ _ _) fun _ ↦ Exec.keeps_pure _

/-! ## The pages of an area -/

namespace MapArea

variable {area area' : MapArea} {pt pt' : PageTable} {m m' : Machine}

/-- Pages mapped at their own addresses leave the mappings of the upper half as they are. -/
theorem mapPages_identical {vpns : List ℕ} (htype : area.mapType = .identical)
    (hperm : area.mapPerm < 256) (hvpns : ∀ v ∈ vpns, v < 2 ^ 26) (hwf : pt.Wf)
    (hsep : m.Separate pt.frames) (h : (mapPages vpns area pt).Returns m (area', pt') m') :
    area' = area ∧ pt'.Wf ∧ m'.Separate pt'.frames ∧
      ∀ w, 2 ^ 26 ≤ w → w < 2 ^ 27 → pt'.lookup w = pt.lookup w := by
  induction vpns generalizing pt m with
  | nil =>
    obtain ⟨heq, rfl⟩ := Exec.returns_pure.mp h
    obtain ⟨rfl, rfl⟩ := Prod.mk.inj heq
    exact ⟨rfl, hwf, hsep, fun _ _ _ ↦ rfl⟩
  | cons vpn vpns ih =>
    obtain ⟨⟨area₁, pt₁⟩, m₁, hone, hrest⟩ := Exec.returns_bind.mp h
    obtain ⟨start, stop, dataFrames, mapType, perm⟩ := area
    obtain rfl : mapType = .identical := htype
    obtain ⟨pt₂, m₂, hmap, hpure⟩ := Exec.returns_bind.mp hone
    obtain ⟨heq, rfl⟩ := Exec.returns_pure.mp hpure
    obtain ⟨rfl, rfl⟩ := Prod.mk.inj heq
    have hlt := hvpns vpn List.mem_cons_self
    obtain ⟨hwf₁, -, hl₁⟩ := PageTable.map_spec hwf hsep (by omega) hperm hmap
    obtain ⟨harea, hwf', hsep', hl⟩ := ih (fun v hv ↦ hvpns v (List.mem_cons_of_mem _ hv)) hwf₁
      (hsep.conserves (PageTable.map_takes hmap).2) hrest
    refine ⟨harea, hwf', hsep', fun w hw hw' ↦ ?_⟩
    rw [hl w hw hw', hl₁ w hw', if_neg (by omega)]

/-- **Unmapping the pages of a framed area** gives back their frames, and leaves the mappings of all other
pages as they are. -/
theorem unmapPages_returns {vpns : List ℕ} (htype : area.mapType = .framed)
    (hfst : area.dataFrames.map Prod.fst = vpns) (hnodup : vpns.Nodup) (hlt : ∀ v ∈ vpns, v < 2 ^ 27)
    (hmapped : ∀ v ∈ vpns, pt.lookup v ≠ none) (hwf : pt.Wf) (hframes : area.frames.Nodup)
    (hused : ∀ f ∈ area.frames, m.free f = 0 ∧ f < m.frameAllocator.end) :
    ∃ pt' m', (unmapPages vpns area pt).Returns m ({ area with dataFrames := [] }, pt') m' ∧ pt'.Wf ∧
      pt'.frames = pt.frames ∧ m.SameEnd m' ∧
      ∀ w < 2 ^ 27, pt'.lookup w = if w ∈ vpns then none else pt.lookup w := by
  induction vpns generalizing area pt m with
  | nil =>
    obtain ⟨start, stop, dataFrames, mapType, perm⟩ := area
    obtain rfl : dataFrames = [] := List.map_eq_nil_iff.mp hfst
    exact ⟨pt, m, Exec.returns_pure.mpr ⟨rfl, rfl⟩, hwf, rfl, rfl, fun w _ ↦ by simp⟩
  | cons vpn vpns ih =>
    obtain ⟨start, stop, dataFrames, mapType, perm⟩ := area
    obtain rfl : mapType = .framed := htype
    obtain ⟨⟨v, f⟩, rest, rfl, rfl, hrest⟩ := List.map_eq_cons_iff.mp hfst
    obtain ⟨hnot, hnodup⟩ := List.nodup_cons.mp hnodup
    obtain ⟨hf, hframes⟩ := List.nodup_cons.mp hframes
    obtain ⟨hfree, hend⟩ := hused f List.mem_cons_self
    obtain ⟨fa, hdealloc, hfa⟩ := Machine.frameDealloc_returns hfree hend
    obtain ⟨pte, hpte⟩ := Option.ne_none_iff_exists'.mp (hmapped v List.mem_cons_self)
    obtain ⟨pt₁, hunmap⟩ := PageTable.unmap_returns hpte { m with frameAllocator := fa }
    obtain ⟨hwf₁, -, hl₁⟩ := PageTable.unmap_spec hwf (hlt v List.mem_cons_self) hunmap
    have hmapped₁ : ∀ w ∈ vpns, pt₁.lookup w ≠ none := fun w hw ↦ by
      rw [hl₁ w (hlt w (List.mem_cons_of_mem _ hw)), if_neg (by
        rintro rfl
        exact hnot hw)]
      exact hmapped w (List.mem_cons_of_mem _ hw)
    have hused₁ : ∀ g ∈ MapArea.frames ⟨start, stop, rest, .framed, perm⟩,
        Machine.free { m with frameAllocator := fa } g = 0 ∧ g < fa.end := fun g hg ↦ by
      obtain ⟨hfree', hend'⟩ := hused g (List.mem_cons_of_mem _ hg)
      have hafter := (Machine.free_of_frameDealloc hdealloc).1 g
      rw [if_neg (by
        rintro rfl
        exact hf hg)] at hafter
      exact ⟨by omega, hfa ▸ hend'⟩
    obtain ⟨pt', m', hret, hwf', hnodes, hend', hl⟩ := @ih ⟨start, stop, rest, .framed, perm⟩ pt₁
      { m with frameAllocator := fa } rfl hrest hnodup (fun w hw ↦ hlt w (List.mem_cons_of_mem _ hw)) hmapped₁
      hwf₁ hframes hused₁
    have hfind : ((v, f) :: rest).find? (·.1 = v) = some (v, f) := List.find?_cons_of_pos (by simp)
    have hdrop : (dropFrame ⟨start, stop, (v, f) :: rest, .framed, perm⟩ v).Returns m
        ⟨start, stop, rest, .framed, perm⟩ { m with frameAllocator := fa } := by
      rw [dropFrame, if_pos rfl, hfind]
      exact hdealloc.bind (Exec.returns_pure.mpr ⟨by rw [List.erase_cons_head], rfl⟩)
    refine ⟨pt', m', Exec.Returns.bind (hdrop.bind (hunmap.bind (Exec.returns_pure.mpr ⟨rfl, rfl⟩))) hret,
      hwf', hnodes.trans (PageTable.unmap_frames hunmap).1, hend'.trans hfa, fun w hw ↦ ?_⟩
    rw [hl w hw, hl₁ w hw]
    by_cases hmem : w ∈ vpns
    · rw [if_pos hmem, if_pos (List.mem_cons_of_mem _ hmem)]
    · rw [if_neg hmem]
      exact if_congr (by simp [hmem]) rfl rfl

end MapArea

namespace MemorySet

variable [KernelLayout]

/-! ## The space at boot -/

/-- Enter areas whose pages are mapped at their own addresses. Each is given by where it starts and ends,
and its permissions. -/
def pushIdentical : List (ℕ × ℕ × ℕ) → MemorySet → Exec Machine MemorySet
  | [], ms => pure ms
  | (startVa, endVa, perm) :: sections, ms => do
    let area ← MapArea.new (VirtAddr.ofUsize startVa) (VirtAddr.ofUsize endVa) .identical perm
    let ms ← ms.push area none
    pushIdentical sections ms

open KernelLayout MapPermission in
/-- The code, the read-only data, the data and the zeroed data of the image, the memory behind it, and the
registers of the devices. -/
def kernelSections : List (ℕ × ℕ × ℕ) :=
  [(baseAddress, etext, R ||| X), (etext, erodata, R), (erodata, edata, R ||| W),
    (edata, ekernel, R ||| W), (ekernel, memoryEnd, R ||| W)] ++
    mmio.map fun p ↦ (p.1, p.1 + p.2, R ||| W)

/-- The kernel address space, without kernel stacks. -/
def newKernel : Exec Machine MemorySet := do
  let ms ← newBare
  let ms ← ms.mapTrampoline
  pushIdentical kernelSections ms

theorem keeps_push_none (ms : MemorySet) (area : MapArea) :
    Exec.Keeps Machine.SameEnd (ms.push area none) :=
  Exec.keeps_bind (MapArea.keeps_mapPages _ _ _) fun _ ↦
    Exec.keeps_bind (Exec.keeps_pure _) fun _ ↦ Exec.keeps_pure _

omit [KernelLayout] in
theorem keeps_newBare : Exec.Keeps Machine.SameEnd newBare :=
  Exec.keeps_bind (Exec.keeps_bind Machine.keeps_frameAlloc fun _ ↦ Exec.keeps_pure _) fun _ ↦
    Exec.keeps_pure _

theorem keeps_newKernel : Exec.Keeps Machine.SameEnd newKernel := by
  have hpush : ∀ sections ms, Exec.Keeps Machine.SameEnd (pushIdentical sections ms) := fun sections ↦ by
    induction sections with
    | nil => exact fun ms ↦ Exec.keeps_pure _
    | cons s sections ih =>
      intro ms
      refine Exec.keeps_bind ?_ fun _ ↦ Exec.keeps_bind (keeps_push_none _ _) fun _ ↦ ih _
      exact Exec.keeps_bind (Exec.keeps_assert _) fun _ ↦ Exec.keeps_pure _
  exact Exec.keeps_bind keeps_newBare fun _ ↦
    Exec.keeps_bind (Exec.keeps_bind (PageTable.keeps_map _ _ _ _) fun _ ↦ Exec.keeps_pure _) fun _ ↦
      hpush _ _

theorem newKernel_conserves {ms : MemorySet} {m m' : Machine} (h : newKernel.Returns m ms m') :
    m.Conserves [] m' ms.frames := by
  have hpush : ∀ {sections ms ms'} {m m' : Machine}, (pushIdentical sections ms).Returns m ms' m' →
      m.Conserves ms.frames m' ms'.frames := fun {sections} ↦ by
    induction sections with
    | nil =>
      intro ms ms' m m' h
      obtain ⟨rfl, rfl⟩ := Exec.returns_pure.mp h
      exact Machine.Conserves.refl _ _
    | cons s sections ih =>
      intro ms ms' m m' h
      obtain ⟨area, m₁, hnew, hrest⟩ := Exec.returns_bind.mp h
      obtain ⟨⟨hframes, -⟩, rfl⟩ := MapArea.new_spec hnew
      obtain ⟨ms₁, m₂, hone, hrest⟩ := Exec.returns_bind.mp hrest
      exact (push_conserves hframes hone).trans (ih hrest)
  obtain ⟨ms₁, m₁, hnew, hrest⟩ := Exec.returns_bind.mp h
  obtain ⟨ms₂, m₂, htramp, hrest⟩ := Exec.returns_bind.mp hrest
  exact ((newBare_conserves hnew).trans (mapTrampoline_conserves htramp)).trans (hpush hrest)

/-! ## The upper half -/

/-- The areas of a space are some in the lower half, which are left alone, and some in the upper half. In
the upper half the trampoline and the pages of these areas are mapped, and no other page. -/
structure UpperHalf (low high : List MapArea) (ms : MemorySet) : Prop where
  table : ms.pageTable.Wf
  areas_eq : ms.areas = low ++ high
  low_lt : ∀ area ∈ low, area.start < 2 ^ 26
  le_high : ∀ area ∈ high, 2 ^ 26 ≤ area.start
  framed : ∀ area ∈ high, area.Framed
  lookup_iff : ∀ vpn, 2 ^ 26 ≤ vpn → vpn < 2 ^ 27 → ∀ pte,
    ms.pageTable.lookup vpn = some pte ↔ (vpn, pte) ∈ trampolineEntry :: high.flatMap MapArea.entries

namespace UpperHalf

variable {low high : List MapArea} {ms ms' : MemorySet} {m m' : Machine}

theorem mem_areas (h : UpperHalf low high ms) {area : MapArea} (harea : area ∈ high) :
    area ∈ ms.areas := by
  rw [h.areas_eq]
  exact List.mem_append_right _ harea

/-- The mapped pages of the upper half. -/
theorem mapped_iff (h : UpperHalf low high ms) {vpn : ℕ} (hge : 2 ^ 26 ≤ vpn) (hlt : vpn < 2 ^ 27) :
    ms.Mapped vpn ↔ vpn = trampolineVpn ∨ ∃ area ∈ high, vpn ∈ area.vpns := by
  rw [Mapped, Option.ne_none_iff_exists']
  simp only [h.lookup_iff vpn hge hlt, List.mem_cons, List.mem_flatMap]
  constructor
  · rintro ⟨pte, heq | ⟨area, harea, hpte⟩⟩
    · exact Or.inl (Prod.mk.inj heq).1
    · exact Or.inr ⟨area, harea, (h.framed area harea).mem_vpns_of_entry hpte⟩
  · rintro (rfl | ⟨area, harea, hv⟩)
    · exact ⟨_, Or.inl rfl⟩
    · obtain ⟨f, -, hf⟩ := (h.framed area harea).exists_entry hv
      exact ⟨_, Or.inr ⟨area, harea, hf⟩⟩

/-- **Entering an area** in the upper half. None of its pages was mapped. -/
theorem push {start stop perm : ℕ} (h : UpperHalf low high ms) (hsep : m.Separate ms.frames)
    (hstart : 2 ^ 26 ≤ start) (hstop : stop ≤ 2 ^ 27) (hperm : perm < 256)
    (hpush : (ms.push ⟨start, stop, [], .framed, perm⟩ none).Returns m ms' m') :
    m.SameEnd m' ∧ ∃ area, area.span = (start, stop, perm) ∧ UpperHalf low (high ++ [area]) ms' := by
  obtain ⟨area, hareas, hspan, hframed, hwf', -, hl⟩ := push_lookup h.table hsep hstop hperm hpush
  refine ⟨keeps_push_none _ _ _ _ _ hpush, area, hspan, hwf', ?_, h.low_lt, ?_, ?_, ?_⟩
  · rw [hareas, h.areas_eq, List.append_assoc]
  · intro b hb
    rcases List.mem_append.mp hb with hb | hb
    · exact h.le_high b hb
    · obtain rfl := List.mem_singleton.mp hb
      exact hstart.trans_eq (Prod.mk.inj hspan).1.symm
  · intro b hb
    rcases List.mem_append.mp hb with hb | hb
    · exact h.framed b hb
    · obtain rfl := List.mem_singleton.mp hb
      exact hframed
  · intro vpn hge hlt pte
    rw [hl vpn hlt, h.lookup_iff vpn hge hlt, List.flatMap_append, List.flatMap_singleton,
      ← List.cons_append, List.mem_append]

/-- It succeeds when none of the pages is mapped and there are frames enough. -/
theorem insertFramedArea_returns (startVa endVa perm : ℕ) (h : UpperHalf low high ms)
    (hsep : m.Separate ms.frames) (hle : VirtAddr.floor startVa ≤ VirtAddr.ceil endVa)
    (hend : VirtAddr.ceil endVa ≤ 2 ^ 27) (hperm : perm < 256)
    (hnone : ∀ v, VirtAddr.floor startVa ≤ v → v < VirtAddr.ceil endVa → ¬ms.Mapped v)
    (hroom : 3 * (VirtAddr.ceil endVa - VirtAddr.floor startVa) ≤ m.frameAllocator.available) :
    ∃ ms' m', (ms.insertFramedArea startVa endVa perm).Returns m ms' m' := by
  obtain ⟨ms', m', hpush, -⟩ := push_none_returns _ _ _ h.table hsep hend hperm hnone hroom
  exact ⟨ms', m', Exec.Returns.bind
    ((Exec.returns_assert_of hle m).bind (Exec.returns_pure.mpr ⟨rfl, rfl⟩)) hpush⟩

/-- **Removing an area** of the upper half. Its pages are mapped no longer, and the other pages as before. -/
theorem remove {area : MapArea} (h : UpperHalf low high ms) (hsep : m.Separate ms.frames)
    (hend : ∀ f ∈ ms.frames, f < m.frameAllocator.end) (harea : area ∈ high)
    (hstart : ∀ b ∈ high, b.start = area.start → b = area)
    (htramp : trampolineVpn ∉ area.vpns)
    (hapart : ∀ b ∈ high.erase area, ∀ v ∈ area.vpns, v ∉ b.vpns) :
    ∃ ms' m', (ms.removeAreaWithStartVpn area.start).Returns m ms' m' ∧ m.SameEnd m' ∧
      UpperHalf low (high.erase area) ms' ∧ (∀ f, m'.free f = m.free f + area.frames.count f) ∧
      ∀ v < 2 ^ 27, ms'.pageTable.lookup v =
        if v ∈ area.vpns then none else ms.pageTable.lookup v := by
  have hframed := h.framed area harea
  have hlow : area ∉ low := fun hmem ↦ by
    have hlt := h.low_lt area hmem
    have hge := h.le_high area harea
    omega
  have hfind : ms.areas.find? (·.start = area.start) = some area := by
    rw [h.areas_eq, List.find?_append, List.find?_eq_none.mpr, Option.none_or]
    · obtain ⟨b, hb⟩ := Option.isSome_iff_exists.mp
        (List.find?_isSome (p := (·.start = area.start)).mpr ⟨area, harea, by simp⟩)
      rw [hb, hstart b (List.mem_of_find?_eq_some hb) (by simpa using List.find?_some hb)]
    · intro b hb
      have hlt := h.low_lt b hb
      have hge := h.le_high area harea
      simp only [decide_eq_true_eq]
      omega
  have hlookup : ∀ v ∈ area.vpns, ms.pageTable.lookup v ≠ none := fun v hv ↦ by
    obtain ⟨hge, hlt⟩ := MapArea.mem_vpns.mp hv
    exact (h.mapped_iff ((h.le_high area harea).trans hge) (hlt.trans_le hframed.stop_le)).mpr
      (Or.inr ⟨area, harea, hv⟩)
  have hused : ∀ f ∈ area.frames, m.free f = 0 ∧ f < m.frameAllocator.end := fun f hf ↦ by
    obtain ⟨p, hp, rfl⟩ := List.mem_map.mp hf
    have hmem := mem_frames (h.mem_areas harea) hp
    have hcount := List.count_pos_iff.mpr hmem
    have hle := (hsep p.2).1
    exact ⟨by omega, hend p.2 hmem⟩
  have hnodup : area.frames.Nodup := by
    have hall := (List.nodup_append.mp hsep.nodup).2.1
    exact (List.nodup_flatMap.mp hall).1 area (h.mem_areas harea)
  obtain ⟨pt, m', hunmap, hwf, hnodes, hsame, hl⟩ := MapArea.unmapPages_returns hframed.mapType_eq
    hframed.vpns_eq List.nodup_range' (fun v hv ↦ (MapArea.mem_vpns.mp hv).2.trans_le hframed.stop_le)
    hlookup h.table hnodup hused
  refine ⟨⟨pt, ms.areas.erase area⟩, m', ?_, hsame, ⟨hwf, ?_, h.low_lt, ?_, ?_, ?_⟩, fun f ↦ ?_, hl⟩
  · rw [removeAreaWithStartVpn, hfind]
    exact Exec.Returns.bind hunmap (Exec.Returns.bind (a := ()) (Exec.returns_pure.mpr ⟨rfl, rfl⟩)
      (Exec.returns_pure.mpr ⟨rfl, rfl⟩))
  · show ms.areas.erase area = _
    rw [h.areas_eq, List.erase_append_right _ hlow]
  · exact fun b hb ↦ h.le_high b (List.mem_of_mem_erase hb)
  · exact fun b hb ↦ h.framed b (List.mem_of_mem_erase hb)
  · intro vpn hge hlt pte
    rw [hl vpn hlt]
    have hsplit := ((List.perm_cons_erase harea).flatMap_right MapArea.entries).mem_iff
      (a := (vpn, pte))
    rw [List.flatMap_cons, List.mem_append] at hsplit
    by_cases hv : vpn ∈ area.vpns
    · rw [if_pos hv]
      refine ⟨nofun, fun hmem ↦ ?_⟩
      rcases List.mem_cons.mp hmem with heq | hmem
      · rw [(Prod.mk.inj heq).1] at hv
        exact absurd hv htramp
      · obtain ⟨b, hb, hentry⟩ := List.mem_flatMap.mp hmem
        exact absurd ((h.framed b (List.mem_of_mem_erase hb)).mem_vpns_of_entry hentry) (hapart b hb vpn hv)
    · rw [if_neg hv, h.lookup_iff vpn hge hlt, List.mem_cons, List.mem_cons, hsplit]
      have hnot : (vpn, pte) ∉ area.entries := fun hentry ↦ hv (hframed.mem_vpns_of_entry hentry)
      tauto
  · have hc := MapArea.unmapPages_conserves hunmap f
    rw [hnodes, List.count_append, List.count_append] at hc
    have hempty : (MapArea.frames { area with dataFrames := [] }).count f = 0 := rfl
    omega

end UpperHalf

theorem kernelSections_lt : ∀ s ∈ kernelSections, s.1 < 2 ^ 38 ∧ s.2.1 < 2 ^ 38 ∧ s.2.2 < 256 := by
  have hord := KernelLayout.ordered
  have hmem := KernelLayout.strampoline_mem
  have hperm : (MapPermission.R ||| MapPermission.X < 256) ∧ MapPermission.R < 256 ∧
      (MapPermission.R ||| MapPermission.W < 256) := by decide
  simp only [baseAddress, memoryEnd] at hord hmem
  simp only [kernelSections, mmio, baseAddress, memoryEnd, List.map_cons, List.map_nil, List.cons_append,
    List.nil_append, List.forall_mem_cons, List.not_mem_nil, false_implies, implies_true, and_true]
  omega

/-- At boot nothing but the trampoline is mapped in the upper half. -/
theorem pushIdentical_upperHalf {sections : List (ℕ × ℕ × ℕ)} {low : List MapArea} {ms ms' : MemorySet}
    {m m' : Machine} (hlow : ∀ s ∈ sections, s.1 < 2 ^ 38 ∧ s.2.1 < 2 ^ 38 ∧ s.2.2 < 256)
    (h : UpperHalf low [] ms) (hsep : m.Separate ms.pageTable.frames)
    (hpush : (pushIdentical sections ms).Returns m ms' m') : ∃ low', UpperHalf low' [] ms' := by
  induction sections generalizing low ms m with
  | nil =>
    obtain ⟨rfl, -⟩ := Exec.returns_pure.mp hpush
    exact ⟨low, h⟩
  | cons s sections ih =>
    obtain ⟨startVa, endVa, perm⟩ := s
    obtain ⟨area, m₁, hnew, hrest⟩ := Exec.returns_bind.mp hpush
    obtain ⟨⟨-, rfl⟩, rfl⟩ := MapArea.new_spec hnew
    obtain ⟨ms₁, m₂, hone, hrest⟩ := Exec.returns_bind.mp hrest
    obtain ⟨⟨area', pt⟩, m₃, hmap, hdata⟩ := Exec.returns_bind.mp hone
    obtain ⟨_, m₄, hnone, hpure⟩ := Exec.returns_bind.mp hdata
    obtain ⟨-, rfl⟩ := Exec.returns_pure.mp hnone
    obtain ⟨rfl, rfl⟩ := Exec.returns_pure.mp hpure
    obtain ⟨hstart, hend, hperm⟩ := hlow _ List.mem_cons_self
    dsimp only at hstart hend hperm
    have hfloor : VirtAddr.floor (VirtAddr.ofUsize startVa) < 2 ^ 26 := by
      rw [VirtAddr.floor, VirtAddr.ofUsize, pageSize]
      omega
    have hceil : VirtAddr.ceil (VirtAddr.ofUsize endVa) ≤ 2 ^ 26 := by
      rw [VirtAddr.ceil, VirtAddr.ofUsize, pageSize]
      split <;> omega
    obtain ⟨heq, hwf, hsep', hl⟩ := MapArea.mapPages_identical rfl hperm
      (fun v hv ↦ (MapArea.mem_vpns.mp hv).2.trans_le hceil) h.table hsep hmap
    have hupper : UpperHalf (low ++ [area']) [] ⟨pt, ms.areas ++ [area']⟩ := by
      refine ⟨hwf, ?_, ?_, by simp, by simp, fun v hv hv' pte ↦ ?_⟩
      · show ms.areas ++ _ = _
        rw [h.areas_eq, List.append_nil, List.append_nil]
      · intro b hb
        rcases List.mem_append.mp hb with hb | hb
        · exact h.low_lt b hb
        · rw [List.mem_singleton.mp hb, heq]
          exact hfloor
      · rw [hl v hv hv']
        exact h.lookup_iff v hv hv' pte
    exact ih (fun s hs ↦ hlow s (List.mem_cons_of_mem _ hs)) hupper hsep' hrest

theorem mapTrampoline_upperHalf {ms ms' : MemorySet} {m m' m'' : Machine} (hnew : newBare.Returns m ms m')
    (hsep : m.Separate []) (h : ms.mapTrampoline.Returns m' ms' m'') : UpperHalf [] [] ms' := by
  obtain ⟨hwf, hspans⟩ := mapTrampoline_spec hnew hsep h
  have hareas : ms'.areas = [] := List.map_eq_nil_iff.mp hspans
  refine ⟨hwf.table, hareas, nofun, nofun, nofun, fun v _ hv pte ↦ ?_⟩
  rw [hwf.lookup_iff v hv, entries, hareas]

/-- **The kernel space at boot** maps nothing but the trampoline in the upper half. -/
theorem newKernel_upperHalf {ms : MemorySet} {m m' : Machine} (hsep : m.Separate [])
    (h : newKernel.Returns m ms m') : ∃ low, UpperHalf low [] ms := by
  obtain ⟨ms₁, m₁, hnew, hrest⟩ := Exec.returns_bind.mp h
  obtain ⟨ms₂, m₂, htramp, hpush⟩ := Exec.returns_bind.mp hrest
  exact pushIdentical_upperHalf kernelSections_lt (mapTrampoline_upperHalf hnew hsep htramp)
    (separate_pageTable ((hsep.conserves (newBare_conserves hnew)).conserves (mapTrampoline_conserves htramp))) hpush

end MemorySet

end AgentOS
