import AgentOS.Mm.AddressSpace
import AgentOS.Agent.ContextArea

/-!
# The copy of an address space

`fork` copies the address space of the parent area by area: each page gets a frame of its own, and the
bytes are copied from the parent's frame. Nothing that was in use before is written to, so the parent keeps
its bytes, and when there are frames enough the copy succeeds.
-/

namespace AgentOS

namespace MapArea

variable [KernelLayout] {area area' : MapArea} {pt pt' : PageTable} {m m' : Machine}

theorem returns_copyPage {src dst : ℕ} {u : Unit} : (copyPage src dst).Returns m u m' ↔
    KernelLayout.kernelReads src = true ∧ KernelLayout.kernelWrites dst = true ∧
      m' = m.setPage dst (m.bytes src) := by
  simp only [copyPage, Exec.returns_bind, Exec.returns_assert, Exec.returns_modify]
  constructor
  · rintro ⟨_, _, ⟨hreads, rfl⟩, _, _, ⟨hwrites, rfl⟩, rfl⟩
    exact ⟨hreads, hwrites, rfl⟩
  · rintro ⟨hreads, hwrites, rfl⟩
    exact ⟨(), m, ⟨hreads, rfl⟩, (), m, ⟨hwrites, rfl⟩, rfl⟩

omit [KernelLayout] in
/-- Mapping leaves the pages in use as they are. -/
theorem mapPages_extends {vpns : List ℕ} (htype : area.mapType = .framed)
    (h : (mapPages vpns area pt).Returns m (area', pt') m') : m.Extends m' := by
  induction vpns generalizing area pt m with
  | nil =>
    obtain ⟨-, rfl⟩ := Exec.returns_pure.mp h
    exact Machine.Extends.refl _
  | cons vpn vpns ih =>
    obtain ⟨⟨area₁, pt₁⟩, m₁, hone, hrest⟩ := Exec.returns_bind.mp h
    obtain ⟨start, stop, dataFrames, mapType, perm⟩ := area
    obtain rfl : mapType = .framed := htype
    obtain ⟨frame, m₂, halloc, hone⟩ := Exec.returns_bind.mp hone
    obtain ⟨pt₂, m₃, hmap, hpure⟩ := Exec.returns_bind.mp hone
    obtain ⟨heq, rfl⟩ := Exec.returns_pure.mp hpure
    obtain ⟨rfl, rfl⟩ := Prod.mk.inj heq
    exact (Machine.extends_of_frameAlloc halloc).trans ((PageTable.map_takes hmap).1.trans (ih rfl hrest))

omit [KernelLayout] in
theorem mapPages_span {vpns : List ℕ} (h : (mapPages vpns area pt).Returns m (area', pt') m') :
    area'.span = area.span := by
  induction vpns generalizing area pt m with
  | nil =>
    obtain ⟨heq, -⟩ := Exec.returns_pure.mp h
    rw [(Prod.mk.inj heq).1]
  | cons vpn vpns ih =>
    obtain ⟨⟨area₁, pt₁⟩, m₁, hone, hrest⟩ := Exec.returns_bind.mp h
    rw [ih hrest]
    unfold mapOne at hone
    split at hone
    · obtain ⟨pt₂, m₂, -, hpure⟩ := Exec.returns_bind.mp hone
      rw [(Prod.mk.inj (Exec.returns_pure.mp hpure).1).1]
    · obtain ⟨frame, m₂, -, hone⟩ := Exec.returns_bind.mp hone
      obtain ⟨pt₂, m₃, -, hpure⟩ := Exec.returns_bind.mp hone
      rw [(Prod.mk.inj (Exec.returns_pure.mp hpure).1).1]
      rfl

omit [KernelLayout] in
theorem vpns_of_span {start stop perm : ℕ} (h : area.span = (start, stop, perm)) :
    area.vpns = List.range' start (stop - start) := by
  obtain ⟨hstart, hrest⟩ := Prod.mk.inj h
  obtain ⟨hstop, -⟩ := Prod.mk.inj hrest
  rw [vpns, hstart, hstop]

omit [KernelLayout] in
/-- Pages can be mapped when none of them is and there are three frames for each of them: its own and two
for nodes that may be missing. -/
theorem mapPages_returns_of_room {vpns : List ℕ} (area : MapArea) {pt : PageTable} {m : Machine}
    (htype : area.mapType = .framed)
    (hperm : area.mapPerm < 256) (hvpns : ∀ v ∈ vpns, v < 2 ^ 27) (hnodup : vpns.Nodup)
    (hnone : ∀ v ∈ vpns, pt.lookup v = none) (hwf : pt.Wf) (hsep : m.Separate pt.frames)
    (hroom : 3 * vpns.length ≤ m.frameAllocator.available) :
    ∃ r m', (mapPages vpns area pt).Returns m r m' ∧
      m.frameAllocator.available ≤ m'.frameAllocator.available + 3 * vpns.length := by
  induction vpns generalizing area pt m with
  | nil => exact ⟨(area, pt), m, Exec.returns_pure.mpr ⟨rfl, rfl⟩, by simp⟩
  | cons vpn vpns ih =>
    obtain ⟨start, stop, dataFrames, mapType, perm⟩ := area
    obtain rfl : mapType = .framed := htype
    rw [List.length_cons] at hroom
    obtain ⟨frame, m₁, halloc, hav₁⟩ := Machine.frameAlloc_returns (m := m) (by omega)
    have hsep₁ : m₁.Separate pt.frames := by
      refine (hsep.conserves (Machine.conserves_frameAlloc halloc _)).mono fun f ↦ ?_
      rw [List.count_append]
      omega
    have hmissing := pt.missing_le (VirtPageNum.indexes vpn).1 (VirtPageNum.indexes vpn).2.1
    obtain ⟨pt₁, m₂, hmap, -, hav₂⟩ := PageTable.map_returns frame perm hwf hsep₁
      (hnone vpn List.mem_cons_self) (by omega)
    obtain ⟨hwf₁, -, hl⟩ := PageTable.map_spec hwf hsep₁ (hvpns vpn List.mem_cons_self) hperm hmap
    obtain ⟨hnot, hnodup'⟩ := List.nodup_cons.mp hnodup
    have hnone' : ∀ v ∈ vpns, pt₁.lookup v = none := fun v hv ↦ by
      have hne : v ≠ vpn := fun e ↦ hnot (e ▸ hv)
      rw [hl v (hvpns v (List.mem_cons_of_mem _ hv)), if_neg hne, hnone v (List.mem_cons_of_mem _ hv)]
    obtain ⟨r, m', hrest, hav'⟩ := ih ⟨start, stop, dataFrames ++ [(vpn, frame)], .framed, perm⟩
      rfl hperm (fun v hv ↦ hvpns v (List.mem_cons_of_mem _ hv)) hnodup' hnone' hwf₁
      (hsep₁.conserves (PageTable.map_takes hmap).2) (by omega)
    refine ⟨r, m', Exec.Returns.bind (halloc.bind (hmap.bind (Exec.returns_pure.mpr ⟨rfl, rfl⟩))) hrest, ?_⟩
    rw [List.length_cons]
    omega

end MapArea

namespace MemorySet

section

variable [KernelLayout] {userSpace ms ms' : MemorySet} {m m' : Machine}

/-- The frame a page is translated to. -/
def frameAt (ms : MemorySet) (vpn : ℕ) : ℕ := ((ms.translate vpn).map PageTableEntry.ppn).getD 0

omit [KernelLayout] in
theorem frameAt_of_lookup {vpn f flags : ℕ} (h : ms.pageTable.lookup vpn = some (.new f flags))
    (hf : f < 2 ^ 44) (hflags : flags < 256) : ms.frameAt vpn = f := by
  rw [frameAt, translate, PageTable.translate_of_lookup h, Option.map_some, Option.getD_some,
    PageTableEntry.ppn_new hf hflags]

/-! ## Copying pages -/

/-- Pages that are copied to frames of their own have the bytes of the original afterwards, and all other
frames keep theirs. -/
theorem copyPagesFrom_spec {vpns : List ℕ} {u : Unit} (hnodup : vpns.Nodup)
    (hinj : ∀ v ∈ vpns, ∀ w ∈ vpns, ms.frameAt v = ms.frameAt w → v = w)
    (hapart : ∀ v ∈ vpns, ∀ w ∈ vpns, userSpace.frameAt v ≠ ms.frameAt w)
    (h : (copyPagesFrom userSpace ms vpns).Returns m u m') :
    (∀ v ∈ vpns, m'.bytes (ms.frameAt v) = m.bytes (userSpace.frameAt v)) ∧
      ∀ f, (∀ v ∈ vpns, ms.frameAt v ≠ f) → m'.bytes f = m.bytes f := by
  induction vpns generalizing m with
  | nil =>
    obtain ⟨-, rfl⟩ := Exec.returns_pure.mp h
    exact ⟨by simp, fun _ _ ↦ rfl⟩
  | cons vpn vpns ih =>
    obtain ⟨src, m₁, hsrc, h₁⟩ := Exec.returns_bind.mp h
    obtain ⟨dst, m₂, hdst, h₂⟩ := Exec.returns_bind.mp h₁
    obtain ⟨_, m₃, hcopy, h₃⟩ := Exec.returns_bind.mp h₂
    obtain ⟨hsrc', rfl⟩ := Exec.returns_unwrap.mp hsrc
    obtain ⟨hdst', rfl⟩ := Exec.returns_unwrap.mp hdst
    have hs : userSpace.frameAt vpn = src.ppn := by rw [frameAt, hsrc', Option.map_some, Option.getD_some]
    have hd : ms.frameAt vpn = dst.ppn := by rw [frameAt, hdst', Option.map_some, Option.getD_some]
    obtain ⟨-, -, rfl⟩ := MapArea.returns_copyPage.mp hcopy
    obtain ⟨hnot, hnodup⟩ := List.nodup_cons.mp hnodup
    obtain ⟨hcopied, hkept⟩ := ih hnodup
      (fun v hv w hw ↦ hinj v (List.mem_cons_of_mem _ hv) w (List.mem_cons_of_mem _ hw))
      (fun v hv w hw ↦ hapart v (List.mem_cons_of_mem _ hv) w (List.mem_cons_of_mem _ hw)) h₃
    have hset : ∀ f, ms.frameAt vpn ≠ f →
        (m₂.setPage dst.ppn (m₂.bytes src.ppn)).bytes f = m₂.bytes f :=
      fun f hf ↦ if_neg fun heq ↦ hf (hd.trans heq.symm)
    refine ⟨fun v hv ↦ ?_, fun f hf ↦ ?_⟩
    · rcases List.mem_cons.mp hv with rfl | hv
      · rw [hkept _ fun w hw heq ↦ hnot (hinj w (List.mem_cons_of_mem _ hw) v List.mem_cons_self heq ▸ hw),
          hd, hs]
        exact if_pos rfl
      · rw [hcopied v hv]
        exact hset _ fun heq ↦ hapart v (List.mem_cons_of_mem _ hv) vpn List.mem_cons_self heq.symm
    · rw [hkept f fun w hw ↦ hf w (List.mem_cons_of_mem _ hw)]
      exact hset f (hf vpn List.mem_cons_self)

/-- Copying returns when both spaces translate the pages to memory. -/
theorem copyPagesFrom_returns {vpns : List ℕ}
    (h : ∀ v ∈ vpns, (userSpace.translate v).isSome ∧ (ms.translate v).isSome ∧
      KernelLayout.InRam (userSpace.frameAt v) ∧ KernelLayout.InRam (ms.frameAt v)) (m : Machine) :
    ∃ m', (copyPagesFrom userSpace ms vpns).Returns m () m' := by
  induction vpns generalizing m with
  | nil => exact ⟨m, Exec.returns_pure.mpr ⟨rfl, rfl⟩⟩
  | cons vpn vpns ih =>
    obtain ⟨hs, hd, hsram, hdram⟩ := h vpn List.mem_cons_self
    obtain ⟨src, hsrc⟩ := Option.isSome_iff_exists.mp hs
    obtain ⟨dst, hdst⟩ := Option.isSome_iff_exists.mp hd
    rw [frameAt, hsrc] at hsram
    rw [frameAt, hdst] at hdram
    obtain ⟨m', hrest⟩ := ih (fun v hv ↦ h v (List.mem_cons_of_mem _ hv))
      (m.setPage dst.ppn (m.bytes src.ppn))
    have hcopy : (MapArea.copyPage src.ppn dst.ppn).Returns m () (m.setPage dst.ppn (m.bytes src.ppn)) :=
      MapArea.returns_copyPage.mpr ⟨KernelLayout.kernelReads_of_kernelWrites
        (KernelLayout.kernelWrites_of_inRam hsram), KernelLayout.kernelWrites_of_inRam hdram, rfl⟩
    exact ⟨m', (Exec.returns_unwrap.mpr ⟨hsrc, rfl⟩).bind ((Exec.returns_unwrap.mpr ⟨hdst, rfl⟩).bind
      (hcopy.bind hrest))⟩

/-! ## Frames -/

/-- Adding an area without data takes frames for its pages and leaves the others as they are. -/
theorem push_none {start stop perm : ℕ}
    (h : (ms.push ⟨start, stop, [], .framed, perm⟩ none).Returns m ms' m') :
    m.Extends m' ∧ ∃ area, ms'.areas = ms.areas ++ [area] ∧ area.span = (start, stop, perm) := by
  obtain ⟨⟨area', pt⟩, m₁, hmap, hrest⟩ := Exec.returns_bind.mp h
  obtain ⟨_, m₂, hnone, hpure⟩ := Exec.returns_bind.mp hrest
  obtain ⟨-, rfl⟩ := Exec.returns_pure.mp hnone
  obtain ⟨rfl, rfl⟩ := Exec.returns_pure.mp hpure
  exact ⟨MapArea.mapPages_extends rfl hmap, area', rfl, MapArea.mapPages_span hmap⟩

/-- And it succeeds when none of the pages is mapped and there are three frames for each of them. -/
theorem push_none_returns (start stop perm : ℕ) (hwf : ms.pageTable.Wf) (hsep : m.Separate ms.frames)
    (hstop : stop ≤ 2 ^ 27) (hperm : perm < 256)
    (hnone : ∀ v, start ≤ v → v < stop → ¬ms.Mapped v)
    (hroom : 3 * (stop - start) ≤ m.frameAllocator.available) :
    ∃ ms' m', (ms.push ⟨start, stop, [], .framed, perm⟩ none).Returns m ms' m' ∧
      m.frameAllocator.available ≤ m'.frameAllocator.available + 3 * (stop - start) := by
  have hvpns : ∀ v ∈ MapArea.vpns ⟨start, stop, [], .framed, perm⟩, start ≤ v ∧ v < stop :=
    fun v hv ↦ MapArea.mem_vpns.mp hv
  have hlength : (MapArea.vpns ⟨start, stop, [], .framed, perm⟩).length = stop - start :=
    List.length_range'
  obtain ⟨⟨area, pt⟩, m', hmap, hav⟩ := MapArea.mapPages_returns_of_room
    ⟨start, stop, [], .framed, perm⟩ rfl hperm
    (fun v hv ↦ (hvpns v hv).2.trans_le hstop) List.nodup_range'
    (fun v hv ↦ not_not.mp (hnone v (hvpns v hv).1 (hvpns v hv).2)) hwf
    (separate_pageTable hsep) (by rwa [hlength])
  rw [hlength] at hav
  exact ⟨⟨pt, ms.areas ++ [area]⟩, m', hmap.bind (Exec.Returns.bind (a := ())
    (Exec.returns_pure.mpr ⟨rfl, rfl⟩) (Exec.returns_pure.mpr ⟨rfl, rfl⟩)), hav⟩

/-- A frame an area holds for a page is the one the page is translated to. -/
theorem Wf.frameAt_of_mem (h : ms.Wf) (hsep : m.Separate ms.frames) {area : MapArea}
    (harea : area ∈ ms.areas) {v f : ℕ} (hf : (v, f) ∈ area.dataFrames) : ms.frameAt v = f := by
  have hframed := h.framed area harea
  have hentry : (v, PageTableEntry.new f (area.mapPerm ||| PTEFlags.V)) ∈ area.entries :=
    List.mem_map.mpr ⟨(v, f), hf, rfl⟩
  have hlt : v < 2 ^ 27 :=
    (MapArea.mem_vpns.mp (hframed.mem_vpns_of_entry hentry)).2.trans_le hframed.stop_le
  have hlookup := (h.lookup_iff v hlt _).mpr
    (List.mem_cons_of_mem _ (List.mem_flatMap.mpr ⟨area, harea, hentry⟩))
  exact frameAt_of_lookup hlookup (hsep.lt (mem_frames harea hf)) (PTEFlags.or_V_lt hframed.mapPerm_lt)

/-- The pages of an area are translated to its frames. -/
theorem Wf.frameAt_mem (h : ms.Wf) (hsep : m.Separate ms.frames) {area : MapArea}
    (harea : area ∈ ms.areas) {v : ℕ} (hv : v ∈ area.vpns) :
    (v, ms.frameAt v) ∈ area.dataFrames ∧ (ms.translate v).isSome := by
  obtain ⟨f, hf, hlookup⟩ := h.lookup_of_mem harea hv
  rw [h.frameAt_of_mem hsep harea hf]
  exact ⟨hf, by rw [translate, PageTable.translate_of_lookup hlookup]; rfl⟩

theorem Wf.translate_frameAt (h : ms.Wf) (hsep : m.Separate ms.frames) {area : MapArea}
    (harea : area ∈ ms.areas) {v : ℕ} (hv : v ∈ area.vpns) :
    ms.translate v = some (.new (ms.frameAt v) (area.mapPerm ||| PTEFlags.V)) := by
  obtain ⟨f, hf, hlookup⟩ := h.lookup_of_mem harea hv
  rw [h.frameAt_of_mem hsep harea hf]
  exact PageTable.translate_of_lookup hlookup

theorem Wf.translate_trampoline (h : ms.Wf) : ms.translate trampolineVpn = some trampolineEntry.2 :=
  PageTable.translate_of_lookup
    ((h.lookup_iff trampolineVpn (by decide) _).mpr (List.mem_cons_self (a := trampolineEntry)))

/-- The areas but for their frames can be read off where they lie. -/
theorem Wf.map_fromAnother (h : ms.Wf) : ms.areas.map MapArea.fromAnother =
    ms.spans.map fun s ↦ ⟨s.1, s.2.1, [], .framed, s.2.2⟩ := by
  rw [spans, List.map_map]
  refine List.map_congr_left fun area harea ↦ ?_
  rw [MapArea.fromAnother, (h.framed area harea).mapType_eq]
  rfl

/-- The areas of a space have no page in common. -/
theorem Wf.areas_disjoint (h : ms.Wf) (hsep : m.Separate ms.frames) :
    ms.areas.Pairwise fun a b ↦ ∀ v ∈ a.vpns, v ∉ b.vpns := by
  have hnodup := (List.nodup_flatMap.mp (List.nodup_append.mp hsep.nodup).2.1).2
  refine hnodup.imp_of_mem fun {a b} ha hb hdisjoint v hva hvb ↦ ?_
  obtain ⟨hfa, -⟩ := h.frameAt_mem hsep ha hva
  obtain ⟨hfb, -⟩ := h.frameAt_mem hsep hb hvb
  exact hdisjoint (List.mem_map_of_mem hfa) (List.mem_map_of_mem hfb)

/-- The trampoline is in no area whose frames are memory. -/
theorem Wf.trampolineVpn_not_mem (h : ms.Wf) (hsep : m.Separate ms.frames)
    (hram : ∀ f ∈ ms.frames, KernelLayout.InRam f) {area : MapArea} (harea : area ∈ ms.areas) :
    trampolineVpn ∉ area.vpns := by
  intro hv
  obtain ⟨hf, -⟩ := h.frameAt_mem hsep harea hv
  have hlookup := (h.lookup_iff trampolineVpn (by decide) _).mpr (List.mem_cons_self (a := trampolineEntry))
  have hmem := KernelLayout.strampoline_mem
  have hord := KernelLayout.ordered
  have hsmall : KernelLayout.strampoline / pageSize < 2 ^ 44 := by
    simp only [memoryEnd, pageSize] at *
    omega
  rw [frameAt_of_lookup hlookup hsmall (by decide)] at hf
  have hge := (hram _ (mem_frames harea hf)).1
  have haligned := KernelLayout.aligned
  simp only [pageSize] at hge
  omega

/-! ## The copy as it grows -/

/-- Part of a space has been copied, from the machine `m₀` on. -/
structure CopyOf (userSpace : MemorySet) (m₀ : Machine) (ms : MemorySet) (m : Machine) : Prop where
  wf : ms.Wf
  conserves : m₀.Conserves [] m ms.frames
  kept : ∀ f, m₀.free f = 0 → m.bytes f = m₀.bytes f
  copied : ∀ area ∈ ms.areas, ∀ p ∈ area.dataFrames, m.bytes p.2 = m₀.bytes (userSpace.frameAt p.1)

namespace CopyOf

variable {m₀ m₁ m₂ : Machine} {ms₁ : MemorySet} {area : MapArea}

theorem separate (h : CopyOf userSpace m₀ ms m) (hsep : m₀.Separate userSpace.frames) :
    m.Separate ms.frames :=
  (hsep.mono fun f ↦ by simp).conserves h.conserves

/-- Its frames were free. -/
theorem free_pos (h : CopyOf userSpace m₀ ms m) {f : ℕ} (hf : f ∈ ms.frames) : 0 < m₀.free f := by
  have hcount := List.count_pos_iff.mpr hf
  have hc := h.conserves f
  rw [List.count_nil] at hc
  omega

theorem free_le (h : CopyOf userSpace m₀ ms m) (f : ℕ) : m.free f ≤ m₀.free f := by
  have hc := h.conserves f
  rw [List.count_nil] at hc
  omega

/-- **One more area** is entered and its pages are copied. -/
theorem push_copy (h : CopyOf userSpace m₀ ms m) (hwf : userSpace.Wf)
    (hsep : m₀.Separate userSpace.frames) (harea : area ∈ userSpace.areas)
    (hpush : (ms.push (.fromAnother area) none).Returns m ms₁ m₁)
    {u : Unit} (hcopy : (copyPagesFrom userSpace ms₁ area.vpns).Returns m₁ u m₂) :
    CopyOf userSpace m₀ ms₁ m₂ ∧ ms₁.spans = ms.spans ++ [area.span] := by
  have hframed := hwf.framed area harea
  have hnew : MapArea.fromAnother area = ⟨area.start, area.stop, [], .framed, area.mapPerm⟩ := by
    rw [MapArea.fromAnother, hframed.mapType_eq]
  have hconserves := push_conserves rfl hpush
  rw [hnew] at hpush
  obtain ⟨hwf₁, hspans, hnone⟩ :=
    push_spec h.wf (h.separate hsep) hframed.stop_le hframed.mapPerm_lt hpush
  obtain ⟨hextends, area', hareas, hspan⟩ := push_none hpush
  have hc₁ : m₀.Conserves [] m₁ ms₁.frames := h.conserves.trans hconserves
  have hsep₁ : m₁.Separate ms₁.frames := (h.separate hsep).conserves hconserves
  have harea' : area' ∈ ms₁.areas := by
    rw [hareas]
    exact List.mem_append_right _ (List.mem_singleton_self _)
  have hvpns : area'.vpns = area.vpns := MapArea.vpns_of_span hspan
  have hfresh : ∀ f ∈ ms₁.frames, 0 < m₀.free f := fun f hf ↦ by
    have hcount := List.count_pos_iff.mpr hf
    have hc := hc₁ f
    rw [List.count_nil] at hc
    omega
  have hused : ∀ v ∈ area.vpns, m₀.free (userSpace.frameAt v) = 0 := fun v hv ↦ by
    have hmem := List.count_pos_iff.mpr (mem_frames harea (hwf.frameAt_mem hsep harea hv).1)
    have := (hsep (userSpace.frameAt v)).1
    omega
  have hdst : ∀ v ∈ area.vpns, (v, ms₁.frameAt v) ∈ area'.dataFrames := fun v hv ↦ by
    rw [← hvpns] at hv
    exact (hwf₁.frameAt_mem hsep₁ harea' hv).1
  obtain ⟨hcopied, hkept⟩ := copyPagesFrom_spec List.nodup_range'
    (fun v hv w hw heq ↦ by
      have hv' := hdst v hv
      rw [heq] at hv'
      exact vpn_eq_of_frame hsep₁ harea' harea' hv' (hdst w hw))
    (fun v hv w hw heq ↦ by
      have hpos := hfresh _ (mem_frames harea' (hdst w hw))
      rw [← heq, hused v hv] at hpos
      exact lt_irrefl 0 hpos) hcopy
  refine ⟨⟨hwf₁, fun f ↦ ?_, fun f hf ↦ ?_, fun a ha p hp ↦ ?_⟩, hspans⟩
  · rw [Machine.free, copyPagesFrom_frameAllocator hcopy]
    exact hc₁ f
  · have hle := h.free_le f
    rw [hf] at hle
    rw [hkept f fun v hv heq ↦ ?_, hextends.bytes f (Nat.le_zero.mp hle), h.kept f hf]
    have hpos := hfresh _ (mem_frames harea' (hdst v hv))
    rw [heq, hf] at hpos
    exact lt_irrefl 0 hpos
  · rw [hareas, List.mem_append, List.mem_singleton] at ha
    rcases ha with ha | rfl
    · -- a page copied before
      have hin : p.2 ∈ ms.frames := mem_frames ha hp
      have hfree : m.free p.2 = 0 := by
        have hcount := List.count_pos_iff.mpr hin
        have := (h.separate hsep p.2).1
        omega
      rw [hkept p.2 fun v hv heq ↦ ?_, hextends.bytes _ hfree, h.copied a ha p hp]
      have hold : a ∈ ms₁.areas := by
        rw [hareas]
        exact List.mem_append_left _ ha
      have hv' := hdst v hv
      rw [heq] at hv'
      obtain rfl : v = p.1 := vpn_eq_of_frame hsep₁ harea' hold hv' hp
      have hmapped : p.1 ∈ a.vpns := by
        rw [← (h.wf.framed a ha).vpns_eq]
        exact List.mem_map_of_mem hp
      refine hnone p.1 (MapArea.mem_vpns.mp hv).1 (MapArea.mem_vpns.mp hv).2 ?_
      obtain ⟨f, -, hlookup⟩ := h.wf.lookup_of_mem ha hmapped
      rw [Mapped, hlookup]
      exact Option.some_ne_none _
    · have hv : p.1 ∈ area.vpns := by
        rw [← hvpns, ← (hwf₁.framed _ harea').vpns_eq]
        exact List.mem_map_of_mem hp
      rw [← hwf₁.frameAt_of_mem hsep₁ harea' hp, hcopied p.1 hv, hextends.bytes, h.kept _ (hused _ hv)]
      have hle := h.free_le (userSpace.frameAt p.1)
      rw [hused _ hv] at hle
      exact Nat.le_zero.mp hle

theorem copyAreas {areas : List MapArea} {ms' : MemorySet} {m' : Machine} (h : CopyOf userSpace m₀ ms m)
    (hwf : userSpace.Wf) (hsep : m₀.Separate userSpace.frames) (hmem : ∀ a ∈ areas, a ∈ userSpace.areas)
    (hcopy : (MemorySet.copyAreas userSpace areas ms).Returns m ms' m') :
    CopyOf userSpace m₀ ms' m' ∧ ms'.spans = ms.spans ++ areas.map MapArea.span := by
  induction areas generalizing ms m with
  | nil =>
    obtain ⟨rfl, rfl⟩ := Exec.returns_pure.mp hcopy
    exact ⟨h, (List.append_nil _).symm⟩
  | cons area areas ih =>
    obtain ⟨ms₁, m₁, hpush, hrest⟩ := Exec.returns_bind.mp hcopy
    obtain ⟨_, m₂, hpages, hrest⟩ := Exec.returns_bind.mp hrest
    obtain ⟨h₂, hspans⟩ := h.push_copy hwf hsep (hmem area List.mem_cons_self) hpush hpages
    obtain ⟨h', hspans'⟩ := ih h₂ (fun a ha ↦ hmem a (List.mem_cons_of_mem _ ha)) hrest
    refine ⟨h', ?_⟩
    rw [hspans', hspans, List.append_assoc]
    rfl

/-- The pages of an area can be copied when none of them is mapped yet and there are frames enough. -/
theorem push_copy_returns (h : CopyOf userSpace m₀ ms m) (hwf : userSpace.Wf)
    (hsep : m₀.Separate userSpace.frames)
    (hram : ∀ f, 0 < userSpace.frames.count f + m₀.free f → KernelLayout.InRam f)
    (harea : area ∈ userSpace.areas) (hnone : ∀ v ∈ area.vpns, ¬ms.Mapped v)
    (hroom : 3 * area.vpns.length ≤ m.frameAllocator.available) :
    ∃ ms₁ m₁ m₂, (ms.push (.fromAnother area) none).Returns m ms₁ m₁ ∧
      (copyPagesFrom userSpace ms₁ area.vpns).Returns m₁ () m₂ ∧
      m.frameAllocator.available ≤ m₂.frameAllocator.available + 3 * area.vpns.length := by
  have hframed := hwf.framed area harea
  have hnew : MapArea.fromAnother area = ⟨area.start, area.stop, [], .framed, area.mapPerm⟩ := by
    rw [MapArea.fromAnother, hframed.mapType_eq]
  have hlength : area.vpns.length = area.stop - area.start := List.length_range'
  rw [hlength] at hroom ⊢
  rw [hnew]
  obtain ⟨ms₁, m₁, hpush, hav⟩ := push_none_returns _ _ _ h.wf.table (h.separate hsep) hframed.stop_le
    hframed.mapPerm_lt (fun v hv hv' ↦ hnone v (MapArea.mem_vpns.mpr ⟨hv, hv'⟩)) hroom
  obtain ⟨hwf₁, -, -⟩ := push_spec h.wf (h.separate hsep) hframed.stop_le hframed.mapPerm_lt hpush
  obtain ⟨-, area', hareas, hspan⟩ := push_none hpush
  have hc₁ := h.conserves.trans (push_conserves rfl hpush)
  have hsep₁ := (h.separate hsep).conserves (push_conserves rfl hpush)
  have hlast : area' ∈ ms₁.areas := by
    rw [hareas]
    exact List.mem_append_right _ (List.mem_singleton_self _)
  have hram' : ∀ v ∈ area.vpns, (userSpace.translate v).isSome ∧ (ms₁.translate v).isSome ∧
      KernelLayout.InRam (userSpace.frameAt v) ∧ KernelLayout.InRam (ms₁.frameAt v) := fun v hv ↦ by
    obtain ⟨hsrc, hsome⟩ := hwf.frameAt_mem hsep harea hv
    obtain ⟨hdst, hsome'⟩ := hwf₁.frameAt_mem hsep₁ hlast (v := v) (MapArea.vpns_of_span hspan ▸ hv)
    refine ⟨hsome, hsome', hram _ ?_, hram _ ?_⟩
    · have := List.count_pos_iff.mpr (mem_frames harea hsrc)
      omega
    · have hcount := List.count_pos_iff.mpr (mem_frames hlast hdst)
      have hc := hc₁ (ms₁.frameAt v)
      rw [List.count_nil] at hc
      omega
  obtain ⟨m₂, hcopy⟩ := copyPagesFrom_returns hram' m₁
  refine ⟨ms₁, m₁, m₂, hpush, hcopy, ?_⟩
  rw [copyPagesFrom_frameAllocator hcopy]
  exact hav

/-- **The copy succeeds** when there are three frames for each page: the page's own, and two for nodes of
the page table that may be missing. -/
theorem copyAreas_returns {areas : List MapArea} (h : CopyOf userSpace m₀ ms m) (hwf : userSpace.Wf)
    (hsep : m₀.Separate userSpace.frames)
    (hram : ∀ f, 0 < userSpace.frames.count f + m₀.free f → KernelLayout.InRam f)
    (hmem : ∀ a ∈ areas, a ∈ userSpace.areas)
    (hdisjoint : areas.Pairwise fun a b ↦ ∀ v ∈ a.vpns, v ∉ b.vpns)
    (hnone : ∀ a ∈ areas, ∀ v ∈ a.vpns, ¬ms.Mapped v)
    (hroom : 3 * (areas.map fun a ↦ a.vpns.length).sum ≤ m.frameAllocator.available) :
    ∃ ms' m', (MemorySet.copyAreas userSpace areas ms).Returns m ms' m' := by
  induction areas generalizing ms m with
  | nil => exact ⟨ms, m, Exec.returns_pure.mpr ⟨rfl, rfl⟩⟩
  | cons area areas ih =>
    obtain ⟨hhead, htail⟩ := List.pairwise_cons.mp hdisjoint
    have harea := hmem area List.mem_cons_self
    rw [List.map_cons, List.sum_cons] at hroom
    obtain ⟨ms₁, m₁, m₂, hpush, hcopy, hav⟩ :=
      h.push_copy_returns hwf hsep hram harea (hnone area List.mem_cons_self) (by omega)
    obtain ⟨h₂, hspans⟩ := h.push_copy hwf hsep harea hpush hcopy
    have hnone₂ : ∀ a ∈ areas, ∀ v ∈ a.vpns, ¬ms₁.Mapped v := fun a ha v hv hmapped ↦ by
      have hlt : v < 2 ^ 27 := (MapArea.mem_vpns.mp hv).2.trans_le
        (hwf.framed a (hmem a (List.mem_cons_of_mem _ ha))).stop_le
      refine hnone a (List.mem_cons_of_mem _ ha) v hv ((h.wf.mapped_iff hlt).mpr ?_)
      rcases (h₂.wf.mapped_iff hlt).mp hmapped with htramp | ⟨s, hs, hin⟩
      · exact Or.inl htramp
      · rw [hspans, List.mem_append, List.mem_singleton] at hs
        rcases hs with hs | rfl
        · exact Or.inr ⟨s, hs, hin⟩
        · exact absurd hv (hhead a ha v (MapArea.mem_vpns.mpr hin))
    obtain ⟨ms', m', hrest⟩ :=
      ih h₂ (fun a ha ↦ hmem a (List.mem_cons_of_mem _ ha)) htail hnone₂ (by omega)
    exact ⟨ms', m', hpush.bind (hcopy.bind hrest)⟩

end CopyOf

/-! ## The copy -/

/-- A new space with the trampoline takes three frames: one for the root of its page table, and two for the
nodes below it. -/
theorem mapTrampoline_returns (hsep : m.Separate []) (hroom : 3 ≤ m.frameAllocator.available) :
    ∃ ms m₁ ms' m₂, newBare.Returns m ms m₁ ∧ ms.mapTrampoline.Returns m₁ ms' m₂ ∧
      m.frameAllocator.available ≤ m₂.frameAllocator.available + 3 := by
  obtain ⟨frame, m₁, halloc, hav⟩ := Machine.frameAlloc_returns (m := m) (by omega)
  have hpt : PageTable.new.Returns m ⟨frame, [frame], fun _ _ ↦ .empty⟩ m₁ :=
    halloc.bind (Exec.returns_pure.mpr ⟨rfl, rfl⟩)
  obtain ⟨hwf, hnone, -, -⟩ := PageTable.wf_new hpt
  have hbare : newBare.Returns m ⟨⟨frame, [frame], fun _ _ ↦ .empty⟩, []⟩ m₁ :=
    hpt.bind (Exec.returns_pure.mpr ⟨rfl, rfl⟩)
  have hmissing := PageTable.missing_le ⟨frame, [frame], fun _ _ ↦ .empty⟩
    (VirtPageNum.indexes trampolineVpn).1 (VirtPageNum.indexes trampolineVpn).2.1
  obtain ⟨pt, m₂, hmap, -, hav'⟩ := PageTable.map_returns (KernelLayout.strampoline / pageSize)
    (PTEFlags.R ||| PTEFlags.X) hwf (separate_pageTable (hsep.conserves (newBare_conserves hbare)))
    (hnone trampolineVpn) (by omega)
  exact ⟨_, m₁, ⟨pt, []⟩, m₂, hbare, hmap.bind (Exec.returns_pure.mpr ⟨rfl, rfl⟩), by omega⟩

/-- The first turn starts from a space with the trampoline only. -/
theorem copyOf_mapTrampoline {ms₁ : MemorySet} {m₁ m₂ : Machine} (hsep : m.Separate userSpace.frames)
    (hnew : newBare.Returns m ms m₁) (htramp : ms.mapTrampoline.Returns m₁ ms₁ m₂) :
    CopyOf userSpace m ms₁ m₂ ∧ ms₁.spans = [] := by
  have hsep' : m.Separate [] := hsep.mono fun f ↦ by simp
  obtain ⟨hwf, hspans⟩ := mapTrampoline_spec hnew hsep' htramp
  obtain ⟨hpt, -⟩ := newBare_spec hnew
  obtain ⟨-, -, -, halloc⟩ := PageTable.wf_new hpt
  obtain ⟨pt, m₃, hmap, hpure⟩ := Exec.returns_bind.mp htramp
  obtain ⟨rfl, rfl⟩ := Exec.returns_pure.mp hpure
  have hextends := (Machine.extends_of_frameAlloc halloc).trans (PageTable.map_takes hmap).1
  refine ⟨⟨hwf, (newBare_conserves hnew).trans (mapTrampoline_conserves htramp),
    fun f hf ↦ hextends.bytes f hf, ?_⟩, hspans⟩
  rw [List.map_eq_nil_iff.mp hspans]
  exact nofun

/-- A space is the copy of another one. -/
structure Copies (userSpace : MemorySet) (m : Machine) (ms : MemorySet) (m' : Machine) : Prop where
  areas : ms.areas.map MapArea.fromAnother = userSpace.areas.map MapArea.fromAnother
  /-- Both spaces map the pages of the areas, with the permissions of the area. -/
  pages : ∀ area ∈ userSpace.areas, ∀ vpn ∈ area.vpns,
    userSpace.translate vpn = some (.new (userSpace.frameAt vpn) (area.mapPerm ||| PTEFlags.V)) ∧
      ms.translate vpn = some (.new (ms.frameAt vpn) (area.mapPerm ||| PTEFlags.V)) ∧
      ms.frameAt vpn ∈ ms.frames
  bytes : ∀ area ∈ userSpace.areas, ∀ vpn ∈ area.vpns,
    m'.bytes (ms.frameAt vpn) = m.bytes (userSpace.frameAt vpn)
  /-- No frame of the copy is a frame of the original, and none is used twice. -/
  nodup : (ms.frames ++ userSpace.frames).Nodup
  injective : ∀ area ∈ userSpace.areas, ∀ v ∈ area.vpns, ∀ area' ∈ userSpace.areas, ∀ w ∈ area'.vpns,
    ms.frameAt v = ms.frameAt w → v = w
  trampoline : ms.translate trampolineVpn = some trampolineEntry.2 ∧
    userSpace.translate trampolineVpn = some trampolineEntry.2
  only : ∀ vpn < 2 ^ 27, ms.Mapped vpn ↔
    vpn = trampolineVpn ∨ ∃ area ∈ userSpace.areas, vpn ∈ area.vpns
  /-- No frame of the original is written to, those of its page table included. -/
  kept : ∀ f ∈ userSpace.frames, m'.bytes f = m.bytes f

/-- Once all areas are copied, the space is a copy. -/
theorem CopyOf.copies (h : CopyOf userSpace m ms m') (hwf : userSpace.Wf)
    (hsep : m.Separate userSpace.frames) (hspans : ms.spans = userSpace.spans) :
    Copies userSpace m ms m' := by
  have hsep' := h.separate hsep
  have harea : ∀ area ∈ userSpace.areas, ∃ area' ∈ ms.areas, area'.vpns = area.vpns ∧
      area'.mapPerm = area.mapPerm := fun area ha ↦ by
    have hmem : area.span ∈ ms.spans := by
      rw [hspans]
      exact List.mem_map_of_mem ha
    obtain ⟨area', ha', heq⟩ := List.mem_map.mp hmem
    exact ⟨area', ha', MapArea.vpns_of_span heq, (Prod.mk.inj (Prod.mk.inj heq).2).2⟩
  refine ⟨?_, fun area ha v hv ↦ ?_, fun area ha v hv ↦ ?_, ?_, ?_, ?_, fun v hv ↦ ?_, fun f hf ↦ ?_⟩
  · rw [h.wf.map_fromAnother, hwf.map_fromAnother, hspans]
  · obtain ⟨area', ha', hvpns, hperm⟩ := harea area ha
    have hv' : v ∈ area'.vpns := hvpns ▸ hv
    refine ⟨hwf.translate_frameAt hsep ha hv, ?_, mem_frames ha' (h.wf.frameAt_mem hsep' ha' hv').1⟩
    rw [← hperm]
    exact h.wf.translate_frameAt hsep' ha' hv'
  · obtain ⟨area', ha', hvpns, -⟩ := harea area ha
    have hv' : v ∈ area'.vpns := hvpns ▸ hv
    exact h.copied area' ha' _ (h.wf.frameAt_mem hsep' ha' hv').1
  · refine List.nodup_append.mpr ⟨hsep'.nodup, hsep.nodup, fun f hf g hg ↦ ?_⟩
    rintro rfl
    have hpos := h.free_pos hf
    have hcount := List.count_pos_iff.mpr hg
    have := (hsep f).1
    omega
  · intro area ha v hv b hb w hw heq
    obtain ⟨area', ha', hvpns, -⟩ := harea area ha
    obtain ⟨b', hb', hvpns', -⟩ := harea b hb
    have hfv := (h.wf.frameAt_mem hsep' ha' (hvpns ▸ hv : v ∈ area'.vpns)).1
    have hfw := (h.wf.frameAt_mem hsep' hb' (hvpns' ▸ hw : w ∈ b'.vpns)).1
    rw [heq] at hfv
    exact vpn_eq_of_frame hsep' ha' hb' hfv hfw
  · exact ⟨h.wf.translate_trampoline, hwf.translate_trampoline⟩
  · rw [h.wf.mapped_iff hv, hspans]
    refine or_congr Iff.rfl ⟨?_, ?_⟩
    · rintro ⟨s, hs, hin⟩
      obtain ⟨area, ha, rfl⟩ := List.mem_map.mp hs
      exact ⟨area, ha, MapArea.mem_vpns.mpr hin⟩
    · rintro ⟨area, ha, hin⟩
      exact ⟨area.span, List.mem_map_of_mem ha, MapArea.mem_vpns.mp hin⟩
  · have hcount := List.count_pos_iff.mpr hf
    have := (hsep f).1
    exact h.kept f (by omega)

/-- **The copy of a space is exact**, and it is made when there are frames enough: three for the new page
table and the trampoline, and three for each page. -/
theorem fromExistedUser_exact (hwf : userSpace.Wf) (hsep : m.Separate userSpace.frames)
    (hram : ∀ f, 0 < userSpace.frames.count f + m.free f → KernelLayout.InRam f) :
    (∀ ms m', (fromExistedUser userSpace).Returns m ms m' → Copies userSpace m ms m') ∧
      (3 + 3 * (userSpace.areas.map fun a ↦ a.vpns.length).sum ≤ m.frameAllocator.available →
        ∃ ms m', (fromExistedUser userSpace).Returns m ms m') := by
  constructor
  · intro ms m' h
    obtain ⟨ms₁, m₁, hnew, h₁⟩ := Exec.returns_bind.mp h
    obtain ⟨ms₂, m₂, htramp, h₂⟩ := Exec.returns_bind.mp h₁
    obtain ⟨hcopy, hspans⟩ := copyOf_mapTrampoline hsep hnew htramp
    obtain ⟨hcopy', hspans'⟩ := hcopy.copyAreas hwf hsep (fun _ ha ↦ ha) h₂
    refine hcopy'.copies hwf hsep ?_
    rw [hspans', hspans]
    exact List.nil_append _
  · intro hroom
    have hsep' : m.Separate [] := hsep.mono fun f ↦ by simp
    obtain ⟨ms₁, m₁, ms₂, m₂, hnew, htramp, hav⟩ := mapTrampoline_returns hsep' (by omega)
    obtain ⟨hcopy, hspans⟩ := copyOf_mapTrampoline hsep hnew htramp
    have hnone : ∀ a ∈ userSpace.areas, ∀ v ∈ a.vpns, ¬ms₂.Mapped v := fun a ha v hv hmapped ↦ by
      have hlt : v < 2 ^ 27 := (MapArea.mem_vpns.mp hv).2.trans_le (hwf.framed a ha).stop_le
      rcases (hcopy.wf.mapped_iff hlt).mp hmapped with rfl | ⟨s, hs, -⟩
      · refine hwf.trampolineVpn_not_mem hsep (fun f hf ↦ hram f ?_) ha hv
        have := List.count_pos_iff.mpr hf
        omega
      · rw [hspans] at hs
        exact absurd hs List.not_mem_nil
    obtain ⟨ms, m', hrest⟩ := hcopy.copyAreas_returns hwf hsep hram (fun _ ha ↦ ha)
      (hwf.areas_disjoint hsep) hnone (by omega)
    exact ⟨ms, m', hnew.bind (htramp.bind hrest)⟩

end

attribute [local instance] sampleLayout

/-- A space with two areas, of two pages and of one, is copied. -/
theorem fromExistedUser_exact_two : ∃ userSpace m ms m', userSpace.spans = [(16, 18, 26), (32, 33, 22)] ∧
    (fromExistedUser userSpace).Returns m ms m' ∧ Copies userSpace m ms m' := by
  have havail : sampleMachine.frameAllocator.available = 100 := by decide
  obtain ⟨ms₁, m₁, ms₂, m₂, hnew, htramp, hav⟩ :=
    mapTrampoline_returns (m := sampleMachine) separate_sampleMachine (by omega)
  obtain ⟨hwf₂, hspans₂⟩ := mapTrampoline_spec hnew separate_sampleMachine htramp
  have hc₂ := (newBare_conserves hnew).trans (mapTrampoline_conserves htramp)
  have hsep₂ := separate_sampleMachine.conserves hc₂
  have hnone₂ : ∀ v, v < 64 → ¬ms₂.Mapped v := fun v hv ↦ by
    rw [hwf₂.mapped_iff (by omega), hspans₂]
    rintro (rfl | ⟨s, hs, -⟩)
    · exact absurd hv (by decide)
    · exact absurd hs List.not_mem_nil
  obtain ⟨ms₃, m₃, hpush, hav₃⟩ := push_none_returns 16 18 26 hwf₂.table hsep₂ (by omega) (by omega) (fun v _ hv ↦ hnone₂ v (by omega)) (by omega)
  obtain ⟨hwf₃, hspans₃, -⟩ := push_spec hwf₂ hsep₂ (by omega) (by omega) hpush
  have hc₃ := push_conserves rfl hpush
  have hsep₃ := hsep₂.conserves hc₃
  have hnone₃ : ∀ v, 32 ≤ v → v < 33 → ¬ms₃.Mapped v := fun v hv hv' ↦ by
    rw [hwf₃.mapped_iff (by omega), hspans₃, hspans₂]
    rintro (rfl | ⟨s, hs, hin⟩)
    · exact absurd hv' (by decide)
    · obtain rfl := List.mem_singleton.mp hs
      have hlt : v < 18 := hin.2
      omega
  obtain ⟨ms₄, m₄, hpush', hav₄⟩ := push_none_returns 32 33 22 hwf₃.table hsep₃ (by omega) (by omega) hnone₃ (by omega)
  obtain ⟨hwf₄, hspans₄, -⟩ := push_spec hwf₃ hsep₃ (by omega) (by omega) hpush'
  have hc₄ := (hc₂.trans hc₃).trans (push_conserves rfl hpush')
  have hspans : ms₄.spans = [(16, 18, 26), (32, 33, 22)] := by
    rw [hspans₄, hspans₃, hspans₂]
    rfl
  have hpages : (ms₄.areas.map fun a ↦ a.vpns.length).sum = 3 := by
    have heq : (ms₄.areas.map fun a ↦ a.vpns.length) = ms₄.spans.map fun s ↦ s.2.1 - s.1 := by
      rw [spans, List.map_map]
      exact List.map_congr_left fun a _ ↦ List.length_range'
    rw [heq, hspans]
    rfl
  obtain ⟨hexact, hreturns⟩ := fromExistedUser_exact hwf₄ (separate_sampleMachine.conserves hc₄)
    fun f hf ↦ inRam_sampleMachine (hc₄ f ▸ hf)
  obtain ⟨ms, m', h⟩ := hreturns (by omega)
  exact ⟨ms₄, m₄, ms, m', hspans, h, hexact ms m' h⟩

end MemorySet

end AgentOS
