import AgentOS.Mm.MappedRange
import AgentOS.Run.ContextAreas
import AgentOS.Run.Delivery
import AgentOS.Run.ToolCalls

/-!
# Results of tool calls

A tool call tells the user where the answer lies by two words, and leaves the answer in the context
area. Three separate copies write these, each through the page table of the caller; that none of them
disturbs another follows from where they go.
-/

namespace AgentOS

open LittleEndian

namespace Kernel

/-! ## The area of an agent -/

section Areas

variable {event : Event} {mine : Prop} {ext ext' : AgentExt}

theorem Touch.area (h : Touch event mine ext ext') : ext'.area = ext.area := by
  cases h with
  | path h =>
    show ext'.sansPath.area = ext.sansPath.area
    rw [h]
  | heartbeat _ h =>
    unfold AgentExt.heartbeat at h
    split at h
    · obtain rfl := Option.some.inj h
      rfl
    · exact absurd h (by simp)
  | fileEvent h =>
    unfold AgentExt.fileEvent at h
    split at h
    · obtain rfl := Option.some.inj h
      rfl
    · exact absurd h (by simp)
  | _ => rfl

/-- All agents have their area at the same addresses. -/
theorem Reach.area_eq [KernelLayout] {boots : Elf → Prop} {allowed : Kernel → Event → Prop}
    {k : Kernel} (h : Reach boots allowed k) {t : ℕ} (hext : k.extOf t = some ext) :
    ext.contextAreaBase = contextAreaBase ∧ ext.contextAreaSize = contextAreaDefaultSize := by
  have harea := h.agents (I := fun ext ↦ ext.area = (contextAreaBase, contextAreaDefaultSize)) rfl
    (fun _ _ _ _ harea ht ↦ ht.area.trans harea) hext
  exact Prod.mk.inj harea

end Areas

/-! ## Where the answer lies -/

/-- A pointer to a word that is mapped. The end of the word is a number of 64 bits too. -/
structure OutWord (pt : PageTable) (ptr : ℕ) : Prop where
  ne_zero : ptr ≠ 0
  mapped : MappedRange pt ptr 4
  lt : ptr + 4 < 2 ^ 64

/-- Two ranges without a common address. -/
def Apart (ptr len ptr' len' : ℕ) : Prop := ptr + len ≤ ptr' ∨ ptr' + len' ≤ ptr

/-- The user finds the answer by the two words. Both are zero when there is no body; else they say where
the body lies in the context area. -/
structure Located (m : Machine) (pt : PageTable) (areaBase outOffsetPtr outLenPtr : ℕ)
    (dr : DispatchResult) (offset len : ℕ) : Prop where
  offset_word : userBytes m pt outOffsetPtr 4 = leBytes 4 offset
  len_word : userBytes m pt outLenPtr 4 = leBytes 4 len
  zeros_iff : (offset, len) = (0, 0) ↔ dr.status ≠ .ok ∨ dr.body = []
  body : (offset, len) ≠ (0, 0) → offset = Layout.toolResultOff ∧ len = dr.body.length ∧
    len ≤ Layout.toolResultLen ∧ userBytes m pt (areaBase + offset) len = dr.body

/-- So a decoder that reads every value from its code finds the value that was encoded. -/
theorem Located.decodes {m : Machine} {pt : PageTable} {areaBase outOffsetPtr outLenPtr : ℕ}
    {dr : DispatchResult} {offset len : ℕ}
    (h : Located m pt areaBase outOffsetPtr outLenPtr dr offset len)
    (hbody : (offset, len) ≠ (0, 0)) {α : Type} {enc : α → List UInt8}
    {dec : List UInt8 → Option α} (hdec : ∀ a, dec (enc a) = some a) {a : α} (ha : dr.body = enc a) :
    dec (userBytes m pt (areaBase + offset) len) = some a := by
  obtain ⟨-, -, -, hbytes⟩ := h.body hbody
  rw [hbytes, ha, hdec]

theorem returnValue_eq_zero_iff (s : ToolStatus) : s.returnValue = 0 ↔ s = .ok := by
  cases s <;> decide

section Replies

variable [KernelLayout]

/-- A write of a word to a mapped place. -/
theorem writeOut_mapped {ms : MemorySet} (hwf : ms.Wf) {ptr value : ℕ} {m m' : Machine}
    (hword : OutWord ms.pageTable ptr) (h : (writeOut ms.pageTable ptr value).Returns m () m') :
    (∀ a, ptr ≤ a → a < ptr + 4 → a ∈ ms.areaAddrs) ∧
      ∃ log, m' = m.written (ms.pageTable.userPlaces ptr 4) (leBytes 4 value) log := by
  rw [writeOut, if_pos hword.ne_zero] at h
  have hlen : (leBytes 4 value).length = 4 := length_leBytes 4 value
  have hwrite := hwf.write_mapped (hlen.symm ▸ hword.mapped) (hlen.symm ▸ hword.lt) h
  rwa [hlen] at hwrite

/-- **What a reply leaves in memory**, when the area and the two words are mapped and apart. -/
theorem Replied.located {ms : MemorySet} {m m' : Machine} {areaBase outOffsetPtr outLenPtr : ℕ}
    {dr : DispatchResult} (h : Replied ms.pageTable areaBase dr outOffsetPtr outLenPtr m m')
    (hwf : ms.Wf) (hinj : Set.InjOn ms.pageTable.place ms.areaAddrs)
    (harea : MappedRange ms.pageTable (areaBase + Layout.toolResultOff) Layout.toolResultLen)
    (hlow : areaBase + Layout.toolResultOff + Layout.toolResultLen < 2 ^ 64)
    (hfits : dr.status = .ok → dr.body.length ≤ Layout.toolResultLen)
    (hoff : OutWord ms.pageTable outOffsetPtr) (hlen : OutWord ms.pageTable outLenPtr)
    (hwords : Apart outOffsetPtr 4 outLenPtr 4)
    (hoffRing : Apart outOffsetPtr 4 (areaBase + Layout.toolResultOff) Layout.toolResultLen)
    (hlenRing : Apart outLenPtr 4 (areaBase + Layout.toolResultOff) Layout.toolResultLen) :
    Located m' ms.pageTable areaBase outOffsetPtr outLenPtr dr (replyWords dr).1
      (replyWords dr).2 := by
  obtain ⟨m₁, hbody, m₂, hoffset, hlength⟩ := h.exists_body
  obtain ⟨hoffMem, log₂, hm₂⟩ := writeOut_mapped hwf hoff hoffset
  obtain ⟨hlenMem, log₃, hm₃⟩ := writeOut_mapped hwf hlen hlength
  have hfour : ∀ value, (leBytes 4 value).length = 4 := length_leBytes 4
  -- what the last copies leave alone
  have keep₃ : ∀ {ptr len}, (∀ a, ptr ≤ a → a < ptr + len → a ∈ ms.areaAddrs) →
      Apart ptr len outLenPtr 4 → userBytes m' ms.pageTable ptr len =
        userBytes m₂ ms.pageTable ptr len := by
    intro ptr len hread hapart
    rw [hm₃, ← hfour (replyWords dr).2]
    exact userBytes_written_of_apart hinj ((hfour _).symm ▸ hlenMem) hread ((hfour _).symm ▸ hapart)
  have keep₂ : ∀ {ptr len}, (∀ a, ptr ≤ a → a < ptr + len → a ∈ ms.areaAddrs) →
      Apart ptr len outOffsetPtr 4 → userBytes m₂ ms.pageTable ptr len =
        userBytes m₁ ms.pageTable ptr len := by
    intro ptr len hread hapart
    rw [hm₂, ← hfour (replyWords dr).1]
    exact userBytes_written_of_apart hinj ((hfour _).symm ▸ hoffMem) hread ((hfour _).symm ▸ hapart)
  refine ⟨?_, ?_, ?_, ?_⟩
  · rw [keep₃ hoffMem hwords, hm₂]
    have hself := @userBytes_written_self _ _ _ (leBytes 4 (replyWords dr).1) m₁ log₂ hinj
      ((hfour _).symm ▸ hoffMem)
    rwa [hfour] at hself
  · rw [hm₃]
    have hself := @userBytes_written_self _ _ _ (leBytes 4 (replyWords dr).2) m₂ log₃ hinj
      ((hfour _).symm ▸ hlenMem)
    rwa [hfour] at hself
  · unfold replyWords
    split
    · rename_i hfilled
      exact iff_of_false (by simp [Layout.toolResultOff])
        (not_or.mpr ⟨not_not.mpr hfilled.1, hfilled.2⟩)
    · rename_i hempty
      refine iff_of_true rfl ?_
      by_contra hno
      obtain ⟨hok, hne⟩ := not_or.mp hno
      exact hempty ⟨not_not.mp hok, hne⟩
  · intro hne
    obtain ⟨hok, hnil⟩ : dr.status = .ok ∧ dr.body ≠ [] := by
      by_contra hempty
      rw [replyWords, if_neg hempty] at hne
      exact hne rfl
    rw [if_pos ⟨hok, hnil⟩] at hbody
    have hle := hfits hok
    obtain ⟨hmem, log₁, hm₁⟩ := hwf.write_mapped (harea.sub le_rfl (Nat.add_le_add_left hle _))
      ((Nat.add_le_add_left hle _).trans_lt hlow) hbody
    rw [replyWords, if_pos ⟨hok, hnil⟩]
    refine ⟨rfl, rfl, hle, ?_⟩
    have apart_body : ∀ {ptr}, Apart ptr 4 (areaBase + Layout.toolResultOff) Layout.toolResultLen →
        Apart (areaBase + Layout.toolResultOff) dr.body.length ptr 4 := by
      intro ptr hapart
      rcases hapart with hbefore | hbehind
      · exact Or.inr hbefore
      · exact Or.inl (by omega)
    rw [keep₃ hmem (apart_body hlenRing), keep₂ hmem (apart_body hoffRing), hm₁]
    exact userBytes_written_self hinj hmem

end Replies

section Calls

variable [KernelLayout] {k k' : Kernel} {t : ℕ} {tcb : TaskControlBlock} {ext : AgentExt}
  {reqPtr reqLen outOffsetPtr outLenPtr : ℕ} {v : ℤ}

/-- **The result of a tool call.** In every reachable state, when a call of an agent whose area is mapped
returns no error, the answer of its request is where the two words say, and the call returns zero just
when the status is good. -/
theorem toolCall_located (hk : Reachable k) (hcur : k.current = some t)
    (htcb : k.tasks t = some tcb) (hext : tcb.agentExt = some ext)
    (harea : MappedRange tcb.memorySet.pageTable ext.contextAreaBase ext.contextAreaSize)
    (hoff : OutWord tcb.memorySet.pageTable outOffsetPtr)
    (hlen : OutWord tcb.memorySet.pageTable outLenPtr) (hwords : Apart outOffsetPtr 4 outLenPtr 4)
    (hoffRing : Apart outOffsetPtr 4 (ext.contextAreaBase + Layout.toolResultOff)
      Layout.toolResultLen)
    (hlenRing : Apart outLenPtr 4 (ext.contextAreaBase + Layout.toolResultOff) Layout.toolResultLen)
    (h : (sysToolCall reqPtr reqLen outOffsetPtr outLenPtr).Returns k (some v) k') (hv : 0 ≤ v) :
    ∃ reqBuf m req dr k₁,
      (readUserBytes .userPtr tcb.memorySet.pageTable reqPtr (List.replicate reqLen 0)).Returns
        k.machine reqBuf m ∧
      decodeRequest reqBuf = .ok req ∧ (dispatch req).Returns (k.calling t m) (.ok dr) k₁ ∧
      (v = 0 ↔ dr.status = .ok) ∧
      ∃ offset len, Located k'.machine tcb.memorySet.pageTable ext.contextAreaBase outOffsetPtr
          outLenPtr dr offset len ∧
        ∀ (α : Type) (enc : α → List UInt8) (dec : List UInt8 → Option α) (a : α),
          (∀ a, dec (enc a) = some a) → dr.body = enc a → (offset, len) ≠ (0, 0) →
            dec (userBytes k'.machine tcb.memorySet.pageTable (ext.contextAreaBase + offset) len) =
              some a := by
  obtain ⟨hsound, hmemory⟩ := hk.memory
  have hwf : tcb.memorySet.Wf := hmemory.wf t _ <|
    spaceOf_of_tasks htcb (ne_zombie_of_current hsound.coherent hcur htcb)
  have hinj := hwf.injOn_place (hmemory.separate hsound.fresh htcb)
  obtain ⟨hbase, hsize⟩ := hk.area_eq ((extOf_of_tasks htcb).trans hext)
  obtain ⟨v', hv', hcalled⟩ := (returns_sysToolCall hcur htcb hext).mp h
  obtain rfl := Option.some.inj hv'
  cases hcalled with
  | refused => exact absurd hv (by decide)
  | malformed => exact absurd hv (by decide)
  | tooLong => exact absurd hv (by decide)
  | @answered reqBuf m m' req dr k₁ hargs hread hreq hdispatch hfits hreply =>
    have hin : ext.contextAreaBase + Layout.toolResultOff + Layout.toolResultLen ≤
        ext.contextAreaBase + ext.contextAreaSize := by
      rw [hbase, hsize]
      decide
    have hlow : ext.contextAreaBase + Layout.toolResultOff + Layout.toolResultLen < 2 ^ 64 := by
      rw [hbase]
      decide
    have hlocated := hreply.located hwf hinj (harea.sub (Nat.le_add_right _ _) hin) hlow hfits hoff
      hlen hwords hoffRing hlenRing
    refine ⟨reqBuf, m, req, dr, k₁, hread, hreq, hdispatch, returnValue_eq_zero_iff _, _, _, hlocated,
      fun α enc dec a hdec ha hne ↦ hlocated.decodes hne hdec ha⟩

end Calls

section Sample

attribute [local instance] sampleLayout

/-- An agent with the request for the system status in its memory, which is nine bytes long. -/
private def statusEvents : List Event :=
  [.schedule, .syscall (.agentCreate 0), .store 0x10001 0x7F, .store 0x10002 0xE4,
    .store 0x10003 0xA9, .store 0x10004 1]

/-- The first process asks for the system status. -/
theorem toolCall_located_status : ∃ k k' tcb, Reachable k ∧ k.tasks 0 = some tcb ∧
    (sysToolCall 0x10000 9 0x10800 0x10900).Returns k (some 0) k' ∧
      ∃ dr offset len, Located k'.machine tcb.memorySet.pageTable contextAreaBase 0x10800 0x10900 dr
        offset len := by
  let k := (sampleRun sampleElf statusEvents).2
  have hk : Reachable k := reach_sampleRun (by decide +kernel) (by decide +kernel) trivial
    fun _ _ _ ↦ trivial
  have hcover : Reach (fun _ ↦ True) LoadsCovering k :=
    reach_sampleRun (by decide +kernel) (by decide +kernel) trivial fun _ event hevent elf _ _ h ↦ by
      subst h
      simp [statusEvents] at hevent
  have hcur : k.current = some 0 := by decide +kernel
  have hpage : ((k.tasks 0).map fun tcb ↦ (tcb.agentExt.isSome,
      (tcb.memorySet.pageTable.lookup 0x10).isSome)) = some (true, true) := by decide +kernel
  have hcall : (sysToolCall 0x10000 9 0x10800 0x10900).Returns k (some 0)
      (sysToolCall 0x10000 9 0x10800 0x10900 k).2 := Exec.returns_of_fst (by decide +kernel)
  clear_value k
  obtain ⟨tcb, htcb, heq⟩ := Option.map_eq_some_iff.mp hpage
  obtain ⟨hagent, hlookup⟩ := Prod.mk.inj heq
  obtain ⟨ext, hext⟩ := Option.isSome_iff_exists.mp hagent
  obtain ⟨hbase, hsize⟩ := hk.area_eq ((extOf_of_tasks htcb).trans hext)
  have hlive := ne_zombie_of_current hk.memory.1.coherent hcur htcb
  have harea : MappedRange tcb.memorySet.pageTable ext.contextAreaBase ext.contextAreaSize := by
    obtain ⟨hmapped, -⟩ := agents_areasMapped hcover 0 tcb ext htcb hlive hext
    intro a ha ha'
    obtain ⟨pte, hpte, -⟩ := hmapped a ha ha'
    rw [hbase, hsize] at ha'
    exact ⟨Or.inl (ha'.trans (by decide)), by rw [hpte]; simp⟩
  have hword : ∀ ptr, 0x10000 ≤ ptr → ptr + 4 ≤ 0x11000 → OutWord tcb.memorySet.pageTable ptr := by
    intro ptr hge hle
    refine ⟨by omega, fun a ha ha' ↦ ⟨Or.inl (by omega), ?_⟩, by omega⟩
    have hpageOf : pageOf a = 0x10 := by
      simp only [pageOf, VirtAddr.floor, VirtAddr.ofUsize, pageSize]
      omega
    rw [hpageOf]
    exact Option.isSome_iff_ne_none.mp hlookup
  obtain ⟨reqBuf, m, req, dr, k₁, -, -, -, -, offset, len, hlocated, -⟩ := toolCall_located hk hcur htcb
    hext harea (hword 0x10800 (by decide) (by decide)) (hword 0x10900 (by decide) (by decide))
    (Or.inl (by decide)) (Or.inl (by rw [hbase]; decide)) (Or.inl (by rw [hbase]; decide)) hcall
    le_rfl
  exact ⟨k, _, tcb, hk, htcb, hcall, dr, offset, len, hbase ▸ hlocated⟩

end Sample

end Kernel

end AgentOS
