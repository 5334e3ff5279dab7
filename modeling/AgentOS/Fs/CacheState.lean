import Mathlib
import AgentOS.Fs.BlockCache
import AgentOS.Lib.WriteBack

/-!
# What the block cache keeps

The queue of cached blocks is a write-back cache of the devices, with one line for a block of a device.
This file says what each operation of `Fs/BlockCache` does to it. A well-formed queue has one entry for a
block id, and every reference outside the queue is to a block of the queue.
-/

namespace AgentOS.Fs

open Exec

namespace Storage

/-! ## The cached blocks -/

/-- The block the queue has for a block id. -/
def entry (s : Storage) (blockId : ℕ) : Option BlockCache :=
  (s.queue.find? fun pair ↦ pair.1 = blockId).bind fun pair ↦ s.arcs pair.2

/-- Devices and cached blocks as a write-back cache. -/
def lines (device : DeviceId → ℕ → Block) (entry : ℕ → Option BlockCache) :
    WriteBack (DeviceId × ℕ) Block where
  backing k := device k.1 k.2
  line k := ((entry k.2).filter fun b ↦ b.blockDevice = k.1).map fun b ↦ (b.cache, b.modified)

def writeBack (s : Storage) : WriteBack (DeviceId × ℕ) Block := lines s.device s.entry

/-- What the blocks of the devices hold, whether it is still in memory or not. -/
def content (s : Storage) (dev : DeviceId) (blockId : ℕ) : Block := s.writeBack.content (dev, blockId)

/-- The reference is to the cached block of a device. -/
def Holds (s : Storage) (arc : ℕ) (dev : DeviceId) (blockId : ℕ) : Prop :=
  (blockId, arc) ∈ s.queue ∧ ∃ b, s.arcs arc = some b ∧ b.blockDevice = dev

structure Wf (s : Storage) : Prop where
  ids : (s.queue.map Prod.fst).Nodup
  arcs : (s.queue.map Prod.snd).Nodup
  blocks : ∀ pair ∈ s.queue, ∃ b, s.arcs pair.2 = some b ∧ b.blockId = pair.1
  held : ∀ arc ∈ s.handles, arc ∈ s.queue.map Prod.snd
  old : ∀ pair ∈ s.queue, pair.2 < s.nextArc
  short : s.queue.length ≤ blockCacheSize
  coherent : s.writeBack.Coherent

theorem wf_boot (device : DeviceId → ℕ → Block) : (boot device).Wf where
  ids := List.nodup_nil
  arcs := List.nodup_nil
  blocks := nofun
  held := nofun
  old := nofun
  short := Nat.zero_le _
  coherent _ _ h := by simp [writeBack, lines, entry, boot] at h

theorem content_boot (device : DeviceId → ℕ → Block) : (boot device).content = device := by
  funext dev blockId
  rfl

variable {s s' : Storage} {device : DeviceId → ℕ → Block} {entries : ℕ → Option BlockCache}
  {arc blockId : ℕ} {dev : DeviceId} {b : BlockCache}

/-! ## Lines -/

theorem line_of_entry (h : entries blockId = some b) :
    (lines device entries).line (b.blockDevice, blockId) = some (b.cache, b.modified) := by
  simp [lines, h]

/-- Changing the entry of a block id changes the line of one block, when the entries before and after
are of one device. -/
theorem line_update {o : Option BlockCache} (hold : ∀ b ∈ entries blockId, b.blockDevice = dev)
    (hnew : ∀ b ∈ o, b.blockDevice = dev) :
    (lines device (Function.update entries blockId o)).line =
      Function.update (lines device entries).line (dev, blockId)
        (o.map fun b ↦ (b.cache, b.modified)) := by
  -- entries of one device do not show in the lines of another
  have hfilter {o : Option BlockCache} {d : DeviceId} (ho : ∀ b ∈ o, b.blockDevice = dev)
      (hd : d ≠ dev) : (o.filter fun b ↦ b.blockDevice = d) = none := by
    rw [Option.filter_eq_none_iff]
    intro b hb
    simpa [ho b hb] using hd.symm
  funext ⟨d, i⟩
  simp only [lines]
  by_cases hi : i = blockId
  · subst hi
    rw [Function.update_self]
    by_cases hd : d = dev
    · subst hd
      have hall : o.filter (fun b ↦ b.blockDevice = d) = o := by
        cases o with
        | none => rfl
        | some b => exact Option.filter_some_pos (by simpa using hnew b rfl)
      rw [Function.update_self, hall]
    · have hk : (d, i) ≠ (dev, i) := by simpa using hd
      rw [Function.update_of_ne hk, hfilter hnew hd, hfilter hold hd]
  · have hk : (d, i) ≠ (dev, blockId) := by simp [hi]
    rw [Function.update_of_ne hi, Function.update_of_ne hk]

theorem device_of_entry (h : entries blockId = some b) :
    ∀ b' ∈ entries blockId, b'.blockDevice = b.blockDevice := by
  rintro b' hb'
  rw [h] at hb'
  rw [Option.mem_some_iff.mp hb']

theorem lines_load (h : entries blockId = none) :
    lines device (Function.update entries blockId
      (some { cache := device dev blockId, blockId, blockDevice := dev, modified := false })) =
    (lines device entries).load (dev, blockId) :=
  WriteBack.ext rfl (line_update (by simp [h]) (by simp))

theorem lines_write (h : entries blockId = some b) (v : Block) :
    lines device (Function.update entries blockId (some { b with cache := v, modified := true })) =
    (lines device entries).write (b.blockDevice, blockId) v :=
  WriteBack.ext rfl (line_update (device_of_entry h) (by simp))

theorem lines_drop (h : entries blockId = some b) :
    lines device (Function.update entries blockId none) =
    (lines device entries).drop (b.blockDevice, blockId) :=
  WriteBack.ext rfl (line_update (device_of_entry h) nofun)

theorem lines_flush (h : entries b.blockId = some b) (hmodified : b.modified = true) :
    lines (Function.update device b.blockDevice
        (Function.update (device b.blockDevice) b.blockId b.cache))
      (Function.update entries b.blockId (some { b with modified := false })) =
    (lines device entries).flush (b.blockDevice, b.blockId) := by
  have hline : (lines device entries).line (b.blockDevice, b.blockId) = some (b.cache, true) := by
    rw [line_of_entry h, hmodified]
  rw [WriteBack.flush_of_ahead hline]
  refine WriteBack.ext (funext fun ⟨d, i⟩ ↦ ?_) (line_update (device_of_entry h) (by simp))
  simp only [lines]
  by_cases hd : d = b.blockDevice
  · subst hd
    rw [Function.update_self]
    by_cases hi : i = b.blockId
    · subst hi
      simp
    · have hk : (b.blockDevice, i) ≠ (b.blockDevice, b.blockId) := by simpa using hi
      rw [Function.update_of_ne hi, Function.update_of_ne hk]
  · have hk : (d, i) ≠ (b.blockDevice, b.blockId) := by simp [hd]
    rw [Function.update_of_ne hd, Function.update_of_ne hk]

theorem flush_clean (h : entries blockId = some b) (hclean : b.modified = false) :
    (lines device entries).flush (b.blockDevice, blockId) = lines device entries := by
  refine WriteBack.flush_of_not_ahead fun v hline ↦ ?_
  rw [line_of_entry h, hclean] at hline
  simp at hline

/-! ## Entries -/

/-- The entries of a queue do not share a block id. -/
theorem find_of_mem {queue : List (ℕ × ℕ)} (hids : (queue.map Prod.fst).Nodup)
    (h : (blockId, arc) ∈ queue) :
    (queue.find? fun pair ↦ pair.1 = blockId) = some (blockId, arc) := by
  rw [List.find?_eq_some_iff_append]
  obtain ⟨l, r, rfl⟩ := List.append_of_mem h
  refine ⟨by simp, l, r, rfl, fun pair hpair ↦ ?_⟩
  rw [List.map_append, List.map_cons, List.nodup_append] at hids
  have hne := hids.2.2 pair.1 (List.mem_map_of_mem hpair) blockId List.mem_cons_self
  simpa using hne

theorem Wf.entry_of_mem (h : s.Wf) (hmem : (blockId, arc) ∈ s.queue) :
    s.entry blockId = s.arcs arc := by
  rw [entry, find_of_mem h.ids hmem]
  rfl

theorem Wf.entry_eq_some_iff (h : s.Wf) :
    s.entry blockId = some b ↔ ∃ arc, (blockId, arc) ∈ s.queue ∧ s.arcs arc = some b := by
  constructor
  · intro hentry
    obtain ⟨pair, hpair, harc⟩ := Option.bind_eq_some_iff.mp hentry
    have hid : pair.1 = blockId := by simpa using List.find?_some hpair
    exact ⟨pair.2, hid ▸ List.mem_of_find?_eq_some hpair, harc⟩
  · rintro ⟨arc, hmem, harc⟩
    rw [h.entry_of_mem hmem, harc]

theorem Wf.entry_eq_none_iff (h : s.Wf) : s.entry blockId = none ↔ blockId ∉ s.queue.map Prod.fst := by
  constructor
  · intro hentry hmem
    obtain ⟨pair, hpair, rfl⟩ := List.mem_map.mp hmem
    obtain ⟨b, hb, -⟩ := h.blocks pair hpair
    rw [h.entry_of_mem hpair, hb] at hentry
    simp at hentry
  · intro hmem
    rw [entry, List.find?_eq_none.mpr]
    · rfl
    · intro pair hpair hid
      exact hmem (List.mem_map.mpr ⟨pair, hpair, by simpa using hid⟩)

theorem Wf.arc_unique (h : s.Wf) {i j : ℕ} (hi : (i, arc) ∈ s.queue) (hj : (j, arc) ∈ s.queue) :
    i = j :=
  congrArg Prod.fst (List.inj_on_of_nodup_map h.arcs hi hj rfl)

theorem Wf.id_unique (h : s.Wf) {a a' : ℕ} (ha : (blockId, a) ∈ s.queue)
    (ha' : (blockId, a') ∈ s.queue) : a = a' :=
  congrArg Prod.snd (List.inj_on_of_nodup_map h.ids ha ha' rfl)

/-- A held block is what the device's block holds. -/
theorem Wf.content_of_arc (h : s.Wf) (hmem : (blockId, arc) ∈ s.queue) (harc : s.arcs arc = some b) :
    s.content b.blockDevice blockId = b.cache :=
  WriteBack.content_of_line (line_of_entry (h.entry_eq_some_iff.mpr ⟨arc, hmem, harc⟩))

/-- Only the entry of an `Arc` changes with it. -/
theorem Wf.entry_setArc (h : s.Wf) (hmem : (blockId, arc) ∈ s.queue) (b : BlockCache) :
    (s.setArc arc (some b)).entry = Function.update s.entry blockId (some b) := by
  funext i
  by_cases hi : i = blockId
  · subst hi
    rw [Function.update_self, entry]
    change (s.queue.find? _).bind _ = _
    rw [find_of_mem h.ids hmem]
    simp [setArc]
  · rw [Function.update_of_ne hi, entry, entry]
    change (s.queue.find? _).bind _ = _
    refine Option.bind_congr fun pair hpair ↦ ?_
    have hid : pair.1 = i := by simpa using List.find?_some hpair
    have hne : pair.2 ≠ arc := by
      rintro rfl
      exact hi (hid ▸ h.arc_unique (List.mem_of_find?_eq_some hpair) hmem)
    exact Function.update_of_ne hne _ _

/-- Replacing the block behind an `Arc` by another with the same id keeps the queue well formed. -/
theorem Wf.setArc (h : s.Wf) (hmem : (blockId, arc) ∈ s.queue) (hb : b.blockId = blockId)
    (device : DeviceId → ℕ → Block)
    (hcoherent : (lines device (Function.update s.entry blockId (some b))).Coherent) :
    ({ s.setArc arc (some b) with device := device } : Storage).Wf where
  ids := h.ids
  arcs := h.arcs
  blocks pair hpair := by
    by_cases harc : pair.2 = arc
    · refine ⟨b, by simp [Storage.setArc, harc], ?_⟩
      rw [hb]
      exact h.arc_unique hmem (harc ▸ hpair)
    · obtain ⟨b', hb', hid⟩ := h.blocks pair hpair
      exact ⟨b', by simpa [Storage.setArc, Function.update_of_ne harc] using hb', hid⟩
  held := h.held
  old := h.old
  short := h.short
  coherent := by
    have hentry := h.entry_setArc hmem b
    change (lines device (s.setArc arc (some b)).entry).Coherent
    rwa [hentry]

theorem Holds.setArc (h : s.Holds arc dev blockId) {arc' : ℕ} (hb : ∀ b', s.arcs arc' = some b' →
    b.blockDevice = b'.blockDevice) (device : DeviceId → ℕ → Block) :
    ({ s.setArc arc' (some b) with device := device } : Storage).Holds arc dev blockId := by
  obtain ⟨hmem, b', hb', hdev⟩ := h
  refine ⟨hmem, ?_⟩
  by_cases harc : arc = arc'
  · subst harc
    exact ⟨b, by simp [Storage.setArc], (hb b' hb').trans hdev⟩
  · exact ⟨b', by simpa [Storage.setArc, Function.update_of_ne harc] using hb', hdev⟩

end Storage

end AgentOS.Fs
