import Mathlib
import AgentOS.Fs.CacheState

/-!
# What the operations on the block cache do

Getting a block, syncing one and dropping a handle change no content. Modifying a block changes its
content and no other. A block that is held stays in the queue.
-/

namespace AgentOS.Fs

open Exec Storage

namespace Storage

/-- After an operation that changes no content: blocks that were held still are where they were. -/
structure Keeps (s s' : Storage) : Prop where
  wf : s'.Wf
  content : s'.content = s.content
  locked : s'.locked = s.locked
  holds : ∀ {arc dev blockId}, arc ∈ s.handles → s.Holds arc dev blockId → s'.Holds arc dev blockId
  device : ∀ dev i, s.device dev i = s.content dev i → s'.device dev i = s.device dev i

theorem Keeps.trans {s s' s'' : Storage} (h : s.Keeps s') (hhandles : s'.handles = s.handles)
    (h' : s'.Keeps s'') : s.Keeps s'' where
  wf := h'.wf
  content := h'.content.trans h.content
  locked := h'.locked.trans h.locked
  holds harc hholds := h'.holds (hhandles ▸ harc) (h.holds harc hholds)
  device dev i hi := by
    have hfirst := h.device dev i hi
    rw [h'.device dev i (by rw [hfirst, hi, h.content]), hfirst]

variable {s s' : Storage} {arc blockId : ℕ} {dev : DeviceId} {b : BlockCache}

theorem Wf.keeps (h : s.Wf) : s.Keeps s := ⟨h, rfl, rfl, fun _ h ↦ h, fun _ _ _ ↦ rfl⟩

theorem Wf.of_handles (h : s.Wf) {handles : List ℕ}
    (hheld : ∀ arc ∈ handles, arc ∈ s.queue.map Prod.snd) :
    ({ s with handles := handles } : Storage).Wf where
  ids := h.ids
  arcs := h.arcs
  blocks := h.blocks
  held := hheld
  old := h.old
  short := h.short
  coherent := h.coherent

theorem Wf.of_locked (h : s.Wf) (locked : List ℕ) (uses : List Use) :
    ({ s with locked := locked, uses := uses } : Storage).Wf where
  ids := h.ids
  arcs := h.arcs
  blocks := h.blocks
  held := h.held
  old := h.old
  short := h.short
  coherent := h.coherent

/-- In a well-formed queue an `Arc` with one reference is not held. -/
theorem Wf.not_mem_handles (h : s.Wf) {pair : ℕ × ℕ} (hmem : pair ∈ s.queue)
    (hcount : s.strongCount pair.2 = 1) : pair.2 ∉ s.handles := by
  have hqueue : (s.queue.map Prod.snd).count pair.2 = 1 :=
    List.count_eq_one_of_mem h.arcs (List.mem_map_of_mem hmem)
  rw [strongCount, hqueue] at hcount
  exact List.count_eq_zero.mp (by omega)

theorem Wf.strongCount_eq (h : s.Wf) {pair : ℕ × ℕ} (hmem : pair ∈ s.queue)
    (hheld : pair.2 ∉ s.handles) : s.strongCount pair.2 = 1 := by
  rw [strongCount, List.count_eq_one_of_mem h.arcs (List.mem_map_of_mem hmem),
    List.count_eq_zero.mpr hheld]

/-- When not every block of a full queue is held, some entry can make room. -/
theorem Wf.exists_free (h : s.Wf) (hroom : s.handles.dedup.length < s.queue.length) :
    ∃ pair ∈ s.queue, s.strongCount pair.2 = 1 := by
  by_contra! hnone
  have hsub : s.queue.map Prod.snd ⊆ s.handles.dedup := by
    intro arc harc
    obtain ⟨pair, hpair, rfl⟩ := List.mem_map.mp harc
    rw [List.mem_dedup]
    by_contra hheld
    exact hnone pair hpair (h.strongCount_eq hpair hheld)
  have hle := (List.subperm_of_subset h.arcs hsub).length_le
  rw [List.length_map] at hle
  omega

/-! ## Syncing -/

/-- **Syncing a block** writes its line back, whatever the queue is. -/
theorem sync_returns (harc : s.arcs arc = some b) :
    ∃ device, (BlockCache.sync arc).Returns s ()
        { s.setArc arc (some { b with modified := false }) with device } ∧
      ∀ entries : ℕ → Option BlockCache, entries b.blockId = some b →
        lines device (Function.update entries b.blockId (some { b with modified := false })) =
          (lines s.device entries).flush (b.blockDevice, b.blockId) := by
  have hcached : (cached arc).Returns s b s :=
    (returns_get.mpr ⟨rfl, rfl⟩).bind (returns_unwrap.mpr ⟨harc, rfl⟩)
  cases hmodified : b.modified with
  | true =>
    refine ⟨_, hcached.bind (returns_ite.mpr (Or.inl ⟨hmodified,
      (returns_modify (u := ()).mpr rfl).bind (returns_modify.mpr rfl)⟩)), fun entries hentry ↦ ?_⟩
    exact lines_flush hentry hmodified
  | false =>
    have hb : ({ b with modified := false } : BlockCache) = b := by rw [← hmodified]
    refine ⟨s.device, hcached.bind (returns_ite.mpr (Or.inr ⟨by simp [hmodified],
      returns_pure.mpr ⟨rfl, ?_⟩⟩)), fun entries hentry ↦ ?_⟩
    · rw [hb, setArc, ← harc, Function.update_eq_self]
    · rw [hb, ← hentry, Function.update_eq_self, flush_clean hentry hmodified]

/-- A block of the queue is synced. -/
theorem sync_spec (h : s.Wf) (hmem : (blockId, arc) ∈ s.queue) :
    ∃ s', (BlockCache.sync arc).Returns s () s' ∧ s.Keeps s' ∧ s'.queue = s.queue ∧
      s'.handles = s.handles ∧ (∀ b, s'.arcs arc = some b → b.modified = false) ∧
      ∀ arc' ≠ arc, s'.arcs arc' = s.arcs arc' := by
  obtain ⟨b, harc, rfl⟩ := h.blocks _ hmem
  obtain ⟨device, hsync, hlines⟩ := sync_returns harc
  have hentry : s.entry b.blockId = some b := h.entry_eq_some_iff.mpr ⟨arc, hmem, harc⟩
  have hwriteBack : lines device (s.setArc arc (some { b with modified := false })).entry =
      s.writeBack.flush (b.blockDevice, b.blockId) := by
    rw [h.entry_setArc hmem, hlines s.entry hentry, writeBack]
  have hcoherent := h.coherent.flush (b.blockDevice, b.blockId)
  refine ⟨_, hsync, ⟨?_, ?_, rfl, fun _ hholds ↦ ?_, fun dev' i hi ↦ ?_⟩, rfl, rfl, fun b' hb' ↦ ?_,
    fun arc' hne ↦ ?_⟩
  · refine h.setArc (b := { b with modified := false }) hmem rfl _ ?_
    rwa [hlines s.entry hentry]
  · funext dev' blockId'
    change (lines device (s.setArc arc (some { b with modified := false })).entry).content _ = _
    rw [hwriteBack, WriteBack.content_flush]
    rfl
  · refine hholds.setArc (fun b' hb' ↦ ?_) _
    have hsome : some b = some b' := harc.symm.trans hb'
    rw [Option.some.inj hsome]
  · change (lines device (s.setArc arc (some { b with modified := false })).entry).backing (dev', i) = _
    rw [hwriteBack]
    exact WriteBack.backing_flush hi
  · have hsome : some { b with modified := false } = some b' := by
      simpa [setArc] using hb'
    rw [← Option.some.inj hsome]
  · exact Function.update_of_ne hne _ _

/-! ## Room in the queue -/

theorem Wf.of_mem_erase (h : s.Wf) (hmem : (blockId, arc) ∈ s.queue) {pair : ℕ × ℕ}
    (hpair : pair ∈ s.queue.erase (blockId, arc)) : pair ∈ s.queue ∧ pair.2 ≠ arc := by
  have hqueue := List.mem_of_mem_erase hpair
  refine ⟨hqueue, fun heq ↦ ?_⟩
  have hpe : pair = (blockId, arc) := List.inj_on_of_nodup_map h.arcs hqueue hmem heq
  exact (List.Nodup.not_mem_erase (h.arcs.of_map _)) (hpe ▸ hpair)

/-- Without an entry of the queue its block id has none. -/
theorem Wf.entry_erase (h : s.Wf) (hmem : (blockId, arc) ∈ s.queue)
    (hqueue : s'.queue = s.queue.erase (blockId, arc))
    (harcs : ∀ a ≠ arc, s'.arcs a = s.arcs a) :
    s'.entry = Function.update s.entry blockId none := by
  funext j
  rw [entry, hqueue]
  by_cases hj : j = blockId
  · subst hj
    rw [Function.update_self, List.find?_eq_none.mpr]
    · rfl
    · intro p hp hpj
      obtain ⟨hpq, hne⟩ := h.of_mem_erase hmem hp
      have hpj : p.1 = j := by simpa using hpj
      exact hne (h.id_unique (hpj ▸ hpq) hmem)
  · rw [Function.update_of_ne hj, entry]
    have hfind : (s.queue.erase (blockId, arc)).find? (fun p ↦ decide (p.1 = j)) =
        s.queue.find? fun p ↦ decide (p.1 = j) := by
      obtain ⟨l, r, -, hq, herase⟩ := List.exists_erase_eq hmem
      rw [herase, hq, List.find?_append, List.find?_append, List.find?_cons_of_neg]
      simpa using fun hij : blockId = j ↦ hj hij.symm
    rw [hfind]
    refine Option.bind_congr fun p hp ↦ harcs p.2 ?_
    have hpj : p.1 = j := by simpa using List.find?_some hp
    rintro rfl
    exact hj (hpj ▸ h.arc_unique (List.mem_of_find?_eq_some hp) hmem)

/-- **Evicting an entry** that nobody holds: its block is written back and forgotten. -/
theorem evict_spec (h : s.Wf) {pair : ℕ × ℕ} (hmem : pair ∈ s.queue)
    (hcount : s.strongCount pair.2 = 1) :
    ∃ s', (releaseArc pair.2).Returns { s with queue := s.queue.erase pair } () s' ∧
      s.Keeps s' ∧ s'.handles = s.handles ∧ s'.queue = s.queue.erase pair ∧
      ∀ a ∈ s.handles, s'.arcs a = s.arcs a := by
  obtain ⟨i, arc⟩ := pair
  have hheld : arc ∉ s.handles := h.not_mem_handles hmem hcount
  obtain ⟨b, harc, hid⟩ := h.blocks _ hmem
  dsimp only at harc hid
  -- the entry was the only reference
  have hzero : ({ s with queue := s.queue.erase (i, arc) } : Storage).strongCount arc = 0 := by
    have hq : ((s.queue.erase (i, arc)).map Prod.snd).count arc = 0 := by
      rw [List.count_eq_zero]
      intro hin
      obtain ⟨p, hp, heq⟩ := List.mem_map.mp hin
      exact (h.of_mem_erase hmem hp).2 heq
    change ((s.queue.erase (i, arc)).map Prod.snd).count arc + s.handles.count arc = 0
    rw [hq, List.count_eq_zero.mpr hheld]
  obtain ⟨device, hsync, hlines⟩ :=
    sync_returns (s := { s with queue := s.queue.erase (i, arc) }) harc
  obtain ⟨t, ht⟩ : ∃ t : Storage, t = { s with
      queue := s.queue.erase (i, arc), device := device,
      arcs := Function.update
        (Function.update s.arcs arc (some { b with modified := false })) arc none } := ⟨_, rfl⟩
  have harcs : ∀ a ≠ arc, t.arcs a = s.arcs a := fun a ha ↦ by
    rw [ht]
    exact (Function.update_of_ne ha _ _).trans (Function.update_of_ne ha _ _)
  have hwriteBack : t.writeBack =
      (s.writeBack.flush (b.blockDevice, i)).drop (b.blockDevice, i) := by
    have hflush : lines device (Function.update s.entry i (some { b with modified := false })) =
        s.writeBack.flush (b.blockDevice, i) := by
      rw [← hid]
      exact hlines s.entry (h.entry_eq_some_iff.mpr ⟨arc, hid ▸ hmem, harc⟩)
    have hdevice : t.device = device := by rw [ht]
    rw [writeBack, hdevice, h.entry_erase hmem (by rw [ht]) harcs, ← hflush,
      ← lines_drop (b := { b with modified := false }) (Function.update_self i _ _),
      Function.update_idem]
  refine ⟨t, (returns_get.mpr ⟨rfl, rfl⟩).bind (returns_ite.mpr (Or.inl ⟨hzero,
    hsync.bind (returns_modify.mpr (by rw [ht]; rfl))⟩)), ?_, by rw [ht], by rw [ht],
    fun a ha ↦ harcs a fun heq ↦ hheld (heq ▸ ha)⟩
  refine ⟨⟨?_, ?_, ?_, ?_, ?_, ?_, ?_⟩, ?_, by rw [ht], ?_, ?_⟩
  · rw [ht]
    exact h.ids.sublist (List.Sublist.map _ List.erase_sublist)
  · rw [ht]
    exact h.arcs.sublist (List.Sublist.map _ List.erase_sublist)
  · intro p hp
    obtain ⟨hpq, hne⟩ := h.of_mem_erase hmem (ht ▸ hp)
    obtain ⟨b', hb', hid'⟩ := h.blocks p hpq
    exact ⟨b', (harcs _ hne).trans hb', hid'⟩
  · intro a ha
    rw [ht] at ha ⊢
    obtain ⟨p, hp, rfl⟩ := List.mem_map.mp (h.held a ha)
    refine List.mem_map_of_mem ((List.mem_erase_of_ne ?_).mpr hp)
    rintro rfl
    exact hheld ha
  · intro p hp
    rw [ht] at hp ⊢
    exact h.old p (h.of_mem_erase hmem hp).1
  · rw [ht]
    exact (List.length_erase_le).trans h.short
  · rw [hwriteBack]
    exact (h.coherent.flush _).drop _
  · funext dev' i'
    rw [Storage.content, hwriteBack, h.coherent.content_evict]
    rfl
  · intro a dev' i' ha hholds
    have hne : a ≠ arc := fun heq ↦ hheld (heq ▸ ha)
    obtain ⟨hq, b', hb', hdev⟩ := hholds
    refine ⟨?_, b', (harcs a hne).trans hb', hdev⟩
    rw [ht]
    exact (List.mem_erase_of_ne fun heq ↦ hne (congrArg Prod.snd heq)).mpr hq
  · intro dev' i' hi
    change t.writeBack.backing (dev', i') = _
    rw [hwriteBack]
    exact WriteBack.backing_flush hi

/-! ## Getting a block -/

theorem substitute_keeps (h : s.Wf) {u : Unit} (hret : substitute.Returns s u s') :
    s.Keeps s' ∧ s'.handles = s.handles ∧ (∀ a ∈ s.handles, s'.arcs a = s.arcs a) ∧
      s'.queue.length < blockCacheSize ∧ s'.queue ⊆ s.queue := by
  obtain ⟨t, u', ht, hret⟩ := returns_bind.mp hret
  obtain ⟨rfl, rfl⟩ := returns_get.mp ht
  rcases returns_ite.mp hret with ⟨hfull, hret⟩ | ⟨hshort, hret⟩
  · split at hret
    · next pair hfind =>
      have hmem := List.mem_of_find?_eq_some hfind
      obtain ⟨s'', hs'', hkeeps, hhandles, hqueue, harcs⟩ :=
        evict_spec h hmem (by simpa using List.find?_some hfind)
      obtain ⟨v, s₁, hmodify, hrelease⟩ := returns_bind.mp hret
      rw [returns_modify.mp hmodify] at hrelease
      obtain ⟨-, rfl⟩ := hrelease.det hs''
      refine ⟨hkeeps, hhandles, harcs, ?_, ?_⟩
      · rw [hqueue, List.length_erase_of_mem hmem, hfull]
        decide
      · rw [hqueue]
        exact List.erase_subset
    · exact (returns_panic.mp hret).elim
  · obtain ⟨-, rfl⟩ := returns_pure.mp hret
    exact ⟨h.keeps, rfl, fun _ _ ↦ rfl, lt_of_le_of_ne h.short hshort, List.Subset.refl _⟩

theorem substitute_returns (h : s.Wf) (hroom : s.handles.dedup.length < blockCacheSize) :
    ∃ s', substitute.Returns s () s' := by
  by_cases hfull : s.queue.length = blockCacheSize
  · obtain ⟨pair, hmem, hcount⟩ := h.exists_free (hfull ▸ hroom)
    have hsome : (s.queue.find? fun p ↦ s.strongCount p.2 = 1).isSome := by
      rw [List.find?_isSome]
      exact ⟨pair, hmem, by simpa using hcount⟩
    obtain ⟨pair', hfind⟩ := Option.isSome_iff_exists.mp hsome
    obtain ⟨s', hs', -⟩ := evict_spec h (List.mem_of_find?_eq_some hfind)
      (by simpa using List.find?_some hfind)
    refine ⟨s', (returns_get.mpr ⟨rfl, rfl⟩).bind (returns_ite.mpr (Or.inl ⟨hfull, ?_⟩))⟩
    rw [hfind]
    exact (returns_modify (u := ()).mpr rfl).bind hs'
  · exact ⟨s, (returns_get.mpr ⟨rfl, rfl⟩).bind
      (returns_ite.mpr (Or.inr ⟨hfull, returns_pure.mpr ⟨rfl, rfl⟩⟩))⟩

theorem new_returns : (BlockCache.new blockId dev).Returns s arc s' ↔ arc = s.nextArc ∧
    s' = { s.setArc s.nextArc (some
      { cache := s.device dev blockId, blockId, blockDevice := dev, modified := false }) with
      nextArc := s.nextArc + 1 } := by
  simp [BlockCache.new]

/-- A block loaded from its device. -/
def loaded (s : Storage) (dev : DeviceId) (blockId : ℕ) : Storage :=
  { s.setArc s.nextArc (some
      { cache := s.device dev blockId, blockId, blockDevice := dev, modified := false }) with
    nextArc := s.nextArc + 1
    queue := s.queue ++ [(blockId, s.nextArc)]
    handles := s.nextArc :: s.handles }

theorem Wf.arcs_loaded (h : s.Wf) {pair : ℕ × ℕ} (hmem : pair ∈ s.queue) :
    (s.loaded dev blockId).arcs pair.2 = s.arcs pair.2 :=
  Function.update_of_ne (h.old pair hmem).ne _ _

/-- **Loading a block** adds its line. -/
theorem Wf.loaded (h : s.Wf) (hnone : s.entry blockId = none)
    (hshort : s.queue.length < blockCacheSize) (dev : DeviceId) :
    s.Keeps (s.loaded dev blockId) := by
  have hid : blockId ∉ s.queue.map Prod.fst := h.entry_eq_none_iff.mp hnone
  have hentry : (s.loaded dev blockId).entry = Function.update s.entry blockId
      (some { cache := s.device dev blockId, blockId, blockDevice := dev, modified := false }) := by
    funext j
    rw [entry]
    change ((s.queue ++ [(blockId, s.nextArc)]).find? _).bind _ = _
    rw [List.find?_append]
    by_cases hj : j = blockId
    · subst hj
      have hfind : (s.queue.find? fun p ↦ decide (p.1 = j)) = none :=
        List.find?_eq_none.mpr fun p hp hpj ↦
          hid (List.mem_map.mpr ⟨p, hp, by simpa using hpj⟩)
      rw [hfind, Option.none_or, List.find?_singleton, if_pos (decide_eq_true rfl),
        Function.update_self]
      exact Function.update_self _ _ _
    · rw [Function.update_of_ne hj, entry]
      have hlast : ([(blockId, s.nextArc)].find? fun p ↦ decide (p.1 = j)) = none := by
        simpa using fun heq : blockId = j ↦ hj heq.symm
      rw [hlast, Option.or_none]
      exact Option.bind_congr fun p hp ↦ h.arcs_loaded (List.mem_of_find?_eq_some hp)
  have hwriteBack : (s.loaded dev blockId).writeBack = s.writeBack.load (dev, blockId) := by
    rw [writeBack, hentry]
    exact lines_load hnone
  have hline : s.writeBack.line (dev, blockId) = none := by
    simp [writeBack, lines, hnone]
  have hlast {pair : ℕ × ℕ} (hpair : pair ∈ (s.loaded dev blockId).queue) :
      pair ∈ s.queue ∨ pair = (blockId, s.nextArc) := by
    rcases List.mem_append.mp hpair with hmem | hmem
    · exact Or.inl hmem
    · exact Or.inr (List.mem_singleton.mp hmem)
  refine ⟨⟨?_, ?_, ?_, ?_, ?_, ?_, ?_⟩, ?_, rfl, ?_, fun _ _ _ ↦ rfl⟩
  · change ((s.queue ++ [(blockId, s.nextArc)]).map Prod.fst).Nodup
    rw [List.map_append, List.map_singleton, List.nodup_append]
    refine ⟨h.ids, List.nodup_singleton _, fun i hi j hj heq ↦ hid ?_⟩
    rwa [heq, List.mem_singleton.mp hj] at hi
  · change ((s.queue ++ [(blockId, s.nextArc)]).map Prod.snd).Nodup
    rw [List.map_append, List.map_singleton, List.nodup_append]
    refine ⟨h.arcs, List.nodup_singleton _, fun a ha a' ha' heq ↦ ?_⟩
    obtain ⟨pair, hpair, rfl⟩ := List.mem_map.mp ha
    exact (h.old pair hpair).ne (heq.trans (List.mem_singleton.mp ha'))
  · intro pair hpair
    rcases hlast hpair with hmem | rfl
    · obtain ⟨b, hb, hid⟩ := h.blocks pair hmem
      exact ⟨b, (h.arcs_loaded hmem).trans hb, hid⟩
    · exact ⟨_, Function.update_self _ _ _, rfl⟩
  · intro a ha
    change a ∈ (s.queue ++ [(blockId, s.nextArc)]).map Prod.snd
    rw [List.map_append, List.mem_append]
    rcases List.mem_cons.mp ha with rfl | ha
    · exact Or.inr (List.mem_singleton.mpr rfl)
    · exact Or.inl (h.held a ha)
  · intro pair hpair
    rcases hlast hpair with hmem | rfl
    · exact (h.old pair hmem).trans (Nat.lt_succ_self _)
    · exact Nat.lt_succ_self _
  · change (s.queue ++ [(blockId, s.nextArc)]).length ≤ blockCacheSize
    rw [List.length_append, List.length_singleton]
    exact hshort
  · rw [hwriteBack]
    exact h.coherent.load _
  · funext dev' i
    rw [content, hwriteBack, WriteBack.content_load hline]
    rfl
  · rintro a dev' i - ⟨hmem, b, hb, hdev⟩
    exact ⟨List.mem_append_left _ hmem, b, (h.arcs_loaded hmem).trans hb, hdev⟩

/-- What getting a block does: there is one more handle, to the entry of the block id. -/
structure Got (dev : DeviceId) (blockId arc : ℕ) (s s' : Storage) : Prop where
  keeps : s.Keeps s'
  handles : s'.handles = arc :: s.handles
  arcs : ∀ a ∈ s.handles, s'.arcs a = s.arcs a
  holds : ∃ b, s'.Holds arc b.blockDevice blockId ∧
    (b.blockDevice = dev ∨ s.entry blockId = some b)

theorem getBlockCache_got (h : s.Wf) (hret : (getBlockCache blockId dev).Returns s arc s') :
    Got dev blockId arc s s' := by
  obtain ⟨t, u, ht, hbody⟩ := returns_bind.mp hret
  clear hret
  obtain ⟨rfl, rfl⟩ := returns_get.mp ht
  split at hbody
  · next pair hfind =>
    obtain ⟨v, s₁, hmodify, hpure⟩ := returns_bind.mp hbody
    obtain ⟨rfl, rfl⟩ := returns_pure.mp hpure
    obtain rfl := returns_modify.mp hmodify
    have hmem := List.mem_of_find?_eq_some hfind
    have hid : pair.1 = blockId := by simpa using List.find?_some hfind
    have hin : (blockId, pair.2) ∈ u.queue := by
      rw [← hid]
      exact hmem
    obtain ⟨b, hb, -⟩ := h.blocks pair hmem
    have hheld : ∀ a ∈ pair.2 :: u.handles, a ∈ u.queue.map Prod.snd := by
      intro a ha
      rcases List.mem_cons.mp ha with rfl | ha
      · exact List.mem_map_of_mem hmem
      · exact h.held a ha
    refine ⟨⟨h.of_handles hheld, rfl, rfl, fun _ hholds ↦ hholds, fun _ _ _ ↦ rfl⟩, rfl, fun _ _ ↦ rfl, b,
      ⟨hin, b, hb, rfl⟩, Or.inr ?_⟩
    rw [h.entry_of_mem hin, hb]
  · next hfind =>
    obtain ⟨v, s₁, hsub, hbody⟩ := returns_bind.mp hbody
    obtain ⟨hkeeps, hhandles, harcs, hshort, hsubset⟩ := substitute_keeps h hsub
    have hnone : s₁.entry blockId = none := by
      rw [hkeeps.wf.entry_eq_none_iff]
      intro hin
      obtain ⟨pair, hpair, hid⟩ := List.mem_map.mp hin
      exact List.find?_eq_none.mp hfind pair (hsubset hpair) (by simpa using hid)
    have hloaded := hkeeps.wf.loaded hnone hshort dev
    obtain ⟨a, s₂, hnew, hpush⟩ := returns_bind.mp hbody
    obtain ⟨rfl, rfl⟩ := new_returns.mp hnew
    obtain ⟨x, s₃, hset, hpure⟩ := returns_bind.mp hpush
    obtain ⟨rfl, rfl⟩ := returns_pure.mp hpure
    obtain rfl := returns_modify.mp hset
    refine ⟨hkeeps.trans hhandles hloaded, congrArg _ hhandles, fun a ha ↦ ?_,
      { cache := s₁.device dev blockId, blockId, blockDevice := dev, modified := false },
      ⟨List.mem_append_right _ (List.mem_singleton.mpr rfl), _, Function.update_self _ _ _, rfl⟩,
      Or.inl rfl⟩
    obtain ⟨pair, hpair, rfl⟩ := List.mem_map.mp (hkeeps.wf.held a (hhandles.symm ▸ ha))
    exact (hkeeps.wf.arcs_loaded hpair).trans (harcs _ ha)

/-- There is room for a block as long as fewer than 16 blocks are held. -/
theorem getBlockCache_returns (h : s.Wf) (hroom : s.handles.dedup.length < blockCacheSize)
    (blockId : ℕ) (dev : DeviceId) : ∃ arc s', (getBlockCache blockId dev).Returns s arc s' := by
  rcases hfind : s.queue.find? fun pair ↦ decide (pair.1 = blockId) with _ | pair
  · obtain ⟨s₁, hs₁⟩ := substitute_returns h hroom
    refine ⟨s₁.nextArc, s₁.loaded dev blockId, (returns_get.mpr ⟨rfl, rfl⟩).bind ?_⟩
    rw [hfind]
    exact hs₁.bind ((new_returns.mpr ⟨rfl, rfl⟩).bind
      ((returns_modify (u := ()).mpr rfl).bind (returns_pure.mpr ⟨rfl, rfl⟩)))
  · refine ⟨pair.2, { s with handles := pair.2 :: s.handles },
      (returns_get.mpr ⟨rfl, rfl⟩).bind ?_⟩
    rw [hfind]
    exact (returns_modify (u := ()).mpr rfl).bind (returns_pure.mpr ⟨rfl, rfl⟩)

/-! ## Using a block -/

theorem getRef_returns {T : Type} {L : ByteLayout T} {off : ℕ} {v : T} (h : s.Wf)
    (hholds : s.Holds arc dev blockId) :
    (BlockCache.getRef L off arc).Returns s v s' ↔
      off + L.size ≤ blockSz ∧ v = L.read off (s.content dev blockId) ∧ s' = s := by
  obtain ⟨hmem, b, hb, rfl⟩ := hholds
  rw [h.content_of_arc hmem hb]
  simp [BlockCache.getRef, cached, hb, and_assoc]

theorem getMut_returns {T : Type} {L : ByteLayout T} {off : ℕ} {v : T} (h : s.Wf)
    (hmem : (blockId, arc) ∈ s.queue) (harc : s.arcs arc = some b) :
    (BlockCache.getMut L off arc).Returns s v s' ↔
      off + L.size ≤ blockSz ∧ v = L.read off (s.content b.blockDevice blockId) ∧
        s' = s.setArc arc (some { b with modified := true }) := by
  rw [h.content_of_arc hmem harc]
  simp [BlockCache.getMut, cached, harc, and_assoc]

theorem putMut_returns {T : Type} {L : ByteLayout T} {off : ℕ} {v : T} {u : Unit}
    (harc : s.arcs arc = some b) :
    (BlockCache.putMut L off arc v).Returns s u s' ↔
      s' = s.setArc arc (some { b with cache := L.write off v b.cache }) := by
  simp [BlockCache.putMut, cached, harc]

/-- The contents with one block replaced. -/
def setBlock (content : DeviceId → ℕ → Block) (dev : DeviceId) (blockId : ℕ) (v : Block) :
    DeviceId → ℕ → Block :=
  Function.update content dev (Function.update (content dev) blockId v)

theorem setBlock_eq_self (content : DeviceId → ℕ → Block) (dev : DeviceId) (blockId : ℕ) :
    setBlock content dev blockId (content dev blockId) = content := by
  rw [setBlock, Function.update_eq_self, Function.update_eq_self]

/-- **Writing to a cached block** that is marked as modified. -/
theorem Wf.put (h : s.Wf) (hmem : (blockId, arc) ∈ s.queue) (harc : s.arcs arc = some b) (v : Block) :
    let s' := s.setArc arc (some { b with cache := v, modified := true })
    s'.Wf ∧ s'.content = setBlock s.content b.blockDevice blockId v ∧
      ∀ {a d i}, s.Holds a d i → s'.Holds a d i := by
  obtain ⟨b', hb', hid⟩ := h.blocks _ hmem
  obtain rfl : b = b' := Option.some.inj (harc.symm.trans hb')
  have hentry : s.entry blockId = some b := h.entry_eq_some_iff.mpr ⟨arc, hmem, harc⟩
  have hwriteBack : (s.setArc arc (some { b with cache := v, modified := true })).writeBack =
      s.writeBack.write (b.blockDevice, blockId) v := by
    rw [writeBack, h.entry_setArc hmem]
    exact lines_write hentry v
  refine ⟨h.setArc (b := { b with cache := v, modified := true }) hmem hid s.device ?_, ?_,
    fun hholds ↦ hholds.setArc (fun b' hb' ↦ ?_) s.device⟩
  · rw [lines_write hentry]
    exact h.coherent.write _ _
  · funext d i
    rw [content, hwriteBack, WriteBack.content_write, setBlock]
    by_cases hd : d = b.blockDevice
    · subst hd
      rw [Function.update_self]
      by_cases hi : i = blockId
      · subst hi
        rw [Function.update_self, Function.update_self]
      · have hk : (b.blockDevice, i) ≠ (b.blockDevice, blockId) := by simpa using hi
        rw [Function.update_of_ne hi, Function.update_of_ne hk]
        rfl
    · have hk : (d, i) ≠ (b.blockDevice, blockId) := by simp [hd]
      rw [Function.update_of_ne hd, Function.update_of_ne hk]
      rfl
  · rw [Option.some.inj (harc.symm.trans hb')]

/-- Taking a block for modification leaves it as it is. -/
theorem Wf.mark (h : s.Wf) (hmem : (blockId, arc) ∈ s.queue) (harc : s.arcs arc = some b) :
    s.Keeps (s.setArc arc (some { b with modified := true })) := by
  have hput := h.put hmem harc b.cache
  refine ⟨hput.1, ?_, rfl, fun _ hholds ↦ hput.2.2 hholds, fun _ _ _ ↦ rfl⟩
  rw [hput.2.1, ← h.content_of_arc hmem harc, setBlock_eq_self]

/-- A handle that goes away does not take its block with it. -/
theorem dropHandle_returns (h : s.Wf) (harc : arc ∈ s.handles) {u : Unit} :
    (dropHandle arc).Returns s u s' ↔ s' = { s with handles := s.handles.erase arc } := by
  have hcount : ({ s with handles := s.handles.erase arc } : Storage).strongCount arc ≠ 0 := by
    have hq : (s.queue.map Prod.snd).count arc = 1 :=
      List.count_eq_one_of_mem h.arcs (h.held arc harc)
    change (s.queue.map Prod.snd).count arc + (s.handles.erase arc).count arc ≠ 0
    omega
  simp [dropHandle, releaseArc, hcount]

theorem Wf.dropHandle_keeps (h : s.Wf) (arc : ℕ) :
    s.Keeps { s with handles := s.handles.erase arc } :=
  ⟨h.of_handles fun a ha ↦ h.held a (List.mem_of_mem_erase ha), rfl, rfl, fun _ hholds ↦ hholds,
    fun _ _ _ ↦ rfl⟩

/-- The storage while a block is locked. -/
def inUse (s : Storage) (arc : ℕ) : Storage :=
  { s with locked := arc :: s.locked, uses := s.use arc :: s.uses }

theorem lock_returns {u : Unit} :
    (lock arc).Returns s u s' ↔ arc ∉ s.locked ∧ s' = s.inUse arc := by
  simp [lock, inUse]

theorem unlock_returns {u : Unit} :
    (unlock arc).Returns s u s' ↔ s' = { s with locked := s.locked.erase arc } := by
  simp [unlock]

theorem Wf.inUse (h : s.Wf) (arc : ℕ) : (s.inUse arc).Wf := h.of_locked _ _

/-- The storage after a block was locked and unlocked again. -/
def recorded (s : Storage) (arc : ℕ) : Storage := { s with uses := s.use arc :: s.uses }

theorem Wf.recorded (h : s.Wf) (arc : ℕ) : (s.recorded arc).Wf := h.of_locked _ _

theorem withLock_returns {α : Type} {x : Exec Storage α} {v : α} :
    (withLock arc x).Returns s v s' ↔ arc ∉ s.locked ∧
      ∃ t, x.Returns (s.inUse arc) v t ∧ s' = { t with locked := t.locked.erase arc } := by
  simp only [withLock, returns_bind, lock_returns, unlock_returns, returns_pure]
  constructor
  · rintro ⟨_, _, ⟨hlock, rfl⟩, v, t, ht, -, _, rfl, rfl, rfl⟩
    exact ⟨hlock, t, ht, rfl⟩
  · rintro ⟨hlock, t, ht, rfl⟩
    exact ⟨(), _, ⟨hlock, rfl⟩, v, t, ht, (), _, rfl, rfl, rfl⟩

/-! ## Syncing all blocks -/

/-- One entry of the queue after the other is synced, while nothing is locked. -/
theorem syncEntries_spec {queue : List (ℕ × ℕ)} (h : s.Wf) (hlocked : s.locked = [])
    (hsub : queue ⊆ s.queue) :
    ∃ s', (syncEntries queue).Returns s () s' ∧ s.Keeps s' ∧ s'.queue = s.queue ∧
      s'.handles = s.handles ∧
      ∀ arc b, s'.arcs arc = some b →
        arc ∈ queue.map Prod.snd ∨ (∀ b₀, s.arcs arc = some b₀ → b₀.modified = false) →
        b.modified = false := by
  induction queue generalizing s with
  | nil =>
    refine ⟨s, returns_pure.mpr ⟨rfl, rfl⟩, h.keeps, rfl, rfl, fun arc b hb hor ↦ ?_⟩
    exact hor.elim (fun hin ↦ absurd hin (List.not_mem_nil)) fun hclean ↦ hclean b hb
  | cons pair queue ih =>
    have hmem : pair ∈ s.queue := hsub List.mem_cons_self
    obtain ⟨s₁, hs₁, hkeeps, hqueue, hhandles, hclean, hother⟩ :=
      sync_spec (h.inUse pair.2) (show (pair.1, pair.2) ∈ _ from hmem)
    have hwf : ({ s₁ with locked := [] } : Storage).Wf := hkeeps.wf.of_locked [] _
    obtain ⟨s₂, hs₂, hkeeps₂, hqueue₂, hhandles₂, hclean₂⟩ := ih hwf rfl
      (by rw [hqueue]; exact fun p hp ↦ hsub (List.mem_cons_of_mem _ hp))
    have hlock : (lock pair.2).Returns s () (s.inUse pair.2) :=
      lock_returns.mpr ⟨by simp [hlocked], rfl⟩
    have hunlock : (unlock pair.2).Returns s₁ () { s₁ with locked := [] } :=
      unlock_returns.mpr (by rw [hkeeps.locked, inUse, hlocked, List.erase_cons_head])
    refine ⟨s₂, hlock.bind (hs₁.bind (hunlock.bind hs₂)), ?_, hqueue₂.trans hqueue,
      hhandles₂.trans hhandles, fun arc b hb hor ↦ ?_⟩
    · refine ⟨hkeeps₂.wf, hkeeps₂.content.trans hkeeps.content, ?_, fun harc hholds ↦ ?_,
        fun dev i hi ↦ ?_⟩
      · rw [hkeeps₂.locked, hlocked]
      · exact hkeeps₂.holds (hhandles.symm ▸ harc) (hkeeps.holds harc hholds)
      · have hfirst : s₁.device dev i = s.device dev i := hkeeps.device dev i hi
        have hsettled : s₁.device dev i = s₁.content dev i := by
          rw [hfirst, hkeeps.content]
          exact hi
        exact (hkeeps₂.device dev i hsettled).trans hfirst
    · refine hclean₂ arc b hb ?_
      by_cases harc : arc = pair.2
      · exact Or.inr fun b₀ hb₀ ↦ hclean b₀ (harc ▸ hb₀)
      · rcases hor with hin | hwas
        · rw [List.map_cons, List.mem_cons] at hin
          exact Or.inl (hin.resolve_left harc)
        · exact Or.inr fun b₀ hb₀ ↦ hwas b₀ ((hother arc harc).symm.trans hb₀)

/-- **After a sync the devices hold every content.** -/
theorem blockCacheSyncAll_spec (h : s.Wf) (hlocked : s.locked = []) :
    ∃ s', blockCacheSyncAll.Returns s () s' ∧ s.Keeps s' ∧ s'.handles = s.handles ∧
      s'.writeBack.Synced := by
  obtain ⟨s', hs', hkeeps, hqueue, hhandles, hclean⟩ :=
    syncEntries_spec h hlocked (List.Subset.refl s.queue)
  refine ⟨s', (returns_get.mpr ⟨rfl, rfl⟩).bind hs', hkeeps, hhandles, fun k v m hline ↦ ?_⟩
  simp only [writeBack, lines, Option.map_eq_some_iff, Option.filter_eq_some_iff] at hline
  obtain ⟨b, ⟨hentry, -⟩, heq⟩ := hline
  obtain ⟨arc, hmem, harc⟩ := hkeeps.wf.entry_eq_some_iff.mp hentry
  have hmodified := hclean arc b harc (Or.inl (hqueue ▸ List.mem_map_of_mem hmem))
  rw [← hmodified]
  exact (congrArg Prod.snd heq).symm

/-- When the blocks in memory are synced, so are the contents of the devices. -/
theorem Wf.device_eq_content (h : s.Wf) (hsynced : s.writeBack.Synced) : s.device = s.content := by
  funext dev blockId
  exact h.coherent.backing_eq hsynced (dev, blockId)

end Storage

end AgentOS.Fs
