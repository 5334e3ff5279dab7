import Mathlib
import AgentOS.Fs.CacheCalls

/-!
# Programs over the blocks of a device

The file system reads and writes the blocks of its device through the block cache, one block inside of
another where it has to. What such a program does is said by `Does`: from the contents of the blocks it
comes to a value and other contents. Nothing of the cache is left in it but the list of the blocks in use,
because a block must not be used twice at a time and only so many fit in the cache. How many may be in use at
a time is a parameter, so that the programs of the file system can be shown to need fewer than there are.
-/

namespace AgentOS.Fs

open Exec

variable {T V : Type}

/-- `get_block_cache(..).lock().read(offset, f)` -/
def readBlock (dev : DeviceId) (blockId : ℕ) (L : ByteLayout T) (offset : ℕ)
    (f : T → Exec Storage V) : Exec Storage V := do
  let arc ← getBlockCache blockId dev
  let v ← withLock arc (BlockCache.read L offset arc f)
  dropHandle arc
  pure v

/-- `get_block_cache(..).lock().modify(offset, f)` -/
def modifyBlock (dev : DeviceId) (blockId : ℕ) (L : ByteLayout T) (offset : ℕ)
    (f : T → Exec Storage (V × T)) : Exec Storage V := do
  let arc ← getBlockCache blockId dev
  let v ← withLock arc (BlockCache.modify L offset arc f)
  dropHandle arc
  pure v

/-- The storage holds the contents `m` of a device. The blocks of `used` are locked, each with whether it is
being modified, and nothing else is held. -/
structure View (dev : DeviceId) (used : List (ℕ × Bool)) (m : ℕ → Block) (s : Storage) : Prop where
  wf : s.Wf
  only : s.OnlyDevice dev
  content : s.content dev = m
  handles : s.handles = s.locked
  blocks : List.Forall₂ (fun arc u ↦ (u.1, arc) ∈ s.queue ∧
    ∃ b, s.arcs arc = some b ∧ (u.2 = true → b.modified = true)) s.locked used

/-! ## What is locked -/

/-- What may be locked, and when. -/
class LockRule where
  Allows : Use → Prop

/-- How many cached blocks a program may hold at a time. -/
class HeldLimit where
  limit : ℕ
  limit_le : limit ≤ blockCacheSize

/-- As many as fit in the cache. -/
@[reducible] def wholeCache : HeldLimit := ⟨blockCacheSize, le_rfl⟩

/-- The block of an inode, the one with its indirect blocks, and one more. -/
@[reducible] def threeHeld : HeldLimit := ⟨3, by decide⟩

@[simp] theorem limit_threeHeld : threeHeld.limit = 3 := rfl

/-- No block that is locked already, and as many cached blocks as the limit says. -/
instance [HeldLimit] : LockRule := ⟨fun u ↦ u.block ∉ u.held ∧ u.entries ≤ HeldLimit.limit⟩

/-- Everything that is locked between two storages has a property. -/
def Locks (P : Use → Prop) (s s' : Storage) : Prop := ∃ new, s'.uses = new ++ s.uses ∧ ∀ u ∈ new, P u

namespace Locks

variable {P Q : Use → Prop} {s s' s'' : Storage}

theorem of_eq (h : s'.uses = s.uses) : Locks P s s' := ⟨[], h, nofun⟩

theorem single {u : Use} (h : s'.uses = u :: s.uses) (hu : P u) : Locks P s s' :=
  ⟨[u], h, fun _ hmem ↦ List.mem_singleton.mp hmem ▸ hu⟩

theorem trans (h : Locks P s s') (h' : Locks P s' s'') : Locks P s s'' := by
  obtain ⟨new, huses, hnew⟩ := h
  obtain ⟨new', huses', hnew'⟩ := h'
  refine ⟨new' ++ new, by rw [huses', huses, List.append_assoc], fun u hu ↦ ?_⟩
  rcases List.mem_append.mp hu with hu | hu
  · exact hnew' u hu
  · exact hnew u hu

theorem mono (h : Locks P s s') (himp : ∀ u, P u → Q u) : Locks Q s s' := by
  obtain ⟨new, huses, hnew⟩ := h
  exact ⟨new, huses, fun u hu ↦ himp u (hnew u hu)⟩

end Locks

/-- From one storage to the other no block is locked that is locked already, and at most so many cached blocks
are held when one is. -/
abbrev HoldsAtMost (limit : ℕ) : Storage → Storage → Prop :=
  Locks fun u ↦ u.block ∉ u.held ∧ u.entries ≤ limit

theorem HoldsAtMost.mono {limit limit' : ℕ} {s s' : Storage} (h : HoldsAtMost limit s s')
    (hle : limit ≤ limit') : HoldsAtMost limit' s s' :=
  Locks.mono h fun _ hu ↦ ⟨hu.1, hu.2.trans hle⟩

/-- The use of a block that is not in use, when so many others are. -/
structure Use.Of (blockId n : ℕ) (u : Use) : Prop where
  block : u.block = some blockId
  apart : u.block ∉ u.held
  entries : u.entries = n + 1

/-- With some blocks in use another one can be locked, and may be. -/
structure Lockable [LockRule] (used : List (ℕ × Bool)) (blockId : ℕ) : Prop where
  apart : blockId ∉ used.map Prod.fst
  room : used.length < blockCacheSize
  allowed : ∀ u : Use, u.Of blockId used.length → LockRule.Allows u

theorem lockable_of_limit [HeldLimit] {used : List (ℕ × Bool)} {blockId : ℕ}
    (hid : blockId ∉ used.map Prod.fst) (hroom : used.length < HeldLimit.limit) : Lockable used blockId where
  apart := hid
  room := hroom.trans_le HeldLimit.limit_le
  allowed u hu := ⟨hu.apart, by rw [hu.entries]; exact hroom⟩

/-- Nothing is locked. -/
def SameUses (s s' : Storage) : Prop := s'.uses = s.uses

instance : Std.Refl SameUses := ⟨fun _ ↦ rfl⟩

instance : IsTrans Storage SameUses := ⟨fun _ _ _ h h' ↦ h'.trans h⟩

/-- And nothing is got or given back. -/
def SameHolding (s s' : Storage) : Prop := SameUses s s' ∧ s'.handles = s.handles ∧ s'.locked = s.locked

instance : Std.Refl SameHolding := ⟨fun _ ↦ ⟨rfl, rfl, rfl⟩⟩

instance : IsTrans Storage SameHolding :=
  ⟨fun _ _ _ h h' ↦ ⟨h'.1.trans h.1, h'.2.1.trans h.2.1, h'.2.2.trans h.2.2⟩⟩

theorem keeps_sync (arc : ℕ) : Keeps SameHolding (BlockCache.sync arc) :=
  keeps_bind (keeps_bind keeps_get fun _ ↦ keeps_unwrap _) fun _ ↦
    keeps_ite (keeps_bind (keeps_modify fun _ ↦ ⟨rfl, rfl, rfl⟩) fun _ ↦ keeps_modify fun _ ↦ ⟨rfl, rfl, rfl⟩)
      (keeps_pure _)

theorem keeps_cached (arc : ℕ) : Keeps SameUses (cached arc) :=
  keeps_bind keeps_get fun _ ↦ keeps_unwrap _

theorem keeps_getBlockCache (blockId : ℕ) (dev : DeviceId) : Keeps SameUses (getBlockCache blockId dev) := by
  refine keeps_bind keeps_get fun s ↦ ?_
  split
  · exact keeps_bind (keeps_modify fun _ ↦ rfl) fun _ ↦ keeps_pure _
  · refine keeps_bind ?_ fun _ ↦ keeps_bind ?_ fun _ ↦
      keeps_bind (keeps_modify fun _ ↦ rfl) fun _ ↦ keeps_pure _
    · refine keeps_bind keeps_get fun s ↦ keeps_ite ?_ (keeps_pure _)
      split
      · refine keeps_bind (keeps_modify fun _ ↦ rfl) fun _ ↦ keeps_bind keeps_get fun _ ↦ ?_
        exact keeps_ite (keeps_bind (fun s u s' h ↦ (keeps_sync _ s u s' h).1) fun _ ↦
          keeps_modify fun _ ↦ rfl) (keeps_pure _)
      · exact keeps_panic
    · exact keeps_bind keeps_get fun _ ↦ keeps_bind (keeps_modify fun _ ↦ rfl) fun _ ↦ keeps_pure _

theorem keeps_getMut (L : ByteLayout T) (offset arc : ℕ) : Keeps SameUses (BlockCache.getMut L offset arc) :=
  keeps_bind (keeps_assert _) fun _ ↦ keeps_bind (keeps_cached arc) fun _ ↦
    keeps_bind (keeps_modify fun _ ↦ rfl) fun _ ↦ keeps_pure _

/-- When nothing is locked a sync locks one block after the other. -/
theorem holdsAtMost_syncEntries {queue : List (ℕ × ℕ)} {s s' : Storage} {u : Unit} (hlocked : s.locked = [])
    (h : (syncEntries queue).Returns s u s') : HoldsAtMost s.handles.length s s' := by
  induction queue generalizing s with
  | nil =>
    obtain ⟨-, rfl⟩ := returns_pure.mp h
    exact .of_eq rfl
  | cons pair queue ih =>
    obtain ⟨_, s₁, hlock, hrest⟩ := returns_bind.mp h
    obtain ⟨-, rfl⟩ := Storage.lock_returns.mp hlock
    obtain ⟨_, s₂, hsync, hrest⟩ := returns_bind.mp hrest
    obtain ⟨_, s₃, hunlock, hrest⟩ := returns_bind.mp hrest
    obtain rfl := Storage.unlock_returns.mp hunlock
    obtain ⟨huses, hhandles, hlocked₂⟩ := keeps_sync _ _ _ _ hsync
    have hfirst : HoldsAtMost s.handles.length s { s₂ with locked := s₂.locked.erase pair.2 } := by
      refine .single (u := s.use pair.2) huses ?_
      rw [Storage.use, hlocked]
      exact ⟨List.not_mem_nil, le_rfl⟩
    have hlater := ih (s := { s₂ with locked := s₂.locked.erase pair.2 })
      (by rw [hlocked₂, Storage.inUse, hlocked, List.erase_cons_head]) hrest
    rw [show ({ s₂ with locked := s₂.locked.erase pair.2 } : Storage).handles = s.handles from hhandles] at hlater
    exact hfirst.trans hlater

theorem keeps_putMut (L : ByteLayout T) (offset arc : ℕ) (v : T) :
    Keeps SameUses (BlockCache.putMut L offset arc v) :=
  keeps_bind (keeps_cached arc) fun _ ↦ keeps_modify fun _ ↦ rfl

/-! ## Programs -/

section Rules

variable [LockRule]

/-- From the contents `m` the program comes to the value `v` and the contents `m'`. -/
def Does (dev : DeviceId) (x : Exec Storage V) (used : List (ℕ × Bool)) (m : ℕ → Block) (v : V)
    (m' : ℕ → Block) : Prop :=
  ∀ s, View dev used m s → ∃ s', x.Returns s v s' ∧ View dev used m' s' ∧ s'.locked = s.locked ∧
    Locks LockRule.Allows s s'

/-- The program comes to the value `v` and leaves the contents as they are, on the device too when it holds
them already. -/
def Reads (dev : DeviceId) (x : Exec Storage V) (used : List (ℕ × Bool)) (m : ℕ → Block) (v : V) : Prop :=
  ∀ s, View dev used m s → ∃ s', x.Returns s v s' ∧ View dev used m s' ∧ s'.locked = s.locked ∧
    Locks LockRule.Allows s s' ∧ (s.device dev = m → s'.device dev = m)

/-- From the contents `m` the program does not return. -/
def Stops (dev : DeviceId) (x : Exec Storage V) (used : List (ℕ × Bool)) (m : ℕ → Block) : Prop :=
  ∀ s, View dev used m s → ∀ v s', ¬x.Returns s v s'

variable {D : DeviceId} {used : List (ℕ × Bool)} {m m₁ m' : ℕ → Block} {W : Type}

theorem does_pure (v : V) : Does D (pure v) used m v m :=
  fun s hs ↦ ⟨s, returns_pure.mpr ⟨rfl, rfl⟩, hs, rfl, .of_eq rfl⟩

theorem Does.bind {x : Exec Storage V} {f : V → Exec Storage W} {v : V} {w : W}
    (hx : Does D x used m v m₁) (hf : Does D (f v) used m₁ w m') :
    Does D (x >>= f) used m w m' := by
  intro s hs
  obtain ⟨t, ht, hview, hlocked, hholds⟩ := hx s hs
  obtain ⟨s', hs', hview', hlocked', hholds'⟩ := hf t hview
  exact ⟨s', ht.bind hs', hview', hlocked'.trans hlocked, hholds.trans hholds'⟩

theorem does_assert {p : Prop} [Decidable p] (h : p) : Does D (assert p) used m () m :=
  fun s hs ↦ ⟨s, returns_assert_of h s, hs, rfl, .of_eq rfl⟩

theorem does_unwrap {o : Option V} {v : V} (h : o = some v) : Does D (unwrap o) used m v m :=
  fun s hs ↦ ⟨s, returns_unwrap.mpr ⟨h, rfl⟩, hs, rfl, .of_eq rfl⟩

theorem Reads.does {x : Exec Storage V} {v : V} (h : Reads D x used m v) : Does D x used m v m := by
  intro s hs
  obtain ⟨s', hret, hview, hlocked, hholds, -⟩ := h s hs
  exact ⟨s', hret, hview, hlocked, hholds⟩

theorem reads_pure (v : V) : Reads D (pure v) used m v :=
  fun s hs ↦ ⟨s, returns_pure.mpr ⟨rfl, rfl⟩, hs, rfl, .of_eq rfl, id⟩

theorem Reads.bind {x : Exec Storage V} {f : V → Exec Storage W} {v : V} {w : W}
    (hx : Reads D x used m v) (hf : Reads D (f v) used m w) : Reads D (x >>= f) used m w := by
  intro s hs
  obtain ⟨t, ht, hview, hlocked, hholds, hdevice⟩ := hx s hs
  obtain ⟨s', hs', hview', hlocked', hholds', hdevice'⟩ := hf t hview
  exact ⟨s', ht.bind hs', hview', hlocked'.trans hlocked, hholds.trans hholds', fun h ↦ hdevice' (hdevice h)⟩

theorem reads_assert {p : Prop} [Decidable p] (h : p) : Reads D (assert p) used m () :=
  fun s hs ↦ ⟨s, returns_assert_of h s, hs, rfl, .of_eq rfl, id⟩

theorem reads_unwrap {o : Option V} {v : V} (h : o = some v) : Reads D (unwrap o) used m v :=
  fun s hs ↦ ⟨s, returns_unwrap.mpr ⟨h, rfl⟩, hs, rfl, .of_eq rfl, id⟩

theorem Does.stops_bind {x : Exec Storage V} {f : V → Exec Storage W} {v : V}
    (hx : Does D x used m v m₁) (hf : Stops D (f v) used m₁) : Stops D (x >>= f) used m := by
  intro s hs w s' hret
  obtain ⟨t, ht, hview, -⟩ := hx s hs
  obtain ⟨v', t', ht', hret'⟩ := returns_bind.mp hret
  obtain ⟨rfl, rfl⟩ := ht'.det ht
  exact hf t' hview w s' hret'

omit [LockRule] in
theorem Stops.bind {x : Exec Storage V} (hx : Stops D x used m) (f : V → Exec Storage W) :
    Stops D (x >>= f) used m := by
  intro s hs w s' hret
  obtain ⟨v, t, ht, -⟩ := returns_bind.mp hret
  exact hx s hs v t ht

omit [LockRule] in
theorem stops_panic : Stops D (panic : Exec Storage V) used m :=
  fun _ _ _ _ hret ↦ returns_panic.mp hret

omit [LockRule] in
theorem stops_assert {p : Prop} [Decidable p] (h : ¬p) : Stops D (assert p) used m :=
  fun _ _ _ _ hret ↦ h (returns_assert.mp hret).1

omit [LockRule] in
theorem stops_unwrap {o : Option V} (h : o = none) : Stops D (unwrap o) used m := by
  intro s _ v s' hret
  rw [h] at hret
  exact absurd (returns_unwrap.mp hret).1 (by simp)

/-! ## Using a block -/

variable {blockId o : ℕ} {s : Storage}

omit [LockRule] in
/-- A block that is not in use can be got and locked. -/
theorem View.acquire (hview : View D used m s) (hid : blockId ∉ used.map Prod.fst)
    (hroom : used.length < blockCacheSize) :
    ∃ arc s', (getBlockCache blockId D).Returns s arc s' ∧ arc ∉ s'.locked ∧
      s'.locked = s.locked ∧ View D ((blockId, false) :: used) m (s'.inUse arc) ∧
      (∃ u, Use.Of blockId used.length u ∧ (s'.inUse arc).uses = u :: s.uses) ∧
      (s.device D = m → s'.device D = m) := by
  have hlength : s.locked.length = used.length := hview.blocks.length_eq
  obtain ⟨arc, s', hret⟩ := Storage.getBlockCache_returns hview.wf
    (((List.dedup_sublist s.handles).length_le).trans_lt
      (by rwa [hview.handles, hlength])) blockId D
  have hgot := Storage.getBlockCache_got hview.wf hret
  obtain ⟨b, ⟨hmem, b', hb', -⟩, -⟩ := hgot.holds
  have hused : List.Forall₂ (fun a u ↦ (u.1, a) ∈ s'.queue ∧
      ∃ b, s'.arcs a = some b ∧ (u.2 = true → b.modified = true)) s.locked used := by
    refine forall₂_imp hview.blocks fun a ha u hu ↦ ?_
    obtain ⟨hq, b, hb, hmod⟩ := hu
    have hhandle : a ∈ s.handles := hview.handles ▸ ha
    exact ⟨(hgot.keeps.holds hhandle ⟨hq, b, hb, rfl⟩).1, b, (hgot.arcs a hhandle).trans hb, hmod⟩
  -- what is locked are other blocks
  have hother : ∀ a ∈ s'.locked, s'.blockOf a ≠ s'.blockOf arc := by
    rw [hgot.keeps.locked]
    intro a ha heq
    obtain ⟨k, rfl⟩ := List.get_of_mem ha
    have hu := (List.forall₂_iff_get.mp hused).2 k k.2 (hlength ▸ k.2)
    obtain ⟨b, hb, hid'⟩ := hgot.keeps.wf.blocks _ hu.1
    rw [Storage.blockOf, Storage.blockOf, hb, hb', Option.map_some, Option.map_some, hid'] at heq
    obtain ⟨b₀, hb₀, hid₀⟩ := hgot.keeps.wf.blocks _ hmem
    obtain rfl := Option.some.inj (hb₀.symm.trans hb')
    have hmem' : (used.get ⟨k, hlength ▸ k.2⟩).1 ∈ used.map Prod.fst :=
      List.mem_map_of_mem (List.get_mem _ _)
    rw [Option.some.inj heq, hid₀] at hmem'
    exact hid hmem'
  have hlock : arc ∉ s'.locked := fun harc ↦ hother arc harc rfl
  have honly : s'.OnlyDevice D := hview.only.getBlockCache hret
  refine ⟨arc, s', hret, hlock, hgot.keeps.locked, ⟨hgot.keeps.wf.inUse arc, honly, ?_, ?_, ?_⟩, ?_, ?_⟩
  · rw [← hview.content, ← hgot.keeps.content]
    rfl
  · change s'.handles = arc :: s'.locked
    rw [hgot.handles, hgot.keeps.locked, hview.handles]
  · change List.Forall₂ _ (arc :: s'.locked) _
    rw [hgot.keeps.locked]
    exact List.Forall₂.cons ⟨hmem, b', hb', nofun⟩ hused
  · refine ⟨s'.use arc, ⟨?_, fun hheld ↦ ?_, ?_⟩, congrArg _ (keeps_getBlockCache _ _ _ _ _ hret)⟩
    · obtain ⟨b₀, hb₀, hid₀⟩ := hgot.keeps.wf.blocks _ hmem
      exact (congrArg (Option.map BlockCache.blockId) hb₀).trans (congrArg some hid₀)
    · obtain ⟨a, ha, heq⟩ := List.mem_map.mp hheld
      exact hother a ha heq
    · show s'.handles.length = _
      rw [hgot.handles, List.length_cons, hview.handles, hlength]
  · intro hdevice
    rw [← hdevice]
    exact funext fun i ↦ hgot.keeps.device D i (by rw [hdevice, hview.content])

omit [LockRule] in
/-- The block used last is given back. -/
theorem View.release {arc : ℕ} {arcs : List ℕ} {modifying : Bool}
    (hview : View D ((blockId, modifying) :: used) m s) (hlocked : s.locked = arc :: arcs) :
    ∃ s', (dropHandle arc).Returns { s with locked := s.locked.erase arc } () s' ∧
      View D used m s' ∧ s'.locked = arcs ∧ s'.uses = s.uses ∧ s'.device = s.device := by
  have hwf : ({ s with locked := s.locked.erase arc } : Storage).Wf := hview.wf.of_locked _ _
  have harc : arc ∈ s.handles := by
    rw [hview.handles, hlocked]
    exact List.mem_cons_self
  have hblocks := hview.blocks
  rw [hlocked, List.forall₂_cons] at hblocks
  have herase : s.locked.erase arc = arcs := by rw [hlocked, List.erase_cons_head]
  refine ⟨_, (Storage.dropHandle_returns hwf harc).mpr rfl,
    ⟨(hwf.dropHandle_keeps arc).wf, hview.only, ?_, ?_, ?_⟩, herase, rfl, rfl⟩
  · rw [← hview.content]
    rfl
  · change s.handles.erase arc = s.locked.erase arc
    rw [hview.handles]
  · change List.Forall₂ _ (s.locked.erase arc) _
    rw [herase]
    exact hblocks.2

/-- **Reading a block**: the closure gets what is in it, and does not use it again. -/
theorem reads_readBlock_of {L : ByteLayout T} {f : T → Exec Storage V} {v : V}
    (hlockable : Lockable used blockId) (hsize : o + L.size ≤ blockSz)
    (hf : Reads D (f (L.read o (m blockId))) ((blockId, false) :: used) m v) :
    Reads D (readBlock D blockId L o f) used m v := by
  intro s hview
  obtain ⟨arc, s₁, hget, hlock, hlocked, hview₁, ⟨u, hu, huses₁⟩, hdevice₁⟩ :=
    hview.acquire hlockable.apart hlockable.room
  obtain ⟨⟨hmem, b, hb, -⟩, -⟩ := List.forall₂_cons.mp (show List.Forall₂ _ (arc :: s₁.locked) _ from
    hview₁.blocks)
  have href : (BlockCache.getRef L o arc).Returns (s₁.inUse arc) (L.read o (m blockId))
      (s₁.inUse arc) := by
    refine (Storage.getRef_returns hview₁.wf ⟨hmem, b, hb, hview₁.only arc b hb⟩).mpr ⟨hsize, ?_, rfl⟩
    rw [hview₁.content]
  obtain ⟨s₂, hbody, hview₂, hlocked₂, hholds₂, hdevice₂⟩ := hf _ hview₁
  obtain ⟨s₃, hdrop, hview₃, hlocked₃, huses₃, hdevice₃⟩ := hview₂.release hlocked₂
  refine ⟨s₃, hget.bind (Returns.bind (Storage.withLock_returns.mpr ⟨hlock, s₂,
    href.bind hbody, rfl⟩) (hdrop.bind (returns_pure.mpr ⟨rfl, rfl⟩))), hview₃, ?_,
    ((Locks.single huses₁ (hlockable.allowed u hu)).trans hholds₂).trans (.of_eq huses₃), fun h ↦ ?_⟩
  · rw [hlocked₃, hlocked]
  · rw [hdevice₃]
    exact hdevice₂ (hdevice₁ h)

omit [LockRule] in
/-- `get_mut` marks the block used last as modified and leaves it as it is. -/
theorem View.mark {arc : ℕ} {arcs : List ℕ} {L : ByteLayout T}
    (hview : View D ((blockId, false) :: used) m s) (hlocked : s.locked = arc :: arcs)
    (hnew : arc ∉ arcs) (hsize : o + L.size ≤ blockSz) :
    ∃ s', (BlockCache.getMut L o arc).Returns s (L.read o (m blockId)) s' ∧
      View D ((blockId, true) :: used) m s' ∧ s'.locked = s.locked := by
  have hblocks := hview.blocks
  rw [hlocked, List.forall₂_cons] at hblocks
  obtain ⟨⟨hmem, b, hb, -⟩, hrest⟩ := hblocks
  have hdev : b.blockDevice = D := hview.only arc b hb
  have hmark := hview.wf.mark hmem hb
  refine ⟨_, (Storage.getMut_returns hview.wf hmem hb).mpr ⟨hsize, ?_, rfl⟩,
    ⟨hmark.wf, hview.only.setArc (b := { b with modified := true }) hdev arc, ?_, hview.handles, ?_⟩,
    rfl⟩
  · rw [hdev, hview.content]
  · rw [hmark.content, hview.content]
  · change List.Forall₂ _ s.locked _
    rw [hlocked]
    refine List.Forall₂.cons ⟨hmem, _, Function.update_self _ _ _, fun _ ↦ rfl⟩
      (forall₂_imp hrest fun a ha u hu ↦ ⟨hu.1, ?_⟩)
    obtain ⟨b', hb', hmod⟩ := hu.2
    have hne : a ≠ arc := by
      rintro rfl
      exact hnew ha
    exact ⟨b', (Function.update_of_ne hne _ _).trans hb', hmod⟩

omit [LockRule] in
/-- A write through the reference of `get_mut`. -/
theorem View.put {arc : ℕ} {arcs : List ℕ} {L : ByteLayout T}
    (hview : View D ((blockId, true) :: used) m s) (hlocked : s.locked = arc :: arcs)
    (hnew : arc ∉ arcs) (o : ℕ) (t : T) :
    ∃ s', (BlockCache.putMut L o arc t).Returns s () s' ∧
      View D ((blockId, true) :: used) (Function.update m blockId (L.write o t (m blockId))) s' ∧
      s'.locked = s.locked := by
  have hblocks := hview.blocks
  rw [hlocked, List.forall₂_cons] at hblocks
  obtain ⟨⟨hmem, b, hb, hmod⟩, hrest⟩ := hblocks
  have hdev : b.blockDevice = D := hview.only arc b hb
  have hcache : b.cache = m blockId := by
    rw [← hview.content, ← hdev, hview.wf.content_of_arc hmem hb]
  obtain ⟨hwf, hcontent, -⟩ := hview.wf.put hmem hb (L.write o t b.cache)
  refine ⟨s.setArc arc (some { b with cache := L.write o t b.cache, modified := true }), ?_,
    ⟨hwf, hview.only.setArc (b := { b with cache := _, modified := true }) hdev arc, ?_,
      hview.handles, ?_⟩, rfl⟩
  · rw [Storage.putMut_returns hb, hmod rfl]
  · rw [hcontent, hdev, Storage.setBlock, Function.update_self, hview.content, hcache]
  · change List.Forall₂ _ s.locked _
    rw [hlocked]
    refine List.Forall₂.cons ⟨hmem, _, Function.update_self _ _ _, fun _ ↦ rfl⟩
      (forall₂_imp hrest fun a ha u hu ↦ ⟨hu.1, ?_⟩)
    obtain ⟨b', hb', hmod⟩ := hu.2
    have hne : a ≠ arc := by
      rintro rfl
      exact hnew ha
    exact ⟨b', (Function.update_of_ne hne _ _).trans hb', hmod⟩

omit [LockRule] in
/-- How a closure over a block is run: the block is locked before it, and written and given back after it. -/
theorem View.modifyBlock (hview : View D used m s) {L : ByteLayout T} (f : T → Exec Storage (V × T))
    (hid : blockId ∉ used.map Prod.fst) (hroom : used.length < blockCacheSize) (hsize : o + L.size ≤ blockSz) :
    ∃ u s₂, Use.Of blockId used.length u ∧ s₂.uses = u :: s.uses ∧ View D ((blockId, true) :: used) m s₂ ∧
      ∀ v t m₁ s₃, (f (L.read o (m blockId))).Returns s₂ (v, t) s₃ →
        View D ((blockId, true) :: used) m₁ s₃ → s₃.locked = s₂.locked →
          ∃ s', (Fs.modifyBlock D blockId L o f).Returns s v s' ∧
            View D used (Function.update m₁ blockId (L.write o t (m₁ blockId))) s' ∧ s'.locked = s.locked ∧
              s'.uses = s₃.uses := by
  obtain ⟨arc, s₁, hget, hlock, hlocked, hview₁, ⟨u, hu, huses₁⟩, -⟩ := hview.acquire hid hroom
  obtain ⟨s₂, hmut, hview₂, hlocked₂⟩ := hview₁.mark (show _ = arc :: s₁.locked from rfl) hlock hsize
  have huses₂ : s₂.uses = u :: s.uses := (keeps_getMut _ _ _ _ _ _ hmut).trans huses₁
  refine ⟨u, s₂, hu, huses₂, hview₂, fun v t m₁ s₃ hbody hview₃ hlocked₃ ↦ ?_⟩
  have hlocked₃ : s₃.locked = arc :: s₁.locked := hlocked₃.trans hlocked₂
  obtain ⟨s₄, hput, hview₄, hlocked₄⟩ := hview₃.put hlocked₃ hlock o t
  obtain ⟨s₅, hdrop, hview₅, hlocked₅, huses₅, -⟩ := hview₄.release (hlocked₄.trans hlocked₃)
  refine ⟨s₅, hget.bind (Returns.bind (Storage.withLock_returns.mpr ⟨hlock, s₄,
    hmut.bind (hbody.bind (hput.bind (returns_pure.mpr ⟨rfl, rfl⟩))), rfl⟩)
    (hdrop.bind (returns_pure.mpr ⟨rfl, rfl⟩))), hview₅, ?_, ?_⟩
  · rw [hlocked₅, hlocked]
  · rw [huses₅]
    exact keeps_putMut _ _ _ _ _ _ _ hput

/-- **Modifying a block**: what the closure leaves behind the reference is in the block afterwards. -/
theorem does_modifyBlock_of {L : ByteLayout T} {f : T → Exec Storage (V × T)} {v : V} {t : T}
    (hlockable : Lockable used blockId) (hsize : o + L.size ≤ blockSz)
    (hf : Does D (f (L.read o (m blockId))) ((blockId, true) :: used) m (v, t) m₁) :
    Does D (modifyBlock D blockId L o f) used m v
      (Function.update m₁ blockId (L.write o t (m₁ blockId))) := by
  intro s hview
  obtain ⟨u, s₂, hu, huses, hview₂, hrun⟩ := hview.modifyBlock f hlockable.apart hlockable.room hsize
  obtain ⟨s₃, hbody, hview₃, hlocked₃, hlocks⟩ := hf s₂ hview₂
  obtain ⟨s', hret, hview', hlocked', huses'⟩ := hrun v t m₁ s₃ hbody hview₃ hlocked₃
  have hfirst : Locks LockRule.Allows s s₂ := .single huses (hlockable.allowed u hu)
  exact ⟨s', hret, hview', hlocked', (hfirst.trans hlocks).trans (.of_eq huses')⟩

omit [LockRule] in
/-- A closure that does not return keeps the reading of its block from returning. -/
theorem stops_readBlock {L : ByteLayout T} {f : T → Exec Storage V}
    (hid : blockId ∉ used.map Prod.fst) (hroom : used.length < blockCacheSize)
    (hf : Stops D (f (L.read o (m blockId))) ((blockId, false) :: used) m) :
    Stops D (readBlock D blockId L o f) used m := by
  intro s hview v s' hret
  obtain ⟨arc, s₁, hget, hlock, hlocked, hview₁, -⟩ := hview.acquire hid hroom
  obtain ⟨⟨hmem, b, hb, -⟩, -⟩ := List.forall₂_cons.mp (show List.Forall₂ _ (arc :: s₁.locked) _ from
    hview₁.blocks)
  obtain ⟨arc', s₁', hget', hrest⟩ := returns_bind.mp hret
  obtain ⟨rfl, rfl⟩ := hget'.det hget
  obtain ⟨w, s₂, hlocked₂, -⟩ := returns_bind.mp hrest
  obtain ⟨-, s₃, hread, -⟩ := Storage.withLock_returns.mp hlocked₂
  obtain ⟨t, s₄, href, hbody⟩ := returns_bind.mp hread
  obtain ⟨-, rfl, rfl⟩ := (Storage.getRef_returns hview₁.wf
    ⟨hmem, b, hb, hview₁.only _ b hb⟩).mp href
  rw [hview₁.content] at hbody
  exact hf _ hview₁ w s₃ hbody

omit [LockRule] in
theorem stops_modifyBlock {L : ByteLayout T} {f : T → Exec Storage (V × T)}
    (hid : blockId ∉ used.map Prod.fst) (hroom : used.length < blockCacheSize) (hsize : o + L.size ≤ blockSz)
    (hf : Stops D (f (L.read o (m blockId))) ((blockId, true) :: used) m) :
    Stops D (modifyBlock D blockId L o f) used m := by
  intro s hview v s' hret
  obtain ⟨arc, s₁, hget, hlock, hlocked, hview₁, -⟩ := hview.acquire hid hroom
  obtain ⟨s₂, hmut, hview₂, -⟩ := hview₁.mark (show _ = arc :: s₁.locked from rfl) hlock hsize
  obtain ⟨arc', s₁', hget', hrest⟩ := returns_bind.mp hret
  obtain ⟨rfl, rfl⟩ := hget'.det hget
  obtain ⟨w, t, hlocked₂, -⟩ := returns_bind.mp hrest
  obtain ⟨-, s₃, hmodify, -⟩ := Storage.withLock_returns.mp hlocked₂
  obtain ⟨t', s₄, hmut', hbody⟩ := returns_bind.mp hmodify
  obtain ⟨rfl, rfl⟩ := hmut'.det hmut
  obtain ⟨r, s₅, hf', -⟩ := returns_bind.mp hbody
  exact hf _ hview₂ r s₅ hf'

omit [LockRule] in
/-- When nothing is in use all blocks can be synced, and then the device holds the contents. -/
theorem View.syncAll (hview : View D [] m s) :
    ∃ s', blockCacheSyncAll.Returns s () s' ∧ View D [] m s' ∧ HoldsAtMost 0 s s' ∧ s'.device D = m := by
  have hlocked : s.locked = [] := List.length_eq_zero_iff.mp hview.blocks.length_eq
  obtain ⟨s', hs', hkeeps, hhandles, hsynced⟩ := Storage.blockCacheSyncAll_spec hview.wf hlocked
  obtain ⟨_, _, hget, hentries⟩ := returns_bind.mp hs'
  obtain ⟨rfl, rfl⟩ := returns_get.mp hget
  have hcontent : s'.content D = m := by rw [hkeeps.content, hview.content]
  have hholds := holdsAtMost_syncEntries hlocked hentries
  rw [hview.handles, hlocked] at hholds
  refine ⟨s', hs', ⟨hkeeps.wf, hview.only.syncEntries hentries, hcontent, ?_, ?_⟩, hholds, ?_⟩
  · rw [hhandles, hkeeps.locked, hview.handles]
  · rw [hkeeps.locked, hlocked]
    exact List.Forall₂.nil
  · rw [hkeeps.wf.device_eq_content hsynced, hcontent]

end Rules

section Limit

variable [HeldLimit] {D : DeviceId} {used : List (ℕ × Bool)} {m m₁ : ℕ → Block} {blockId o : ℕ} {L : ByteLayout T}

theorem reads_readBlock {f : T → Exec Storage V} {v : V} (hid : blockId ∉ used.map Prod.fst)
    (hroom : used.length < HeldLimit.limit) (hsize : o + L.size ≤ blockSz)
    (hf : Reads D (f (L.read o (m blockId))) ((blockId, false) :: used) m v) :
    Reads D (readBlock D blockId L o f) used m v :=
  reads_readBlock_of (lockable_of_limit hid hroom) hsize hf

theorem does_modifyBlock {f : T → Exec Storage (V × T)} {v : V} {t : T} (hid : blockId ∉ used.map Prod.fst)
    (hroom : used.length < HeldLimit.limit) (hsize : o + L.size ≤ blockSz)
    (hf : Does D (f (L.read o (m blockId))) ((blockId, true) :: used) m (v, t) m₁) :
    Does D (modifyBlock D blockId L o f) used m v
      (Function.update m₁ blockId (L.write o t (m₁ blockId))) :=
  does_modifyBlock_of (lockable_of_limit hid hroom) hsize hf

end Limit

end AgentOS.Fs
