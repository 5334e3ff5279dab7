import Mathlib
import AgentOS.Fs.CacheOps

/-!
# Clients of the block cache

`Direct` is what the block cache is for: every device holds its blocks, and a client reads and modifies
them through handles. The cache does the same as long as a block is only got with the device it is already
cached for (`Client.Unmixed`). For a client with one device this is always so. With two devices it need not
be, because the cache looks its blocks up by their block id alone.
-/

namespace AgentOS.Fs

open Exec

/-! ## Access without a cache -/

/-- The blocks of all devices, and which block each variable is for. -/
structure Direct where
  content : DeviceId → ℕ → Block
  held : List (Handle × ℕ)

namespace Direct

def start (device : DeviceId → ℕ → Block) : Direct := { content := device, held := [] }

def blockOf (d : Direct) (h : Handle) : Option ℕ := d.held.lookup h

/-- The blocks that are held. -/
def blocks (d : Direct) : Finset ℕ := (d.held.map Prod.snd).toFinset

/-- What a call gives and leaves behind. -/
def step (d : Direct) : Call → List UInt8 × Direct
  | .get h blockId => ([], { d with held := (h, blockId) :: d.held })
  | .read h offset len =>
    match d.blockOf h with
    | some i => (((ByteLayout.bytes len).read offset (d.content h.device i)).toList, d)
    | none => ([], d)
  | .modify h offset len f =>
    match d.blockOf h with
    | some i =>
      let v := (ByteLayout.bytes len).read offset (d.content h.device i)
      let b := (ByteLayout.bytes len).write offset (f v) (d.content h.device i)
      (v.toList, { d with content := Storage.setBlock d.content h.device i b })
    | none => ([], d)
  | .release h => ([], { d with held := d.held.filter fun p ↦ p.1 ≠ h })
  | .syncAll => ([], d)

def run (d : Direct) : List Call → List (List UInt8) × Direct
  | [] => ([], d)
  | call :: calls => ((d.step call).1 :: ((d.step call).2.run calls).1, ((d.step call).2.run calls).2)

/-- The call uses a variable that has a handle, inside of the block, or assigns to one that has none. -/
def Allows (d : Direct) : Call → Prop
  | .get h _ => d.blockOf h = none
  | .read h offset len => d.blockOf h ≠ none ∧ offset + len ≤ blockSz
  | .modify h offset len _ => d.blockOf h ≠ none ∧ offset + len ≤ blockSz
  | .release h => d.blockOf h ≠ none
  | .syncAll => True

instance (d : Direct) : (call : Call) → Decidable (d.Allows call)
  | .get h _ => inferInstanceAs (Decidable (d.blockOf h = none))
  | .read h offset len => inferInstanceAs (Decidable (d.blockOf h ≠ none ∧ offset + len ≤ blockSz))
  | .modify h offset len _ =>
    inferInstanceAs (Decidable (d.blockOf h ≠ none ∧ offset + len ≤ blockSz))
  | .release h => inferInstanceAs (Decidable (d.blockOf h ≠ none))
  | .syncAll => inferInstanceAs (Decidable True)

/-- Every call is allowed, and at no time are more than `n` blocks held. -/
def Respects (n : ℕ) (d : Direct) : List Call → Prop
  | [] => True
  | call :: calls =>
    d.Allows call ∧ (d.step call).2.blocks.card ≤ n ∧ (d.step call).2.Respects n calls

instance (n : ℕ) : (d : Direct) → (calls : List Call) → Decidable (d.Respects n calls)
  | _, [] => inferInstanceAs (Decidable True)
  | d, call :: calls =>
    have : Decidable ((d.step call).2.Respects n calls) := instDecidableRespects n _ calls
    inferInstanceAs (Decidable (_ ∧ _ ∧ _))

end Direct

/-! ## Runs -/

/-- The devices with an empty cache. -/
def Client.start (device : DeviceId → ℕ → Block) : Client :=
  { storage := Storage.boot device, vars := [] }

/-- A block is got with the device it is already cached for, if it is cached. -/
def Client.Unmixed (c : Client) : Call → Prop
  | .get h blockId => ∀ b, c.storage.entry blockId = some b → b.blockDevice = h.device
  | _ => True

/-- Every call of a run meets `Unmixed` in the state it is made in. -/
def Client.UnmixedRun (c : Client) : List Call → Prop
  | [] => True
  | call :: calls =>
    c.Unmixed call ∧ ∀ out c', (Client.step call).Returns c out c' → c'.UnmixedRun calls

/-- A call that uses only the variables of one device. -/
def Call.On (dev : DeviceId) : Call → Prop
  | .get h _ => h.device = dev
  | .read h _ _ => h.device = dev
  | .modify h _ _ _ => h.device = dev
  | .release h => h.device = dev
  | .syncAll => True

instance (dev : DeviceId) : (call : Call) → Decidable (call.On dev)
  | .get h _ => inferInstanceAs (Decidable (h.device = dev))
  | .read h _ _ => inferInstanceAs (Decidable (h.device = dev))
  | .modify h _ _ _ => inferInstanceAs (Decidable (h.device = dev))
  | .release h => inferInstanceAs (Decidable (h.device = dev))
  | .syncAll => inferInstanceAs (Decidable True)

/-! ## The cache does the same -/

/-- The client's variables are handles to the blocks they are for, and the contents are the same. -/
structure Sim (c : Client) (d : Direct) : Prop where
  wf : c.storage.Wf
  unlocked : c.storage.locked = []
  content : c.storage.content = d.content
  vars : List.Forall₂ (fun v h ↦ v.1 = h.1 ∧ c.storage.Holds v.2 h.1.device h.2) c.vars d.held
  handles : c.storage.handles.Perm (c.vars.map Prod.snd)
  names : (c.vars.map Prod.fst).Nodup

theorem sim_start (device : DeviceId → ℕ → Block) : Sim (Client.start device) (Direct.start device) where
  wf := Storage.wf_boot device
  unlocked := rfl
  content := Storage.content_boot device
  vars := List.Forall₂.nil
  handles := List.Perm.nil
  names := List.nodup_nil

theorem forall₂_imp {α β : Type} {R S : α → β → Prop} {l : List α} {l' : List β}
    (h : List.Forall₂ R l l') (himp : ∀ a ∈ l, ∀ b, R a b → S a b) : List.Forall₂ S l l' := by
  induction h with
  | nil => exact List.Forall₂.nil
  | cons hab _ ih =>
    exact List.Forall₂.cons (himp _ List.mem_cons_self _ hab)
      (ih fun a ha ↦ himp a (List.mem_cons_of_mem _ ha))

/-- A variable of both has the block, or neither has the variable. -/
theorem lookup_cases {P : ℕ → Handle → ℕ → Prop} {vars held : List (Handle × ℕ)}
    (hvars : List.Forall₂ (fun v h ↦ v.1 = h.1 ∧ P v.2 h.1 h.2) vars held) (h : Handle) :
    (vars.lookup h = none ∧ held.lookup h = none) ∨
      ∃ arc i, vars.lookup h = some arc ∧ held.lookup h = some i ∧ P arc h i ∧ (h, arc) ∈ vars := by
  induction hvars with
  | nil => exact Or.inl ⟨rfl, rfl⟩
  | @cons v w vars held hvw _ ih =>
    obtain ⟨hname, hP⟩ := hvw
    by_cases hh : h = w.1
    · subst hh
      refine Or.inr ⟨v.2, w.2, ?_, ?_, hP, List.mem_cons.mpr (Or.inl (by rw [← hname]))⟩
      · simp [List.lookup, hname]
      · simp [List.lookup]
    · have hv : (h == v.1) = false := by simpa [hname] using hh
      have hw : (h == w.1) = false := by simpa using hh
      rcases ih with ⟨h₁, h₂⟩ | ⟨arc, i, h₁, h₂, h₃, h₄⟩
      · exact Or.inl ⟨by simp [List.lookup, hv, h₁], by simp [List.lookup, hw, h₂]⟩
      · exact Or.inr ⟨arc, i, by simp [List.lookup, hv, h₁], by simp [List.lookup, hw, h₂], h₃,
          List.mem_cons_of_mem _ h₄⟩

namespace Sim

variable {c c' : Client} {d : Direct} {h : Handle} {arc i : ℕ}

theorem cases (hsim : Sim c d) (h : Handle) :
    (c.arcOf h = none ∧ d.blockOf h = none) ∨
      ∃ arc i, c.arcOf h = some arc ∧ d.blockOf h = some i ∧ c.storage.Holds arc h.device i ∧
        (h, arc) ∈ c.vars :=
  lookup_cases (P := fun arc h i ↦ c.storage.Holds arc h.device i) hsim.vars h

theorem mem_handles (hsim : Sim c d) {v : Handle × ℕ} (hv : v ∈ c.vars) :
    v.2 ∈ c.storage.handles :=
  hsim.handles.mem_iff.mpr (List.mem_map_of_mem hv)

theorem not_mem_names (hnone : c.arcOf h = none) : h ∉ c.vars.map Prod.fst := by
  intro hmem
  obtain ⟨v, hv, rfl⟩ := List.mem_map.mp hmem
  have hne := List.lookup_eq_none_iff.mp hnone v hv
  simp at hne

/-- Without a variable there is one reference less. -/
theorem handles_release (hsim : Sim c d) (hmem : (h, arc) ∈ c.vars) :
    (c.storage.handles.erase arc).Perm ((c.vars.filter fun p ↦ p.1 ≠ h).map Prod.snd) := by
  have hfilter : (c.vars.filter fun p ↦ p.1 ≠ h) = c.vars.erase (h, arc) := by
    rw [hsim.names.of_map.erase_eq_filter]
    refine List.filter_congr fun p hp ↦ ?_
    have hiff : p.1 = h ↔ p = (h, arc) :=
      ⟨fun heq ↦ List.inj_on_of_nodup_map hsim.names hp hmem heq, fun heq ↦ by rw [heq]⟩
    by_cases hpe : p = (h, arc)
    · simp [hpe]
    · have hname : p.1 ≠ h := fun heq ↦ hpe (hiff.mp heq)
      simp [hname, hpe]
  have hperm : (c.vars.map Prod.snd).Perm (arc :: (c.vars.erase (h, arc)).map Prod.snd) :=
    (List.perm_cons_erase hmem).map Prod.snd
  rw [hfilter]
  have hall := (hsim.handles.trans hperm).erase arc
  rwa [List.erase_cons_head] at hall

/-- An operation on the storage that keeps the blocks that are held. -/
theorem of_keeps (hsim : Sim c d) {s : Storage} (hkeeps : c.storage.Keeps s)
    (hhandles : s.handles = c.storage.handles) : Sim { c with storage := s } d where
  wf := hkeeps.wf
  unlocked := hkeeps.locked.trans hsim.unlocked
  content := hkeeps.content.trans hsim.content
  vars := forall₂_imp hsim.vars fun _ hv _ hvw ↦
    ⟨hvw.1, hkeeps.holds (hsim.mem_handles hv) hvw.2⟩
  handles := hhandles ▸ hsim.handles
  names := hsim.names

/-- The blocks that are held are held through as many `Arc`s at most. -/
theorem card_le (hsim : Sim c d) : c.storage.handles.dedup.length ≤ d.blocks.card := by
  have hcard : c.storage.handles.dedup.length = (c.vars.map Prod.snd).toFinset.card := by
    rw [← List.card_toFinset, List.toFinset_eq_of_perm _ _ hsim.handles]
  -- the block id of each `Arc`, which the entries of the queue do not share
  have hfst : ∀ arc ∈ (c.vars.map Prod.snd).toFinset,
      ∃ i ∈ d.blocks, (i, arc) ∈ c.storage.queue := by
    intro arc harc
    obtain ⟨v, hv, rfl⟩ := List.mem_map.mp (List.mem_toFinset.mp harc)
    obtain ⟨k, hk⟩ := List.get_of_mem hv
    have hlen := hsim.vars.length_eq
    obtain ⟨hname, hholds⟩ := (List.forall₂_iff_get.mp hsim.vars).2 k k.2 (hlen ▸ k.2)
    refine ⟨_, List.mem_toFinset.mpr (List.mem_map_of_mem (List.get_mem d.held ⟨k, hlen ▸ k.2⟩)), ?_⟩
    rw [← hk]
    exact hholds.1
  choose! f hf using hfst
  rw [hcard]
  refine Finset.card_le_card_of_injOn f (fun arc harc ↦ (hf arc harc).1) fun a ha a' ha' heq ↦ ?_
  exact hsim.wf.id_unique (hf a ha).2 (heq ▸ (hf a' ha').2)

/-! ### One call -/

theorem get_returns {out : List UInt8} :
    (Client.step (.get h i)).Returns c out c' ↔ c.arcOf h = none ∧ out = [] ∧
      ∃ arc s, (getBlockCache i h.device).Returns c.storage arc s ∧
        c' = { storage := s, vars := (h, arc) :: c.vars } := by
  simp only [Client.step, Client.onStorage, returns_bind, returns_get, returns_assert, returns_zoom,
    returns_modify, returns_pure]
  constructor
  · rintro ⟨_, _, ⟨rfl, rfl⟩, _, _, ⟨hnone, rfl⟩, arc, _, ⟨s, hs, rfl⟩, _, _, rfl, rfl, rfl⟩
    exact ⟨hnone, rfl, arc, s, hs, rfl⟩
  · rintro ⟨hnone, rfl, arc, s, hs, rfl⟩
    exact ⟨c, c, ⟨rfl, rfl⟩, (), c, ⟨hnone, rfl⟩, arc, _, ⟨s, hs, rfl⟩, (), _, rfl, rfl, rfl⟩

/-- A call through a variable without a handle does not return. -/
theorem useHandle_returns {out : ℕ} :
    (Client.useHandle h).Returns c out c' ↔ c.arcOf h = some out ∧ c' = c := by
  simp [Client.useHandle, and_comm]

theorem not_returns_of_none (hnone : c.arcOf h = none) {α : Type} {f : ℕ → Exec Client α} {v : α} :
    ¬(Client.useHandle h >>= f).Returns c v c' := by
  intro hret
  obtain ⟨arc, t, harc, -⟩ := returns_bind.mp hret
  rw [(useHandle_returns.mp harc).1] at hnone
  exact absurd hnone (by simp)

theorem recorded (hsim : Sim c d) (arc : ℕ) : Sim { c with storage := c.storage.recorded arc } d :=
  ⟨hsim.wf.recorded arc, hsim.unlocked, hsim.content, hsim.vars, hsim.handles, hsim.names⟩

theorem read_returns (hsim : Sim c d) (harc : c.arcOf h = some arc)
    (hholds : c.storage.Holds arc h.device i) {offset len : ℕ} {out : List UInt8} :
    (Client.step (.read h offset len)).Returns c out c' ↔ offset + len ≤ blockSz ∧
      out = ((ByteLayout.bytes len).read offset (d.content h.device i)).toList ∧
      c' = { c with storage := c.storage.recorded arc } := by
  have hread (v : Vector UInt8 len) (t : Storage) :
      (BlockCache.read (ByteLayout.bytes len) offset arc pure).Returns (c.storage.inUse arc) v t ↔
        offset + len ≤ blockSz ∧
        v = (ByteLayout.bytes len).read offset (d.content h.device i) ∧ t = c.storage.inUse arc := by
    have hcontent : (c.storage.inUse arc).content h.device i = d.content h.device i := by
      rw [← hsim.content]
      rfl
    have hholds' : (c.storage.inUse arc).Holds arc h.device i := hholds
    simp [BlockCache.read, Storage.getRef_returns (hsim.wf.inUse arc) hholds', hcontent]
  simp only [Client.step, Client.onStorage, returns_bind, useHandle_returns, harc,
    Option.some.injEq, returns_zoom, Storage.withLock_returns, returns_pure]
  constructor
  · rintro ⟨_, _, ⟨rfl, rfl⟩, v, _, ⟨_, ⟨-, t, ht, rfl⟩, rfl⟩, rfl, rfl⟩
    obtain ⟨hsize, rfl, rfl⟩ := (hread _ _).mp ht
    exact ⟨hsize, rfl, by simp [Storage.inUse, Storage.recorded]⟩
  · rintro ⟨hsize, rfl, rfl⟩
    exact ⟨arc, c, ⟨rfl, rfl⟩, _, _, ⟨_, ⟨by simp [hsim.unlocked], _, (hread _ _).mpr ⟨hsize, rfl, rfl⟩, rfl⟩,
      rfl⟩, rfl,
      by simp [Storage.inUse, Storage.recorded]⟩

theorem modify_returns (hsim : Sim c d) (harc : c.arcOf h = some arc)
    (hmem : (i, arc) ∈ c.storage.queue) {b : BlockCache} (hb : c.storage.arcs arc = some b)
    (hdev : b.blockDevice = h.device) {offset len : ℕ} {f : Vector UInt8 len → Vector UInt8 len}
    {out : List UInt8} :
    (Client.step (.modify h offset len f)).Returns c out c' ↔ offset + len ≤ blockSz ∧
      out = ((ByteLayout.bytes len).read offset (d.content h.device i)).toList ∧
      c' = { c with storage := (c.storage.recorded arc).setArc arc (some { b with
        cache := (ByteLayout.bytes len).write offset
          (f ((ByteLayout.bytes len).read offset (d.content h.device i))) b.cache
        modified := true }) } := by
  have hwf := hsim.wf.inUse arc
  have hmodify (v : Vector UInt8 len) (t : Storage) :
      (BlockCache.modify (ByteLayout.bytes len) offset arc fun v ↦ pure (v, f v)).Returns
        (c.storage.inUse arc) v t ↔ offset + len ≤ blockSz ∧
        v = (ByteLayout.bytes len).read offset (d.content h.device i) ∧
        t = (c.storage.inUse arc).setArc arc (some { b with
          cache := (ByteLayout.bytes len).write offset (f v) b.cache, modified := true }) := by
    have hput (v : Vector UInt8 len) (u : Unit) (t : Storage) :
        (BlockCache.putMut (ByteLayout.bytes len) offset arc v).Returns
          ((c.storage.inUse arc).setArc arc (some { b with modified := true })) u t ↔
        t = (c.storage.inUse arc).setArc arc (some { b with
          cache := (ByteLayout.bytes len).write offset v b.cache, modified := true }) := by
      rw [Storage.putMut_returns (Function.update_self _ _ _), Storage.setArc, Storage.setArc,
        Storage.setArc, Function.update_idem]
    have hcontent : (c.storage.inUse arc).content b.blockDevice i = d.content h.device i := by
      rw [hdev, ← hsim.content]
      rfl
    simp only [BlockCache.modify, returns_bind, Storage.getMut_returns hwf hmem hb, returns_pure,
      ByteLayout.size_bytes, hcontent]
    constructor
    · rintro ⟨_, _, ⟨hsize, rfl, rfl⟩, _, _, ⟨rfl, rfl⟩, _, _, hu, rfl, rfl⟩
      exact ⟨hsize, rfl, (hput _ _ _).mp hu⟩
    · rintro ⟨hsize, rfl, rfl⟩
      exact ⟨_, _, ⟨hsize, rfl, rfl⟩, _, _, ⟨rfl, rfl⟩, (), _, (hput _ _ _).mpr rfl, rfl, rfl⟩
  simp only [Client.step, Client.onStorage, returns_bind, useHandle_returns, harc,
    Option.some.injEq, returns_zoom, Storage.withLock_returns, returns_pure]
  constructor
  · rintro ⟨_, _, ⟨rfl, rfl⟩, v, _, ⟨_, ⟨-, t, ht, rfl⟩, rfl⟩, rfl, rfl⟩
    obtain ⟨hsize, rfl, rfl⟩ := (hmodify _ _).mp ht
    exact ⟨hsize, rfl, by simp [Storage.inUse, Storage.recorded, Storage.setArc]⟩
  · rintro ⟨hsize, rfl, rfl⟩
    exact ⟨arc, c, ⟨rfl, rfl⟩, _, _, ⟨_, ⟨by simp [hsim.unlocked], _, (hmodify _ _).mpr ⟨hsize, rfl, rfl⟩, rfl⟩,
      rfl⟩, rfl,
      by simp [Storage.inUse, Storage.recorded, Storage.setArc]⟩

theorem release_returns (hsim : Sim c d) (harc : c.arcOf h = some arc)
    (hmem : (h, arc) ∈ c.vars) {out : List UInt8} :
    (Client.step (.release h)).Returns c out c' ↔ out = [] ∧
      c' = { storage := { c.storage with handles := c.storage.handles.erase arc }
             vars := c.vars.filter fun p ↦ p.1 ≠ h } := by
  have hdrop (u : Unit) (s' : Storage) := (Storage.dropHandle_returns hsim.wf
    (hsim.mem_handles hmem) : (dropHandle arc).Returns c.storage u s' ↔ _)
  simp only [Client.step, Client.onStorage, returns_bind, useHandle_returns, harc,
    Option.some.injEq, returns_zoom, returns_modify, returns_pure]
  constructor
  · rintro ⟨_, _, ⟨rfl, rfl⟩, _, _, rfl, _, _, ⟨s, hs, rfl⟩, rfl, rfl⟩
    rw [(hdrop _ _).mp hs]
    exact ⟨rfl, rfl⟩
  · rintro ⟨rfl, rfl⟩
    exact ⟨arc, c, ⟨rfl, rfl⟩, (), _, rfl, (), _, ⟨_, (hdrop () _).mpr rfl, rfl⟩, rfl, rfl⟩

/-- **One call** does to the handles and contents what it does without a cache. -/
theorem step (hsim : Sim c d) {call : Call} (hunmixed : c.Unmixed call) {out : List UInt8}
    (hret : (Client.step call).Returns c out c') :
    out = (d.step call).1 ∧ Sim c' (d.step call).2 ∧
      (call = .syncAll → c'.storage.device = c'.storage.content) := by
  cases call with
  | get h i =>
    obtain ⟨hnone, rfl, arc, s, hgot, rfl⟩ := get_returns.mp hret
    have hgot := Storage.getBlockCache_got hsim.wf hgot
    obtain ⟨b, hholds, hdev⟩ := hgot.holds
    have hdev : b.blockDevice = h.device := hdev.elim id (hunmixed b)
    refine ⟨rfl, ⟨hgot.keeps.wf, hgot.keeps.locked.trans hsim.unlocked,
      hgot.keeps.content.trans hsim.content, List.Forall₂.cons ⟨rfl, hdev ▸ hholds⟩ ?_, ?_,
      List.nodup_cons.mpr ⟨not_mem_names hnone, hsim.names⟩⟩, nofun⟩
    · exact forall₂_imp hsim.vars fun _ hv _ hvw ↦
        ⟨hvw.1, hgot.keeps.holds (hsim.mem_handles hv) hvw.2⟩
    · dsimp only
      rw [hgot.handles]
      exact hsim.handles.cons arc
  | read h offset len =>
    rcases hsim.cases h with ⟨hnone, -⟩ | ⟨arc, i, harc, hblock, hholds, -⟩
    · exact (not_returns_of_none hnone hret).elim
    · obtain ⟨-, rfl, rfl⟩ := (hsim.read_returns harc hholds).mp hret
      simp only [Direct.step, hblock]
      exact ⟨trivial, hsim.recorded arc, nofun⟩
  | modify h offset len f =>
    rcases hsim.cases h with ⟨hnone, -⟩ | ⟨arc, i, harc, hblock, ⟨hmem, b, hb, hdev⟩, -⟩
    · exact (not_returns_of_none hnone hret).elim
    · obtain ⟨-, rfl, rfl⟩ := (hsim.modify_returns harc hmem hb hdev).mp hret
      simp only [Direct.step, hblock]
      have hcache : b.cache = d.content h.device i := by
        rw [← hsim.content, ← hdev, hsim.wf.content_of_arc hmem hb]
      obtain ⟨hwf, hcontent, hkept⟩ := (hsim.wf.recorded arc).put hmem hb ((ByteLayout.bytes len).write offset
        (f ((ByteLayout.bytes len).read offset (d.content h.device i))) b.cache)
      refine ⟨trivial, ⟨hwf, hsim.unlocked, ?_, ?_, hsim.handles, hsim.names⟩, nofun⟩
      · rw [hcontent, (hsim.recorded arc).content, hcache, hdev]
      · exact forall₂_imp hsim.vars fun _ _ _ hvw ↦ ⟨hvw.1, hkept hvw.2⟩
  | release h =>
    rcases hsim.cases h with ⟨hnone, -⟩ | ⟨arc, i, harc, hblock, hholds, hvar⟩
    · exact (not_returns_of_none hnone hret).elim
    · obtain ⟨rfl, rfl⟩ := (hsim.release_returns harc hvar).mp hret
      have hkeeps := hsim.wf.dropHandle_keeps arc
      refine ⟨rfl, ⟨hkeeps.wf, hsim.unlocked, hsim.content, ?_, hsim.handles_release hvar, ?_⟩, nofun⟩
      · exact List.rel_filter (fun v w hvw ↦ by simp [hvw.1]) hsim.vars
      · exact hsim.names.sublist (List.Sublist.map _ List.filter_sublist)
  | syncAll =>
    obtain ⟨s, hs, hkeeps, hhandles, hsynced⟩ :=
      Storage.blockCacheSyncAll_spec hsim.wf hsim.unlocked
    have hreturns : (Client.step .syncAll).Returns c [] { c with storage := s } :=
      (returns_zoom.mpr ⟨s, hs, rfl⟩).bind (returns_pure.mpr ⟨rfl, rfl⟩)
    obtain ⟨rfl, rfl⟩ := hret.det hreturns
    exact ⟨rfl, hsim.of_keeps hkeeps hhandles, fun _ ↦ hkeeps.wf.device_eq_content hsynced⟩

/-- A call that is allowed returns, if the cache has room for the blocks. -/
theorem step_returns (hsim : Sim c d) {call : Call} (hallows : d.Allows call)
    (hroom : (d.step call).2.blocks.card < blockCacheSize) :
    ∃ out c', (Client.step call).Returns c out c' := by
  cases call with
  | get h i =>
    have hle : d.blocks.card ≤ (d.step (.get h i)).2.blocks.card := by
      refine Finset.card_le_card fun j hj ↦ ?_
      exact List.mem_toFinset.mpr (List.mem_cons_of_mem _ (List.mem_toFinset.mp hj))
    obtain ⟨arc, s, hs⟩ := Storage.getBlockCache_returns hsim.wf
      (hsim.card_le.trans_lt (hle.trans_lt hroom)) i h.device
    have hnone : c.arcOf h = none := by
      rcases hsim.cases h with ⟨hnone, -⟩ | ⟨_, _, _, hblock, -⟩
      · exact hnone
      · exact absurd (hallows.symm.trans hblock) (by simp)
    exact ⟨[], _, get_returns.mpr ⟨hnone, rfl, arc, s, hs, rfl⟩⟩
  | read h offset len =>
    obtain ⟨hheld, hsize⟩ := hallows
    rcases hsim.cases h with ⟨-, hnone⟩ | ⟨arc, i, harc, -, hholds, -⟩
    · exact absurd hnone hheld
    · exact ⟨_, _, (hsim.read_returns harc hholds).mpr ⟨hsize, rfl, rfl⟩⟩
  | modify h offset len f =>
    obtain ⟨hheld, hsize⟩ := hallows
    rcases hsim.cases h with ⟨-, hnone⟩ | ⟨arc, i, harc, -, ⟨hmem, b, hb, hdev⟩, -⟩
    · exact absurd hnone hheld
    · exact ⟨_, _, (hsim.modify_returns harc hmem hb hdev).mpr ⟨hsize, rfl, rfl⟩⟩
  | release h =>
    rcases hsim.cases h with ⟨-, hnone⟩ | ⟨arc, i, harc, -, -, hvar⟩
    · exact absurd hnone hallows
    · exact ⟨_, _, (hsim.release_returns harc hvar).mpr ⟨rfl, rfl⟩⟩
  | syncAll =>
    obtain ⟨s, hs, -⟩ := Storage.blockCacheSyncAll_spec hsim.wf hsim.unlocked
    exact ⟨[], { c with storage := s }, (returns_zoom.mpr ⟨s, hs, rfl⟩).bind (returns_pure.mpr ⟨rfl, rfl⟩)⟩

/-! ### A run -/

theorem getLast?_cons {call : Call} {calls : List Call} (h : (call :: calls).getLast? = some .syncAll) :
    (calls = [] ∧ call = .syncAll) ∨ calls.getLast? = some .syncAll := by
  cases calls with
  | nil => exact Or.inl ⟨rfl, by simpa using h⟩
  | cons call' calls => exact Or.inr (by simpa using h)

/-- **A run** in which no block is got with another device gives what it gives without a cache. -/
theorem run (hsim : Sim c d) {calls : List Call} (hunmixed : c.UnmixedRun calls)
    {outs : List (List UInt8)} (hret : (Client.run calls).Returns c outs c') :
    outs = (d.run calls).1 ∧ Sim c' (d.run calls).2 ∧
      (calls.getLast? = some .syncAll → c'.storage.device = c'.storage.content) := by
  induction calls generalizing c d outs with
  | nil =>
    obtain ⟨rfl, rfl⟩ := returns_pure.mp hret
    exact ⟨rfl, hsim, nofun⟩
  | cons call calls ih =>
    obtain ⟨out, c₁, hstep, hrest⟩ := returns_bind.mp hret
    obtain ⟨outs', c₂, hrun, hpure⟩ := returns_bind.mp hrest
    obtain ⟨rfl, rfl⟩ := returns_pure.mp hpure
    obtain ⟨rfl, hsim₁, hsync⟩ := hsim.step hunmixed.1 hstep
    obtain ⟨rfl, hsim₂, hlast⟩ := ih hsim₁ (hunmixed.2 _ _ hstep) hrun
    refine ⟨rfl, hsim₂, fun h ↦ ?_⟩
    rcases getLast?_cons h with ⟨rfl, hcall⟩ | h
    · obtain ⟨-, rfl⟩ := returns_pure.mp hrun
      exact hsync hcall
    · exact hlast h

end Sim

/-! ## One device -/

/-- All blocks in memory are of one device. -/
def Storage.OnlyDevice (dev : DeviceId) (s : Storage) : Prop :=
  ∀ arc b, s.arcs arc = some b → b.blockDevice = dev

namespace Storage

variable {s s' : Storage} {dev : DeviceId} {arc : ℕ} {b : BlockCache}

theorem OnlyDevice.setArc (h : s.OnlyDevice dev) (hb : b.blockDevice = dev) (arc : ℕ) :
    (s.setArc arc (some b)).OnlyDevice dev := by
  intro arc' b' hb'
  by_cases harc : arc' = arc
  · subst harc
    have hsome : some b = some b' := by simpa [Storage.setArc] using hb'
    rw [← Option.some.inj hsome, hb]
  · exact h arc' b' (by simpa [Storage.setArc, Function.update_of_ne harc] using hb')

theorem OnlyDevice.sync (h : s.OnlyDevice dev) {u : Unit}
    (hret : (BlockCache.sync arc).Returns s u s') : s'.OnlyDevice dev := by
  obtain ⟨b, t, hcached, -⟩ := returns_bind.mp hret
  have hb : s.arcs arc = some b := by
    have hb : t = s ∧ s.arcs arc = some b := by simpa [cached] using hcached
    exact hb.2
  obtain ⟨device, hsync, -⟩ := sync_returns hb
  obtain ⟨-, rfl⟩ := hret.det hsync
  exact h.setArc (b := { b with modified := false }) (h arc b hb) arc

theorem OnlyDevice.releaseArc (h : s.OnlyDevice dev) {u : Unit}
    (hret : (releaseArc arc).Returns s u s') : s'.OnlyDevice dev := by
  obtain ⟨_, _, hget, hbody⟩ := returns_bind.mp hret
  obtain ⟨rfl, rfl⟩ := returns_get.mp hget
  rcases returns_ite.mp hbody with ⟨-, hbody⟩ | ⟨-, hbody⟩
  · obtain ⟨_, t, hsync, hset⟩ := returns_bind.mp hbody
    obtain rfl := returns_modify.mp hset
    intro arc' b' hb'
    by_cases harc : arc' = arc
    · simp [Storage.setArc, harc] at hb'
    · exact h.sync hsync arc' b' (by simpa [Storage.setArc, Function.update_of_ne harc] using hb')
  · obtain ⟨-, rfl⟩ := returns_pure.mp hbody
    exact h

theorem OnlyDevice.substitute (h : s.OnlyDevice dev) {u : Unit}
    (hret : substitute.Returns s u s') : s'.OnlyDevice dev := by
  obtain ⟨_, t, hget, hbody⟩ := returns_bind.mp hret
  obtain ⟨rfl, rfl⟩ := returns_get.mp hget
  rcases returns_ite.mp hbody with ⟨-, hbody⟩ | ⟨-, hbody⟩
  · split at hbody
    · next pair _ =>
      obtain ⟨_, s₁, hset, hrelease⟩ := returns_bind.mp hbody
      rw [returns_modify.mp hset] at hrelease
      have h' : ({ t with queue := t.queue.erase pair } : Storage).OnlyDevice dev := h
      exact h'.releaseArc hrelease
    · exact (returns_panic.mp hbody).elim
  · obtain ⟨-, rfl⟩ := returns_pure.mp hbody
    exact h

theorem OnlyDevice.getBlockCache (h : s.OnlyDevice dev) {blockId : ℕ}
    (hret : (getBlockCache blockId dev).Returns s arc s') : s'.OnlyDevice dev := by
  obtain ⟨_, _, hget, hbody⟩ := returns_bind.mp hret
  obtain ⟨rfl, rfl⟩ := returns_get.mp hget
  split at hbody
  · obtain ⟨_, t, hset, hpure⟩ := returns_bind.mp hbody
    obtain ⟨-, rfl⟩ := returns_pure.mp hpure
    obtain rfl := returns_modify.mp hset
    exact h
  · obtain ⟨_, s₁, hsub, hbody⟩ := returns_bind.mp hbody
    obtain ⟨a, s₂, hnew, hpush⟩ := returns_bind.mp hbody
    obtain ⟨rfl, rfl⟩ := new_returns.mp hnew
    obtain ⟨_, t, hset, hpure⟩ := returns_bind.mp hpush
    obtain ⟨-, rfl⟩ := returns_pure.mp hpure
    obtain rfl := returns_modify.mp hset
    exact (h.substitute hsub).setArc (b := { cache := _, blockId, blockDevice := dev, modified := _ })
      rfl _

theorem OnlyDevice.syncEntries (h : s.OnlyDevice dev) {queue : List (ℕ × ℕ)} {u : Unit}
    (hret : (syncEntries queue).Returns s u s') : s'.OnlyDevice dev := by
  induction queue generalizing s with
  | nil =>
    obtain ⟨-, rfl⟩ := returns_pure.mp hret
    exact h
  | cons pair queue ih =>
    obtain ⟨_, s₁, hlock, hrest⟩ := returns_bind.mp hret
    obtain ⟨-, rfl⟩ := lock_returns.mp hlock
    obtain ⟨_, s₂, hsync, hrest⟩ := returns_bind.mp hrest
    obtain ⟨_, s₃, hunlock, hrest⟩ := returns_bind.mp hrest
    obtain rfl := unlock_returns.mp hunlock
    have h' : (s.inUse pair.2).OnlyDevice dev := h
    have h₂ : s₂.OnlyDevice dev := h'.sync hsync
    exact ih (s := { s₂ with locked := s₂.locked.erase pair.2 }) h₂ hrest

end Storage

namespace Sim

variable {c c' : Client} {d : Direct} {dev : DeviceId} {call : Call}

theorem unmixed (hsim : Sim c d) (honly : c.storage.OnlyDevice dev) (hon : call.On dev) :
    c.Unmixed call := by
  cases call with
  | get h i =>
    intro b hb
    obtain ⟨arc, -, harc⟩ := hsim.wf.entry_eq_some_iff.mp hb
    exact (honly arc b harc).trans hon.symm
  | _ => trivial

theorem onlyDevice (hsim : Sim c d) (honly : c.storage.OnlyDevice dev) (hon : call.On dev)
    {out : List UInt8} (hret : (Client.step call).Returns c out c') : c'.storage.OnlyDevice dev := by
  cases call with
  | get h i =>
    obtain ⟨-, -, arc, s, hgot, rfl⟩ := get_returns.mp hret
    have hdev : h.device = dev := hon
    exact honly.getBlockCache (hdev ▸ hgot)
  | read h offset len =>
    rcases hsim.cases h with ⟨hnone, -⟩ | ⟨arc, i, harc, -, hholds, -⟩
    · exact (not_returns_of_none hnone hret).elim
    · obtain ⟨-, -, rfl⟩ := (hsim.read_returns harc hholds).mp hret
      exact honly
  | modify h offset len f =>
    rcases hsim.cases h with ⟨hnone, -⟩ | ⟨arc, i, harc, -, ⟨hmem, b, hb, hdev⟩, -⟩
    · exact (not_returns_of_none hnone hret).elim
    · obtain ⟨-, -, rfl⟩ := (hsim.modify_returns harc hmem hb hdev).mp hret
      exact honly.setArc (b := { b with cache := _, modified := true }) (honly arc b hb) arc
  | release h =>
    rcases hsim.cases h with ⟨hnone, -⟩ | ⟨arc, i, harc, -, -, hvar⟩
    · exact (not_returns_of_none hnone hret).elim
    · obtain ⟨-, rfl⟩ := (hsim.release_returns harc hvar).mp hret
      exact honly
  | syncAll =>
    obtain ⟨_, t, hsync, hpure⟩ := returns_bind.mp hret
    obtain ⟨-, rfl⟩ := returns_pure.mp hpure
    obtain ⟨s, hs, rfl⟩ := returns_zoom.mp hsync
    obtain ⟨_, _, hget, hentries⟩ := returns_bind.mp hs
    obtain ⟨rfl, rfl⟩ := returns_get.mp hget
    exact honly.syncEntries hentries

/-- A client of one device gets its blocks with that device. -/
theorem unmixedRun (hsim : Sim c d) (honly : c.storage.OnlyDevice dev) {calls : List Call}
    (hon : ∀ call ∈ calls, call.On dev) : c.UnmixedRun calls := by
  induction calls generalizing c d with
  | nil => trivial
  | cons call calls ih =>
    have hcall := hon call List.mem_cons_self
    have hunmixed := hsim.unmixed honly hcall
    refine ⟨hunmixed, fun out c' hret ↦ ?_⟩
    obtain ⟨-, hsim', -⟩ := hsim.step hunmixed hret
    exact ih hsim' (hsim.onlyDevice honly hcall hret) fun call' h ↦ hon call' (List.mem_cons_of_mem _ h)

/-- The calls of a client of one device return. -/
theorem run_returns (hsim : Sim c d) (honly : c.storage.OnlyDevice dev) {calls : List Call}
    (hon : ∀ call ∈ calls, call.On dev) (hrespects : d.Respects 15 calls) :
    ∃ outs c', (Client.run calls).Returns c outs c' := by
  induction calls generalizing c d with
  | nil => exact ⟨[], c, returns_pure.mpr ⟨rfl, rfl⟩⟩
  | cons call calls ih =>
    obtain ⟨hallows, hcard, hrest⟩ := hrespects
    have hcall := hon call List.mem_cons_self
    obtain ⟨out, c₁, hret⟩ := hsim.step_returns hallows (Nat.lt_succ_of_le hcard)
    obtain ⟨-, hsim₁, -⟩ := hsim.step (hsim.unmixed honly hcall) hret
    obtain ⟨outs, c₂, hrun⟩ := ih hsim₁ (hsim.onlyDevice honly hcall hret)
      (fun call' h ↦ hon call' (List.mem_cons_of_mem _ h)) hrest
    exact ⟨_, c₂, hret.bind (hrun.bind (returns_pure.mpr ⟨rfl, rfl⟩))⟩

end Sim

/-- **The cache is transparent for one device.** The calls return and give what they give without a cache,
handles to one block are references to one entry, and after a sync the device holds every content. -/
theorem cache_transparent (device : DeviceId → ℕ → Block) (dev : DeviceId) (calls : List Call)
    (hon : ∀ call ∈ calls, call.On dev) (hrespects : (Direct.start device).Respects 15 calls) :
    ∃ c, (Client.run calls).Returns (Client.start device) ((Direct.start device).run calls).1 c ∧
      (∀ h h' i, ((Direct.start device).run calls).2.blockOf h = some i →
        ((Direct.start device).run calls).2.blockOf h' = some i →
        ∃ arc, c.arcOf h = some arc ∧ c.arcOf h' = some arc) ∧
      (calls.getLast? = some .syncAll →
        c.storage.device dev = ((Direct.start device).run calls).2.content dev) := by
  have hsim := sim_start device
  have honly : (Client.start device).storage.OnlyDevice dev := nofun
  obtain ⟨outs, c, hret⟩ := hsim.run_returns honly hon hrespects
  obtain ⟨rfl, hsim', hlast⟩ := hsim.run (hsim.unmixedRun honly hon) hret
  refine ⟨c, hret, fun h h' i hi hi' ↦ ?_, fun h ↦ ?_⟩
  · rcases hsim'.cases h with ⟨-, hnone⟩ | ⟨arc, j, harc, hj, hholds, -⟩
    · exact absurd (hnone.symm.trans hi) (by simp)
    rcases hsim'.cases h' with ⟨-, hnone⟩ | ⟨arc', j', harc', hj', hholds', -⟩
    · exact absurd (hnone.symm.trans hi') (by simp)
    obtain rfl : j = i := Option.some.inj (hj.symm.trans hi)
    obtain rfl : j' = j := Option.some.inj (hj'.symm.trans hi')
    exact ⟨arc, harc, hsim'.wf.id_unique hholds.1 hholds'.1 ▸ harc'⟩
  · rw [hlast h, hsim'.content]

/-- A block is modified through one handle and read through another, seventeen other blocks later. -/
theorem cache_transparent_evicted :
    let calls : List Call := [.get ⟨0, 0⟩ 5, .modify ⟨0, 0⟩ 0 1 fun _ ↦ #v[7], .release ⟨0, 0⟩] ++
      (List.range 17).flatMap (fun i ↦ [.get ⟨0, 1⟩ (10 + i), .release ⟨0, 1⟩]) ++
      [.get ⟨0, 2⟩ 5, .read ⟨0, 2⟩ 0 1, .syncAll]
    ∃ c, (Client.run calls).Returns (Client.start fun _ _ ↦ zeroBlock)
      ((Direct.start fun _ _ ↦ zeroBlock).run calls).1 c := by
  intro calls
  obtain ⟨c, hret, -⟩ := cache_transparent (fun _ _ ↦ zeroBlock) 0 calls
    (by decide +kernel)
    (by decide +kernel)
  exact ⟨c, hret⟩

end AgentOS.Fs
