import Mathlib
import AgentOS.Fs.Locking

/-!
# Writing nothing

The loop of `DiskInode::write_at` looks up the block of the offset, and gets it, before it asks whether there
is anything left to write. So when nothing is to be written a block is used all the same. It is one of the
file as long as the file has a block there. Behind the end of a last block that is full it is whatever the
first entry without a block says, and this is 0, the super block.
-/

namespace AgentOS.Fs

open Exec

namespace Inode

/-- How a closure over an inode begins: its block is got and locked. -/
def enter (self : Inode) : Exec Storage DiskInode := do
  let arc ← getBlockCache self.blockId self.blockDevice
  lock arc
  BlockCache.getMut DiskInode.layout self.blockOffset arc

/-- What `write_at` does before it calls `DiskInode::write_at`. -/
def beforeWrite (self : Inode) (newSize : ℕ) : Exec Storage DiskInode := do
  let d ← self.enter
  self.increaseSize (UInt32.ofNat newSize) d

/-- `write_at` begins like this, and goes on with `DiskInode::write_at`. -/
theorem returns_beforeWrite {self : Inode} {offset n : ℕ} {buf : List UInt8} {s s' : Storage}
    (h : (self.writeAt offset buf).Returns s n s') :
    ∃ d s₁ s₂, (self.beforeWrite (offset + buf.length)).Returns s d s₁ ∧
      (d.writeAt offset buf self.blockDevice).Returns s₁ n s₂ := by
  obtain ⟨_, t, hmodify, hsync⟩ := returns_bind.mp h
  obtain ⟨_, _, -, hn⟩ := returns_bind.mp hsync
  obtain ⟨rfl, -⟩ := returns_pure.mp hn
  obtain ⟨arc, t₁, hget, hmodify⟩ := returns_bind.mp hmodify
  obtain ⟨_, t₂, hwith, hdrop⟩ := returns_bind.mp hmodify
  obtain ⟨_, _, -, hw⟩ := returns_bind.mp hdrop
  obtain ⟨rfl, -⟩ := returns_pure.mp hw
  obtain ⟨_, t₃, hlock, hbody⟩ := returns_bind.mp hwith
  obtain ⟨_, t₄, hbody, hunlock⟩ := returns_bind.mp hbody
  obtain ⟨_, _, -, hv⟩ := returns_bind.mp hunlock
  obtain ⟨rfl, -⟩ := returns_pure.mp hv
  obtain ⟨d₀, t₅, hmut, hbody⟩ := returns_bind.mp hbody
  obtain ⟨r, t₆, hclosure, hput⟩ := returns_bind.mp hbody
  obtain ⟨_, _, -, hr⟩ := returns_bind.mp hput
  obtain ⟨rfl, -⟩ := returns_pure.mp hr
  obtain ⟨d, s₁, hgrow, hwrite⟩ := returns_bind.mp hclosure
  obtain ⟨_, s₂, hcall, hpair⟩ := returns_bind.mp hwrite
  obtain ⟨rfl, -⟩ := returns_pure.mp hpair
  exact ⟨d, s₁, s₂, (hget.bind (hlock.bind hmut)).bind hgrow, hcall⟩

end Inode

/-- Writing nothing to a file gives 0 and leaves the files as they are, and the blocks that
`DiskInode::write_at` uses belong to the file. None of them is the super block, and all are on the device. -/
structure Harmless (g : Geometry) (D : DeviceId) (F : Files) (c : Session) (i offset : ℕ) : Prop where
  same : ∃ c', (Op.writeAt i offset []).exec.Returns c (.written 0) c' ∧ Represents g D F c'
  own : ∃ inode d s₁ s₂ uses, c.files[i]? = some inode ∧ (inode.beforeWrite offset).Returns c.storage d s₁ ∧
    (d.writeAt offset [] inode.blockDevice).Returns s₁ 0 s₂ ∧ s₂.uses = uses ++ s₁.uses ∧
      ∀ u ∈ uses, ∃ b ∈ d.blocks (s₁.content D), u.block = some b.toNat ∧ 0 < b.toNat ∧
        b.toNat < g.totalBlocks.toNat

variable {g : Geometry} {D : DeviceId} {F : Files} {c : Session} {i offset : ℕ} {m : ℕ → Block} {s : Storage}

/-- Only some blocks may be used. -/
@[reducible] def LockRule.within (blocks : List UInt32) : LockRule :=
  ⟨fun u ↦ ∃ b ∈ blocks, u.block = some b.toNat⟩

/-- **A closure over an inode** begins with the inode as it is on the device. -/
theorem View.enter (h : View D [] m s) (g : Geometry) (i : ℕ) :
    ∃ s₁, (g.inode D i).enter.Returns s (inodeAt g m i) s₁ ∧ View D [(g.inodeStart + i / 4, true)] m s₁ := by
  obtain ⟨arc, t, hget, hlock, -, hview, -⟩ := h.acquire
    (show g.inodeStart + i / 4 ∉ ([] : List (ℕ × Bool)).map Prod.fst by simp) (by decide)
  obtain ⟨s₁, hmut, hview₁, -⟩ := hview.mark (show _ = arc :: t.locked from rfl) hlock (size_diskInode i)
  exact ⟨s₁, hget.bind (Returns.bind (a := ()) (Storage.lock_returns.mpr ⟨hlock, rfl⟩) hmut), hview₁⟩

section Grow

attribute [local instance] threeHeld

/-- **The inode has its blocks** when `DiskInode::write_at` is called, and those of the file are where they
may be. -/
theorem Represents.returns_beforeWrite (h : Represents g D F c) (hi : i < F.length)
    (hle : offset ≤ (F.bytes i).length) :
    ∃ d s₁, ((g.inode D (i + 1)).beforeWrite offset).Returns c.storage d s₁ ∧
      View D [(g.inodeStart + (i + 1) / 4, true)] (s₁.content D) s₁ ∧
      IsFile d (s₁.content D) (typeOf (i + 1)) (F.bytes i) ∧
      ∀ b ∈ d.blocks (s₁.content D), g.dataStart ≤ b.toNat ∧ b.toNat < g.totalBlocks.toNat := by
  have hbytes := Files.getElem?_bytes hi
  have hrep : Rep g (inodeAt g (c.storage.device D)) F.volume (c.storage.device D) := h.ready.holds
  have hlt := hrep.lt_inodes hbytes
  obtain ⟨t, henter, hview⟩ := h.ready.view.enter g (i + 1)
  have hset : F.volume.set (i + 1) (padded (F.bytes i) offset) = F.volume := by
    obtain ⟨_, hget⟩ := List.getElem?_eq_some_iff.mp hbytes
    rw [padded_of_le hle, ← hget, List.set_getElem_self]
  obtain ⟨d, m', hgrow, hrep', -⟩ := hrep.does_grow (D := D) hbytes offset
    (show (g.inode D (i + 1)).fs = g.efs D from rfl) rfl (by rw [hset]; exact hrep.fits) (lt_of_used hlt true)
    (by simp)
  obtain ⟨s₁, hret, hview₁, -⟩ := hgrow t hview
  rw [hset] at hrep'
  have hfile := hrep'.files _ _ hbytes
  rw [Function.update_self] at hfile
  refine ⟨d, s₁, henter.bind hret, by rwa [hview₁.content], by rwa [hview₁.content], fun b hb ↦ ?_⟩
  rw [hview₁.content] at hb
  have hmem : b ∈ owned (Function.update (inodeAt g (c.storage.device D)) (i + 1) d) m'
      (List.range F.volume.length) :=
    List.mem_flatMap.mpr ⟨i + 1, List.mem_range.mpr (Rep.lt_length hbytes), by rwa [Function.update_self]⟩
  obtain ⟨hstart, hend⟩ := hrep'.space.area b hmem
  have hsum := g.dataStart_add_dataBlocks
  have hcapacity := (Space.capacity_le g).1
  exact ⟨hstart, by omega⟩

end Grow

/-- **Writing nothing does no harm** where there is a block: in every state that a user comes to, each file is
left alone, and so is every block that is not its own. -/
theorem writes_nothing (h : Visited g D F c) (hi : i < F.length) (hinside : Inside (F.bytes i) offset) :
    Harmless g D F c i offset := by
  have hrep := h.represents
  refine ⟨hrep.writeNothing hi hinside, ?_⟩
  obtain ⟨d, s₁, hbefore, hview, hfile, harea⟩ := hrep.returns_beforeWrite hi hinside.le
  have hblocks := hfile.toNat_dataBlocks
  have hareas := g.areas
  have hlt := hrep.ready.holds.lt_inodes (Files.getElem?_bytes hi)
  let _ : LockRule := .within (d.blocks (s₁.content D))
  have hdoes : Does D (d.writeAt offset [] D) [(g.inodeStart + (i + 1) / 4, true)] (s₁.content D) 0 _ :=
    DiskInode.does_writeAt_nil (n := d.dataBlocks.toNat) (by rw [hblocks]; exact hinside.div_lt)
      (by rw [hfile.size]; exact hinside.le) (by rw [hblocks]; exact DiskInode.blocksFor_le hfile.short)
      fun b hb ↦ ⟨Rep.not_mem_of_area (harea b hb).1 (lt_of_used hlt true), by simp [blockCacheSize],
        fun u hu ↦ ⟨b, hb, hu.block⟩⟩
  obtain ⟨s₂, hwrite, -, -, uses, huses, hown⟩ := hdoes s₁ hview
  have hget : c.files[i]? = some (g.inode D (i + 1)) := by
    rw [hrep.files, List.getElem?_map, List.getElem?_range hi, Option.map_some]
  refine ⟨_, d, s₁, s₂, uses, hget, hbefore, hwrite, huses, fun u hu ↦ ?_⟩
  obtain ⟨b, hb, hblock⟩ := hown u hu
  obtain ⟨hstart, hend⟩ := harea b hb
  exact ⟨b, hb, hblock, by omega, hend⟩

/-- One file with two bytes. -/
theorem exists_visited_two : ∃ c, Visited smallFs 0 [("a", [7, 8])] c := by
  obtain ⟨c, hmade⟩ := exists_made (g := smallFs) (D := 0) (by decide)
  have hlegal : (Request.call (.create "a")).Legal smallFs [] :=
    (by decide +kernel : Files.Legal smallFs [] (.create "a"))
  obtain ⟨c₁, hret₁, -, -⟩ := hmade.represents.request hlegal
  have hlegal₁ : (Request.call (.writeAt 0 0 [7, 8])).Legal smallFs [("a", [])] :=
    (by decide +kernel : Files.Legal smallFs [("a", [])] (.writeAt 0 0 [7, 8]))
  have hvisited₁ : Visited smallFs 0 [("a", [])] c₁ := .called (.made hmade) hlegal hret₁
  obtain ⟨c₂, hret₂, -, -⟩ := hvisited₁.represents.request hlegal₁
  exact ⟨c₂, .called hvisited₁ hlegal₁ hret₂⟩

theorem writes_nothing_two : ∃ c, Harmless smallFs 0 [("a", [7, 8])] c 0 2 := by
  obtain ⟨c, hvisited⟩ := exists_visited_two
  exact ⟨c, writes_nothing hvisited (by decide) (by decide)⟩

/-! ## Without a block -/

/-- Writing nothing to an inode without blocks uses the block that its first entry says. -/
theorem returns_writeAt_empty {d : DiskInode} {b : Bool} {n : ℕ} {s : Storage} (hview : View D [(n, b)] m s)
    (hdirect : d.direct[0] = 0) (hsize : d.size = 0) (hn : 0 < n) :
    ∃ s' u, (d.writeAt 0 [] D).Returns s 0 s' ∧ s'.uses = u :: s.uses ∧ u.block = some 0 := by
  obtain ⟨u, s₂, hu, huses, hview₂, hrun⟩ := hview.modifyBlock (L := dataBlock) (o := 0)
    (fun dataBlock ↦ do
      assert (0 + 0 ≤ ([] : List UInt8).length)
      assert (0 % blockSz + 0 ≤ blockSz)
      pure ((), DiskInode.overwrite (0 % blockSz) [] dataBlock))
    (show 0 ∉ [(n, b)].map Prod.fst by simpa using hn.ne) (by simp [blockCacheSize]) (by decide)
  obtain ⟨s', hret, -, -, huses'⟩ := hrun () _ m s₂ ((returns_assert_of (by decide) s₂).bind
    ((returns_assert_of (by decide) s₂).bind (returns_pure.mpr ⟨rfl, rfl⟩))) hview₂ rfl
  refine ⟨s', u, ?_, huses'.trans huses, hu.block⟩
  have hfirst : (d.getBlockId (UInt32.ofNat (0 / blockSz)) D).Returns s 0 s := by
    unfold DiskInode.getBlockId
    dsimp only
    rw [if_pos (by decide)]
    exact returns_unwrap.mpr ⟨by rw [← hdirect]; rfl, rfl⟩
  unfold DiskInode.writeAt
  dsimp only
  rw [hsize, DiskInode.writeLoop]
  dsimp only
  exact (returns_assert_of (by decide) s).bind (hfirst.bind (hret.bind (returns_pure.mpr ⟨rfl, rfl⟩)))

/-- To hold nothing an inode needs no blocks. -/
theorem returns_increaseSize_empty (self : Inode) (s : Storage) :
    (self.increaseSize (UInt32.ofNat 0) (DiskInode.initializeInode .file)).Returns s
      (DiskInode.initializeInode .file) s := by
  unfold Inode.increaseSize
  rw [if_neg (by decide)]
  refine Returns.bind (Returns.bind (a := ()) (returns_assert_of (by decide) s) (returns_pure.mpr ⟨rfl, rfl⟩)) ?_
  refine Returns.bind (a := []) (returns_pure.mpr ⟨rfl, rfl⟩) ?_
  unfold DiskInode.increaseSize
  refine Returns.bind (returns_unwrap.mpr ⟨rfl, rfl⟩) ?_
  change (DiskInode.increaseIndirect1 (DiskInode.initializeInode .file) 0 0 [] self.blockDevice).Returns s _ s
  rw [DiskInode.increaseIndirect1, if_neg (by decide)]
  exact returns_pure.mpr ⟨rfl, rfl⟩

/-- A file that has just been created. -/
theorem exists_visited_new : ∃ c, Visited smallFs 0 [("a", [])] c ∧
    inodeAt smallFs (c.storage.device 0) 1 = DiskInode.initializeInode .file := by
  obtain ⟨c, hmade⟩ := exists_made (g := smallFs) (D := 0) (by decide)
  have hrep := hmade.represents
  have hlegal : (Request.call (.create "a")).Legal smallFs [] :=
    (by decide +kernel : Files.Legal smallFs [] (.create "a"))
  obtain ⟨s', hret, -, -, hinode⟩ := hrep.ready.create_of_new hrep.slots
    (hrep.scan_of_not_mem (show "a" ∉ Files.names [] from List.not_mem_nil)) (by decide) hlegal.2
  have hop : (Op.create "a").exec.Returns c (.created true)
      { c with storage := s', files := c.files ++ [smallFs.inode 0 1] } :=
    Returns.bind (returns_get.mpr ⟨rfl, rfl⟩) ((Represents.returns_onStorage (hrep.root ▸ hret)).bind
      (Returns.bind (a := ()) (returns_modify.mpr rfl) (returns_pure.mpr ⟨rfl, rfl⟩)))
  have hcreate : (Request.call (.create "a")).exec.Returns c () _ := hop.bind (returns_pure.mpr ⟨rfl, rfl⟩)
  exact ⟨_, .called (.made hmade) hlegal hcreate, hinode⟩

/-- In a file that has just been created, writing nothing uses the super block. -/
theorem not_writes_nothing : ∃ c, Visited smallFs 0 [("a", [])] c ∧ ¬Harmless smallFs 0 [("a", [])] c 0 0 ∧
    ∃ inode d s₁ s₂ u, c.files[0]? = some inode ∧ (inode.beforeWrite 0).Returns c.storage d s₁ ∧
      (d.writeAt 0 [] inode.blockDevice).Returns s₁ 0 s₂ ∧ s₂.uses = u :: s₁.uses ∧ u.block = some 0 := by
  obtain ⟨c, hvisited, hinode⟩ := exists_visited_new
  have hrep := hvisited.represents
  have hget : c.files[0]? = some (smallFs.inode 0 1) := by
    rw [hrep.files]
    rfl
  obtain ⟨s₁, henter, hview⟩ := hrep.ready.view.enter smallFs 1
  rw [hinode] at henter
  have hbefore := henter.bind (returns_increaseSize_empty (smallFs.inode 0 1) s₁)
  obtain ⟨s₂, u, hwrite, huses, hblock⟩ := returns_writeAt_empty (d := DiskInode.initializeInode .file) hview
    rfl rfl (by decide)
  refine ⟨c, hvisited, fun hharmless ↦ ?_, _, _, s₁, s₂, u, hget, hbefore, hwrite, huses, hblock⟩
  obtain ⟨_, d, t₁, t₂, uses, hget', hbefore', hwrite', huses', hown⟩ := hharmless.own
  obtain rfl := Option.some.inj (hget.symm.trans hget')
  obtain ⟨rfl, rfl⟩ := hbefore'.det hbefore
  obtain ⟨-, rfl⟩ := hwrite'.det hwrite
  obtain ⟨rfl⟩ : uses = [u] := List.append_cancel_right (huses'.symm.trans huses)
  obtain ⟨b, -, hb, hpos, -⟩ := hown u List.mem_cons_self
  rw [hblock] at hb
  exact absurd (Option.some.inj hb) hpos.ne

end AgentOS.Fs
