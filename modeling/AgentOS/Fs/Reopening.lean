import Mathlib
import AgentOS.Fs.Ownership

/-!
# Opening a device again

After every operation the device holds all there is. When everything in memory is lost, the block cache and
the file system with it, opening the device gives a file system with the same names and the same bytes, and
what is handed out later was not in use.
-/

namespace AgentOS.Fs

open Exec

attribute [local instance] threeHeld

/-- The inodes of some names. -/
def findAll (root : Inode) : List String → Exec Storage (List Inode)
  | [] => pure []
  | name :: names => do
    let found ← root.find name
    let inode ← unwrap found
    let inodes ← findAll root names
    pure (inode :: inodes)

/-- Everything in memory is lost. The device is opened again, and the files are found by the names that are
listed. -/
def Session.reopen (D : DeviceId) : Exec Session Unit := do
  modify fun c ↦ { c with storage := Storage.boot c.storage.device }
  let efs ← onStorage (EasyFileSystem.open_ D)
  let names ← onStorage efs.rootInode.ls
  let files ← onStorage (findAll efs.rootInode names)
  modify fun c ↦ { c with root := efs.rootInode, files }

variable {g : Geometry} {D : DeviceId} {F : Files} {c : Session} {V : Volume} {ops : List Op} {s : Storage}

/-- Opening a device that has everything. -/
theorem Ready.open_ (h : Ready g D V s) :
    ∃ s', (EasyFileSystem.open_ D).Returns s (g.efs D) s' ∧ Ready g D V s' := by
  obtain ⟨s', hret, hready, -⟩ := h.returns_of_reads (reads_open h.holds)
  exact ⟨s', hret, hready⟩

namespace Represents

/-- The files are found by their names. -/
theorem returns_findAll (h : Represents g D F c) (names : List String) (k : ℕ)
    (hnames : F.names.drop k = names) (hready : Ready g D F.volume s) :
    ∃ s', (findAll (g.inode D 0) names).Returns s
      ((List.range' k names.length).map fun i ↦ g.inode D (i + 1)) s' ∧ Ready g D F.volume s' := by
  induction names generalizing k s with
  | nil => exact ⟨s, returns_pure.mpr ⟨rfl, rfl⟩, hready⟩
  | cons name names ih =>
    obtain ⟨hk, hnext⟩ := of_drop_cons hnames
    obtain ⟨s₁, hfind, hready₁, -⟩ := hready.find h.slots (h.scan_of_mem hk)
    obtain ⟨s', hall, hready'⟩ := ih (k + 1) hnext hready₁
    refine ⟨s', hfind.bind (Returns.bind (returns_unwrap.mpr ⟨rfl, rfl⟩) (hall.bind
      (returns_pure.mpr ⟨?_, rfl⟩))), hready'⟩
    rw [List.length_cons, List.range'_succ, List.map_cons]

/-- **Opening the device again** gives a session with the same files. -/
theorem reopen (h : Represents g D F c) :
    ∃ c', (Session.reopen D).Returns c () c' ∧ Represents g D F c' := by
  obtain ⟨s₁, hopen, hready₁⟩ := h.ready.boot.open_
  have hroot : (g.efs D).rootInode = g.inode D 0 := rootInode_efs (hready₁.holds.lt_inodes (i := 0) rfl)
  obtain ⟨s₂, hls, hready₂, -⟩ := hready₁.ls h.slots h.terminated
  rw [h.map_shown] at hls
  obtain ⟨s₃, hfind, hready₃⟩ := h.returns_findAll F.names 0 rfl hready₂
  rw [← List.range_eq_range', Files.length_names] at hfind
  refine ⟨⟨s₃, g.inode D 0, (List.range F.length).map fun i ↦ g.inode D (i + 1)⟩, ?_, hready₃, rfl, rfl,
    h.proper, h.nodup⟩
  refine Returns.bind (a := ()) (returns_modify.mpr rfl) ((returns_onStorage hopen).bind ?_)
  rw [hroot]
  exact (returns_onStorage hls).bind ((returns_onStorage hfind).bind (returns_modify.mpr rfl))

/-- What is handed out was not in use. -/
theorem alloc_fresh (h : Represents g D F c) :
    (F.length + 1 < g.inodes → ∃ id s', c.root.fs.allocInode.Returns c.storage id s' ∧
      id.toNat ∉ liveInodes g (c.storage.content D)) ∧
    (blocksUsed F.volume < g.capacity → ∃ b s', c.root.fs.allocData.Returns c.storage b s' ∧
      b ∉ liveBlocks g (c.storage.content D)) := by
  have hfs : c.root.fs = g.efs D := by rw [h.root]; rfl
  rw [hfs, h.content, liveInodes_of_holds h.ready.holds, liveBlocks_of_holds h.ready.holds]
  constructor
  · intro hroom
    rw [← Files.length_volume] at hroom
    obtain ⟨m', hm', -⟩ := does_allocInode (D := D) h.ready.holds hroom
    obtain ⟨s', hret, -⟩ := hm' c.storage h.ready.view
    refine ⟨_, s', hret, ?_⟩
    have hlt : F.volume.length < 2 ^ 32 := hroom.trans_le (Nat.min_le_right _ _)
    rw [UInt32.toNat_ofNat_of_lt' hlt, List.mem_range]
    exact lt_irrefl _
  · intro hroom
    rw [← h.ready.holds.length_owned] at hroom
    obtain ⟨b, m', hm', hfresh, -⟩ := h.ready.holds.space.does_allocData (D := D) hroom
      (show ∀ id ∈ ([] : List (ℕ × Bool)).map Prod.fst, id < g.dataBitmapStart by simp) (by simp)
    obtain ⟨s', hret, -⟩ := hm' c.storage h.ready.view
    exact ⟨b, s', hret, hfresh⟩

end Represents

/-- What a user comes to: a file system is made, worked with and opened again. -/
inductive Reached (g : Geometry) (D : DeviceId) : Files → Session → Prop
  | made {c : Session} : Made g D c → Reached g D [] c
  | step {F : Files} {c c' : Session} {op : Op} {out : Out} : Reached g D F c → F.Legal g op →
      op.exec.Returns c out c' → Reached g D (F.step op).2 c'
  | reopened {F : Files} {c c' : Session} : Reached g D F c → (Session.reopen D).Returns c () c' →
      Reached g D F c'

/-- **Every reached session** holds its files. -/
theorem Reached.represents (h : Reached g D F c) : Represents g D F c := by
  induction h with
  | made h => exact h.represents
  | step _ hlegal hret ih =>
    obtain ⟨c'', hret', hrep, -⟩ := ih.step hlegal
    obtain ⟨-, rfl⟩ := hret.det hret'
    exact hrep
  | reopened _ hret ih =>
    obtain ⟨c'', hret', hrep⟩ := ih.reopen
    obtain ⟨-, rfl⟩ := hret.det hret'
    exact hrep

/-- **Everything completed is on the device**: after a run all that is in memory can be lost. The device that
is opened again has the same names and the same bytes, goes on like the byte arrays, and never hands out what
is in use. -/
theorem reopen_same (hmade : Made g D c) (hlegal : Files.LegalRun g [] ops) :
    ∃ c' c₁, (Op.execAll ops).Returns c (Files.run [] ops).1 c' ∧ (Session.reopen D).Returns c' () c₁ ∧
      (∃ c₂, Op.ls.exec.Returns c₁ (.listed (listing ops)) c₂) ∧
      (∀ i < (listing ops).length, ∀ offset buf, ∃ c₂, (Op.readAt i offset buf).exec.Returns c₁
        (.read (min buf.length ((written i ops).length - offset)) (readInto (written i ops) offset buf))
        c₂) ∧
      ∀ later, Files.LegalRun g (Files.run [] ops).2 later →
        ∃ c₂, (Op.execAll later).Returns c₁ (Files.run (Files.run [] ops).2 later).1 c₂ ∧
          ((listing (ops ++ later)).length + 1 < g.inodes → ∃ id s,
            c₂.root.fs.allocInode.Returns c₂.storage id s ∧
              id.toNat ∉ liveInodes g (c₂.storage.content D)) ∧
          (blocksUsed (Files.run (Files.run [] ops).2 later).2.volume < g.capacity → ∃ b s,
            c₂.root.fs.allocData.Returns c₂.storage b s ∧ b ∉ liveBlocks g (c₂.storage.content D)) := by
  obtain ⟨c', hret, hrep⟩ := hmade.represents.run hlegal
  obtain ⟨c₁, hreopen, hrep₁⟩ := hrep.reopen
  have hnames : (Files.run [] ops).2.names = listing ops := Files.names_run [] ops
  refine ⟨c', c₁, hret, hreopen, ?_, fun i hi offset buf ↦ ?_, fun later hlater ↦ ?_⟩
  · obtain ⟨c₂, hls, -⟩ := hrep₁.step (show Files.Legal g _ .ls from trivial)
    rw [Files.step, hnames] at hls
    exact ⟨c₂, hls⟩
  · rw [← hnames, Files.length_names] at hi
    obtain ⟨c₂, hread, -⟩ := hrep₁.step (show Files.Legal g _ (.readAt i offset buf) from hi)
    rw [Files.step, Files.bytes_run hlegal] at hread
    exact ⟨c₂, hread⟩
  · obtain ⟨c₂, hret₂, hrep₂⟩ := hrep₁.run hlater
    have hall : (Files.run (Files.run [] ops).2 later).2.names = listing (ops ++ later) := by
      rw [Files.names_run, hnames, listing, listing, List.foldl_append]
    have hfresh := hrep₂.alloc_fresh
    rw [← Files.length_names, hall] at hfresh
    exact ⟨c₂, hret₂, hfresh⟩

theorem reopen_same_small : ∃ c, Made smallFs 0 c ∧ ∃ c' c₁,
    (Op.execAll smallRun).Returns c (Files.run [] smallRun).1 c' ∧ (Session.reopen 0).Returns c' () c₁ ∧
      ∃ c₂, Op.ls.exec.Returns c₁ (.listed ["a", "bc"]) c₂ := by
  obtain ⟨c, hmade⟩ := exists_made (g := smallFs) (D := 0) (by decide)
  obtain ⟨c', c₁, hret, hreopen, hls, -⟩ := @reopen_same smallFs 0 c smallRun hmade (by decide +kernel)
  exact ⟨c, hmade, c', c₁, hret, hreopen, hls⟩

end AgentOS.Fs
