import Mathlib
import AgentOS.Fs.Directory

/-!
# Making and opening a file system

`create` clears the device and writes a super block and an empty root directory. `open` only reads the super
block, and comes to the same file system, so that everything can be found again when nothing of it has been
kept in memory.
-/

namespace AgentOS.Fs

open Exec

attribute [local instance] threeHeld

variable {g : Geometry} {D : DeviceId} {s s' : Storage} {m : ℕ → Block} {V : Volume}

/-- Clearing blocks. -/
theorem does_clearBlocks (ids : List ℕ) : ∃ m', Does D (EasyFileSystem.clearBlocks D ids) [] m () m' ∧
    (∀ id ∈ ids, m' id = zeroBlock) ∧ ∀ id, m id = zeroBlock → m' id = zeroBlock := by
  induction ids generalizing m with
  | nil => exact ⟨m, does_pure _, nofun, fun _ h ↦ h⟩
  | cons i ids ih =>
    have hzero : Does D (modifyBlock D i dataBlock 0 fun _ ↦ pure ((), zeroBlock)) [] m () _ :=
      does_modifyBlock (by simp) (by simp) (by decide) (does_pure _)
    rw [dataBlock, ByteLayout.write_bytes_self] at hzero
    obtain ⟨m', hm', hall, hkeep⟩ := ih (m := Function.update m i zeroBlock)
    refine ⟨m', hzero.bind hm', fun id hid ↦ ?_, fun id h ↦ hkeep id ?_⟩
    · rcases List.mem_cons.mp hid with rfl | hid
      · exact hkeep id (Function.update_self _ _ _)
      · exact hall id hid
    · by_cases heq : id = i
      · rw [heq, Function.update_self]
      · rw [Function.update_of_ne heq, h]

theorem read_zeroBlock : bitmapBlock.read 0 zeroBlock = Vector.replicate 64 0 := by
  refine Vector.ext fun i hi ↦ ?_
  have hcells : ByteLayout.cells zeroBlock = fun _ ↦ 0 := funext cells_zeroBlock
  rw [Vector.getElem_replicate, ByteLayout.read, hcells]
  change (Vector.ofFn fun i : Fin 64 ↦ ByteLayout.u64.get fun _ ↦ 0)[i] = 0
  rw [Vector.getElem_ofFn]
  rfl

/-- In a bitmap of zeros no bit is set. -/
theorem bit_of_zero {b : Bitmap} (hzero : ∀ id, b.Region id → m id = zeroBlock) {i : ℕ}
    (hi : i < b.maximum) : b.bit m i = false := by
  have hblock := hzero _ (Bitmap.region_block ((Nat.div_lt_iff_lt_mul (by decide)).mpr hi))
  have hmod : i % blockBits < blockBits := Nat.mod_lt _ (by decide)
  have hword : i % blockBits / 64 < 64 := (Nat.div_lt_iff_lt_mul (by decide)).mpr hmod
  rw [Bitmap.bit, hblock, read_zeroBlock, BitmapBlock.bit, dif_pos hword, Vector.getElem_replicate]
  simp [Word.bit]

/-- Behind the super block there is nothing yet. -/
theorem holds_nil (hsuper : SuperBlock.layout.read 0 (m 0) = g.superBlock)
    (hzero : ∀ id, 0 < id → id < g.totalBlocks.toNat → m id = zeroBlock) : Holds g [] m := by
  have hareas := g.areas
  have hsum := g.dataStart_add_dataBlocks
  refine ⟨hsuper, Nat.zero_le _, fun i hi ↦ ?_, nofun, List.nodup_nil, nofun, fun i hi ↦ ?_, ?_⟩
  · rw [bit_of_zero (b := g.inodeBitmap) (fun id hreg ↦ ?_) hi]
    · rfl
    · obtain ⟨hle, hlt⟩ : 1 ≤ id ∧ id < 1 + g.inodeBitmapBlocks.toNat := hreg
      have hstart : g.inodeStart = 1 + g.inodeBitmapBlocks.toNat := rfl
      exact hzero id hle (by omega)
  · rw [bit_of_zero (b := g.dataBitmap) (fun id hreg ↦ ?_) hi]
    · simp [owned]
    · have hreg' := Space.region_lt hreg
      exact hzero id (by omega) (by omega)
  · intro id hle hlt _
    exact hzero id (by omega) (by omega)

/-- `create` and `open` come to the same areas. -/
theorem efs_eq (g : Geometry) (D : DeviceId) :
    ({ blockDevice := D, inodeBitmap := { startBlockId := 1, blocks := g.inodeBitmapBlocks.toNat },
       dataBitmap :=
        { startBlockId :=
            (1 + (g.inodeBitmapBlocks + UInt32.ofNat (1024 * g.inodeBitmapBlocks.toNat))).toNat
          blocks := (UInt32.ofNat g.dataBitmapBlocks).toNat }
       inodeAreaStartBlock := 1 + g.inodeBitmapBlocks
       dataAreaStartBlock := 1 + (g.inodeBitmapBlocks + UInt32.ofNat (1024 * g.inodeBitmapBlocks.toNat)) +
        UInt32.ofNat g.dataBitmapBlocks } : EasyFileSystem) = g.efs D := by
  rw [g.inodeTotalBlocks_eq, g.toNat_dataBitmapStart, g.toNat_dataBitmapBlocks, g.inodeStart_eq,
    g.dataStart_eq]
  rfl

/-- The first lines of `create`: the file system, and what goes to the super block. -/
def createLayout (dev : DeviceId) (totalBlocks inodeBitmapBlocks : UInt32) : EasyFileSystem × SuperBlock :=
  let inodeBitmap : Bitmap := { startBlockId := 1, blocks := inodeBitmapBlocks.toNat }
  let inodeNum := inodeBitmap.maximum
  let inodeAreaBlocks := UInt32.ofNat ((inodeNum * DiskInode.layout.size + blockSz - 1) / blockSz)
  let inodeTotalBlocks := inodeBitmapBlocks + inodeAreaBlocks
  let dataTotalBlocks := totalBlocks - 1 - inodeTotalBlocks
  let dataBitmapBlocks := (dataTotalBlocks + 4096) / 4097
  let dataAreaBlocks := dataTotalBlocks - dataBitmapBlocks
  ({ blockDevice := dev
     inodeBitmap
     dataBitmap := { startBlockId := (1 + inodeTotalBlocks).toNat, blocks := dataBitmapBlocks.toNat }
     inodeAreaStartBlock := 1 + inodeBitmapBlocks
     dataAreaStartBlock := 1 + inodeTotalBlocks + dataBitmapBlocks },
   { magic := efsMagic, totalBlocks, inodeBitmapBlocks, inodeAreaBlocks, dataBitmapBlocks,
     dataAreaBlocks })

/-- `create` lays out the disk, and then writes to it. -/
theorem create_eq (dev : DeviceId) (totalBlocks inodeBitmapBlocks : UInt32) :
    EasyFileSystem.create dev totalBlocks inodeBitmapBlocks = (do
      let (efs, superBlock) := createLayout dev totalBlocks inodeBitmapBlocks
      EasyFileSystem.clearBlocks dev (List.range totalBlocks.toNat)
      modifyBlock dev 0 SuperBlock.layout 0 fun _ ↦ pure ((), superBlock)
      let id ← efs.allocInode
      assert (id = 0)
      let pos := efs.getDiskInodePos 0
      modifyBlock dev pos.1.toNat DiskInode.layout pos.2 fun _ ↦
        pure ((), DiskInode.initializeInode .directory)
      blockCacheSyncAll
      pure efs) := rfl

theorem createLayout_eq (g : Geometry) (D : DeviceId) :
    createLayout D g.totalBlocks g.inodeBitmapBlocks = (g.efs D, g.superBlock) := by
  have hblocks : UInt32.ofNat ((({ startBlockId := 1, blocks := g.inodeBitmapBlocks.toNat } : Bitmap).maximum *
      DiskInode.layout.size + blockSz - 1) / blockSz) = UInt32.ofNat (1024 * g.inodeBitmapBlocks.toNat) :=
    g.inodeAreaBlocks_eq
  have htotal : (g.totalBlocks - 1 -
      (g.inodeBitmapBlocks + UInt32.ofNat (1024 * g.inodeBitmapBlocks.toNat))) =
        UInt32.ofNat g.dataTotalBlocks := by rw [g.inodeTotalBlocks_eq, g.dataTotalBlocks_eq]
  unfold createLayout
  dsimp only
  rw [hblocks, htotal, g.dataBitmapBlocks_eq, g.dataBlocks_eq, efs_eq g D]
  rfl

/-- **Opening** a device with a super block gives the file system it was written for. -/
theorem reads_open_of_superBlock (h : SuperBlock.layout.read 0 (m 0) = g.superBlock) :
    Reads D (EasyFileSystem.open_ D) [] m (g.efs D) := by
  refine reads_readBlock (by simp) (by simp) (by decide) ?_
  rw [h]
  refine (reads_assert rfl).bind ?_
  rw [← efs_eq g D]
  exact reads_pure _

theorem reads_open (h : Holds g V m) : Reads D (EasyFileSystem.open_ D) [] m (g.efs D) :=
  reads_open_of_superBlock h.superBlock

/-- **Making a file system** leaves an empty directory. -/
theorem create_returns (hpos : 0 < g.inodeBitmapBlocks.toNat) (h : View D [] m s) :
    ∃ s', (EasyFileSystem.create D g.totalBlocks g.inodeBitmapBlocks).Returns s (g.efs D) s' ∧
      Ready g D (Files.volume []) s' := by
  have hareas := g.areas
  obtain ⟨m₁, hm₁, hzero, -⟩ := does_clearBlocks (D := D) (m := m) (List.range g.totalBlocks.toNat)
  have hsuper : Does D (modifyBlock D 0 SuperBlock.layout 0 fun _ ↦ pure ((), g.superBlock)) [] m₁ () _ :=
    does_modifyBlock (by simp) (by simp) (by decide) (does_pure _)
  have hnil : Holds g [] (Function.update m₁ 0 (SuperBlock.layout.write 0 g.superBlock (m₁ 0))) := by
    refine holds_nil ?_ fun id hid hlt ↦ ?_
    · rw [Function.update_self, ByteLayout.read_write (by decide)]
    · rw [Function.update_of_ne hid.ne']
      exact hzero id (List.mem_range.mpr hlt)
  have hroom : 0 < g.inodes := by
    have hmax : 0 < g.inodeBitmap.maximum := Nat.mul_pos hpos (by decide)
    exact lt_min hmax (by decide)
  obtain ⟨m₂, hm₂, hsets⟩ := does_allocInode (D := D) hnil hroom
  obtain ⟨m₃, hm₃, hholds, -⟩ := does_initialize (D := D) hnil hroom hsets (t := .directory) rfl
  obtain ⟨s₁, hret₁, hview₁, -⟩ := hm₁ s h
  obtain ⟨s₂, hret₂, hview₂, -⟩ := hsuper s₁ hview₁
  obtain ⟨s₃, hret₃, hview₃, -⟩ := hm₂ s₂ hview₂
  obtain ⟨s₄, hret₄, hview₄, -⟩ := hm₃ s₃ hview₃
  obtain ⟨s', hsync, hview', -, hdevice⟩ := hview₄.syncAll
  refine ⟨s', ?_, by rwa [hdevice], by rwa [hdevice]⟩
  rw [create_eq, createLayout_eq]
  exact hret₁.bind (hret₂.bind (hret₃.bind ((returns_assert_of rfl s₃).bind (hret₄.bind (hsync.bind
    (returns_pure.mpr ⟨rfl, rfl⟩))))))

/-- Without a bitmap for the inodes there is none for the root directory. -/
theorem pos_of_create {total inodeBitmapBlocks : UInt32} {efs : EasyFileSystem}
    (h : (EasyFileSystem.create D total inodeBitmapBlocks).Returns s efs s') :
    0 < inodeBitmapBlocks.toNat := by
  obtain ⟨_, _, -, h₁⟩ := returns_bind.mp h
  obtain ⟨_, _, -, h₂⟩ := returns_bind.mp h₁
  obtain ⟨_, _, halloc, -⟩ := returns_bind.mp h₂
  obtain ⟨_, _, hbit, hunwrap⟩ := returns_bind.mp halloc
  by_contra hzero
  have hblocks : inodeBitmapBlocks.toNat = 0 := Nat.eq_zero_of_not_pos hzero
  dsimp only at hbit
  rw [Bitmap.alloc, hblocks] at hbit
  obtain ⟨rfl, rfl⟩ := returns_pure.mp hbit
  obtain ⟨_, _, hnone, -⟩ := returns_bind.mp hunwrap
  exact absurd (returns_unwrap.mp hnone).1 (by simp)

/-- **Nothing is lost** when all that is in memory is: the device can be opened again. -/
theorem Ready.boot (h : Ready g D V s) : Ready g D V (Storage.boot s.device) where
  view := ⟨Storage.wf_boot _, nofun, congrFun (Storage.content_boot _) D, rfl, List.Forall₂.nil⟩
  holds := h.holds

end AgentOS.Fs
