import Mathlib
import AgentOS.Fs.OpenFile

/-!
# The image of the apps

`easy-fs-fuse/src/main.rs` writes the user programs into an image, each under its name up to the first dot. The
kernel opens the image from what is on the device, finds a program by its name and reads all of it.
-/

namespace AgentOS.Fs

open Exec

/-- A name without what the first dot begins. There must be one. -/
def stem (nameWithExt : String) : Option String :=
  if '.' ∈ nameWithExt.toList then some (String.ofList (nameWithExt.toList.takeWhile (· ≠ '.')))
  else none

/-- The loop over the apps, with what the host has under the target path. -/
def packApps (root : Inode) (target : String → Option (List UInt8)) : List String → Exec Storage Unit
  | [] => pure ()
  | app :: apps => do
    -- load app data from host file system
    let allData ← unwrap (target app)
    -- create a file in easy-fs
    let created ← root.create app
    let inode ← unwrap created
    -- write data to easy-fs
    let _ ← inode.writeAt 0 allData
    packApps root target apps

/-- Pack the apps of a source directory into the image. -/
def easyFsPack (blockFile : DeviceId) (srcDir : List String) (target : String → Option (List UInt8)) :
    Exec Storage Unit := do
  -- 16MiB, at most 4095 files
  let efs ← EasyFileSystem.create blockFile (16 * 2048) 1
  let rootInode := efs.rootInode
  let apps ← unwrap (srcDir.mapM stem)
  packApps rootInode target apps

/-- What `sys_exec` and `INITPROC` read. -/
def loadApp (root : Inode) (path : String) : Exec Storage (Option (List UInt8)) := do
  let opened ← openFile root path .RDONLY
  if let some appInode := opened then
    let (allData, _) ← appInode.readAll
    pure (some allData)
  else pure none

/-- Programs that are loaded one after the other. -/
def loadApps (root : Inode) : List String → Exec Storage (List (Option (List UInt8)))
  | [] => pure []
  | path :: paths => do
    let allData ← loadApp root path
    let rest ← loadApps root paths
    pure (allData :: rest)

/-- The shape of the image. -/
def imageFs : Geometry := { totalBlocks := 16 * 2048, inodeBitmapBlocks := 1, fits := by decide }

/-- The apps are those of the source directory, under different names that fit, none of them is empty, and there
is room for all. -/
structure Packable (srcDir : List String) (target : String → Option (List UInt8)) (apps : Files) : Prop where
  names : srcDir.mapM stem = some apps.names
  data : ∀ app ∈ apps, target app.1 = some app.2
  proper : ∀ name ∈ apps.names, Proper name
  nodup : apps.names.Nodup
  written : ∀ app ∈ apps, app.2 ≠ []
  room : apps.Room imageFs

/-! ## Room -/

namespace Files

variable {g : Geometry} {F G : Files}

theorem blocksUsed_volume (F : Files) : blocksUsed F.volume =
    DiskInode.refsLength (blocksFor (dirBytes F.names).length) +
      (F.map fun p ↦ DiskInode.refsLength (blocksFor p.2.length)).sum := by
  rw [blocksUsed, volume, List.map_cons, List.sum_cons, List.map_map]
  rfl

/-- There is room for fewer files too. -/
theorem Room.of_append (h : Room g (F ++ G)) : Room g F := by
  have hdir : (dirBytes F.names).length ≤ (dirBytes (names (F ++ G))).length := by
    rw [length_dirBytes, length_dirBytes, length_names, length_names, List.length_append]
    exact Nat.mul_le_mul_right _ (Nat.le_add_right _ _)
  refine ⟨?_, fun bytes hbytes ↦ ?_, ?_⟩
  · have hlen := h.inodes
    simp only [length_volume, List.length_append] at hlen ⊢
    omega
  · rcases List.mem_cons.mp hbytes with rfl | hbytes
    · exact hdir.trans (h.short _ List.mem_cons_self)
    · refine h.short _ (List.mem_cons_of_mem _ ?_)
      rw [List.map_append]
      exact List.mem_append_left _ hbytes
  · have hspace := h.space
    rw [blocksUsed_volume, List.map_append, List.sum_append] at hspace
    rw [blocksUsed_volume]
    have hmono := DiskInode.refsLength_mono (DiskInode.blocksFor_mono hdir)
    omega

theorem put_concat (F : Files) (name : String) (bytes bytes' : List UInt8) :
    put (F ++ [(name, bytes)]) F.length bytes' = F ++ [(name, bytes')] := by
  rw [put]
  induction F with
  | nil => rfl
  | cons p F ih => exact congrArg (p :: ·) ih

theorem bytes_concat_self (F : Files) (name : String) (bytes' : List UInt8) :
    bytes (F ++ [(name, bytes')]) F.length = bytes' := by
  simp [bytes]

/-- There is room for an empty file in its place. -/
theorem Room.of_concat {name : String} {bytes' : List UInt8} (h : Room g (F ++ [(name, bytes')])) :
    Room g (F ++ [(name, [])]) := by
  have hi : F.length < (F ++ [(name, bytes')]).length := by simp
  have hsame : volume (F ++ [(name, bytes')]) = (volume (F ++ [(name, bytes')])).set (F.length + 1) bytes' := by
    rw [← volume_put, put_concat]
  unfold Room at h ⊢
  rw [hsame] at h
  rw [← put_concat F name bytes' [], volume_put]
  exact h.shorter (getElem?_bytes hi) [] (Nat.zero_le _)

end Files

/-! ## Packing and loading -/

variable {g : Geometry} {D : DeviceId} {F apps : Files} {s : Storage} {srcDir : List String}
  {target : String → Option (List UInt8)}

namespace Stores

/-- **Each app is packed** behind those before it. -/
theorem packApps (h : Stores g D F s) (hdata : ∀ app ∈ apps, target app.1 = some app.2)
    (hproper : ∀ name ∈ apps.names, Proper name) (hnodup : (Files.names (F ++ apps)).Nodup)
    (hwritten : ∀ app ∈ apps, app.2 ≠ []) (hroom : Files.Room g (F ++ apps)) :
    ∃ s', (Fs.packApps (g.inode D 0) target apps.names).Returns s () s' ∧ Stores g D (F ++ apps) s' := by
  induction apps generalizing F s with
  | nil => exact ⟨s, returns_pure.mpr ⟨rfl, rfl⟩, by rwa [List.append_nil]⟩
  | cons app apps ih =>
    obtain ⟨name, data⟩ := app
    have hsplit : F ++ (name, data) :: apps = F ++ [(name, data)] ++ apps := List.append_cons F _ apps
    rw [hsplit] at hnodup hroom ⊢
    have hone : Files.Room g (F ++ [(name, data)]) := hroom.of_append
    have hnew : name ∉ F.names := by
      intro hmem
      have hnames : Files.names (F ++ [(name, data)] ++ apps) = F.names ++ name :: Files.names apps := by
        simp [Files.names]
      rw [hnames] at hnodup
      exact (List.nodup_append.mp hnodup).2.2 name hmem name List.mem_cons_self rfl
    obtain ⟨s₁, hcreate, h₁⟩ := h.create (Files.find_eq_none.mpr hnew)
      (hproper name List.mem_cons_self) hone.of_concat
    have hi : F.length < (F ++ [(name, ([] : List UInt8))]).length := by simp
    have hput : overlay (Files.bytes (F ++ [(name, ([] : List UInt8))]) F.length) 0 data = data := by
      rw [Files.bytes_concat_self]
      exact overlay_length [] data
    obtain ⟨s₂, hwrite, hready, -⟩ := h₁.ready.writeAt (Files.getElem?_bytes hi)
      (div_lt_of_ne_nil _ _ (hwritten _ List.mem_cons_self))
      (by rw [hput, ← Files.volume_put, Files.put_concat]; exact hone)
    rw [hput] at hready
    have h₂ := h₁.of_put hready
    rw [Files.put_concat] at h₂
    obtain ⟨s', hrest, h'⟩ := ih h₂ (fun app hmem ↦ hdata app (List.mem_cons_of_mem _ hmem))
      (fun n hn ↦ hproper n (List.mem_cons_of_mem _ hn)) hnodup
      (fun app hmem ↦ hwritten app (List.mem_cons_of_mem _ hmem)) hroom
    exact ⟨s', Returns.bind (returns_unwrap.mpr ⟨hdata _ List.mem_cons_self, rfl⟩) (hcreate.bind
      (Returns.bind (returns_unwrap.mpr ⟨rfl, rfl⟩) (hwrite.bind hrest))), h'⟩

/-- **Loading a program** gives all of its file, if there is one. -/
theorem loadApp (h : Stores g D F s) (path : String) :
    ∃ s', (Fs.loadApp (g.inode D 0) path).Returns s ((F.find path).map F.bytes) s' ∧ Stores g D F s' := by
  have hmay : F.MayOpen g path .RDONLY := fun hcreate ↦ absurd hcreate (by decide)
  have hmode : OpenFlags.RDONLY.readWrite = (true, false) := by decide
  obtain ⟨s₁, hopen, h₁⟩ := h.openFile hmay
  rw [hmode] at hopen
  cases hfind : F.find path with
  | none =>
    rw [Files.openFile_of_not_find hfind, if_neg (by decide)] at hopen h₁
    exact ⟨s₁, hopen.bind (returns_pure.mpr ⟨rfl, rfl⟩), h₁⟩
  | some i =>
    rw [Files.openFile_of_find hfind, if_neg (by decide)] at hopen h₁
    obtain ⟨file, s₂, hread, h₂⟩ := h₁.readAll (Files.find_lt hfind) true false
    refine ⟨s₂, ?_, h₂⟩
    unfold Fs.loadApp
    refine hopen.bind ?_
    exact Returns.bind hread (returns_pure.mpr ⟨rfl, rfl⟩)

theorem loadApps (h : Stores g D F s) (paths : List String) :
    ∃ s', (Fs.loadApps (g.inode D 0) paths).Returns s (paths.map fun path ↦ (F.find path).map F.bytes) s' ∧
      Stores g D F s' := by
  induction paths generalizing s with
  | nil => exact ⟨s, returns_pure.mpr ⟨rfl, rfl⟩, h⟩
  | cons path paths ih =>
    obtain ⟨s₁, hload, h₁⟩ := h.loadApp path
    obtain ⟨s', hrest, h'⟩ := ih h₁
    exact ⟨s', hload.bind (hrest.bind (returns_pure.mpr ⟨rfl, rfl⟩)), h'⟩

end Stores

/-- A file system without files. -/
theorem Ready.stores_nil (h : Ready g D (Files.volume []) s) : Stores g D [] s :=
  ⟨h, by simp [Files.names], List.nodup_nil⟩

theorem Files.find_map_bytes (F : Files) (path : String) :
    (F.find path).map F.bytes = F.lookup path := by
  induction F with
  | nil => rfl
  | cons p F ih =>
    obtain ⟨name, data⟩ := p
    rw [List.lookup_cons, ← ih]
    by_cases heq : name = path
    · subst heq
      simp [find, names, bytes, List.findIdx?_cons]
    · have hne : (path == name) = false := beq_eq_false_iff_ne.mpr (Ne.symm heq)
      have hbytes : ∀ i, bytes ((name, data) :: F) (i + 1) = bytes F i := fun i ↦ rfl
      rw [hne, find, find, names, List.map_cons, List.findIdx?_cons, beq_eq_false_iff_ne.mpr heq]
      simp only [Bool.false_eq_true, if_false, Option.map_map, Function.comp_def, hbytes]
      rfl

/-- **What is packed is what is loaded**: the image can be packed on a device that may have held anything, and
whoever opens it afterwards, with nothing in memory, sees the apps in the order of the source directory. However
often and in which order programs are loaded, each is what the host had under its name, and there are no others. -/
theorem packed_loads (h : Packable srcDir target apps) (D : DeviceId) (device : DeviceId → ℕ → Block) :
    ∃ s root s₁ s₂, (easyFsPack D srcDir target).Returns (Storage.boot device) () s ∧
      (rootInode D).Returns (Storage.boot s.device) root s₁ ∧ root.ls.Returns s₁ apps.names s₂ ∧
      ∀ paths, ∃ s₃, (loadApps root paths).Returns s₂ (paths.map fun path ↦ apps.lookup path) s₃ := by
  obtain ⟨s₀, hcreate, hready₀⟩ := create_returns (g := imageFs) (D := D) (by decide) (view_boot device)
  have hroot : (imageFs.efs D).rootInode = imageFs.inode D 0 :=
    rootInode_efs (hready₀.holds.lt_inodes (i := 0) rfl)
  obtain ⟨s, hpack, hstores⟩ := hready₀.stores_nil.packApps h.data h.proper (by simpa using h.nodup) h.written
    (by simpa using h.room)
  rw [List.nil_append] at hstores
  obtain ⟨s₁, hopen, hready₁⟩ := hstores.boot.ready.open_
  have hstores₁ := hstores.of_ready hready₁
  obtain ⟨s₂, hls, hready₂, -⟩ := hready₁.ls hstores.represents.slots hstores.represents.terminated
  rw [hstores.represents.map_shown] at hls
  refine ⟨s, imageFs.inode D 0, s₁, s₂, ?_, hopen.bind (returns_pure.mpr ⟨hroot.symm, rfl⟩), hls, fun paths ↦ ?_⟩
  · rw [show imageFs.totalBlocks = 16 * 2048 from rfl, show imageFs.inodeBitmapBlocks = 1 from rfl] at hcreate
    unfold easyFsPack
    refine hcreate.bind ?_
    dsimp only
    rw [hroot]
    exact Returns.bind (returns_unwrap.mpr ⟨h.names, rfl⟩) hpack
  · obtain ⟨s₃, hload, -⟩ := (hstores.of_ready hready₂).loadApps paths
    simp only [Files.find_map_bytes] at hload
    exact ⟨s₃, hload⟩

/-- Two small programs. -/
def smallApps : Files := [("initproc", [127, 69, 76, 70]), ("user_shell", [1, 2, 3])]

theorem packed_loads_small : ∃ s root s₁ s₂ s₃,
    (easyFsPack 0 ["initproc.rs", "user_shell.rs"] fun app ↦ List.lookup app smallApps).Returns
      (Storage.boot fun _ _ ↦ zeroBlock) () s ∧ (rootInode 0).Returns (Storage.boot s.device) root s₁ ∧
      root.ls.Returns s₁ ["initproc", "user_shell"] s₂ ∧
      (loadApps root ["user_shell", "initproc", "cat"]).Returns s₂
        [some [1, 2, 3], some [127, 69, 76, 70], none] s₃ := by
  have hpackable : Packable ["initproc.rs", "user_shell.rs"] (fun app ↦ List.lookup app smallApps) smallApps :=
    ⟨by decide +kernel, by decide, by decide +kernel, by decide, by decide, by decide +kernel⟩
  obtain ⟨s, root, s₁, s₂, hpack, hroot, hls, hload⟩ := packed_loads hpackable 0 fun _ _ ↦ zeroBlock
  obtain ⟨s₃, hload₃⟩ := hload ["user_shell", "initproc", "cat"]
  exact ⟨s, root, s₁, s₂, s₃, hpack, hroot, hls, hload₃⟩

end AgentOS.Fs
