import Mathlib
import AgentOS.Fs.OSInode

/-!
# Opening files

The rest of `os/src/fs/inode.rs`. The kernel knows a file by its name: `open_file` looks for the name in the root
directory, and depending on the flags the file is created or its bytes are thrown away. To its user this is one
operation on the named byte arrays, `Files.openFile`.
-/

namespace AgentOS.Fs

open Exec

/-- Open file flags -/
structure OpenFlags where
  bits : UInt32
  deriving DecidableEq, Repr

namespace OpenFlags

/-- Read only -/
def RDONLY : OpenFlags := ⟨0⟩

/-- Write only -/
def WRONLY : OpenFlags := ⟨(1 : UInt32) <<< 0⟩

/-- Read & Write -/
def RDWR : OpenFlags := ⟨(1 : UInt32) <<< 1⟩

/-- Allow create -/
def CREATE : OpenFlags := ⟨(1 : UInt32) <<< 9⟩

/-- Clear file and return an empty one -/
def TRUNC : OpenFlags := ⟨(1 : UInt32) <<< 10⟩

def all : OpenFlags := ⟨RDONLY.bits ||| WRONLY.bits ||| RDWR.bits ||| CREATE.bits ||| TRUNC.bits⟩

/-- `none` when a bit is set that is no flag. -/
def fromBits (bits : UInt32) : Option OpenFlags :=
  if bits &&& ~~~all.bits = 0 then some ⟨bits⟩ else none

def isEmpty (self : OpenFlags) : Bool := self.bits == 0

def contains (self other : OpenFlags) : Bool := self.bits &&& other.bits == other.bits

/-- Do not check validity for simplicity. Return (readable, writable) -/
def readWrite (self : OpenFlags) : Bool × Bool :=
  if self.isEmpty then (true, false)
  else if self.contains WRONLY then (false, true)
  else (true, true)

end OpenFlags

/-- The loop of `read_all`, with at most so many turns. -/
def OSInodeInner.readAllFrom :
    ℕ → OSInodeInner → List UInt8 → List UInt8 → Exec Storage (List UInt8 × OSInodeInner)
  | 0, _, _, _ => panic
  | turns + 1, inner, buffer, v => do
    let (len, buffer) ← inner.inode.readAt inner.offset buffer
    if len = 0 then pure (v, inner)
    else
      let inner := { inner with offset := inner.offset + len }
      inner.readAllFrom turns buffer (v ++ buffer.take len)

namespace OSInode

/-- Construct an OS inode from a inode -/
def new (readable writable : Bool) (inode : Inode) : OSInode :=
  { readable, writable, inner := { offset := 0, inode } }

/-- More turns than there are: every one but the last goes forward, and the size of an inode has 32 bits. -/
def readAllTurns : ℕ := 2 ^ 32 + 1

/-- Read all data inside a inode into vector -/
def readAll (self : OSInode) : Exec Storage (List UInt8 × OSInode) := do
  let (v, inner) ← self.inner.readAllFrom readAllTurns (List.replicate 512 0) []
  pure (v, { self with inner })

end OSInode

/-- `ROOT_INODE` -/
def rootInode (dev : DeviceId) : Exec Storage Inode := do
  let efs ← EasyFileSystem.open_ dev
  pure efs.rootInode

/-- Open file with flags -/
def openFile (root : Inode) (name : String) (flags : OpenFlags) : Exec Storage (Option OSInode) := do
  let readable := flags.readWrite.1
  let writable := flags.readWrite.2
  if flags.contains .CREATE then
    let found ← root.find name
    if let some inode := found then
      -- clear size
      inode.clear
      pure (some (.new readable writable inode))
    else
      -- create file
      let created ← root.create name
      pure (created.map (.new readable writable))
  else
    let found ← root.find name
    if let some inode := found then
      let _ ← if flags.contains .TRUNC then inode.clear else pure ()
      pure (some (.new readable writable inode))
    else pure none

/-! ## The files by their names -/

namespace Files

/-- The place of a name. -/
def find (F : Files) (name : String) : Option ℕ := F.names.findIdx? (· == name)

/-- Opening a name: the place of its file, and the files afterwards. -/
def openFile (F : Files) (name : String) (flags : OpenFlags) : Option ℕ × Files :=
  if let some i := F.find name then
    (some i, if flags.contains .CREATE ∨ flags.contains .TRUNC then F.put i [] else F)
  else if flags.contains .CREATE then (some F.length, F ++ [(name, [])])
  else (none, F)

/-- A name that is created is proper, and there is room for one more file. -/
def MayOpen (g : Geometry) (F : Files) (name : String) (flags : OpenFlags) : Prop :=
  flags.contains .CREATE → name ∉ F.names → Proper name ∧ Room g (F ++ [(name, [])])

instance (g : Geometry) (F : Files) (name : String) (flags : OpenFlags) :
    Decidable (F.MayOpen g name flags) :=
  inferInstanceAs (Decidable (_ → _ → _ ∧ _))

variable {F : Files} {name : String} {flags : OpenFlags} {i : ℕ}

theorem find_eq_some (h : F.find name = some i) : F.names[i]? = some name := by
  obtain ⟨hlt, heq, -⟩ := List.findIdx?_eq_some_iff_getElem.mp h
  rw [List.getElem?_eq_getElem hlt, eq_of_beq heq]

theorem find_eq_none : F.find name = none ↔ name ∉ F.names := by
  rw [find, List.findIdx?_eq_none_iff]
  constructor
  · intro h hmem
    simpa using h name hmem
  · intro h x hx
    exact beq_eq_false_iff_ne.mpr fun heq ↦ h (heq ▸ hx)

theorem find_lt (h : F.find name = some i) : i < F.length := by
  rw [← length_names]
  exact (List.getElem?_eq_some_iff.mp (find_eq_some h)).1

theorem openFile_of_find (h : F.find name = some i) : F.openFile name flags =
    (some i, if flags.contains .CREATE ∨ flags.contains .TRUNC then F.put i [] else F) := by
  rw [openFile, h]

theorem openFile_of_not_find (h : F.find name = none) : F.openFile name flags =
    if flags.contains .CREATE then (some F.length, F ++ [(name, [])]) else (none, F) := by
  rw [openFile, h]

end Files

/-- The storage holds the files, and every name can be found. -/
structure Stores (g : Geometry) (D : DeviceId) (F : Files) (s : Storage) : Prop where
  ready : Ready g D F.volume s
  proper : ∀ name ∈ F.names, Proper name
  nodup : F.names.Nodup

variable {g : Geometry} {D : DeviceId} {F : Files} {c : Session} {s : Storage} {name : String} {i : ℕ}

theorem Represents.stores (h : Represents g D F c) : Stores g D F c.storage := ⟨h.ready, h.proper, h.nodup⟩

namespace Stores

/-- A session that has all files open. -/
theorem represents (h : Stores g D F s) : Represents g D F
    ⟨s, g.inode D 0, (List.range F.length).map fun i ↦ g.inode D (i + 1)⟩ :=
  ⟨h.ready, rfl, rfl, h.proper, h.nodup⟩

theorem of_ready (h : Stores g D F s) {s' : Storage} (hready : Ready g D F.volume s') : Stores g D F s' :=
  ⟨hready, h.proper, h.nodup⟩

theorem of_put (h : Stores g D F s) {s' : Storage} {bytes : List UInt8}
    (hready : Ready g D (F.volume.set (i + 1) bytes) s') : Stores g D (F.put i bytes) s' :=
  (h.represents.of_put hready).stores

/-- After everything in memory is lost. -/
theorem boot (h : Stores g D F s) : Stores g D F (Storage.boot s.device) := h.of_ready h.ready.boot

/-- The names are looked through until the first that is the same. -/
theorem scan_eq (h : Stores g D F s) (name : String) : scan name F.names 0 = some (F.find name) := by
  cases hfind : F.find name with
  | none => exact h.represents.scan_of_not_mem (Files.find_eq_none.mp hfind)
  | some i => exact h.represents.scan_of_mem (Files.find_eq_some hfind)

theorem find (h : Stores g D F s) (name : String) :
    ∃ s', ((g.inode D 0).find name).Returns s ((F.find name).map fun i ↦ g.inode D (i + 1)) s' ∧
      Stores g D F s' := by
  obtain ⟨s', hret, hready, -⟩ := h.ready.find h.represents.slots (h.scan_eq name)
  exact ⟨s', hret, h.of_ready hready⟩

theorem clear (h : Stores g D F s) (hi : i < F.length) :
    ∃ s', (g.inode D (i + 1)).clear.Returns s () s' ∧ Stores g D (F.put i []) s' := by
  obtain ⟨s', hret, hready, -⟩ := h.ready.clear (Files.getElem?_bytes hi)
  exact ⟨s', hret, h.of_put hready⟩

theorem create (h : Stores g D F s) (hfind : F.find name = none) (hproper : Proper name)
    (hroom : Files.Room g (F ++ [(name, [])])) :
    ∃ s', ((g.inode D 0).create name).Returns s (some (g.inode D (F.length + 1))) s' ∧
      Stores g D (F ++ [(name, [])]) s' := by
  have hscan := h.scan_eq name
  rw [hfind] at hscan
  obtain ⟨s', hret, hready, -⟩ := h.ready.create_of_new h.represents.slots hscan
    (hproper.1.trans (Nat.le_succ _)) hroom
  refine ⟨s', hret, hready, fun n hn ↦ ?_, ?_⟩
  · rw [Files.names_concat] at hn
    rcases List.mem_append.mp hn with hn | hn
    · exact h.proper n hn
    · rwa [List.mem_singleton.mp hn]
  · rw [Files.names_concat]
    exact h.nodup.append (List.nodup_singleton _) (by simpa using Files.find_eq_none.mp hfind)

/-- **Opening a file** does to the storage what it does to the named byte arrays. The file is at its
beginning. -/
theorem openFile (h : Stores g D F s) {flags : OpenFlags} (hmay : F.MayOpen g name flags) :
    ∃ s', (Fs.openFile (g.inode D 0) name flags).Returns s ((F.openFile name flags).1.map fun i ↦
        .new flags.readWrite.1 flags.readWrite.2 (g.inode D (i + 1))) s' ∧
      Stores g D (F.openFile name flags).2 s' := by
  obtain ⟨s₁, hfound, h₁⟩ := h.find name
  unfold Fs.openFile
  cases hfind : F.find name with
  | some i =>
    rw [hfind] at hfound
    obtain ⟨s₂, hclear, h₂⟩ := h₁.clear (Files.find_lt hfind)
    rw [Files.openFile_of_find hfind]
    by_cases hcreate : flags.contains .CREATE = true
    · simp only [hcreate, true_or, if_true]
      exact ⟨s₂, hfound.bind (hclear.bind (returns_pure.mpr ⟨rfl, rfl⟩)), h₂⟩
    · by_cases htrunc : flags.contains .TRUNC = true
      · simp only [hcreate, htrunc, or_true, if_true]
        exact ⟨s₂, hfound.bind (hclear.bind (returns_pure.mpr ⟨rfl, rfl⟩)), h₂⟩
      · simp only [hcreate, htrunc, or_self]
        exact ⟨s₁, hfound.bind (Returns.bind (returns_pure.mpr ⟨rfl, rfl⟩) (returns_pure.mpr ⟨rfl, rfl⟩)), h₁⟩
  | none =>
    rw [hfind] at hfound
    rw [Files.openFile_of_not_find hfind]
    by_cases hcreate : flags.contains .CREATE = true
    · obtain ⟨hproper, hroom⟩ := hmay hcreate (Files.find_eq_none.mp hfind)
      obtain ⟨s₂, hret, h₂⟩ := h₁.create hfind hproper hroom
      simp only [hcreate, if_true]
      exact ⟨s₂, hfound.bind (hret.bind (returns_pure.mpr ⟨rfl, rfl⟩)), h₂⟩
    · simp only [hcreate]
      exact ⟨s₁, hfound.bind (returns_pure.mpr ⟨rfl, rfl⟩), h₁⟩

/-- What was read, and what is left. -/
theorem take_readInto_append (bytes : List UInt8) (offset : ℕ) (buf : List UInt8) :
    (readInto bytes offset buf).take (min buf.length (bytes.length - offset)) ++
      bytes.drop (offset + min buf.length (bytes.length - offset)) = bytes.drop offset := by
  have hlen : ((bytes.drop offset).take buf.length).length = min buf.length (bytes.length - offset) := by
    rw [List.length_take, List.length_drop]
  rw [readInto, List.take_left' hlen, ← List.drop_drop]
  rcases le_total buf.length (bytes.length - offset) with hle | hle
  · rw [Nat.min_eq_left hle, List.take_append_drop]
  · have hend : (bytes.drop offset).drop (bytes.length - offset) = [] :=
      List.drop_of_length_le (by rw [List.length_drop])
    rw [Nat.min_eq_right hle, List.take_of_length_le (by rwa [List.length_drop]), hend, List.append_nil]

/-- The loop of `read_all` collects what is left of the file. -/
theorem readAllFrom (h : Stores g D F s) (hi : i < F.length) {turns offset : ℕ}
    (hturns : (F.bytes i).length - offset < turns) {buffer : List UInt8} (hbuffer : 0 < buffer.length)
    (v : List UInt8) :
    ∃ offset' s', (OSInodeInner.readAllFrom turns ⟨offset, g.inode D (i + 1)⟩ buffer v).Returns s
        (v ++ (F.bytes i).drop offset, ⟨offset', g.inode D (i + 1)⟩) s' ∧ Stores g D F s' := by
  induction turns generalizing offset buffer v s with
  | zero => exact absurd hturns (Nat.not_lt_zero _)
  | succ turns ih =>
    obtain ⟨s₁, hret, hready, -⟩ := h.ready.readAt (Files.getElem?_bytes hi) offset buffer
    have h₁ := h.of_ready hready
    have hbuffer' : 0 < (readInto (F.bytes i) offset buffer).length := by rwa [length_readInto]
    by_cases hend : min buffer.length ((F.bytes i).length - offset) = 0
    · have hle : (F.bytes i).length ≤ offset := by omega
      refine ⟨offset, s₁, hret.bind ?_, h₁⟩
      simp only [hend, if_true]
      exact returns_pure.mpr ⟨by rw [List.drop_of_length_le hle, List.append_nil], rfl⟩
    · -- a turn takes the front of what is left
      have hless : (F.bytes i).length - (offset + min buffer.length ((F.bytes i).length - offset)) < turns := by
        omega
      obtain ⟨offset', s', hrest, h'⟩ := ih h₁ hless hbuffer'
        (v ++ (readInto (F.bytes i) offset buffer).take (min buffer.length ((F.bytes i).length - offset)))
      refine ⟨offset', s', hret.bind ?_, h'⟩
      simp only [hend, if_false]
      rwa [List.append_assoc, take_readInto_append] at hrest

/-- **Reading all of a file.** -/
theorem readAll (h : Stores g D F s) (hi : i < F.length) (readable writable : Bool) :
    ∃ file s', (OSInode.new readable writable (g.inode D (i + 1))).readAll.Returns s (F.bytes i, file) s' ∧
      Stores g D F s' := by
  have hshort := h.ready.holds.fits.short _ (List.mem_of_getElem? (Files.getElem?_bytes hi))
  have hmax : maxSize < OSInode.readAllTurns := by
    simp only [maxSize, indirect2Bound, blockSz, OSInode.readAllTurns]
    norm_num
  have hturns : (F.bytes i).length - 0 < OSInode.readAllTurns :=
    (Nat.sub_le _ _).trans_lt (hshort.trans_lt hmax)
  have hpos : 0 < (List.replicate 512 (0 : UInt8)).length := by
    rw [List.length_replicate]
    decide
  unfold OSInode.readAll
  -- neither the turns nor the buffer must be unfolded
  generalize OSInode.readAllTurns = turns at hturns ⊢
  generalize List.replicate 512 (0 : UInt8) = buffer at hpos ⊢
  obtain ⟨offset', s', hret, h'⟩ := h.readAllFrom hi hturns hpos []
  rw [List.nil_append, List.drop_zero] at hret
  exact ⟨⟨readable, writable, ⟨offset', g.inode D (i + 1)⟩⟩, s',
    Returns.bind hret (returns_pure.mpr ⟨rfl, rfl⟩), h'⟩

end Stores

end AgentOS.Fs
