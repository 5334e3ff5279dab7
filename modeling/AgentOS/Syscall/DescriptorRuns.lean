import AgentOS.Fs.Packing
import AgentOS.Syscall.Descriptors

/-!
# Files for processes

To processes a file system is a list of named byte arrays, and an open file is one of these with an offset and
with what may be done with it. Descriptors of several processes can stand for one open file, because a fork copies
them. `Posix.step` says what each call gives and does. Whatever processes do, in whatever order, the calls do the
same, down to the blocks of the device.
-/

namespace AgentOS

open Exec Fs

/-- An open file: which one it is, and where it is read and written. -/
structure Handle where
  file : ℕ
  offset : ℕ
  readable : Bool
  writable : Bool
  deriving DecidableEq, Repr

/-- What processes see. -/
structure Posix where
  files : Files
  handles : List Handle
  fdTables : ℕ → FdTable
  printed : List UInt8
  typed : List ℕ

/-- What a process asks for. -/
inductive FileRequest where
  | open_ (name : String) (flags : OpenFlags)
  | close (fd : ℕ)
  /-- Read into a buffer that holds something. -/
  | read (fd : ℕ) (buf : List UInt8)
  | write (fd : ℕ) (data : List UInt8)

namespace FdTable

/-- The smallest number that is free. -/
def freeFd (fdTable : FdTable) : ℕ := fdTable.findIdx (·.isNone)

/-- A file gets the smallest free number. -/
def insert (fdTable : FdTable) (file : File) : FdTable :=
  if fdTable.freeFd < fdTable.length then fdTable.set fdTable.freeFd (some file)
  else fdTable ++ [some file]

end FdTable

namespace Posix

/-- What a descriptor of a process stands for. -/
def file (p : Posix) (t fd : ℕ) : Option File := (p.fdTables t)[fd]?.join

/-- The open file behind a descriptor. -/
def handle (p : Posix) (t fd : ℕ) : Option (ℕ × Handle) :=
  match p.file t fd with
  | some (.inode arc) => p.handles[arc]?.map fun h ↦ (arc, h)
  | _ => none

def setFdTable (p : Posix) (t : ℕ) (fdTable : FdTable) : Posix :=
  { p with fdTables := Function.update p.fdTables t fdTable }

/-- An open file moves on. -/
def advance (p : Posix) (arc : ℕ) (h : Handle) (n : ℕ) : Posix :=
  { p with handles := p.handles.set arc { h with offset := h.offset + n } }

/-- Opening a name gives the smallest free descriptor, with an open file of its own. -/
def open_ (p : Posix) (t : ℕ) (name : String) (flags : OpenFlags) : ℤ × Posix :=
  if let some i := (p.files.openFile name flags).1 then
    ((p.fdTables t).freeFd,
      { p with
        files := (p.files.openFile name flags).2
        handles := p.handles ++ [⟨i, 0, flags.readWrite.1, flags.readWrite.2⟩]
        fdTables :=
          Function.update p.fdTables t ((p.fdTables t).insert (.inode p.handles.length)) })
  else (-1, p)

def close (p : Posix) (t fd : ℕ) : ℤ × Posix :=
  if (p.file t fd).isNone then (-1, p) else (0, p.setFdTable t ((p.fdTables t).set fd none))

/-- Reading gives what is behind the offset, as much as there is and fits. -/
def read (p : Posix) (t fd : ℕ) (buf : List UInt8) : (ℤ × List UInt8) × Posix :=
  if p.file t fd = some .stdin then
    ((1, [UInt8.ofNat ((p.typed.find? (· ≠ 0)).getD 0)]),
      { p with typed := (p.typed.dropWhile (· = 0)).tail })
  else if let some (arc, h) := p.handle t fd then
    if h.readable then
      let bytes := p.files.bytes h.file
      let n := min buf.length (bytes.length - h.offset)
      ((n, readInto bytes h.offset buf), p.advance arc h n)
    else ((-1, buf), p)
  else ((-1, buf), p)

/-- Writing lays the bytes over those behind the offset. -/
def write (p : Posix) (t fd : ℕ) (data : List UInt8) : ℤ × Posix :=
  if p.file t fd = some .stdout then (data.length, { p with printed := p.printed ++ data })
  else if let some (arc, h) := p.handle t fd then
    if h.writable then
      let files :=
        if data = [] then p.files
        else p.files.put h.file (overlay (p.files.bytes h.file) h.offset data)
      (data.length, { p with files }.advance arc h data.length)
    else (-1, p)
  else (-1, p)

/-- What a call gives: the value, and what a buffer to read into holds afterwards. -/
def step (p : Posix) (t : ℕ) : FileRequest → (ℤ × List UInt8) × Posix
  | .open_ name flags => (((p.open_ t name flags).1, []), (p.open_ t name flags).2)
  | .close fd => (((p.close t fd).1, []), (p.close t fd).2)
  | .read fd buf => p.read t fd buf
  | .write fd data => (((p.write t fd data).1, []), (p.write t fd data).2)

/-- A child has the descriptors of its parent. -/
def fork (p : Posix) (t child : ℕ) : Posix := p.setFdTable child (p.fdTables t)

def newTask (p : Posix) (t : ℕ) : Posix := p.setFdTable t newFdTable

end Posix

/-! ## Calls -/

/-- A call on files, with its arguments. -/
inductive FileCall where
  | open_ (path flags : ℕ)
  | close (fd : ℕ)
  | read (fd buf len : ℕ)
  | write (fd buf len : ℕ)

section Calls

variable [KernelLayout]

/-- The call of a task. -/
def FileCall.exec (t : ℕ) (pt : PageTable) : FileCall → Exec Io ℤ
  | .open_ path flags => Io.sysOpen t pt path flags
  | .close fd => Io.sysClose t fd
  | .read fd buf len => Io.sysRead t pt fd buf len
  | .write fd buf len => Io.sysWrite t pt fd buf len

/-- What a call asks for, when its buffer is mapped and it does not ask for too much: flags are flags, a new file has
a proper name, there is room for what is written, a text can be printed, and a key is read when one is typed. -/
inductive FileCall.Asks (g : Geometry) (p : Posix) (t : ℕ) (pt : PageTable) (m : Machine) :
    FileCall → FileRequest → Prop
  | open_ {path flags : ℕ} {name : List UInt8} {f : OpenFlags} (hpath : StrAt pt m path name)
      (hflags : OpenFlags.fromBits (UInt32.ofNat flags) = some f)
      (hmay : p.files.MayOpen g (latin1 name) f) :
      Asks g p t pt m (.open_ path flags) (.open_ (latin1 name) f)
  | close {fd : ℕ} : Asks g p t pt m (.close fd) (.close fd)
  | read {fd buf len : ℕ} (hcan : Canonical buf len) (hb : Backed pt buf len)
      (htyped : p.file t fd = some .stdin → len = 1 ∧ ∃ c ∈ p.typed, c ≠ 0) :
      Asks g p t pt m (.read fd buf len) (.read fd ((pt.userPlaces buf len).map m.byteAt))
  | write {fd buf len : ℕ} {data : List UInt8} (hcan : Canonical buf len) (hb : Backed pt buf len)
      (hdata : data = (pt.userPlaces buf len).map m.byteAt)
      (hprint : p.file t fd = some .stdout → Printable buf data)
      (hroom : ∀ arc h, p.handle t fd = some (arc, h) → h.writable = true → data ≠ [] →
        Files.Room g (p.files.put h.file (overlay (p.files.bytes h.file) h.offset data))) :
      Asks g p t pt m (.write fd buf len) (.write fd data)

/-- The memory after a call: a buffer to read into holds what was read, and no other byte has changed. -/
def FileCall.Fills (pt : PageTable) (m m' : Machine) (got : List UInt8) : FileCall → Prop
  | .read _ buf len => (pt.userPlaces buf len).map m'.byteAt = got ∧
      ∀ place ∉ pt.userPlaces buf len, m'.byteAt place = m.byteAt place
  | _ => m'.byteAt = m.byteAt

end Calls

/-! ## Descriptors -/

/-- `alloc_fd` gives the smallest free number, with a place in the table for it. -/
theorem allocFd_eq (fdTable : FdTable) : allocFd fdTable = (fdTable.freeFd,
    if fdTable.freeFd < fdTable.length then fdTable else fdTable ++ [none]) := by
  unfold allocFd
  cases hfind : (List.range fdTable.length).find? fun fd ↦ fdTable[fd]?.join.isNone with
  | some fd =>
    obtain ⟨hfree, hlt, hbefore⟩ := List.find?_range_eq_some.mp hfind
    rw [List.mem_range] at hlt
    rw [List.getElem?_eq_getElem hlt, Option.join_some] at hfree
    have heq : fdTable.freeFd = fd := (List.findIdx_eq hlt).mpr ⟨hfree, fun j hj ↦ by
      have hj' := hbefore j hj
      rw [List.getElem?_eq_getElem (hj.trans hlt), Option.join_some] at hj'
      simpa using hj'⟩
    rw [heq]
    exact Prod.ext rfl (if_pos hlt).symm
  | none =>
    have hall := List.find?_range_eq_none.mp hfind
    have heq : fdTable.freeFd = fdTable.length := List.findIdx_eq_length.mpr fun file hfile ↦ by
      obtain ⟨j, hj, rfl⟩ := List.getElem_of_mem hfile
      have hj' := hall j hj
      rw [List.getElem?_eq_getElem hj, Option.join_some] at hj'
      simpa using hj'
    rw [heq]
    exact Prod.ext rfl (if_neg (lt_irrefl _)).symm

theorem set_allocFd (fdTable : FdTable) (file : File) :
    (allocFd fdTable).2.set (allocFd fdTable).1 (some file) = fdTable.insert file := by
  rw [allocFd_eq, FdTable.insert]
  dsimp only
  split_ifs with hlt
  · rfl
  · have heq : fdTable.freeFd = fdTable.length := le_antisymm List.findIdx_le_length (Nat.le_of_not_lt hlt)
    rw [heq, List.set_append_right _ _ le_rfl, Nat.sub_self]
    rfl

theorem FdTable.mem_insert {fdTable : FdTable} {file file' : File} (h : some file' ∈ fdTable.insert file) :
    file' = file ∨ some file' ∈ fdTable := by
  unfold insert at h
  split_ifs at h
  · exact (List.mem_or_eq_of_mem_set h).symm.imp_left Option.some.inj
  · rcases List.mem_append.mp h with h | h
    · exact Or.inr h
    · exact Or.inl (Option.some.inj (List.mem_singleton.mp h))

theorem Posix.mem_of_file {p : Posix} {t fd : ℕ} {file : File} (h : p.file t fd = some file) :
    some file ∈ p.fdTables t := List.mem_of_getElem? (Option.join_eq_some_iff.mp h)

/-- A file that is not found leaves the files as they are, and one that is found is there. -/
theorem Fs.Files.openFile_spec (F : Files) (name : String) (flags : OpenFlags) :
    ((F.openFile name flags).1 = none → (F.openFile name flags).2 = F) ∧
    (∀ i, (F.openFile name flags).1 = some i → i < (F.openFile name flags).2.length) ∧
    F.length ≤ (F.openFile name flags).2.length := by
  cases hfind : F.find name with
  | some i =>
    have hlt := Files.find_lt hfind
    rw [Files.openFile_of_find hfind]
    split_ifs <;> simp [hlt]
  | none =>
    rw [Files.openFile_of_not_find hfind]
    split_ifs <;> simp

/-! ## Open files on the device -/

variable {g : Geometry} {D : DeviceId} {F : Files} {s : Storage} {i offset : ℕ} {slices : List (List UInt8)}

namespace Fs.Stores

/-- **Writing slices to an open file.** -/
theorem write (h : Stores g D F s) (hi : i < F.length) (hslices : ∀ slice ∈ slices, slice ≠ [])
    (hroom : slices.flatten ≠ [] → Files.Room g (F.put i (overlay (F.bytes i) offset slices.flatten)))
    (readable writable : Bool) :
    ∃ s', (OSInode.write ⟨readable, writable, ⟨offset, g.inode D (i + 1)⟩⟩ slices).Returns s
        (slices.flatten.length, ⟨readable, writable, ⟨offset + slices.flatten.length, g.inode D (i + 1)⟩⟩) s' ∧
      Stores g D (if slices.flatten = [] then F
        else F.put i (overlay (F.bytes i) offset slices.flatten)) s' := by
  by_cases hnil : slices.flatten = []
  · have hslices' : slices = [] := by
      cases slices with
      | nil => rfl
      | cons slice slices =>
        exact absurd (List.append_eq_nil_iff.mp hnil).1 (hslices slice List.mem_cons_self)
    subst hslices'
    exact ⟨s, returns_pure.mpr ⟨rfl, rfl⟩, by rwa [if_pos hnil]⟩
  · have hfits := hroom hnil
    rw [Files.Room, Files.volume_put] at hfits
    obtain ⟨s', hret, hready⟩ := h.ready.writeSlices (Files.getElem?_bytes hi) hslices
      (fun heq ↦ absurd (by rw [heq]; rfl) hnil) hfits 0
    rw [Nat.zero_add] at hret
    exact ⟨s', hret.bind (returns_pure.mpr ⟨rfl, rfl⟩), by rw [if_neg hnil]; exact h.of_put hready⟩

/-- **Reading slices from an open file.** -/
theorem read (h : Stores g D F s) (hi : i < F.length) (hslices : ∀ slice ∈ slices, slice ≠ []) (offset : ℕ)
    (readable writable : Bool) :
    ∃ filled s', (OSInode.read ⟨readable, writable, ⟨offset, g.inode D (i + 1)⟩⟩ slices).Returns s
        (min slices.flatten.length ((F.bytes i).length - offset), filled, ⟨readable, writable,
          ⟨offset + min slices.flatten.length ((F.bytes i).length - offset), g.inode D (i + 1)⟩⟩) s' ∧
      Stores g D F s' ∧ filled.flatten = readInto (F.bytes i) offset slices.flatten := by
  obtain ⟨filled, s', hret, hready, hfilled, -⟩ :=
    h.ready.readSlices (Files.getElem?_bytes hi) hslices offset 0
  rw [Nat.zero_add] at hret
  exact ⟨filled, s', hret.bind (returns_pure.mpr ⟨rfl, rfl⟩), h.of_ready hready, hfilled⟩

end Fs.Stores

/-! ## The simulation -/

/-- The `OSInode` of an open file. -/
def Handle.osInode (g : Geometry) (D : DeviceId) (h : Handle) : OSInode :=
  ⟨h.readable, h.writable, ⟨h.offset, g.inode D (h.file + 1)⟩⟩

/-- The kernel holds what processes see. -/
structure Simulates (g : Geometry) (D : DeviceId) (p : Posix) (s : Io) : Prop where
  stores : Stores g D p.files s.storage
  root : s.root = g.inode D 0
  files : s.files = p.handles.map (Handle.osInode g D)
  inside : ∀ h ∈ p.handles, h.file < p.files.length
  fdTables : s.fdTables = p.fdTables
  arcs : ∀ t arc, some (.inode arc) ∈ p.fdTables t → arc < p.handles.length
  printed : s.printed = p.printed
  typed : s.typed = p.typed

namespace Simulates

variable {p : Posix} {s s' : Io} {t fd arc : ℕ} {hd : Handle}

theorem file_eq (h : Simulates g D p s) (t fd : ℕ) : (s.fdTables t)[fd]?.join = p.file t fd := by
  rw [h.fdTables, Posix.file]

theorem exists_handle (h : Simulates g D p s) (hfile : p.file t fd = some (.inode arc)) :
    ∃ hd, p.handles[arc]? = some hd ∧ hd.file < p.files.length ∧ p.handle t fd = some (arc, hd) ∧
      (Io.osInode arc).Returns s (hd.osInode g D) s := by
  obtain ⟨hd, hhd⟩ : ∃ hd, p.handles[arc]? = some hd :=
    ⟨_, List.getElem?_eq_getElem (h.arcs t arc (Posix.mem_of_file hfile))⟩
  refine ⟨hd, hhd, h.inside hd (List.mem_of_getElem? hhd), ?_, ?_⟩
  · rw [Posix.handle, hfile]
    simp [hhd]
  · refine Returns.bind (returns_get.mpr ⟨rfl, rfl⟩) (returns_unwrap.mpr ⟨?_, rfl⟩)
    rw [h.files, List.getElem?_map, hhd, Option.map_some]

/-- A table with files of the tables of before. -/
theorem of_fdTable (h : Simulates g D p s) (fdTable : FdTable)
    (harcs : ∀ arc, some (.inode arc) ∈ fdTable → arc < p.handles.length) (t : ℕ) :
    (Io.setFdTable t fdTable).Returns s () { s with fdTables := Function.update s.fdTables t fdTable } ∧
      Simulates g D (p.setFdTable t fdTable) { s with fdTables := Function.update s.fdTables t fdTable } := by
  refine ⟨returns_modify.mpr rfl, h.stores, h.root, h.files, h.inside, ?_, fun u arc harc ↦ ?_, h.printed, h.typed⟩
  · rw [h.fdTables]
    rfl
  · by_cases hu : u = t
    · subst hu
      exact harcs arc (by simpa [Posix.setFdTable] using harc)
    · exact h.arcs u arc (by simpa [Posix.setFdTable, Function.update_of_ne hu] using harc)

theorem fork (h : Simulates g D p s) (t child : ℕ) :
    ∃ s', (Io.fork t child).Returns s () s' ∧ Simulates g D (p.fork t child) s' := by
  obtain ⟨hret, hsim⟩ := h.of_fdTable (p.fdTables t) (h.arcs t) child
  rw [← h.fdTables] at hret hsim
  exact ⟨_, Returns.bind (returns_get.mpr ⟨rfl, rfl⟩) hret, h.fdTables ▸ hsim⟩

theorem newTask (h : Simulates g D p s) (t : ℕ) :
    ∃ s', (Io.newTask t).Returns s () s' ∧ Simulates g D (p.newTask t) s' := by
  obtain ⟨hret, hsim⟩ := h.of_fdTable newFdTable (by simp [newFdTable]) t
  exact ⟨_, hret, hsim⟩

/-- An open file has moved on, in files that may have other bytes. -/
theorem of_advance (h : Simulates g D p s) (hhd : p.handles[arc]? = some hd) {F : Files} {st : Storage}
    (hstores : Stores g D F st) (hlength : F.length = p.files.length) (n : ℕ) (m : Machine) :
    Simulates g D ({ p with files := F }.advance arc hd n)
      { s with
        machine := m
        storage := st
        files := s.files.set arc ({ hd with offset := hd.offset + n }.osInode g D) } := by
  refine ⟨hstores, h.root, ?_, fun h' hh' ↦ ?_, h.fdTables, fun u arc' harc ↦ ?_, h.printed, h.typed⟩
  · rw [h.files, Posix.advance, ← List.map_set]
  · rw [show Posix.files (Posix.advance _ _ _ _) = F from rfl, hlength]
    rcases List.mem_or_eq_of_mem_set hh' with hh' | rfl
    · exact h.inside h' hh'
    · exact h.inside hd (List.mem_of_getElem? hhd)
  · rw [Posix.advance, List.length_set]
    exact h.arcs u arc' harc

theorem sysClose (h : Simulates g D p s) (t fd : ℕ) :
    ∃ s', (Io.sysClose t fd).Returns s (p.close t fd).1 s' ∧ Simulates g D (p.close t fd).2 s' ∧
      s'.machine = s.machine := by
  have hfile := h.file_eq t fd
  unfold Posix.close
  by_cases hnone : p.file t fd = none
  · simp only [hnone, Option.isNone_none, if_true]
    refine ⟨s, Returns.bind (returns_get.mpr ⟨rfl, rfl⟩) ?_, h, rfl⟩
    by_cases hle : (s.fdTables t).length ≤ fd
    · rw [if_pos hle]
      exact returns_pure.mpr ⟨rfl, rfl⟩
    · rw [if_neg hle, hfile, hnone, Option.isNone_none, if_pos rfl]
      exact returns_pure.mpr ⟨rfl, rfl⟩
  · obtain ⟨file, hsome⟩ := Option.ne_none_iff_exists'.mp hnone
    have hlt : ¬(s.fdTables t).length ≤ fd := fun hle ↦ by
      rw [List.getElem?_eq_none hle, hsome] at hfile
      simp at hfile
    have harcs : ∀ arc, some (.inode arc) ∈ (p.fdTables t).set fd none → arc < p.handles.length := fun arc harc ↦
      h.arcs t arc ((List.mem_or_eq_of_mem_set harc).resolve_right (by simp))
    obtain ⟨hret, hsim⟩ := h.of_fdTable ((p.fdTables t).set fd none) harcs t
    simp only [hsome, Option.isNone_some]
    refine ⟨_, Returns.bind (returns_get.mpr ⟨rfl, rfl⟩) ?_, hsim, rfl⟩
    rw [if_neg hlt, hfile, hsome, if_neg (by simp), h.fdTables]
    rw [h.fdTables] at hret
    exact hret.bind (returns_pure.mpr ⟨rfl, rfl⟩)

theorem sysOpen [KernelLayout] (h : Simulates g D p s) {pt : PageTable} {path flags : ℕ} {name : List UInt8}
    {f : OpenFlags} (hpath : StrAt pt s.machine path name)
    (hflags : OpenFlags.fromBits (UInt32.ofNat flags) = some f) (hmay : p.files.MayOpen g (latin1 name) f)
    (t : ℕ) :
    ∃ s', (Io.sysOpen t pt path flags).Returns s (p.open_ t (latin1 name) f).1 s' ∧
      Simulates g D (p.open_ t (latin1 name) f).2 s' ∧ s'.machine.byteAt = s.machine.byteAt := by
  obtain ⟨log, hstr⟩ := PageTable.returns_translatedStr hpath
  obtain ⟨st, hopen, hstores⟩ := h.stores.openFile hmay
  obtain ⟨hsame, hlt, hle⟩ := p.files.openFile_spec (latin1 name) f
  rw [← h.root] at hopen
  unfold Posix.open_
  cases hfound : (p.files.openFile (latin1 name) f).1 with
  | none =>
    rw [hfound] at hopen
    rw [hsame hfound] at hstores
    refine ⟨{ s with machine := s.machine.noted log, storage := st }, ?_,
      ⟨hstores, h.root, h.files, h.inside, h.fdTables, h.arcs, h.printed, h.typed⟩, rfl⟩
    exact Returns.bind (returns_zoom.mpr ⟨_, hstr, rfl⟩) (Returns.bind (returns_unwrap.mpr ⟨hflags, rfl⟩)
      (Returns.bind (returns_get.mpr ⟨rfl, rfl⟩) (Returns.bind (returns_zoom.mpr ⟨_, hopen, rfl⟩)
        (returns_pure.mpr ⟨rfl, rfl⟩))))
  | some i =>
    rw [hfound] at hopen
    have hfd : (allocFd (p.fdTables t)).1 = (p.fdTables t).freeFd := by rw [allocFd_eq]
    have hlength : s.files.length = p.handles.length := by rw [h.files, List.length_map]
    refine ⟨{ s with
      machine := s.machine.noted log
      storage := st
      files := s.files ++ [OSInode.new f.readWrite.1 f.readWrite.2 (g.inode D (i + 1))]
      fdTables := Function.update s.fdTables t ((p.fdTables t).insert (.inode p.handles.length)) }, ?_, ?_, rfl⟩
    · refine Returns.bind (returns_zoom.mpr ⟨_, hstr, rfl⟩) (Returns.bind (returns_unwrap.mpr ⟨hflags, rfl⟩)
        (Returns.bind (returns_get.mpr ⟨rfl, rfl⟩) (Returns.bind (returns_zoom.mpr ⟨_, hopen, rfl⟩) ?_)))
      refine Returns.bind (a := ()) (returns_modify.mpr rfl) ?_
      dsimp only
      rw [h.fdTables, hlength, set_allocFd, hfd]
      exact Returns.bind (a := ()) (returns_modify.mpr rfl) (returns_pure.mpr ⟨rfl, rfl⟩)
    · refine ⟨hstores, h.root, ?_, fun hd hhd ↦ ?_, ?_, fun u arc harc ↦ ?_, h.printed, h.typed⟩
      · dsimp only
        rw [h.files, List.map_append, List.map_singleton]
        rfl
      · rcases List.mem_append.mp hhd with hhd | hhd
        · exact (h.inside hd hhd).trans_le hle
        · rw [List.mem_singleton.mp hhd]
          exact hlt i hfound
      · dsimp only
        rw [h.fdTables]
      · rw [List.length_append, List.length_singleton]
        by_cases hu : u = t
        · subst hu
          rcases FdTable.mem_insert (by simpa using harc) with heq | harc'
          · obtain rfl := File.inode.inj heq
            exact Nat.lt_succ_self _
          · exact (h.arcs u arc harc').trans (Nat.lt_succ_self _)
        · exact (h.arcs u arc (by simpa [Function.update_of_ne hu] using harc)).trans (Nat.lt_succ_self _)

section Buffers

variable [KernelLayout] {pt : PageTable} {buf len : ℕ} {data : List UInt8}

omit [KernelLayout] in
/-- The slices of a buffer, one after the other, are what is in the buffer. -/
theorem flatten_slices {cs : List Chunk} (hplaces : placesOf cs = pt.userPlaces buf len) (m : Machine) :
    (cs.map (Chunk.bytes m)).flatten = (pt.userPlaces buf len).map m.byteAt := by
  rw [OpenFiles.flatten_bytes, hplaces]

omit [KernelLayout] in
theorem slices_ne_nil {cs : List Chunk} (hc : ∀ c ∈ cs, 0 < c.length) (m : Machine) :
    ∀ slice ∈ cs.map (Chunk.bytes m), slice ≠ [] := by
  intro slice hslice
  obtain ⟨c, hmem, rfl⟩ := List.mem_map.mp hslice
  exact OpenFiles.bytes_ne_nil (hc c hmem) _

/-- Writing to an open file. -/
theorem sysWrite_inode (h : Simulates g D p s) (hcan : Canonical buf len) (hb : Backed pt buf len)
    (hdata : data = (pt.userPlaces buf len).map s.machine.byteAt) (hcase : p.file t fd = some (.inode arc))
    (hroom : ∀ h, p.handle t fd = some (arc, h) → h.writable = true → data ≠ [] →
      Files.Room g (p.files.put h.file (overlay (p.files.bytes h.file) h.offset data))) :
    ∃ s', (Io.sysWrite t pt fd buf len).Returns s (p.write t fd data).1 s' ∧
      Simulates g D (p.write t fd data).2 s' ∧ s'.machine.byteAt = s.machine.byteAt := by
  have hfile := h.file_eq t fd
  rw [hcase] at hfile
  unfold Posix.write
  rw [hcase]
  obtain ⟨hd, hhd, hlt, hhandle, hos⟩ := h.exists_handle hcase
  rw [if_neg (by simp), hhandle]
  dsimp only
  by_cases hwritable : hd.writable = true
  · rw [if_pos hwritable]
    obtain ⟨cs, hcs, hplaces, hc⟩ := chunks_of_backed hcan hb
    obtain ⟨log, hread⟩ := OpenFiles.returns_readEach
      (fun c hmem ↦ KernelLayout.kernelReads_of_kernelWrites (hc c hmem).1) s.machine
    have hflatten : (cs.map (Chunk.bytes s.machine)).flatten = data := (flatten_slices hplaces _).trans hdata.symm
    have hslices := slices_ne_nil (fun c hmem ↦ (hc c hmem).2) s.machine
    have hroom' : (cs.map (Chunk.bytes s.machine)).flatten ≠ [] → Files.Room g (p.files.put hd.file
        (overlay (p.files.bytes hd.file) hd.offset (cs.map (Chunk.bytes s.machine)).flatten)) := by
      rw [hflatten]
      exact hroom hd hhandle hwritable
    obtain ⟨st, hwrite, hstores⟩ := h.stores.write hlt hslices hroom' hd.readable hd.writable
    rw [hflatten] at hwrite hstores
    refine ⟨_, ?_, h.of_advance hhd hstores (by split_ifs <;> simp) data.length
      (s.machine.noted log), rfl⟩
    refine Returns.bind (returns_get.mpr ⟨rfl, rfl⟩) ?_
    rw [hfile]
    refine Returns.bind (hos.bind (returns_pure.mpr ⟨rfl, rfl⟩)) ?_
    rw [if_neg (by rw [Handle.osInode, hwritable]; simp)]
    refine Returns.bind (returns_unwrap.mpr ⟨hcs, rfl⟩) (Returns.bind (returns_zoom.mpr ⟨_, hread, rfl⟩) ?_)
    refine Returns.bind ?_ (returns_pure.mpr ⟨rfl, rfl⟩)
    refine Returns.bind (Returns.bind (returns_get.mpr ⟨rfl, rfl⟩)
      (returns_unwrap.mpr ⟨?_, rfl⟩)) (Returns.bind (returns_zoom.mpr ⟨st, hwrite, rfl⟩)
        (Returns.bind (a := ()) (returns_modify.mpr rfl) (returns_pure.mpr ⟨rfl, rfl⟩)))
    dsimp only
    rw [h.files, List.getElem?_map, hhd]
    rfl
  · rw [if_neg hwritable]
    refine ⟨s, Returns.bind (returns_get.mpr ⟨rfl, rfl⟩) ?_, h, rfl⟩
    rw [hfile]
    refine Returns.bind (hos.bind (returns_pure.mpr ⟨rfl, rfl⟩)) ?_
    rw [if_pos (by rw [Handle.osInode]; simpa using hwritable)]
    exact returns_pure.mpr ⟨rfl, rfl⟩

theorem sysWrite (h : Simulates g D p s) (hcan : Canonical buf len) (hb : Backed pt buf len)
    (hdata : data = (pt.userPlaces buf len).map s.machine.byteAt)
    (hprint : p.file t fd = some .stdout → Printable buf data)
    (hroom : ∀ arc h, p.handle t fd = some (arc, h) → h.writable = true → data ≠ [] →
      Files.Room g (p.files.put h.file (overlay (p.files.bytes h.file) h.offset data))) :
    ∃ s', (Io.sysWrite t pt fd buf len).Returns s (p.write t fd data).1 s' ∧
      Simulates g D (p.write t fd data).2 s' ∧ s'.machine.byteAt = s.machine.byteAt := by
  have hfile := h.file_eq t fd
  have hlen : data.length = len := by rw [hdata, List.length_map, PageTable.length_userPlaces]
  unfold Posix.write
  cases hcase : p.file t fd with
  | none =>
    refine ⟨s, Returns.bind (returns_get.mpr ⟨rfl, rfl⟩) ?_, ?_, rfl⟩
    · rw [hfile, hcase]
      simp [Posix.handle, hcase]
    · simpa [Posix.handle, hcase] using h
  | some file =>
    rw [hcase] at hfile
    cases file with
    | stdin =>
      refine ⟨s, Returns.bind (returns_get.mpr ⟨rfl, rfl⟩) ?_, ?_, rfl⟩
      · rw [hfile]
        refine Returns.bind (returns_pure.mpr ⟨rfl, rfl⟩) ?_
        simp [Posix.handle, hcase]
      · simpa [Posix.handle, hcase] using h
    | stdout =>
      obtain ⟨log, hret⟩ := (Io.stdout_prints hfile hcan hb).1 (hdata ▸ hprint hcase)
      rw [← hdata] at hret
      rw [if_pos rfl, hlen]
      refine ⟨_, hret, ⟨h.stores, h.root, h.files, h.inside, h.fdTables, h.arcs, ?_, h.typed⟩, rfl⟩
      exact congrArg (· ++ data) h.printed
    | inode arc =>
      have hinode := h.sysWrite_inode hcan hb hdata hcase (hroom arc)
      rwa [Posix.write, hcase] at hinode

/-- Bytes that are written to the front of a buffer. -/
theorem byteAt_buffer (hb : Backed pt buf len) (m : Machine) (got : List UInt8) (hle : got.length ≤ len)
    (log : List Access) :
    (pt.userPlaces buf len).map (m.written (pt.userPlaces buf len) got log).byteAt =
      got ++ ((pt.userPlaces buf len).map m.byteAt).drop got.length ∧
    ∀ place ∉ pt.userPlaces buf len, (m.written (pt.userPlaces buf len) got log).byteAt place = m.byteAt place := by
  have hnodup : (pt.userPlaces buf len).Nodup := by
    refine List.Nodup.map_on (fun a ha b hb' heq ↦ ?_) List.nodup_range'
    have ha' := List.mem_range'_1.mp ha
    have hb'' := List.mem_range'_1.mp hb'
    exact hb.place_inj a b ha'.1 ha'.2 hb''.1 hb''.2 heq
  refine ⟨?_, fun place hplace ↦ ?_⟩
  · rw [Machine.byteAt_written, Scatter.map_scatter hnodup (by rwa [PageTable.length_userPlaces]), List.map_drop]
  · rw [Machine.byteAt_written]
    exact Scatter.scatter_of_not_mem hplace _ _

/-- The bytes of a list go to the front of a buffer. -/
theorem returns_writeChunks_buffer {cs : List Chunk} (hplaces : placesOf cs = pt.userPlaces buf len)
    (hc : ∀ c ∈ cs, KernelLayout.kernelWrites c.ppn = true) (m : Machine) (got : List UInt8) :
    (writeChunks .userPtr cs got).Returns m (min (placesOf cs).length got.length)
      (m.written (pt.userPlaces buf len) got (accessesOf .userPtr true cs got.length)) :=
  returns_writeChunks.mpr ⟨fun c hmem ↦ hc c (mem_touched hmem), rfl, by rw [hplaces]⟩

variable (data) in
/-- Reading a key. -/
theorem sysRead_stdin (h : Simulates g D p s) (hcan : Canonical buf len) (hb : Backed pt buf len)
    (hcase : p.file t fd = some .stdin) (htyped : len = 1 ∧ ∃ c ∈ p.typed, c ≠ 0) :
    ∃ s', (Io.sysRead t pt fd buf len).Returns s (p.read t fd data).1.1 s' ∧
      Simulates g D (p.read t fd data).2 s' ∧
      (pt.userPlaces buf len).map s'.machine.byteAt = (p.read t fd data).1.2 ∧
      ∀ place ∉ pt.userPlaces buf len, s'.machine.byteAt place = s.machine.byteAt place := by
  have hfile := h.file_eq t fd
  rw [hcase] at hfile
  obtain ⟨cs, hcs, hplaces, hc⟩ := chunks_of_backed hcan hb
  have hwrites := returns_writeChunks_buffer hplaces (fun c hmem ↦ (hc c hmem).1) s.machine
  have hsum : (cs.map Chunk.length).sum = len := by
    rw [← length_placesOf, hplaces, PageTable.length_userPlaces]
  unfold Posix.read
  rw [hcase]
  obtain ⟨rfl, c, hmem, hne⟩ := htyped
  obtain ⟨c', hc'⟩ : ∃ c', p.typed.find? (· ≠ 0) = some c' :=
    Option.isSome_iff_exists.mp (List.find?_isSome.mpr ⟨c, hmem, by simpa using hne⟩)
  obtain ⟨hbuffer, hrest⟩ := byteAt_buffer hb s.machine [UInt8.ofNat c'] (by simp)
    (accessesOf .userPtr true cs 1)
  rw [if_pos rfl, hc']
  refine ⟨{ s with
    machine := s.machine.written (pt.userPlaces buf 1) [UInt8.ofNat c'] (accessesOf .userPtr true cs 1)
    typed := (s.typed.dropWhile (· = 0)).tail }, Returns.bind (returns_get.mpr ⟨rfl, rfl⟩) ?_,
    ⟨h.stores, h.root, h.files, h.inside, h.fdTables, h.arcs, h.printed, by dsimp only; rw [h.typed]⟩, ?_,
    hrest⟩
  · rw [hfile]
    refine Returns.bind (returns_pure.mpr ⟨rfl, rfl⟩) ?_
    rw [if_neg (by simp)]
    refine Returns.bind (returns_unwrap.mpr ⟨hcs, rfl⟩) (Returns.bind ?_ (returns_pure.mpr ⟨rfl, rfl⟩))
    refine Returns.bind (returns_assert_of hsum _) (Returns.bind (Returns.bind (returns_get.mpr ⟨rfl, rfl⟩)
      (Returns.bind (returns_unwrap.mpr ⟨by rw [h.typed]; exact hc', rfl⟩)
        (Returns.bind (a := ()) (returns_modify.mpr rfl) (returns_pure.mpr ⟨rfl, rfl⟩)))) ?_)
    exact Returns.bind (returns_zoom.mpr ⟨_, hwrites _, rfl⟩) (returns_pure.mpr ⟨rfl, rfl⟩)
  · rw [hbuffer, List.drop_of_length_le (by rw [List.length_map, PageTable.length_userPlaces]; rfl),
      List.append_nil]
    rfl

/-- Reading an open file. -/
theorem sysRead_inode (h : Simulates g D p s) (hcan : Canonical buf len) (hb : Backed pt buf len)
    (hdata : data = (pt.userPlaces buf len).map s.machine.byteAt) (hcase : p.file t fd = some (.inode arc)) :
    ∃ s', (Io.sysRead t pt fd buf len).Returns s (p.read t fd data).1.1 s' ∧
      Simulates g D (p.read t fd data).2 s' ∧
      (pt.userPlaces buf len).map s'.machine.byteAt = (p.read t fd data).1.2 ∧
      ∀ place ∉ pt.userPlaces buf len, s'.machine.byteAt place = s.machine.byteAt place := by
  have hfile := h.file_eq t fd
  rw [hcase] at hfile
  obtain ⟨cs, hcs, hplaces, hc⟩ := chunks_of_backed hcan hb
  have hwrites := returns_writeChunks_buffer hplaces (fun c hmem ↦ (hc c hmem).1) s.machine
  have hlen : data.length = len := by rw [hdata, List.length_map, PageTable.length_userPlaces]
  unfold Posix.read
  rw [hcase]
  obtain ⟨hd, hhd, hlt, hhandle, hos⟩ := h.exists_handle hcase
  rw [if_neg (by simp), hhandle]
  dsimp only
  by_cases hreadable : hd.readable = true
  · rw [if_pos hreadable]
    have hflatten : (cs.map (Chunk.bytes s.machine)).flatten = data := (flatten_slices hplaces _).trans hdata.symm
    have hslices := slices_ne_nil (fun c hmem ↦ (hc c hmem).2) s.machine
    obtain ⟨filled, st, hread, hstores, hfilled⟩ := h.stores.read hlt hslices hd.offset hd.readable
      hd.writable
    rw [hflatten] at hread hfilled
    obtain ⟨n, hn⟩ : ∃ n, n = min data.length ((p.files.bytes hd.file).length - hd.offset) := ⟨_, rfl⟩
    rw [← hn] at hread ⊢
    have htake : (filled.flatten.take n).length = n := by
      rw [hfilled, List.length_take, length_readInto]
      omega
    obtain ⟨hbuffer, hrest⟩ := byteAt_buffer hb s.machine (filled.flatten.take n) (by omega)
      (accessesOf .userPtr true cs (filled.flatten.take n).length)
    refine ⟨_, ?_, h.of_advance hhd hstores rfl n (s.machine.written (pt.userPlaces buf len)
      (filled.flatten.take n) (accessesOf .userPtr true cs (filled.flatten.take n).length)), ?_, hrest⟩
    · refine Returns.bind (returns_get.mpr ⟨rfl, rfl⟩) ?_
      rw [hfile]
      refine Returns.bind (hos.bind (returns_pure.mpr ⟨rfl, rfl⟩)) ?_
      rw [if_neg (by rw [Handle.osInode, hreadable]; simp)]
      refine Returns.bind (returns_unwrap.mpr ⟨hcs, rfl⟩) (Returns.bind ?_ (returns_pure.mpr ⟨rfl, rfl⟩))
      refine hos.bind (Returns.bind (returns_get.mpr ⟨rfl, rfl⟩)
        (Returns.bind (returns_zoom.mpr ⟨st, hread, rfl⟩) (Returns.bind (returns_zoom.mpr ⟨_, hwrites _, rfl⟩)
          (Returns.bind (a := ()) (returns_modify.mpr rfl) (returns_pure.mpr ⟨rfl, rfl⟩)))))
    · dsimp only
      rw [hbuffer, htake, hfilled, ← hdata, hn, take_readInto]
  · rw [if_neg hreadable]
    refine ⟨s, Returns.bind (returns_get.mpr ⟨rfl, rfl⟩) ?_, h, hdata.symm, fun _ _ ↦ rfl⟩
    rw [hfile]
    refine Returns.bind (hos.bind (returns_pure.mpr ⟨rfl, rfl⟩)) ?_
    rw [if_pos (by rw [Handle.osInode]; simpa using hreadable)]
    exact returns_pure.mpr ⟨rfl, rfl⟩

theorem sysRead (h : Simulates g D p s) (hcan : Canonical buf len) (hb : Backed pt buf len)
    (hdata : data = (pt.userPlaces buf len).map s.machine.byteAt)
    (htyped : p.file t fd = some .stdin → len = 1 ∧ ∃ c ∈ p.typed, c ≠ 0) :
    ∃ s', (Io.sysRead t pt fd buf len).Returns s (p.read t fd data).1.1 s' ∧
      Simulates g D (p.read t fd data).2 s' ∧
      (pt.userPlaces buf len).map s'.machine.byteAt = (p.read t fd data).1.2 ∧
      ∀ place ∉ pt.userPlaces buf len, s'.machine.byteAt place = s.machine.byteAt place := by
  have hfile := h.file_eq t fd
  unfold Posix.read
  cases hcase : p.file t fd with
  | none =>
    refine ⟨s, Returns.bind (returns_get.mpr ⟨rfl, rfl⟩) ?_, ?_, ?_, fun _ _ ↦ rfl⟩
    · rw [hfile, hcase]
      simp [Posix.handle, hcase]
    · simpa [Posix.handle, hcase] using h
    · simpa [Posix.handle, hcase] using hdata.symm
  | some file =>
    rw [hcase] at hfile
    cases file with
    | stdout =>
      refine ⟨s, Returns.bind (returns_get.mpr ⟨rfl, rfl⟩) ?_, ?_, ?_, fun _ _ ↦ rfl⟩
      · rw [hfile]
        refine Returns.bind (returns_pure.mpr ⟨rfl, rfl⟩) ?_
        simp [Posix.handle, hcase]
      · simpa [Posix.handle, hcase] using h
      · simpa [Posix.handle, hcase] using hdata.symm
    | stdin =>
      have hstdin := h.sysRead_stdin data hcan hb hcase (htyped hcase)
      rwa [Posix.read, hcase] at hstdin
    | inode arc =>
      have hinode := h.sysRead_inode hcan hb hdata hcase
      rwa [Posix.read, hcase] at hinode

/-- **Each call does what processes see**, and leaves the memory of others alone. -/
theorem call (h : Simulates g D p s) {c : FileCall} {request : FileRequest}
    (hasks : c.Asks g p t pt s.machine request) :
    ∃ s', (c.exec t pt).Returns s (p.step t request).1.1 s' ∧ Simulates g D (p.step t request).2 s' ∧
      c.Fills pt s.machine s'.machine (p.step t request).1.2 := by
  cases hasks with
  | open_ hpath hflags hmay => exact h.sysOpen hpath hflags hmay t
  | close =>
    obtain ⟨s', hret, hsim, hmachine⟩ := h.sysClose t _
    exact ⟨s', hret, hsim, congrArg Machine.byteAt hmachine⟩
  | read hcan hb htyped => exact h.sysRead hcan hb rfl htyped
  | write hcan hb hdata hprint hroom => exact h.sysWrite hcan hb hdata hprint hroom

end Buffers

end Simulates

/-! ## Runs -/

section Runs

variable [KernelLayout]

/-- What a call did. -/
structure FileEvent where
  task : ℕ
  request : FileRequest
  /-- The open file behind the descriptor of the call. -/
  handle : Option (ℕ × Handle)
  value : ℤ
  /-- What the buffer of the call holds afterwards. -/
  got : List UInt8

/-- The descriptor of a call. -/
def FileRequest.fd : FileRequest → Option ℕ
  | .open_ _ _ => none
  | .close fd => some fd
  | .read fd _ => some fd
  | .write fd _ => some fd

/-- What the buffer of a call to read holds. -/
def FileCall.buffer (pt : PageTable) (m : Machine) : FileCall → List UInt8
  | .read _ buf len => (pt.userPlaces buf len).map m.byteAt
  | _ => []

/-- The event of a call of a task. -/
def FileCall.event (c : FileCall) (p : Posix) (t : ℕ) (pt : PageTable) (request : FileRequest) (m : Machine)
    (value : ℤ) : FileEvent where
  task := t
  request := request
  handle := request.fd.bind (p.handle t)
  value := value
  got := c.buffer pt m

/-- Steps of a kernel with the calls that it served, the last one first, next to what processes see. Between the
calls the memory can change in any way, and keys are typed. -/
inductive Serves (g : Geometry) (D : DeviceId) (p : Posix) (s : Io) : List FileEvent → Posix → Io → Prop
  | start : Serves g D p s [] p s
  | newTask {events p' s' s''} (t : ℕ) (h : Serves g D p s events p' s') (hret : (Io.newTask t).Returns s' () s'') :
      Serves g D p s events (p'.newTask t) s''
  | fork {events p' s' s''} (t child : ℕ) (h : Serves g D p s events p' s')
      (hret : (Io.fork t child).Returns s' () s'') : Serves g D p s events (p'.fork t child) s''
  | call {events p' s' s'' t pt c request value} (h : Serves g D p s events p' s')
      (hasks : FileCall.Asks g p' t pt s'.machine c request)
      (hret : (c.exec t pt).Returns s' value s'') :
      Serves g D p s (c.event p' t pt request s''.machine value :: events) (p'.step t request).2 s''
  | memory {events p' s'} (m : Machine) (h : Serves g D p s events p' s') :
      Serves g D p s events p' { s' with machine := m }
  | type {events p' s'} (keys : List ℕ) (h : Serves g D p s events p' s') :
      Serves g D p s events { p' with typed := p'.typed ++ keys } { s' with typed := s'.typed ++ keys }

/-- A kernel that has booted on files. -/
structure Booted (g : Geometry) (D : DeviceId) (p : Posix) (s : Io) : Prop where
  stores : Stores g D p.files s.storage
  root : s.root = g.inode D 0
  files : s.files = []
  handles : p.handles = []
  fdTables : s.fdTables = p.fdTables
  fresh : ∀ t, p.fdTables t = []
  printed : s.printed = p.printed
  typed : s.typed = p.typed

variable {p p' : Posix} {s s' : Io} {events : List FileEvent}

omit [KernelLayout] in
theorem Booted.simulates (h : Booted g D p s) : Simulates g D p s where
  stores := h.stores
  root := h.root
  files := by rw [h.files, h.handles, List.map_nil]
  inside := by simp [h.handles]
  fdTables := h.fdTables
  arcs := by simp [h.fresh]
  printed := h.printed
  typed := h.typed

theorem Serves.simulates (h : Serves g D p s events p' s') (hsim : Simulates g D p s) : Simulates g D p' s' := by
  induction h with
  | start => exact hsim
  | newTask t _ hret ih =>
    obtain ⟨s₁, hret₁, hsim₁⟩ := ih.newTask t
    rwa [(hret.det hret₁).2]
  | fork t child _ hret ih =>
    obtain ⟨s₁, hret₁, hsim₁⟩ := ih.fork t child
    rwa [(hret.det hret₁).2]
  | call _ hasks hret ih =>
    obtain ⟨s₁, hret₁, hsim₁, -⟩ := ih.call hasks
    rwa [(hret.det hret₁).2]
  | memory m _ ih => exact ⟨ih.stores, ih.root, ih.files, ih.inside, ih.fdTables, ih.arcs, ih.printed, ih.typed⟩
  | type keys _ ih =>
    exact ⟨ih.stores, ih.root, ih.files, ih.inside, ih.fdTables, ih.arcs, ih.printed,
      congrArg (· ++ keys) ih.typed⟩

/-- **Files for processes**: whatever processes did since the kernel has booted, a call gives and does what they
see, the buffer of a read holds what was read, and no other byte of the memory changes. -/
theorem files_for_processes (hboot : Booted g D p s) (hserves : Serves g D p s events p' s') {t : ℕ}
    {pt : PageTable} {c : FileCall} {request : FileRequest} (hasks : c.Asks g p' t pt s'.machine request) :
    ∃ s'', (c.exec t pt).Returns s' (p'.step t request).1.1 s'' ∧
      c.Fills pt s'.machine s''.machine (p'.step t request).1.2 ∧
      Serves g D p s (c.event p' t pt request s''.machine (p'.step t request).1.1 :: events)
        (p'.step t request).2 s'' := by
  obtain ⟨s'', hret, -, hfills⟩ := (hserves.simulates hboot.simulates).call hasks
  exact ⟨s'', hret, hfills, .call hserves hasks hret⟩

/-- **What processes wrote is there after a restart**: whatever processes did, the machine can stop without notice,
and a kernel that boots on the device has the files that processes saw, and nothing else of what they had. -/
theorem files_survive (hboot : Booted g D p s) (hserves : Serves g D p s events p' s') (m : Machine) (typed : List ℕ) :
    ∃ root st, (rootInode D).Returns (Storage.boot s'.storage.device) root st ∧
      Booted g D ⟨p'.files, [], fun _ ↦ [], [], typed⟩ ⟨m, st, root, [], fun _ ↦ [], [], typed⟩ := by
  have hstores := (hserves.simulates hboot.simulates).stores.boot
  obtain ⟨st, hopen, hready⟩ := hstores.ready.open_
  have hroot : (g.efs D).rootInode = g.inode D 0 := rootInode_efs (hready.holds.lt_inodes (i := 0) rfl)
  exact ⟨g.inode D 0, st, hopen.bind (returns_pure.mpr ⟨hroot.symm, rfl⟩),
    ⟨hstores.of_ready hready, rfl, rfl, rfl, rfl, fun _ ↦ rfl, rfl, rfl⟩⟩

end Runs

/-- A device with one file. -/
theorem exists_stores_abc : ∃ st, Stores smallFs 0 [("abc", [1, 2, 3])] st := by
  obtain ⟨s₀, -, hready⟩ := create_returns (g := smallFs) (D := 0) (by decide) (view_boot fun _ _ ↦ zeroBlock)
  obtain ⟨st, -, hstores⟩ := @Stores.packApps smallFs 0 [] [("abc", [1, 2, 3])] s₀ (fun _ ↦ some [1, 2, 3])
    hready.stores_nil (by decide) (by decide +kernel) (by decide) (by decide) (by decide +kernel)
  exact ⟨st, hstores⟩

/-- Every page of memory begins with a name. -/
def abcMachine : Machine :=
  { sampleMachine with bytes := fun _ offset ↦ if offset < 3 then 97 + UInt8.ofNat offset else 0 }

/-- What processes see when a kernel has booted on one file. -/
def abcPosix : Posix := ⟨[("abc", [1, 2, 3])], [], fun _ ↦ [], [], []⟩

/-- A kernel can boot on the file. -/
theorem exists_booted_abc : ∃ s, Booted smallFs 0 abcPosix s ∧ s.machine = abcMachine := by
  obtain ⟨st, hst⟩ := exists_stores_abc
  exact ⟨⟨abcMachine, st, Geometry.inode smallFs 0 0, [], fun _ ↦ [], [], []⟩,
    ⟨hst, rfl, rfl, rfl, rfl, fun _ ↦ rfl, rfl, rfl⟩, rfl⟩

/-- The name is at the first address. -/
theorem strAt_abc : @StrAt sampleLayout .samplePages abcMachine 0 [97, 98, 99] := by
  refine @StrAt.mk sampleLayout _ _ _ _ (fun a _ _ ↦ ⟨_, PageTable.translate_samplePages _, ?_⟩)
    (by decide +kernel) (by decide) (by decide +kernel) (by decide) (by decide)
  rw [PageTableEntry.ppn_new (by omega) (by decide)]
  exact ⟨(by omega : 0x81A60 ≤ _), (by omega : _ < 0x88000)⟩

/-- A new task. -/
theorem serves_newTask_abc (s : Io) : @Serves sampleLayout smallFs 0 abcPosix s [] (abcPosix.newTask 1)
    { s with fdTables := Function.update s.fdTables 1 newFdTable } :=
  @Serves.newTask sampleLayout _ _ _ _ _ _ _ _ 1 (@Serves.start sampleLayout _ _ _ _) (returns_modify.mpr rfl)

/-- A task that is new opens a file. -/
theorem files_for_processes_abc : ∃ s s' s'', Booted smallFs 0 abcPosix s ∧
    @Serves sampleLayout smallFs 0 abcPosix s [] (abcPosix.newTask 1) s' ∧
    (Io.sysOpen 1 .samplePages 0 0).Returns s' 3 s'' := by
  obtain ⟨s, hboot, hmachine⟩ := exists_booted_abc
  have hserves := serves_newTask_abc s
  have hasks : @FileCall.Asks sampleLayout smallFs (abcPosix.newTask 1) 1 .samplePages s.machine (.open_ 0 0)
      (.open_ (latin1 [97, 98, 99]) .RDONLY) :=
    hmachine ▸ @FileCall.Asks.open_ sampleLayout _ _ _ _ _ _ _ _ _ strAt_abc (by decide) (by decide)
  obtain ⟨s'', hret, -, -⟩ := @files_for_processes _ _ sampleLayout _ _ _ _ _ hboot hserves _ _ _ _ hasks
  have hvalue : ((abcPosix.newTask 1).step 1 (.open_ (latin1 [97, 98, 99]) .RDONLY)).1.1 = 3 := by decide +kernel
  rw [hvalue] at hret
  exact ⟨s, _, s'', hboot, hserves, hret⟩

/-- A task makes the file empty, and after a restart it is empty. -/
theorem files_survive_abc : ∃ s s' s'' root st, Booted smallFs 0 abcPosix s ∧
    (Io.sysOpen 1 .samplePages 0 1024).Returns s' 3 s'' ∧
    (rootInode 0).Returns (Storage.boot s''.storage.device) root st ∧
    Booted smallFs 0 ⟨[("abc", [])], [], fun _ ↦ [], [], []⟩ ⟨abcMachine, st, root, [], fun _ ↦ [], [], []⟩ := by
  obtain ⟨s, hboot, hmachine⟩ := exists_booted_abc
  have hserves := serves_newTask_abc s
  have hasks : @FileCall.Asks sampleLayout smallFs (abcPosix.newTask 1) 1 .samplePages s.machine (.open_ 0 1024)
      (.open_ (latin1 [97, 98, 99]) .TRUNC) :=
    hmachine ▸ @FileCall.Asks.open_ sampleLayout _ _ _ _ _ _ _ _ _ strAt_abc (by decide) (by decide)
  obtain ⟨s'', hret, -⟩ := @Simulates.call _ _ _ _ _ sampleLayout _
    (@Serves.simulates _ _ sampleLayout _ _ _ _ _ hserves hboot.simulates) _ _ hasks
  obtain ⟨root, st, hroot, hbooted⟩ := @files_survive _ _ sampleLayout _ _ _ _ _ hboot
    (@Serves.call sampleLayout _ _ _ _ _ _ _ _ _ _ _ _ _ hserves hasks hret) abcMachine []
  have hvalue : ((abcPosix.newTask 1).step 1 (.open_ (latin1 [97, 98, 99]) .TRUNC)).1.1 = 3 := by decide +kernel
  have hfiles : ((abcPosix.newTask 1).step 1 (.open_ (latin1 [97, 98, 99]) .TRUNC)).2.files = [("abc", [])] := by
    decide +kernel
  rw [hvalue] at hret
  rw [hfiles] at hbooted
  exact ⟨s, _, s'', root, st, hboot, hret, hroot, hbooted⟩

end AgentOS
