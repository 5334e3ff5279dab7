import AgentOS.Fs.OSInode
import AgentOS.Mm.BufferWalk

/-!
# Reading and writing files from user space

`sys_read` and `sys_write` of `os/src/syscall/fs.rs`, for descriptors of files. The user's buffer is handed
to the file as the slices it is translated to. What comes of it depends on the bytes of the buffer and not on
the pages they are in.
-/

namespace AgentOS

open Exec Fs

/-- What the two calls work on. -/
structure OpenFiles where
  machine : Machine
  storage : Storage
  /-- The `OSInode` behind each `Arc`. -/
  files : List OSInode
  /-- `fd_table` of the current task. -/
  fdTable : List (Option ℕ)

/-- The bytes of a slice. -/
def Chunk.bytes (m : Machine) (c : Chunk) : List UInt8 := c.places.map m.byteAt

/-- The file has moved on. -/
def Fs.OSInode.advance (file : OSInode) (n : ℕ) : OSInode :=
  { file with inner := { file.inner with offset := file.inner.offset + n } }

namespace OpenFiles

def onMachine {α : Type} (x : Exec Machine α) : Exec OpenFiles α :=
  zoom machine (fun m s ↦ { s with machine := m }) x

def onStorage {α : Type} (x : Exec Storage α) : Exec OpenFiles α :=
  zoom storage (fun t s ↦ { s with storage := t }) x

/-- Read slices whole. -/
def readEach : List Chunk → Exec Machine (List (List UInt8))
  | [] => pure []
  | c :: cs => do
    let slice ← readSlice .userPtr c c.length
    let slices ← readEach cs
    pure (slice :: slices)

/-- `sys_write`, with the page table of the current user. -/
def sysWrite (pt : PageTable) (fd buf len : ℕ) : Exec OpenFiles ℤ := do
  let s ← get
  match s.fdTable[fd]?.join with
  | none => pure (-1)
  | some arc => do
    let file ← unwrap s.files[arc]?
    if file.writable = false then pure (-1)
    else do
      let chunks ← unwrap (pt.translatedByteBuffer buf len)
      let slices ← onMachine (readEach chunks)
      let (n, file) ← onStorage (file.write slices)
      modify fun s ↦ { s with files := s.files.set arc file }
      pure n

/-- `sys_read`. The file fills the front of the slices. -/
def sysRead [KernelLayout] (pt : PageTable) (fd buf len : ℕ) : Exec OpenFiles ℤ := do
  let s ← get
  match s.fdTable[fd]?.join with
  | none => pure (-1)
  | some arc => do
    let file ← unwrap s.files[arc]?
    if file.readable = false then pure (-1)
    else do
      let chunks ← unwrap (pt.translatedByteBuffer buf len)
      let (n, slices, file) ← onStorage (file.read (chunks.map (Chunk.bytes s.machine)))
      let _ ← onMachine (writeChunks .userPtr chunks (slices.flatten.take n))
      modify fun s ↦ { s with files := s.files.set arc file }
      pure n

/-! ## The slices of a user buffer -/

theorem flatten_bytes (m : Machine) (cs : List Chunk) :
    (cs.map (Chunk.bytes m)).flatten = (placesOf cs).map m.byteAt := by
  induction cs with
  | nil => rfl
  | cons c cs ih => rw [List.map_cons, List.flatten_cons, ih, placesOf_cons, List.map_append, Chunk.bytes]

theorem bytes_ne_nil {c : Chunk} (h : 0 < c.length) (m : Machine) : c.bytes m ≠ [] :=
  List.ne_nil_of_length_pos (by rwa [Chunk.bytes, List.length_map, Chunk.length_places])

/-- Reading slices whole gives their bytes. -/
theorem returns_readEach {cs : List Chunk} (h : ∀ c ∈ cs, KernelLayout.kernelReads c.ppn = true)
    (m : Machine) : ∃ log, (readEach cs).Returns m (cs.map (Chunk.bytes m)) (m.noted log) := by
  induction cs generalizing m with
  | nil => exact ⟨[], returns_pure.mpr ⟨rfl, rfl⟩⟩
  | cons c cs ih =>
    obtain ⟨log, hrest⟩ := ih (fun c' hc' ↦ h c' (List.mem_cons_of_mem _ hc'))
      (m.noted (if c.length = 0 then [] else [c.access .userPtr false]))
    have hslice : (readSlice .userPtr c c.length).Returns m (c.bytes m)
        (m.noted (if c.length = 0 then [] else [c.access .userPtr false])) := by
      refine (returns_readSlice le_rfl).mpr ⟨fun _ ↦ h c List.mem_cons_self, ?_, rfl⟩
      rw [List.take_of_length_le (Chunk.length_places c).le, Chunk.bytes]
    rw [Machine.noted_noted] at hrest
    exact ⟨_, hslice.bind (hrest.bind (returns_pure.mpr ⟨rfl, rfl⟩))⟩

variable [KernelLayout] {pt : PageTable} {buf len fd arc : ℕ} {s : OpenFiles} {file : OSInode}

/-- `sys_write` writes slices, and together they are the user's bytes. -/
theorem returns_sysWrite (hfd : s.fdTable[fd]? = some (some arc)) (hfile : s.files[arc]? = some file)
    (hwritable : file.writable = true) (hcan : Canonical buf len) (hb : Backed pt buf len) :
    ∃ (slices : List (List UInt8)) (log : List Access), (∀ slice ∈ slices, slice ≠ []) ∧
      slices.flatten = (pt.userPlaces buf len).map s.machine.byteAt ∧
      ∀ n file' t, (file.write slices).Returns s.storage (n, file') t →
        (sysWrite pt fd buf len).Returns s n
          { s with machine := s.machine.noted log, storage := t, files := s.files.set arc file' } := by
  obtain ⟨cs, hcs, hplaces, hc⟩ := chunks_of_backed hcan hb
  obtain ⟨log, hread⟩ := returns_readEach
    (fun c hmem ↦ KernelLayout.kernelReads_of_kernelWrites (hc c hmem).1) s.machine
  refine ⟨cs.map (Chunk.bytes s.machine), log, ?_, by rw [flatten_bytes, hplaces],
    fun n file' t hwrite ↦ ?_⟩
  · intro slice hslice
    obtain ⟨c, hmem, rfl⟩ := List.mem_map.mp hslice
    exact bytes_ne_nil (hc c hmem).2 _
  · refine Returns.bind (returns_get.mpr ⟨rfl, rfl⟩) ?_
    rw [hfd, Option.join_some]
    refine Returns.bind (returns_unwrap.mpr ⟨hfile, rfl⟩) ?_
    rw [if_neg (by rw [hwritable]; decide)]
    refine Returns.bind (returns_unwrap.mpr ⟨hcs, rfl⟩) ?_
    refine Returns.bind (returns_zoom.mpr ⟨_, hread, rfl⟩) ?_
    refine Returns.bind (returns_zoom.mpr ⟨t, hwrite, rfl⟩) ?_
    exact Returns.bind (a := ()) (returns_modify.mpr rfl) (returns_pure.mpr ⟨rfl, rfl⟩)

/-- `sys_read` reads into slices that together are the user's buffer, and the buffer gets the front of
what is read. -/
theorem returns_sysRead (hfd : s.fdTable[fd]? = some (some arc)) (hfile : s.files[arc]? = some file)
    (hreadable : file.readable = true) (hcan : Canonical buf len) (hb : Backed pt buf len) :
    ∃ slices : List (List UInt8), (∀ slice ∈ slices, slice ≠ []) ∧
      slices.flatten = (pt.userPlaces buf len).map s.machine.byteAt ∧
      ∀ n filled file' t, (file.read slices).Returns s.storage (n, filled, file') t →
        ∃ log, (sysRead pt fd buf len).Returns s n
          { s with
            machine := s.machine.written (pt.userPlaces buf len) (filled.flatten.take n) log
            storage := t
            files := s.files.set arc file' } := by
  obtain ⟨cs, hcs, hplaces, hc⟩ := chunks_of_backed hcan hb
  refine ⟨cs.map (Chunk.bytes s.machine), ?_, by rw [flatten_bytes, hplaces],
    fun n filled file' t hread ↦ ⟨accessesOf .userPtr true cs (filled.flatten.take n).length, ?_⟩⟩
  · intro slice hslice
    obtain ⟨c, hmem, rfl⟩ := List.mem_map.mp hslice
    exact bytes_ne_nil (hc c hmem).2 _
  · have hwrite : (writeChunks .userPtr cs (filled.flatten.take n)).Returns s.machine _ _ :=
      returns_writeChunks.mpr ⟨fun c hmem ↦ (hc c (mem_touched hmem)).1, rfl, rfl⟩
    rw [hplaces] at hwrite
    refine Returns.bind (returns_get.mpr ⟨rfl, rfl⟩) ?_
    rw [hfd, Option.join_some]
    refine Returns.bind (returns_unwrap.mpr ⟨hfile, rfl⟩) ?_
    rw [if_neg (by rw [hreadable]; decide)]
    refine Returns.bind (returns_unwrap.mpr ⟨hcs, rfl⟩) ?_
    refine Returns.bind (returns_zoom.mpr ⟨t, hread, rfl⟩) ?_
    refine Returns.bind (returns_zoom.mpr ⟨_, hwrite, rfl⟩) ?_
    exact Returns.bind (a := ()) (returns_modify.mpr rfl) (returns_pure.mpr ⟨rfl, rfl⟩)

end OpenFiles

/-! ## One buffer -/

open OpenFiles

/-- A write has a byte to write, or a block of the file to look into. -/
def HasBlock (bytes : List UInt8) (offset : ℕ) (buf : List UInt8) : Prop :=
  buf ≠ [] ∨ offset ≤ bytes.length ∧ offset / blockSz < blocksFor bytes.length

theorem HasBlock.div_lt {bytes buf : List UInt8} {offset : ℕ} (h : HasBlock bytes offset buf) :
    offset / blockSz < blocksFor (max bytes.length (offset + buf.length)) := by
  rcases h with h | ⟨-, h⟩
  · exact div_lt_of_ne_nil _ _ h
  · exact h.trans_le (DiskInode.blocksFor_mono (Nat.le_max_left _ _))

variable {g : Geometry} {D : DeviceId} {F : Files} {c : Session} {inode : Inode} {i : ℕ}
  {file : OSInode}

theorem Fs.Represents.file_eq (h : Represents g D F c) (hi : c.files[i]? = some inode) :
    i < F.length ∧ inode = g.inode D (i + 1) := by
  rw [h.files, List.getElem?_map, Option.map_eq_some_iff] at hi
  obtain ⟨j, hj, rfl⟩ := hi
  obtain ⟨hlt, rfl⟩ := List.getElem?_eq_some_iff.mp hj
  rw [List.length_range] at hlt
  exact ⟨hlt, by rw [List.getElem_range]⟩

/-- Writing the slices does to the files what one write of them all does, and gives the same. -/
def WritesAsOne (g : Geometry) (D : DeviceId) (F : Files) (c : Session) (i : ℕ) (file : OSInode)
    (slices : List (List UInt8)) : Prop :=
  ∃ t t', (file.write slices).Returns c.storage
      (slices.flatten.length, file.advance slices.flatten.length) t ∧
    (file.inner.inode.writeAt file.inner.offset slices.flatten).Returns c.storage
      slices.flatten.length t' ∧
    Represents g D (F.put i (overlay (F.bytes i) file.inner.offset slices.flatten))
      { c with storage := t } ∧
    Represents g D (F.put i (overlay (F.bytes i) file.inner.offset slices.flatten))
      { c with storage := t' }

/-- Reading the slices fills them with what one read into them all gives, and leaves the files as they
are. -/
def ReadsAsOne (g : Geometry) (D : DeviceId) (F : Files) (c : Session) (file : OSInode)
    (slices : List (List UInt8)) : Prop :=
  ∃ n filled t t', (file.read slices).Returns c.storage (n, filled, file.advance n) t ∧
    (file.inner.inode.readAt file.inner.offset slices.flatten).Returns c.storage
      (n, filled.flatten) t' ∧
    filled.map List.length = slices.map List.length ∧
    Represents g D F { c with storage := t } ∧ Represents g D F { c with storage := t' }

theorem Fs.Represents.writesAsOne (h : Represents g D F c) (hi : c.files[i]? = some file.inner.inode)
    {slices : List (List UInt8)} (hslices : ∀ slice ∈ slices, slice ≠ [])
    (hblock : HasBlock (F.bytes i) file.inner.offset slices.flatten)
    (hroom : Files.Room g (F.put i (overlay (F.bytes i) file.inner.offset slices.flatten))) :
    WritesAsOne g D F c i file slices := by
  obtain ⟨readable, writable, offset, inode⟩ := file
  obtain ⟨hlt, rfl⟩ := h.file_eq hi
  have hbytes := Files.getElem?_bytes hlt
  rw [Files.Room, Files.volume_put] at hroom
  have hnil : slices = [] → offset ≤ (F.bytes i).length := by
    rintro rfl
    exact (hblock.resolve_left (by simp)).1
  obtain ⟨t, hwrite, hready⟩ := h.ready.writeSlices hbytes hslices hnil hroom 0
  obtain ⟨t', hone, hready', -⟩ := h.ready.writeAt hbytes hblock.div_lt hroom
  rw [Nat.zero_add] at hwrite
  exact ⟨t, t', hwrite.bind (returns_pure.mpr ⟨rfl, rfl⟩), hone, h.of_put hready, h.of_put hready'⟩

theorem Fs.Represents.readsAsOne (h : Represents g D F c) (hi : c.files[i]? = some file.inner.inode)
    {slices : List (List UInt8)} (hslices : ∀ slice ∈ slices, slice ≠ []) :
    ReadsAsOne g D F c file slices := by
  obtain ⟨readable, writable, offset, inode⟩ := file
  obtain ⟨hlt, rfl⟩ := h.file_eq hi
  have hbytes := Files.getElem?_bytes hlt
  obtain ⟨filled, t, hread, hready, hfilled, hlengths⟩ := h.ready.readSlices hbytes hslices offset 0
  obtain ⟨t', hone, hready', -⟩ := h.ready.readAt hbytes offset slices.flatten
  rw [Nat.zero_add] at hread
  rw [← hfilled] at hone
  exact ⟨_, filled, t, t', hread.bind (returns_pure.mpr ⟨rfl, rfl⟩), hone, hlengths, h.of_ready hready,
    h.of_ready hready'⟩

/-- Where one read has ended, the buffer is as it was. -/
theorem Fs.Represents.readAt_rest (h : Represents g D F c) (hi : c.files[i]? = some inode) {offset n : ℕ}
    {buf got : List UInt8} {t : Storage} (hret : (inode.readAt offset buf).Returns c.storage (n, got) t) :
    n ≤ buf.length ∧ got.length = buf.length ∧ got.take n ++ buf.drop n = got := by
  obtain ⟨hlt, rfl⟩ := h.file_eq hi
  obtain ⟨t', hret', -⟩ := h.ready.readAt (Files.getElem?_bytes hlt) offset buf
  obtain ⟨heq, -⟩ := hret.det hret'
  obtain ⟨rfl, rfl⟩ := Prod.mk.inj heq
  exact ⟨min_le_left _ _, length_readInto _ _ _, take_readInto _ _ _⟩

section Calls

variable [KernelLayout] {o : OpenFiles} {pt : PageTable} {buf len fd arc : ℕ}

/-- The descriptor is one of the file, in this session. -/
structure Opens (o : OpenFiles) (c : Session) (fd arc : ℕ) (file : OSInode) : Prop where
  storage : o.storage = c.storage
  fd : o.fdTable[fd]? = some (some arc)
  file : o.files[arc]? = some file

/-- `sys_write` does to the files what one write of the user's bytes does. -/
def SysWritesAsOne (g : Geometry) (D : DeviceId) (F : Files) (c : Session) (i : ℕ) (file : OSInode)
    (o : OpenFiles) (pt : PageTable) (fd arc buf len : ℕ) (data : List UInt8) : Prop :=
  ∃ o' t', (sysWrite pt fd buf len).Returns o len o' ∧
    (file.inner.inode.writeAt file.inner.offset data).Returns c.storage len t' ∧
    o'.files = o.files.set arc (file.advance len) ∧ o'.fdTable = o.fdTable ∧
    o'.machine.byteAt = o.machine.byteAt ∧
    Represents g D (F.put i (overlay (F.bytes i) file.inner.offset data)) { c with storage := o'.storage } ∧
    Represents g D (F.put i (overlay (F.bytes i) file.inner.offset data)) { c with storage := t' }

/-- `sys_read` gives what one read gives, and the user's buffer is filled like the one buffer. -/
def SysReadsAsOne (g : Geometry) (D : DeviceId) (F : Files) (c : Session) (file : OSInode)
    (o : OpenFiles) (pt : PageTable) (fd arc buf len : ℕ) (data : List UInt8) : Prop :=
  ∃ (n : ℕ) (got : List UInt8) (o' : OpenFiles) (t' : Storage),
    (sysRead pt fd buf len).Returns o n o' ∧
    (file.inner.inode.readAt file.inner.offset data).Returns c.storage (n, got) t' ∧
    (pt.userPlaces buf len).map o'.machine.byteAt = got ∧
    (∀ p ∉ pt.userPlaces buf len, o'.machine.byteAt p = o.machine.byteAt p) ∧
    o'.files = o.files.set arc (file.advance n) ∧ o'.fdTable = o.fdTable ∧
    Represents g D F { c with storage := o'.storage } ∧ Represents g D F { c with storage := t' }

theorem Fs.Represents.sysWritesAsOne (h : Represents g D F c)
    (hi : c.files[i]? = some file.inner.inode) (hopen : Opens o c fd arc file)
    (hwritable : file.writable = true) (hcan : Canonical buf len) (hb : Backed pt buf len)
    {data : List UInt8} (hdata : data = (pt.userPlaces buf len).map o.machine.byteAt)
    (hblock : HasBlock (F.bytes i) file.inner.offset data)
    (hroom : Files.Room g (F.put i (overlay (F.bytes i) file.inner.offset data))) :
    SysWritesAsOne g D F c i file o pt fd arc buf len data := by
  obtain ⟨slices, log, hslices, hflatten, hsys⟩ := returns_sysWrite hopen.fd hopen.file hwritable hcan hb
  rw [← hflatten] at hdata
  subst hdata
  have hlen : slices.flatten.length = len := by
    rw [hflatten, List.length_map, PageTable.length_userPlaces]
  obtain ⟨t, t', hwrite, hone, hrep, hrep'⟩ := h.writesAsOne hi hslices hblock hroom
  rw [hlen] at hwrite hone
  exact ⟨_, t', hsys len _ t (hopen.storage ▸ hwrite), hone, rfl, rfl, Machine.byteAt_noted _ log, hrep,
    hrep'⟩

theorem Fs.Represents.sysReadsAsOne (h : Represents g D F c)
    (hi : c.files[i]? = some file.inner.inode) (hopen : Opens o c fd arc file)
    (hreadable : file.readable = true) (hcan : Canonical buf len) (hb : Backed pt buf len) :
    SysReadsAsOne g D F c file o pt fd arc buf len ((pt.userPlaces buf len).map o.machine.byteAt) := by
  obtain ⟨slices, hslices, hflatten, hsys⟩ := returns_sysRead hopen.fd hopen.file hreadable hcan hb
  obtain ⟨n, filled, t, t', hread, hone, -, hrep, hrep'⟩ := h.readsAsOne hi hslices
  obtain ⟨log, hcall⟩ := hsys n filled _ t (hopen.storage ▸ hread)
  rw [hflatten] at hone
  obtain ⟨hle, hlen, hrest⟩ := h.readAt_rest hi hone
  have htake : (filled.flatten.take n).length = n := List.length_take_of_le (hlen ▸ hle)
  rw [List.length_map] at hle
  have hnodup : (pt.userPlaces buf len).Nodup := by
    refine List.Nodup.map_on (fun a ha b hb' heq ↦ ?_) List.nodup_range'
    have ha' := List.mem_range'_1.mp ha
    have hb' := List.mem_range'_1.mp hb'
    exact hb.place_inj a b ha'.1 ha'.2 hb'.1 hb'.2 heq
  refine ⟨n, filled.flatten, _, t', hcall, hone, ?_, fun p hp ↦ ?_, rfl, rfl, hrep, hrep'⟩
  · rw [Machine.byteAt_written, Scatter.map_scatter hnodup (htake.trans_le hle), htake, List.map_drop,
      hrest]
  · rw [Machine.byteAt_written]
    exact Scatter.scatter_of_not_mem hp _ _

/-- **Slices are one buffer**: reading into slices and writing slices is one read and one write, wherever
the file ends, and what the two calls do depends on the bytes of the user's buffer and not on its pages. -/
theorem scattered_as_one (h : Reached g D F c) (hi : c.files[i]? = some file.inner.inode) :
    (∀ slices, (∀ slice ∈ slices, slice ≠ []) → ReadsAsOne g D F c file slices ∧
      (HasBlock (F.bytes i) file.inner.offset slices.flatten →
        Files.Room g (F.put i (overlay (F.bytes i) file.inner.offset slices.flatten)) →
        WritesAsOne g D F c i file slices)) ∧
    ∀ o pt fd arc buf len data, Opens o c fd arc file → Canonical buf len → Backed pt buf len →
      data = (pt.userPlaces buf len).map o.machine.byteAt →
      (file.readable = true → SysReadsAsOne g D F c file o pt fd arc buf len data) ∧
      (file.writable = true → HasBlock (F.bytes i) file.inner.offset data →
        Files.Room g (F.put i (overlay (F.bytes i) file.inner.offset data)) →
        SysWritesAsOne g D F c i file o pt fd arc buf len data) := by
  have hrep := h.represents
  refine ⟨fun slices hslices ↦ ⟨hrep.readsAsOne hi hslices, hrep.writesAsOne hi hslices⟩, ?_⟩
  rintro o pt fd arc buf len data hopen hcan hb rfl
  exact ⟨fun hreadable ↦ hrep.sysReadsAsOne hi hopen hreadable hcan hb,
    fun hwritable ↦ hrep.sysWritesAsOne hi hopen hwritable hcan hb rfl⟩

end Calls

/-- A file system with one empty file. -/
theorem exists_reached_one : ∃ c inode, Reached smallFs 0 [("a", [])] c ∧ c.files[0]? = some inode := by
  obtain ⟨c, hmade⟩ := exists_made (g := smallFs) (D := 0) (by decide)
  have hlegal : Files.Legal smallFs [] (.create "a") := by decide +kernel
  obtain ⟨c', hret, hrep, -⟩ := hmade.represents.step hlegal
  have hone : (Files.step [] (.create "a")).2 = [("a", [])] := by decide
  rw [hone] at hrep
  refine ⟨c', smallFs.inode 0 1, hone ▸ .step (.made hmade) hlegal hret, ?_⟩
  rw [hrep.files]
  rfl

open PageTable in
/-- Ten bytes across the end of a page lie in two pages of memory. -/
theorem backed_samplePages : @Backed sampleLayout samplePages 4090 10 := by
  have hppn : ∀ vpn, (samplePages.translate vpn).map PageTableEntry.ppn =
      some (0x82010 + vpn % 512) := fun vpn ↦ by
    rw [translate_samplePages, Option.map_some, PageTableEntry.ppn_new (by omega) (by decide)]
  refine @Backed.of_distinct sampleLayout _ _ _ (by decide) (fun a _ _ ↦ ⟨_, translate_samplePages _, ?_⟩)
    fun a b _ _ _ _ h ↦ ?_
  · rw [PageTableEntry.ppn_new (by omega) (by decide)]
    exact ⟨(by omega : 0x81A60 ≤ _), (by omega : _ < 0x88000)⟩
  · simp only [place, hppn, Option.getD_some] at h
    simp only [pageOf, VirtAddr.floor, VirtAddr.ofUsize, pageSize] at h ⊢
    omega

theorem scattered_as_one_two : ∃ c inode, Reached smallFs 0 [("a", [])] c ∧ c.files[0]? = some inode ∧
    WritesAsOne smallFs 0 [("a", [])] c 0 ⟨true, true, ⟨5, inode⟩⟩ [[1, 2], [3]] ∧
    ReadsAsOne smallFs 0 [("a", [])] c ⟨true, true, ⟨0, inode⟩⟩ [[1, 2], [3]] ∧
    @SysReadsAsOne sampleLayout smallFs 0 [("a", [])] c ⟨true, true, ⟨0, inode⟩⟩
      ⟨sampleMachine, c.storage, [⟨true, true, ⟨0, inode⟩⟩], [some 0]⟩ PageTable.samplePages 0 0 4090 10
      ((PageTable.samplePages.userPlaces 4090 10).map sampleMachine.byteAt) := by
  obtain ⟨c, inode, hreached, hi⟩ := exists_reached_one
  have hroom : Files.Room smallFs (Files.put [("a", [])] 0 (overlay [] 5 [1, 2, 3])) := by
    decide +kernel
  obtain ⟨hslices, hcalls⟩ := @scattered_as_one smallFs 0 [("a", [])] c 0 ⟨true, true, ⟨0, inode⟩⟩
    sampleLayout hreached hi
  have hwrite := ((@scattered_as_one smallFs 0 [("a", [])] c 0 ⟨true, true, ⟨5, inode⟩⟩ sampleLayout
    hreached hi).1 [[1, 2], [3]] (by decide)).2 (Or.inl (by decide)) hroom
  refine ⟨c, inode, hreached, hi, hwrite, (hslices _ (by decide)).1, ?_⟩
  exact (hcalls ⟨sampleMachine, c.storage, [⟨true, true, ⟨0, inode⟩⟩], [some 0]⟩ _ 0 0 4090 10 _
    ⟨rfl, rfl, rfl⟩ (Or.inl (by decide)) backed_samplePages rfl).1 rfl

/-- Beyond the end, writing nothing lengthens the file, but writing no slices does not. -/
theorem not_scattered_as_one_empty : ∃ c inode, Reached smallFs 0 [("a", [])] c ∧
    c.files[0]? = some inode ∧ Files.Room smallFs [("a", List.replicate 100 0)] ∧
    ∃ t t', (OSInode.write ⟨true, true, ⟨100, inode⟩⟩ []).Returns c.storage
        (0, ⟨true, true, ⟨100, inode⟩⟩) t ∧
      (inode.writeAt 100 []).Returns c.storage 0 t' ∧
      Represents smallFs 0 [("a", [])] { c with storage := t } ∧
      Represents smallFs 0 [("a", List.replicate 100 0)] { c with storage := t' } := by
  obtain ⟨c, inode, hreached, hi⟩ := exists_reached_one
  have hrep := hreached.represents
  obtain ⟨hlt, rfl⟩ := hrep.file_eq hi
  have hroom : Files.Room smallFs [("a", List.replicate 100 0)] := by decide +kernel
  obtain ⟨t', hone, hready, -⟩ := hrep.ready.writeAt (Files.getElem?_bytes hlt)
    (show 100 / blockSz < blocksFor (max _ (100 + ([] : List UInt8).length)) from by decide) (show Volume.Fits smallFs _ from Files.volume_put _ _ _ ▸ hroom)
  exact ⟨c, _, hreached, hi, hroom, c.storage, t', returns_pure.mpr ⟨rfl, rfl⟩, hone, hrep,
    hrep.of_put hready⟩

end AgentOS
