import AgentOS.Fs.OpenFile
import AgentOS.Lib.Utf8
import AgentOS.Mm.PageCuts
import AgentOS.Syscall.Files

/-!
# File descriptors

`os/src/syscall/fs.rs`, `os/src/fs/stdio.rs` and what `os/src/task/task.rs` does with the descriptors of a task.
A descriptor is a place in the table of a task and stands for the console or for an `OSInode` behind an `Arc`. A
fork copies the table, so that parent and child go on with the same `OSInode` and share its offset.

The calls of a task that are modelled in `OpenFiles` are those of a single task with files only. Here there are
all tasks, and the console.
-/

namespace AgentOS

open Exec Fs

/-- What a descriptor stands for: the implementations of the `File` trait. -/
inductive File where
  /-- Standard input -/
  | stdin
  /-- Standard output -/
  | stdout
  /-- The `OSInode` behind an `Arc`. -/
  | inode (arc : ℕ)
  deriving DecidableEq, Repr

/-- The descriptors of a task. -/
abbrev FdTable := List (Option File)

/-- What the calls on files work on. -/
structure Io where
  machine : Machine
  storage : Storage
  /-- `ROOT_INODE` -/
  root : Inode
  /-- The `OSInode` behind each `Arc`. -/
  files : List OSInode
  /-- `fd_table` of each task. -/
  fdTables : ℕ → FdTable
  /-- The bytes that were printed. -/
  printed : List UInt8
  /-- What `console_getchar` is going to give, with 0 as long as nothing is typed. -/
  typed : List ℕ

/-- `fd_table` of a task that is not forked. -/
def newFdTable : FdTable :=
  [ -- 0 -> stdin
    some .stdin,
    -- 1 -> stdout
    some .stdout,
    -- 2 -> stderr
    some .stdout]

/-- `alloc_fd` -/
def allocFd (fdTable : FdTable) : ℕ × FdTable :=
  if let some fd := (List.range fdTable.length).find? fun fd ↦ fdTable[fd]?.join.isNone then (fd, fdTable)
  else (fdTable.length, fdTable ++ [none])

/-! ## Strings of the user -/

namespace PageTable

/-- The loop of `translated_str`, with at most so many turns. -/
def strFrom (pt : PageTable) : ℕ → ℕ → String → Exec Machine String
  | 0, _, _ => panic
  | turns + 1, va, string => do
    let (ppn, off) ← unwrap (pt.translateVa (VirtAddr.ofUsize va))
    let ch ← readSlice .userPtr ⟨pageOf va, ppn, off, off + 1⟩ 1
    let ch := ch.headD 0
    if ch = 0 then pure string
    else pt.strFrom turns ((va + 1) % 2 ^ 64) (string.push (Char.ofUInt8 ch))

/-- Addresses repeat after so many bytes, and where there is no NUL until then there is none. -/
def strTurns : ℕ := 2 ^ 39

/-- `translated_str` -/
def translatedStr (pt : PageTable) (ptr : ℕ) : Exec Machine String := pt.strFrom strTurns ptr ""

end PageTable

namespace Io

def onMachine {α : Type} (x : Exec Machine α) : Exec Io α :=
  zoom machine (fun m s ↦ { s with machine := m }) x

def onStorage {α : Type} (x : Exec Storage α) : Exec Io α :=
  zoom storage (fun t s ↦ { s with storage := t }) x

/-- The table of a task is replaced. -/
def setFdTable (t : ℕ) (fdTable : FdTable) : Exec Io Unit :=
  modify fun s ↦ { s with fdTables := Function.update s.fdTables t fdTable }

/-! ## The files -/

/-- The `OSInode` behind an `Arc`. -/
def osInode (arc : ℕ) : Exec Io OSInode := do
  let s ← get
  unwrap s.files[arc]?

def setOSInode (arc : ℕ) (file : OSInode) : Exec Io Unit :=
  modify fun s ↦ { s with files := s.files.set arc file }

/-- If readable -/
def readable : File → Exec Io Bool
  | .stdin => pure true
  | .stdout => pure false
  | .inode arc => do
    let file ← osInode arc
    pure file.readable

/-- If writable -/
def writable : File → Exec Io Bool
  | .stdin => pure false
  | .stdout => pure true
  | .inode arc => do
    let file ← osInode arc
    pure file.writable

/-- `print!`, slice by slice. -/
def print : List (List UInt8) → Exec Io Unit
  | [] => pure ()
  | buffer :: buffers => do
    let string ← unwrap (String.fromUTF8? ⟨buffer.toArray⟩)
    modify fun s ↦ { s with printed := s.printed ++ string.toUTF8.data.toList }
    print buffers

/-- The busy loop of `Stdin::read`. While it waits others run. -/
def getChar : Exec Io UInt8 := do
  let s ← get
  let c ← unwrap (s.typed.find? (· ≠ 0))
  modify fun s ↦ { s with typed := (s.typed.dropWhile (· = 0)).tail }
  pure (UInt8.ofNat c)

/-- Write `UserBuffer` to file -/
def write (buffers : List (List UInt8)) : File → Exec Io ℕ
  | .stdin => panic
  | .stdout => do
    print buffers
    pure (buffers.map List.length).sum
  | .inode arc => do
    let file ← osInode arc
    let (n, file) ← onStorage (file.write buffers)
    setOSInode arc file
    pure n

/-- Read file to `UserBuffer` -/
def read [KernelLayout] (chunks : List Chunk) : File → Exec Io ℕ
  | .stdin => do
    assert ((chunks.map Chunk.length).sum = 1)
    let ch ← getChar
    let _ ← onMachine (writeChunks .userPtr chunks [ch])
    pure 1
  | .stdout => panic
  | .inode arc => do
    let file ← osInode arc
    let s ← get
    let (n, buffers, file) ← onStorage (file.read (chunks.map (Chunk.bytes s.machine)))
    let _ ← onMachine (writeChunks .userPtr chunks (buffers.flatten.take n))
    setOSInode arc file
    pure n

/-! ## The calls -/

/-- `sys_write` of task `t`, with its page table. -/
def sysWrite (t : ℕ) (pt : PageTable) (fd buf len : ℕ) : Exec Io ℤ := do
  let s ← get
  if let some file := (s.fdTables t)[fd]?.join then
    let writable ← writable file
    if writable = false then pure (-1)
    else
      let chunks ← unwrap (pt.translatedByteBuffer buf len)
      let buffers ← onMachine (OpenFiles.readEach chunks)
      let n ← write buffers file
      pure (n : ℤ)
  else pure (-1)

/-- `sys_read` -/
def sysRead [KernelLayout] (t : ℕ) (pt : PageTable) (fd buf len : ℕ) : Exec Io ℤ := do
  let s ← get
  if let some file := (s.fdTables t)[fd]?.join then
    let readable ← readable file
    if readable = false then pure (-1)
    else
      let chunks ← unwrap (pt.translatedByteBuffer buf len)
      let n ← read chunks file
      pure (n : ℤ)
  else pure (-1)

/-- `sys_open` -/
def sysOpen (t : ℕ) (pt : PageTable) (path flags : ℕ) : Exec Io ℤ := do
  let path ← onMachine (pt.translatedStr path)
  let flags ← unwrap (OpenFlags.fromBits (UInt32.ofNat flags))
  let s ← get
  let opened ← onStorage (openFile s.root path flags)
  if let some inode := opened then
    modify fun s ↦ { s with files := s.files ++ [inode] }
    let (fd, fdTable) := allocFd (s.fdTables t)
    setFdTable t (fdTable.set fd (some (.inode s.files.length)))
    pure (fd : ℤ)
  else pure (-1)

/-- `sys_close` -/
def sysClose (t fd : ℕ) : Exec Io ℤ := do
  let s ← get
  if (s.fdTables t).length ≤ fd then pure (-1)
  else if (s.fdTables t)[fd]?.join.isNone then pure (-1)
  else
    setFdTable t ((s.fdTables t).set fd none)
    pure 0

/-- What `TaskControlBlock::new` does with descriptors. -/
def newTask (t : ℕ) : Exec Io Unit := setFdTable t newFdTable

/-- What `TaskControlBlock::fork` does with descriptors: copy fd table. -/
def fork (t child : ℕ) : Exec Io Unit := do
  let s ← get
  setFdTable child (s.fdTables t)

end Io

/-! ## Strings -/

/-- Each byte is a character. -/
def latin1 (bytes : List UInt8) : String := String.ofList (bytes.map Char.ofUInt8)

section Strings

variable [KernelLayout]

/-- The bytes lie at an address, with a NUL behind them. -/
structure StrAt (pt : PageTable) (m : Machine) (ptr : ℕ) (bytes : List UInt8) : Prop where
  mapped : ∀ a, ptr ≤ a → a ≤ ptr + bytes.length →
    ∃ pte, pt.translate (pageOf a) = some pte ∧ KernelLayout.InRam pte.ppn
  data : (pt.userPlaces ptr bytes.length).map m.byteAt = bytes
  nonzero : 0 ∉ bytes
  nul : m.byteAt (pt.place (ptr + bytes.length)) = 0
  short : bytes.length < PageTable.strTurns
  inside : ptr + bytes.length < 2 ^ 64

variable {pt : PageTable} {m : Machine} {ptr va : ℕ} {bytes : List UInt8} {b : UInt8}

theorem StrAt.head (h : StrAt pt m ptr (b :: bytes)) : m.byteAt (pt.place ptr) = b ∧ b ≠ 0 := by
  have hdata := h.data
  rw [PageTable.userPlaces, List.length_cons, List.range'_succ, List.map_cons, List.map_cons] at hdata
  exact ⟨(List.cons.inj hdata).1, fun heq ↦ h.nonzero (heq ▸ List.mem_cons_self)⟩

theorem StrAt.tail (h : StrAt pt m ptr (b :: bytes)) (log : List Access) :
    StrAt pt (m.noted log) (ptr + 1) bytes where
  mapped a ha hle := h.mapped a (Nat.le_of_succ_le ha) (by rw [List.length_cons]; omega)
  data := by
    have hdata := h.data
    rw [PageTable.userPlaces, List.length_cons, List.range'_succ, List.map_cons, List.map_cons] at hdata
    rw [Machine.byteAt_noted]
    exact (List.cons.inj hdata).2
  nonzero := fun hmem ↦ h.nonzero (List.mem_cons_of_mem _ hmem)
  nul := by
    have hnul := h.nul
    rwa [List.length_cons, Nat.add_comm bytes.length 1, ← Nat.add_assoc] at hnul
  short := (Nat.lt_succ_self _).trans h.short
  inside := by
    have hinside := h.inside
    rw [List.length_cons] at hinside
    omega

namespace PageTable

omit [KernelLayout] in
theorem translateVa_ofUsize {pte : PageTableEntry} (h : pt.translate (pageOf va) = some pte) :
    pt.translateVa (VirtAddr.ofUsize va) = some (pt.place va) := by
  have hoff : VirtAddr.pageOffset (VirtAddr.ofUsize va) = va % pageSize := by
    simp only [VirtAddr.pageOffset, VirtAddr.ofUsize, pageSize]
    omega
  have htr : pt.translate (VirtAddr.floor (VirtAddr.ofUsize va)) = some pte := h
  rw [translateVa, htr, Option.map_some, hoff, place, h]
  rfl

/-- The loop reads one byte. -/
theorem returns_readByte {pte : PageTableEntry} (h : pt.translate (pageOf va) = some pte)
    (hram : KernelLayout.InRam pte.ppn) : ∃ log,
      (readSlice .userPtr ⟨pageOf va, (pt.place va).1, (pt.place va).2, (pt.place va).2 + 1⟩ 1).Returns m
        [m.byteAt (pt.place va)] (m.noted log) := by
  have hppn : (pt.place va).1 = pte.ppn := by rw [place, h, Option.map_some, Option.getD_some]
  have hlength : (1 : ℕ) ≤ Chunk.length ⟨pageOf va, (pt.place va).1, (pt.place va).2, (pt.place va).2 + 1⟩ := by
    simp [Chunk.length]
  refine ⟨_, (returns_readSlice hlength).mpr ⟨fun _ ↦ ?_, ?_, rfl⟩⟩
  · dsimp only
    rw [hppn]
    exact KernelLayout.kernelReads_of_kernelWrites (KernelLayout.kernelWrites_of_inRam hram)
  · simp [Chunk.places, Chunk.length]

/-- The loop of `translated_str` goes up to the NUL. -/
theorem returns_strFrom (h : StrAt pt m ptr bytes) {turns : ℕ} (hturns : bytes.length < turns) (string : String) :
    ∃ log, (pt.strFrom turns ptr string).Returns m (string ++ latin1 bytes) (m.noted log) := by
  induction bytes generalizing ptr m turns string with
  | nil =>
    obtain ⟨turns, rfl⟩ := Nat.exists_eq_succ_of_ne_zero (Nat.ne_zero_of_lt hturns)
    obtain ⟨pte, hpte, hram⟩ := h.mapped ptr le_rfl le_rfl
    obtain ⟨log, hread⟩ := returns_readByte (m := m) hpte hram
    have hnul : m.byteAt (pt.place ptr) = 0 := h.nul
    have hsame : string ++ latin1 [] = string := String.append_empty
    refine ⟨log, ?_⟩
    refine Returns.bind (returns_unwrap.mpr ⟨translateVa_ofUsize hpte, rfl⟩) (Returns.bind hread ?_)
    rw [List.headD_cons, hnul, hsame]
    exact returns_pure.mpr ⟨rfl, rfl⟩
  | cons b bytes ih =>
    obtain ⟨turns, rfl⟩ := Nat.exists_eq_succ_of_ne_zero (Nat.ne_zero_of_lt hturns)
    obtain ⟨pte, hpte, hram⟩ := h.mapped ptr le_rfl (Nat.le_add_right _ _)
    obtain ⟨log, hread⟩ := returns_readByte (m := m) hpte hram
    obtain ⟨hb, hne⟩ := h.head
    obtain ⟨log', hrest⟩ := ih (h.tail log) (Nat.lt_of_succ_lt_succ hturns) (string.push (Char.ofUInt8 b))
    have hsame : string.push (Char.ofUInt8 b) ++ latin1 bytes = string ++ latin1 (b :: bytes) := by
      refine String.toList_inj.mp ?_
      simp [latin1]
    have hinside := h.inside
    have hva : (ptr + 1) % 2 ^ 64 = ptr + 1 := Nat.mod_eq_of_lt (by rw [List.length_cons] at hinside; omega)
    rw [hsame, Machine.noted_noted] at hrest
    refine ⟨log' ++ log, ?_⟩
    refine Returns.bind (returns_unwrap.mpr ⟨translateVa_ofUsize hpte, rfl⟩) (Returns.bind hread ?_)
    rw [List.headD_cons, hb]
    dsimp only
    rw [if_neg hne, hva]
    exact hrest

/-- **A string of the user** is read up to the NUL. -/
theorem returns_translatedStr (h : StrAt pt m ptr bytes) :
    ∃ log, (pt.translatedStr ptr).Returns m (latin1 bytes) (m.noted log) := by
  obtain ⟨log, hret⟩ := returns_strFrom h h.short ""
  rw [String.empty_append] at hret
  exact ⟨log, hret⟩

end PageTable

end Strings

/-! ## Printing -/

/-- A text that is a text up to each end of a page in its buffer. -/
def Printable (buf : ℕ) (data : List UInt8) : Prop :=
  Utf8.Valid data ∧ ∀ k, 0 < k → k < data.length → (buf + k) % pageSize = 0 → Utf8.Valid (data.take k)

/-- What is in the first slices of a buffer. -/
theorem flatten_take_bytes (m : Machine) (cs : List Chunk) (i : ℕ) :
    ((cs.map (Chunk.bytes m)).take i).flatten =
      (cs.map (Chunk.bytes m)).flatten.take (lengthOf (cs.take i)) := by
  have hlength : ((cs.take i).map (Chunk.bytes m)).flatten.length = lengthOf (cs.take i) := by
    rw [OpenFiles.flatten_bytes, List.length_map, length_placesOf, lengthOf]
  conv_rhs => rw [← List.take_append_drop i cs, List.map_append, List.flatten_append]
  rw [← List.map_take]
  exact (List.take_left' (by rw [hlength, List.take_append_drop])).symm

/-- **Every slice is a text** when the buffer is one up to each end of a page. -/
theorem forall_valid_bytes_iff {pt : PageTable} {m : Machine} {cs : List Chunk} {buf len : ℕ}
    (hcan : Canonical buf len) (h : pt.translatedByteBuffer buf len = some cs) :
    (∀ piece ∈ cs.map (Chunk.bytes m), Utf8.Valid piece) ↔
      Printable buf ((pt.userPlaces buf len).map m.byteAt) := by
  have hplaces : placesOf cs = pt.userPlaces buf len := by
    have hslices := pt.slices_translatedByteBuffer hcan
    rw [h] at hslices
    exact hslices.1
  have hflatten : (cs.map (Chunk.bytes m)).flatten = (pt.userPlaces buf len).map m.byteAt := by
    rw [OpenFiles.flatten_bytes, hplaces]
  have hlength : lengthOf cs = len := by
    rw [lengthOf, ← length_placesOf, hplaces, PageTable.length_userPlaces]
  have hdata : ((pt.userPlaces buf len).map m.byteAt).length = len := by
    rw [List.length_map, PageTable.length_userPlaces]
  rw [Utf8.forall_valid_iff, List.length_map]
  simp only [flatten_take_bytes, hflatten]
  constructor
  · intro hpieces
    refine ⟨?_, fun k hk hlt hpage ↦ ?_⟩
    · have hall := hpieces cs.length le_rfl
      rwa [List.take_length, hlength, List.take_of_length_le hdata.le] at hall
    · obtain ⟨i, hi, rfl⟩ := (PageTable.cuts_translatedByteBuffer hcan h hk (hdata ▸ hlt)).mp hpage
      exact hpieces i hi
  · intro hprintable i hi
    generalize hk : lengthOf (cs.take i) = k
    rcases Nat.eq_zero_or_pos k with rfl | hpos
    · exact Utf8.valid_nil
    · by_cases hlt : k < len
      · exact hprintable.2 k hpos (hdata.symm ▸ hlt)
          ((PageTable.cuts_translatedByteBuffer hcan h hpos hlt).mpr ⟨i, hi, hk⟩)
      · rw [List.take_of_length_le (by omega)]
        exact hprintable.1

namespace Io

variable {s s' : Io}

/-- Printing panics at the first slice that is no text. -/
theorem returns_print {pieces : List (List UInt8)} {u : Unit} : (print pieces).Returns s u s' ↔
    (∀ piece ∈ pieces, Utf8.Valid piece) ∧ s' = { s with printed := s.printed ++ pieces.flatten } := by
  induction pieces generalizing s with
  | nil => simp [print]
  | cons piece pieces ih =>
    rw [print]
    constructor
    · intro h
      obtain ⟨string, s₁, hunwrap, h₁⟩ := returns_bind.mp h
      obtain ⟨hstring, rfl⟩ := returns_unwrap.mp hunwrap
      obtain ⟨_, s₂, hmodify, h₂⟩ := returns_bind.mp h₁
      obtain rfl := returns_modify.mp hmodify
      obtain ⟨hvalid, rfl⟩ := ih.mp h₂
      have hpiece := Utf8.valid_of_fromUTF8 hstring
      obtain ⟨string', hstring', hbytes⟩ := hpiece.fromUTF8
      obtain rfl := Option.some.inj (hstring.symm.trans hstring')
      refine ⟨List.forall_mem_cons.mpr ⟨hpiece, hvalid⟩, ?_⟩
      rw [hbytes, List.flatten_cons, List.append_assoc]
    · rintro ⟨hvalid, rfl⟩
      obtain ⟨hpiece, hvalid⟩ := List.forall_mem_cons.mp hvalid
      obtain ⟨string, hstring, hbytes⟩ := hpiece.fromUTF8
      refine Returns.bind (returns_unwrap.mpr ⟨hstring, rfl⟩) (Returns.bind (a := ()) (returns_modify.mpr rfl) ?_)
      rw [ih, hbytes, List.flatten_cons, List.append_assoc]
      exact ⟨hvalid, rfl⟩

variable [KernelLayout] {pt : PageTable} {t fd buf len : ℕ}

/-- **Printing to the console**: the text of the user appears as it is, when every end of a page in its buffer is
between two of its characters. Otherwise the kernel panics. -/
theorem stdout_prints (hfd : (s.fdTables t)[fd]?.join = some .stdout) (hcan : Canonical buf len)
    (hb : Backed pt buf len) :
    (Printable buf ((pt.userPlaces buf len).map s.machine.byteAt) →
      ∃ log, (sysWrite t pt fd buf len).Returns s len
        { s with
          machine := s.machine.noted log
          printed := s.printed ++ (pt.userPlaces buf len).map s.machine.byteAt }) ∧
    (¬Printable buf ((pt.userPlaces buf len).map s.machine.byteAt) →
      ∀ n s', ¬(sysWrite t pt fd buf len).Returns s n s') := by
  obtain ⟨cs, hcs, hplaces, hc⟩ := chunks_of_backed hcan hb
  obtain ⟨log, hread⟩ := OpenFiles.returns_readEach
    (fun c hmem ↦ KernelLayout.kernelReads_of_kernelWrites (hc c hmem).1) s.machine
  have hflatten : (cs.map (Chunk.bytes s.machine)).flatten = (pt.userPlaces buf len).map s.machine.byteAt := by
    rw [OpenFiles.flatten_bytes, hplaces]
  have hsum : ((cs.map (Chunk.bytes s.machine)).map List.length).sum = len := by
    rw [← List.length_flatten, hflatten, List.length_map, PageTable.length_userPlaces]
  have hvalid := forall_valid_bytes_iff (m := s.machine) hcan hcs
  constructor
  · intro hprintable
    have hprint : (print (cs.map (Chunk.bytes s.machine))).Returns { s with machine := s.machine.noted log } () _ :=
      returns_print.mpr ⟨hvalid.mpr hprintable, rfl⟩
    rw [hflatten] at hprint
    refine ⟨log, Returns.bind (returns_get.mpr ⟨rfl, rfl⟩) ?_⟩
    rw [hfd]
    refine Returns.bind (returns_pure.mpr ⟨rfl, rfl⟩) ?_
    rw [if_neg (by simp)]
    refine Returns.bind (returns_unwrap.mpr ⟨hcs, rfl⟩) (Returns.bind (returns_zoom.mpr ⟨_, hread, rfl⟩) ?_)
    refine Returns.bind (hprint.bind (returns_pure.mpr ⟨rfl, rfl⟩)) (returns_pure.mpr ⟨?_, rfl⟩)
    rw [hsum]
  · intro hnot n s' hret
    obtain ⟨s₀, s₁, hget, hret₁⟩ := returns_bind.mp hret
    obtain ⟨rfl, rfl⟩ := returns_get.mp hget
    rw [hfd] at hret₁
    obtain ⟨_, _, hwritable, hret₂⟩ := returns_bind.mp hret₁
    obtain ⟨rfl, rfl⟩ := returns_pure.mp hwritable
    rw [if_neg (by simp)] at hret₂
    obtain ⟨_, _, hunwrap, hret₃⟩ := returns_bind.mp hret₂
    obtain ⟨hchunks, rfl⟩ := returns_unwrap.mp hunwrap
    obtain rfl := Option.some.inj (hcs.symm.trans hchunks)
    obtain ⟨_, _, hzoom, hret₄⟩ := returns_bind.mp hret₃
    obtain ⟨m, hslices, rfl⟩ := returns_zoom.mp hzoom
    obtain ⟨rfl, rfl⟩ := hslices.det hread
    obtain ⟨_, _, hwrite, -⟩ := returns_bind.mp hret₄
    obtain ⟨_, _, hprint, -⟩ := returns_bind.mp hwrite
    exact hnot (hvalid.mp (returns_print.mp hprint).1)

end Io

/-- A kernel with one task, where every page of memory begins with the second half of a character and ends with the
first half. -/
def straddling : Io where
  machine :=
    { sampleMachine with bytes := fun _ offset ↦ if offset = 4095 then 0xC3 else if offset = 0 then 0xA9 else 97 }
  storage := .boot fun _ _ ↦ zeroBlock
  root := Geometry.inode smallFs 0 0
  files := []
  fdTables _ := newFdTable
  printed := []
  typed := []

/-- The text `aaaaaéaaa` cannot be printed where the end of a page is inside of `é`. -/
theorem Io.stdout_prints_straddling :
    (∃ log, (Io.sysWrite 1 .samplePages 1 4090 5).Returns straddling 5
      { straddling with
        machine := straddling.machine.noted log
        printed := [97, 97, 97, 97, 97] }) ∧
    Utf8.Valid ((PageTable.samplePages.userPlaces 4090 10).map straddling.machine.byteAt) ∧
    ∀ n s', ¬(Io.sysWrite 1 .samplePages 1 4090 10).Returns straddling n s' := by
  have hback : @Backed sampleLayout .samplePages 4090 5 :=
    @Backed.sub sampleLayout _ _ _ backed_samplePages 4090 5 le_rfl (by decide)
  have hfive : (PageTable.samplePages.userPlaces 4090 5).map straddling.machine.byteAt = [97, 97, 97, 97, 97] := by
    decide +kernel
  have hten : (PageTable.samplePages.userPlaces 4090 10).map straddling.machine.byteAt =
      [97, 97, 97, 97, 97, 0xC3, 0xA9, 97, 97, 97] := by decide +kernel
  refine ⟨?_, ?_, ?_⟩
  · have hprint : Printable 4090 [97, 97, 97, 97, 97] := by
      refine ⟨by decide +kernel, fun k hpos hlt hpage ↦ ?_⟩
      simp only [List.length_cons, List.length_nil, pageSize] at hlt hpage
      omega
    have hret := (@Io.stdout_prints straddling sampleLayout _ 1 1 4090 5 rfl (Or.inl (by decide)) hback).1
    rw [hfive] at hret
    exact hret hprint
  · rw [hten]
    decide +kernel
  · refine (@Io.stdout_prints straddling sampleLayout _ 1 1 4090 10 rfl (Or.inl (by decide))
      backed_samplePages).2 fun hprintable ↦ ?_
    rw [hten] at hprintable
    exact absurd (hprintable.2 6 (by decide) (by decide) (by decide)) (by decide +kernel)

end AgentOS
