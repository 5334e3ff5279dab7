import Mathlib
import AgentOS.Fs.Files
import AgentOS.Fs.Names

/-!
# The directory

There is one directory, the root, and its entries are in inode 0. `find` and `ls` read the entries one by
one and panic at one whose name fills its slot. `create` looks for the name, takes the next inode and appends
an entry to the directory.
-/

namespace AgentOS.Fs

open Exec

attribute [local instance] threeHeld

/-- The names and the bytes of the files, in the order in which they were created. -/
abbrev Files := List (String × List UInt8)

namespace Files

def names (F : Files) : List String := F.map Prod.fst

/-- The inodes of the files, behind the one of the directory. -/
def volume (F : Files) : Volume := dirBytes F.names :: F.map Prod.snd

@[simp] theorem length_names (F : Files) : F.names.length = F.length := List.length_map _

theorem names_concat (F : Files) (name : String) (bytes : List UInt8) :
    names (F ++ [(name, bytes)]) = F.names ++ [name] := by
  rw [names, List.map_append, List.map_singleton, names]

@[simp] theorem length_volume (F : Files) : F.volume.length = F.length + 1 := by simp [volume]

theorem getElem?_volume_zero (F : Files) : F.volume[0]? = some (dirBytes F.names) := rfl

theorem getElem?_volume_succ {F : Files} {i : ℕ} {name : String} {bytes : List UInt8}
    (h : F[i]? = some (name, bytes)) : F.volume[i + 1]? = some bytes := by
  simp [volume, h]

end Files

/-- What looking for a name in a directory comes to, from an entry on: the number of the entry if there is
one, and `none` when an entry cannot be read. -/
def scan (name : String) : List String → ℕ → Option (Option ℕ)
  | [], _ => some none
  | n :: names, k =>
    if Terminated n then if shown n = name then some (some k) else scan name names (k + 1) else none

/-- The names fit in the slots. -/
def Slots (names : List String) : Prop :=
  ∀ n ∈ names, (DirEntry.nameBytes n).length ≤ nameLengthLimit + 1

theorem of_drop_cons {names : List String} {k : ℕ} {n : String} {rest : List String}
    (h : names.drop k = n :: rest) : names[k]? = some n ∧ names.drop (k + 1) = rest :=
  ⟨by rw [← List.head?_drop, h, List.head?_cons], by rw [← List.tail_drop, h, List.tail_cons]⟩

section Entries

variable {g : Geometry} {m : ℕ → Block} {D : DeviceId} {used : List (ℕ × Bool)} {d : DiskInode}
  {t : DiskInodeType} {self : Inode} {names : List String} {name : String}

theorem reads_readDirent (hfile : IsFile d m t (dirBytes names)) (hdev : self.blockDevice = D)
    (hfree : ∀ x ∈ d.blocks m, x.toNat ∉ used.map Prod.fst) (hroom : used.length < HeldLimit.limit) {k : ℕ}
    (hk : names[k]? = some name) (dirent : DirEntry) :
    Reads D (self.readDirent d k dirent) used m (DirEntry.entryOf name (UInt32.ofNat (k + 1))) := by
  have hlt : k < names.length := (List.getElem?_eq_some_iff.mp hk).1
  have hread := hfile.reads_readAt (D := D) (direntSz * k) dirent.asBytes hfree hroom
  have hcount : min dirent.asBytes.length ((dirBytes names).length - direntSz * k) = direntSz := by
    rw [DirEntry.length_asBytes, length_dirBytes]
    simp only [direntSz]
    omega
  have hbytes : readInto (dirBytes names) (direntSz * k) dirent.asBytes =
      (DirEntry.entryOf name (UInt32.ofNat (k + 1))).asBytes := by
    have hdrop : dirent.asBytes.drop ((dirBytes names).length - direntSz * k) = [] := by
      refine List.drop_of_length_le ?_
      rw [DirEntry.length_asBytes, length_dirBytes]
      simp only [direntSz]
      omega
    rw [readInto, hdrop, List.append_nil, DirEntry.length_asBytes, slice_dirBytes hk]
  rw [hcount, hbytes] at hread
  unfold Inode.readDirent
  rw [hdev]
  refine hread.bind ((reads_assert rfl).bind ?_)
  rw [DirEntry.ofBytes_asBytes]
  exact reads_pure _

/-- **The loop of `find_inode_id`** comes to what `scan` says. -/
theorem findEntry_spec (hfile : IsFile d m t (dirBytes names)) (hdev : self.blockDevice = D)
    (hfree : ∀ x ∈ d.blocks m, x.toNat ∉ used.map Prod.fst) (hroom : used.length < HeldLimit.limit)
    (hslots : Slots names) (name : String) (rest : List String) (k : ℕ) (hrest : names.drop k = rest)
    (dirent : DirEntry) :
    (∀ r, scan name rest k = some r → Reads D (self.findEntry name d dirent
      (List.range' k rest.length)) used m (r.map fun j ↦ UInt32.ofNat (j + 1))) ∧
    (scan name rest k = none → Stops D (self.findEntry name d dirent (List.range' k rest.length)) used m) := by
  induction rest generalizing k dirent with
  | nil =>
    refine ⟨fun r hr ↦ ?_, fun h ↦ ?_⟩
    · obtain rfl : none = r := Option.some.inj hr
      exact reads_pure none
    · simp [scan] at h
  | cons n rest ih =>
    obtain ⟨hk, hnext⟩ := of_drop_cons hrest
    have hslot := hslots n (List.mem_of_getElem? hk)
    have hread := reads_readDirent hfile hdev hfree hroom hk dirent
    have hname := DirEntry.getName_entryOf hslot (UInt32.ofNat (k + 1))
    rw [List.length_cons, List.range'_succ, scan]
    by_cases hterm : Terminated n
    · rw [if_pos hterm] at hname ⊢
      by_cases heq : shown n = name
      · rw [if_pos heq]
        refine ⟨fun r hr ↦ ?_, nofun⟩
        obtain rfl : some k = r := Option.some.inj hr
        refine hread.bind ((reads_unwrap hname).bind ?_)
        rw [if_pos heq]
        exact reads_pure _
      · rw [if_neg heq]
        obtain ⟨hsome, hnone⟩ := ih (k + 1) hnext (DirEntry.entryOf n (UInt32.ofNat (k + 1)))
        refine ⟨fun r hr ↦ ?_, fun h ↦ ?_⟩
        · refine hread.bind ((reads_unwrap hname).bind ?_)
          rw [if_neg heq]
          exact hsome r hr
        · refine hread.does.stops_bind ((reads_unwrap hname).does.stops_bind ?_)
          rw [if_neg heq]
          exact hnone h
    · rw [if_neg hterm] at hname ⊢
      exact ⟨nofun, fun _ ↦ hread.does.stops_bind ((stops_unwrap hname).bind _)⟩

/-- The loop of `ls` gives the names as they are read back. -/
theorem reads_listEntries (hfile : IsFile d m t (dirBytes names)) (hdev : self.blockDevice = D)
    (hfree : ∀ x ∈ d.blocks m, x.toNat ∉ used.map Prod.fst) (hroom : used.length < HeldLimit.limit)
    (hslots : Slots names) (rest : List String) (k : ℕ) (hrest : names.drop k = rest)
    (hterm : ∀ n ∈ rest, Terminated n) :
    Reads D (self.listEntries d (List.range' k rest.length)) used m (rest.map shown) := by
  induction rest generalizing k with
  | nil => exact reads_pure []
  | cons n rest ih =>
    obtain ⟨hk, hnext⟩ := of_drop_cons hrest
    have hname := DirEntry.getName_entryOf (hslots n (List.mem_of_getElem? hk)) (UInt32.ofNat (k + 1))
    rw [if_pos (hterm n List.mem_cons_self)] at hname
    rw [List.length_cons, List.range'_succ, List.map_cons]
    refine (reads_readDirent hfile hdev hfree hroom hk _).bind ((reads_unwrap hname).bind ?_)
    exact (ih (k + 1) hnext fun n' hn' ↦ hterm n' (List.mem_cons_of_mem _ hn')).bind (reads_pure _)

/-- It does not get past a name that fills its slot. -/
theorem stops_listEntries (hfile : IsFile d m t (dirBytes names)) (hdev : self.blockDevice = D)
    (hfree : ∀ x ∈ d.blocks m, x.toNat ∉ used.map Prod.fst) (hroom : used.length < HeldLimit.limit)
    (hslots : Slots names) (rest : List String) (k : ℕ) (hrest : names.drop k = rest)
    (hfull : ∃ n ∈ rest, ¬Terminated n) :
    Stops D (self.listEntries d (List.range' k rest.length)) used m := by
  induction rest generalizing k with
  | nil => simp at hfull
  | cons n rest ih =>
    obtain ⟨hk, hnext⟩ := of_drop_cons hrest
    have hname := DirEntry.getName_entryOf (hslots n (List.mem_of_getElem? hk)) (UInt32.ofNat (k + 1))
    have hread := reads_readDirent hfile hdev hfree hroom hk DirEntry.empty
    rw [List.length_cons, List.range'_succ]
    by_cases hterm : Terminated n
    · rw [if_pos hterm] at hname
      obtain ⟨n', hn', hbad⟩ := hfull
      have hlater : ∃ n' ∈ rest, ¬Terminated n' := by
        rcases List.mem_cons.mp hn' with rfl | hin
        · exact absurd hterm hbad
        · exact ⟨n', hin, hbad⟩
      exact hread.does.stops_bind ((reads_unwrap hname).does.stops_bind ((ih (k + 1) hnext hlater).bind _))
    · rw [if_neg hterm] at hname
      exact hread.does.stops_bind ((stops_unwrap hname).bind _)

end Entries

/-! ## Scanning -/

section Scan

variable {name : String} {names : List String} {k j : ℕ}

/-- What is found is an entry with this name. -/
theorem scan_eq_some_some (h : scan name names k = some (some j)) :
    k ≤ j ∧ ∃ n, names[j - k]? = some n ∧ Terminated n ∧ shown n = name := by
  induction names generalizing k with
  | nil => simp [scan] at h
  | cons n names ih =>
    rw [scan] at h
    split_ifs at h with hterm heq
    · obtain rfl : k = j := by simpa using h
      exact ⟨le_rfl, n, by simp, hterm, heq⟩
    · obtain ⟨hle, n', hn', hrest⟩ := ih h
      have hsucc : j - k = j - (k + 1) + 1 := by omega
      refine ⟨by omega, n', ?_, hrest⟩
      rw [hsucc, List.getElem?_cons_succ, hn']

/-- A name that is not found is not in a directory all of which can be read. -/
theorem scan_eq_some_none : scan name names k = some none ↔
    (∀ n ∈ names, Terminated n) ∧ name ∉ names.map shown := by
  induction names generalizing k with
  | nil => simp [scan]
  | cons n names ih =>
    rw [scan]
    split_ifs with hterm heq
    · simp [heq]
    · rw [ih, List.forall_mem_cons, List.map_cons, List.mem_cons, not_or]
      exact ⟨fun h ↦ ⟨⟨hterm, h.1⟩, Ne.symm heq, h.2⟩, fun h ↦ ⟨h.1.2, h.2.2⟩⟩
    · simp [hterm]

/-- What stands in front of an entry and can be read is looked at first. -/
theorem scan_append {init rest : List String} (h : ∀ n ∈ init, Terminated n) (name : String) (k : ℕ) :
    scan name (init ++ rest) k =
      if name ∈ init.map shown then scan name init k else scan name rest (k + init.length) := by
  induction init generalizing k with
  | nil => rfl
  | cons n init ih =>
    have hrest := ih (fun n' hn' ↦ h n' (List.mem_cons_of_mem _ hn')) (k + 1)
    have hn := h n List.mem_cons_self
    rw [List.cons_append, scan, scan]
    simp only [if_pos hn]
    by_cases heq : shown n = name
    · have hmem : name ∈ (n :: init).map shown := heq ▸ List.mem_cons_self
      rw [if_pos hmem, if_pos heq, if_pos heq]
    · have hmem : name ∈ (n :: init).map shown ↔ name ∈ init.map shown := by
        rw [List.map_cons, List.mem_cons]
        exact or_iff_right (Ne.symm heq)
      rw [if_neg heq, if_neg heq, hrest, List.length_cons, Nat.add_assoc, Nat.add_comm 1]
      simp only [hmem]

theorem scan_ne_none (h : ∀ n ∈ names, Terminated n) : scan name names k ≠ none := by
  induction names generalizing k with
  | nil => simp [scan]
  | cons n names ih =>
    rw [scan, if_pos (h n List.mem_cons_self)]
    split_ifs
    · simp
    · exact ih fun n' hn' ↦ h n' (List.mem_cons_of_mem _ hn')

end Scan

/-! ## Looking up names -/

section Lookup

variable {g : Geometry} {D : DeviceId} {s s' : Storage} {m : ℕ → Block} {F : Files} {name : String}
  {used : List (ℕ × Bool)}

/-- The inode of the directory. -/
theorem isFile_root (h : Holds g F.volume m) : IsFile (inodeAt g m 0) m .directory (dirBytes F.names) :=
  h.files 0 _ F.getElem?_volume_zero

theorem root_free (h : Holds g F.volume m) (b : Bool) :
    ∀ x ∈ (inodeAt g m 0).blocks m, x.toNat ∉ [(g.inodeStart + 0 / 4, b)].map Prod.fst := fun x hx ↦
  Rep.not_mem_of_area (h.blocks_area F.getElem?_volume_zero x hx)
    (lt_of_used (h.lt_inodes F.getElem?_volume_zero) b)

theorem size_root (h : Holds g F.volume m) : (inodeAt g m 0).size.toNat / direntSz = F.names.length := by
  rw [(isFile_root h).size, length_dirBytes, Nat.mul_div_cancel _ (by decide)]

/-- Looking for a name in the directory. -/
theorem findInodeId_spec (h : Holds g F.volume m) (hslots : Slots F.names) (name : String) :
    (∀ r, scan name F.names 0 = some r → Reads D ((g.inode D 0).findInodeId name (inodeAt g m 0))
      [(g.inodeStart + 0 / 4, false)] m (r.map fun j ↦ UInt32.ofNat (j + 1))) ∧
    (scan name F.names 0 = none → Stops D ((g.inode D 0).findInodeId name (inodeAt g m 0))
      [(g.inodeStart + 0 / 4, false)] m) := by
  have hdir : (inodeAt g m 0).isDir = true := decide_eq_true (isFile_root h).type_
  have hspec := findEntry_spec (isFile_root h) (show (g.inode D 0).blockDevice = D from rfl) (root_free h false)
    (by simp) hslots name F.names 0 rfl DirEntry.empty
  rw [← List.range_eq_range'] at hspec
  unfold Inode.findInodeId
  dsimp only
  rw [size_root h]
  exact ⟨fun r hr ↦ (reads_assert hdir).bind (hspec.1 r hr), fun hnone ↦
    (does_assert hdir).stops_bind (hspec.2 hnone)⟩

namespace Ready

theorem not_returns {W : Type} {x : Exec Storage W} {w : W} (h : Ready g D F.volume s)
    (hx : Stops D x [] (s.device D)) : ¬x.Returns s w s' := hx s h.view w s'

/-- **Finding a name.** -/
theorem find (h : Ready g D F.volume s) (hslots : Slots F.names) {r : Option ℕ}
    (hr : scan name F.names 0 = some r) : ∃ s', ((g.inode D 0).find name).Returns s
      (r.map fun j ↦ g.inode D (j + 1)) s' ∧ Ready g D F.volume s' ∧ HoldsAtMost 3 s s' := by
  refine h.returns_of_reads (reads_readDiskInode 0 (((findInodeId_spec h.holds hslots name).1 r hr).bind ?_))
  have hinode : (r.map fun j ↦ UInt32.ofNat (j + 1)).map
      (fun id ↦ (g.inode D 0).fs.inode id (g.inode D 0).blockDevice) = r.map fun j ↦ g.inode D (j + 1) := by
    cases r with
    | none => rfl
    | some j =>
      obtain ⟨-, n, hn, -⟩ := scan_eq_some_some hr
      have hlt : j < F.names.length := (List.getElem?_eq_some_iff.mp hn).1
      have hinodes := h.holds.inodes
      rw [Files.length_volume, ← Files.length_names] at hinodes
      exact congrArg some (efs_inode (by omega))
  rw [hinode]
  exact reads_pure _

/-- Looking for a name panics when an entry cannot be read and the name is not in front of it. -/
theorem not_find (h : Ready g D F.volume s) (hslots : Slots F.names) (hnone : scan name F.names 0 = none)
    {r : Option Inode} : ¬((g.inode D 0).find name).Returns s r s' :=
  h.not_returns (stops_readBlock (by simp) (by decide)
    (((findInodeId_spec h.holds hslots name).2 hnone).bind _))

/-- **Listing** gives the names as they are read back. -/
theorem ls (h : Ready g D F.volume s) (hslots : Slots F.names) (hterm : ∀ n ∈ F.names, Terminated n) :
    ∃ s', (g.inode D 0).ls.Returns s (F.names.map shown) s' ∧ Ready g D F.volume s' ∧
      HoldsAtMost 3 s s' := by
  refine h.returns_of_reads (reads_readDiskInode 0 ?_)
  have hlist := reads_listEntries (isFile_root h.holds) (show (g.inode D 0).blockDevice = D from rfl)
    (root_free h.holds false) (by simp) hslots F.names 0 rfl hterm
  rw [← List.range_eq_range'] at hlist
  rw [size_root h.holds]
  exact hlist

/-- Listing panics when an entry cannot be read. -/
theorem not_ls (h : Ready g D F.volume s) (hslots : Slots F.names) (hfull : ∃ n ∈ F.names, ¬Terminated n)
    {l : List String} : ¬(g.inode D 0).ls.Returns s l s' := by
  have hlist := stops_listEntries (isFile_root h.holds) (show (g.inode D 0).blockDevice = D from rfl)
    (root_free h.holds false) (by simp) hslots F.names 0 rfl hfull
  rw [← List.range_eq_range', ← size_root h.holds] at hlist
  exact h.not_returns (stops_readBlock (by simp) (by decide) hlist)

end Ready

end Lookup

/-! ## Creating files -/

section Create

variable {g : Geometry} {D : DeviceId} {s s' : Storage} {m m₁ : ℕ → Block} {V : Volume} {F : Files}
  {name : String} {table : ℕ → DiskInode} {used : List (ℕ × Bool)}

/-- The first free inode is the one behind those in use. -/
theorem does_allocInode (h : Holds g V m) (hroom : V.length < g.inodes) :
    ∃ m', Does D (g.efs D).allocInode [] m (UInt32.ofNat V.length) m' ∧
      g.inodeBitmap.Sets m V.length true m' := by
  have hmax : ∀ i ≤ V.length, i < g.inodeBitmap.maximum := fun i hi ↦
    (hi.trans_lt hroom).trans_le (Nat.min_le_left _ _)
  have hused : ∀ id ∈ ([] : List (ℕ × Bool)).map Prod.fst, ¬g.inodeBitmap.Region id := by simp
  obtain ⟨m', hm', hsets⟩ := Bitmap.does_alloc (D := D) (hmax _ le_rfl)
    (by rw [h.bit _ (hmax _ le_rfl)]; simp)
    (fun j hj ↦ by rw [h.bit _ (hmax _ hj.le)]; exact decide_eq_true hj) hused (by simp)
  exact ⟨m', hm'.bind ((does_unwrap rfl).bind (does_pure _)), hsets⟩

/-- The new inode is written to its place. -/
theorem does_initialize (h : Holds g V m) (hroom : V.length < g.inodes)
    (hsets : g.inodeBitmap.Sets m V.length true m₁) {t : DiskInodeType} (htype : t = typeOf V.length) :
    ∃ m', Does D (modifyBlock D ((g.efs D).getDiskInodePos (UInt32.ofNat V.length)).1.toNat
        DiskInode.layout ((g.efs D).getDiskInodePos (UInt32.ofNat V.length)).2 fun _ ↦
          pure ((), DiskInode.initializeInode t)) [] m₁ () m' ∧ Holds g (V ++ [[]]) m' ∧
      inodeAt g m' V.length = DiskInode.initializeInode t := by
  obtain ⟨hblock, hoffset⟩ := getDiskInodePos_eq (D := D) hroom
  have hareas := g.areas
  have hinodes : inodeAt g m₁ = inodeAt g m := by
    funext i
    have hstart : g.inodeStart = 1 + g.inodeBitmapBlocks.toNat := rfl
    have hframe := hsets.frame (g.inodeStart + i / 4) fun hreg ↦ by
      obtain ⟨-, hlt⟩ : 1 ≤ g.inodeStart + i / 4 ∧ g.inodeStart + i / 4 < 1 + g.inodeBitmapBlocks.toNat :=
        hreg
      omega
    rw [inodeAt, hframe, inodeAt]
  have hadd := Rep.add (d := DiskInode.initializeInode t) h hroom rfl htype hsets
  rw [← hinodes] at hadd
  rw [hblock, hoffset]
  refine ⟨_, does_modifyBlock (by simp) (by simp) (size_diskInode _) (does_pure _),
    hadd.store (fun _ _ ↦ rfl) hroom, ?_⟩
  rw [inodeAt_write, Function.update_self]

/-- A file without bytes behind the others. -/
theorem Files.volume_concat (F : Files) (name : String) : Files.volume (F ++ [(name, [])]) =
    (F.volume ++ [[]]).set 0 (dirBytes F.names ++
      (DirEntry.entryOf name (UInt32.ofNat (F.length + 1))).asBytes) := by
  rw [Files.volume, Files.names, List.map_append, List.map_append, List.map_singleton, List.map_singleton,
    dirBytes_concat, List.length_map]
  rfl

/-- Room for an entry. -/
theorem does_growRoot (h : Rep g table (F.volume ++ [[]]) m) {self : Inode} (hfs : self.fs = g.efs D)
    (hdev : self.blockDevice = D) (hfits : Volume.Fits g (Files.volume (F ++ [(name, [])])))
    (hused : ∀ id ∈ used.map Prod.fst, id < g.dataBitmapStart) (hshort : used.length + 1 < HeldLimit.limit) :
    ∃ d' m', Does D (self.increaseSize (UInt32.ofNat ((F.names.length + 1) * direntSz)) (table 0)) used m
        d' m' ∧
      Rep g (Function.update table 0 d') ((F.volume ++ [[]]).set 0
        (padded (dirBytes F.names) ((F.names.length + 1) * direntSz))) m' ∧
      ∀ id < g.dataBitmapStart, m' id = m id := by
  have hroot : (F.volume ++ [[]])[0]? = some (dirBytes F.names) := rfl
  have hlength : (dirBytes F.names ++
      (DirEntry.entryOf name (UInt32.ofNat (F.length + 1))).asBytes).length =
        (F.names.length + 1) * direntSz := by
    rw [List.length_append, length_dirBytes, DirEntry.length_asBytes, Nat.succ_mul]
  have hle : (dirBytes F.names).length ≤ (F.names.length + 1) * direntSz := by
    rw [length_dirBytes]
    exact Nat.mul_le_mul_right _ (Nat.le_succ _)
  have hspace := hfits.space
  have hmax := hfits.short _ (List.mem_cons_self (a := dirBytes (Files.names (F ++ [(name, [])]))))
  rw [length_dirBytes, Files.length_names, List.length_append, ← Files.length_names] at hmax
  rw [Files.volume_concat] at hspace
  have hsum := blocksUsed_set hroot (dirBytes F.names ++
    (DirEntry.entryOf name (UInt32.ofNat (F.length + 1))).asBytes)
  rw [hlength] at hsum
  have hmono := DiskInode.refsLength_mono (DiskInode.blocksFor_mono hle)
  exact h.does_increaseSize hroot hfs hdev hle hmax (by rw [h.length_owned]; omega) hused hshort

/-- An entry is appended to the directory. -/
theorem does_addEntry (h : Rep g table (F.volume ++ [[]]) m) {self : Inode} (hfs : self.fs = g.efs D)
    (hdev : self.blockDevice = D) (hfits : Volume.Fits g (Files.volume (F ++ [(name, [])])))
    (hname : (DirEntry.nameBytes name).length ≤ nameLengthLimit + 1)
    (hused : ∀ id ∈ used.map Prod.fst, id < g.dataBitmapStart) (hshort : used.length + 1 < HeldLimit.limit) :
    ∃ d' m', Does D (do
        let d ← self.increaseSize (UInt32.ofNat ((F.names.length + 1) * direntSz)) (table 0)
        let dirent ← unwrap (DirEntry.new name (UInt32.ofNat (F.length + 1)))
        let _ ← d.writeAt (F.names.length * direntSz) dirent.asBytes D
        pure ((), d)) used m ((), d') m' ∧
      Rep g (Function.update table 0 d') (Files.volume (F ++ [(name, [])])) m' ∧
      ∀ id < g.dataBitmapStart, m' id = m id := by
  obtain ⟨d', m₁, hm₁, hrep₁, hlow₁⟩ := does_growRoot h hfs hdev hfits hused hshort
  have hpadded : ((F.volume ++ [[]]).set 0
      (padded (dirBytes F.names) ((F.names.length + 1) * direntSz)))[0]? =
        some (padded (dirBytes F.names) ((F.names.length + 1) * direntSz)) :=
    List.getElem?_set_self (by simp)
  have hsum : F.names.length * direntSz + direntSz = (F.names.length + 1) * direntSz := (Nat.succ_mul _ _).symm
  have hentry : (DirEntry.entryOf name (UInt32.ofNat (F.length + 1))).asBytes ≠ [] :=
    List.ne_nil_of_length_pos (by rw [DirEntry.length_asBytes]; decide)
  have hstart := div_lt_of_ne_nil (dirBytes F.names).length (F.names.length * direntSz) hentry
  rw [DirEntry.length_asBytes, hsum, ← length_padded] at hstart
  obtain ⟨m', hm', hrep, hlow⟩ := hrep₁.does_writeAt (D := D) hpadded (F.names.length * direntSz)
    (DirEntry.entryOf name (UInt32.ofNat (F.length + 1))).asBytes hstart
    (show F.names.length * direntSz + _ ≤ _ from by
      rw [DirEntry.length_asBytes, length_padded, hsum]
      exact le_max_right _ _) hused hshort
  rw [Function.update_self] at hm'
  have hoverlay := overlay_padded (dirBytes F.names) (F.names.length * direntSz)
    (DirEntry.entryOf name (UInt32.ofNat (F.length + 1))).asBytes
  have hend := overlay_length (dirBytes F.names)
    (DirEntry.entryOf name (UInt32.ofNat (F.length + 1))).asBytes
  rw [length_dirBytes] at hend
  rw [DirEntry.length_asBytes, hsum, hend] at hoverlay
  rw [List.set_set, hoverlay, ← Files.volume_concat] at hrep
  refine ⟨d', m', hm₁.bind ((does_unwrap (DirEntry.new_eq_some hname _)).bind (hm'.bind (does_pure _))), hrep,
    fun id hid ↦ (hlow id hid).trans (hlow₁ id hid)⟩

theorem size_root_concat (h : Holds g (F.volume ++ [[]]) m) :
    (inodeAt g m 0).size.toNat / direntSz = F.names.length := by
  rw [(h.files 0 (dirBytes F.names) rfl).size, length_dirBytes, Nat.mul_div_cancel _ (by decide)]

/-- A new inode is taken and written. -/
theorem does_newInode (h : Holds g F.volume m)
    (hfits : Volume.Fits g (Files.volume (F ++ [(name, [])]))) :
    ∃ m₁ m₂, Does D (g.efs D).allocInode [] m (UInt32.ofNat (F.length + 1)) m₁ ∧
      Does D (modifyBlock D ((g.efs D).getDiskInodePos (UInt32.ofNat (F.length + 1))).1.toNat
        DiskInode.layout ((g.efs D).getDiskInodePos (UInt32.ofNat (F.length + 1))).2 fun _ ↦
          pure ((), DiskInode.initializeInode .file)) [] m₁ () m₂ ∧
      Holds g (F.volume ++ [[]]) m₂ ∧ inodeAt g m₂ (F.length + 1) = DiskInode.initializeInode .file := by
  have hinodes := hfits.inodes
  rw [Files.length_volume, List.length_append, List.length_singleton, ← Files.length_volume] at hinodes
  obtain ⟨m₁, hm₁, hsets⟩ := does_allocInode (D := D) h hinodes
  obtain ⟨m₂, hm₂, hholds, hinode⟩ := does_initialize (D := D) h hinodes hsets (t := .file) rfl
  rw [Files.length_volume] at hm₁ hm₂ hinode
  exact ⟨m₁, m₂, hm₁, hm₂, hholds, hinode⟩

/-- The look at the directory that `create` begins with. -/
theorem found_spec (h : Holds g F.volume m) (hslots : Slots F.names) (name : String) :
    (∀ r, scan name F.names 0 = some r → Reads D ((g.inode D 0).readDiskInode fun rootInode ↦ do
      assert (rootInode.isDir = true)
      (g.inode D 0).findInodeId name rootInode) [] m (r.map fun j ↦ UInt32.ofNat (j + 1))) ∧
    (scan name F.names 0 = none → Stops D ((g.inode D 0).readDiskInode fun rootInode ↦ do
      assert (rootInode.isDir = true)
      (g.inode D 0).findInodeId name rootInode) [] m) := by
  have hdir : (inodeAt g m 0).isDir = true := decide_eq_true (isFile_root h).type_
  obtain ⟨hsome, hnone⟩ := findInodeId_spec (D := D) h hslots name
  constructor
  · intro r hr
    exact reads_readDiskInode 0 ((reads_assert hdir).bind (hsome r hr))
  · intro hr
    exact stops_readBlock (by simp) (by decide) ((does_assert hdir).stops_bind (hnone hr))

namespace Ready

/-- **A name that is there already** is not created again. -/
theorem create_of_found (h : Ready g D F.volume s) (hslots : Slots F.names) {j : ℕ}
    (hj : scan name F.names 0 = some (some j)) :
    ∃ s', ((g.inode D 0).create name).Returns s none s' ∧ Ready g D F.volume s' ∧
      HoldsAtMost 3 s s' ∧ s'.content D = s.content D := by
  obtain ⟨s', hret, hview, -, hheld, hdevice⟩ := (found_spec h.holds hslots name).1 _ hj s h.view
  have hsame : s'.device D = s.device D := hdevice rfl
  refine ⟨s', hret.bind (returns_pure.mpr ⟨rfl, rfl⟩), ⟨by rwa [hsame], by rw [hsame]; exact h.holds⟩, hheld,
    ?_⟩
  rw [hview.content, h.view.content]

/-- **A new name** is appended with an empty file. -/
theorem create_of_new (h : Ready g D F.volume s) (hslots : Slots F.names)
    (hnew : scan name F.names 0 = some none)
    (hname : (DirEntry.nameBytes name).length ≤ nameLengthLimit + 1)
    (hfits : Volume.Fits g (Files.volume (F ++ [(name, [])]))) :
    ∃ s', ((g.inode D 0).create name).Returns s (some (g.inode D (F.length + 1))) s' ∧
      Ready g D (Files.volume (F ++ [(name, [])])) s' ∧ HoldsAtMost 3 s s' ∧
      inodeAt g (s'.device D) (F.length + 1) = DiskInode.initializeInode .file := by
  obtain ⟨s₀, hfound, hready₀, hheld₀⟩ := h.returns_of_reads ((found_spec h.holds hslots name).1 _ hnew)
  obtain ⟨m₁, m₂, hm₁, hm₂, hholds₂, hnewInode⟩ := does_newInode (D := D) hready₀.holds hfits
  have hlt := hholds₂.lt_inodes (i := 0) rfl
  obtain ⟨d', m₃, hm₃, hrep₃, hlow₃⟩ := does_addEntry hholds₂
    (show (g.inode D 0).fs = g.efs D from rfl) rfl hfits hname (lt_of_used hlt true) (by simp)
  obtain ⟨m₄, hm₄, hholds₄, hinodes₄, -⟩ := does_modifyDiskInode (D := D) (f := fun rootInode ↦ do
    let d ← (g.inode D 0).increaseSize
      (UInt32.ofNat ((rootInode.size.toNat / direntSz + 1) * direntSz)) rootInode
    let dirent ← unwrap (DirEntry.new name (UInt32.ofNat (F.length + 1)))
    let _ ← d.writeAt (rootInode.size.toNat / direntSz * direntSz) dirent.asBytes D
    pure ((), d)) hlt (by rw [size_root_concat hholds₂]; exact hm₃) hrep₃ hlow₃
  obtain ⟨s₁, hret₁, hview₁, -, hheld₁⟩ := hm₁ s₀ hready₀.view
  obtain ⟨s₂, hret₂, hview₂, -, hheld₂⟩ := hm₂ s₁ hview₁
  obtain ⟨s₄, hret₄, hview₄, -, hheld₄⟩ := hm₄ s₂ hview₂
  obtain ⟨s', hsync, hview', hheld', hdevice⟩ := hview₄.syncAll
  have hinode : (g.efs D).inode (UInt32.ofNat (F.length + 1)) D = g.inode D (F.length + 1) := by
    have hinodes := hfits.inodes
    rw [Files.length_volume, List.length_append, List.length_singleton] at hinodes
    exact efs_inode (by omega)
  refine ⟨s', hfound.bind (hret₁.bind (hret₂.bind (hret₄.bind (hsync.bind ?_)))),
    ⟨by rwa [hdevice], by rwa [hdevice]⟩, ?_, ?_⟩
  · exact returns_pure.mpr ⟨congrArg some hinode.symm, rfl⟩
  · exact (((hheld₀.trans hheld₁).trans hheld₂).trans hheld₄).trans (hheld'.mono (Nat.zero_le _))
  · have hinodes := hfits.inodes
    rw [Files.length_volume, List.length_append, List.length_singleton] at hinodes
    rw [hdevice, hinodes₄ _ (by omega), Function.update_of_ne (Nat.succ_ne_zero _), hnewInode]

/-- A name longer than its slot is a panic, once the inode has been taken. -/
theorem not_create_of_long (h : Ready g D F.volume s) (hslots : Slots F.names)
    (hnew : scan name F.names 0 = some none)
    (hname : nameLengthLimit + 1 < (DirEntry.nameBytes name).length)
    (hfits : Volume.Fits g (Files.volume (F ++ [(name, [])]))) {r : Option Inode} :
    ¬((g.inode D 0).create name).Returns s r s' := by
  obtain ⟨s₀, hfound, hready₀, -⟩ := h.returns_of_reads ((found_spec h.holds hslots name).1 _ hnew)
  obtain ⟨m₁, m₂, hm₁, hm₂, hholds₂, -⟩ := does_newInode (D := D) hready₀.holds hfits
  have hlt := hholds₂.lt_inodes (i := 0) rfl
  obtain ⟨d', m₃, hm₃, -⟩ := does_growRoot hholds₂ (show (g.inode D 0).fs = g.efs D from rfl) rfl hfits
    (lt_of_used hlt true) (by simp)
  obtain ⟨s₁, hret₁, hview₁, -⟩ := hm₁ s₀ hready₀.view
  obtain ⟨s₂, hret₂, hview₂, -⟩ := hm₂ s₁ hview₁
  have hstop : Stops D ((g.inode D 0).modifyDiskInode fun rootInode ↦ do
      let d ← (g.inode D 0).increaseSize
        (UInt32.ofNat ((rootInode.size.toNat / direntSz + 1) * direntSz)) rootInode
      let dirent ← unwrap (DirEntry.new name (UInt32.ofNat (F.length + 1)))
      let _ ← d.writeAt (rootInode.size.toNat / direntSz * direntSz) dirent.asBytes D
      pure ((), d)) [] m₂ := by
    refine stops_modifyBlock (by simp) (by decide) (size_diskInode 0) ?_
    have hsize := size_root_concat hholds₂
    unfold inodeAt at hsize hm₃
    dsimp only [Geometry.inode]
    rw [hsize]
    exact hm₃.stops_bind ((stops_unwrap (DirEntry.new_eq_none hname _)).bind _)
  intro hret
  obtain ⟨_, _, hfound', hrest⟩ := returns_bind.mp hret
  obtain ⟨rfl, rfl⟩ := hfound'.det hfound
  rw [Option.map_none, Option.isSome_none, if_neg Bool.false_ne_true] at hrest
  obtain ⟨_, _, halloc, hrest⟩ := returns_bind.mp hrest
  obtain ⟨rfl, rfl⟩ := halloc.det hret₁
  obtain ⟨_, _, hinit, hrest⟩ := returns_bind.mp hrest
  obtain ⟨rfl, rfl⟩ := hinit.det hret₂
  obtain ⟨_, _, hentry, -⟩ := returns_bind.mp hrest
  exact hstop _ hview₂ _ _ hentry

/-- Creating a file panics when an entry cannot be read and the name is not in front of it. -/
theorem not_create_of_full (h : Ready g D F.volume s) (hslots : Slots F.names)
    (hnone : scan name F.names 0 = none) {r : Option Inode} :
    ¬((g.inode D 0).create name).Returns s r s' :=
  h.not_returns (((found_spec h.holds hslots name).2 hnone).bind _)

end Ready

end Create

end AgentOS.Fs
