import Mathlib
import AgentOS.Fs.Sessions

/-!
# What creating a file promises

A name that is created should be listed behind the others and be found again, and the others should stay as
they are. This holds exactly when the name fits in its slot with a zero behind it and has no NUL in it, and
when the same can be said, up to what is behind a NUL, of the names before it: a name of 28 bytes that has
once been written makes every later look at the directory panic.
-/

namespace AgentOS.Fs

open Exec

/-- An entry of the root directory, as it is on the device. -/
def entryAt (g : Geometry) (m : ℕ → Block) (k : ℕ) : DirEntry :=
  DirEntry.ofBytes ((List.range direntSz).map fun j ↦ (inodeAt g m 0).byte m (direntSz * k + j))

/-- The law of `create`: either it gives nothing and changes nothing, or the name was not there, is behind
the others afterwards and is found with a number of its own, and the other names are found as before. -/
def CreateLaw (g : Geometry) (D : DeviceId) (c : Session) (name : String) : Prop :=
  (∃ s', (c.root.create name).Returns c.storage none s' ∧ s'.content D = c.storage.content D) ∨
  ∃ inode s' names, (c.root.create name).Returns c.storage (some inode) s' ∧
    (∃ s₁, c.root.ls.Returns c.storage names s₁) ∧ name ∉ names ∧
    (∃ s₁, c.root.ls.Returns s' (names ++ [name]) s₁) ∧
    (∃ s₁, (c.root.find name).Returns s' (some inode) s₁) ∧
    (∃ id, inode = c.root.fs.inode id D ∧
      ∀ k < names.length, (entryAt g (s'.content D) k).inodeNumber ≠ id) ∧
    ∀ other ≠ name, ∃ r s₁ s₂, (c.root.find other).Returns c.storage r s₁ ∧
      (c.root.find other).Returns s' r s₂

/-- The sessions that calls of `create` come to, with the names that were created. There is room for each. -/
inductive Created (g : Geometry) (D : DeviceId) : Files → Session → Prop
  | made {c : Session} : Made g D c → Created g D [] c
  | create {F : Files} {c c' : Session} {name : String} {out : Out} : Created g D F c →
      Files.Room g (F ++ [(name, [])]) → (Op.exec (.create name)).Returns c out c' →
      Created g D (if out = .created true then F ++ [(name, [])] else F) c'

/-- Only the last name may fill its slot. -/
structure Listed (g : Geometry) (D : DeviceId) (F : Files) (c : Session) : Prop where
  ready : Ready g D F.volume c.storage
  root : c.root = g.inode D 0
  slots : Slots F.names
  init : ∀ n ∈ F.names.dropLast, Terminated n

variable {g : Geometry} {D : DeviceId} {F : Files} {c c' : Session} {name : String}

theorem Made.listed (h : Made g D c) : Listed g D [] c :=
  ⟨h.represents.ready, h.represents.root, nofun, nofun⟩

theorem terminated_concat (hterm : ∀ n ∈ F.names, Terminated n) (hname : Terminated name) :
    ∀ n ∈ Files.names (F ++ [(name, [])]), Terminated n := by
  rw [Files.names_concat]
  intro n hn
  rcases List.mem_append.mp hn with hn | hn
  · exact hterm n hn
  · obtain rfl : n = name := by simpa using hn
    exact hname

/-- A file can only be created behind names that can be read. -/
theorem Listed.concat (h : Listed g D F c) (hterm : ∀ n ∈ F.names, Terminated n)
    (hname : (DirEntry.nameBytes name).length ≤ nameLengthLimit + 1) {s' : Storage} (files : List Inode)
    (hready : Ready g D (Files.volume (F ++ [(name, [])])) s') :
    Listed g D (F ++ [(name, [])]) { storage := s', root := c.root, files } := by
  refine ⟨hready, h.root, ?_, ?_⟩
  · rw [Files.names_concat]
    intro n hn
    rcases List.mem_append.mp hn with hn | hn
    · exact h.slots n hn
    · obtain rfl : n = name := by simpa using hn
      exact hname
  · rw [Files.names_concat, List.dropLast_concat]
    exact hterm

/-- What `create` can come to. -/
theorem Listed.create_cases (h : Listed g D F c) (hroom : Files.Room g (F ++ [(name, [])])) :
    (∃ j s', scan name F.names 0 = some (some j) ∧ (c.root.create name).Returns c.storage none s' ∧
      Ready g D F.volume s' ∧ s'.content D = c.storage.content D) ∨
    (∃ s', scan name F.names 0 = some none ∧ (DirEntry.nameBytes name).length ≤ nameLengthLimit + 1 ∧
      (c.root.create name).Returns c.storage (some (g.inode D (F.length + 1))) s' ∧
      Ready g D (Files.volume (F ++ [(name, [])])) s') ∨
    (¬((∀ n ∈ F.names, Terminated n) ∧ Proper name) ∧
      (∀ n ∈ F.names, Terminated n → shown n ≠ name) ∧
      ∀ r s', ¬(c.root.create name).Returns c.storage r s') := by
  rw [h.root]
  match hscan : scan name F.names 0 with
  | some (some j) =>
    obtain ⟨s', hret, hready, -, hcontent⟩ := h.ready.create_of_found h.slots hscan
    exact Or.inl ⟨j, s', rfl, hret, hready, hcontent⟩
  | some none =>
    by_cases hlong : nameLengthLimit + 1 < (DirEntry.nameBytes name).length
    · refine Or.inr (Or.inr ⟨fun hok ↦ ?_, fun n hn _ heq ↦ ?_, fun r s' ↦
        h.ready.not_create_of_long h.slots hscan hlong hroom⟩)
      · have hle := hok.2.1
        omega
      · exact (scan_eq_some_none.mp hscan).2 (heq ▸ List.mem_map_of_mem hn)
    · obtain ⟨s', hret, hready, -⟩ := h.ready.create_of_new h.slots hscan (Nat.le_of_not_lt hlong) hroom
      exact Or.inr (Or.inl ⟨s', rfl, Nat.le_of_not_lt hlong, hret, hready⟩)
  | none =>
    refine Or.inr (Or.inr ⟨fun hok ↦ scan_ne_none hok.1 hscan, fun n hn hterm heq ↦ ?_, fun r s' ↦
      h.ready.not_create_of_full h.slots hscan⟩)
    rcases List.eq_nil_or_concat F.names with hnil | ⟨init, last, hlast⟩
    · rw [hnil] at hn
      exact absurd hn List.not_mem_nil
    · rw [List.concat_eq_append] at hlast
      have hinit := h.init
      rw [hlast, List.dropLast_concat] at hinit
      rw [hlast, scan_append hinit] at hscan
      split_ifs at hscan with hmem
      · exact scan_ne_none hinit hscan
      · rw [hlast] at hn
        rcases List.mem_append.mp hn with hn | hn
        · exact hmem (heq ▸ List.mem_map_of_mem hn)
        · obtain rfl : n = last := by simpa using hn
          rw [scan, if_pos hterm, if_pos heq] at hscan
          exact absurd hscan (by simp)

/-- The entries are on the device. -/
theorem entryAt_eq {m : ℕ → Block} (h : Holds g F.volume m) {k : ℕ} {n : String}
    (hk : F.names[k]? = some n) : entryAt g m k = DirEntry.entryOf n (UInt32.ofNat (k + 1)) := by
  have hlt : k < F.names.length := (List.getElem?_eq_some_iff.mp hk).1
  have hfile := isFile_root h
  have hend := DiskInode.le_blocksFor (dirBytes F.names).length
  have hlength := length_dirBytes F.names
  have hbytes : ((List.range direntSz).map fun j ↦ (inodeAt g m 0).byte m (direntSz * k + j)) =
      ((dirBytes F.names).drop (direntSz * k)).take direntSz := by
    refine List.ext_getElem ?_ fun j hj _ ↦ ?_
    · simp only [List.length_map, List.length_range, List.length_take, List.length_drop, hlength, direntSz]
      omega
    · have hj' : j < direntSz := by simpa using hj
      have hin : direntSz * k + j < (dirBytes F.names).length := by
        rw [hlength]
        simp only [direntSz] at *
        omega
      rw [List.getElem_map, List.getElem_range, hfile.data _ (by rw [hfile.toNat_dataBlocks]; omega),
        List.getElem_take, List.getElem_drop, List.getD_eq_getElem _ _ hin]
  rw [entryAt, hbytes, slice_dirBytes hk, DirEntry.ofBytes_asBytes]

/-- A proper name that is new is listed and found, and the others are found as before. -/
theorem Listed.law_of_proper (h : Listed g D F c) (hterm : ∀ n ∈ F.names, Terminated n)
    (hproper : Proper name) {s' : Storage} (hnew : scan name F.names 0 = some none)
    (hret : (c.root.create name).Returns c.storage (some (g.inode D (F.length + 1))) s')
    (hready : Ready g D (Files.volume (F ++ [(name, [])])) s') : CreateLaw g D c name := by
  have hnot : name ∉ F.names.map shown := (scan_eq_some_none.mp hnew).2
  have h' := h.concat hterm (hproper.1.trans (Nat.le_succ _)) c.files hready
  have hterm' := terminated_concat hterm hproper.terminated
  obtain ⟨s₁, hls, -⟩ := h.ready.ls h.slots hterm
  obtain ⟨s₂, hls', -⟩ := h'.ready.ls h'.slots hterm'
  rw [Files.names_concat, List.map_append, List.map_singleton, hproper.shown] at hls'
  have hscan : scan name (Files.names (F ++ [(name, [])])) 0 = some (some F.length) := by
    rw [Files.names_concat, scan_append hterm, if_neg hnot, scan, if_pos hproper.terminated, if_pos hproper.shown,
      Nat.zero_add, Files.length_names]
  obtain ⟨s₃, hfind, -⟩ := h'.ready.find h'.slots hscan
  refine Or.inr ⟨_, s', _, hret, ⟨s₁, h.root ▸ hls⟩, hnot, ⟨s₂, h.root ▸ hls'⟩, ⟨s₃, h.root ▸ hfind⟩,
    ⟨UInt32.ofNat (F.length + 1), ?_, fun k hk ↦ ?_⟩, fun other hother ↦ ?_⟩
  · have hinodes := hready.holds.inodes
    rw [Files.length_volume, List.length_append, List.length_singleton] at hinodes
    rw [h.root]
    exact (efs_inode (by omega)).symm
  · have hinodes := hready.holds.inodes
    rw [Files.length_volume, List.length_append, List.length_singleton] at hinodes
    have hbound : F.length + 1 + 1 ≤ 2 ^ 32 := hinodes.trans (Nat.min_le_right _ _)
    rw [List.length_map, Files.length_names] at hk
    have hk' : k < F.names.length := by rwa [Files.length_names]
    have hentry : (Files.names (F ++ [(name, [])]))[k]? = some F.names[k] := by
      rw [Files.names_concat, List.getElem?_append_left hk', List.getElem?_eq_getElem]
    rw [hready.view.content, entryAt_eq hready.holds hentry]
    intro heq
    have hnum : UInt32.ofNat (k + 1) = UInt32.ofNat (F.length + 1) := heq
    rw [← UInt32.toNat_inj, UInt32.toNat_ofNat_of_lt' (by change _ < 2 ^ 32; omega),
      UInt32.toNat_ofNat_of_lt' (by change _ < 2 ^ 32; omega)] at hnum
    omega
  · have hsame : scan other (Files.names (F ++ [(name, [])])) 0 = scan other F.names 0 := by
      rw [Files.names_concat, scan_append hterm]
      split_ifs with hmem
      · rfl
      · rw [scan, if_pos hproper.terminated, hproper.shown, if_neg (Ne.symm hother), scan]
        exact (scan_eq_some_none.mpr ⟨hterm, hmem⟩).symm
    have hscans : scan other F.names 0 ≠ none := scan_ne_none hterm
    obtain ⟨r, hr⟩ := Option.ne_none_iff_exists'.mp hscans
    obtain ⟨s₁, hfind₁, -⟩ := h.ready.find h.slots hr
    obtain ⟨s₂, hfind₂, -⟩ := h'.ready.find h'.slots (hsame.trans hr)
    exact ⟨_, s₁, s₂, h.root ▸ hfind₁, h.root ▸ hfind₂⟩

/-- A new name of which the law holds is proper. -/
theorem Listed.proper_of_law (h : Listed g D F c) {s' : Storage} (hnew : scan name F.names 0 = some none)
    (hname : (DirEntry.nameBytes name).length ≤ nameLengthLimit + 1)
    (hret : (c.root.create name).Returns c.storage (some (g.inode D (F.length + 1))) s')
    (hready : Ready g D (Files.volume (F ++ [(name, [])])) s') (hlaw : CreateLaw g D c name) :
    Proper name := by
  have hterm : ∀ n ∈ F.names, Terminated n := (scan_eq_some_none.mp hnew).1
  have h' := h.concat hterm hname c.files hready
  rcases hlaw with ⟨t, hnone, -⟩ | ⟨inode, t, names, hsome, ⟨t₁, hls⟩, -, ⟨t₂, hls'⟩, -⟩
  · exact absurd (hnone.det hret).1 (by simp)
  · obtain ⟨-, rfl⟩ := hsome.det hret
    rw [h.root] at hls hls'
    have hlast : Terminated name := by
      by_contra hfull
      exact h'.ready.not_ls h'.slots ⟨name, by rw [Files.names_concat]; simp, hfull⟩ hls'
    obtain ⟨s₁, hls₁, -⟩ := h.ready.ls h.slots hterm
    obtain ⟨s₂, hls₂, -⟩ := h'.ready.ls h'.slots (terminated_concat hterm hlast)
    obtain ⟨rfl, -⟩ := hls.det hls₁
    have heq := (hls'.det hls₂).1
    rw [Files.names_concat, List.map_append, List.map_singleton] at heq
    have hshown : name = shown name := by simpa using heq
    have hnul : '\x00' ∉ name.toList := by
      rw [hshown]
      exact nul_not_mem_shown name
    exact ⟨hlast.resolve_right hnul, hnul⟩

/-- **When the law holds.** -/
theorem Listed.law_iff (h : Listed g D F c) (hroom : Files.Room g (F ++ [(name, [])])) :
    CreateLaw g D c name ↔ (∃ n ∈ F.names, Terminated n ∧ shown n = name) ∨
      ((∀ n ∈ F.names, Terminated n) ∧ Proper name) := by
  rcases h.create_cases hroom with ⟨j, s', hscan, hret, -, hcontent⟩ | ⟨s', hscan, hname, hret, hready⟩ |
    ⟨hbad, hnot, hpanic⟩
  · obtain ⟨-, n, hn, hterm, hshown⟩ := scan_eq_some_some hscan
    exact iff_of_true (Or.inl ⟨s', hret, hcontent⟩) (Or.inl ⟨n, List.mem_of_getElem? hn, hterm, hshown⟩)
  · obtain ⟨hterm, hnot⟩ := scan_eq_some_none.mp hscan
    constructor
    · intro hlaw
      exact Or.inr ⟨hterm, h.proper_of_law hscan hname hret hready hlaw⟩
    · rintro (⟨n, hn, -, rfl⟩ | ⟨-, hproper⟩)
      · exact absurd (List.mem_map_of_mem hn) hnot
      · exact h.law_of_proper hterm hproper hscan hret hready
  · refine iff_of_false ?_ ?_
    · rintro (⟨s', hret, -⟩ | ⟨inode, s', names, hret, -⟩)
      · exact hpanic _ _ hret
      · exact hpanic _ _ hret
    · rintro (⟨n, hn, hterm, hshown⟩ | hok)
      · exact hnot n hn hterm hshown
      · exact hbad hok

/-- What `create` leaves behind. -/
theorem Listed.create (h : Listed g D F c) (hroom : Files.Room g (F ++ [(name, [])])) {out : Out}
    (hret : (Op.exec (.create name)).Returns c out c') :
    Listed g D (if out = .created true then F ++ [(name, [])] else F) c' := by
  obtain ⟨_, _, hget, h₁⟩ := returns_bind.mp hret
  obtain ⟨rfl, rfl⟩ := returns_get.mp hget
  obtain ⟨inode, _, hcreate, h₂⟩ := returns_bind.mp h₁
  obtain ⟨s', hs', rfl⟩ := returns_zoom.mp hcreate
  obtain ⟨_, _, hmodify, hpure⟩ := returns_bind.mp h₂
  obtain rfl := returns_modify.mp hmodify
  obtain ⟨rfl, rfl⟩ := returns_pure.mp hpure
  rcases h.create_cases hroom with ⟨j, t, -, hnone, hready, -⟩ | ⟨t, hscan, hname, hsome, hready⟩ |
    ⟨-, -, hpanic⟩
  · obtain ⟨rfl, rfl⟩ := hs'.det hnone
    rw [if_neg (by simp)]
    exact ⟨hready, h.root, h.slots, h.init⟩
  · obtain ⟨rfl, rfl⟩ := hs'.det hsome
    rw [if_pos (by simp)]
    exact h.concat (scan_eq_some_none.mp hscan).1 hname _ hready
  · exact absurd hs' (hpanic _ _)

theorem Created.listed (h : Created g D F c) : Listed g D F c := by
  induction h with
  | made hmade => exact hmade.listed
  | create _ hroom hret ih => exact ih.create hroom hret

/-- **The law of `create`** holds in a directory, whatever has been created in it, exactly for the names that
are there already in front of one that cannot be read, and, when all can be read, for the proper names. -/
theorem create_law_iff (h : Created g D F c) (hroom : Files.Room g (F ++ [(name, [])])) :
    CreateLaw g D c name ↔ (∃ n ∈ F.names, Terminated n ∧ shown n = name) ∨
      ((∀ n ∈ F.names, Terminated n) ∧ Proper name) :=
  h.listed.law_iff hroom

theorem create_law_first : ∃ c, Created smallFs 0 [] c ∧ CreateLaw smallFs 0 c "a" := by
  obtain ⟨c, hmade⟩ := exists_made (g := smallFs) (D := 0) (by decide)
  exact ⟨c, .made hmade, (create_law_iff (.made hmade) (by decide +kernel)).mpr
    (Or.inr ⟨nofun, by decide +kernel⟩)⟩

/-- A name of 28 bytes is created, and then nothing can be listed any more. -/
theorem not_create_law : ∃ c, Created smallFs 0 [] c ∧
    Files.Room smallFs [("aaaaaaaaaaaaaaaaaaaaaaaaaaaa", [])] ∧
      ¬CreateLaw smallFs 0 c "aaaaaaaaaaaaaaaaaaaaaaaaaaaa" := by
  obtain ⟨c, hmade⟩ := exists_made (g := smallFs) (D := 0) (by decide)
  have hroom : Files.Room smallFs [("aaaaaaaaaaaaaaaaaaaaaaaaaaaa", [])] := by decide +kernel
  refine ⟨c, .made hmade, hroom, fun hlaw ↦ ?_⟩
  rcases (hmade.listed.law_iff hroom).mp hlaw with ⟨n, hn, -⟩ | ⟨-, hproper⟩
  · exact absurd hn List.not_mem_nil
  · exact absurd hproper (by decide +kernel)

end AgentOS.Fs
