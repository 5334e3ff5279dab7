import Mathlib
import AgentOS.Fs.Mount

/-!
# Working with a file system

A session is a run of `create`, `write_at`, `read_at`, `clear` and `ls`, with the inodes that `create` has
returned. To its user a file system is a list of named byte arrays: `Files.step` says what each operation
does to it and gives back. Every session does the same, as long as the names are proper, no write is empty and
there is room (`Legal`).
-/

namespace AgentOS.Fs

open Exec

/-- What is done with a file system. A file is given by the number of files created before it. -/
inductive Op
  | create (name : String)
  | writeAt (file offset : ℕ) (buf : List UInt8)
  | readAt (file offset : ℕ) (buf : List UInt8)
  | clear (file : ℕ)
  | ls

/-- What an operation gives back. -/
inductive Out
  | created (new : Bool)
  | written (n : ℕ)
  | read (n : ℕ) (buf : List UInt8)
  | cleared
  | listed (names : List String)
  deriving DecidableEq

/-- A storage, the root inode and the inodes of the files. -/
structure Session where
  storage : Storage
  root : Inode
  files : List Inode

namespace Session

/-- A session begins with no files. -/
def start (s : Storage) (efs : EasyFileSystem) : Session :=
  { storage := s, root := efs.rootInode, files := [] }

/-- Something is done with the storage. -/
def onStorage {V : Type} (x : Exec Storage V) : Exec Session V :=
  zoom Session.storage (fun s c ↦ { c with storage := s }) x

/-- The inode of a file. -/
def file (i : ℕ) : Exec Session Inode := do
  let c ← get
  unwrap c.files[i]?

end Session

namespace Op

open Session

/-- An operation on the inodes. -/
def exec : Op → Exec Session Out
  | .create name => do
    let c ← get
    let inode ← onStorage (c.root.create name)
    modify fun c ↦ { c with files := c.files ++ inode.toList }
    pure (.created inode.isSome)
  | .writeAt i offset buf => do
    let inode ← file i
    let n ← onStorage (inode.writeAt offset buf)
    pure (.written n)
  | .readAt i offset buf => do
    let inode ← file i
    let (n, buf) ← onStorage (inode.readAt offset buf)
    pure (.read n buf)
  | .clear i => do
    let inode ← file i
    onStorage inode.clear
    pure .cleared
  | .ls => do
    let c ← get
    let names ← onStorage c.root.ls
    pure (.listed names)

/-- Operations one after the other. -/
def execAll : List Op → Exec Session (List Out)
  | [] => pure []
  | op :: ops => do
    let out ← op.exec
    let outs ← execAll ops
    pure (out :: outs)

end Op

/-! ## The named byte arrays -/

namespace Files

/-- The bytes of a file. -/
def bytes (F : Files) (i : ℕ) : List UInt8 := (F.map Prod.snd).getD i []

/-- A file gets other bytes. -/
def put (F : Files) (i : ℕ) (bytes : List UInt8) : Files := F.modify i fun p ↦ (p.1, bytes)

/-- An operation on the byte arrays. -/
def step (F : Files) : Op → Out × Files
  | .create name => if name ∈ F.names then (.created false, F) else (.created true, F ++ [(name, [])])
  | .writeAt i offset buf => (.written buf.length, F.put i (overlay (F.bytes i) offset buf))
  | .readAt i offset buf =>
    (.read (min buf.length ((F.bytes i).length - offset)) (readInto (F.bytes i) offset buf), F)
  | .clear i => (.cleared, F.put i [])
  | .ls => (.listed F.names, F)

/-- Operations one after the other. -/
def run (F : Files) : List Op → List Out × Files
  | [] => ([], F)
  | op :: ops => ((F.step op).1 :: (run (F.step op).2 ops).1, (run (F.step op).2 ops).2)

/-- There is room for the files. -/
def Room (g : Geometry) (F : Files) : Prop := Volume.Fits g F.volume

/-- The name is proper, the file is there, something is written, and there is room for it. -/
def Legal (g : Geometry) (F : Files) (op : Op) : Prop :=
  match op with
  | .create name => Proper name ∧ Room g (F.step op).2
  | .writeAt i _ buf => i < F.length ∧ buf ≠ [] ∧ Room g (F.step op).2
  | .readAt i _ _ => i < F.length
  | .clear i => i < F.length
  | .ls => True

/-- Every operation of a run is legal. -/
def LegalRun (g : Geometry) : Files → List Op → Prop
  | _, [] => True
  | F, op :: ops => F.Legal g op ∧ LegalRun g (F.step op).2 ops

instance (g : Geometry) (F : Files) : Decidable (F.Room g) :=
  decidable_of_iff (F.volume.length ≤ g.inodes ∧ (∀ bytes ∈ F.volume, bytes.length ≤ maxSize) ∧
    blocksUsed F.volume ≤ g.capacity) ⟨fun h ↦ ⟨h.1, h.2.1, h.2.2⟩, fun h ↦ ⟨h.inodes, h.short, h.space⟩⟩

instance (g : Geometry) (F : Files) : (op : Op) → Decidable (F.Legal g op)
  | .create name => inferInstanceAs (Decidable (Proper name ∧ Room g (F.step (.create name)).2))
  | .writeAt i offset buf =>
    inferInstanceAs (Decidable (i < F.length ∧ buf ≠ [] ∧ Room g (F.step (.writeAt i offset buf)).2))
  | .readAt i _ _ => inferInstanceAs (Decidable (i < F.length))
  | .clear i => inferInstanceAs (Decidable (i < F.length))
  | .ls => inferInstanceAs (Decidable True)

instance decidableLegalRun (g : Geometry) : (F : Files) → (ops : List Op) → Decidable (F.LegalRun g ops)
  | _, [] => inferInstanceAs (Decidable True)
  | F, op :: ops =>
    let _ := decidableLegalRun g (F.step op).2 ops
    inferInstanceAs (Decidable (F.Legal g op ∧ LegalRun g (F.step op).2 ops))

variable {F : Files} {i : ℕ}

@[simp] theorem length_put (F : Files) (i : ℕ) (bytes : List UInt8) : (F.put i bytes).length = F.length :=
  List.length_modify _ _ _

@[simp] theorem names_put (F : Files) (i : ℕ) (bytes : List UInt8) : (F.put i bytes).names = F.names := by
  refine List.ext_getElem? fun k ↦ ?_
  rw [names, put, List.getElem?_map, List.getElem?_modify, names, List.getElem?_map]
  split <;> cases F[k]? <;> rfl

theorem contents_put (F : Files) (i : ℕ) (bytes : List UInt8) :
    (F.put i bytes).map Prod.snd = (F.map Prod.snd).set i bytes := by
  refine List.ext_getElem? fun k ↦ ?_
  rw [put, List.getElem?_map, List.getElem?_modify, List.getElem?_set, List.getElem?_map, List.length_map]
  by_cases hk : i = k
  · subst hk
    by_cases hi : i < F.length
    · simp [hi]
    · simp [hi]
  · simp [hk]

theorem volume_put (F : Files) (i : ℕ) (bytes : List UInt8) :
    (F.put i bytes).volume = F.volume.set (i + 1) bytes := by
  rw [volume, volume, names_put, contents_put, List.set_cons_succ]

theorem getElem?_bytes (h : i < F.length) : F.volume[i + 1]? = some (F.bytes i) := by
  have hlt : i < (F.map Prod.snd).length := by rwa [List.length_map]
  rw [volume, List.getElem?_cons_succ, bytes, List.getD_eq_getElem _ _ hlt, List.getElem?_eq_getElem hlt]

/-- What is done with one file leaves the others as they are. -/
theorem bytes_put (F : Files) (bytes' : List UInt8) {j : ℕ} (hj : j ≠ i) :
    (F.put i bytes').bytes j = F.bytes j := by
  rw [bytes, contents_put, List.getD_eq_getElem?_getD, List.getElem?_set_ne hj.symm,
    ← List.getD_eq_getElem?_getD, bytes]

end Files

/-! ## Sessions do the same -/

/-- The session holds the files. -/
structure Represents (g : Geometry) (D : DeviceId) (F : Files) (c : Session) : Prop where
  ready : Ready g D F.volume c.storage
  root : c.root = g.inode D 0
  files : c.files = (List.range F.length).map fun i ↦ g.inode D (i + 1)
  proper : ∀ name ∈ F.names, Proper name
  nodup : F.names.Nodup

namespace Represents

variable {g : Geometry} {D : DeviceId} {F : Files} {c : Session} {i : ℕ}

theorem slots (h : Represents g D F c) : Slots F.names := fun n hn ↦
  (h.proper n hn).1.trans (Nat.le_succ _)

theorem terminated (h : Represents g D F c) : ∀ n ∈ F.names, Terminated n := fun n hn ↦
  (h.proper n hn).terminated

theorem map_shown (h : Represents g D F c) : F.names.map shown = F.names :=
  (List.map_congr_left fun n hn ↦ (h.proper n hn).shown).trans (List.map_id _)

/-- A name that is not there is not found. -/
theorem scan_of_not_mem (h : Represents g D F c) {name : String} (hname : name ∉ F.names) :
    scan name F.names 0 = some none :=
  scan_eq_some_none.mpr ⟨h.terminated, by rwa [h.map_shown]⟩

/-- A name that is there is found at its place. -/
theorem scan_of_mem (h : Represents g D F c) {name : String} (hname : F.names[i]? = some name) :
    scan name F.names 0 = some (some i) := by
  match hscan : scan name F.names 0 with
  | none => exact absurd hscan (scan_ne_none h.terminated)
  | some none =>
    have hmem : name ∈ F.names.map shown := h.map_shown.symm ▸ List.mem_of_getElem? hname
    exact absurd hmem (scan_eq_some_none.mp hscan).2
  | some (some j) =>
    obtain ⟨-, n, hn, -, hshown⟩ := scan_eq_some_some hscan
    rw [Nat.sub_zero] at hn
    rw [(h.proper n (List.mem_of_getElem? hn)).shown] at hshown
    subst hshown
    have hi := (List.getElem?_eq_some_iff.mp hname).1
    rw [(List.getElem?_inj hi h.nodup).mp (hname.trans hn.symm)]

theorem returns_file (h : Represents g D F c) (hi : i < F.length) :
    (Session.file i).Returns c (g.inode D (i + 1)) c := by
  refine Returns.bind (returns_get.mpr ⟨rfl, rfl⟩) (returns_unwrap.mpr ⟨?_, rfl⟩)
  rw [h.files, List.getElem?_map, List.getElem?_range hi, Option.map_some]

theorem returns_onStorage {V : Type} {x : Exec Storage V} {v : V} {s' : Storage}
    (h : x.Returns c.storage v s') : (Session.onStorage x).Returns c v { c with storage := s' } :=
  returns_zoom.mpr ⟨s', h, rfl⟩

theorem of_ready (h : Represents g D F c) {s' : Storage} (hready : Ready g D F.volume s') :
    Represents g D F { c with storage := s' } :=
  ⟨hready, h.root, h.files, h.proper, h.nodup⟩

theorem of_put (h : Represents g D F c) {s' : Storage} {bytes : List UInt8}
    (hready : Ready g D (F.volume.set (i + 1) bytes) s') :
    Represents g D (F.put i bytes) { c with storage := s' } := by
  refine ⟨by rwa [Files.volume_put], h.root, ?_, ?_, ?_⟩
  · rw [Files.length_put]
    exact h.files
  · rw [Files.names_put]
    exact h.proper
  · rw [Files.names_put]
    exact h.nodup

/-- **Creating a file.** -/
theorem create (h : Represents g D F c) {name : String} (hlegal : F.Legal g (.create name)) :
    ∃ c', (Op.exec (.create name)).Returns c (F.step (.create name)).1 c' ∧
      Represents g D (F.step (.create name)).2 c' ∧ HoldsAtMost 3 c.storage c'.storage := by
  obtain ⟨hproper, hroom⟩ := hlegal
  rw [Files.step] at hroom ⊢
  by_cases hmem : name ∈ F.names
  · rw [if_pos hmem]
    obtain ⟨i, hi⟩ := List.getElem?_of_mem hmem
    obtain ⟨s', hret, hready, hheld, -⟩ := h.ready.create_of_found h.slots (h.scan_of_mem hi)
    refine ⟨{ c with storage := s' }, ?_, h.of_ready hready, hheld⟩
    refine Returns.bind (returns_get.mpr ⟨rfl, rfl⟩) ((returns_onStorage (h.root ▸ hret)).bind ?_)
    refine Returns.bind (a := ()) (returns_modify.mpr rfl) (returns_pure.mpr ⟨rfl, ?_⟩)
    rw [Option.toList_none, List.append_nil]
  · rw [if_neg hmem] at hroom ⊢
    obtain ⟨s', hret, hready, hheld, -⟩ := h.ready.create_of_new h.slots (h.scan_of_not_mem hmem)
      (hproper.1.trans (Nat.le_succ _)) hroom
    refine ⟨{ c with storage := s', files := c.files ++ [g.inode D (F.length + 1)] }, ?_,
      ⟨hready, h.root, ?_, ?_, ?_⟩, hheld⟩
    · exact Returns.bind (returns_get.mpr ⟨rfl, rfl⟩) ((returns_onStorage (h.root ▸ hret)).bind
        (Returns.bind (a := ()) (returns_modify.mpr rfl) (returns_pure.mpr ⟨rfl, rfl⟩)))
    · rw [h.files, List.length_append, List.length_singleton, List.range_succ, List.map_append,
        List.map_singleton]
    · intro n hn
      rw [Files.names_concat] at hn
      rcases List.mem_append.mp hn with hn | hn
      · exact h.proper n hn
      · obtain rfl : n = name := by simpa using hn
        exact hproper
    · rw [Files.names_concat]
      exact h.nodup.append (List.nodup_singleton _) (by simpa using hmem)

/-- **Every operation** does to the session what it does to the byte arrays, and gives the same. -/
theorem step (h : Represents g D F c) {op : Op} (hlegal : F.Legal g op) :
    ∃ c', op.exec.Returns c (F.step op).1 c' ∧ Represents g D (F.step op).2 c' ∧
      HoldsAtMost 3 c.storage c'.storage := by
  cases op with
  | create name => exact h.create hlegal
  | writeAt i offset buf =>
    obtain ⟨hi, hbuf, hroom⟩ := hlegal
    rw [Files.step, Files.Room, Files.volume_put] at hroom
    obtain ⟨s', hret, hready, hheld⟩ := h.ready.writeAt (Files.getElem?_bytes hi) (div_lt_of_ne_nil _ _ hbuf) hroom
    exact ⟨_, (h.returns_file hi).bind ((returns_onStorage hret).bind (returns_pure.mpr ⟨rfl, rfl⟩)),
      h.of_put hready, hheld⟩
  | readAt i offset buf =>
    obtain ⟨s', hret, hready, hheld⟩ := h.ready.readAt (Files.getElem?_bytes hlegal) offset buf
    exact ⟨_, (h.returns_file hlegal).bind ((returns_onStorage hret).bind (returns_pure.mpr ⟨rfl, rfl⟩)),
      h.of_ready hready, hheld⟩
  | clear i =>
    obtain ⟨s', hret, hready, hheld, -⟩ := h.ready.clear (Files.getElem?_bytes hlegal)
    exact ⟨_, (h.returns_file hlegal).bind ((returns_onStorage hret).bind (returns_pure.mpr ⟨rfl, rfl⟩)),
      h.of_put hready, hheld⟩
  | ls =>
    obtain ⟨s', hret, hready, hheld⟩ := h.ready.ls h.slots h.terminated
    rw [h.map_shown] at hret
    refine ⟨_, Returns.bind (returns_get.mpr ⟨rfl, rfl⟩) ((returns_onStorage (h.root ▸ hret)).bind
      (returns_pure.mpr ⟨rfl, rfl⟩)), h.of_ready hready, hheld⟩

/-- **Every run** gives what the byte arrays give. -/
theorem run {ops : List Op} (h : Represents g D F c) (hlegal : F.LegalRun g ops) :
    ∃ c', (Op.execAll ops).Returns c (F.run ops).1 c' ∧ Represents g D (F.run ops).2 c' := by
  induction ops generalizing F c with
  | nil => exact ⟨c, returns_pure.mpr ⟨rfl, rfl⟩, h⟩
  | cons op ops ih =>
    obtain ⟨c₁, hret₁, h₁, -⟩ := h.step hlegal.1
    obtain ⟨c', hret, h'⟩ := ih h₁ hlegal.2
    exact ⟨c', hret₁.bind (hret.bind (returns_pure.mpr ⟨rfl, rfl⟩)), h'⟩

end Represents

/-! ## From the making of the file system on -/

/-- A file system that has just been made, on a device that may have held anything. -/
def Made (g : Geometry) (D : DeviceId) (c : Session) : Prop :=
  ∃ device efs s, (EasyFileSystem.create D g.totalBlocks g.inodeBitmapBlocks).Returns
    (Storage.boot device) efs s ∧ c = Session.start s efs

variable {g : Geometry} {D : DeviceId} {F : Files} {c : Session} {ops : List Op} {i : ℕ}

theorem view_boot (device : DeviceId → ℕ → Block) : View D [] (device D) (Storage.boot device) :=
  ⟨Storage.wf_boot _, nofun, congrFun (Storage.content_boot _) D, rfl, List.Forall₂.nil⟩

theorem rootInode_efs (hpos : 0 < g.inodes) : (g.efs D).rootInode = g.inode D 0 := efs_inode hpos

theorem Ready.represents_nil {s : Storage} (h : Ready g D (Files.volume []) s) :
    Represents g D [] (Session.start s (g.efs D)) :=
  ⟨h, rootInode_efs (h.holds.lt_inodes (i := 0) rfl), rfl, nofun, List.nodup_nil⟩

/-- A file system can be made where there is room for an inode. -/
theorem exists_made (hpos : 0 < g.inodeBitmapBlocks.toNat) : ∃ c, Made g D c := by
  obtain ⟨s, hret, -⟩ := create_returns (g := g) (D := D) hpos (view_boot fun _ _ ↦ zeroBlock)
  exact ⟨_, _, _, s, hret, rfl⟩

theorem Made.represents (h : Made g D c) : Represents g D [] c := by
  obtain ⟨device, efs, s, hret, rfl⟩ := h
  obtain ⟨s', hret', hready⟩ := create_returns (g := g) (pos_of_create hret) (view_boot (D := D) device)
  obtain ⟨rfl, rfl⟩ := hret.det hret'
  exact hready.represents_nil

/-- What an operation does to the bytes of one file. -/
def Op.onFile (i : ℕ) (bytes : List UInt8) : Op → List UInt8
  | .writeAt j offset buf => if j = i then overlay bytes offset buf else bytes
  | .clear j => if j = i then [] else bytes
  | _ => bytes

/-- What an operation does to the listing. -/
def Op.onNames (names : List String) : Op → List String
  | .create name => if name ∈ names then names else names ++ [name]
  | _ => names

/-- The bytes of a file after some operations: what was written since it was cleared, one write over the
other. -/
def written (i : ℕ) (ops : List Op) : List UInt8 := ops.foldl (Op.onFile i) []

/-- The names created by some operations. -/
def listing (ops : List Op) : List String := ops.foldl Op.onNames []

namespace Files

theorem bytes_put_self (hi : i < F.length) (bytes' : List UInt8) : (F.put i bytes').bytes i = bytes' := by
  rw [bytes, contents_put, List.getD_eq_getElem?_getD, List.getElem?_set_self (by simpa using hi),
    Option.getD_some]

theorem bytes_concat (F : Files) (name : String) (i : ℕ) : bytes (F ++ [(name, [])]) i = F.bytes i := by
  rw [bytes, List.map_append, List.map_singleton, bytes]
  by_cases hi : i < F.length
  · rw [List.getD_append _ _ _ _ (by simpa using hi)]
  · have hle : (F.map Prod.snd).length ≤ i := by simpa using hi
    rw [List.getD_append_right _ _ _ _ hle, List.getD_eq_default (F.map Prod.snd) _ hle]
    cases i - (F.map Prod.snd).length with
    | zero => rfl
    | succ k => rfl

theorem bytes_step {op : Op} (hlegal : F.Legal g op) (i : ℕ) :
    (F.step op).2.bytes i = op.onFile i (F.bytes i) := by
  cases op with
  | create name =>
    rw [step]
    split_ifs
    · rfl
    · exact bytes_concat F name i
  | writeAt j offset buf =>
    rw [Op.onFile]
    by_cases hji : j = i
    · subst hji
      rw [if_pos rfl]
      exact bytes_put_self hlegal.1 _
    · rw [if_neg hji]
      exact bytes_put F _ (Ne.symm hji)
  | clear j =>
    rw [Op.onFile]
    by_cases hji : j = i
    · subst hji
      rw [if_pos rfl]
      exact bytes_put_self hlegal _
    · rw [if_neg hji]
      exact bytes_put F _ (Ne.symm hji)
  | readAt j offset buf => rfl
  | ls => rfl

theorem names_step (F : Files) (op : Op) : (F.step op).2.names = op.onNames F.names := by
  cases op with
  | create name =>
    rw [step, Op.onNames]
    split_ifs
    · rfl
    · exact names_concat _ _ _
  | writeAt j offset buf => exact names_put _ _ _
  | clear j => exact names_put _ _ _
  | readAt j offset buf => rfl
  | ls => rfl

theorem bytes_run (hlegal : F.LegalRun g ops) (i : ℕ) :
    (F.run ops).2.bytes i = ops.foldl (Op.onFile i) (F.bytes i) := by
  induction ops generalizing F with
  | nil => rfl
  | cons op ops ih => rw [run, ih hlegal.2, bytes_step hlegal.1, List.foldl_cons]

theorem names_run (F : Files) (ops : List Op) : (F.run ops).2.names = ops.foldl Op.onNames F.names := by
  induction ops generalizing F with
  | nil => rfl
  | cons op ops ih => rw [run, ih, names_step, List.foldl_cons]

end Files

/-- **A file is a byte array**: every operation of a run gives what it gives on byte arrays, and afterwards
each file has the bytes its own writes have left, and `ls` gives the names that were created. -/
theorem contents_refine (hmade : Made g D c) (hlegal : Files.LegalRun g [] ops) :
    ∃ c', (Op.execAll ops).Returns c (Files.run [] ops).1 c' ∧
      (∃ c'', Op.ls.exec.Returns c' (.listed (listing ops)) c'') ∧
      ∀ i < (listing ops).length, ∀ offset buf, ∃ c'', (Op.readAt i offset buf).exec.Returns c'
        (.read (min buf.length ((written i ops).length - offset)) (readInto (written i ops) offset buf))
        c'' := by
  obtain ⟨c', hret, hrep⟩ := hmade.represents.run hlegal
  have hnames : (Files.run [] ops).2.names = listing ops := Files.names_run [] ops
  refine ⟨c', hret, ?_, fun i hi offset buf ↦ ?_⟩
  · obtain ⟨c'', hls, -⟩ := hrep.step (show Files.Legal g _ .ls from trivial)
    rw [Files.step, hnames] at hls
    exact ⟨c'', hls⟩
  · rw [← hnames, Files.length_names] at hi
    obtain ⟨c'', hread, -⟩ := hrep.step (show Files.Legal g _ (.readAt i offset buf) from hi)
    rw [Files.step, Files.bytes_run hlegal] at hread
    exact ⟨c'', hread⟩

/-- A small file system. -/
def smallFs : Geometry := { totalBlocks := 2000, inodeBitmapBlocks := 1, fits := by decide }

/-- Two files, a gap, a name that is there already, and a file that is cleared. -/
def smallRun : List Op :=
  [.create "a", .create "bc", .writeAt 0 600 [7, 8], .create "a", .writeAt 1 0 [1],
    .readAt 0 599 [0, 0, 0, 0], .clear 0, .ls]

theorem contents_refine_small : ∃ c, Made smallFs 0 c ∧ ∃ c', (Op.execAll smallRun).Returns c
    [.created true, .created true, .written 2, .created false, .written 1, .read 3 [0, 7, 8, 0], .cleared,
      .listed ["a", "bc"]] c' := by
  obtain ⟨c, hmade⟩ := exists_made (g := smallFs) (D := 0) (by decide)
  obtain ⟨c', hret, -⟩ := @contents_refine smallFs 0 c smallRun hmade (by decide +kernel)
  have houts : (Files.run [] smallRun).1 = [.created true, .created true, .written 2, .created false,
      .written 1, .read 3 [0, 7, 8, 0], .cleared, .listed ["a", "bc"]] := by decide +kernel
  exact ⟨c, hmade, c', houts ▸ hret⟩

end AgentOS.Fs
