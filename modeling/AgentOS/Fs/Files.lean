import Mathlib
import AgentOS.Fs.InodeTable

/-!
# Files

What `read_at`, `write_at` and `clear` do to a volume. Between two operations nothing is in use, and the
device holds everything.
-/

namespace AgentOS.Fs

open Exec

/-- The blocks a volume takes. -/
def blocksUsed (V : Volume) : ℕ := (V.map fun bytes ↦ DiskInode.refsLength (blocksFor bytes.length)).sum

/-- The volume fits in the file system. -/
structure Volume.Fits (g : Geometry) (V : Volume) : Prop where
  inodes : V.length ≤ g.inodes
  short : ∀ bytes ∈ V, bytes.length ≤ maxSize
  space : blocksUsed V ≤ g.capacity

/-- The storage holds a volume, on the device too, and nothing is in use. -/
structure Ready (g : Geometry) (D : DeviceId) (V : Volume) (s : Storage) : Prop where
  view : View D [] (s.device D) s
  holds : Holds g V (s.device D)

variable {g : Geometry} {table : ℕ → DiskInode} {V : Volume} {m m' : ℕ → Block} {i : ℕ}
  {bytes : List UInt8} {D : DeviceId} {used : List (ℕ × Bool)} {s : Storage}

theorem sum_map_set {α : Type} (f : α → ℕ) {l : List α} {i : ℕ} {a : α} (h : l[i]? = some a) (b : α) :
    ((l.set i b).map f).sum + f a = (l.map f).sum + f b := by
  induction l generalizing i with
  | nil => simp at h
  | cons c l ih =>
    cases i with
    | zero =>
      obtain rfl : c = a := by simpa using h
      simp only [List.set_cons_zero, List.map_cons, List.sum_cons]
      omega
    | succ i =>
      have hi := ih (i := i) (by simpa using h)
      simp only [List.set_cons_succ, List.map_cons, List.sum_cons]
      omega

theorem blocksUsed_set (hi : V[i]? = some bytes) (bytes' : List UInt8) :
    blocksUsed (V.set i bytes') + DiskInode.refsLength (blocksFor bytes.length) =
      blocksUsed V + DiskInode.refsLength (blocksFor bytes'.length) :=
  sum_map_set _ hi bytes'

/-- A shorter file fits as well. -/
theorem Volume.Fits.shorter {bytes'' : List UInt8} (hi : V[i]? = some bytes)
    (h : Volume.Fits g (V.set i bytes'')) (bytes' : List UInt8) (hle : bytes'.length ≤ bytes''.length) :
    Volume.Fits g (V.set i bytes') := by
  have hlt := (List.getElem?_eq_some_iff.mp hi).1
  refine ⟨by simpa using h.inodes, fun b hb ↦ ?_, ?_⟩
  · obtain ⟨j, hj⟩ := List.getElem?_of_mem hb
    by_cases hji : i = j
    · subst hji
      rw [List.getElem?_set_self hlt, Option.some.injEq] at hj
      subst hj
      exact hle.trans (h.short _ (List.mem_of_getElem? (List.getElem?_set_self hlt)))
    · rw [List.getElem?_set_ne hji, ← List.getElem?_set_ne (a := bytes'') hji] at hj
      exact h.short b (List.mem_of_getElem? hj)
  · have hspace := h.space
    have hsum := blocksUsed_set hi bytes'
    have hsum' := blocksUsed_set hi bytes''
    have hmono := DiskInode.refsLength_mono (DiskInode.blocksFor_mono hle)
    omega

theorem Rep.length_owned (h : Rep g table V m) : (owned table m (List.range V.length)).length =
    blocksUsed V := by
  rw [owned, List.length_flatMap, blocksUsed]
  congr 1
  refine List.ext_getElem (by simp) fun j hj _ ↦ ?_
  have hlt : j < V.length := by simpa using hj
  simp only [List.getElem_map, List.getElem_range]
  exact (h.files j V[j] (List.getElem?_eq_getElem hlt)).length_blocks

/-- What a device holds has fitted. -/
theorem Rep.fits (h : Rep g table V m) : Volume.Fits g V where
  inodes := h.inodes
  short b hb := by
    obtain ⟨i, hi⟩ := List.getElem?_of_mem hb
    exact (h.files i b hi).short
  space := by
    rw [← h.length_owned]
    exact h.space.length_le h.nodup

/-! ## Closures over an inode -/

attribute [local instance] threeHeld

theorem Rep.lt_inodes (h : Rep g table V m) (hi : V[i]? = some bytes) : i < g.inodes :=
  (Rep.lt_length hi).trans_le h.inodes

theorem lt_of_used (hi : i < g.inodes) (b : Bool) :
    ∀ id ∈ [(g.inodeStart + i / 4, b)].map Prod.fst, id < g.dataBitmapStart := by
  intro id hid
  obtain rfl : id = g.inodeStart + i / 4 := by simpa using hid
  exact inodeBlock_lt hi

/-- A closure over an inode reads it as it is on the device. -/
theorem reads_readDiskInode {W : Type} {f : DiskInode → Exec Storage W} {w : W} (i : ℕ)
    (hf : Reads D (f (inodeAt g m i)) [(g.inodeStart + i / 4, false)] m w) :
    Reads D ((g.inode D i).readDiskInode f) [] m w :=
  reads_readBlock (by simp) (by decide) (size_diskInode i) hf

/-- What a closure makes of an inode is on the device afterwards. -/
theorem does_modifyDiskInode {W : Type} {f : DiskInode → Exec Storage (W × DiskInode)} {w : W}
    {d : DiskInode} (hi : i < g.inodes)
    (hf : Does D (f (inodeAt g m i)) [(g.inodeStart + i / 4, true)] m (w, d) m')
    (hrep : Rep g (Function.update (inodeAt g m) i d) V m')
    (hsame : ∀ id < g.dataBitmapStart, m' id = m id) :
    ∃ m'', Does D ((g.inode D i).modifyDiskInode f) [] m w m'' ∧ Holds g V m'' ∧
      (∀ j < g.inodes, inodeAt g m'' j = Function.update (inodeAt g m) i d j) ∧
      ∀ id, g.dataBitmapStart ≤ id → m'' id = m' id := by
  refine ⟨_, does_modifyBlock (by simp) (by decide) (size_diskInode i) hf, hrep.store hsame hi,
    fun j hj ↦ ?_, fun id hid ↦ Function.update_of_ne ?_ _ _⟩
  · rw [Geometry.inode, inodeAt_write]
    by_cases hji : j = i
    · rw [hji, Function.update_self, Function.update_self]
    · rw [Function.update_of_ne hji, Function.update_of_ne hji, inodeAt, hsame _ (inodeBlock_lt hj), inodeAt]
  · have hblock : (g.inode D i).blockId < g.dataBitmapStart := inodeBlock_lt hi
    omega

namespace Ready

/-- What only reads leaves the storage ready. -/
theorem returns_of_reads {W : Type} {x : Exec Storage W} {w : W} (h : Ready g D V s)
    (hx : Reads D x [] (s.device D) w) : ∃ s', x.Returns s w s' ∧ Ready g D V s' ∧ HoldsAtMost 3 s s' := by
  obtain ⟨s', hret, hview, -, hheld, hdevice⟩ := hx s h.view
  have hsame : s'.device D = s.device D := hdevice rfl
  exact ⟨s', hret, ⟨by rwa [hsame], by rw [hsame]; exact h.holds⟩, hheld⟩

/-- What a modification has come to is on the device after it has been synced. -/
theorem returns_of_does {W : Type} {x : Exec Storage W} {w : W} {V' : Volume} (h : Ready g D V s)
    (hx : Does D x [] (s.device D) w m') (hholds : Holds g V' m') :
    ∃ s₁ s', x.Returns s w s₁ ∧ blockCacheSyncAll.Returns s₁ () s' ∧ Ready g D V' s' ∧
      HoldsAtMost 3 s s' ∧ s'.device D = m' := by
  obtain ⟨s₁, hret, hview, -, hheld⟩ := hx s h.view
  obtain ⟨s', hsync, hview', hheld', hdevice⟩ := hview.syncAll
  exact ⟨s₁, s', hret, hsync, ⟨by rwa [hdevice], by rwa [hdevice]⟩,
    hheld.trans (hheld'.mono (Nat.zero_le _)), hdevice⟩

end Ready

/-! ## Reading, writing and clearing -/

/-- What a buffer holds after some bytes have been read into it from an offset on. -/
def readInto (bytes : List UInt8) (offset : ℕ) (buf : List UInt8) : List UInt8 :=
  (bytes.drop offset).take buf.length ++ buf.drop (bytes.length - offset)

theorem IsFile.reads_readAt [HeldLimit] {d : DiskInode} {t : DiskInodeType} (h : IsFile d m t bytes) (offset : ℕ)
    (buf : List UInt8) (hfree : ∀ x ∈ d.blocks m, x.toNat ∉ used.map Prod.fst)
    (hroom : used.length < HeldLimit.limit) :
    Reads D (d.readAt offset buf D) used m
      (min buf.length (bytes.length - offset), readInto bytes offset buf) := by
  have hn := h.toNat_dataBlocks
  have hend := DiskInode.le_blocksFor bytes.length
  have hread : Reads D (d.readAt offset buf D) used m _ := DiskInode.reads_readAt
    (n := d.dataBlocks.toNat) (by rw [h.size, hn]; exact hend)
    (by rw [hn]; exact DiskInode.blocksFor_le h.short) hfree hroom
  rw [h.size] at hread
  have hbytes : ((List.range (min buf.length (bytes.length - offset))).map fun k ↦
      d.byte m (offset + k)) = (bytes.drop offset).take buf.length := by
    refine List.ext_getElem (by simp) fun k hk _ ↦ ?_
    have hk' : k < min buf.length (bytes.length - offset) := by simpa using hk
    have hlt : offset + k < bytes.length := by omega
    rw [List.getElem_map, List.getElem_range, h.data _ (by rw [hn]; omega), List.getElem_take,
      List.getElem_drop, List.getD_eq_getElem _ _ hlt]
  have hdrop : buf.drop (min buf.length (bytes.length - offset)) =
      buf.drop (bytes.length - offset) := by
    rcases le_total buf.length (bytes.length - offset) with hle | hle
    · rw [Nat.min_eq_left hle, List.drop_length, List.drop_of_length_le hle]
    · rw [Nat.min_eq_right hle]
  rwa [hbytes, hdrop] at hread

namespace Ready

/-- **Reading a file** gives its bytes. -/
theorem readAt (h : Ready g D V s) (hi : V[i]? = some bytes) (offset : ℕ) (buf : List UInt8) :
    ∃ s', ((g.inode D i).readAt offset buf).Returns s
      (min buf.length (bytes.length - offset), readInto bytes offset buf) s' ∧ Ready g D V s' ∧
      HoldsAtMost 3 s s' := by
  refine h.returns_of_reads (reads_readDiskInode i ?_)
  have hlt := h.holds.lt_inodes hi
  exact (h.holds.files i bytes hi).reads_readAt offset buf
    (fun x hx ↦ Rep.not_mem_of_area (h.holds.blocks_area hi x hx) (lt_of_used hlt false)) (by simp)

end Ready

/-- Writing over bytes that have been padded where needed. -/
theorem overlay_padded (bytes : List UInt8) (offset : ℕ) (buf : List UInt8) :
    overlay (padded bytes (offset + buf.length)) offset buf = overlay bytes offset buf := by
  simp only [overlay, length_padded, getD_padded, max_assoc, max_self]

theorem overlay_nil {bytes : List UInt8} {offset : ℕ} (h : offset ≤ bytes.length) :
    overlay bytes offset [] = bytes := by
  refine List.ext_getElem (by simpa using h) fun k hk hk' ↦ ?_
  rw [← List.getD_eq_getElem _ 0 hk, ← List.getD_eq_getElem _ 0 hk', getD_overlay, if_neg (by simp)]

/-- The block of the first byte is there when a byte is written. -/
theorem div_lt_of_ne_nil (size offset : ℕ) {buf : List UInt8} (hbuf : buf ≠ []) :
    offset / blockSz < blocksFor (max size (offset + buf.length)) := by
  have hpos : 0 < buf.length := List.length_pos_iff.mpr hbuf
  have hlt : offset < blocksFor (max size (offset + buf.length)) * blockSz :=
    (by omega : offset < max size (offset + buf.length)).trans_le (DiskInode.le_blocksFor _)
  exact (Nat.div_lt_iff_lt_mul (by decide)).mpr hlt

namespace Rep

/-- **Growing an inode** where it has to. -/
theorem does_grow [HeldLimit] (h : Rep g table V m) (hi : V[i]? = some bytes) {self : Inode} (size : ℕ)
    (hfs : self.fs = g.efs D) (hdev : self.blockDevice = D)
    (hfits : Volume.Fits g (V.set i (padded bytes size)))
    (hused : ∀ id ∈ used.map Prod.fst, id < g.dataBitmapStart) (hshort : used.length + 1 < HeldLimit.limit) :
    ∃ d' m', Does D (self.increaseSize (UInt32.ofNat size) (table i)) used m d' m' ∧
      Rep g (Function.update table i d') (V.set i (padded bytes size)) m' ∧
      ∀ id < g.dataBitmapStart, m' id = m id := by
  have hlt := lt_length hi
  have hshort' := hfits.short _ (List.mem_of_getElem? (List.getElem?_set_self hlt))
  rw [length_padded] at hshort'
  have hmax : size ≤ maxSize := (le_max_right _ _).trans hshort'
  by_cases hinside : size < bytes.length
  · -- the bytes are there already
    have hsmall : UInt32.ofNat size < (table i).size := by
      rw [UInt32.lt_iff_toNat_lt, toNat_ofNat_size hmax, (h.files i bytes hi).size]
      exact hinside
    refine ⟨table i, m, ?_, ?_, fun _ _ ↦ rfl⟩
    · rw [Inode.increaseSize, if_pos hsmall]
      exact does_pure _
    · obtain ⟨_, rfl⟩ := List.getElem?_eq_some_iff.mp hi
      rwa [Function.update_eq_self, padded_of_le hinside.le, List.set_getElem_self]
  · have hle : bytes.length ≤ size := Nat.le_of_not_lt hinside
    have hspace := hfits.space
    have hsum := blocksUsed_set hi (padded bytes size)
    rw [length_padded, Nat.max_eq_right hle] at hsum
    have hmono := DiskInode.refsLength_mono (DiskInode.blocksFor_mono hle)
    exact h.does_increaseSize hi hfs hdev hle hmax (by rw [h.length_owned]; omega) hused hshort

/-- **Writing to an inode**, which grows where it has to. -/
theorem does_growWrite [HeldLimit] (h : Rep g table V m) (hi : V[i]? = some bytes) {self : Inode} {offset : ℕ}
    {buf : List UInt8} (hfs : self.fs = g.efs D) (hdev : self.blockDevice = D)
    (hstart : offset / blockSz < blocksFor (max bytes.length (offset + buf.length)))
    (hfits : Volume.Fits g (V.set i (overlay bytes offset buf)))
    (hused : ∀ id ∈ used.map Prod.fst, id < g.dataBitmapStart) (hshort : used.length + 1 < HeldLimit.limit) :
    ∃ d' m', Does D (do
        let d ← self.increaseSize (UInt32.ofNat (offset + buf.length)) (table i)
        let n ← d.writeAt offset buf D
        pure (n, d)) used m (buf.length, d') m' ∧
      Rep g (Function.update table i d') (V.set i (overlay bytes offset buf)) m' ∧
      ∀ id < g.dataBitmapStart, m' id = m id := by
  have hlt := lt_length hi
  obtain ⟨d₁, m₁, hm₁, hrep₁, hlow₁⟩ := h.does_grow (D := D) hi (offset + buf.length) hfs hdev
    (hfits.shorter hi _ (by rw [length_overlay, length_padded])) hused hshort
  have hpadded : (V.set i (padded bytes (offset + buf.length)))[i]? =
      some (padded bytes (offset + buf.length)) := List.getElem?_set_self hlt
  obtain ⟨m', hm', hrep, hlow⟩ := hrep₁.does_writeAt (D := D) hpadded offset buf (by rwa [length_padded])
    (by rw [length_padded]; exact le_max_right _ _) hused hshort
  rw [Function.update_self] at hm'
  rw [overlay_padded, List.set_set] at hrep
  exact ⟨d₁, m', hm₁.bind (hm'.bind (does_pure _)), hrep, fun id hid ↦ (hlow id hid).trans (hlow₁ id hid)⟩

end Rep

namespace Ready

/-- **Writing a file** lays the bytes over the old ones. -/
theorem writeAt (h : Ready g D V s) (hi : V[i]? = some bytes) {offset : ℕ} {buf : List UInt8}
    (hstart : offset / blockSz < blocksFor (max bytes.length (offset + buf.length)))
    (hfits : Volume.Fits g (V.set i (overlay bytes offset buf))) :
    ∃ s', ((g.inode D i).writeAt offset buf).Returns s buf.length s' ∧
      Ready g D (V.set i (overlay bytes offset buf)) s' ∧ HoldsAtMost 3 s s' := by
  have hlt := h.holds.lt_inodes hi
  obtain ⟨d', m', hm', hrep, hlow⟩ := h.holds.does_growWrite hi
    (show (g.inode D i).fs = g.efs D from rfl) rfl hstart hfits (lt_of_used hlt true) (by simp)
  obtain ⟨m'', hm'', hholds, -⟩ := does_modifyDiskInode (f := fun d ↦ do
    let d ← (g.inode D i).increaseSize (UInt32.ofNat (offset + buf.length)) d
    let n ← d.writeAt offset buf D
    pure (n, d)) hlt hm' hrep hlow
  obtain ⟨s₁, s', hret, hsync, hready, hheld, -⟩ := h.returns_of_does hm'' hholds
  exact ⟨s', hret.bind (hsync.bind (returns_pure.mpr ⟨rfl, rfl⟩)), hready, hheld⟩

/-- **Clearing a file** leaves it without bytes, and gives back its blocks and no others. -/
theorem clear (h : Ready g D V s) (hi : V[i]? = some bytes) :
    ∃ s', (g.inode D i).clear.Returns s () s' ∧ Ready g D (V.set i []) s' ∧ HoldsAtMost 3 s s' ∧
      ((inodeAt g (s'.device D) i).blocks (s'.device D) = []) ∧
      ∀ j < V.length, j ≠ i → (inodeAt g (s'.device D) j).blocks (s'.device D) =
        (inodeAt g (s.device D) j).blocks (s.device D) := by
  have hlt := h.holds.lt_inodes hi
  obtain ⟨d', m', hm', hrep, hlow, hblocks, hothers⟩ := h.holds.does_clear (D := D) hi (lt_of_used hlt true)
    (by simp)
  obtain ⟨m'', hm'', hholds, hinodes, hdata⟩ := does_modifyDiskInode (f := fun d ↦ do
    let r ← d.clearSize D
    assert (r.1.length = (DiskInode.totalBlocks d.size).toNat)
    Inode.deallocBlocks (g.efs D) r.1
    pure ((), r.2)) hlt hm' hrep hlow
  obtain ⟨s₁, s', hret, hsync, hready, hheld, hdevice⟩ := h.returns_of_does hm'' hholds
  have hsame : ∀ j < V.length, (inodeAt g m'' j).blocks m'' =
      (Function.update (inodeAt g (s.device D)) i d' j).blocks m' := by
    intro j hj
    rw [hinodes j (hj.trans_le h.holds.inodes)]
    refine blocks_of_frame fun x hx ↦ hdata _ ?_
    have hx' : x ∈ owned (Function.update (inodeAt g (s.device D)) i d') m'
        (List.range (V.set i []).length) :=
      List.mem_flatMap.mpr ⟨j, List.mem_range.mpr (by rwa [List.length_set]), hx⟩
    have hareas := g.areas
    have harea := (hrep.space.area x hx').1
    omega
  refine ⟨s', hret.bind hsync, hready, hheld, ?_, fun j hj hji ↦ ?_⟩
  · rw [hdevice, hsame i (Rep.lt_length hi), Function.update_self, hblocks]
  · rw [hdevice, hsame j hj, Function.update_of_ne hji, hothers j hj hji]

end Ready

end AgentOS.Fs
