import Mathlib
import AgentOS.Fs.Volume

/-!
# Growing, writing and clearing in a volume

What `increase_size`, `write_at` and `clear` do to the bytes of one inode, and that the blocks go on to hold
a volume.
-/

namespace AgentOS.Fs

open Exec

/-- Some bytes with others written over them. Where they leave a gap there are zeros. -/
def overlay (bytes : List UInt8) (offset : ℕ) (buf : List UInt8) : List UInt8 :=
  (List.range (max bytes.length (offset + buf.length))).map fun k ↦
    if offset ≤ k ∧ k < offset + buf.length then buf.getD (k - offset) 0 else bytes.getD k 0

@[simp] theorem length_overlay (bytes : List UInt8) (offset : ℕ) (buf : List UInt8) :
    (overlay bytes offset buf).length = max bytes.length (offset + buf.length) := by
  rw [overlay, List.length_map, List.length_range]

theorem getD_overlay (bytes : List UInt8) (offset : ℕ) (buf : List UInt8) (k : ℕ) :
    (overlay bytes offset buf).getD k 0 =
      if offset ≤ k ∧ k < offset + buf.length then buf.getD (k - offset) 0 else bytes.getD k 0 := by
  by_cases hk : k < max bytes.length (offset + buf.length)
  · rw [List.getD_eq_getElem _ _ (by rwa [length_overlay])]
    simp [overlay]
  · rw [List.getD_eq_default _ _ (by rw [length_overlay]; omega), if_neg (by omega),
      List.getD_eq_default _ _ (by omega)]

/-- Bytes written at the end are appended. -/
theorem overlay_length (bytes buf : List UInt8) : overlay bytes bytes.length buf = bytes ++ buf := by
  refine List.ext_getElem (by simp) fun k hk hk' ↦ ?_
  have hget := getD_overlay bytes bytes.length buf k
  rw [List.getD_eq_getElem _ _ hk] at hget
  rw [hget, List.getElem_append]
  rw [List.length_append] at hk'
  split_ifs with hin hlt hlt
  · omega
  · exact List.getD_eq_getElem _ _ (by omega)
  · exact List.getD_eq_getElem _ _ hlt
  · omega

/-- Some bytes and zeros behind them. -/
def padded (bytes : List UInt8) (size : ℕ) : List UInt8 :=
  bytes ++ List.replicate (size - bytes.length) 0

@[simp] theorem length_padded (bytes : List UInt8) (size : ℕ) :
    (padded bytes size).length = max bytes.length size := by
  rw [padded, List.length_append, List.length_replicate]
  omega

theorem padded_of_le {bytes : List UInt8} {size : ℕ} (h : size ≤ bytes.length) : padded bytes size = bytes := by
  rw [padded, Nat.sub_eq_zero_of_le h, List.replicate_zero, List.append_nil]

theorem getD_padded (bytes : List UInt8) (size k : ℕ) : (padded bytes size).getD k 0 = bytes.getD k 0 := by
  rw [padded]
  by_cases hk : k < bytes.length
  · rw [List.getD_append _ _ _ _ hk]
  · rw [List.getD_append_right _ _ _ _ (Nat.le_of_not_lt hk), List.getD_eq_default bytes _ (by omega)]
    by_cases hk' : k - bytes.length < size - bytes.length
    · rw [List.getD_eq_getElem _ _ (by rwa [List.length_replicate]), List.getElem_replicate]
    · exact List.getD_eq_default _ _ (by rw [List.length_replicate]; omega)

theorem toNat_ofNat_size {size : ℕ} (h : size ≤ maxSize) : (UInt32.ofNat size).toNat = size := by
  have h' : size ≤ 16540 * 512 := h
  exact UInt32.toNat_ofNat_of_lt' (by change _ < 2 ^ 32; omega)

theorem cells_zeroBlock (i : ℕ) : ByteLayout.cells zeroBlock i = 0 := by
  unfold ByteLayout.cells
  split
  · rw [zeroBlock, Vector.getElem_replicate]
  · rfl

/-- An inode that has grown has its old bytes, and zeros in the new blocks. -/
theorem IsFile.of_grown {d d' : DiskInode} {m m₁ m' : ℕ → Block} {t : DiskInodeType} {bytes : List UInt8}
    {size : ℕ} {v : List UInt32} (h : IsFile d m t bytes) (hle : bytes.length ≤ size)
    (hmax : size ≤ maxSize) (hold : ∀ x ∈ d.blocks m, m₁ x.toNat = m x.toNat)
    (hnew : ∀ x ∈ v, m₁ x.toNat = zeroBlock) (hnodup : (d.blocks m ++ v).Nodup)
    (hgrown : DiskInode.Grown { d with size := UInt32.ofNat size } m₁ (blocksFor size) (d.blocks m ++ v)
      d' m') :
    IsFile d' m' t (padded bytes size) ∧ d'.blocks m' = d.blocks m ++ v := by
  have hsize : d'.size.toNat = size := by rw [hgrown.size, toNat_ofNat_size hmax]
  have hblocks : d'.dataBlocks.toNat = blocksFor size := by
    rw [DiskInode.dataBlocks, DiskInode.toNat_dataBlocksOf (by rw [hsize]; exact hmax), hsize]
  have hrefs' : d'.blocks m' = d.blocks m ++ v := by rw [DiskInode.blocks, hblocks, hgrown.refs]
  have hnt : blocksFor bytes.length ≤ blocksFor size := DiskInode.blocksFor_mono hle
  have hn := h.toNat_dataBlocks
  have hfirst : d'.refs (entriesOf m') (blocksFor bytes.length) =
      d.refs (entriesOf m) (blocksFor bytes.length) := by
    have hinit : d'.refs (entriesOf m') (blocksFor bytes.length) <+: d.blocks m ++ v :=
      hgrown.refs ▸ DiskInode.refs_isPrefix_of_le hnt
    have hlength : (d'.refs (entriesOf m') (blocksFor bytes.length)).length = (d.blocks m).length := by
      rw [DiskInode.length_refs, h.length_blocks]
    have heq := (List.prefix_of_prefix_length_le hinit (List.prefix_append _ _)
      hlength.le).eq_of_length hlength
    rw [heq, DiskInode.blocks, hn]
  have hnodup' : (d'.refs (entriesOf m') (blocksFor size)).Nodup := by rwa [hgrown.refs]
  refine ⟨⟨hgrown.type_.trans h.type_, ?_, ?_, fun idx hidx ↦ ?_⟩, hrefs'⟩
  · rw [hsize, length_padded, Nat.max_eq_right hle]
  · rw [length_padded, Nat.max_eq_right hle]
    exact hmax
  · rw [getD_padded]
    rw [hblocks] at hidx
    have hj : idx / blockSz < blocksFor size := (Nat.div_lt_iff_lt_mul (by decide)).mpr hidx
    -- growing writes to index blocks only
    have hdata : m' (d'.blockId (entriesOf m') (idx / blockSz)).toNat =
        m₁ (d'.blockId (entriesOf m') (idx / blockSz)).toNat := by
      refine hgrown.frame _ fun x hx heq ↦ ?_
      obtain rfl := UInt32.toNat_inj.mp heq
      exact DiskInode.blockId_not_mem_indexBlocks hnodup' hj hx
    rw [DiskInode.byte, hdata]
    by_cases hjn : idx / blockSz < blocksFor bytes.length
    · have hidx' : idx < d.dataBlocks.toNat * blockSz := by
        rw [hn]
        exact (Nat.div_lt_iff_lt_mul (by decide)).mp hjn
      have hmem : d.blockId (entriesOf m) (idx / blockSz) ∈ d.blocks m :=
        DiskInode.blockId_mem_refs (by rwa [hn])
      rw [DiskInode.blockId_of_refs_eq hfirst hjn, hold _ hmem, ← h.data idx hidx', DiskInode.byte]
    · have hmem : d'.blockId (entriesOf m') (idx / blockSz) ∈ d.blocks m ++ v := by
        rw [← hgrown.refs]
        exact DiskInode.blockId_mem_refs hj
      have hnot : d'.blockId (entriesOf m') (idx / blockSz) ∉ d.blocks m := by
        rw [DiskInode.blocks, hn, ← hfirst]
        exact DiskInode.blockId_not_mem_refs hnodup' (Nat.le_of_not_lt hjn) hj
      have hend := DiskInode.le_blocksFor bytes.length
      have hbehind : bytes.length ≤ idx :=
        hend.trans ((Nat.le_div_iff_mul_le (by decide)).mp (Nat.le_of_not_lt hjn))
      rw [hnew _ ((List.mem_append.mp hmem).resolve_left hnot), cells_zeroBlock,
        List.getD_eq_default _ _ hbehind]

namespace Rep

variable {g : Geometry} {table : ℕ → DiskInode} {V : Volume} {m m' : ℕ → Block} {i : ℕ}
  {bytes : List UInt8} {D : DeviceId} {used : List (ℕ × Bool)}

/-- The blocks of an inode lie in the data area. -/
theorem blocks_area (h : Rep g table V m) (hi : V[i]? = some bytes) :
    ∀ x ∈ (table i).blocks m, g.dataStart ≤ x.toNat := fun x hx ↦
  (h.space.area x ((owned_perm table m (lt_length hi)).mem_iff.mpr (List.mem_append_left _ hx))).1

theorem blocks_nodup (h : Rep g table V m) (hi : V[i]? = some bytes) :
    ((table i).blocks m).Nodup := by
  have hnodup := (owned_perm table m (lt_length hi)).nodup_iff.mp h.nodup
  exact (List.nodup_append.mp hnodup).1

theorem not_mem_of_area {x : UInt32} (hx : g.dataStart ≤ x.toNat)
    (hused : ∀ id ∈ used.map Prod.fst, id < g.dataBitmapStart) : x.toNat ∉ used.map Prod.fst := fun hin ↦ by
  have hareas := g.areas
  have hlt := hused _ hin
  omega

/-- **Growing an inode**: there are zeros behind its bytes. -/
theorem does_increaseSize [HeldLimit] (h : Rep g table V m) (hi : V[i]? = some bytes) {self : Inode} {size : ℕ}
    (hfs : self.fs = g.efs D) (hdev : self.blockDevice = D) (hle : bytes.length ≤ size)
    (hmax : size ≤ maxSize)
    (hroom : (owned table m (List.range V.length)).length + (DiskInode.refsLength (blocksFor size) -
      DiskInode.refsLength (blocksFor bytes.length)) ≤ g.capacity)
    (hused : ∀ id ∈ used.map Prod.fst, id < g.dataBitmapStart) (hshort : used.length + 1 < HeldLimit.limit) :
    ∃ d' m', Does D (self.increaseSize (UInt32.ofNat size) (table i)) used m d' m' ∧
      Rep g (Function.update table i d') (V.set i (padded bytes size)) m' ∧
      ∀ id < g.dataBitmapStart, m' id = m id := by
  have hfile := h.files i bytes hi
  have hlt := lt_length hi
  have hareas := g.areas
  have hperm := owned_perm table m hlt
  have hsize := toNat_ofNat_size hmax
  have hn : (table i).dataBlocks.toNat = blocksFor bytes.length := hfile.toNat_dataBlocks
  have ht : (DiskInode.dataBlocksOf (UInt32.ofNat size)).toNat = blocksFor size := by
    rw [DiskInode.toNat_dataBlocksOf (by rw [hsize]; exact hmax), hsize]
  have hnt : blocksFor bytes.length ≤ blocksFor size := DiskInode.blocksFor_mono hle
  have hmono := DiskInode.refsLength_mono hnt
  -- the new blocks
  obtain ⟨v, m₁, hm₁, hlength, hnodup₁, hspace₁, hzero, hframe₁⟩ := h.space.does_allocBlocks (D := D)
    (DiskInode.refsLength (blocksFor size) - DiskInode.refsLength (blocksFor bytes.length)) h.nodup hroom
    hused (by omega)
  have hdata₁ : ∀ x ∈ v ++ owned table m (List.range V.length), m₁ x.toNat = m x.toNat := fun x hx ↦
    hframe₁ _ fun hreg ↦ Nat.not_le.mpr (Space.region_lt hreg).2 (hspace₁.area x hx).1
  generalize hR : (table i).blocks m = R at hperm
  generalize hO : owned table m ((List.range V.length).erase i) = O at hperm
  have hall : (v ++ owned table m (List.range V.length)).Perm ((R ++ v) ++ O) := by
    refine (hperm.append_left v).trans ?_
    rw [← List.append_assoc]
    exact List.perm_append_comm.append_right O
  have hRv : ∀ x ∈ R ++ v, x ∈ v ++ owned table m (List.range V.length) := fun x hx ↦
    hall.mem_iff.mpr (List.mem_append_left _ hx)
  have hnodup : ((R ++ v) ++ O).Nodup := hall.nodup_iff.mp hnodup₁
  have hold : ∀ x ∈ R, m₁ x.toNat = m x.toNat := fun x hx ↦ hdata₁ x (hRv x (List.mem_append_left _ hx))
  have hrefs₁ : (table i).refs (entriesOf m₁) (table i).dataBlocks.toNat = R := by
    rw [← hR] at hold ⊢
    exact DiskInode.refs_of_frame hold
  -- they are put behind the blocks of the inode
  obtain ⟨d', m', hm', hgrown⟩ := DiskInode.does_increaseSize (D := D) (d := table i) (m := m₁)
    (v := v) (by rw [hn, ht]; exact hnt)
    (by rw [ht]; exact DiskInode.blocksFor_le hmax) hshort
    (by rw [hrefs₁]; exact (List.nodup_append.mp hnodup).1)
    (by rw [hrefs₁, List.length_append, ← hR, hfile.length_blocks, ht, hlength]; omega)
    (by
      rw [hrefs₁]
      exact fun x hx ↦ not_mem_of_area (hspace₁.area x (hRv x hx)).1 hused)
  rw [hrefs₁, ht] at hgrown
  obtain ⟨hfile', hblocks'⟩ := hfile.of_grown (v := v) hle hmax (by rw [hR]; exact hold)
    (fun x hx ↦ (hdata₁ x (List.mem_append_left _ hx)).trans (hzero x hx))
    (by rw [hR]; exact (List.nodup_append.mp hnodup).1) (by rw [hR]; exact hgrown)
  rw [hR] at hblocks'
  -- nothing but the new blocks and the index blocks has been written to
  have hframe : ∀ id, ¬g.dataBitmap.Region id → (∀ x ∈ R ++ v, x.toNat ≠ id) → m' id = m id := by
    intro id hreg hid
    rw [hgrown.frame id fun x hx ↦ hid x ?_, hframe₁ id hreg]
    rw [← hgrown.refs]
    exact DiskInode.indexBlocks_subset_refs hx
  refine ⟨d', m', ?_, h.replace hi hfile' ?_ ?_ ?_ ?_, ?_⟩
  · have hge : (table i).size ≤ UInt32.ofNat size := by
      rw [UInt32.le_iff_toNat_le, hsize, hfile.size]
      exact hle
    have hnew : (DiskInode.totalBlocks (UInt32.ofNat size)).toNat =
        DiskInode.refsLength (blocksFor size) := by
      rw [DiskInode.toNat_totalBlocks (by rw [hsize]; exact hmax), hsize]
    have htotal : DiskInode.totalBlocks (table i).size ≤ DiskInode.totalBlocks (UInt32.ofNat size) := by
      rw [UInt32.le_iff_toNat_le, hfile.toNat_totalBlocks, hnew]
      exact hmono
    have hneeded : (DiskInode.totalBlocks (UInt32.ofNat size) - DiskInode.totalBlocks (table i).size).toNat =
        DiskInode.refsLength (blocksFor size) - DiskInode.refsLength (blocksFor bytes.length) := by
      rw [UInt32.toNat_sub_of_le _ _ htotal, hfile.toNat_totalBlocks, hnew]
    have hnumber : Does D ((table i).blocksNumNeeded (UInt32.ofNat size)) used m _ m :=
      (does_assert hge).bind (does_pure _)
    unfold Inode.increaseSize
    rw [if_neg (UInt32.not_lt.mpr hge), hfs, hdev]
    refine hnumber.bind ?_
    rw [hneeded]
    exact hm₁.bind hm'
  · intro x hx
    rw [hO] at hx
    have hmem : x ∈ owned table m (List.range V.length) := hperm.mem_iff.mpr (List.mem_append_right _ hx)
    refine hframe _ (fun hreg ↦ Nat.not_le.mpr (Space.region_lt hreg).2 (h.space.area x hmem).1)
      fun y hy heq ↦ ?_
    obtain rfl := UInt32.toNat_inj.mp heq
    exact (List.nodup_append.mp hnodup).2.2 _ hy _ hx rfl
  · intro id hid
    refine hframe id (fun hreg ↦ Nat.not_le.mpr hid (Space.region_lt hreg).1) fun x hx heq ↦ ?_
    have harea := (hspace₁.area x (hRv x hx)).1
    omega
  · rw [hblocks', hO]
    exact hnodup
  · rw [hblocks', hO]
    refine (hspace₁.frame (fun id hreg ↦ ?_) fun id hle' hid ↦ ?_).congr_mem fun b ↦ hall.mem_iff
    · refine hgrown.frame id fun x hx heq ↦ ?_
      have hmem : x ∈ R ++ v := hgrown.refs ▸ DiskInode.indexBlocks_subset_refs hx
      have harea := (hspace₁.area x (hRv x hmem)).1
      have hreg' := (Space.region_lt hreg).2
      omega
    · refine hgrown.frame id fun x hx ↦ hid x (hRv x ?_)
      rw [← hgrown.refs]
      exact DiskInode.indexBlocks_subset_refs hx
  · intro id hid
    refine hframe id (fun hreg ↦ Nat.not_le.mpr hid (Space.region_lt hreg).1) fun x hx heq ↦ ?_
    have harea := (hspace₁.area x (hRv x hx)).1
    omega

/-- **Writing to an inode**, inside of its bytes. -/
theorem does_writeAt [HeldLimit] (h : Rep g table V m) (hi : V[i]? = some bytes) (offset : ℕ) (buf : List UInt8)
    (hstart : offset / blockSz < blocksFor bytes.length) (hle : offset + buf.length ≤ bytes.length)
    (hused : ∀ id ∈ used.map Prod.fst, id < g.dataBitmapStart) (hshort : used.length + 1 < HeldLimit.limit) :
    ∃ m', Does D ((table i).writeAt offset buf D) used m buf.length m' ∧
      Rep g table (V.set i (overlay bytes offset buf)) m' ∧ ∀ id < g.dataBitmapStart, m' id = m id := by
  have hfile := h.files i bytes hi
  have hperm := owned_perm table m (lt_length hi)
  have hareas := g.areas
  have harea := h.blocks_area hi
  have hn : (table i).dataBlocks.toNat = blocksFor bytes.length := hfile.toNat_dataBlocks
  have hend := DiskInode.le_blocksFor bytes.length
  have hnodup : ((table i).refs (entriesOf m) (table i).dataBlocks.toNat).Nodup := h.blocks_nodup hi
  obtain ⟨m', hm', hframe, hbyte⟩ := DiskInode.does_writeAt (D := D) (d := table i) (m := m)
    (n := (table i).dataBlocks.toNat) hnodup (by rw [hn]; exact hstart)
    (by rw [hfile.size]; exact hle)
    (by rw [hfile.size, hn]; exact hend) (by rw [hn]; exact DiskInode.blocksFor_le hfile.short)
    (fun x hx ↦ not_mem_of_area (harea x hx) hused) hshort
  have hdata : ∀ j < (table i).dataBlocks.toNat,
      (table i).blockId (entriesOf m) j ∈ (table i).blocks m := fun j hj ↦ DiskInode.blockId_mem_refs hj
  have hlow : ∀ id < g.dataStart, m' id = m id := fun id hid ↦ hframe id fun j hj heq ↦ by
    have hj' := harea _ (hdata j hj)
    omega
  have hblocks : (table i).blocks m' = (table i).blocks m :=
    DiskInode.refs_congr (DiskInode.pieces_of_dataFrame hnodup hframe)
  have hnodup' := hperm.nodup_iff.mp h.nodup
  have hrep := h.replace hi (d := table i)
    ⟨hfile.type_, by rw [length_overlay, Nat.max_eq_left hle, hfile.size],
      by rw [length_overlay, Nat.max_eq_left hle]; exact hfile.short,
      fun idx hidx ↦ by rw [hbyte idx hidx, getD_overlay, hfile.data idx hidx]⟩
    (fun x hx ↦ hframe _ fun j hj heq ↦ by
      obtain rfl := UInt32.toNat_inj.mp heq
      exact (List.nodup_append.mp hnodup').2.2 _ (hdata j hj) _ hx rfl)
    (fun id hid ↦ hlow id (by omega)) (by rwa [hblocks])
    (by
      rw [hblocks]
      refine (h.space.frame (fun id hreg ↦ hlow id (Space.region_lt hreg).2) fun id _ hid ↦ ?_).congr_mem
        fun b ↦ hperm.mem_iff
      exact hframe id fun j hj ↦ hid _ (hperm.mem_iff.mpr (List.mem_append_left _ (hdata j hj))))
  rw [Function.update_eq_self] at hrep
  exact ⟨m', hm', hrep, fun id hid ↦ hlow id (by omega)⟩

/-- **Clearing an inode** gives back its blocks. -/
theorem does_clear [HeldLimit] (h : Rep g table V m) (hi : V[i]? = some bytes)
    (hused : ∀ id ∈ used.map Prod.fst, id < g.dataBitmapStart) (hshort : used.length + 1 < HeldLimit.limit) :
    ∃ d' m', Does D (do
        let (dataBlocksDealloc, d) ← (table i).clearSize D
        assert (dataBlocksDealloc.length = (DiskInode.totalBlocks (table i).size).toNat)
        Inode.deallocBlocks (g.efs D) dataBlocksDealloc
        pure ((), d)) used m ((), d') m' ∧
      Rep g (Function.update table i d') (V.set i []) m' ∧ (∀ id < g.dataBitmapStart, m' id = m id) ∧
      d'.blocks m' = [] ∧ ∀ j < V.length, j ≠ i → (table j).blocks m' = (table j).blocks m := by
  have hfile := h.files i bytes hi
  have hperm := owned_perm table m (lt_length hi)
  have hareas := g.areas
  have harea := h.blocks_area hi
  have hn : (table i).dataBlocks.toNat = blocksFor bytes.length := hfile.toNat_dataBlocks
  obtain ⟨d', hclear, hsize, htype⟩ := DiskInode.does_clearSize (D := D) (d := table i) (m := m)
    (by rw [hn]; exact DiskInode.blocksFor_le hfile.short) hshort (h.blocks_nodup hi)
    fun x hx ↦ not_mem_of_area (harea x hx) hused
  have hnodup := hperm.nodup_iff.mp h.nodup
  obtain ⟨m', hm', hspace, hframe⟩ := Space.does_deallocBlocks (D := D) ((table i).blocks m)
    (h.space.congr_mem fun b ↦ hperm.mem_iff) hnodup hused (by omega)
  have hzero : d'.dataBlocks.toNat = 0 := by
    rw [DiskInode.dataBlocks, hsize]
    rfl
  have hblocks : d'.blocks m' = [] := by
    rw [DiskInode.blocks, hzero]
    rfl
  have hlow : ∀ id < g.dataBitmapStart, m' id = m id := fun id hid ↦
    hframe id (fun hreg ↦ Nat.not_le.mpr hid (Space.region_lt hreg).1) fun x hx heq ↦ by
      have hx' := harea x hx
      omega
  have hothers : ∀ x ∈ owned table m ((List.range V.length).erase i), m' x.toNat = m x.toNat := by
    intro x hx
    have hmem := hperm.mem_iff.mpr (List.mem_append_right ((table i).blocks m) hx)
    refine hframe _ (fun hreg ↦ Nat.not_le.mpr (Space.region_lt hreg).2 (h.space.area x hmem).1)
      fun y hy heq ↦ ?_
    obtain rfl := UInt32.toNat_inj.mp heq
    exact (List.nodup_append.mp hnodup).2.2 _ hy _ hx rfl
  refine ⟨d', m', hclear.bind ((does_assert ?_).bind (hm'.bind (does_pure _))),
    h.replace hi ?_ hothers hlow ?_ ?_, hlow, hblocks, fun j hj hji ↦ ?_⟩
  · rw [hfile.toNat_totalBlocks]
    exact hfile.length_blocks
  · refine ⟨htype.trans hfile.type_, ?_, Nat.zero_le _, fun idx hidx ↦ ?_⟩
    · rw [hsize]
      rfl
    · rw [hzero, Nat.zero_mul] at hidx
      exact absurd hidx (Nat.not_lt_zero _)
  · rw [hblocks, List.nil_append]
    exact (List.nodup_append.mp hnodup).2.1
  · rwa [hblocks, List.nil_append]
  · exact blocks_of_frame fun x hx ↦ hothers x (List.mem_flatMap.mpr
      ⟨j, (List.mem_erase_of_ne hji).mpr (List.mem_range.mpr hj), hx⟩)

end Rep

end AgentOS.Fs
