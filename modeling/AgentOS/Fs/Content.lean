import Mathlib
import AgentOS.Fs.Growth

/-!
# The bytes of an inode

The data blocks of an inode, one behind the other, are its bytes. `read_at` and `write_at` go through them
block by block.
-/

namespace AgentOS.Fs

open Exec

namespace DiskInode

variable {d : DiskInode} {m m' : ℕ → Block} {D : DeviceId} {used : List (ℕ × Bool)} {n : ℕ}

/-- A byte of the data blocks. -/
def byte (d : DiskInode) (m : ℕ → Block) (i : ℕ) : UInt8 :=
  ByteLayout.cells (m (d.blockId (entriesOf m) (i / blockSz)).toNat) (i % blockSz)

/-- As long as the index blocks stay as they are, the same blocks belong to the inode. -/
theorem pieces_of_frame (h : ∀ x ∈ d.indexBlocks (entriesOf m) n, m' x.toNat = m x.toNat) :
    ∀ j < n, d.indexAt (entriesOf m') j = d.indexAt (entriesOf m) j ∧
      d.blockId (entriesOf m') j = d.blockId (entriesOf m) j :=
  pieces_of_agree
    (fun _ _ hk ↦ congrFun (entriesOf_congr (h _ (indirect1_mem_indexBlocks (by omega)))) _)
    (fun _ ha ↦ congrFun (entriesOf_congr (h _ (indirect2_mem_indexBlocks (by omega)))) _)
    fun _ _ _ hk ↦ congrFun (entriesOf_congr (h _ (sub_mem_indexBlocks (by omega)))) _

theorem refs_of_frame (h : ∀ x ∈ d.refs (entriesOf m) n, m' x.toNat = m x.toNat) :
    d.refs (entriesOf m') n = d.refs (entriesOf m) n :=
  refs_congr (pieces_of_frame fun x hx ↦ h x (indexBlocks_subset_refs hx))

theorem byte_of_frame (h : ∀ x ∈ d.refs (entriesOf m) n, m' x.toNat = m x.toNat) {i : ℕ}
    (hi : i < n * blockSz) : d.byte m' i = d.byte m i := by
  have hj : i / blockSz < n := (Nat.div_lt_iff_lt_mul (by decide)).mpr hi
  have hblock := (pieces_of_frame (fun x hx ↦ h x (indexBlocks_subset_refs hx)) _ hj).2
  rw [byte, hblock, h _ (blockId_mem_refs hj), byte]

/-! ## Reading -/

/-- The block of some byte is found. -/
theorem reads_blockOf_of [LockRule] {start : ℕ} (hstart : start / blockSz < n) (hmax : n ≤ indirect2Bound)
    (hlockable : ∀ x ∈ d.refs (entriesOf m) n, Lockable used x.toNat) :
    Reads D (d.getBlockId (UInt32.ofNat (start / blockSz)) D) used m
      (d.blockId (entriesOf m) (start / blockSz)) := by
  have hmax' : n ≤ 28 + 128 + 128 * 128 := hmax
  have htoNat : (UInt32.ofNat (start / blockSz)).toNat = start / blockSz := by
    rw [UInt32.toNat_ofNat_of_lt']
    change _ < 4294967296
    omega
  have h := reads_getBlockId_of (d := d) (D := D) (m := m)
    (j := UInt32.ofNat (start / blockSz)) (by rw [htoNat]; exact hstart.trans_le hmax)
    (fun h28 _ ↦ hlockable _ (indirect1_mem_refs (by omega)))
    (fun h156 ↦ ⟨hlockable _ (indirect2_mem_refs (by omega)), hlockable _ (sub_mem_refs (by omega))⟩)
  rwa [htoNat] at h

theorem reads_blockOf [HeldLimit] {start : ℕ} (hstart : start / blockSz < n) (hmax : n ≤ indirect2Bound)
    (hfree : ∀ x ∈ d.refs (entriesOf m) n, x.toNat ∉ used.map Prod.fst) (hroom : used.length < HeldLimit.limit) :
    Reads D (d.getBlockId (UInt32.ofNat (start / blockSz)) D) used m
      (d.blockId (entriesOf m) (start / blockSz)) :=
  reads_blockOf_of hstart hmax fun x hx ↦ lockable_of_limit (hfree x hx) hroom

theorem endOfBlock_spec {start end_ : ℕ} (h : start ≤ end_) : start ≤ endOfBlock start end_ ∧
    endOfBlock start end_ ≤ end_ ∧ start % blockSz + (endOfBlock start end_ - start) ≤ blockSz ∧
    (endOfBlock start end_ ≠ end_ → start < endOfBlock start end_ ∧
      endOfBlock start end_ / blockSz = start / blockSz + 1) := by
  unfold endOfBlock
  simp only [blockSz]
  omega

/-- Bytes of one block, as they are in the block. -/
theorem bytes_of_block {start k : ℕ} (h : start % blockSz + k ≤ blockSz) :
    ((m (d.blockId (entriesOf m) (start / blockSz)).toNat).toList.drop (start % blockSz)).take k =
      (List.range k).map fun i ↦ d.byte m (start + i) := by
  refine List.ext_getElem ?_ fun i hi hi' ↦ ?_
  · rw [List.length_take, List.length_drop, Vector.length_toList, List.length_map, List.length_range]
    omega
  · have hk : i < k := by simpa using hi'
    have hdiv : (start + i) / blockSz = start / blockSz := by
      simp only [blockSz] at *
      omega
    have hmod : (start + i) % blockSz = start % blockSz + i := by
      simp only [blockSz] at *
      omega
    have hlt : start % blockSz + i < blockSz := by omega
    rw [List.getElem_take, List.getElem_drop, Vector.getElem_toList, List.getElem_map,
      List.getElem_range, byte, hdiv, hmod, ByteLayout.cells_of_lt _ hlt]

theorem reads_readLoop [HeldLimit] (end_ start readSize : ℕ) (buf : List UInt8) (hstart : start < end_)
    (hend : end_ ≤ n * blockSz) (hmax : n ≤ indirect2Bound)
    (hfree : ∀ x ∈ d.refs (entriesOf m) n, x.toNat ∉ used.map Prod.fst) (hroom : used.length < HeldLimit.limit)
    (hbuf : readSize + (end_ - start) ≤ buf.length) :
    Reads D (d.readLoop D end_ start (start / blockSz) readSize buf) used m
      (readSize + (end_ - start), buf.take readSize ++
        ((List.range (end_ - start)).map fun i ↦ d.byte m (start + i)) ++
        buf.drop (readSize + (end_ - start))) := by
  induction hk : end_ - start using Nat.strong_induction_on generalizing start readSize buf with
  | _ k ih =>
    subst hk
    obtain ⟨hge, hle, hblock, hnext⟩ := endOfBlock_spec hstart.le
    have hj : start / blockSz < n :=
      (Nat.div_lt_iff_lt_mul (by decide)).mpr (hstart.trans_le hend)
    rw [readLoop]
    dsimp only
    have hsrc : Reads D (readBlock D (d.blockId (entriesOf m) (start / blockSz)).toNat dataBlock 0
        fun dataBlock ↦ do
          assert (start % blockSz + (endOfBlock start end_ - start) ≤ blockSz)
          pure ((dataBlock.toList.drop (start % blockSz)).take (endOfBlock start end_ - start))) used m
        ((List.range (endOfBlock start end_ - start)).map fun i ↦ d.byte m (start + i)) := by
      refine reads_readBlock (hfree _ (blockId_mem_refs hj)) hroom (by decide) ((reads_assert hblock).bind ?_)
      rw [dataBlock, ByteLayout.read_bytes_self, bytes_of_block hblock]
      exact reads_pure _
    refine (reads_assert (by omega)).bind ((reads_blockOf hj hmax hfree hroom).bind (hsrc.bind ?_))
    generalize endOfBlock start end_ = stop at *
    by_cases hlast : stop = end_
    · subst hlast
      rw [dif_pos rfl]
      exact reads_pure _
    · obtain ⟨hlt, hnext⟩ := hnext hlast
      rw [dif_neg hlast, ← hnext]
      have hshort : (buf.take readSize ++ ((List.range (stop - start)).map fun i ↦ d.byte m (start + i)) ++
          buf.drop (readSize + (stop - start))).length = buf.length := by
        simp only [List.length_append, List.length_take, List.length_map, List.length_range,
          List.length_drop]
        omega
      have hfront : (buf.take readSize ++
          (List.range (stop - start)).map fun i ↦ d.byte m (start + i)).length =
          readSize + (stop - start) := by
        simp only [List.length_append, List.length_take, List.length_map, List.length_range]
        omega
      have hrest := ih (end_ - stop) (by omega) stop (readSize + (stop - start))
        (buf.take readSize ++ ((List.range (stop - start)).map fun i ↦ d.byte m (start + i)) ++
          buf.drop (readSize + (stop - start)))
        (by omega) (by rw [hshort]; omega) rfl
      have hsum : readSize + (stop - start) + (end_ - stop) = readSize + (end_ - start) := by omega
      have hsplit : end_ - start = stop - start + (end_ - stop) := by omega
      have hmap : ((List.range (end_ - start)).map fun i ↦ d.byte m (start + i)) =
          ((List.range (stop - start)).map fun i ↦ d.byte m (start + i)) ++
            (List.range (end_ - stop)).map fun i ↦ d.byte m (stop + i) := by
        rw [hsplit, List.range_add, List.map_append, List.map_map]
        refine congrArg (_ ++ ·) (List.map_congr_left fun i _ ↦ ?_)
        change d.byte m (start + (stop - start + i)) = _
        congr 1
        omega
      have hdrop : (buf.take readSize ++
          ((List.range (stop - start)).map fun i ↦ d.byte m (start + i)) ++
          buf.drop (readSize + (stop - start))).drop (readSize + (end_ - start)) =
          buf.drop (readSize + (end_ - start)) := by
        rw [List.drop_append, hfront, List.drop_eq_nil_of_le (by omega), List.nil_append, List.drop_drop]
        congr 1
        omega
      rw [List.take_left' hfront, hsum, hdrop] at hrest
      rw [hmap, ← List.append_assoc]
      exact hrest

/-- **Reading** gives the bytes from an offset on, as many as there are. -/
theorem reads_readAt [HeldLimit] {offset : ℕ} {buf : List UInt8} (hsize : d.size.toNat ≤ n * blockSz)
    (hmax : n ≤ indirect2Bound) (hfree : ∀ x ∈ d.refs (entriesOf m) n, x.toNat ∉ used.map Prod.fst)
    (hroom : used.length < HeldLimit.limit) :
    Reads D (d.readAt offset buf D) used m
      (min buf.length (d.size.toNat - offset),
        ((List.range (min buf.length (d.size.toNat - offset))).map fun i ↦ d.byte m (offset + i)) ++
          buf.drop (min buf.length (d.size.toNat - offset))) := by
  unfold readAt
  dsimp only
  have hcount : min (offset + buf.length) d.size.toNat - offset =
      min buf.length (d.size.toNat - offset) := by omega
  by_cases hnone : offset ≥ min (offset + buf.length) d.size.toNat
  · have hzero : min buf.length (d.size.toNat - offset) = 0 := by omega
    rw [if_pos hnone, hzero]
    exact reads_pure _
  · rw [if_neg hnone]
    have hread := reads_readLoop (D := D) (d := d) (m := m) _ offset 0 buf (Nat.lt_of_not_le hnone) ((Nat.min_le_right _ _).trans hsize) hmax hfree hroom
      (by omega)
    rw [hcount, Nat.zero_add, List.take_zero, List.nil_append] at hread
    exact hread

/-! ## Writing -/

/-- A write to the data blocks leaves the index blocks as they are. -/
theorem pieces_of_dataFrame (hnodup : (d.refs (entriesOf m) n).Nodup)
    (h : ∀ id, (∀ j < n, (d.blockId (entriesOf m) j).toNat ≠ id) → m' id = m id) :
    ∀ j < n, d.indexAt (entriesOf m') j = d.indexAt (entriesOf m) j ∧
      d.blockId (entriesOf m') j = d.blockId (entriesOf m) j := by
  refine pieces_of_frame fun x hx ↦ h _ fun j hj heq ↦ ?_
  obtain rfl := UInt32.toNat_inj.mp heq
  exact blockId_not_mem_indexBlocks hnodup hj hx

/-- What a piece of the loop of `write_at` does to a block. -/
def overwrite (start : ℕ) (src : List UInt8) (b : Block) : Block :=
  Vector.ofFn fun i : Fin blockSz ↦ if start ≤ i then src.getD (i - start) (b.get i) else b.get i

theorem cells_overwrite {start i : ℕ} (src : List UInt8) (b : Block) (hi : i < blockSz) :
    ByteLayout.cells (overwrite start src b) i =
      if start ≤ i ∧ i < start + src.length then src.getD (i - start) 0 else ByteLayout.cells b i := by
  rw [ByteLayout.cells_of_lt _ hi, overwrite, Vector.getElem_ofFn, ByteLayout.cells_of_lt _ hi]
  dsimp only
  by_cases hle : start ≤ i
  · rw [if_pos hle]
    by_cases hlt : i < start + src.length
    · have hidx : i - start < src.length := by omega
      rw [if_pos ⟨hle, hlt⟩, List.getD_eq_getElem _ _ hidx, List.getD_eq_getElem _ _ hidx]
    · rw [if_neg (by omega), List.getD_eq_default _ _ (by omega)]
      rfl
  · rw [if_neg hle, if_neg (by omega)]
    rfl

/-- Writing to one data block. -/
theorem byte_of_overwrite {start i : ℕ} {src : List UInt8} (hnodup : (d.refs (entriesOf m) n).Nodup)
    (hstart : start / blockSz < n) (hsrc : start % blockSz + src.length ≤ blockSz)
    (hi : i < n * blockSz) :
    d.byte (Function.update m (d.blockId (entriesOf m) (start / blockSz)).toNat
      (overwrite (start % blockSz) src (m (d.blockId (entriesOf m) (start / blockSz)).toNat))) i =
    if start ≤ i ∧ i < start + src.length then src.getD (i - start) 0 else d.byte m i := by
  have hj : i / blockSz < n := (Nat.div_lt_iff_lt_mul (by decide)).mpr hi
  have hblock := (pieces_of_dataFrame (d := d) hnodup
    (fun id hid ↦ Function.update_of_ne (hid _ hstart).symm
      (overwrite (start % blockSz) src (m (d.blockId (entriesOf m) (start / blockSz)).toNat)) m) _ hj).2
  rw [byte, hblock]
  by_cases heq : i / blockSz = start / blockSz
  · rw [heq, Function.update_self, cells_overwrite _ _ (Nat.mod_lt _ (by decide)), byte, heq]
    have hiff : (start % blockSz ≤ i % blockSz ∧ i % blockSz < start % blockSz + src.length) ↔
        (start ≤ i ∧ i < start + src.length) := by
      simp only [blockSz] at *
      omega
    have hsub : start ≤ i → i % blockSz - start % blockSz = i - start := by
      simp only [blockSz] at *
      omega
    by_cases hin : start ≤ i ∧ i < start + src.length
    · rw [if_pos (hiff.mpr hin), if_pos hin, hsub hin.1]
    · rw [if_neg (hiff.not.mpr hin), if_neg hin]
  · have hne : (d.blockId (entriesOf m) (i / blockSz)).toNat ≠
        (d.blockId (entriesOf m) (start / blockSz)).toNat := fun h ↦
      heq (blockId_inj hnodup hj hstart (UInt32.toNat_inj.mp h))
    have hout : ¬(start ≤ i ∧ i < start + src.length) := by
      simp only [blockSz] at *
      omega
    rw [Function.update_of_ne hne, if_neg hout, byte]

theorem does_writeLoop [HeldLimit] (end_ start writeSize : ℕ) (buf : List UInt8)
    (hnodup : (d.refs (entriesOf m) n).Nodup) (hstart : start ≤ end_) (hj : start / blockSz < n)
    (hend : end_ ≤ n * blockSz) (hmax : n ≤ indirect2Bound) (hfree : ∀ x ∈ d.refs (entriesOf m) n, x.toNat ∉ used.map Prod.fst)
    (hroom : used.length + 1 < HeldLimit.limit) (hbuf : writeSize + (end_ - start) ≤ buf.length) :
    ∃ m', Does D (d.writeLoop D end_ start (start / blockSz) writeSize buf) used m
        (writeSize + (end_ - start)) m' ∧
      (∀ id, (∀ j < n, (d.blockId (entriesOf m) j).toNat ≠ id) → m' id = m id) ∧
      ∀ i < n * blockSz, d.byte m' i =
        if start ≤ i ∧ i < end_ then buf.getD (writeSize + (i - start)) 0 else d.byte m i := by
  induction hk : end_ - start using Nat.strong_induction_on generalizing start writeSize m with
  | _ k ih =>
    subst hk
    obtain ⟨hge, hle, hblock, hnext⟩ := endOfBlock_spec hstart
    have hid : (d.blockId (entriesOf m) (start / blockSz)).toNat ∉ used.map Prod.fst :=
      hfree _ (blockId_mem_refs hj)
    rw [writeLoop]
    dsimp only
    have hsrc : ((buf.drop writeSize).take (endOfBlock start end_ - start)).length =
        endOfBlock start end_ - start := by
      rw [List.length_take, List.length_drop]
      omega
    obtain ⟨m₁, hm₁, hm₁eq⟩ : ∃ m₁, Does D (modifyBlock D
        (d.blockId (entriesOf m) (start / blockSz)).toNat dataBlock 0 fun dataBlock ↦ do
          assert (writeSize + (endOfBlock start end_ - start) ≤ buf.length)
          assert (start % blockSz + (endOfBlock start end_ - start) ≤ blockSz)
          pure ((), Vector.ofFn fun i : Fin blockSz ↦ if start % blockSz ≤ i then
            ((buf.drop writeSize).take (endOfBlock start end_ - start)).getD (i - start % blockSz) dataBlock[i]
            else dataBlock[i])) used m () m₁ ∧
        m₁ = Function.update m (d.blockId (entriesOf m) (start / blockSz)).toNat
          (overwrite (start % blockSz) ((buf.drop writeSize).take (endOfBlock start end_ - start))
            (m (d.blockId (entriesOf m) (start / blockSz)).toNat)) := by
      refine ⟨_, does_modifyBlock hid (by omega) (by decide) ((does_assert (by omega)).bind
        ((does_assert hblock).bind (does_pure _))), ?_⟩
      rw [dataBlock, ByteLayout.read_bytes_self, ByteLayout.write_bytes_self]
      rfl
    have hframe₁ : ∀ id, (∀ j < n, (d.blockId (entriesOf m) j).toNat ≠ id) → m₁ id = m id := by
      intro id hid'
      rw [hm₁eq, Function.update_of_ne (hid' _ hj).symm]
    have hpieces := pieces_of_dataFrame hnodup hframe₁
    have hbyte₁ : ∀ i < n * blockSz, d.byte m₁ i = if start ≤ i ∧ i < endOfBlock start end_ then
        buf.getD (writeSize + (i - start)) 0 else d.byte m i := by
      intro i hi
      rw [hm₁eq, byte_of_overwrite hnodup hj (by rw [hsrc]; exact hblock) hi, hsrc]
      have hstop : start + (endOfBlock start end_ - start) = endOfBlock start end_ := by omega
      rw [hstop]
      by_cases hin : start ≤ i ∧ i < endOfBlock start end_
      · have hidx : i - start < endOfBlock start end_ - start := by omega
        rw [if_pos hin, if_pos hin, List.getD_eq_getElem?_getD, List.getD_eq_getElem?_getD,
          List.getElem?_take, if_pos hidx, List.getElem?_drop]
      · rw [if_neg hin, if_neg hin]
    have hfirst : Does D (d.getBlockId (UInt32.ofNat (start / blockSz)) D) used m _ m :=
      (reads_blockOf hj hmax hfree (by omega)).does
    clear hm₁eq hsrc
    generalize endOfBlock start end_ = stop at *
    by_cases hlast : stop = end_
    · subst hlast
      refine ⟨m₁, hfirst.bind (hm₁.bind ?_), hframe₁, hbyte₁⟩
      rw [dif_pos rfl]
      exact does_pure _
    · obtain ⟨hlt, hnext⟩ := hnext hlast
      have hstop : stop < end_ := by omega
      have hrefs : d.refs (entriesOf m₁) n = d.refs (entriesOf m) n := refs_congr hpieces
      have hnodup₁ : (d.refs (entriesOf m₁) n).Nodup := by rwa [hrefs]
      have hfree₁ : ∀ x ∈ d.refs (entriesOf m₁) n, x.toNat ∉ used.map Prod.fst := by rwa [hrefs]
      obtain ⟨m', hm', hframe, hbyte⟩ := ih (end_ - stop) (by omega) stop
        (writeSize + (stop - start)) hnodup₁ hstop.le
        ((Nat.div_lt_iff_lt_mul (by decide)).mpr (hstop.trans_le hend)) hfree₁ (by omega) rfl
      refine ⟨m', hfirst.bind (hm₁.bind ?_), fun id hid' ↦ ?_, fun i hi ↦ ?_⟩
      · have hsum : writeSize + (stop - start) + (end_ - stop) = writeSize + (end_ - start) := by omega
        rw [dif_neg hlast, ← hnext, ← hsum]
        exact hm'
      · have hid₁ : ∀ j < n, (d.blockId (entriesOf m₁) j).toNat ≠ id := fun j hj' ↦ by
          rw [(hpieces j hj').2]
          exact hid' j hj'
        rw [hframe id hid₁, hframe₁ id hid']
      · rw [hbyte i hi, hbyte₁ i hi]
        by_cases hin : stop ≤ i ∧ i < end_
        · have hidx : writeSize + (stop - start) + (i - stop) = writeSize + (i - start) := by omega
          rw [if_pos hin, if_pos (by omega), hidx]
        · rw [if_neg hin]
          by_cases hin' : start ≤ i ∧ i < stop
          · rw [if_pos hin', if_pos (by omega)]
          · rw [if_neg hin', if_neg (by omega)]

/-- **Writing** replaces the bytes from an offset on, and touches no block but the data blocks. -/
theorem does_writeAt [HeldLimit] {offset : ℕ} {buf : List UInt8} (hnodup : (d.refs (entriesOf m) n).Nodup)
    (hstart : offset / blockSz < n) (hsize : offset + buf.length ≤ d.size.toNat) (hblocks : d.size.toNat ≤ n * blockSz)
    (hmax : n ≤ indirect2Bound) (hfree : ∀ x ∈ d.refs (entriesOf m) n, x.toNat ∉ used.map Prod.fst)
    (hroom : used.length + 1 < HeldLimit.limit) :
    ∃ m', Does D (d.writeAt offset buf D) used m buf.length m' ∧
      (∀ id, (∀ j < n, (d.blockId (entriesOf m) j).toNat ≠ id) → m' id = m id) ∧
      ∀ i < n * blockSz, d.byte m' i =
        if offset ≤ i ∧ i < offset + buf.length then buf.getD (i - offset) 0 else d.byte m i := by
  obtain ⟨m', hm', hframe, hbyte⟩ := does_writeLoop (D := D) (offset + buf.length)
    offset 0 buf hnodup (by omega) hstart (by omega) hmax hfree
    hroom (by omega)
  simp only [Nat.zero_add, Nat.add_sub_cancel_left] at hm' hbyte
  refine ⟨m', ?_, hframe, hbyte⟩
  unfold writeAt
  dsimp only
  rw [Nat.min_eq_left hsize]
  exact (does_assert (Nat.le_add_right _ _)).bind hm'

/-- Nothing is laid over a block. -/
theorem overwrite_nil (start : ℕ) (b : Block) : overwrite start [] b = b := by
  refine Vector.ext fun i hi ↦ ?_
  rw [overwrite, Vector.getElem_ofFn, List.getD_nil, ite_self]
  rfl

/-- **Writing nothing** writes back the block of the offset as it is. -/
theorem does_writeAt_nil [LockRule] {offset : ℕ} (hstart : offset / blockSz < n) (hsize : offset ≤ d.size.toNat)
    (hmax : n ≤ indirect2Bound) (hlockable : ∀ x ∈ d.refs (entriesOf m) n, Lockable used x.toNat) :
    Does D (d.writeAt offset [] D) used m 0 m := by
  have hend : endOfBlock offset offset = offset := by
    obtain ⟨hge, hle, -⟩ := endOfBlock_spec (le_refl offset)
    exact le_antisymm hle hge
  have hblock : offset % blockSz + 0 ≤ blockSz := (Nat.mod_lt _ (by decide)).le
  obtain ⟨m', hm', hsame⟩ : ∃ m', Does D (modifyBlock D
      (d.blockId (entriesOf m) (offset / blockSz)).toNat dataBlock 0 fun dataBlock ↦ do
        assert (0 + 0 ≤ ([] : List UInt8).length)
        assert (offset % blockSz + 0 ≤ blockSz)
        pure ((), overwrite (offset % blockSz) [] dataBlock)) used m () m' ∧ m' = m := by
    refine ⟨_, does_modifyBlock_of (hlockable _ (blockId_mem_refs hstart)) (by decide)
      ((does_assert le_rfl).bind ((does_assert hblock).bind (does_pure _))), ?_⟩
    rw [dataBlock, ByteLayout.read_bytes_self, ByteLayout.write_bytes_self, overwrite_nil,
      Function.update_eq_self]
  subst hsame
  unfold writeAt
  dsimp only
  rw [List.length_nil, Nat.add_zero, Nat.min_eq_left hsize, writeLoop, hend, dif_pos rfl, Nat.sub_self]
  exact (does_assert le_rfl).bind ((reads_blockOf_of hstart hmax hlockable).does.bind
    (hm'.bind (does_pure _)))

end DiskInode

end AgentOS.Fs
