import Mathlib
import AgentOS.Fs.Volume

/-!
# The blocks of an inode

An inode is grown step by step, each time with as many blocks as `blocks_num_needed` asks for. Whatever the
steps are, all the blocks it is given end up in it, in order, and `clear_size` gives back just these.
-/

namespace AgentOS.Fs

open Exec

attribute [local instance] wholeCache

namespace DiskInode

/-- The number of index blocks that are taken right before a data block. -/
def indexCount (j : ℕ) : ℕ :=
  if j = 28 then 1 else if j = 156 then 2 else if 156 < j ∧ (j - 156) % 128 = 0 then 1 else 0

theorem length_indexAt (d : DiskInode) (E : UInt32 → ℕ → UInt32) (j : ℕ) :
    (d.indexAt E j).length = indexCount j := by
  unfold indexAt indexCount
  split_ifs <;> rfl

variable {d d' : DiskInode} {D : DeviceId} {used used' : List (ℕ × Bool)} {l v : List UInt32}
  {s s' : Storage} {n newSize : UInt32}

/-- An inode that has been grown from empty, with the blocks it has been given since. The calls get distinct
blocks that are not in use. Between two calls other blocks may be written to, and the inode may be cleared. -/
inductive Reached (D : DeviceId) : List (ℕ × Bool) → DiskInode → List UInt32 → Storage → Prop where
  | empty {used : List (ℕ × Bool)} {d : DiskInode} {s : Storage} : View D used (s.content D) s →
      used.length < 14 → d.size = 0 → Reached D used d [] s
  | grow {used : List (ℕ × Bool)} {d d' : DiskInode} {l v : List UInt32} {s s' : Storage}
      {newSize n : UInt32} : Reached D used d l s → newSize.toNat ≤ maxSize →
      (d.blocksNumNeeded newSize).Returns s n s → v.length = n.toNat → (l ++ v).Nodup →
      (∀ x ∈ v, x.toNat ∉ used.map Prod.fst) → (d.increaseSize newSize v D).Returns s d' s' →
      Reached D used d' (l ++ v) s'
  | clear {used : List (ℕ × Bool)} {d d' : DiskInode} {l ids : List UInt32} {s s' : Storage} :
      Reached D used d l s → (d.clearSize D).Returns s (ids, d') s' → Reached D used d' [] s'
  | elsewhere {used used' : List (ℕ × Bool)} {d : DiskInode} {l : List UInt32} {s s' : Storage} :
      Reached D used d l s → View D used' (s'.content D) s' → used'.length < 14 →
      (∀ x ∈ l, x.toNat ∉ used'.map Prod.fst) →
      (∀ x ∈ d.indexBlocks (entriesOf (s.content D)) d.dataBlocks.toNat,
        s'.content D x.toNat = s.content D x.toNat) →
      Reached D used' d l s'

/-- The blocks of the inode are those it has been given. -/
structure Accounts (D : DeviceId) (used : List (ℕ × Bool)) (d : DiskInode) (l : List UInt32) (s : Storage) :
    Prop where
  view : View D used (s.content D) s
  room : used.length < 14
  short : d.size.toNat ≤ maxSize
  blocks : d.blocks (s.content D) = l
  nodup : l.Nodup
  free : ∀ x ∈ l, x.toNat ∉ used.map Prod.fst

theorem blocks_eq_nil (h : d.size = 0) (m : ℕ → Block) : d.blocks m = [] := by
  rw [DiskInode.blocks, dataBlocks, h]
  rfl

/-- `blocks_num_needed` asks for what the new size takes more. -/
theorem returns_blocksNumNeeded (hle : d.size ≤ newSize) (hmax : newSize.toNat ≤ maxSize) :
    ∃ n, (d.blocksNumNeeded newSize).Returns s n s ∧
      refsLength d.dataBlocks.toNat + n.toNat = refsLength (dataBlocksOf newSize).toNat := by
  have hle' : d.size.toNat ≤ newSize.toNat := hle
  have hold := toNat_totalBlocks (hle'.trans hmax)
  have hnew := toNat_totalBlocks hmax
  have hmono := refsLength_mono (blocksFor_mono hle')
  refine ⟨_, (returns_assert_of hle s).bind (returns_pure.mpr ⟨rfl, rfl⟩), ?_⟩
  rw [UInt32.toNat_sub_of_le _ _ (by rw [UInt32.le_iff_toNat_le, hold, hnew]; exact hmono), hold, hnew,
    dataBlocks, toNat_dataBlocksOf (hle'.trans hmax), toNat_dataBlocksOf hmax]
  omega

/-- **Growing** takes all the blocks. -/
theorem Accounts.increaseSize (h : Accounts D used d l s) (hle : d.size ≤ newSize)
    (hmax : newSize.toNat ≤ maxSize)
    (hv : refsLength d.dataBlocks.toNat + v.length = refsLength (dataBlocksOf newSize).toNat)
    (hnodup : (l ++ v).Nodup) (hfree : ∀ x ∈ v, x.toNat ∉ used.map Prod.fst) :
    ∃ d' s', (d.increaseSize newSize v D).Returns s d' s' ∧ Accounts D used d' (l ++ v) s' ∧
      d'.size = newSize := by
  have hle' : d.size.toNat ≤ newSize.toNat := hle
  have hblocks : d.refs (entriesOf (s.content D)) d.dataBlocks.toNat = l := h.blocks
  have hfree' : ∀ x ∈ l ++ v, x.toNat ∉ used.map Prod.fst := fun x hx ↦
    (List.mem_append.mp hx).elim (h.free x) (hfree x)
  have hgrow : d.dataBlocks.toNat ≤ (dataBlocksOf newSize).toNat := by
    rw [dataBlocks, toNat_dataBlocksOf h.short, toNat_dataBlocksOf hmax]
    exact blocksFor_mono hle'
  have hbound : (dataBlocksOf newSize).toNat ≤ indirect2Bound := by
    rw [toNat_dataBlocksOf hmax]
    exact blocksFor_le hmax
  obtain ⟨d', m', hdoes, hgrown⟩ := does_increaseSize (D := D) (m := s.content D) (v := v) hgrow hbound
    ((Nat.succ_lt_succ h.room).trans (by decide)) (by rwa [hblocks]) (by rw [List.length_append, length_refs, hv]) (by rwa [hblocks])
  obtain ⟨s', hret, hview, -⟩ := hdoes s h.view
  have hcontent : s'.content D = m' := hview.content
  have hsize : d'.size = newSize := hgrown.size
  refine ⟨d', s', hret, ⟨by rwa [hcontent], h.room, by rwa [hsize], ?_, hnodup, hfree'⟩, hsize⟩
  rw [DiskInode.blocks, dataBlocks, hsize, hcontent, hgrown.refs, hblocks]

/-- **Clearing** gives the blocks back. -/
theorem Accounts.clearSize (h : Accounts D used d l s) :
    ∃ d' s', (d.clearSize D).Returns s (l, d') s' ∧ Accounts D used d' [] s' := by
  have hblocks : d.refs (entriesOf (s.content D)) d.dataBlocks.toNat = l := h.blocks
  obtain ⟨d', hdoes, hsize, -⟩ := does_clearSize (D := D) (d := d) (m := s.content D)
    (by
      rw [dataBlocks, toNat_dataBlocksOf h.short]
      exact blocksFor_le h.short)
    ((Nat.succ_lt_succ h.room).trans (by decide)) (by rw [hblocks]; exact h.nodup) (by rw [hblocks]; exact h.free)
  rw [hblocks] at hdoes
  obtain ⟨s', hret, hview, -⟩ := hdoes s h.view
  refine ⟨d', s', hret, by rwa [hview.content], h.room, by rw [hsize]; exact Nat.zero_le _,
    blocks_eq_nil hsize _, List.nodup_nil, by simp⟩

theorem Accounts.elsewhere (h : Accounts D used d l s) (hview : View D used' (s'.content D) s')
    (hroom : used'.length < 14) (hfree : ∀ x ∈ l, x.toNat ∉ used'.map Prod.fst)
    (hframe : ∀ x ∈ d.indexBlocks (entriesOf (s.content D)) d.dataBlocks.toNat,
      s'.content D x.toNat = s.content D x.toNat) : Accounts D used' d l s' where
  view := hview
  room := hroom
  short := h.short
  blocks := (refs_congr (pieces_of_frame hframe)).trans h.blocks
  nodup := h.nodup
  free := hfree

theorem Reached.accounts (h : Reached D used d l s) : Accounts D used d l s := by
  induction h with
  | empty hview hroom hsize =>
    exact ⟨hview, hroom, by rw [hsize]; exact Nat.zero_le _, blocks_eq_nil hsize _, List.nodup_nil, nofun⟩
  | grow _ hmax hneeded hlength hnodup hfree hret ih =>
    obtain ⟨_, _, hassert, -⟩ := returns_bind.mp hneeded
    have hle := (returns_assert.mp hassert).1
    obtain ⟨n, hn, hsum⟩ := returns_blocksNumNeeded (s := _) hle hmax
    obtain ⟨rfl, -⟩ := hneeded.det hn
    obtain ⟨d', s', hret', haccounts, -⟩ := ih.increaseSize hle hmax (hlength ▸ hsum) hnodup hfree
    obtain ⟨rfl, rfl⟩ := hret'.det hret
    exact haccounts
  | clear _ hret ih =>
    obtain ⟨d', s', hret', haccounts⟩ := ih.clearSize
    obtain ⟨heq, rfl⟩ := hret'.det hret
    obtain ⟨-, rfl⟩ := Prod.mk.inj heq
    exact haccounts
  | elsewhere _ hview hroom hfree hframe ih => exact ih.elsewhere hview hroom hfree hframe

/-! ## Which block goes where -/

/-- What comes behind the first data blocks. -/
theorem refs_add (d : DiskInode) (E : UInt32 → ℕ → UInt32) (n k : ℕ) :
    d.refs E (n + k) =
      d.refs E n ++ (List.range k).flatMap fun j ↦ d.indexAt E (n + j) ++ [d.blockId E (n + j)] := by
  rw [refs, List.range_add, List.flatMap_append, List.flatMap_map, refs]

/-- The blocks are found. -/
theorem Accounts.getBlockId (h : Accounts D used d l s) {j : UInt32} (hj : j.toNat < d.dataBlocks.toNat) :
    ∃ t, (d.getBlockId j D).Returns s (d.blockId (entriesOf (s.content D)) j.toNat) t := by
  have hblocks : d.refs (entriesOf (s.content D)) d.dataBlocks.toNat = l := h.blocks
  have hbound : d.dataBlocks.toNat ≤ indirect2Bound := by
    rw [dataBlocks, toNat_dataBlocksOf h.short]
    exact blocksFor_le h.short
  have hreads := reads_getBlockId (D := D) (d := d) (m := s.content D)
    (hj.trans_le hbound)
    (fun h28 ↦ h.free _ (hblocks ▸ indirect1_mem_refs (by omega)))
    (fun h156 ↦ ⟨h.free _ (hblocks ▸ indirect2_mem_refs (by omega)),
      h.free _ (hblocks ▸ sub_mem_refs (by omega))⟩) (h.room.trans (by decide))
  obtain ⟨t, hret, -⟩ := hreads s h.view
  exact ⟨t, hret⟩

/-- The blocks an inode had stay at the front. -/
theorem Accounts.refs_prefix {s' : Storage} (h : Accounts D used d l s) (h' : Accounts D used d' (l ++ v) s')
    (hle : d.dataBlocks.toNat ≤ d'.dataBlocks.toNat) :
    d'.refs (entriesOf (s'.content D)) d.dataBlocks.toNat = l := by
  have hblocks : d.refs (entriesOf (s.content D)) d.dataBlocks.toNat = l := h.blocks
  have hblocks' : d'.refs (entriesOf (s'.content D)) d'.dataBlocks.toNat = l ++ v := h'.blocks
  have hprefix : d'.refs (entriesOf (s'.content D)) d.dataBlocks.toNat <+: l ++ v :=
    hblocks' ▸ refs_isPrefix_of_le hle
  have hlength : (d'.refs (entriesOf (s'.content D)) d.dataBlocks.toNat).length = l.length := by
    rw [length_refs, ← hblocks, length_refs]
  exact (List.prefix_of_prefix_length_le hprefix (List.prefix_append _ _) hlength.le).eq_of_length hlength

/-- The blocks that are new to an inode: before each data block the index blocks that it needs. -/
theorem Accounts.exists_taken {s' : Storage} (h : Accounts D used d l s) (h' : Accounts D used d' (l ++ v) s')
    (hle : d.dataBlocks.toNat ≤ d'.dataBlocks.toNat) :
    ∃ taken : List (List UInt32 × UInt32), v = taken.flatMap (fun p ↦ p.1 ++ [p.2]) ∧
      taken.length = d'.dataBlocks.toNat - d.dataBlocks.toNat ∧
      ∀ k p, taken[k]? = some p → p.1.length = indexCount (d.dataBlocks.toNat + k) ∧
        ∃ t, (d'.getBlockId (UInt32.ofNat (d.dataBlocks.toNat + k)) D).Returns s' p.2 t := by
  obtain ⟨k, hk⟩ := Nat.exists_eq_add_of_le hle
  have hblocks : d'.refs (entriesOf (s'.content D)) d'.dataBlocks.toNat = l ++ v := h'.blocks
  rw [hk, refs_add, h.refs_prefix h' hle] at hblocks
  refine ⟨(List.range k).map fun j ↦ (d'.indexAt (entriesOf (s'.content D)) (d.dataBlocks.toNat + j),
    d'.blockId (entriesOf (s'.content D)) (d.dataBlocks.toNat + j)), ?_, ?_, fun j p hp ↦ ?_⟩
  · rw [List.flatMap_map]
    exact (List.append_cancel_left hblocks).symm
  · rw [List.length_map, List.length_range]
    omega
  · rw [List.getElem?_map] at hp
    obtain ⟨i, hi, rfl⟩ := Option.map_eq_some_iff.mp hp
    obtain ⟨hlt, hget⟩ := List.getElem?_eq_some_iff.mp hi
    rw [List.length_range] at hlt
    obtain rfl : j = i := by rw [← hget, List.getElem_range]
    refine ⟨length_indexAt _ _ _, ?_⟩
    have hsmall : d.dataBlocks.toNat + j < 2 ^ 32 :=
      lt_of_lt_of_le (by omega) d'.dataBlocks.toNat_lt.le
    have htoNat : (UInt32.ofNat (d.dataBlocks.toNat + j)).toNat = d.dataBlocks.toNat + j :=
      UInt32.toNat_ofNat_of_lt' hsmall
    obtain ⟨t, hret⟩ := h'.getBlockId (j := UInt32.ofNat (d.dataBlocks.toNat + j)) (by omega)
    rw [htoNat] at hret
    exact ⟨t, hret⟩

/-- **The accounting is exact** for every inode that has been grown from empty: growing takes what
`blocks_num_needed` asks for, the old data blocks stay where they are and the new ones come behind them in
order, and clearing gives back the blocks that have been taken since the inode was empty. -/
theorem accounting_exact (h : Reached D used d l s) :
    (∀ newSize, d.size ≤ newSize → newSize.toNat ≤ maxSize →
      ∃ n, (d.blocksNumNeeded newSize).Returns s n s ∧
        ∀ v, v.length = n.toNat → (l ++ v).Nodup → (∀ x ∈ v, x.toNat ∉ used.map Prod.fst) →
          ∃ d' s', (d.increaseSize newSize v D).Returns s d' s' ∧
            (∀ j : UInt32, j.toNat < d.dataBlocks.toNat → ∃ b t t',
              (d.getBlockId j D).Returns s b t ∧ (d'.getBlockId j D).Returns s' b t') ∧
            ∃ taken : List (List UInt32 × UInt32), v = taken.flatMap (fun p ↦ p.1 ++ [p.2]) ∧
              taken.length = (dataBlocksOf newSize).toNat - d.dataBlocks.toNat ∧
              ∀ k p, taken[k]? = some p → p.1.length = indexCount (d.dataBlocks.toNat + k) ∧
                ∃ t, (d'.getBlockId (UInt32.ofNat (d.dataBlocks.toNat + k)) D).Returns s' p.2 t) ∧
      ∃ ids d' s', (d.clearSize D).Returns s (ids, d') s' ∧
        ids.length = (totalBlocks d.size).toNat ∧ ids.Perm l := by
  have hs := h.accounts
  refine ⟨fun newSize hle hmax ↦ ?_, ?_⟩
  · obtain ⟨n, hn, hsum⟩ := returns_blocksNumNeeded hle hmax
    refine ⟨n, hn, fun v hlength hnodup hfree ↦ ?_⟩
    obtain ⟨d', s', hret, hs', hsize⟩ := hs.increaseSize hle hmax (hlength ▸ hsum) hnodup hfree
    have hle' : d.dataBlocks.toNat ≤ d'.dataBlocks.toNat := by
      rw [dataBlocks, dataBlocks, hsize, toNat_dataBlocksOf hs.short, toNat_dataBlocksOf hmax]
      exact blocksFor_mono hle
    have htaken := hs.exists_taken hs' hle'
    rw [show d'.dataBlocks = dataBlocksOf newSize by rw [dataBlocks, hsize]] at htaken
    refine ⟨d', s', hret, fun j hj ↦ ?_, htaken⟩
    obtain ⟨t, hold⟩ := hs.getBlockId hj
    obtain ⟨t', hnew⟩ := hs'.getBlockId (hj.trans_le hle')
    have hblock : d'.blockId (entriesOf (s'.content D)) j.toNat =
        d.blockId (entriesOf (s.content D)) j.toNat :=
      blockId_of_refs_eq ((hs.refs_prefix hs' hle').trans hs.blocks.symm) hj
    exact ⟨_, t, t', hold, hblock ▸ hnew⟩
  · obtain ⟨d', s', hret, -⟩ := hs.clearSize
    refine ⟨l, d', s', hret, ?_, List.Perm.refl l⟩
    have hblocks : d.refs (entriesOf (s.content D)) d.dataBlocks.toNat = l := hs.blocks
    rw [← hblocks, length_refs, dataBlocks, toNat_dataBlocksOf hs.short, toNat_totalBlocks hs.short]

/-- A file of 15000 bytes: 28 direct blocks, the indirect1 block, and two blocks behind it. -/
theorem accounting_exact_file : ∃ d s ids d' s',
    Reached 0 [] d ((List.range 31).map fun k ↦ UInt32.ofNat (100 + k)) s ∧
      (d.clearSize 0).Returns s (ids, d') s' ∧ ids.length = (totalBlocks d.size).toNat ∧
      ids.Perm ((List.range 31).map fun k ↦ UInt32.ofNat (100 + k)) := by
  obtain ⟨l, hl⟩ : ∃ l, l = (List.range 31).map fun k ↦ UInt32.ofNat (100 + k) := ⟨_, rfl⟩
  have hempty : Reached 0 [] (DiskInode.initializeInode .file) []
      (Storage.boot fun _ _ ↦ zeroBlock) :=
    .empty ⟨Storage.wf_boot _, nofun, rfl, rfl, List.Forall₂.nil⟩ (by decide) rfl
  have hle : (DiskInode.initializeInode .file).size ≤ 15000 := by decide
  have hmax : (15000 : UInt32).toNat ≤ maxSize := by decide
  obtain ⟨n, hn, hsum⟩ := returns_blocksNumNeeded (s := Storage.boot fun _ _ ↦ zeroBlock) hle hmax
  have hlength : l.length = n.toNat := by
    have hold : refsLength (DiskInode.initializeInode .file).dataBlocks.toNat = 0 := by decide
    have hnew : refsLength (dataBlocksOf 15000).toNat = 31 := by decide
    rw [hl, List.length_map, List.length_range]
    omega
  have hnodup : ([] ++ l).Nodup := by
    rw [hl]
    decide
  obtain ⟨d, s, hret, -, -⟩ := hempty.accounts.increaseSize (v := l) hle hmax (hlength ▸ hsum) hnodup nofun
  have hreached : Reached 0 [] d l s := hempty.grow hmax hn hlength hnodup nofun hret
  obtain ⟨-, ids, d', s', hclear, hcount, hperm⟩ := accounting_exact hreached
  subst hl
  exact ⟨d, s, ids, d', s', hreached, hclear, hcount, hperm⟩

end DiskInode

end AgentOS.Fs
