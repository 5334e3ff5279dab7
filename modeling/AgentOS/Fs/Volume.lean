import Mathlib
import AgentOS.Fs.Content
import AgentOS.Fs.Space

/-!
# What a file system holds

To its users a file system is a list of byte arrays, one for each inode, and inode 0 is the root directory.
`Rep` says that the blocks of a device hold such a volume: the bitmaps, the inodes and their data blocks fit
together, and no block belongs to two inodes.

The inodes are taken from a table, so that a volume can be spoken about while the inode that is being
modified has not yet been written back.
-/

namespace AgentOS.Fs

open Exec

/-- The bytes of each inode. -/
abbrev Volume := List (List UInt8)

/-- The most bytes an inode has blocks for. -/
abbrev maxSize : ℕ := indirect2Bound * blockSz

/-- The data blocks for some bytes. -/
def blocksFor (size : ℕ) : ℕ := (size + 511) / 512

namespace DiskInode

theorem toNat_dataBlocksOf {size : UInt32} (h : size.toNat ≤ maxSize) :
    (dataBlocksOf size).toNat = blocksFor size.toNat := by
  have h' : size.toNat ≤ 16540 * 512 := h
  have hsum : (size + 512 - 1).toNat = size.toNat + 511 := by
    rw [UInt32.toNat_sub, UInt32.toNat_add]
    change (2 ^ 32 - 1 + (size.toNat + 512) % 2 ^ 32) % 2 ^ 32 = _
    omega
  rw [dataBlocksOf, UInt32.toNat_div, hsum]
  rfl

theorem blocksFor_le {size : ℕ} (h : size ≤ maxSize) : blocksFor size ≤ indirect2Bound := by
  have h' : size ≤ 16540 * 512 := h
  change _ ≤ 16540
  unfold blocksFor
  omega

theorem le_blocksFor (size : ℕ) : size ≤ blocksFor size * blockSz := by
  simp only [blockSz, blocksFor]
  omega

theorem blocksFor_mono {size size' : ℕ} (h : size ≤ size') : blocksFor size ≤ blocksFor size' := by
  unfold blocksFor
  omega

theorem refsLength_lt {n : ℕ} (h : n ≤ indirect2Bound) : refsLength n < 2 ^ 32 := by
  have h' : n ≤ 16540 := h
  unfold refsLength
  split_ifs <;> omega

/-- `total_blocks` counts the blocks of an inode. -/
theorem toNat_totalBlocks {size : UInt32} (h : size.toNat ≤ maxSize) :
    (totalBlocks size).toNat = refsLength (blocksFor size.toNat) := by
  have hlt := refsLength_lt (blocksFor_le h)
  have heq : (totalBlocks size) = UInt32.ofNat (refsLength (blocksFor size.toNat)) := by
    unfold totalBlocks
    rw [toNat_dataBlocksOf h]
    generalize blocksFor size.toNat = n
    dsimp only
    refine congrArg UInt32.ofNat ?_
    unfold refsLength
    by_cases h28 : 28 < n
    · by_cases h156 : 156 < n
      · rw [if_pos (show n > indirect1Bound from h156), if_pos (show n > inodeDirectCount from h28),
          if_pos h28, if_pos h156]
        change n + 1 + 1 + (n - 156 + 128 - 1) / 128 = _
        omega
      · rw [if_neg (show ¬n > indirect1Bound from h156), if_pos (show n > inodeDirectCount from h28),
          if_pos h28, if_neg h156]
    · have h156 : ¬156 < n := by omega
      rw [if_neg (show ¬n > indirect1Bound from h156), if_neg (show ¬n > inodeDirectCount from h28),
        if_neg h28, if_neg h156]
      rfl
  rw [heq, UInt32.toNat_ofNat_of_lt' hlt]

/-- The blocks of an inode. -/
def blocks (d : DiskInode) (m : ℕ → Block) : List UInt32 := d.refs (entriesOf m) d.dataBlocks.toNat

end DiskInode

/-- The inode holds these bytes, and zeros behind them. -/
structure IsFile (d : DiskInode) (m : ℕ → Block) (t : DiskInodeType) (bytes : List UInt8) : Prop where
  type_ : d.type_ = t
  size : d.size.toNat = bytes.length
  short : bytes.length ≤ maxSize
  data : ∀ i < d.dataBlocks.toNat * blockSz, d.byte m i = bytes.getD i 0

namespace IsFile

variable {d : DiskInode} {m m' : ℕ → Block} {t : DiskInodeType} {bytes : List UInt8}

theorem toNat_dataBlocks (h : IsFile d m t bytes) : d.dataBlocks.toNat = blocksFor bytes.length := by
  rw [DiskInode.dataBlocks, DiskInode.toNat_dataBlocksOf (by rw [h.size]; exact h.short), h.size]

theorem toNat_totalBlocks (h : IsFile d m t bytes) :
    (DiskInode.totalBlocks d.size).toNat = DiskInode.refsLength (blocksFor bytes.length) := by
  rw [DiskInode.toNat_totalBlocks (by rw [h.size]; exact h.short), h.size]

theorem length_blocks (h : IsFile d m t bytes) :
    (d.blocks m).length = DiskInode.refsLength (blocksFor bytes.length) := by
  rw [DiskInode.blocks, DiskInode.length_refs, h.toNat_dataBlocks]

/-- An inode does not notice what happens to other blocks. -/
theorem frame (h : IsFile d m t bytes) (hframe : ∀ x ∈ d.blocks m, m' x.toNat = m x.toNat) :
    IsFile d m' t bytes where
  type_ := h.type_
  size := h.size
  short := h.short
  data i hi := by rw [DiskInode.byte_of_frame hframe hi, h.data i hi]

end IsFile

theorem blocks_of_frame {d : DiskInode} {m m' : ℕ → Block}
    (hframe : ∀ x ∈ d.blocks m, m' x.toNat = m x.toNat) : d.blocks m' = d.blocks m :=
  DiskInode.refs_of_frame hframe

/-- The blocks of some of the inodes of a table. -/
def owned (table : ℕ → DiskInode) (m : ℕ → Block) (l : List ℕ) : List UInt32 :=
  l.flatMap fun i ↦ (table i).blocks m

/-- Inode 0 is the root directory. -/
def typeOf (i : ℕ) : DiskInodeType := if i = 0 then .directory else .file

/-- The blocks hold a volume, with the inodes of a table. -/
structure Rep (g : Geometry) (table : ℕ → DiskInode) (V : Volume) (m : ℕ → Block) : Prop where
  superBlock : SuperBlock.layout.read 0 (m 0) = g.superBlock
  inodes : V.length ≤ g.inodes
  bit : ∀ i < g.inodeBitmap.maximum, g.inodeBitmap.bit m i = decide (i < V.length)
  files : ∀ i bytes, V[i]? = some bytes → IsFile (table i) m (typeOf i) bytes
  nodup : (owned table m (List.range V.length)).Nodup
  space : Space g (owned table m (List.range V.length)) m

namespace Rep

variable {g : Geometry} {table : ℕ → DiskInode} {V : Volume} {m m' : ℕ → Block} {i : ℕ}
  {bytes : List UInt8} {d : DiskInode}

theorem owned_congr {table' : ℕ → DiskInode} {l : List ℕ}
    (h : ∀ j ∈ l, (table' j).blocks m' = (table j).blocks m) : owned table' m' l = owned table m l :=
  List.flatMap_congr h

/-- The blocks of one inode, and those of the others. -/
theorem owned_perm (table : ℕ → DiskInode) (m : ℕ → Block) {k : ℕ} (hi : i < k) :
    (owned table m (List.range k)).Perm
      ((table i).blocks m ++ owned table m ((List.range k).erase i)) :=
  (List.perm_cons_erase (List.mem_range.mpr hi)).flatMap_right _

theorem lt_length (h : V[i]? = some bytes) : i < V.length := (List.getElem?_eq_some_iff.mp h).1

/-- **One inode is replaced**, with blocks of its own, and the blocks of the others stay as they are. -/
theorem replace (h : Rep g table V m) (hi : V[i]? = some bytes) {bytes' : List UInt8}
    (hfile : IsFile d m' (typeOf i) bytes')
    (hframe : ∀ x ∈ owned table m ((List.range V.length).erase i), m' x.toNat = m x.toNat)
    (hbelow : ∀ id < g.dataBitmapStart, m' id = m id)
    (hnodup : (d.blocks m' ++ owned table m ((List.range V.length).erase i)).Nodup)
    (hspace : Space g (d.blocks m' ++ owned table m ((List.range V.length).erase i)) m') :
    Rep g (Function.update table i d) (V.set i bytes') m' := by
  have hlt := lt_length hi
  have hareas := g.areas
  have hothers : owned (Function.update table i d) m' ((List.range V.length).erase i) =
      owned table m ((List.range V.length).erase i) := by
    refine owned_congr fun j hj ↦ ?_
    have hne : j ≠ i := fun heq ↦
      (List.Nodup.not_mem_erase List.nodup_range : i ∉ (List.range V.length).erase i) (heq ▸ hj)
    rw [Function.update_of_ne hne]
    exact blocks_of_frame fun x hx ↦ hframe x (List.mem_flatMap.mpr ⟨j, hj, hx⟩)
  have hperm := owned_perm (Function.update table i d) m' hlt
  rw [hothers, Function.update_self] at hperm
  refine ⟨?_, ?_, fun j hj ↦ ?_, fun j b hj ↦ ?_, ?_, ?_⟩
  · rw [hbelow 0 (by omega), h.superBlock]
  · rw [List.length_set]
    exact h.inodes
  · rw [List.length_set, ← h.bit j hj]
    refine Bitmap.bit_congr (hbelow _ ?_)
    have hregion := Bitmap.region_block (b := g.inodeBitmap)
      ((Nat.div_lt_iff_lt_mul (by decide)).mpr hj)
    have hend : j / blockBits + 1 < 1 + g.inodeBitmapBlocks.toNat := hregion.2
    change j / blockBits + 1 < _
    unfold Geometry.dataBitmapStart
    omega
  · by_cases hji : j = i
    · subst hji
      rw [List.getElem?_set_self hlt] at hj
      rw [Function.update_self]
      exact Option.some.inj hj ▸ hfile
    · rw [List.getElem?_set_ne (Ne.symm hji)] at hj
      rw [Function.update_of_ne hji]
      refine (h.files j b hj).frame fun x hx ↦ hframe x (List.mem_flatMap.mpr ⟨j, ?_, hx⟩)
      exact (List.mem_erase_of_ne hji).mpr (List.mem_range.mpr (lt_length hj))
  · rw [List.length_set]
    exact hperm.nodup_iff.mpr hnodup
  · rw [List.length_set]
    exact hspace.congr_mem fun b ↦ hperm.mem_iff.symm

end Rep

end AgentOS.Fs
