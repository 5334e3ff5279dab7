import Mathlib
import AgentOS.Fs.Layout

/-!
# The blocks an inode refers to

The blocks of an inode, in the order in which they are allocated: the data blocks one after the other, and
before a data block the index blocks that are needed from it on. `increase_size` appends to this list, and
`clear_size` gives it back.

The entries of the index blocks are taken as a function, so that what one write does to the list can be said
without the bytes. A write changes nothing of the list before the data block it is for, because an index
block is referred to once only.
-/

namespace AgentOS.Fs

open Exec

/-- The entries of the blocks of a device, read as indirect blocks. -/
def entriesOf (m : ℕ → Block) (id : UInt32) (k : ℕ) : UInt32 :=
  (indirectBlock.read 0 (m id.toNat))[k]?.getD 0

/-- One entry of one block is replaced. -/
def setEntry (E : UInt32 → ℕ → UInt32) (id : UInt32) (k : ℕ) (v : UInt32) : UInt32 → ℕ → UInt32 :=
  Function.update E id (Function.update (E id) k v)

theorem setEntry_self (E : UInt32 → ℕ → UInt32) (id : UInt32) (k : ℕ) (v : UInt32) :
    setEntry E id k v id k = v := by
  rw [setEntry, Function.update_self, Function.update_self]

theorem setEntry_of_ne {E : UInt32 → ℕ → UInt32} {id id' : UInt32} {k k' : ℕ} {v : UInt32}
    (h : id' ≠ id ∨ k' ≠ k) : setEntry E id k v id' k' = E id' k' := by
  unfold setEntry
  by_cases hid : id' = id
  · subst hid
    rw [Function.update_self, Function.update_of_ne (h.resolve_left (by simp))]
  · rw [Function.update_of_ne hid]

namespace DiskInode

/-- The id of a data block. -/
def blockId (d : DiskInode) (E : UInt32 → ℕ → UInt32) (j : ℕ) : UInt32 :=
  if j < 28 then d.direct[j]?.getD 0
  else if j < 156 then E d.indirect1 (j - 28)
  else E (E d.indirect2 ((j - 156) / 128)) ((j - 156) % 128)

/-- The index blocks that are needed from a data block on. -/
def indexAt (d : DiskInode) (E : UInt32 → ℕ → UInt32) (j : ℕ) : List UInt32 :=
  if j = 28 then [d.indirect1]
  else if j = 156 then [d.indirect2, E d.indirect2 0]
  else if 156 < j ∧ (j - 156) % 128 = 0 then [E d.indirect2 ((j - 156) / 128)]
  else []

/-- The blocks of the first `n` data blocks, and the data blocks. -/
def refs (d : DiskInode) (E : UInt32 → ℕ → UInt32) (n : ℕ) : List UInt32 :=
  (List.range n).flatMap fun j ↦ d.indexAt E j ++ [d.blockId E j]

/-- The index blocks among them. -/
def indexBlocks (d : DiskInode) (E : UInt32 → ℕ → UInt32) (n : ℕ) : List UInt32 :=
  (List.range n).flatMap (d.indexAt E)

/-- How many they are. -/
def refsLength (n : ℕ) : ℕ :=
  n + (if 28 < n then 1 else 0) + if 156 < n then 1 + (n - 156 + 127) / 128 else 0

variable {d d' : DiskInode} {E E' : UInt32 → ℕ → UInt32} {n j : ℕ}

@[simp] theorem refs_zero : d.refs E 0 = [] := rfl

theorem refs_succ (d : DiskInode) (E : UInt32 → ℕ → UInt32) (n : ℕ) :
    d.refs E (n + 1) = d.refs E n ++ (d.indexAt E n ++ [d.blockId E n]) := by
  rw [refs, List.range_succ, List.flatMap_append, List.flatMap_singleton, refs]

theorem refs_congr (h : ∀ j < n, d'.indexAt E' j = d.indexAt E j ∧ d'.blockId E' j = d.blockId E j) :
    d'.refs E' n = d.refs E n := by
  refine List.flatMap_congr fun j hj ↦ ?_
  obtain ⟨hindex, hblock⟩ := h j (List.mem_range.mp hj)
  rw [hindex, hblock]

theorem refs_isPrefix_of_le {k : ℕ} (h : k ≤ n) : d.refs E k <+: d.refs E n := by
  induction n with
  | zero =>
    obtain rfl := Nat.le_zero.mp h
    exact List.prefix_refl _
  | succ n ih =>
    rcases Nat.le_succ_iff.mp h with hle | rfl
    · rw [refs_succ]
      exact (ih hle).trans (List.prefix_append _ _)
    · exact List.prefix_refl _

theorem length_refs (d : DiskInode) (E : UInt32 → ℕ → UInt32) (n : ℕ) :
    (d.refs E n).length = refsLength n := by
  induction n with
  | zero => rfl
  | succ n ih =>
    rw [refs_succ, List.length_append, ih, List.length_append, List.length_singleton, indexAt,
      refsLength, refsLength]
    by_cases h28 : n = 28
    · simp [h28]
    by_cases h156 : n = 156
    · simp [h156]
    rw [if_neg h28, if_neg h156]
    split_ifs <;> simp <;> omega

theorem refsLength_mono {k : ℕ} (h : k ≤ n) : refsLength k ≤ refsLength n := by
  unfold refsLength
  split_ifs <;> omega

theorem blockId_mem_refs (h : j < n) : d.blockId E j ∈ d.refs E n := by
  refine List.mem_flatMap.mpr ⟨j, List.mem_range.mpr h, ?_⟩
  exact List.mem_append_right _ (List.mem_singleton.mpr rfl)

theorem indexAt_subset_refs (h : j < n) : d.indexAt E j ⊆ d.refs E n := fun _ hb ↦
  List.mem_flatMap.mpr ⟨j, List.mem_range.mpr h, List.mem_append_left _ hb⟩

theorem indexAt_28 (d : DiskInode) (E : UInt32 → ℕ → UInt32) : d.indexAt E 28 = [d.indirect1] := by
  simp [indexAt]

theorem indexAt_156 (d : DiskInode) (E : UInt32 → ℕ → UInt32) :
    d.indexAt E 156 = [d.indirect2, E d.indirect2 0] := by
  simp [indexAt]

theorem indexAt_sub {a : ℕ} (ha : 0 < a) : d.indexAt E (156 + 128 * a) = [E d.indirect2 a] := by
  have h28 : 156 + 128 * a ≠ 28 := by omega
  have h156 : 156 + 128 * a ≠ 156 := by omega
  have hsub : 156 < 156 + 128 * a ∧ (156 + 128 * a - 156) % 128 = 0 := by omega
  have hdiv : (156 + 128 * a - 156) / 128 = a := by omega
  rw [indexAt, if_neg h28, if_neg h156, if_pos hsub, hdiv]

theorem indexAt_eq_nil (h28 : j ≠ 28) (h : j < 156 ∨ (j - 156) % 128 ≠ 0) : d.indexAt E j = [] := by
  have h156 : j ≠ 156 := by omega
  have hsub : ¬(156 < j ∧ (j - 156) % 128 = 0) := by omega
  rw [indexAt, if_neg h28, if_neg h156, if_neg hsub]

theorem indexAt_subset_indexBlocks (h : j < n) : d.indexAt E j ⊆ d.indexBlocks E n := fun _ hb ↦
  List.mem_flatMap.mpr ⟨j, List.mem_range.mpr h, hb⟩

theorem indexBlocks_subset_refs : d.indexBlocks E n ⊆ d.refs E n := by
  intro b hb
  obtain ⟨j, hj, hb⟩ := List.mem_flatMap.mp hb
  exact indexAt_subset_refs (List.mem_range.mp hj) hb

theorem indirect1_mem_indexBlocks (h : 28 < n) : d.indirect1 ∈ d.indexBlocks E n :=
  indexAt_subset_indexBlocks h (by simp [indexAt_28])

theorem indirect2_mem_indexBlocks (h : 156 < n) : d.indirect2 ∈ d.indexBlocks E n :=
  indexAt_subset_indexBlocks h (by simp [indexAt_156])

theorem sub_mem_indexBlocks {a : ℕ} (h : 156 + 128 * a < n) : E d.indirect2 a ∈ d.indexBlocks E n := by
  refine indexAt_subset_indexBlocks h ?_
  rcases Nat.eq_zero_or_pos a with rfl | ha
  · simp [indexAt_156]
  · simp [indexAt_sub ha]

theorem indirect1_mem_refs (h : 28 < n) : d.indirect1 ∈ d.refs E n :=
  indexBlocks_subset_refs (indirect1_mem_indexBlocks h)

theorem indirect2_mem_refs (h : 156 < n) : d.indirect2 ∈ d.refs E n :=
  indexBlocks_subset_refs (indirect2_mem_indexBlocks h)

theorem sub_mem_refs {a : ℕ} (h : 156 + 128 * a < n) : E d.indirect2 a ∈ d.refs E n :=
  indexBlocks_subset_refs (sub_mem_indexBlocks h)

/-- Index blocks and data blocks are what there is. -/
theorem refs_perm (d : DiskInode) (E : UInt32 → ℕ → UInt32) (n : ℕ) :
    (d.indexBlocks E n ++ (List.range n).map (d.blockId E)).Perm (d.refs E n) := by
  rw [List.map_eq_flatMap]
  exact List.flatMap_append_perm _ _ _

/-- The index blocks are different from the data blocks. -/
theorem blockId_not_mem_indexBlocks (hnodup : (d.refs E n).Nodup) (h : j < n) :
    d.blockId E j ∉ d.indexBlocks E n := by
  intro hmem
  have hall := (d.refs_perm E n).nodup_iff.mpr hnodup
  exact (List.nodup_append.mp hall).2.2 _ hmem _ (List.mem_map_of_mem (List.mem_range.mpr h)) rfl

/-- The data blocks are different from each other. -/
theorem blockId_inj {k : ℕ} (hnodup : (d.refs E n).Nodup) (hj : j < n) (hk : k < n)
    (heq : d.blockId E j = d.blockId E k) : j = k := by
  have hall := (d.refs_perm E n).nodup_iff.mpr hnodup
  exact List.inj_on_of_nodup_map (List.nodup_append.mp hall).2.1 (List.mem_range.mpr hj)
    (List.mem_range.mpr hk) heq

/-- What a data block adds to the list. -/
theorem piece_disjoint {i k : ℕ} (hnodup : (d.refs E n).Nodup) (hik : i < k) (hk : k < n) {b : UInt32}
    (hi : b ∈ d.indexAt E i ++ [d.blockId E i]) : b ∉ d.indexAt E k ++ [d.blockId E k] := by
  have hpairwise := (List.nodup_flatMap.mp hnodup).2
  have hdisjoint := List.pairwise_iff_getElem.mp hpairwise i k (by simp; omega) (by simpa using hk) hik
  simp only [List.getElem_range] at hdisjoint
  exact fun h ↦ hdisjoint hi h

/-- The indirect1 block and the indirect2 block are different, and so are the low-level indirect1 blocks
from both and from each other. -/
theorem indirect1_ne_indirect2 (hnodup : (d.refs E n).Nodup) (h : 156 < n) :
    d.indirect1 ≠ d.indirect2 := by
  have hne := piece_disjoint hnodup (show 28 < 156 by decide) h (b := d.indirect1) (by simp [indexAt_28])
  rw [indexAt_156] at hne
  exact fun heq ↦ hne (by simp [heq])

theorem mem_piece_sub (a : ℕ) :
    E d.indirect2 a ∈ d.indexAt E (156 + 128 * a) ++ [d.blockId E (156 + 128 * a)] := by
  rcases Nat.eq_zero_or_pos a with rfl | ha
  · simp [indexAt_156]
  · simp [indexAt_sub ha]

theorem sub_ne_indirect1 {a : ℕ} (hnodup : (d.refs E n).Nodup) (h : 156 + 128 * a < n) :
    E d.indirect2 a ≠ d.indirect1 := by
  have hne := piece_disjoint hnodup (show 28 < 156 + 128 * a by omega) h (b := d.indirect1)
    (by simp [indexAt_28])
  exact fun heq ↦ hne (heq ▸ mem_piece_sub a)

theorem sub_ne_indirect2 {a : ℕ} (hnodup : (d.refs E n).Nodup) (h : 156 + 128 * a < n) :
    E d.indirect2 a ≠ d.indirect2 := by
  rcases Nat.eq_zero_or_pos a with rfl | ha
  · have hpiece := (List.nodup_flatMap.mp hnodup).1 156 (List.mem_range.mpr (by omega))
    rw [indexAt_156] at hpiece
    intro heq
    simp [heq] at hpiece
  · have hne := piece_disjoint hnodup (show 156 < 156 + 128 * a by omega) h (b := d.indirect2)
      (by simp [indexAt_156])
    exact fun heq ↦ hne (heq ▸ mem_piece_sub a)

theorem sub_inj {a a' : ℕ} (hnodup : (d.refs E n).Nodup) (h : 156 + 128 * a < n) (ha : a' < a) :
    E d.indirect2 a' ≠ E d.indirect2 a := by
  have hne := piece_disjoint hnodup (show 156 + 128 * a' < 156 + 128 * a by omega) h
    (mem_piece_sub a')
  exact fun heq ↦ hne (heq ▸ mem_piece_sub a)

/-- Inodes with the same list have the same data blocks. -/
theorem blockId_of_refs_eq (h : d'.refs E' n = d.refs E n) (hj : j < n) :
    d'.blockId E' j = d.blockId E j := by
  have hinit : d'.refs E' (j + 1) <+: d.refs E n := h ▸ refs_isPrefix_of_le (by omega)
  have heq : d'.refs E' (j + 1) = d.refs E (j + 1) := by
    refine (List.prefix_of_prefix_length_le hinit (refs_isPrefix_of_le (by omega)) ?_).eq_of_length ?_
    · rw [length_refs, length_refs]
    · rw [length_refs, length_refs]
  rw [refs_succ, refs_succ] at heq
  simpa using congrArg List.getLast? heq

/-- A data block is none of the blocks for the data blocks before it. -/
theorem blockId_not_mem_refs {k : ℕ} (hnodup : (d.refs E n).Nodup) (hkj : k ≤ j) (hj : j < n) :
    d.blockId E j ∉ d.refs E k := by
  intro hmem
  have hsucc := hnodup.sublist (refs_isPrefix_of_le (show j + 1 ≤ n from hj)).sublist
  rw [refs_succ, ← List.append_assoc] at hsucc
  exact (List.nodup_append.mp hsucc).2.2 _
    (List.mem_append_left _ ((refs_isPrefix_of_le hkj).subset hmem)) _ (List.mem_singleton.mpr rfl) rfl

/-! ## One more data block -/

/-- What there is up to some data block depends on the entries for the data blocks before it only. -/
theorem pieces_of_agree (h1 : ∀ k < 128, 28 + k < n → E' d.indirect1 k = E d.indirect1 k)
    (h2 : ∀ a, 156 + 128 * a < n → E' d.indirect2 a = E d.indirect2 a)
    (h3 : ∀ a, ∀ k < 128, 156 + 128 * a + k < n →
      E' (E d.indirect2 a) k = E (E d.indirect2 a) k) :
    ∀ j < n, d.indexAt E' j = d.indexAt E j ∧ d.blockId E' j = d.blockId E j := by
  refine fun j hj ↦ ⟨?_, ?_⟩
  · by_cases h28 : j = 28
    · rw [h28, indexAt_28, indexAt_28]
    by_cases h156 : j = 156
    · have h := h2 0 (by omega)
      rw [h156, indexAt_156, indexAt_156, h]
    by_cases hsub : 156 < j ∧ (j - 156) % 128 = 0
    · have h := h2 ((j - 156) / 128) (by omega)
      rw [indexAt, indexAt, if_neg h28, if_neg h156, if_pos hsub, if_neg h28, if_neg h156, if_pos hsub, h]
    · rw [indexAt_eq_nil h28 (by omega), indexAt_eq_nil h28 (by omega)]
  · unfold blockId
    split
    · rfl
    split
    · exact h1 _ (by omega) (by omega)
    · rw [h2 _ (by omega), h3 _ _ (Nat.mod_lt _ (by decide)) (by omega)]

/-- A new direct block. -/
theorem refs_direct {c : ℕ} (hc : c < 28) (b : UInt32) :
    ({ d with direct := d.direct.set c b } : DiskInode).refs E (c + 1) = d.refs E c ++ [b] := by
  rw [refs_succ]
  congr 1
  · refine refs_congr fun j hj ↦ ⟨rfl, ?_⟩
    have hj28 : j < 28 := by omega
    have hne : c ≠ j := by omega
    simp [blockId, hj28, hne]
  · rw [indexAt_eq_nil (by omega) (by omega)]
    simp [blockId, hc]

/-- Another indirect1 block is referred to from data block 28 on. -/
theorem refs_indirect1 (b : UInt32) :
    ({ d with indirect1 := b } : DiskInode).refs E 28 = d.refs E 28 := by
  refine refs_congr fun j hj ↦ ?_
  rw [indexAt_eq_nil (by omega) (by omega), indexAt_eq_nil (by omega) (by omega)]
  exact ⟨rfl, by simp [blockId, hj]⟩

/-- Another indirect2 block is referred to from data block 156 on. -/
theorem refs_indirect2 (b : UInt32) :
    ({ d with indirect2 := b } : DiskInode).refs E 156 = d.refs E 156 := by
  refine refs_congr fun j hj ↦ ⟨?_, by simp [blockId, hj]⟩
  by_cases h28 : j = 28
  · subst h28
    rfl
  · rw [indexAt_eq_nil h28 (Or.inl hj), indexAt_eq_nil h28 (Or.inl hj)]

/-- A new entry of the indirect1 block. -/
theorem refs_entry1 {c : ℕ} (h28 : 28 ≤ c) (hc : c < 156) (b : UInt32) :
    d.refs (setEntry E d.indirect1 (c - 28) b) (c + 1) = d.refs E c ++ (d.indexAt E c ++ [b]) := by
  have hbefore : d.refs (setEntry E d.indirect1 (c - 28) b) c = d.refs E c :=
    refs_congr (pieces_of_agree (fun k _ hk ↦ setEntry_of_ne (Or.inr (by omega)))
      (fun a ha ↦ by omega) (fun a k _ hk ↦ by omega))
  have hindex : d.indexAt (setEntry E d.indirect1 (c - 28) b) c = d.indexAt E c := by
    rcases Nat.eq_or_lt_of_le h28 with rfl | hlt
    · rw [indexAt_28, indexAt_28]
    · rw [indexAt_eq_nil (by omega) (Or.inl hc), indexAt_eq_nil (by omega) (Or.inl hc)]
  have hblock : d.blockId (setEntry E d.indirect1 (c - 28) b) c = b := by
    rw [blockId, if_neg (by omega), if_pos hc, setEntry_self]
  rw [refs_succ, hbefore, hindex, hblock]

/-- The blocks for the data blocks before one of the doubly indirect blocks, with the indirect2 block. -/
def refsFrom2 (d : DiskInode) (E : UInt32 → ℕ → UInt32) (c : ℕ) : List UInt32 :=
  if c = 156 then d.refs E c ++ [d.indirect2] else d.refs E c

theorem indirect1_mem_refsFrom2 {c : ℕ} (hc : 156 ≤ c) : d.indirect1 ∈ d.refsFrom2 E c := by
  unfold refsFrom2
  split
  · exact List.mem_append_left _ (indirect1_mem_refs (by omega))
  · exact indirect1_mem_refs (by omega)

theorem indirect2_mem_refsFrom2 {c : ℕ} (hc : 156 ≤ c) : d.indirect2 ∈ d.refsFrom2 E c := by
  unfold refsFrom2
  split
  · exact List.mem_append_right _ (List.mem_singleton.mpr rfl)
  · exact indirect2_mem_refs (by omega)

/-- A new low-level indirect1 block, with its first entry. -/
theorem refs_entry2_zero {a : ℕ} {s b : UInt32}
    (hnodup : (d.refsFrom2 E (156 + 128 * a) ++ [s]).Nodup) :
    d.refs (setEntry (setEntry E d.indirect2 a s) s 0 b) (156 + 128 * a + 1) =
      d.refsFrom2 E (156 + 128 * a) ++ [s, b] := by
  have hold : ∀ x ∈ d.refsFrom2 E (156 + 128 * a), x ≠ s := fun x hx ↦
    (List.nodup_append.mp hnodup).2.2 x hx s (List.mem_singleton.mpr rfl)
  have hfrom := (List.nodup_append.mp hnodup).1
  have h1s : d.indirect1 ≠ s := hold _ (indirect1_mem_refsFrom2 (by omega))
  have h2s : d.indirect2 ≠ s := hold _ (indirect2_mem_refsFrom2 (by omega))
  have hne12 : d.indirect1 ≠ d.indirect2 := by
    rcases Nat.eq_zero_or_pos a with rfl | ha
    · exact (List.nodup_append.mp (by simpa [refsFrom2] using hfrom)).2.2 _
        (indirect1_mem_refs (by decide)) _ (List.mem_singleton.mpr rfl)
    · rw [refsFrom2, if_neg (by omega)] at hfrom
      exact indirect1_ne_indirect2 hfrom (by omega)
  have hsubs : ∀ a' < a, E d.indirect2 a' ≠ d.indirect2 ∧ E d.indirect2 a' ≠ s := by
    intro a' ha'
    rw [refsFrom2, if_neg (by omega)] at hfrom hold
    exact ⟨sub_ne_indirect2 hfrom (by omega), hold _ (sub_mem_refs (by omega))⟩
  have hbefore : d.refs (setEntry (setEntry E d.indirect2 a s) s 0 b) (156 + 128 * a) =
      d.refs E (156 + 128 * a) := by
    refine refs_congr (pieces_of_agree (fun k _ _ ↦ ?_) (fun a' ha' ↦ ?_) fun a' k _ hk ↦ ?_)
    · rw [setEntry_of_ne (Or.inl h1s), setEntry_of_ne (Or.inl hne12)]
    · rw [setEntry_of_ne (Or.inl h2s), setEntry_of_ne (Or.inr (by omega))]
    · obtain ⟨hne2, hnes⟩ := hsubs a' (by omega)
      rw [setEntry_of_ne (Or.inl hnes), setEntry_of_ne (Or.inl hne2)]
  have hsub : setEntry (setEntry E d.indirect2 a s) s 0 b d.indirect2 a = s := by
    rw [setEntry_of_ne (Or.inl h2s), setEntry_self]
  have hblock : d.blockId (setEntry (setEntry E d.indirect2 a s) s 0 b) (156 + 128 * a) = b := by
    have hdiv : (156 + 128 * a - 156) / 128 = a := by omega
    have hmod : (156 + 128 * a - 156) % 128 = 0 := by omega
    rw [blockId, if_neg (by omega), if_neg (by omega), hdiv, hmod, hsub, setEntry_self]
  rw [refs_succ, hbefore, hblock]
  rcases Nat.eq_zero_or_pos a with rfl | ha
  · rw [refsFrom2, if_pos rfl, indexAt_156, hsub]
    simp
  · rw [refsFrom2, if_neg (by omega), indexAt_sub ha, hsub]
    simp

/-- Another entry of a low-level indirect1 block. -/
theorem refs_entry2_succ {a e : ℕ} {b : UInt32} (he : 0 < e) (he' : e < 128)
    (hnodup : (d.refs E (156 + 128 * a + e)).Nodup) :
    d.refs (setEntry E (E d.indirect2 a) e b) (156 + 128 * a + e + 1) =
      d.refs E (156 + 128 * a + e) ++ [b] := by
  have hne2 : d.indirect2 ≠ E d.indirect2 a := (sub_ne_indirect2 hnodup (by omega)).symm
  have hbefore : d.refs (setEntry E (E d.indirect2 a) e b) (156 + 128 * a + e) =
      d.refs E (156 + 128 * a + e) := by
    refine refs_congr (pieces_of_agree (fun k _ _ ↦ ?_) (fun a' ha' ↦ ?_) fun a' k hk hlt ↦ ?_)
    · exact setEntry_of_ne (Or.inl (sub_ne_indirect1 hnodup (by omega)).symm)
    · exact setEntry_of_ne (Or.inl hne2)
    · rcases Nat.lt_or_ge a' a with ha | ha
      · exact setEntry_of_ne (Or.inl (sub_inj hnodup (by omega) ha))
      · exact setEntry_of_ne (Or.inr (by omega))
  have hblock : d.blockId (setEntry E (E d.indirect2 a) e b) (156 + 128 * a + e) = b := by
    have hdiv : (156 + 128 * a + e - 156) / 128 = a := by omega
    have hmod : (156 + 128 * a + e - 156) % 128 = e := by omega
    rw [blockId, if_neg (by omega), if_neg (by omega), hdiv, hmod, setEntry_of_ne (Or.inl hne2),
      setEntry_self]
  rw [refs_succ, hbefore, hblock, indexAt_eq_nil (by omega) (by omega)]
  rfl

end DiskInode

end AgentOS.Fs
