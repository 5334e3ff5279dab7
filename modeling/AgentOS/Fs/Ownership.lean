import Mathlib
import AgentOS.Fs.Sessions

/-!
# Who owns a data block

A data block is referenced by an inode as a data block, as the first or the second index block, or by the
second index block. In every state a session comes to, the bit of a data block is set exactly when there is
one such reference, and there is never more than one. The other data blocks are zero.
-/

namespace AgentOS.Fs

open Exec

/-- The inodes in use, as the bitmap says. -/
def liveInodes (g : Geometry) (m : ℕ → Block) : List ℕ :=
  (List.range g.inodes).filter fun i ↦ g.inodeBitmap.bit m i

/-- The references of the inodes in use: to the data blocks for their size and to the index blocks these take. -/
def liveBlocks (g : Geometry) (m : ℕ → Block) : List UInt32 := owned (inodeAt g m) m (liveInodes g m)

/-- The data blocks that are in use are referenced once. The others are zero. -/
structure BlocksOwned (g : Geometry) (m : ℕ → Block) : Prop where
  once : (liveBlocks g m).Nodup
  bit_iff : ∀ i < g.dataBitmap.maximum, (g.dataBitmap.bit m i = true ↔
    (liveBlocks g m).countP (fun b ↦ b.toNat = g.dataStart + i) = 1)
  area : ∀ b ∈ liveBlocks g m, g.dataStart ≤ b.toNat ∧ b.toNat < g.dataStart + g.capacity
  zero : ∀ i < g.capacity, g.dataBitmap.bit m i = false → m (g.dataStart + i) = zeroBlock

variable {g : Geometry} {D : DeviceId} {F : Files} {c : Session} {V : Volume} {m : ℕ → Block} {ops : List Op}
  {i : ℕ} {s : Storage}

theorem filter_range_lt {n k : ℕ} (h : n ≤ k) : (List.range k).filter (fun i ↦ decide (i < n)) = List.range n := by
  obtain ⟨r, rfl⟩ := Nat.exists_eq_add_of_le h
  rw [List.range_add, List.filter_append, List.filter_eq_self.mpr fun i hi ↦ by simpa using hi,
    List.filter_eq_nil_iff.mpr, List.append_nil]
  intro i hi
  obtain ⟨j, -, rfl⟩ := List.mem_map.mp hi
  simp

theorem liveInodes_of_holds (h : Holds g V m) : liveInodes g m = List.range V.length := by
  rw [liveInodes, ← filter_range_lt h.inodes]
  refine List.filter_congr fun i hi ↦ h.bit i ?_
  exact (List.mem_range.mp hi).trans_le (Nat.min_le_left _ _)

theorem liveBlocks_of_holds (h : Holds g V m) :
    liveBlocks g m = owned (inodeAt g m) m (List.range V.length) := by
  rw [liveBlocks, liveInodes_of_holds h]

/-- A block of a list without repetitions is there once or not at all. -/
theorem countP_eq_one {l : List UInt32} (h : l.Nodup) (id : ℕ) :
    l.countP (fun b ↦ b.toNat = id) = 1 ↔ ∃ b ∈ l, b.toNat = id := by
  constructor
  · intro hone
    have hpos : 0 < l.countP (fun b ↦ b.toNat = id) := by omega
    obtain ⟨b, hb, heq⟩ := List.countP_pos_iff.mp hpos
    exact ⟨b, hb, of_decide_eq_true heq⟩
  · rintro ⟨b, hb, rfl⟩
    have hcount : l.countP (fun x ↦ decide (x.toNat = b.toNat)) = l.count b := by
      refine List.countP_congr fun x _ ↦ ?_
      simp [UInt32.toNat_inj]
    rw [hcount, List.count_eq_one_of_mem h hb]

/-- Where the blocks hold a volume, each block has one owner. -/
theorem blocksOwned_of_holds (h : Holds g V m) : BlocksOwned g m := by
  have hlive := liveBlocks_of_holds h
  refine ⟨hlive ▸ h.nodup, fun i hi ↦ ?_, hlive ▸ h.space.area, fun i hi hbit ↦ ?_⟩
  · rw [h.space.bit_iff i hi, hlive, countP_eq_one h.nodup]
  · obtain ⟨hblocks, hmax⟩ := Space.capacity_le g
    refine h.space.zero _ (Nat.le_add_right _ _) (by omega) fun b hb heq ↦ ?_
    have hset := (h.space.bit_iff i (hi.trans_le hmax)).mpr ⟨b, hb, heq⟩
    rw [hbit] at hset
    exact Bool.false_ne_true hset

/-- **Clearing a file** gives back its blocks and no others. -/
theorem Ready.clear_blocks (h : Ready g D V s) {bytes : List UInt8} (hi : V[i]? = some bytes) :
    ∃ s', (g.inode D i).clear.Returns s () s' ∧ Ready g D (V.set i []) s' ∧
      ∀ b, b ∈ liveBlocks g (s'.device D) ↔ b ∈ liveBlocks g (s.device D) ∧
        b ∉ (inodeAt g (s.device D) i).blocks (s.device D) := by
  obtain ⟨s', hret, hready, -, hcleared, hothers⟩ := h.clear hi
  have hlt := Rep.lt_length hi
  have hnodup := (Rep.owned_perm (inodeAt g (s.device D)) (s.device D) hlt).nodup_iff.mp h.holds.nodup
  refine ⟨s', hret, hready, fun b ↦ ?_⟩
  rw [liveBlocks_of_holds h.holds, liveBlocks_of_holds hready.holds, List.length_set]
  constructor
  · intro hb
    obtain ⟨j, hj, hmem⟩ := List.mem_flatMap.mp hb
    have hj' := List.mem_range.mp hj
    have hji : j ≠ i := by
      rintro rfl
      rw [hcleared] at hmem
      exact absurd hmem List.not_mem_nil
    rw [hothers j hj' hji] at hmem
    refine ⟨List.mem_flatMap.mpr ⟨j, hj, hmem⟩, fun hown ↦ ?_⟩
    exact (List.nodup_append.mp hnodup).2.2 b hown b
      (List.mem_flatMap.mpr ⟨j, (List.mem_erase_of_ne hji).mpr hj, hmem⟩) rfl
  · rintro ⟨hb, hown⟩
    obtain ⟨j, hj, hmem⟩ := List.mem_flatMap.mp hb
    have hji : j ≠ i := by
      rintro rfl
      exact hown hmem
    refine List.mem_flatMap.mpr ⟨j, hj, ?_⟩
    rwa [hothers j (List.mem_range.mp hj) hji]

theorem Represents.content (h : Represents g D F c) : c.storage.content D = c.storage.device D :=
  h.ready.view.content

/-- **Each block has one owner** in every state a session comes to, and clearing a file gives back its blocks
and no others. -/
theorem blocks_owned (hmade : Made g D c) (hlegal : Files.LegalRun g [] ops) :
    ∃ c', (Op.execAll ops).Returns c (Files.run [] ops).1 c' ∧ BlocksOwned g (c'.storage.content D) ∧
      ∀ i < (listing ops).length, ∃ c'', (Op.clear i).exec.Returns c' .cleared c'' ∧
        ∀ b, b ∈ liveBlocks g (c''.storage.content D) ↔ b ∈ liveBlocks g (c'.storage.content D) ∧
          b ∉ (inodeAt g (c'.storage.content D) (i + 1)).blocks (c'.storage.content D) := by
  obtain ⟨c', hret, hrep⟩ := hmade.represents.run hlegal
  have hnames : (Files.run [] ops).2.names = listing ops := Files.names_run [] ops
  refine ⟨c', hret, ?_, fun i hi ↦ ?_⟩
  · rw [hrep.content]
    exact blocksOwned_of_holds hrep.ready.holds
  · rw [← hnames, Files.length_names] at hi
    obtain ⟨s', hclear, hready, hblocks⟩ := hrep.ready.clear_blocks (Files.getElem?_bytes hi)
    have hcontent : s'.content D = s'.device D := hready.view.content
    refine ⟨_, (hrep.returns_file hi).bind ((Represents.returns_onStorage hclear).bind
      (returns_pure.mpr ⟨rfl, rfl⟩)), ?_⟩
    rw [hrep.content, hcontent]
    exact hblocks

theorem blocks_owned_small : ∃ c, Made smallFs 0 c ∧ ∃ c',
    (Op.execAll smallRun).Returns c (Files.run [] smallRun).1 c' ∧
      BlocksOwned smallFs (c'.storage.content 0) := by
  obtain ⟨c, hmade⟩ := exists_made (g := smallFs) (D := 0) (by decide)
  obtain ⟨c', hret, howned, -⟩ := @blocks_owned smallFs 0 c smallRun hmade (by decide +kernel)
  exact ⟨c, hmade, c', hret, howned⟩

end AgentOS.Fs
