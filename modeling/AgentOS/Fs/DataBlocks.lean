import Mathlib
import AgentOS.Fs.BitmapRuns
import AgentOS.Fs.Mount

/-!
# Handing out data blocks

Data blocks are handed out by the bits of the data bitmap. A group of 4097 blocks has one block of the bitmap
and the 4096 blocks it has bits for. Only when the blocks left for data come in whole groups are there as many
bits as data blocks. Otherwise the last block of the bitmap has bits for blocks behind the device.
-/

namespace AgentOS.Fs

open Exec Allocation

attribute [local instance] wholeCache

/-! ## Runs -/

/-- A call of `alloc_data` or `dealloc_data`, with the blocks that are handed out. Only these are given
back. -/
inductive DataCall (efs : EasyFileSystem) :
    Storage × Set UInt32 → List (Event UInt32) → Storage × Set UInt32 → Prop where
  | alloc {s t : Storage} {live : Set UInt32} {b : UInt32} : efs.allocData.Returns s b t →
      DataCall efs (s, live) [.alloc b] (t, insert b live)
  | dealloc {s t : Storage} {live : Set UInt32} {b : UInt32} : b ∈ live →
      (efs.deallocData b).Returns s () t → DataCall efs (s, live) [.free b] (t, live \ {b})

/-- In every run on a new file system `alloc_data` hands out blocks of the data area only, and the bitmap has
a clear bit as long as not all of them are handed out. -/
def AllocationStays (totalBlocks inodeBitmapBlocks : UInt32) : Prop :=
  ∀ D device efs s₀ es t live,
    (EasyFileSystem.create D totalBlocks inodeBitmapBlocks).Returns (Storage.boot device) efs s₀ →
    Runs (DataCall efs) (s₀, ∅) es (t, live) →
    (∀ b u, efs.allocData.Returns t b u → efs.dataAreaStartBlock ≤ b ∧ b < totalBlocks) ∧
      ((∃ u, (efs.dataBitmap.alloc D).Returns t none u) ↔
        ∀ b, efs.dataAreaStartBlock ≤ b → b < totalBlocks → b ∈ live)

variable {g : Geometry} {D : DeviceId} {s t : Storage} {live : Set UInt32} {b : UInt32} {l : List UInt32}

/-- The blocks of a set are handed out, and no others. -/
structure Handed (g : Geometry) (D : DeviceId) (x : Storage × Set UInt32) : Prop where
  view : View D [] (x.1.content D) x.1
  space : ∃ l : List UInt32, l.Nodup ∧ (∀ b, b ∈ l ↔ b ∈ x.2) ∧ Space g l (x.1.content D)

theorem Handed.free (h : Handed g D (s, live)) : g.dataBitmap.Free D [] s := ⟨h.view, nofun, by decide⟩

theorem returns_allocData :
    (g.efs D).allocData.Returns s b t ↔ ∃ i, (g.dataBitmap.alloc D).Returns s (some i) t ∧
      b = UInt32.ofNat i + UInt32.ofNat g.dataStart := by
  constructor
  · intro h
    obtain ⟨v, s₁, halloc, hrest⟩ := returns_bind.mp h
    obtain ⟨i, s₂, hunwrap, hpure⟩ := returns_bind.mp hrest
    obtain ⟨rfl, rfl⟩ := returns_unwrap.mp hunwrap
    obtain ⟨rfl, rfl⟩ := returns_pure.mp hpure
    exact ⟨i, halloc, rfl⟩
  · rintro ⟨i, halloc, rfl⟩
    exact halloc.bind ((returns_unwrap.mpr ⟨rfl, rfl⟩ :
      (unwrap (some i)).Returns t i t).bind (returns_pure.mpr ⟨rfl, rfl⟩))

/-- A bit is set when its block is handed out. -/
theorem Handed.bit_iff (h : Handed g D (s, live)) {i : ℕ} (hi : i < g.dataBitmap.maximum) :
    g.dataBitmap.bit (s.content D) i = true ↔ ∃ b ∈ live, b.toNat = g.dataStart + i := by
  obtain ⟨l, -, hmem, hspace⟩ := h.space
  rw [hspace.bit_iff i hi]
  simp only [hmem]

/-- When a bit is clear, a block that is on the device is handed out. -/
theorem Handed.allocData (h : Handed g D (s, live)) {i : ℕ} (hi : i < g.capacity)
    (hclear : g.dataBitmap.bit (s.content D) i = false) :
    ∃ b t, (g.efs D).allocData.Returns s b t ∧ b ∉ live ∧ Handed g D (t, insert b live) := by
  obtain ⟨l, hnodup, hmem, hspace⟩ := h.space
  have hfree : ∀ b ∈ l, b.toNat ≠ g.dataStart + i := by
    intro b hb heq
    have hset := (hspace.bit_iff i (hi.trans_le (Space.capacity_le g).2)).mpr ⟨b, hb, heq⟩
    rw [hclear] at hset
    exact absurd hset (by simp)
  obtain ⟨b, m', hdoes, hnew, hspace', -⟩ := hspace.does_allocData_of_free (D := D)
    ⟨i, hi, hfree⟩ (show ∀ id ∈ ([] : List (ℕ × Bool)).map Prod.fst, _ from nofun) (by decide)
  obtain ⟨t, hret, hview, -⟩ := hdoes s h.view
  refine ⟨b, t, hret, fun hb ↦ hnew ((hmem b).mpr hb), ⟨by rwa [hview.content], b :: l,
    List.nodup_cons.mpr ⟨hnew, hnodup⟩, fun c ↦ ?_, by rwa [hview.content]⟩⟩
  rw [List.mem_cons, hmem, Set.mem_insert_iff]

theorem Handed.deallocData (h : Handed g D (s, live)) (hb : b ∈ live) :
    ∃ t, ((g.efs D).deallocData b).Returns s () t ∧ Handed g D (t, live \ {b}) := by
  obtain ⟨l, hnodup, hmem, hspace⟩ := h.space
  have hperm := List.perm_cons_erase ((hmem b).mpr hb)
  have hnodup' := hperm.nodup_iff.mp hnodup
  obtain ⟨m', hdoes, hspace', -⟩ := (hspace.congr_mem fun c ↦ hperm.mem_iff).does_deallocData (D := D)
    hnodup' (show ∀ id ∈ ([] : List (ℕ × Bool)).map Prod.fst, _ from nofun) (by decide)
  obtain ⟨t, hret, hview, -⟩ := hdoes s h.view
  refine ⟨t, hret, by rwa [hview.content], l.erase b, (List.nodup_cons.mp hnodup').2, fun c ↦ ?_,
    by rwa [hview.content]⟩
  rw [hnodup.mem_erase_iff, hmem, Set.mem_sdiff, Set.mem_singleton_iff, and_comm]

/-- A new file system has handed out nothing. -/
theorem handed_of_create {device : DeviceId → ℕ → Block} {efs : EasyFileSystem}
    (h : (EasyFileSystem.create D g.totalBlocks g.inodeBitmapBlocks).Returns (Storage.boot device) efs s) :
    efs = g.efs D ∧ Handed g D (s, ∅) := by
  obtain ⟨s', hret, hready⟩ := create_returns (g := g) (D := D) (pos_of_create h)
    ⟨Storage.wf_boot device, nofun, congrFun (Storage.content_boot _) D, rfl, List.Forall₂.nil⟩
  obtain ⟨rfl, rfl⟩ := h.det hret
  have hview := hready.view
  have hholds := hready.holds
  refine ⟨rfl, by rwa [hview.content], [], List.nodup_nil, fun b ↦ by simp, ?_⟩
  rw [hview.content]
  have hroot := hholds.files 0 [] rfl
  have hnil : (inodeAt g (s.device D) 0).blocks (s.device D) = [] :=
    List.eq_nil_of_length_eq_zero hroot.length_blocks
  have hspace := hholds.space
  simpa [owned, hnil, Files.volume] using hspace

/-! ## As many bits as blocks -/

/-- The bits and the blocks are as many just when the blocks left for data come in whole groups. -/
theorem maximum_eq_iff (hpos : 0 < g.inodeBitmapBlocks.toNat) :
    g.dataBitmap.maximum = g.dataBlocks ↔ 4097 ∣ g.dataTotalBlocks := by
  have hfits := g.fits
  have hlt := g.totalBlocks_lt
  have hle := g.dataBitmapBlocks_le
  have hmax : g.dataBitmap.maximum = g.dataBitmapBlocks * 4096 := rfl
  have htotal : g.dataTotalBlocks = g.totalBlocks.toNat - (1 + 1025 * g.inodeBitmapBlocks.toNat) := rfl
  have hblocks : g.dataBitmapBlocks = (g.dataTotalBlocks + 4096) % 2 ^ 32 / 4097 := rfl
  have hdata : g.dataBlocks = g.dataTotalBlocks - g.dataBitmapBlocks := rfl
  rcases Nat.lt_or_ge (g.dataTotalBlocks + 4096) (2 ^ 32) with hsum | hsum
  · rw [Nat.mod_eq_of_lt hsum] at hblocks
    omega
  · -- the sum wraps and there is no bitmap, but there are no whole groups either
    have hzero : g.dataBitmapBlocks = 0 := by omega
    omega

/-- No block behind the device is handed out, and a bit is clear as long as a block is. -/
theorem sound_dataCall (hfull : g.dataBitmap.maximum = g.dataBlocks) :
    Sound (DataCall (g.efs D)) Prod.snd (Handed g D) := by
  have key : ∀ {x es y}, Handed g D x → DataCall (g.efs D) x es y →
      Handed g D y ∧ Lawful x.2 es ∧ y.2 = after x.2 es := by
    intro x es y hx hcall
    cases hcall with
    | alloc hret =>
      obtain ⟨i, hbit, rfl⟩ := returns_allocData.mp hret
      obtain ⟨v, u, hret', halloc, -⟩ := hx.free.alloc
      obtain ⟨rfl, rfl⟩ := hbit.det hret'
      obtain ⟨hmax, hclear⟩ := (halloc.first i rfl).1
      have hcapacity : i < g.capacity := by
        rw [Geometry.capacity]
        exact lt_min (hfull ▸ hmax) hmax
      obtain ⟨b, t', hdata, hnew, hy⟩ := hx.allocData hcapacity hclear
      obtain ⟨rfl, rfl⟩ := hret.det hdata
      exact ⟨hy, ⟨hnew, trivial⟩, rfl⟩
    | dealloc hb hret =>
      obtain ⟨t', hret', hy⟩ := hx.deallocData hb
      obtain ⟨-, rfl⟩ := hret.det hret'
      exact ⟨hy, ⟨hb, trivial⟩, rfl⟩
  exact ⟨fun hs h ↦ (key hs h).1, fun hs h ↦ (key hs h).2.1, fun hs h ↦ (key hs h).2.2⟩

theorem mem_area_iff : (g.efs D).dataAreaStartBlock ≤ b ∧ b < g.totalBlocks ↔
    g.dataStart ≤ b.toNat ∧ b.toNat < g.dataStart + g.dataBlocks := by
  rw [UInt32.le_iff_toNat_le, UInt32.lt_iff_toNat_lt, g.dataStart_add_dataBlocks]
  exact and_congr_left' (by rw [← g.toNat_dataStart]; rfl)

theorem allocationStays_of_eq (hfull : g.dataBitmap.maximum = g.dataBlocks) :
    AllocationStays g.totalBlocks g.inodeBitmapBlocks := by
  intro D device efs s₀ es t live hcreate hrun
  obtain ⟨rfl, hs₀⟩ := handed_of_create hcreate
  obtain ⟨ht, -, -⟩ := (sound_dataCall hfull).runs hs₀ hrun
  have hcapacity : g.capacity = g.dataBlocks := min_eq_left hfull.ge
  obtain ⟨v, u, hret, halloc, -⟩ := ht.free.alloc
  refine ⟨fun b u' hb ↦ ?_, ?_⟩
  · obtain ⟨i, hbit, rfl⟩ := returns_allocData.mp hb
    obtain ⟨rfl, -⟩ := hbit.det hret
    have hi : i < g.dataBlocks := hfull ▸ (halloc.first i rfl).1.1
    refine mem_area_iff.mpr ?_
    rw [Space.toNat_block (by rwa [hcapacity])]
    omega
  · constructor
    · rintro ⟨u', hnone⟩ b hle hlt
      obtain ⟨rfl, -⟩ := hnone.det hret
      obtain ⟨hle', hlt'⟩ := mem_area_iff.mp ⟨hle, hlt⟩
      -- the bit of the block is set, so that the block is handed out
      have hmax : b.toNat - g.dataStart < g.dataBitmap.maximum := by omega
      obtain ⟨c, hc, heq⟩ := (ht.bit_iff hmax).mp (halloc.none_iff.mp rfl _ hmax)
      obtain rfl : c = b := UInt32.toNat_inj.mp (by omega)
      exact hc
    · intro hall
      have hnone : v = none := halloc.none_iff.mpr fun i hi ↦ by
        have hblock : (UInt32.ofNat i + UInt32.ofNat g.dataStart).toNat = g.dataStart + i :=
          Space.toNat_block (by rw [hcapacity]; omega)
        obtain ⟨hle, hlt⟩ := (mem_area_iff (D := D)).mpr ⟨hblock ▸ Nat.le_add_right _ i, by omega⟩
        exact (ht.bit_iff hi).mpr ⟨_, hall _ hle hlt, hblock⟩
      exact ⟨u, hnone ▸ hret⟩

/-! ## More bits than blocks, or less -/

theorem Handed.set_of_lt (h : Handed g D (s, live)) {n : ℕ} (hn : n ≤ g.capacity)
    (hlive : ∀ b, b ∈ live ↔ g.dataStart ≤ b.toNat ∧ b.toNat < g.dataStart + n) {i : ℕ} (hi : i < n) :
    g.dataBitmap.bit (s.content D) i = true := by
  have hblock := Space.toNat_block (hi.trans_le hn)
  exact (h.bit_iff (hi.trans_le (hn.trans (Space.capacity_le g).2))).mpr
    ⟨_, (hlive _).mpr (by rw [hblock]; omega), hblock⟩

theorem Handed.clear_of_le (h : Handed g D (s, live)) {n : ℕ}
    (hlive : ∀ b, b ∈ live ↔ g.dataStart ≤ b.toNat ∧ b.toNat < g.dataStart + n) {i : ℕ} (hi : n ≤ i)
    (hmax : i < g.dataBitmap.maximum) : g.dataBitmap.bit (s.content D) i = false := by
  rw [← Bool.not_eq_true, h.bit_iff hmax]
  rintro ⟨b, hb, heq⟩
  have hlt := ((hlive b).mp hb).2
  omega

/-- The first clear bit is the one behind those that are set. -/
theorem Handed.alloc_eq (h : Handed g D (s, live)) {n : ℕ} (hn : n ≤ g.capacity)
    (hlive : ∀ b, b ∈ live ↔ g.dataStart ≤ b.toNat ∧ b.toNat < g.dataStart + n)
    (hmax : n < g.dataBitmap.maximum) : ∃ t, (g.dataBitmap.alloc D).Returns s (some n) t := by
  have hclear := h.clear_of_le hlive le_rfl hmax
  obtain ⟨v, t, hret, halloc, -⟩ := h.free.alloc
  cases v with
  | none =>
    rw [halloc.none_iff.mp rfl n hmax] at hclear
    exact absurd hclear (by simp)
  | some i =>
    obtain ⟨⟨-, hi⟩, hleast⟩ := halloc.first i rfl
    obtain rfl : i = n := by
      refine le_antisymm (hleast ⟨hmax, hclear⟩) ?_
      by_contra hlt
      rw [h.set_of_lt hn hlive (Nat.lt_of_not_le hlt)] at hi
      exact absurd hi (by simp)
    exact ⟨t, hret⟩

/-- Blocks are handed out in order as long as there are blocks and bits for them. -/
theorem exists_run (hs : Handed g D (s, ∅)) (n : ℕ) (hn : n ≤ g.capacity) :
    ∃ es t live, Runs (DataCall (g.efs D)) (s, ∅) es (t, live) ∧ Handed g D (t, live) ∧
      ∀ b, b ∈ live ↔ g.dataStart ≤ b.toNat ∧ b.toNat < g.dataStart + n := by
  induction n with
  | zero => exact ⟨[], s, ∅, .nil, hs, fun b ↦ iff_of_false nofun (by omega)⟩
  | succ n ih =>
    obtain ⟨es, t, live, hrun, ht, hlive⟩ := ih (by omega)
    have hmax : n < g.dataBitmap.maximum := hn.trans (Space.capacity_le g).2
    obtain ⟨b, u, hret, hnew, hu⟩ := ht.allocData hn (ht.clear_of_le hlive le_rfl hmax)
    obtain ⟨i, hbit, hb⟩ := returns_allocData.mp hret
    obtain ⟨u', hret'⟩ := ht.alloc_eq (Nat.le_of_succ_le hn) hlive hmax
    obtain ⟨⟨rfl⟩, -⟩ := hbit.det hret'
    have hblock : b.toNat = g.dataStart + n := by rw [hb, Space.toNat_block hn]
    refine ⟨_, u, _, hrun.snoc (.alloc hret), hu, fun c ↦ ?_⟩
    rw [Set.mem_insert_iff, hlive]
    constructor
    · rintro (rfl | hc)
      · omega
      · omega
    · intro hc
      by_cases hcb : c.toNat = b.toNat
      · exact Or.inl (UInt32.toNat_inj.mp hcb)
      · exact Or.inr (by omega)

theorem not_allocationStays_of_ne (hpos : 0 < g.inodeBitmapBlocks.toNat)
    (hne : g.dataBitmap.maximum ≠ g.dataBlocks) :
    ¬AllocationStays g.totalBlocks g.inodeBitmapBlocks := by
  intro hstays
  obtain ⟨s₀, hcreate, -⟩ := create_returns (g := g) (D := 0) hpos
    ⟨Storage.wf_boot fun _ _ ↦ zeroBlock, nofun, congrFun (Storage.content_boot _) 0, rfl,
      List.Forall₂.nil⟩
  obtain ⟨es, t, live, hrun, ht, hlive⟩ := exists_run (handed_of_create hcreate).2 g.capacity le_rfl
  obtain ⟨honly, hnone⟩ := hstays 0 _ _ _ es t live hcreate hrun
  have hsum := g.dataStart_add_dataBlocks
  have hlt := g.totalBlocks_lt
  rcases Nat.lt_or_gt_of_ne hne with hless | hmore
  · -- all bits are set, and a block is left
    have hcapacity : g.capacity = g.dataBitmap.maximum := min_eq_right hless.le
    obtain ⟨v, u, hret, halloc, -⟩ := ht.free.alloc
    have hfull : v = none := halloc.none_iff.mpr fun i hi ↦
      ht.set_of_lt le_rfl hlive (hcapacity ▸ hi)
    have hblock : (UInt32.ofNat (g.dataStart + g.capacity)).toNat = g.dataStart + g.capacity :=
      UInt32.toNat_ofNat_of_lt' (by change _ < 2 ^ 32; omega)
    obtain ⟨hle', hlt'⟩ := (mem_area_iff (g := g) (D := 0)
      (b := UInt32.ofNat (g.dataStart + g.capacity))).mpr (by omega)
    have hin := (hlive _).mp (hnone.mp ⟨u, hfull ▸ hret⟩ _ hle' hlt')
    omega
  · -- the next bit is the one of the block behind the device
    have hcapacity : g.capacity = g.dataBlocks := min_eq_left hmore.le
    obtain ⟨u, hret⟩ := ht.alloc_eq le_rfl hlive (hcapacity ▸ hmore)
    have hblock := (mem_area_iff (D := 0)).mp (honly _ u (returns_allocData.mpr ⟨_, hret, rfl⟩))
    rw [UInt32.toNat_add, g.toNat_dataStart,
      UInt32.toNat_ofNat_of_lt' (by change _ < 2 ^ 32; omega)] at hblock
    omega

/-- **Data blocks stay on the device** just when the blocks left for them and their bitmap come in whole
groups of 4097. -/
theorem allocationStays_iff {totalBlocks inodeBitmapBlocks : UInt32} (hpos : 0 < inodeBitmapBlocks.toNat)
    (hfits : 1 + 1025 * inodeBitmapBlocks.toNat ≤ totalBlocks.toNat) :
    AllocationStays totalBlocks inodeBitmapBlocks ↔
      4097 ∣ totalBlocks.toNat - (1 + 1025 * inodeBitmapBlocks.toNat) := by
  obtain ⟨g, hg⟩ : ∃ g, g = Geometry.mk totalBlocks inodeBitmapBlocks hfits := ⟨_, rfl⟩
  have hwhole := maximum_eq_iff (g := g) (by rwa [hg])
  constructor
  · intro h
    by_contra hpart
    refine not_allocationStays_of_ne (g := g) (by rwa [hg]) (fun heq ↦ hpart ?_) (by rwa [hg])
    have := hwhole.mp heq
    rwa [hg] at this
  · intro h
    have hstays := allocationStays_of_eq (g := g) (hwhole.mpr (by rwa [hg]))
    rwa [hg] at hstays

/-- One group behind the inodes. -/
theorem allocationStays_group : AllocationStays 5123 1 := (allocationStays_iff (by decide) (by decide)).mpr
  (by decide)

/-- A device with one data block: the second block handed out is behind its end. -/
theorem not_allocationStays_1028 : ¬AllocationStays 1028 1 :=
  not_allocationStays_of_ne (g := ⟨1028, 1, by decide⟩) (by decide) (by decide)

end AgentOS.Fs
