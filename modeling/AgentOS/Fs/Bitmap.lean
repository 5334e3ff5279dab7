import Mathlib
import AgentOS.Fs.Blocks

/-!
# Bitmaps on the device

`easy-fs/src/bitmap.rs`. A bitmap takes some consecutive blocks, each of 64 words of 64 bits. Allocation
takes the first bit that is not set.
-/

namespace AgentOS.Fs

open Exec

/-! ## Words -/

namespace Word

/-- `bits64.trailing_ones()` -/
def trailingOnes (w : UInt64) : ℕ :=
  ((List.range 64).find? fun i ↦ !w.toBitVec.getLsbD i).getD 64

/-- `1u64 << inner_pos` -/
def mask (i : ℕ) : UInt64 := 1 <<< i.toUInt64

def bit (w : UInt64) (i : ℕ) : Bool := w.toBitVec.getLsbD i

theorem bit_mask {i j : ℕ} (hi : i < 64) : bit (mask i) j = decide (j = i) := by
  have hbv : (mask i).toBitVec = BitVec.twoPow 64 i := by
    rw [mask, UInt64.toBitVec_shiftLeft]
    apply BitVec.eq_of_toNat_eq
    have hmod : i % 18446744073709551616 % 64 = i := by omega
    simp [BitVec.toNat_twoPow, Nat.shiftLeft_eq, Nat.mod_eq_of_lt hi]
  rw [bit, hbv, BitVec.getLsbD_twoPow]
  by_cases h : i = j
  · simpa [h] using by omega
  · simp [h, Ne.symm h]

theorem bit_or (w : UInt64) {i j : ℕ} (hi : i < 64) :
    bit (w ||| mask i) j = (bit w j || decide (j = i)) := by
  have h := bit_mask (j := j) hi
  unfold bit at *
  rw [UInt64.toBitVec_or, BitVec.getLsbD_or, h]

/-- Taking the mask of a set bit away clears that bit. -/
theorem bit_sub (w : UInt64) {i j : ℕ} (hi : i < 64) (hbit : bit w i = true) :
    bit (w - mask i) j = (bit w j && decide (j ≠ i)) := by
  have hmask : ∀ j, (mask i).toBitVec.getLsbD j = decide (j = i) := fun j ↦ bit_mask hi
  -- the mask and the other bits do not meet, so that their sum is their union
  have hsplit : w.toBitVec = (w.toBitVec &&& ~~~(mask i).toBitVec) + (mask i).toBitVec := by
    rw [BitVec.add_eq_or_of_and_eq_zero]
    · refine BitVec.eq_of_getLsbD_eq fun k hk ↦ ?_
      rw [BitVec.getLsbD_or, BitVec.getLsbD_and, BitVec.getLsbD_not, hmask]
      by_cases hki : k = i
      · subst hki
        simpa [bit] using hbit
      · simp [hki, hk]
    · exact BitVec.eq_of_getLsbD_eq fun k hk ↦ by simp [hk]
  have hsub : (w - mask i).toBitVec = w.toBitVec &&& ~~~(mask i).toBitVec := by
    rw [UInt64.toBitVec_sub]
    conv_lhs => rw [hsplit]
    exact BitVec.add_sub_cancel _ _
  unfold bit
  rw [hsub, BitVec.getLsbD_and, BitVec.getLsbD_not, hmask]
  by_cases hj : j < 64
  · simp [hj]
  · simp [BitVec.getLsbD_of_ge _ _ (Nat.le_of_not_lt hj)]

theorem and_mask_pos (w : UInt64) {i : ℕ} (hi : i < 64) : w &&& mask i > 0 ↔ bit w i = true := by
  have hmask : ∀ j, (mask i).toBitVec.getLsbD j = decide (j = i) := fun j ↦ bit_mask hi
  have hzero : w &&& mask i = 0 ↔ bit w i = false := by
    rw [← UInt64.toBitVec_inj, UInt64.toBitVec_and]
    constructor
    · intro h
      have h' := congrArg (fun b ↦ BitVec.getLsbD b i) h
      simpa [hmask, bit] using h'
    · intro h
      refine BitVec.eq_of_getLsbD_eq fun k hk ↦ ?_
      rw [BitVec.getLsbD_and, hmask]
      by_cases hki : k = i
      · subst hki
        rw [bit] at h
        simp [h]
      · simp [hki]
  have hpos : w &&& mask i > 0 ↔ w &&& mask i ≠ 0 := UInt64.pos_iff_ne_zero
  rw [hpos, Ne, hzero]
  simp

/-- A word that is not full has a first bit that is not set. -/
theorem trailingOnes_spec {w : UInt64} (h : w ≠ -1) :
    trailingOnes w < 64 ∧ bit w (trailingOnes w) = false ∧ ∀ i < trailingOnes w, bit w i = true := by
  have hexists : ∃ i ∈ List.range 64, (!w.toBitVec.getLsbD i) = true := by
    by_contra! hall
    refine h (UInt64.toBitVec_inj.mp (BitVec.eq_of_getLsbD_eq fun i hi ↦ ?_))
    have hbit : w.toBitVec.getLsbD i = true := by simpa using hall i (List.mem_range.mpr hi)
    have hone : (-1 : UInt64).toBitVec = BitVec.allOnes 64 := by decide
    rw [hbit, hone, BitVec.getLsbD_allOnes, decide_eq_true hi]
  obtain ⟨i, hi⟩ := Option.isSome_iff_exists.mp (List.find?_isSome.mpr hexists)
  obtain ⟨hfree, hlt, hbefore⟩ := List.find?_range_eq_some.mp hi
  rw [trailingOnes, hi, Option.getD_some]
  refine ⟨List.mem_range.mp hlt, by simpa [bit] using hfree, fun j hj ↦ ?_⟩
  simpa [bit] using hbefore j hj

theorem bit_full {i : ℕ} (hi : i < 64) : bit (-1) i = true := by
  have hone : (-1 : UInt64).toBitVec = BitVec.allOnes 64 := by decide
  rw [bit, hone, BitVec.getLsbD_allOnes, decide_eq_true hi]

end Word

/-! ## Blocks of bits -/

/-- `BitmapBlock` -/
abbrev BitmapBlock := Vector UInt64 64

def bitmapBlock : ByteLayout BitmapBlock := ByteLayout.array 64 ByteLayout.u64 (by decide)

/-- Number of bits in a block -/
def blockBits : ℕ := blockSz * 8

/-- Decompose bits into (block_pos, bits64_pos, inner_pos) -/
def decomposition (bit : ℕ) : ℕ × ℕ × ℕ :=
  (bit / blockBits, bit % blockBits / 64, bit % blockBits % 64)

/-- The bit that `alloc` computes from three positions is the one `dealloc` takes apart into them. -/
theorem decomposition_index (k : ℕ) {p q : ℕ} (hp : p < 64) (hq : q < 64) :
    decomposition (k * blockBits + p * 64 + q) = (k, p, q) := by
  have hbits : blockBits = 64 * 64 := rfl
  simp only [decomposition, hbits, Prod.mk.injEq]
  omega

theorem index_decomposition (i : ℕ) :
    (decomposition i).1 * blockBits + (decomposition i).2.1 * 64 + (decomposition i).2.2 = i ∧
      (decomposition i).2.1 < 64 ∧ (decomposition i).2.2 < 64 := by
  have hbits : blockBits = 64 * 64 := rfl
  simp only [decomposition, hbits]
  omega

namespace BitmapBlock

/-- A bit of a block. -/
def bit (v : BitmapBlock) (i : ℕ) : Bool :=
  if h : i / 64 < 64 then Word.bit v[i / 64] (i % 64) else true

/-- The first word that is not full, with its position and its first bit that is not set. -/
def findFree (v : BitmapBlock) : Option (Fin 64 × ℕ) :=
  ((List.finRange 64).find? fun p ↦ v[p] ≠ -1).map fun p ↦ (p, Word.trailingOnes v[p])

theorem bit_add {v : BitmapBlock} (p : Fin 64) {q : ℕ} (hq : q < 64) :
    v.bit (p * 64 + q) = Word.bit v[p] q := by
  have hdiv : (p * 64 + q) / 64 = p := by omega
  have hmod : (p * 64 + q) % 64 = q := by omega
  simp only [bit, hdiv, hmod, p.isLt, dif_pos]
  rfl

theorem bit_eq (v : BitmapBlock) {i : ℕ} (hi : i < blockBits) :
    ∃ (p : Fin 64) (q : ℕ), q < 64 ∧ i = p * 64 + q ∧ v.bit i = Word.bit v[p] q := by
  have hlt : i / 64 < 64 := by
    have hbits : blockBits = 64 * 64 := rfl
    omega
  have hi' : i = (⟨i / 64, hlt⟩ : Fin 64) * 64 + i % 64 := by
    change i = i / 64 * 64 + i % 64
    omega
  refine ⟨⟨i / 64, hlt⟩, i % 64, Nat.mod_lt _ (by decide), hi', ?_⟩
  conv_lhs => rw [hi']
  exact bit_add _ (Nat.mod_lt _ (by decide))

/-- What is found is the first bit that is not set. -/
theorem findFree_eq_some {v : BitmapBlock} {p : Fin 64} {q : ℕ} (h : v.findFree = some (p, q)) :
    q < 64 ∧ v.bit (p * 64 + q) = false ∧ ∀ i < p * 64 + q, v.bit i = true := by
  obtain ⟨p', hfind, heq⟩ := Option.map_eq_some_iff.mp h
  obtain ⟨rfl, rfl⟩ : p' = p ∧ Word.trailingOnes v[p'] = q := by simpa using heq
  obtain ⟨hne, k, hk, hget, hbefore⟩ := List.find?_eq_some_iff_getElem.mp hfind
  obtain ⟨hlt, hfree, hones⟩ := Word.trailingOnes_spec (of_decide_eq_true hne)
  refine ⟨hlt, by rw [bit_add p' hlt, hfree], fun i hi ↦ ?_⟩
  obtain ⟨r, t, ht, rfl, hbit⟩ := v.bit_eq (i := i) (by
    have hbits : blockBits = 64 * 64 := rfl
    have hp := p'.isLt
    omega)
  rw [hbit]
  rcases Nat.lt_or_ge r p' with hrp | hrp
  · -- an earlier word is full
    have hkp : k = p' := by simpa using congrArg Fin.val hget
    have hfull : v[r] = -1 := by simpa using hbefore r (by omega)
    rw [hfull, Word.bit_full ht]
  · obtain rfl : r = p' := Fin.ext (by omega)
    exact hones t (by omega)

theorem findFree_eq_none {v : BitmapBlock} (h : v.findFree = none) {i : ℕ} (hi : i < blockBits) :
    v.bit i = true := by
  obtain ⟨p, q, hq, -, hbit⟩ := v.bit_eq hi
  have hfull := List.find?_eq_none.mp (Option.map_eq_none_iff.mp h) p (List.mem_finRange p)
  rw [hbit]
  have hfull' : v[p] = -1 := by simpa using hfull
  rw [hfull', Word.bit_full hq]

theorem bit_set (v : BitmapBlock) (p : Fin 64) (w : UInt64) {i : ℕ} :
    bit (v.set p w) i = if i / 64 = p then Word.bit w (i % 64) else v.bit i := by
  unfold bit
  by_cases hp : i / 64 = p
  · simp [hp]
  · rw [if_neg hp]
    split
    · rw [Vector.getElem_set_ne _ _ (Ne.symm hp)]
    · rfl

end BitmapBlock

/-! ## Bitmaps -/

/-- A bitmap -/
structure Bitmap where
  startBlockId : ℕ
  blocks : ℕ

namespace Bitmap

/-- Take the first free bit of a block of the bitmap. -/
def allocIn (b : Bitmap) (dev : DeviceId) (blockId : ℕ) : Exec Storage (Option ℕ) :=
  modifyBlock dev (blockId + b.startBlockId) bitmapBlock 0 fun block ↦
    match BitmapBlock.findFree block with
    | some (bits64Pos, innerPos) =>
      pure (some (blockId * blockBits + bits64Pos * 64 + innerPos),
        block.set bits64Pos (block[bits64Pos] ||| Word.mask innerPos))
    | none => pure (none, block)

def allocFrom (b : Bitmap) (dev : DeviceId) : List ℕ → Exec Storage (Option ℕ)
  | [] => pure none
  | blockId :: rest => do
    let pos ← b.allocIn dev blockId
    if pos.isSome then pure pos else b.allocFrom dev rest

/-- Allocate a new block from a block device -/
def alloc (b : Bitmap) (dev : DeviceId) : Exec Storage (Option ℕ) :=
  b.allocFrom dev (List.range b.blocks)

/-- Deallocate a block -/
def dealloc (b : Bitmap) (dev : DeviceId) (bit : ℕ) : Exec Storage Unit :=
  let (blockPos, bits64Pos, innerPos) := decomposition bit
  modifyBlock dev (blockPos + b.startBlockId) bitmapBlock 0 fun block ↦ do
    let word ← unwrap block[bits64Pos]?
    assert (word &&& Word.mask innerPos > 0)
    pure ((), block.setIfInBounds bits64Pos (word - Word.mask innerPos))

/-- Get the max number of allocatable blocks -/
def maximum (b : Bitmap) : ℕ := b.blocks * blockBits

/-- A bit, in the contents of the device. -/
def bit (b : Bitmap) (m : ℕ → Block) (i : ℕ) : Bool :=
  BitmapBlock.bit (bitmapBlock.read 0 (m (i / blockBits + b.startBlockId))) (i % blockBits)

/-- The blocks the bitmap takes. -/
def Region (b : Bitmap) (id : ℕ) : Prop := b.startBlockId ≤ id ∧ id < b.startBlockId + b.blocks

/-- One bit gets a value, and nothing else changes on the device. -/
structure Sets (b : Bitmap) (m : ℕ → Block) (i : ℕ) (v : Bool) (m' : ℕ → Block) : Prop where
  bit : b.bit m' = Function.update (b.bit m) i v
  frame : ∀ id, ¬b.Region id → m' id = m id

variable {b : Bitmap} {D : DeviceId} {used : List (ℕ × Bool)} {m : ℕ → Block}

theorem region_block {k : ℕ} (hk : k < b.blocks) : b.Region (k + b.startBlockId) :=
  ⟨Nat.le_add_left _ _, by rw [Nat.add_comm]; exact Nat.add_lt_add_left hk _⟩

theorem size_bitmapBlock : 0 + bitmapBlock.size ≤ blockSz := by decide

theorem bit_congr {m' : ℕ → Block} {i : ℕ}
    (h : m' (i / blockBits + b.startBlockId) = m (i / blockBits + b.startBlockId)) :
    b.bit m' i = b.bit m i := by
  rw [bit, h, bit]

/-- The bits of one block after it has been replaced. -/
theorem bit_update (k : ℕ) (v : BitmapBlock) (i : ℕ) :
    b.bit (Function.update m (k + b.startBlockId)
      (bitmapBlock.write 0 v (m (k + b.startBlockId)))) i =
    if i / blockBits = k then BitmapBlock.bit v (i % blockBits) else b.bit m i := by
  unfold bit
  by_cases hk : i / blockBits = k
  · rw [if_pos hk, hk, Function.update_self, ByteLayout.read_write size_bitmapBlock]
  · have hne : i / blockBits + b.startBlockId ≠ k + b.startBlockId := by omega
    rw [if_neg hk, Function.update_of_ne hne]

theorem bit_of_block {k r : ℕ} (hr : r < blockBits) : b.bit m (k * blockBits + r) =
    BitmapBlock.bit (bitmapBlock.read 0 (m (k + b.startBlockId))) r := by
  have hdiv : (k * blockBits + r) / blockBits = k := by
    rw [Nat.mul_comm, Nat.mul_add_div (by decide), Nat.div_eq_of_lt hr, Nat.add_zero]
  have hmod : (k * blockBits + r) % blockBits = r := by
    rw [Nat.mul_comm, Nat.mul_add_mod, Nat.mod_eq_of_lt hr]
  rw [bit, hdiv, hmod]

theorem eq_of_div_mod {i j : ℕ} (hdiv : i / blockBits = j / blockBits)
    (hmod : i % blockBits = j % blockBits) : i = j := by
  rw [← Nat.div_add_mod i blockBits, hdiv, hmod, Nat.div_add_mod]

/-- Setting one bit of a block of the bitmap. -/
theorem sets_of_word {k : ℕ} (hk : k < b.blocks) {p : Fin 64} {q : ℕ} (hq : q < 64) {w : UInt64}
    {v : Bool}
    (hw : ∀ j < 64, Word.bit w j =
      if j = q then v else Word.bit (bitmapBlock.read 0 (m (k + b.startBlockId)))[p] j) :
    b.Sets m (k * blockBits + p * 64 + q) v (Function.update m (k + b.startBlockId)
      (bitmapBlock.write 0 (Vector.set (bitmapBlock.read 0 (m (k + b.startBlockId))) p w)
        (m (k + b.startBlockId)))) where
  bit := by
    have hp := p.isLt
    have hbits : blockBits = 64 * 64 := rfl
    have hpq : p * 64 + q < blockBits := by omega
    have hidx : k * blockBits + p * 64 + q = k * blockBits + (p * 64 + q) := by omega
    have hdiv : (k * blockBits + (p * 64 + q)) / blockBits = k := by
      rw [Nat.mul_comm, Nat.mul_add_div (by decide), Nat.div_eq_of_lt hpq, Nat.add_zero]
    have hmod : (k * blockBits + (p * 64 + q)) % blockBits = p * 64 + q := by
      rw [Nat.mul_comm, Nat.mul_add_mod, Nat.mod_eq_of_lt hpq]
    funext i
    rw [bit_update, BitmapBlock.bit_set, hidx]
    by_cases hi : i = k * blockBits + (p * 64 + q)
    · subst hi
      have hq' : (p * 64 + q) / 64 = p := by omega
      have hq'' : (p * 64 + q) % 64 = q := by omega
      rw [Function.update_self, if_pos hdiv, hmod, if_pos hq', hq'', hw q hq, if_pos rfl]
    · rw [Function.update_of_ne hi]
      split
      · next hik =>
        split
        · next hip =>
          have hne : i % blockBits % 64 ≠ q := by
            intro heq
            refine hi (eq_of_div_mod (hik.trans hdiv.symm) ?_)
            rw [hmod]
            omega
          have hib : b.bit m i = BitmapBlock.bit (bitmapBlock.read 0 (m (k + b.startBlockId)))
              (p * 64 + i % blockBits % 64) := by
            rw [Bitmap.bit, hik]
            congr 1
            omega
          rw [hw _ (Nat.mod_lt _ (by decide)), if_neg hne, hib,
            BitmapBlock.bit_add p (Nat.mod_lt _ (by decide))]
        · rw [Bitmap.bit, hik]
      · rfl
  frame id hid := by
    have hne : id ≠ k + b.startBlockId := by
      rintro rfl
      exact hid (region_block hk)
    exact Function.update_of_ne hne _ _

/-- Setting a bit, or clearing one, twice over: nothing of the bitmap changes in between. -/
theorem Sets.trans_of_bit {i : ℕ} {v : Bool} {m₁ m₂ : ℕ → Block} (hbit : b.bit m₁ = b.bit m)
    (hframe : ∀ id, ¬b.Region id → m₁ id = m id) (h : b.Sets m₁ i v m₂) : b.Sets m i v m₂ where
  bit := by rw [h.bit, hbit]
  frame id hid := (h.frame id hid).trans (hframe id hid)

variable [HeldLimit]

/-- **A block with a free bit** gives its first one. -/
theorem does_allocIn_some {k i : ℕ} (hk : k < b.blocks) (hi : i / blockBits = k)
    (hfree : b.bit m i = false) (hbefore : ∀ j < i, j / blockBits = k → b.bit m j = true)
    (hused : ∀ id ∈ used.map Prod.fst, ¬b.Region id) (hroom : used.length < HeldLimit.limit) :
    ∃ m', Does D (b.allocIn D k) used m (some i) m' ∧ b.Sets m i true m' := by
  have hid : k + b.startBlockId ∉ used.map Prod.fst := fun hin ↦
    hused _ hin (region_block hk)
  have hidx : i = k * blockBits + i % blockBits := by
    rw [← hi, Nat.mul_comm, Nat.div_add_mod]
  have hlt : i % blockBits < blockBits := Nat.mod_lt _ (by decide)
  rcases hfind : BitmapBlock.findFree (bitmapBlock.read 0 (m (k + b.startBlockId))) with _ | ⟨p, q⟩
  · have hfull := BitmapBlock.findFree_eq_none hfind hlt
    rw [← bit_of_block hlt, ← hidx, hfree] at hfull
    exact absurd hfull (by simp)
  · obtain ⟨hq, hpq, hfirst⟩ := BitmapBlock.findFree_eq_some hfind
    have hp := p.isLt
    have hbits : blockBits = 64 * 64 := rfl
    -- the first bit of the block that is not set is the given one
    have hmin : p * 64 + q = i % blockBits := by
      rcases Nat.lt_trichotomy (p * 64 + q) (i % blockBits) with hlt' | heq | hgt
      · have hset := hbefore (k * blockBits + (p * 64 + q)) (by omega) (by
          rw [Nat.mul_comm, Nat.mul_add_div (by decide), Nat.div_eq_of_lt (by omega), Nat.add_zero])
        rw [bit_of_block (by omega), hpq] at hset
        exact absurd hset (by simp)
      · exact heq
      · have hset := hfirst _ hgt
        rw [← bit_of_block hlt, ← hidx, hfree] at hset
        exact absurd hset (by simp)
    have hsets := sets_of_word (v := true) hk (p := p) hq (m := m)
      (w := (bitmapBlock.read 0 (m (k + b.startBlockId)))[p] ||| Word.mask q) fun j hj ↦ by
        rw [Word.bit_or _ hq]
        by_cases hjq : j = q <;> simp [hjq]
    have hpos : k * blockBits + p * 64 + q = i := by omega
    rw [hpos] at hsets
    refine ⟨_, does_modifyBlock hid hroom size_bitmapBlock ?_, hsets⟩
    rw [hfind]
    dsimp only
    rw [hpos]
    exact does_pure _

/-- A full block gives none and keeps its bits. -/
theorem does_allocIn_none {k : ℕ} (hk : k < b.blocks)
    (hfull : ∀ i, i / blockBits = k → b.bit m i = true)
    (hused : ∀ id ∈ used.map Prod.fst, ¬b.Region id) (hroom : used.length < HeldLimit.limit) :
    ∃ m', Does D (b.allocIn D k) used m none m' ∧ b.bit m' = b.bit m ∧
      ∀ id, ¬b.Region id → m' id = m id := by
  have hid : k + b.startBlockId ∉ used.map Prod.fst := fun hin ↦
    hused _ hin (region_block hk)
  rcases hfind : BitmapBlock.findFree (bitmapBlock.read 0 (m (k + b.startBlockId))) with _ | ⟨p, q⟩
  · -- the block is written back as it was read
    refine ⟨Function.update m (k + b.startBlockId) (bitmapBlock.write 0
        (bitmapBlock.read 0 (m (k + b.startBlockId))) (m (k + b.startBlockId))),
      does_modifyBlock hid hroom size_bitmapBlock ?_, ?_, fun id hnot ↦ ?_⟩
    · rw [hfind]
      exact does_pure _
    · funext i
      rw [bit_update]
      split
      · next hik => rw [bit, hik]
      · rfl
    · have hne : id ≠ k + b.startBlockId := by
        rintro rfl
        exact hnot (region_block hk)
      exact Function.update_of_ne hne _ _
  · obtain ⟨hq, hpq, -⟩ := BitmapBlock.findFree_eq_some hfind
    have hp := p.isLt
    have hbits : blockBits = 64 * 64 := rfl
    have hset := hfull (k * blockBits + (p * 64 + q)) (by
      rw [Nat.mul_comm, Nat.mul_add_div (by decide), Nat.div_eq_of_lt (by omega), Nat.add_zero])
    rw [bit_of_block (by omega), hpq] at hset
    exact absurd hset (by simp)

/-- The blocks are looked through from the first one on. -/
theorem does_allocFrom {n : ℕ} (k : ℕ) (hn : k + n ≤ b.blocks) {i : ℕ} (hge : k ≤ i / blockBits)
    (hlt : i / blockBits < k + n) (hfree : b.bit m i = false)
    (hbefore : ∀ j < i, k ≤ j / blockBits → b.bit m j = true)
    (hused : ∀ id ∈ used.map Prod.fst, ¬b.Region id) (hroom : used.length < HeldLimit.limit) :
    ∃ m', Does D (b.allocFrom D (List.range' k n)) used m (some i) m' ∧ b.Sets m i true m' := by
  induction n generalizing k m with
  | zero => omega
  | succ n ih =>
    rw [List.range'_succ, allocFrom]
    by_cases hk : i / blockBits = k
    · obtain ⟨m', hm', hsets⟩ := does_allocIn_some (by omega) hk hfree
        (fun j hj hjk ↦ hbefore j hj hjk.ge) hused hroom
      refine ⟨m', hm'.bind ?_, hsets⟩
      rw [Option.isSome_some, if_pos rfl]
      exact does_pure _
    · have hfull : ∀ j, j / blockBits = k → b.bit m j = true := fun j hj ↦ by
        refine hbefore j ?_ hj.ge
        by_contra hle
        have hdiv : i / blockBits ≤ j / blockBits := Nat.div_le_div_right (Nat.le_of_not_lt hle)
        omega
      obtain ⟨m₁, hm₁, hbit, hframe⟩ := does_allocIn_none (D := D) (by omega) hfull hused hroom
      obtain ⟨m', hm', hsets⟩ := ih (m := m₁) (k + 1) (by omega) (by omega) (by omega)
        (by rw [hbit]; exact hfree) fun j hj hjk ↦ by
          rw [hbit]
          exact hbefore j hj (by omega)
      refine ⟨m', hm₁.bind ?_, hsets.trans_of_bit hbit hframe⟩
      rw [Option.isSome_none, if_neg Bool.false_ne_true]
      exact hm'

/-- **Allocation** takes the first free bit. -/
theorem does_alloc {i : ℕ} (hmax : i < b.maximum) (hfree : b.bit m i = false)
    (hbefore : ∀ j < i, b.bit m j = true) (hused : ∀ id ∈ used.map Prod.fst, ¬b.Region id)
    (hroom : used.length < HeldLimit.limit) :
    ∃ m', Does D (b.alloc D) used m (some i) m' ∧ b.Sets m i true m' := by
  rw [alloc, List.range_eq_range']
  have hlt : i / blockBits < b.blocks := (Nat.div_lt_iff_lt_mul (by decide)).mpr hmax
  exact does_allocFrom 0 (by omega) (Nat.zero_le _) (by omega) hfree (fun j hj _ ↦ hbefore j hj)
    hused hroom

/-- Full blocks are looked through to the end. -/
theorem does_allocFrom_none {n : ℕ} (k : ℕ) (hn : k + n ≤ b.blocks)
    (hfull : ∀ i, i / blockBits < k + n → b.bit m i = true)
    (hused : ∀ id ∈ used.map Prod.fst, ¬b.Region id) (hroom : used.length < HeldLimit.limit) :
    ∃ m', Does D (b.allocFrom D (List.range' k n)) used m none m' ∧ b.bit m' = b.bit m ∧
      ∀ id, ¬b.Region id → m' id = m id := by
  induction n generalizing k m with
  | zero => exact ⟨m, does_pure _, rfl, fun _ _ ↦ rfl⟩
  | succ n ih =>
    rw [List.range'_succ, allocFrom]
    obtain ⟨m₁, hm₁, hbit, hframe⟩ := does_allocIn_none (D := D) (k := k) (by omega)
      (fun i hi ↦ hfull i (by omega)) hused hroom
    obtain ⟨m', hm', hbit', hframe'⟩ := ih (m := m₁) (k + 1) (by omega) fun i hi ↦ by
      rw [hbit]
      exact hfull i (by omega)
    refine ⟨m', hm₁.bind ?_, hbit'.trans hbit, fun id hid ↦ (hframe' id hid).trans (hframe id hid)⟩
    rw [Option.isSome_none, if_neg Bool.false_ne_true]
    exact hm'

/-- What an allocation comes to: the first clear bit, which gets set, or nothing when every bit is set. -/
structure Allocates (b : Bitmap) (m : ℕ → Block) (v : Option ℕ) (m' : ℕ → Block) : Prop where
  first : ∀ i, v = some i → IsLeast {j | j < b.maximum ∧ b.bit m j = false} i
  sets : ∀ i, v = some i → b.Sets m i true m'
  none_iff : v = none ↔ ∀ i < b.maximum, b.bit m i = true
  keeps : v = none → b.bit m' = b.bit m ∧ ∀ id, ¬b.Region id → m' id = m id

/-- **Allocation**, whether a bit is clear or not. -/
theorem does_alloc_spec (m : ℕ → Block) (hused : ∀ id ∈ used.map Prod.fst, ¬b.Region id)
    (hroom : used.length < HeldLimit.limit) :
    ∃ v m', Does D (b.alloc D) used m v m' ∧ b.Allocates m v m' := by
  classical
  by_cases hfull : ∀ i < b.maximum, b.bit m i = true
  · obtain ⟨m', hm', hbit, hframe⟩ := does_allocFrom_none (D := D) (n := b.blocks) 0 (by omega)
      (fun i hi ↦ hfull i ((Nat.div_lt_iff_lt_mul (by decide)).mp (by omega))) hused hroom
    refine ⟨none, m', ?_, nofun, nofun, iff_of_true rfl hfull, fun _ ↦ ⟨hbit, hframe⟩⟩
    rwa [alloc, List.range_eq_range']
  · have hexists : ∃ i, i < b.maximum ∧ b.bit m i = false := by simpa using hfull
    obtain ⟨hmax, hfree⟩ := Nat.find_spec hexists
    have hmin := fun j hj ↦ Nat.find_min hexists (m := j) hj
    generalize Nat.find hexists = i at hmax hfree hmin
    have hbefore : ∀ j < i, b.bit m j = true := fun j hj ↦ by
      simpa [hj.trans hmax] using hmin j hj
    obtain ⟨m', hm', hsets⟩ := does_alloc (D := D) hmax hfree hbefore hused hroom
    refine ⟨some i, m', hm', ?_, ?_, iff_of_false nofun hfull, nofun⟩
    · rintro _ ⟨rfl⟩
      refine ⟨⟨hmax, hfree⟩, fun j hj ↦ ?_⟩
      by_contra hlt
      have hclear : b.bit m j = false := hj.2
      rw [hbefore j (Nat.lt_of_not_le hlt)] at hclear
      exact absurd hclear (by simp)
    · rintro _ ⟨rfl⟩
      exact hsets

/-- **Deallocation** clears a bit that is set. -/
theorem does_dealloc {i : ℕ} (hmax : i < b.maximum) (hset : b.bit m i = true)
    (hused : ∀ id ∈ used.map Prod.fst, ¬b.Region id) (hroom : used.length < HeldLimit.limit) :
    ∃ m', Does D (b.dealloc D i) used m () m' ∧ b.Sets m i false m' := by
  have hbits : blockBits = 64 * 64 := rfl
  have hk : i / blockBits < b.blocks := (Nat.div_lt_iff_lt_mul (by decide)).mpr hmax
  have hid : i / blockBits + b.startBlockId ∉ used.map Prod.fst := fun hin ↦
    hused _ hin (region_block hk)
  have hlt : i % blockBits < blockBits := Nat.mod_lt _ (by decide)
  obtain ⟨p, q, hq, hpq, hbit⟩ :=
    BitmapBlock.bit_eq (bitmapBlock.read 0 (m (i / blockBits + b.startBlockId))) hlt
  have hword : Word.bit (bitmapBlock.read 0 (m (i / blockBits + b.startBlockId)))[p] q = true := by
    rw [← hbit]
    exact hset
  have hp := p.isLt
  have hq' : i % blockBits % 64 = q := by omega
  have hp' : i % blockBits / 64 = p := by omega
  have hsets := sets_of_word (v := false) hk (p := p) hq (m := m)
    (w := (bitmapBlock.read 0 (m (i / blockBits + b.startBlockId)))[p] - Word.mask q) fun j hj ↦ by
      rw [Word.bit_sub _ hq hword]
      by_cases hjq : j = q <;> simp [hjq]
  have hpos : i / blockBits * blockBits + p * 64 + q = i := by
    have h := Nat.div_add_mod i blockBits
    rw [Nat.mul_comm] at h
    omega
  rw [hpos] at hsets
  refine ⟨_, does_modifyBlock hid hroom size_bitmapBlock ?_, hsets⟩
  rw [hp', hq']
  refine (does_unwrap (v := (bitmapBlock.read 0 (m (i / blockBits + b.startBlockId)))[p])
    (Vector.getElem?_eq_getElem hp)).bind ((does_assert ((Word.and_mask_pos _ hq).mpr hword)).bind ?_)
  have heq : Vector.setIfInBounds (bitmapBlock.read 0 (m (i / blockBits + b.startBlockId))) p
      ((bitmapBlock.read 0 (m (i / blockBits + b.startBlockId)))[p] - Word.mask q) =
    Vector.set (bitmapBlock.read 0 (m (i / blockBits + b.startBlockId))) p
      ((bitmapBlock.read 0 (m (i / blockBits + b.startBlockId)))[p] - Word.mask q) :=
    Vector.ext fun j hj ↦ by rw [Vector.getElem_set, Vector.getElem_setIfInBounds]
  rw [heq]
  exact does_pure _

end Bitmap

end AgentOS.Fs
