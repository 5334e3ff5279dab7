import Mathlib
import AgentOS.Fs.Bitmap
import AgentOS.Lib.Allocation

/-!
# Runs on a bitmap

Allocations and deallocations of one bitmap, in any order, from any contents of its blocks. What is in use is
the bits that are set.
-/

namespace AgentOS.Fs

open Exec Allocation

attribute [local instance] wholeCache

namespace Bitmap

variable {b : Bitmap} {D : DeviceId} {used : List (ℕ × Bool)} {s t : Storage} {es : List (Event ℕ)}

/-- A call on a bitmap, with the bit it hands out or takes back. Only a bit that is set is given back. -/
inductive Call (b : Bitmap) (D : DeviceId) : Storage → List (Event ℕ) → Storage → Prop where
  | alloc {s t : Storage} {v : Option ℕ} : (b.alloc D).Returns s v t →
      Call b D s (v.toList.map .alloc) t
  | dealloc {s t : Storage} {i : ℕ} : i < b.maximum → b.bit (s.content D) i = true →
      (b.dealloc D i).Returns s () t → Call b D s [.free i] t

/-- The bits that are set. -/
def allocated (b : Bitmap) (D : DeviceId) (s : Storage) : Set ℕ :=
  {i | i < b.maximum ∧ b.bit (s.content D) i = true}

/-- The storage holds some contents, and the blocks in use are not those of the bitmap. -/
structure Free (b : Bitmap) (D : DeviceId) (used : List (ℕ × Bool)) (s : Storage) : Prop where
  view : View D used (s.content D) s
  apart : ∀ id ∈ used.map Prod.fst, ¬b.Region id
  room : used.length < 15

theorem Free.of_view (h : Free b D used s) {m : ℕ → Block} (ht : View D used m t) : Free b D used t where
  view := by rwa [ht.content]
  apart := h.apart
  room := h.room

/-- An allocation returns, and does what it should. -/
theorem Free.alloc (h : Free b D used s) :
    ∃ v t, (b.alloc D).Returns s v t ∧ b.Allocates (s.content D) v (t.content D) ∧
      Free b D used t := by
  obtain ⟨v, m', hdoes, halloc⟩ := does_alloc_spec (D := D) (s.content D) h.apart (h.room.trans (by decide))
  obtain ⟨t, hret, hview, -⟩ := hdoes s h.view
  refine ⟨v, t, hret, ?_, h.of_view hview⟩
  rwa [hview.content]

theorem Free.dealloc (h : Free b D used s) {i : ℕ} (hmax : i < b.maximum)
    (hset : b.bit (s.content D) i = true) :
    ∃ t, (b.dealloc D i).Returns s () t ∧ b.Sets (s.content D) i false (t.content D) ∧
      Free b D used t := by
  obtain ⟨m', hdoes, hsets⟩ := does_dealloc (D := D) hmax hset h.apart (h.room.trans (by decide))
  obtain ⟨t, hret, hview, -⟩ := hdoes s h.view
  refine ⟨t, hret, ?_, h.of_view hview⟩
  rwa [hview.content]

theorem allocated_of_sets {i : ℕ} (hmax : i < b.maximum)
    (h : b.Sets (s.content D) i true (t.content D)) :
    b.allocated D t = insert i (b.allocated D s) := by
  ext j
  simp only [allocated, Set.mem_ofPred_eq, Set.mem_insert_iff, h.bit]
  by_cases hj : j = i
  · subst hj
    simp [hmax]
  · simp [hj]

theorem allocated_of_clears {i : ℕ} (h : b.Sets (s.content D) i false (t.content D)) :
    b.allocated D t = b.allocated D s \ {i} := by
  ext j
  simp only [allocated, Set.mem_ofPred_eq, Set.mem_sdiff, Set.mem_singleton_iff, h.bit]
  by_cases hj : j = i
  · subst hj
    simp
  · simp [hj]

/-- No bit is handed out that is set. -/
theorem sound_call (b : Bitmap) (D : DeviceId) (used : List (ℕ × Bool)) :
    Sound (b.Call D) (b.allocated D) (Free b D used) := by
  have key : ∀ {s t es}, Free b D used s → b.Call D s es t →
      Free b D used t ∧ Lawful (b.allocated D s) es ∧ b.allocated D t = after (b.allocated D s) es := by
    intro s t es hs hcall
    cases hcall with
    | alloc hret =>
      obtain ⟨v, u, hret', halloc, ht⟩ := hs.alloc
      obtain ⟨rfl, rfl⟩ := hret'.det hret
      refine ⟨ht, ?_⟩
      cases v with
      | none =>
        have hkeep : b.allocated D u = b.allocated D s := by
          unfold allocated
          rw [(halloc.keeps rfl).1]
        exact ⟨trivial, hkeep⟩
      | some i =>
        obtain ⟨hmax, hclear⟩ := (halloc.first i rfl).1
        refine ⟨⟨fun hin ↦ ?_, trivial⟩, allocated_of_sets hmax (halloc.sets i rfl)⟩
        rw [hin.2] at hclear
        exact absurd hclear (by simp)
    | dealloc hmax hset hret =>
      obtain ⟨t', hret', hsets, ht⟩ := hs.dealloc hmax hset
      obtain ⟨-, rfl⟩ := hret'.det hret
      exact ⟨ht, ⟨⟨hmax, hset⟩, trivial⟩, allocated_of_clears hsets⟩
  exact ⟨fun hs h ↦ (key hs h).1, fun hs h ↦ (key hs h).2.1, fun hs h ↦ (key hs h).2.2⟩

/-- **Allocation is exact in every run**: the next allocation takes the first clear bit, and fails only when
every bit is set; the next deallocation clears the given bit; a bit is not handed out twice unless it has been
given back in between. The positions `dealloc` finds are those `alloc` computed the bit from. -/
theorem alloc_exact (hs : Free b D used s) (hrun : Runs (b.Call D) s es t) :
    (∃ v u, (b.alloc D).Returns t v u ∧ b.Allocates (t.content D) v (u.content D)) ∧
      (∀ i < b.maximum, b.bit (t.content D) i = true →
        ∃ u, (b.dealloc D i).Returns t () u ∧ b.Sets (t.content D) i false (u.content D)) ∧
      (∀ xs ys zs i, es = xs ++ .alloc i :: (ys ++ .alloc i :: zs) → .free i ∈ ys) ∧
      (∀ k, ∀ p < 64, ∀ q < 64, decomposition (k * blockBits + p * 64 + q) = (k, p, q)) ∧
      ∀ i, (decomposition i).1 * blockBits + (decomposition i).2.1 * 64 + (decomposition i).2.2 = i := by
  obtain ⟨ht, hlawful, -⟩ := (sound_call b D used).runs hs hrun
  refine ⟨?_, fun i hmax hset ↦ ?_, ?_, fun k p hp q hq ↦ decomposition_index k hp hq,
    fun i ↦ (index_decomposition i).1⟩
  · obtain ⟨v, u, hret, halloc, -⟩ := ht.alloc
    exact ⟨v, u, hret, halloc⟩
  · obtain ⟨u, hret, hsets, -⟩ := ht.dealloc hmax hset
    exact ⟨u, hret, hsets⟩
  · rintro xs ys zs i rfl
    exact hlawful.free_mem

theorem free_boot (b : Bitmap) (D : DeviceId) (device : DeviceId → ℕ → Block) :
    Free b D [] (Storage.boot device) where
  view := ⟨Storage.wf_boot _, nofun, rfl, rfl, List.Forall₂.nil⟩
  apart := nofun
  room := by decide

/-- One block of zeros: the first allocation hands out bit 0. -/
theorem alloc_exact_first : ∃ t, (Bitmap.mk 1 1).Free 0 [] t ∧
    Runs ((Bitmap.mk 1 1).Call 0) (Storage.boot fun _ _ ↦ zeroBlock) [.alloc 0] t ∧
    (∃ v u, ((Bitmap.mk 1 1).alloc 0).Returns t v u ∧
      (Bitmap.mk 1 1).Allocates (t.content 0) v (u.content 0)) ∧
    decomposition (0 * blockBits + 63 * 64 + 63) = (0, 63, 63) := by
  have hboot := free_boot ⟨1, 1⟩ 0 fun _ _ ↦ zeroBlock
  obtain ⟨v, t, hret, halloc, ht⟩ := hboot.alloc
  have hclear : (Bitmap.mk 1 1).bit ((Storage.boot fun _ _ ↦ zeroBlock).content 0) 0 = false := by
    rw [Storage.content_boot]
    decide +kernel
  obtain ⟨rfl⟩ : v = some 0 := by
    cases v with
    | none =>
      rw [halloc.none_iff.mp rfl 0 (by decide)] at hclear
      exact absurd hclear (by simp)
    | some i =>
      have hle := (halloc.first i rfl).2 ⟨by decide, hclear⟩
      rw [Nat.le_zero.mp hle]
  have hrun : Runs ((Bitmap.mk 1 1).Call 0) (Storage.boot fun _ _ ↦ zeroBlock) [.alloc 0] t :=
    Runs.nil.snoc (.alloc hret)
  obtain ⟨hnext, -, -, hdecomposition, -⟩ := alloc_exact hboot hrun
  exact ⟨t, ht, hrun, hnext, hdecomposition 0 63 (by decide) 63 (by decide)⟩

end Bitmap

end AgentOS.Fs
