import Mathlib

/-!
# Consecutive segments

Segments of the natural numbers, each given by where it starts and how long it is, that follow one another
without a gap. They are disjoint, and together they are one interval.
-/

namespace Tiling

/-- The numbers of a segment. -/
def extent (p : ℕ × ℕ) : Set ℕ := Set.Ico p.1 (p.1 + p.2)

/-- Each segment starts where the one before it ends. -/
def Tiles (hi : ℕ) : ℕ → List (ℕ × ℕ) → Prop
  | lo, [] => lo = hi
  | lo, p :: rest => p.1 = lo ∧ Tiles hi (lo + p.2) rest

variable {lo hi x : ℕ} {l : List (ℕ × ℕ)}

theorem Tiles.le (h : Tiles hi lo l) : lo ≤ hi := by
  induction l generalizing lo with
  | nil => exact Nat.le_of_eq h
  | cons p rest ih => exact (Nat.le_add_right _ _).trans (ih h.2)

/-- **The segments cover the interval** and nothing else. -/
theorem Tiles.exists_mem_iff (h : Tiles hi lo l) :
    (∃ p ∈ l, x ∈ extent p) ↔ lo ≤ x ∧ x < hi := by
  induction l generalizing lo with
  | nil =>
    obtain rfl : lo = hi := h
    exact iff_of_false (fun ⟨_, hp, _⟩ ↦ absurd hp List.not_mem_nil) (by omega)
  | cons p rest ih =>
    obtain ⟨rfl, hrest⟩ := h
    have hle := hrest.le
    simp only [List.mem_cons, exists_eq_or_imp, ih hrest]
    rw [extent, Set.mem_Ico]
    omega

theorem Tiles.le_of_mem {p : ℕ × ℕ} (h : Tiles hi lo l) (hp : p ∈ l) : lo ≤ p.1 := by
  induction l generalizing lo with
  | nil => exact absurd hp List.not_mem_nil
  | cons q rest ih =>
    rcases List.mem_cons.mp hp with rfl | hp
    · exact h.1.ge
    · exact (Nat.le_add_right _ _).trans (ih h.2 hp)

/-- **The segments are disjoint.** -/
theorem Tiles.pairwise_disjoint (h : Tiles hi lo l) :
    l.Pairwise fun p q ↦ Disjoint (extent p) (extent q) := by
  induction l generalizing lo with
  | nil => exact List.Pairwise.nil
  | cons p rest ih =>
    obtain ⟨rfl, hrest⟩ := h
    refine List.Pairwise.cons (fun q hq ↦ ?_) (ih hrest)
    have hle := hrest.le_of_mem hq
    exact Set.disjoint_left.mpr fun x hx hx' ↦ Nat.not_lt.mpr (hle.trans hx'.1) hx.2

end Tiling
