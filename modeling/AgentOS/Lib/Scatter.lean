import Mathlib

/-!
# Writing a list of values to a list of places

A memory is a function from places to values. `scatter` writes the values of a list to the places of
a list, one after the other; reading the places of a list is `List.map`. With different places, what
was written is read back, and every other place keeps its value.

A write to consecutive places of a numbered memory is the case `List.range'`.
-/

namespace Scatter

variable {L K B : Type*} [DecidableEq L] [DecidableEq K]

/-- Write the values to the places, until either list ends. -/
def scatter : List L → List B → (L → B) → L → B
  | l :: ls, b :: bs, μ => scatter ls bs (Function.update μ l b)
  | _, _, μ => μ

@[simp] theorem scatter_nil_left (bs : List B) (μ : L → B) : scatter [] bs μ = μ := rfl

@[simp] theorem scatter_nil_right (ls : List L) (μ : L → B) : scatter ls [] μ = μ := by
  cases ls <;> rfl

@[simp] theorem scatter_cons (l : L) (ls : List L) (b : B) (bs : List B) (μ : L → B) :
    scatter (l :: ls) (b :: bs) μ = scatter ls bs (Function.update μ l b) := rfl

theorem scatter_append {ls : List L} {bs : List B} (h : ls.length = bs.length) (ls' : List L)
    (bs' : List B) (μ : L → B) :
    scatter (ls ++ ls') (bs ++ bs') μ = scatter ls' bs' (scatter ls bs μ) := by
  induction ls generalizing bs μ with
  | nil =>
    obtain rfl : bs = [] := List.length_eq_zero_iff.mp h.symm
    rfl
  | cons l ls ih =>
    obtain ⟨b, bs, rfl⟩ := List.exists_cons_of_length_eq_add_one h.symm
    exact ih (by simpa using h) _

/-- Places beyond the values are not written. -/
theorem scatter_append_left {ls : List L} {bs : List B} (h : bs.length ≤ ls.length) (ls' : List L)
    (μ : L → B) : scatter (ls ++ ls') bs μ = scatter ls bs μ := by
  induction ls generalizing bs μ with
  | nil =>
    obtain rfl : bs = [] := List.length_eq_zero_iff.mp (Nat.le_zero.mp h)
    simp
  | cons l ls ih =>
    cases bs with
    | nil => simp
    | cons b bs => exact ih (by simpa using h) _

theorem scatter_of_not_mem {ls : List L} {l : L} (h : l ∉ ls) (bs : List B) (μ : L → B) :
    scatter ls bs μ l = μ l := by
  induction ls generalizing bs μ with
  | nil => rfl
  | cons l' ls ih =>
    cases bs with
    | nil => rfl
    | cons b bs =>
      rw [scatter_cons, ih (List.not_mem_of_not_mem_cons h),
        Function.update_of_ne (List.ne_of_not_mem_cons h)]

/-- With different places, what was written is read back. -/
theorem map_scatter {ls : List L} {bs : List B} (hnodup : ls.Nodup) (h : bs.length ≤ ls.length)
    (μ : L → B) : ls.map (scatter ls bs μ) = bs ++ (ls.drop bs.length).map μ := by
  induction ls generalizing bs μ with
  | nil =>
    obtain rfl : bs = [] := List.length_eq_zero_iff.mp (Nat.le_zero.mp h)
    rfl
  | cons l ls ih =>
    cases bs with
    | nil => simp
    | cons b bs =>
      obtain ⟨hl, hnodup⟩ := List.nodup_cons.mp hnodup
      rw [scatter_cons, List.map_cons, scatter_of_not_mem hl, Function.update_self,
        ih hnodup (by simpa using h), List.cons_append, List.length_cons, List.drop_succ_cons]
      have hrest : (ls.drop bs.length).map (Function.update μ l b) = (ls.drop bs.length).map μ := by
        refine List.map_congr_left fun k hk ↦ Function.update_of_ne ?_ _ _
        rintro rfl
        exact hl (List.mem_of_mem_drop hk)
      rw [hrest]

/-- The value at a place afterwards depends on the memory at that place only. -/
theorem scatter_congr {ls : List L} {k : L} (bs : List B) {μ ν : L → B} (h : μ k = ν k) :
    scatter ls bs μ k = scatter ls bs ν k := by
  induction ls generalizing bs μ ν with
  | nil => exact h
  | cons l ls ih =>
    cases bs with
    | nil => exact h
    | cons b bs =>
      refine ih bs ?_
      by_cases hk : k = l
      · rw [hk, Function.update_self, Function.update_self]
      · rw [Function.update_of_ne hk, Function.update_of_ne hk, h]

/-- Seen through a renaming of places that keeps the written ones apart from the one looked at, a
write is a write to the renamed places. -/
theorem scatter_map_apply {g : K → L} {ls : List K} {k : K}
    (hinj : ∀ l ∈ ls, g l = g k → l = k) (bs : List B) (μ : L → B) :
    scatter (ls.map g) bs μ (g k) = scatter ls bs (μ ∘ g) k := by
  induction ls generalizing bs μ with
  | nil => rfl
  | cons l ls ih =>
    cases bs with
    | nil => rfl
    | cons b bs =>
      rw [List.map_cons, scatter_cons, scatter_cons,
        ih fun l' hl' ↦ hinj l' (List.mem_cons_of_mem _ hl')]
      refine scatter_congr bs ?_
      by_cases hk : l = k
      · subst hk
        simp
      · have hne : g k ≠ g l := fun e ↦ hk (hinj l List.mem_cons_self e.symm)
        rw [Function.comp_apply, Function.update_of_ne hne, Function.update_of_ne (Ne.symm hk),
          Function.comp_apply]

/-! ## Consecutive places -/

/-- Inside the written interval there is the value written, outside the old one. -/
theorem scatter_range' (off : ℕ) (bs : List B) (μ : ℕ → B) (k : ℕ) :
    scatter (List.range' off bs.length) bs μ k =
      if k < off then μ k else bs[k - off]?.getD (μ k) := by
  induction bs generalizing off μ with
  | nil => simp
  | cons b bs ih =>
    rw [List.length_cons, List.range'_succ, scatter_cons, ih]
    rcases lt_trichotomy k off with hlt | rfl | hgt
    · rw [if_pos (by omega), if_pos hlt, Function.update_of_ne (by omega)]
    · rw [if_pos (by omega), if_neg (by omega), Function.update_self]
      simp
    · have hsub : k - off = (k - (off + 1)) + 1 := by omega
      rw [if_neg (by omega), if_neg (by omega), Function.update_of_ne (by omega), hsub,
        List.getElem?_cons_succ]

end Scatter
