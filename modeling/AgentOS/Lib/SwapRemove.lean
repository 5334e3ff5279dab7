import Mathlib

/-!
# Removing from a vector by swapping

`swap_remove` takes an element out of a vector and puts the last one in its place. A scan that
removes elements this way must look at the same index again. What it keeps and what it takes out are
those a filter would keep and take out, in some order.
-/

namespace SwapRemove

variable {α : Type*}

/-- Take out the element at an index. The last one takes its place. -/
def swapRemove (l : List α) (i : ℕ) : List α :=
  match l.getLast? with
  | none => []
  | some a => (l.set i a).dropLast

/-- The elements before the index stay, and those behind it are reordered. -/
theorem swapRemove_eq {l : List α} {i : ℕ} (h : i < l.length) :
    ∃ r, swapRemove l i = l.take i ++ r ∧ r.Perm (l.drop (i + 1)) := by
  have hsplit : l = l.take i ++ l[i] :: l.drop (i + 1) := by
    rw [List.getElem_cons_drop, List.take_append_drop]
  have hlen : (l.take i).length = i := List.length_take_of_le h.le
  rcases List.eq_nil_or_concat (l.drop (i + 1)) with hnil | ⟨q, b, hq⟩
  · -- the element is the last one
    refine ⟨[], ?_, by rw [hnil]⟩
    rw [hnil] at hsplit
    have hlast : l.getLast? = some l[i] := by
      conv_lhs => rw [hsplit]
      exact List.getLast?_concat
    rw [swapRemove, hlast]
    dsimp only
    rw [List.set_getElem_self]
    conv_lhs => rw [hsplit]
    rw [List.dropLast_concat, List.append_nil]
  · rw [List.concat_eq_append] at hq
    rw [hq, ← List.cons_append, ← List.append_assoc] at hsplit
    have hlast : l.getLast? = some b := by
      conv_lhs => rw [hsplit]
      exact List.getLast?_concat
    refine ⟨b :: q, ?_, ?_⟩
    · rw [swapRemove, hlast]
      dsimp only
      conv_lhs => rw [hsplit]
      rw [List.append_assoc, List.set_append_right _ _ hlen.le, hlen, Nat.sub_self,
        List.cons_append, List.set_cons_zero, ← List.cons_append, ← List.append_assoc,
        List.dropLast_concat]
    · rw [hq]
      exact (List.perm_append_singleton b q).symm

theorem swapRemove_perm {l : List α} {i : ℕ} (h : i < l.length) :
    (l[i] :: swapRemove l i).Perm l := by
  obtain ⟨r, hr, hperm⟩ := swapRemove_eq h
  have hsplit : l.take i ++ l[i] :: l.drop (i + 1) = l := by
    rw [List.getElem_cons_drop, List.take_append_drop]
  have hkeep : (l[i] :: (l.take i ++ r)).Perm (l[i] :: (l.take i ++ l.drop (i + 1))) :=
    (hperm.append_left _).cons _
  rw [hr]
  conv_rhs => rw [← hsplit]
  exact hkeep.trans List.perm_middle.symm

/-- Scan from an index on, take out what satisfies the predicate and collect it. A turn takes an
element out or goes on to the next one. -/
def sweep (p : α → Bool) : ℕ → ℕ → List α → List α → List α × List α
  | 0, _, l, out => (l, out)
  | turns + 1, i, l, out =>
    match l[i]? with
    | none => (l, out)
    | some a => if p a then sweep p turns i (swapRemove l i) (out ++ [a])
      else sweep p turns (i + 1) l out

/-- **The scan** keeps what does not satisfy the predicate and collects what does. -/
theorem sweep_perm (p : α → Bool) {turns i : ℕ} {l : List α} (out : List α)
    (h : l.length ≤ i + turns) :
    ((sweep p turns i l out).1).Perm (l.take i ++ (l.drop i).filter (!p ·)) ∧
      ((sweep p turns i l out).2).Perm (out ++ (l.drop i).filter p) := by
  induction turns generalizing i l out with
  | zero =>
    rw [sweep, List.drop_eq_nil_of_le (by omega), List.take_of_length_le (by omega)]
    simp
  | succ turns ih =>
    rw [sweep]
    by_cases hi : i < l.length
    · have hdrop : l.drop i = l[i] :: l.drop (i + 1) := (List.getElem_cons_drop hi).symm
      rw [List.getElem?_eq_getElem hi]
      dsimp only
      by_cases hp : p l[i] = true
      · obtain ⟨r, hr, hperm⟩ := swapRemove_eq hi
        have hlen : (l.take i).length = i := List.length_take_of_le hi.le
        have hlenr := hperm.length_eq
        rw [List.length_drop] at hlenr
        rw [if_pos hp, hdrop, List.filter_cons_of_pos hp, List.filter_cons_of_neg (by simpa using hp)]
        obtain ⟨h₁, h₂⟩ := ih (i := i) (l := swapRemove l i) (out ++ [l[i]])
          (by rw [hr, List.length_append]; omega)
        have htake : (swapRemove l i).take i = l.take i := by rw [hr, List.take_left' hlen]
        have hdropr : (swapRemove l i).drop i = r := by rw [hr, List.drop_left' hlen]
        rw [htake, hdropr] at h₁
        rw [hdropr] at h₂
        refine ⟨h₁.trans ((hperm.filter _).append_left _), h₂.trans ?_⟩
        rw [List.append_assoc, List.singleton_append]
        exact ((hperm.filter _).cons _).append_left _
      · obtain ⟨h₁, h₂⟩ := ih (i := i + 1) (l := l) out (by omega)
        have htake : l.take (i + 1) = l.take i ++ [l[i]] := (List.take_concat_get' l i hi).symm
        rw [if_neg hp, hdrop, List.filter_cons_of_neg hp, List.filter_cons_of_pos (by simpa using hp)]
        rw [htake, List.append_assoc] at h₁
        exact ⟨h₁, h₂⟩
    · rw [List.getElem?_eq_none (by omega), List.drop_eq_nil_of_le (by omega),
        List.take_of_length_le (by omega)]
      simp

/-- A scan of everything loses nothing. -/
theorem sweep_perm_self (p : α → Bool) (l : List α) :
    ((sweep p l.length 0 l []).2 ++ (sweep p l.length 0 l []).1).Perm l := by
  obtain ⟨hkept, htaken⟩ := sweep_perm p (i := 0) [] (Nat.le_add_left l.length 0)
  simp only [List.take_zero, List.drop_zero, List.nil_append] at hkept htaken
  exact (htaken.append hkept).trans (List.filter_append_perm _ _)

/-- The scan as a loop without a bound on its turns: it ends when the index has passed the end. -/
inductive Sweeps (p : α → Bool) : ℕ → List α → List α → List α × List α → Prop
  | stop {i : ℕ} {l out : List α} (h : l.length ≤ i) : Sweeps p i l out (l, out)
  | take {i : ℕ} {l out : List α} {r : List α × List α} (h : i < l.length) (hp : p l[i] = true)
      (hrest : Sweeps p i (swapRemove l i) (out ++ [l[i]]) r) : Sweeps p i l out r
  | next {i : ℕ} {l out : List α} {r : List α × List α} (h : i < l.length) (hp : p l[i] = false)
      (hrest : Sweeps p (i + 1) l out r) : Sweeps p i l out r

/-- **The scan ends**, after no more turns than there are elements left. -/
theorem sweeps_sweep (p : α → Bool) {turns i : ℕ} {l : List α} (out : List α)
    (h : l.length ≤ i + turns) : Sweeps p i l out (sweep p turns i l out) := by
  induction turns generalizing i l out with
  | zero => exact .stop h
  | succ turns ih =>
    rw [sweep]
    by_cases hi : i < l.length
    · rw [List.getElem?_eq_getElem hi]
      dsimp only
      by_cases hp : p l[i] = true
      · have hlen : (swapRemove l i).length + 1 = l.length := by
          have := (swapRemove_perm hi).length_eq
          simpa using this
        rw [if_pos hp]
        exact .take hi hp (ih _ (by omega))
      · rw [if_neg hp]
        exact .next hi (by simpa using hp) (ih _ (by omega))
    · rw [List.getElem?_eq_none (by omega)]
      exact .stop (by omega)

end SwapRemove
