import Mathlib

/-!
# Records packed in a buffer

Records of different sizes lie back to back in a buffer. What is remembered of them is where each one
starts. Appending a record, dropping the last ones and erasing one in the middle (which moves all the
later ones to the left) keep the records packed.

A buffer is a function from offsets to cells. `Holds` says that it has a given list of cells at an
offset, and `MovedLeft` what it looks like while part of it is being moved.
-/

namespace Packed

variable {α B : Type*}

/-! ## Positions -/

/-- The records of a list, each with the offset it starts at. -/
def positions (size : α → ℕ) : ℕ → List α → List (ℕ × α)
  | _, [] => []
  | off, a :: as => (off, a) :: positions size (off + size a) as

/-- The space the records take. -/
def total (size : α → ℕ) (l : List α) : ℕ := (l.map size).sum

variable {size : α → ℕ}

@[simp] theorem total_nil : total size [] = 0 := rfl

@[simp] theorem total_cons (a : α) (l : List α) : total size (a :: l) = size a + total size l := by
  simp [total]

@[simp] theorem total_append (l l' : List α) :
    total size (l ++ l') = total size l + total size l' := by
  simp [total]

@[simp] theorem length_positions (off : ℕ) (l : List α) :
    (positions size off l).length = l.length := by
  induction l generalizing off with
  | nil => rfl
  | cons a l ih => simp [positions, ih]

theorem positions_append (off : ℕ) (l l' : List α) :
    positions size off (l ++ l') =
      positions size off l ++ positions size (off + total size l) l' := by
  induction l generalizing off with
  | nil => rfl
  | cons a l ih =>
    rw [List.cons_append, positions, positions, ih, total_cons, Nat.add_assoc]
    rfl

theorem positions_take (off n : ℕ) (l : List α) :
    positions size off (l.take n) = (positions size off l).take n := by
  induction l generalizing off n with
  | nil => simp [positions]
  | cons a l ih =>
    cases n with
    | zero => simp [positions]
    | succ n => simp [positions, ih]

theorem positions_drop (off : ℕ) {n : ℕ} {l : List α} (hn : n ≤ l.length) :
    (positions size off l).drop n = positions size (off + total size (l.take n)) (l.drop n) := by
  have hlen : (positions size off (l.take n)).length = n := by
    rw [length_positions, List.length_take_of_le hn]
  conv_lhs => rw [← List.take_append_drop n l, positions_append]
  exact List.drop_left' hlen

/-- Each record starts where the records before it end. -/
theorem getElem?_positions {off i : ℕ} {l : List α} (h : i < l.length) :
    (positions size off l)[i]? = some (off + total size (l.take i), l[i]) := by
  induction l generalizing off i with
  | nil => simp at h
  | cons a l ih =>
    cases i with
    | zero => simp [positions]
    | succ i =>
      have hi : i < l.length := by simpa using h
      simp only [positions, List.getElem?_cons_succ, ih hi, List.take_succ_cons, total_cons,
        List.getElem_cons_succ, Nat.add_assoc]

theorem le_of_mem_positions {off : ℕ} {l : List α} {p : ℕ × α} (h : p ∈ positions size off l) :
    off ≤ p.1 ∧ p.1 + size p.2 ≤ off + total size l := by
  induction l generalizing off with
  | nil => simp [positions] at h
  | cons a l ih =>
    rw [positions] at h
    rw [total_cons]
    rcases List.mem_cons.mp h with rfl | h
    · exact ⟨le_rfl, by dsimp only; omega⟩
    · obtain ⟨h₁, h₂⟩ := ih h
      exact ⟨by omega, by omega⟩

/-- Moving all records moves their positions. -/
theorem positions_shift (off n : ℕ) (l : List α) :
    (positions size (off + n) l).map (fun p ↦ (p.1 - n, p.2)) = positions size off l := by
  induction l generalizing off with
  | nil => rfl
  | cons a l ih =>
    have hoff : off + n + size a = off + size a + n := by omega
    rw [positions, positions, List.map_cons, hoff, ih, Nat.add_sub_cancel]

/-- **Erasing a record.** The records behind it move by its size. -/
theorem positions_eraseIdx {off i : ℕ} {l : List α} (h : i < l.length)
    (hsize : ∀ a ∈ l, 0 < size a) :
    positions size off (l.eraseIdx i) =
      ((positions size off l).eraseIdx i).map fun p ↦
        if off + total size (l.take i) + size l[i] ≤ p.1 then (p.1 - size l[i], p.2) else p := by
  induction l generalizing off i with
  | nil => simp at h
  | cons a l ih =>
    cases i with
    | zero =>
      simp only [positions, List.eraseIdx_cons_zero, List.getElem_cons_zero, List.take_zero,
        total_nil, Nat.add_zero]
      conv_lhs => rw [← positions_shift off (size a) l]
      refine List.map_congr_left fun p hp ↦ ?_
      exact (if_pos (le_of_mem_positions hp).1).symm
    | succ i =>
      have hi : i < l.length := by simpa using h
      have hpos := hsize _ (List.mem_cons_of_mem a (List.getElem_mem hi))
      simp only [positions, List.eraseIdx_cons_succ, List.getElem_cons_succ, List.take_succ_cons,
        total_cons, List.map_cons]
      rw [if_neg (by omega), ih hi fun b hb ↦ hsize b (List.mem_cons_of_mem a hb)]
      simp only [← Nat.add_assoc]

theorem total_eraseIdx {i : ℕ} {l : List α} (h : i < l.length) :
    total size (l.eraseIdx i) + size l[i] = total size l := by
  have hsplit : l = l.take i ++ l[i] :: l.drop (i + 1) := by
    rw [List.getElem_cons_drop, List.take_append_drop]
  conv_rhs => rw [hsplit]
  rw [List.eraseIdx_eq_take_drop_succ, total_append, total_append, total_cons]
  omega

/-! ## Contents -/

/-- From the offset on, the buffer has these cells. -/
def Holds (μ : ℕ → B) (off : ℕ) (cells : List B) : Prop :=
  ∀ i (h : i < cells.length), μ (off + i) = cells[i]

@[simp] theorem holds_nil (μ : ℕ → B) (off : ℕ) : Holds μ off [] := fun i h ↦ absurd h (by simp)

theorem holds_append {μ : ℕ → B} {off : ℕ} {cells cells' : List B} :
    Holds μ off (cells ++ cells') ↔
      Holds μ off cells ∧ Holds μ (off + cells.length) cells' := by
  constructor
  · intro h
    refine ⟨fun i hi ↦ ?_, fun i hi ↦ ?_⟩
    · rw [h i (by rw [List.length_append]; omega), List.getElem_append_left hi]
    · rw [Nat.add_assoc, h (cells.length + i) (by rw [List.length_append]; omega)]
      simp
  · rintro ⟨h₁, h₂⟩ i hi
    rw [List.length_append] at hi
    by_cases hlt : i < cells.length
    · rw [List.getElem_append_left hlt, h₁ i hlt]
    · have hi' : off + i = off + cells.length + (i - cells.length) := by omega
      rw [List.getElem_append_right (Nat.le_of_not_lt hlt), hi', h₂]

/-- Reading the cells back. -/
theorem Holds.read {μ : ℕ → B} {off : ℕ} {cells : List B} (h : Holds μ off cells) :
    (List.range' off cells.length).map μ = cells := by
  refine List.ext_getElem (by simp) fun i hi hi' ↦ ?_
  simpa using h i hi'

theorem Holds.congr {μ ν : ℕ → B} {off : ℕ} {cells : List B} (h : Holds μ off cells)
    (heq : ∀ k, off ≤ k → k < off + cells.length → ν k = μ k) : Holds ν off cells := fun i hi ↦ by
  rw [heq (off + i) (by omega) (by omega), h i hi]

/-- The cells of packed records, one record at a time. -/
theorem Holds.of_mem_positions {μ : ℕ → B} {off : ℕ} {l : List α} {enc : α → List B}
    (hsize : ∀ a, (enc a).length = size a) (h : Holds μ off (l.flatMap enc)) {p : ℕ × α}
    (hp : p ∈ positions size off l) : Holds μ p.1 (enc p.2) := by
  induction l generalizing off with
  | nil => simp [positions] at hp
  | cons a l ih =>
    rw [List.flatMap_cons, holds_append, hsize] at h
    rw [positions] at hp
    rcases List.mem_cons.mp hp with rfl | hp
    · exact h.1
    · exact ih h.2 hp

theorem length_flatMap {l : List α} {enc : α → List B} (hsize : ∀ a, (enc a).length = size a) :
    (l.flatMap enc).length = total size l := by
  simp [List.length_flatMap, total, hsize]

/-! ## Moving a part to the left

The part is copied cell by cell, or in runs of cells each of which is read before it is written, from
left to right. The source and the destination may overlap. -/

/-- The first `n` cells from `src` on are at `dst`. Everything else is as it was. -/
structure MovedLeft (src dst n : ℕ) (μ ν : ℕ → B) : Prop where
  copied : ∀ i < n, ν (dst + i) = μ (src + i)
  frame : ∀ k, k < dst ∨ dst + n ≤ k → ν k = μ k

theorem movedLeft_zero (src dst : ℕ) (μ : ℕ → B) : MovedLeft src dst 0 μ μ :=
  ⟨fun i hi ↦ absurd hi (Nat.not_lt_zero i), fun _ _ ↦ rfl⟩

/-- **The next run.** Its cells have not been written yet, because the destination is to the left. -/
theorem MovedLeft.step {src dst n k : ℕ} {μ ν ν' : ℕ → B} (hle : dst ≤ src)
    (h : MovedLeft src dst n μ ν) (hcopied : ∀ i < k, ν' (dst + n + i) = ν (src + n + i))
    (hframe : ∀ j, j < dst + n ∨ dst + n + k ≤ j → ν' j = ν j) :
    MovedLeft src dst (n + k) μ ν' where
  copied i hi := by
    by_cases hlt : i < n
    · rw [hframe (dst + i) (Or.inl (by omega)), h.copied i hlt]
    · have hd : dst + i = dst + n + (i - n) := by omega
      have hs : src + i = src + n + (i - n) := by omega
      rw [hd, hs, hcopied (i - n) (by omega), h.frame _ (Or.inr (by omega))]
  frame j hj := by
    rw [hframe j (by omega), h.frame j (by omega)]

/-- **Erasing a record** is moving what lies behind it over it. -/
theorem MovedLeft.holds_eraseIdx {μ ν : ℕ → B} {off i : ℕ} {l : List α} {enc : α → List B}
    (hsize : ∀ a, (enc a).length = size a) (hi : i < l.length) (h : Holds μ off (l.flatMap enc))
    (hmoved : MovedLeft (off + total size (l.take i) + size l[i]) (off + total size (l.take i))
      (total size (l.drop (i + 1))) μ ν) :
    Holds ν off ((l.eraseIdx i).flatMap enc) := by
  have hsplit : l.flatMap enc =
      (l.take i).flatMap enc ++ (enc l[i] ++ (l.drop (i + 1)).flatMap enc) := by
    rw [← List.flatMap_cons, List.getElem_cons_drop, ← List.flatMap_append, List.take_append_drop]
  rw [hsplit, holds_append, holds_append, length_flatMap hsize, hsize] at h
  obtain ⟨hbefore, -, hbehind⟩ := h
  rw [List.eraseIdx_eq_take_drop_succ, List.flatMap_append, holds_append, length_flatMap hsize]
  refine ⟨hbefore.congr fun k _ hk ↦ hmoved.frame k (Or.inl ?_), fun j hj ↦ ?_⟩
  · rwa [length_flatMap hsize] at hk
  · rw [hmoved.copied j (by rwa [length_flatMap hsize] at hj), hbehind j hj]

end Packed
