import Mathlib

/-!
# Write-back caches

A write-back cache keeps copies of some cells of a backing store. Writes go to the copy, which is then
ahead of the store until it is written back. A cell's content is its copy, when there is one, and what
the store has for it otherwise.

Copies may be loaded, written back and dropped at any time, in any order. None of this changes a
content, as long as a copy that is dropped is not ahead of the store (`Coherent`).
-/

/-- A backing store and the copies of some of its cells, each with whether it is ahead. -/
@[ext] structure WriteBack (K V : Type*) where
  backing : K → V
  line : K → Option (V × Bool)

namespace WriteBack

variable {K V : Type*}

/-- What a cell holds. -/
def content (c : WriteBack K V) (k : K) : V := ((c.line k).map Prod.fst).getD (c.backing k)

/-- The copies that are not ahead agree with the store. -/
def Coherent (c : WriteBack K V) : Prop := ∀ k v, c.line k = some (v, false) → c.backing k = v

/-- No copy is ahead. -/
def Synced (c : WriteBack K V) : Prop := ∀ k v b, c.line k = some (v, b) → b = false

variable {c : WriteBack K V} {k k' : K} {v : V}

theorem content_of_line {b : Bool} (h : c.line k = some (v, b)) : c.content k = v := by
  rw [content, h]
  rfl

theorem content_of_none (h : c.line k = none) : c.content k = c.backing k := by
  rw [content, h]
  rfl

/-- When no copy is ahead, the store holds every content. -/
theorem Coherent.backing_eq (h : c.Coherent) (hsynced : c.Synced) (k : K) :
    c.backing k = c.content k := by
  rcases hline : c.line k with _ | ⟨v, b⟩
  · exact (content_of_none hline).symm
  · obtain rfl : b = false := hsynced k v b hline
    rw [content_of_line hline, h k v hline]

variable [DecidableEq K]

/-- Take a copy from the store. -/
def load (k : K) (c : WriteBack K V) : WriteBack K V :=
  { c with line := Function.update c.line k (some (c.backing k, false)) }

/-- Write to the copy. -/
def write (k : K) (v : V) (c : WriteBack K V) : WriteBack K V :=
  { c with line := Function.update c.line k (some (v, true)) }

/-- Write a copy back if it is ahead. -/
def flush (k : K) (c : WriteBack K V) : WriteBack K V :=
  match c.line k with
  | some (v, true) =>
    { backing := Function.update c.backing k v
      line := Function.update c.line k (some (v, false)) }
  | _ => c

/-- Forget a copy. -/
def drop (k : K) (c : WriteBack K V) : WriteBack K V :=
  { c with line := Function.update c.line k none }

theorem Coherent.load (h : c.Coherent) (k : K) : (c.load k).Coherent := by
  intro k' v hline
  by_cases hk : k' = k
  · subst hk
    have hline' : some (c.backing k', false) = some (v, false) := by
      simpa [WriteBack.load] using hline
    simpa [WriteBack.load] using hline'
  · exact h k' v (by simpa [WriteBack.load, Function.update_of_ne hk] using hline)

theorem content_load (h : c.line k = none) : (c.load k).content = c.content := by
  funext k'
  by_cases hk : k' = k
  · subst hk
    simp [content, load, h]
  · simp [content, load, Function.update_of_ne hk]

theorem Coherent.write (h : c.Coherent) (k : K) (v : V) : (c.write k v).Coherent := by
  intro k' v' hline
  by_cases hk : k' = k
  · subst hk
    simp [WriteBack.write] at hline
  · exact h k' v' (by simpa [WriteBack.write, Function.update_of_ne hk] using hline)

theorem content_write : (c.write k v).content = Function.update c.content k v := by
  funext k'
  by_cases hk : k' = k
  · subst hk
    simp [content, write]
  · simp [content, write, Function.update_of_ne hk]

theorem flush_of_ahead (h : c.line k = some (v, true)) :
    c.flush k = { backing := Function.update c.backing k v
                  line := Function.update c.line k (some (v, false)) } := by
  rw [flush, h]

theorem flush_of_not_ahead (h : ∀ v, c.line k ≠ some (v, true)) : c.flush k = c := by
  unfold flush
  split
  · next v hline => exact absurd hline (h v)
  · rfl

theorem Coherent.flush (h : c.Coherent) (k : K) : (c.flush k).Coherent := by
  by_cases hahead : ∃ v, c.line k = some (v, true)
  · obtain ⟨v, hline⟩ := hahead
    rw [flush_of_ahead hline]
    intro k' v' hline'
    by_cases hk : k' = k
    · subst hk
      simpa using hline'
    · simp only [Function.update_of_ne hk] at hline' ⊢
      exact h k' v' hline'
  · rwa [flush_of_not_ahead fun v hline ↦ hahead ⟨v, hline⟩]

theorem content_flush : (c.flush k).content = c.content := by
  by_cases hahead : ∃ v, c.line k = some (v, true)
  · obtain ⟨v, hline⟩ := hahead
    rw [flush_of_ahead hline]
    funext k'
    by_cases hk : k' = k
    · subst hk
      simp [content, hline]
    · simp [content, Function.update_of_ne hk]
  · rw [flush_of_not_ahead fun v hline ↦ hahead ⟨v, hline⟩]

/-- Writing a copy back changes no cell the store is up to date for. -/
theorem backing_flush (h : c.backing k' = c.content k') : (c.flush k).backing k' = c.backing k' := by
  by_cases hahead : ∃ v, c.line k = some (v, true)
  · obtain ⟨w, hline⟩ := hahead
    rw [flush_of_ahead hline]
    by_cases hk : k' = k
    · subst hk
      change Function.update c.backing k' w k' = _
      rw [Function.update_self, h, content_of_line hline]
    · exact Function.update_of_ne hk _ _
  · rw [flush_of_not_ahead fun v hline ↦ hahead ⟨v, hline⟩]

theorem Coherent.drop (h : c.Coherent) (k : K) : (c.drop k).Coherent := by
  intro k' v hline
  by_cases hk : k' = k
  · subst hk
    simp [WriteBack.drop] at hline
  · exact h k' v (by simpa [WriteBack.drop, Function.update_of_ne hk] using hline)

/-- Forgetting a copy that is not ahead loses nothing. -/
theorem Coherent.content_drop (h : c.Coherent) (hclean : ∀ v, c.line k ≠ some (v, true)) :
    (c.drop k).content = c.content := by
  funext k'
  by_cases hk : k' = k
  · subst hk
    rcases hline : c.line k' with _ | ⟨v, b⟩
    · simp [content, WriteBack.drop, hline]
    · cases b with
      | true => exact absurd hline (hclean v)
      | false => simp [content, WriteBack.drop, hline, h k' v hline]
  · simp [content, WriteBack.drop, Function.update_of_ne hk]

theorem not_ahead_flush (v : V) : (c.flush k).line k ≠ some (v, true) := by
  by_cases hahead : ∃ v, c.line k = some (v, true)
  · obtain ⟨w, hline⟩ := hahead
    rw [flush_of_ahead hline]
    simp
  · rw [flush_of_not_ahead fun v hline ↦ hahead ⟨v, hline⟩]
    exact fun hline ↦ hahead ⟨v, hline⟩

/-- **Evicting a copy** after writing it back changes no content. -/
theorem Coherent.content_evict (h : c.Coherent) (k : K) :
    ((c.flush k).drop k).content = c.content := by
  rw [(h.flush k).content_drop not_ahead_flush, content_flush]

end WriteBack
