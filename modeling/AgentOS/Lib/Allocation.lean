import Mathlib

/-!
# Histories of allocations

Objects are handed out and given back. A history is lawful when nothing is handed out that is in use and only
what is in use is given back. In such a history an object that is handed out twice has been given back in
between, whatever the allocator does. A system whose steps are lawful has lawful runs.
-/

namespace Allocation

variable {α σ : Type*}

/-- An object is handed out or given back. -/
inductive Event (α : Type*) where
  | alloc (a : α)
  | free (a : α)

namespace Event

/-- What is in use after an event. -/
def apply (live : Set α) : Event α → Set α
  | alloc a => insert a live
  | free a => live \ {a}

def Lawful (live : Set α) : Event α → Prop
  | alloc a => a ∉ live
  | free a => a ∈ live

end Event

/-- What is in use after some events. -/
def after (live : Set α) (es : List (Event α)) : Set α := es.foldl Event.apply live

def Lawful (live : Set α) : List (Event α) → Prop
  | [] => True
  | e :: es => e.Lawful live ∧ Lawful (e.apply live) es

variable {live : Set α} {es xs ys zs : List (Event α)} {a : α}

@[simp] theorem after_nil (live : Set α) : after live [] = live := rfl

@[simp] theorem after_cons (live : Set α) (e : Event α) (es : List (Event α)) :
    after live (e :: es) = after (e.apply live) es := rfl

@[simp] theorem after_append (live : Set α) (xs ys : List (Event α)) :
    after live (xs ++ ys) = after (after live xs) ys := List.foldl_append

theorem lawful_append : Lawful live (xs ++ ys) ↔ Lawful live xs ∧ Lawful (after live xs) ys := by
  induction xs generalizing live with
  | nil => simp [Lawful]
  | cons e xs ih => simp only [List.cons_append, Lawful, ih, after_cons, and_assoc]

/-- What is not given back stays in use. -/
theorem mem_after (ha : a ∈ live) (hfree : Event.free a ∉ es) : a ∈ after live es := by
  induction es generalizing live with
  | nil => exact ha
  | cons e es ih =>
    rw [List.mem_cons, not_or] at hfree
    refine ih ?_ hfree.2
    cases e with
    | alloc b => exact Set.mem_insert_of_mem b ha
    | free b =>
      refine ⟨ha, fun hab ↦ hfree.1 ?_⟩
      rw [Set.mem_singleton_iff.mp hab]

/-- **Between two allocations** of an object it has been given back. -/
theorem Lawful.free_mem (h : Lawful live (xs ++ .alloc a :: (ys ++ .alloc a :: zs))) :
    Event.free a ∈ ys := by
  obtain ⟨-, -, hrest⟩ := lawful_append.mp h
  obtain ⟨-, hnew, -⟩ := lawful_append.mp hrest
  by_contra hfree
  exact hnew (mem_after (Set.mem_insert a _) hfree)

/-! ## Systems -/

/-- The runs of a system, with the events of their steps. -/
inductive Runs (step : σ → List (Event α) → σ → Prop) : σ → List (Event α) → σ → Prop where
  | nil {s : σ} : Runs step s [] s
  | snoc {s t u : σ} {es es' : List (Event α)} :
      Runs step s es t → step t es' u → Runs step s (es ++ es') u

/-- The steps of a system are lawful, as long as an invariant holds. -/
structure Sound (step : σ → List (Event α) → σ → Prop) (inUse : σ → Set α) (Inv : σ → Prop) :
    Prop where
  inv : ∀ {s es t}, Inv s → step s es t → Inv t
  lawful : ∀ {s es t}, Inv s → step s es t → Lawful (inUse s) es
  inUse_eq : ∀ {s es t}, Inv s → step s es t → inUse t = after (inUse s) es

variable {step : σ → List (Event α) → σ → Prop} {inUse : σ → Set α} {Inv : σ → Prop} {s t : σ}

/-- **A run** of lawful steps is lawful. -/
theorem Sound.runs (h : Sound step inUse Inv) (hs : Inv s) (hrun : Runs step s es t) :
    Inv t ∧ Lawful (inUse s) es ∧ inUse t = after (inUse s) es := by
  induction hrun with
  | nil => exact ⟨hs, trivial, rfl⟩
  | snoc _ hstep ih =>
    obtain ⟨ht, hlawful, hlive⟩ := ih
    refine ⟨h.inv ht hstep, lawful_append.mpr ⟨hlawful, ?_⟩, ?_⟩
    · rw [← hlive]
      exact h.lawful ht hstep
    · rw [after_append, ← hlive]
      exact h.inUse_eq ht hstep

/-- A run of steps, and then another. -/
theorem Runs.trans {u : σ} (hst : Runs step s xs t) (htu : Runs step t ys u) :
    Runs step s (xs ++ ys) u := by
  induction htu with
  | nil => rwa [List.append_nil]
  | snoc _ hstep ih =>
    rw [← List.append_assoc]
    exact ih.snoc hstep

end Allocation
