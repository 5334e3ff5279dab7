import Mathlib

/-!
# Computations that can panic

A computation over a state either returns a value or panics, and in both cases leaves a state
behind. Keeping the state of a panicking computation is what lets a statement speak about the
effects it had before it stopped; `StateT σ Option` would forget them.

Computations are reasoned about through `Returns`, the relation between the state before, the value
and the state after. The rules below take a computation apart along its binds. Running a computation
on a component of a larger state is `zoom`.
-/

/-- A computation over states `σ`: a value, or `none` for a panic, and the state it stopped in. -/
def Exec (σ α : Type) : Type := σ → Option α × σ

namespace Exec

variable {σ τ α β : Type}

instance : Monad (Exec σ) where
  pure a := fun s ↦ (some a, s)
  bind x f := fun s ↦ match x s with
    | (some a, s') => f a s'
    | (none, s') => (none, s')

/-- Stop here. -/
def panic : Exec σ α := fun s ↦ (none, s)

/-- The current state. -/
def get : Exec σ σ := fun s ↦ (some s, s)

/-- Apply a function to the state. -/
def modify (f : σ → σ) : Exec σ Unit := fun s ↦ (some (), f s)

/-- `Option::unwrap`: the value, or a panic. -/
def unwrap : Option α → Exec σ α
  | some a => pure a
  | none => panic

/-- `assert!`. -/
def assert (p : Prop) [Decidable p] : Exec σ Unit := if p then pure () else panic

/-- Run a computation on a component of the state. -/
def zoom (view : σ → τ) (put : τ → σ → σ) (x : Exec τ α) : Exec σ α := fun s ↦
  ((x (view s)).1, put (x (view s)).2 s)

/-! ## Returning -/

/-- From `s`, the computation returns `a` and stops in `s'`. -/
def Returns (x : Exec σ α) (s : σ) (a : α) (s' : σ) : Prop := x s = (some a, s')

theorem Returns.eq {x : Exec σ α} {s s' : σ} {a : α} (h : x.Returns s a s') :
    x s = (some a, s') := h

/-- A computation that gives a value returns it. -/
theorem returns_of_fst {x : Exec σ α} {s : σ} {a : α} (h : (x s).1 = some a) :
    x.Returns s a (x s).2 := Prod.ext h rfl

/-- A computation returns at most one value and one state. -/
theorem Returns.det {x : Exec σ α} {s s₁ s₂ : σ} {a b : α} (h₁ : x.Returns s a s₁)
    (h₂ : x.Returns s b s₂) : a = b ∧ s₁ = s₂ := by
  have h := h₁.symm.trans h₂
  simpa using h

@[simp] theorem returns_pure {a b : α} {s s' : σ} :
    (pure a : Exec σ α).Returns s b s' ↔ b = a ∧ s' = s := by
  unfold Returns
  constructor
  · intro h
    have h' : (some a, s) = (some b, s') := h
    simp only [Prod.mk.injEq, Option.some.injEq] at h'
    exact ⟨h'.1.symm, h'.2.symm⟩
  · rintro ⟨rfl, rfl⟩
    rfl

/-- A bind returns when both halves do. -/
@[simp] theorem returns_bind {x : Exec σ α} {f : α → Exec σ β} {s s' : σ} {b : β} :
    (x >>= f).Returns s b s' ↔ ∃ a t, x.Returns s a t ∧ (f a).Returns t b s' := by
  unfold Returns
  have hdef : (x >>= f) s = match x s with
    | (some a, t) => f a t
    | (none, t) => (none, t) := rfl
  rw [hdef]
  rcases x s with ⟨_ | a, t⟩
  · simp
  · simp

theorem Returns.bind {x : Exec σ α} {f : α → Exec σ β} {s t s' : σ} {a : α} {b : β}
    (hx : x.Returns s a t) (hf : (f a).Returns t b s') : (x >>= f).Returns s b s' :=
  returns_bind.mpr ⟨a, t, hx, hf⟩

/-- After a first half that returns, a bind is its second half. -/
theorem Returns.bind_apply {x : Exec σ α} {s t : σ} {a : α} (hx : x.Returns s a t)
    (f : α → Exec σ β) : (x >>= f) s = f a t := by
  have hdef : (x >>= f) s = match x s with
    | (some a, t) => f a t
    | (none, t) => (none, t) := rfl
  rw [hdef, hx.eq]

@[simp] theorem returns_panic {a : α} {s s' : σ} : (panic : Exec σ α).Returns s a s' ↔ False := by
  simp [Returns, panic]

@[simp] theorem returns_get {s s' t : σ} : (get : Exec σ σ).Returns s t s' ↔ t = s ∧ s' = s := by
  simp [Returns, get, eq_comm]

@[simp] theorem returns_modify {f : σ → σ} {s s' : σ} {u : Unit} :
    (modify f).Returns s u s' ↔ s' = f s := by
  simp [Returns, modify, eq_comm]

@[simp] theorem returns_unwrap {o : Option α} {s s' : σ} {a : α} :
    (unwrap o : Exec σ α).Returns s a s' ↔ o = some a ∧ s' = s := by
  cases o <;> simp [unwrap, eq_comm]

@[simp] theorem returns_assert {p : Prop} [Decidable p] {s s' : σ} {u : Unit} :
    (assert p : Exec σ Unit).Returns s u s' ↔ p ∧ s' = s := by
  unfold assert
  split <;> simp_all

theorem returns_assert_of {p : Prop} [Decidable p] (h : p) (s : σ) :
    (assert p : Exec σ Unit).Returns s () s :=
  returns_assert.mpr ⟨h, rfl⟩

theorem returns_ite {p : Prop} [Decidable p] {x y : Exec σ α} {s s' : σ} {a : α} :
    (if p then x else y).Returns s a s' ↔ (p ∧ x.Returns s a s') ∨ (¬p ∧ y.Returns s a s') := by
  split <;> simp_all

@[simp] theorem returns_zoom {view : σ → τ} {put : τ → σ → σ} {x : Exec τ α} {s s' : σ} {a : α} :
    (zoom view put x).Returns s a s' ↔ ∃ t, x.Returns (view s) a t ∧ s' = put t s := by
  unfold Returns zoom
  constructor
  · intro h
    simp only [Prod.mk.injEq] at h
    exact ⟨(x (view s)).2, Prod.ext h.1 rfl, h.2.symm⟩
  · rintro ⟨t, hx, rfl⟩
    rw [hx]

/-! ## Preservation

A relation between states that every returning part of a computation keeps is kept by the whole. -/

/-- Whenever the computation returns, the relation holds between the states. -/
def Keeps (R : σ → σ → Prop) (x : Exec σ α) : Prop := ∀ s a s', x.Returns s a s' → R s s'

section Keeps

variable {R : σ → σ → Prop}

theorem keeps_pure [Std.Refl R] (a : α) : Keeps R (pure a : Exec σ α) := by
  intro s b s' h
  obtain ⟨-, rfl⟩ := returns_pure.mp h
  exact Std.Refl.refl _

theorem keeps_get [Std.Refl R] : Keeps R (get : Exec σ σ) := by
  intro s b s' h
  obtain ⟨-, rfl⟩ := returns_get.mp h
  exact Std.Refl.refl _

theorem keeps_panic : Keeps R (panic : Exec σ α) := fun _ _ _ h ↦ (returns_panic.mp h).elim

theorem keeps_unwrap [Std.Refl R] (o : Option α) : Keeps R (unwrap o : Exec σ α) := by
  intro s b s' h
  obtain ⟨-, rfl⟩ := returns_unwrap.mp h
  exact Std.Refl.refl _

theorem keeps_assert [Std.Refl R] (p : Prop) [Decidable p] : Keeps R (assert p : Exec σ Unit) := by
  intro s b s' h
  obtain ⟨-, rfl⟩ := returns_assert.mp h
  exact Std.Refl.refl _

theorem keeps_modify {f : σ → σ} (h : ∀ s, R s (f s)) : Keeps R (modify f) := by
  intro s b s' hf
  rw [returns_modify.mp hf]
  exact h s

theorem keeps_bind [IsTrans σ R] {x : Exec σ α} {f : α → Exec σ β} (hx : Keeps R x)
    (hf : ∀ a, Keeps R (f a)) : Keeps R (x >>= f) := by
  intro s b s' h
  obtain ⟨a, t, ha, hb⟩ := returns_bind.mp h
  exact IsTrans.trans s t s' (hx s a t ha) (hf a t b s' hb)

theorem keeps_ite {p : Prop} [Decidable p] {x y : Exec σ α} (hx : Keeps R x) (hy : Keeps R y) :
    Keeps R (if p then x else y) := by
  split
  · exact hx
  · exact hy

end Keeps

end Exec
