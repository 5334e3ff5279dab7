import Mathlib

/-!
# A scheduler on one processor

Tasks run one at a time, wait for the processor in a ready queue, or sleep in a list of blocked tasks
until something wakes them. Each task also says by itself where it is. `Coherent` is the agreement of
the two: every task is where it says, and in that place once.

The order in which tasks are picked does not matter here, so the queue and the list are multisets.
-/

namespace Scheduler

/-- Where a task says it is. -/
inductive Place where
  | ready
  | running
  | blocked
  | finished
  deriving DecidableEq, Repr

/-- `place` is `none` for what is not a task. -/
@[ext] structure Sched (T : Type*) where
  place : T → Option Place
  current : Option T
  ready : Multiset T
  blocked : Multiset T

variable {T : Type*} [DecidableEq T]

/-- Every task is where it says, once. -/
structure Coherent (s : Sched T) : Prop where
  current_iff : ∀ t, s.current = some t ↔ s.place t = some .running
  ready_count : ∀ t, s.ready.count t = if s.place t = some .ready then 1 else 0
  blocked_count : ∀ t, s.blocked.count t = if s.place t = some .blocked then 1 else 0

namespace Sched

/-- A task says it is in another place. -/
def put (s : Sched T) (t : T) (p : Option Place) : Sched T :=
  { s with place := Function.update s.place t p }

@[simp] theorem put_place (s : Sched T) (t : T) (p : Option Place) :
    (s.put t p).place = Function.update s.place t p := rfl

@[simp] theorem put_current (s : Sched T) (t : T) (p : Option Place) :
    (s.put t p).current = s.current := rfl

@[simp] theorem put_ready (s : Sched T) (t : T) (p : Option Place) :
    (s.put t p).ready = s.ready := rfl

@[simp] theorem put_blocked (s : Sched T) (t : T) (p : Option Place) :
    (s.put t p).blocked = s.blocked := rfl

end Sched

/-- A task moves between the processor, the ready queue and the blocked tasks. -/
inductive Move : Sched T → Sched T → Prop
  /-- The idle processor takes a waiting task. -/
  | dispatch {s : Sched T} {t : T} {rest : Multiset T} (hidle : s.current = none)
      (h : s.ready = t ::ₘ rest) :
      Move s { s.put t (some .running) with current := some t, ready := rest }
  /-- The running task goes back to the queue. -/
  | suspend {s : Sched T} {t : T} (h : s.current = some t) :
      Move s { s.put t (some .ready) with current := none, ready := t ::ₘ s.ready }
  /-- The running task goes to sleep. -/
  | block {s : Sched T} {t : T} (h : s.current = some t) :
      Move s { s.put t (some .blocked) with current := none, blocked := t ::ₘ s.blocked }
  /-- A sleeping task is woken. -/
  | wake {s : Sched T} {t : T} {rest : Multiset T} (h : s.blocked = t ::ₘ rest) :
      Move s { s.put t (some .ready) with ready := t ::ₘ s.ready, blocked := rest }

/-- What a scheduler does: tasks move, come and go. -/
inductive Step : Sched T → Sched T → Prop
  | move {s s' : Sched T} (h : Move s s') : Step s s'
  /-- A new task waits for the processor. -/
  | arrive {s : Sched T} {t : T} (h : s.place t = none) :
      Step s { s.put t (some .ready) with ready := t ::ₘ s.ready }
  /-- The running task ends. -/
  | finish {s : Sched T} {t : T} (h : s.current = some t) :
      Step s { s.put t (some .finished) with current := none }
  /-- A task that ended is forgotten. -/
  | reap {s : Sched T} {t : T} (h : s.place t = some .finished) : Step s (s.put t none)

/-- Any number of moves. -/
abbrev Moves : Sched T → Sched T → Prop := Relation.ReflTransGen Move

/-! ## Where a task cannot be -/

theorem Coherent.place_of_mem_ready {s : Sched T} (h : Coherent s) {t : T} (ht : t ∈ s.ready) :
    s.place t = some .ready := by
  by_contra hne
  have hcount := h.ready_count t
  rw [if_neg hne] at hcount
  exact Multiset.count_eq_zero.mp hcount ht

theorem Coherent.place_of_mem_blocked {s : Sched T} (h : Coherent s) {t : T}
    (ht : t ∈ s.blocked) : s.place t = some .blocked := by
  by_contra hne
  have hcount := h.blocked_count t
  rw [if_neg hne] at hcount
  exact Multiset.count_eq_zero.mp hcount ht

theorem Coherent.mem_blocked {s : Sched T} (h : Coherent s) {t : T}
    (ht : s.place t = some .blocked) : t ∈ s.blocked := by
  rw [← Multiset.count_pos, h.blocked_count, if_pos ht]
  exact Nat.one_pos

/-! ## The agreement is kept -/

/-- When one task changes its place, only that task has to be looked at. -/
private theorem Coherent.relocate {s s' : Sched T} (h : Coherent s) {t : T} {p : Option Place}
    (hplace : s'.place = Function.update s.place t p)
    (hself : (s'.current = some t ↔ p = some .running) ∧
      s'.ready.count t = (if p = some .ready then 1 else 0) ∧
      s'.blocked.count t = if p = some .blocked then 1 else 0)
    (hother : ∀ u, u ≠ t → (s'.current = some u ↔ s.current = some u) ∧
      s'.ready.count u = s.ready.count u ∧ s'.blocked.count u = s.blocked.count u) :
    Coherent s' := by
  refine ⟨fun u ↦ ?_, fun u ↦ ?_, fun u ↦ ?_⟩ <;> rcases eq_or_ne u t with rfl | hne
  · rw [hplace, Function.update_self, hself.1]
  · rw [hplace, Function.update_of_ne hne, (hother u hne).1, h.current_iff]
  · rw [hplace, Function.update_self, hself.2.1]
  · rw [hplace, Function.update_of_ne hne, (hother u hne).2.1, h.ready_count]
  · rw [hplace, Function.update_self, hself.2.2]
  · rw [hplace, Function.update_of_ne hne, (hother u hne).2.2, h.blocked_count]

/-- **A move keeps the agreement.** -/
theorem Coherent.move {s s' : Sched T} (h : Coherent s) (hm : Move s s') : Coherent s' := by
  have hc := h.current_iff
  have hr := h.ready_count
  have hb := h.blocked_count
  cases hm with
  | @dispatch t rest hidle hready =>
    have hplace := h.place_of_mem_ready (hready ▸ Multiset.mem_cons_self t rest)
    refine h.relocate rfl ⟨by simp, ?_, by simp [hb, hplace]⟩ fun u hne ↦ ⟨?_, ?_, rfl⟩
    · have := hr t
      rw [hready, Multiset.count_cons_self, if_pos hplace] at this
      simpa using this
    · simp [hidle, hne.symm]
    · rw [hready, Multiset.count_cons_of_ne hne]
  | @suspend t hcur =>
    have hplace := (hc t).mp hcur
    refine h.relocate rfl ⟨by simp, by simp [hr, hplace], by simp [hb, hplace]⟩
      fun u hne ↦ ⟨by simp [hcur, hne.symm], ?_, rfl⟩
    exact Multiset.count_cons_of_ne hne _
  | @block t hcur =>
    have hplace := (hc t).mp hcur
    refine h.relocate rfl ⟨by simp, by simp [hr, hplace], by simp [hb, hplace]⟩
      fun u hne ↦ ⟨by simp [hcur, hne.symm], rfl, ?_⟩
    exact Multiset.count_cons_of_ne hne _
  | @wake t rest hblocked =>
    have hplace := h.place_of_mem_blocked (hblocked ▸ Multiset.mem_cons_self t rest)
    refine h.relocate rfl ⟨by simp [hc, hplace], by simp [hr, hplace], ?_⟩
      fun u hne ↦ ⟨Iff.rfl, ?_, ?_⟩
    · have := hb t
      rw [hblocked, Multiset.count_cons_self, if_pos hplace] at this
      simpa using this
    · exact Multiset.count_cons_of_ne hne _
    · rw [hblocked, Multiset.count_cons_of_ne hne]

theorem Coherent.moves {s s' : Sched T} (h : Coherent s) (hm : Moves s s') : Coherent s' := by
  induction hm with
  | refl => exact h
  | tail _ hmove ih => exact ih.move hmove

/-- **A step keeps the agreement.** -/
theorem Coherent.step {s s' : Sched T} (h : Coherent s) (hs : Step s s') : Coherent s' := by
  have hc := h.current_iff
  have hr := h.ready_count
  have hb := h.blocked_count
  cases hs with
  | move hm => exact h.move hm
  | @arrive t hnew =>
    refine h.relocate rfl ⟨by simp [hc, hnew], by simp [hr, hnew], by simp [hb, hnew]⟩
      fun u hne ↦ ⟨Iff.rfl, ?_, rfl⟩
    exact Multiset.count_cons_of_ne hne _
  | @finish t hcur =>
    have hplace := (hc t).mp hcur
    exact h.relocate rfl ⟨by simp, by simp [hr, hplace], by simp [hb, hplace]⟩
      fun u hne ↦ ⟨by simp [hcur, hne.symm], rfl, rfl⟩
  | @reap t hplace =>
    exact h.relocate rfl ⟨by simp [hc, hplace], by simp [hr, hplace], by simp [hb, hplace]⟩
      fun u _ ↦ ⟨Iff.rfl, rfl, rfl⟩

/-! ## Moves in a row -/

/-- Waking several sleeping tasks, one after the other. -/
theorem moves_wakeAll {s : Sched T} {woken : List T} {rest : Multiset T}
    (h : s.blocked = ↑woken + rest) :
    Moves s { s with
      place := woken.foldl (fun pl t ↦ Function.update pl t (some .ready)) s.place
      ready := ↑woken + s.ready
      blocked := rest } := by
  induction woken generalizing s with
  | nil =>
    have hrest : rest = s.blocked := by simpa using h.symm
    rw [List.foldl_nil, Multiset.coe_nil, zero_add, hrest]
  | cons t woken ih =>
    have hblocked : s.blocked = t ::ₘ (↑woken + rest) := by
      rw [h, ← Multiset.cons_coe, Multiset.cons_add]
    refine Relation.ReflTransGen.head (Move.wake hblocked) ?_
    have := ih (s := { s.put t (some .ready) with
      ready := t ::ₘ s.ready, blocked := ↑woken + rest }) rfl
    rwa [Multiset.add_cons, ← Multiset.cons_add, Multiset.cons_coe] at this

/-- No move begins or ends a task. -/
theorem Coherent.finished_moves {s s' : Sched T} (h : Coherent s) (hm : Moves s s') (t : T) :
    (s'.place t = none ↔ s.place t = none) ∧
      (s'.place t = some .finished ↔ s.place t = some .finished) := by
  induction hm with
  | refl => exact ⟨Iff.rfl, Iff.rfl⟩
  | @tail s₁ s₂ hm₁ hmove ih =>
    have h₁ := h.moves hm₁
    rw [← ih.1, ← ih.2]
    have key : ∀ u p, s₂.place = Function.update s₁.place u (some p) → p ≠ .finished →
        s₁.place u ≠ none → s₁.place u ≠ some .finished →
        (s₂.place t = none ↔ s₁.place t = none) ∧
          (s₂.place t = some .finished ↔ s₁.place t = some .finished) := by
      intro u p hplace hp hnone hfinished
      rcases eq_or_ne t u with rfl | hne
      · rw [hplace, Function.update_self]
        simp [hp, hnone, hfinished]
      · rw [hplace, Function.update_of_ne hne]
        exact ⟨Iff.rfl, Iff.rfl⟩
    cases hmove with
    | @dispatch u rest hidle hready =>
      have hu := h₁.place_of_mem_ready (hready ▸ Multiset.mem_cons_self u rest)
      exact key u .running rfl (by decide) (by simp [hu]) (by simp [hu])
    | @suspend u hcur =>
      have hu := (h₁.current_iff u).mp hcur
      exact key u .ready rfl (by decide) (by simp [hu]) (by simp [hu])
    | @block u hcur =>
      have hu := (h₁.current_iff u).mp hcur
      exact key u .blocked rfl (by decide) (by simp [hu]) (by simp [hu])
    | @wake u rest hblocked =>
      have hu := h₁.place_of_mem_blocked (hblocked ▸ Multiset.mem_cons_self u rest)
      exact key u .ready rfl (by decide) (by simp [hu]) (by simp [hu])

end Scheduler
