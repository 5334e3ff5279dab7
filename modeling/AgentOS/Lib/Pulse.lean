import Mathlib

/-!
# Periodic signals with a flag

A pulse fires when its interval has passed since it last fired, and raises a flag. Whoever looks at the
flag lowers it. Firings that nobody looks at in between raise it once. So the firings are an interval
apart, and the flag is not lowered more often than the pulse fired.
-/

/-- A pulse: its interval, when it last fired or was set, and whether its flag is up. -/
structure Pulse where
  interval : ℕ
  last : ℕ
  flag : Bool
  deriving DecidableEq, Repr

namespace Pulse

/-- What can happen to a pulse. -/
inductive Act where
  | rest
  | fire (now : ℕ)
  | lower
  deriving DecidableEq, Repr

/-- A pulse fires when it is due, and its flag is lowered when it is up. -/
def Allows (p : Pulse) : Act → Prop
  | .rest => True
  | .fire now => 0 < p.interval ∧ p.interval ≤ now - p.last
  | .lower => p.flag

def act (p : Pulse) : Act → Pulse
  | .rest => p
  | .fire now => { p with last := now, flag := true }
  | .lower => { p with flag := false }

/-- A run of a pulse: from one to another, with what happened in order. -/
inductive Run (p : Pulse) : List Act → Pulse → Prop
  | nil : Run p [] p
  | snoc {acts : List Act} {q : Pulse} {a : Act} (h : Run p acts q) (ha : q.Allows a) :
      Run p (acts ++ [a]) (q.act a)

/-- The times of the firings. -/
def fired : List Act → List ℕ
  | [] => []
  | .fire now :: acts => now :: fired acts
  | _ :: acts => fired acts

/-- How often the flag was lowered. -/
def lowered (acts : List Act) : ℕ := acts.count .lower

@[simp] theorem fired_append (as bs : List Act) : fired (as ++ bs) = fired as ++ fired bs := by
  induction as with
  | nil => rfl
  | cons a as ih => cases a <;> simp [fired, ih]

/-- Times each of which is at least `i` after the one before it. -/
def Spaced (i start : ℕ) (times : List ℕ) : Prop :=
  (start :: times).Pairwise fun a b ↦ a + i ≤ b

theorem spaced_nil (i start : ℕ) : Spaced i start [] := List.pairwise_singleton _ _

/-- One more time, after the last. -/
theorem Spaced.snoc {i start now : ℕ} {times : List ℕ} (h : Spaced i start times)
    (hnow : times.getLastD start + i ≤ now) :
    Spaced i start (times ++ [now]) := by
  unfold Spaced at h ⊢
  rw [← List.cons_append]
  refine List.pairwise_append.mpr ⟨h, List.pairwise_singleton _ _, fun a ha b hb ↦ ?_⟩
  obtain rfl := List.mem_singleton.mp hb
  obtain ⟨init, last, heq⟩ : ∃ init last, start :: times = init ++ [last] :=
    ⟨_, _, (List.dropLast_append_getLast (List.cons_ne_nil _ _)).symm⟩
  have hlast : last + i ≤ b := by
    simpa only [← List.getLast_eq_getLastD (List.cons_ne_nil _ _), heq, List.getLast_concat] using hnow
  rw [heq] at h ha
  rcases List.mem_append.mp ha with ha | ha
  · have hstep := (List.pairwise_append.mp h).2.2 a ha last (List.mem_singleton_self _)
    omega
  · rwa [List.mem_singleton.mp ha]

/-- There are not more such times than intervals fit in the time that has passed. -/
theorem Spaced.length_mul_le {i start now : ℕ} {times : List ℕ} (h : Spaced i start times)
    (hstart : start ≤ now) (hnow : ∀ a ∈ times, a ≤ now) : times.length * i ≤ now - start := by
  induction times generalizing start with
  | nil => simp
  | cons a times ih =>
    obtain ⟨hfirst, hrest⟩ := List.pairwise_cons.mp h
    have ha := hnow a List.mem_cons_self
    have hgap := hfirst a List.mem_cons_self
    have hcount := ih hrest ha fun b hb ↦ hnow b (List.mem_cons_of_mem a hb)
    rw [List.length_cons, Nat.add_mul, one_mul]
    omega

/-- **What a run of a pulse keeps:** its interval stays, it fires an interval apart, the last time it
fired is known, and the flag is up or was lowered at most as often as the pulse fired. -/
theorem Run.spec {p q : Pulse} {acts : List Act} (h : Run p acts q) :
    q.interval = p.interval ∧ Spaced p.interval p.last (fired acts) ∧
      q.last = (fired acts).getLastD p.last ∧
      lowered acts + q.flag.toNat ≤ (fired acts).length + p.flag.toNat := by
  induction h with
  | nil => exact ⟨rfl, spaced_nil _ _, rfl, by simp [lowered]⟩
  | @snoc acts q a _ ha ih =>
    obtain ⟨hinterval, hspaced, hlast, hcount⟩ := ih
    cases a with
    | rest =>
      rw [fired_append, show fired [Act.rest] = [] from rfl, List.append_nil]
      exact ⟨hinterval, hspaced, hlast, by simpa [lowered, act] using hcount⟩
    | fire now =>
      obtain ⟨hpos, hdue⟩ := ha
      rw [fired_append, show fired [Act.fire now] = [now] from rfl]
      refine ⟨hinterval, hspaced.snoc ?_, ?_, ?_⟩
      · rw [← hlast, ← hinterval]
        omega
      · rw [List.getLastD_concat]
        rfl
      · have hflag : q.flag.toNat ≤ 1 := Bool.toNat_le q.flag
        simp only [lowered, act, List.count_append, List.length_append, List.length_singleton,
          Bool.toNat_true] at hcount ⊢
        rw [List.count_singleton, if_neg (by simp)]
        omega
    | lower =>
      rw [fired_append, show fired [Act.lower] = [] from rfl, List.append_nil]
      have hflag : q.flag = true := ha
      refine ⟨hinterval, hspaced, hlast, ?_⟩
      rw [hflag] at hcount
      simp only [lowered, act, List.count_append, List.count_singleton_self, Bool.toNat_true,
        Bool.toNat_false] at hcount ⊢
      omega

/-- **The rate of a pulse** whose flag was down at first. -/
theorem Run.rate {p q : Pulse} {acts : List Act} (h : Run p acts q) (hflag : p.flag = false)
    (hpos : 0 < p.interval) {now : ℕ} (hstart : p.last ≤ now) (hnow : ∀ a ∈ fired acts, a ≤ now) :
    (fired acts).length ≤ (now - p.last) / p.interval ∧
      lowered acts ≤ (now - p.last) / p.interval := by
  obtain ⟨-, hspaced, -, hcount⟩ := h.spec
  have hfired := (Nat.le_div_iff_mul_le hpos).mpr (hspaced.length_mul_le hstart hnow)
  rw [hflag, Bool.toNat_false] at hcount
  exact ⟨hfired, by omega⟩

end Pulse
