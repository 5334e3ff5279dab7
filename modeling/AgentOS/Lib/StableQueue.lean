import Mathlib

/-!
# Stable priority queues

Items wait in the order they were added, each with a priority, and fetching takes the first of those
of the highest priority. What waits is a function of the history: the items added and not fetched
since. Items of equal priority leave in the order they came.
-/

namespace StableQueue

variable {α β : Type*}

/-- What is done to a queue. -/
inductive Op (α β : Type*)
  | add (a : α) (p : β)
  | fetch (a : α)
  deriving DecidableEq

variable [DecidableEq α]

/-- One action: an item goes to the end, or leaves. -/
def act (l : List (α × β)) : Op α β → List (α × β)
  | .add a p => l ++ [(a, p)]
  | .fetch a => l.eraseP fun x ↦ x.1 = a

/-- The items that were added and not fetched since, with their priorities, in the order they were
added. -/
def pending (tr : List (Op α β)) : List (α × β) := tr.foldl act []

@[simp] theorem pending_nil : pending ([] : List (Op α β)) = [] := rfl

@[simp] theorem pending_add (tr : List (Op α β)) (a : α) (p : β) :
    pending (tr ++ [.add a p]) = pending tr ++ [(a, p)] := by
  simp [pending, act]

theorem pending_fetch (tr : List (Op α β)) (a : α) :
    pending (tr ++ [.fetch a]) = (pending tr).eraseP fun x ↦ x.1 = a := by
  simp [pending, act]

/-- How often an item was added. -/
def added (tr : List (Op α β)) (a : α) : ℕ :=
  tr.countP fun x ↦ match x with
    | .add b _ => b = a
    | .fetch _ => false

variable [LinearOrder β]

/-- The histories of a stable queue: an item is added when it is not waiting already, and the item
that is fetched comes behind items of lower priority only and before items of no higher one. -/
inductive Run : List (Op α β) → Prop
  | nil : Run []
  | add {tr : List (Op α β)} {a : α} {p : β} (h : Run tr)
      (hnew : a ∉ (pending tr).map Prod.fst) : Run (tr ++ [.add a p])
  | fetch {tr : List (Op α β)} {a : α} {p : β} {before after : List (α × β)} (h : Run tr)
      (hpending : pending tr = before ++ (a, p) :: after) (hbefore : ∀ x ∈ before, x.2 < p)
      (hafter : ∀ x ∈ after, x.2 ≤ p) : Run (tr ++ [.fetch a])

variable {tr : List (Op α β)}

/-- No item waits twice. -/
theorem Run.nodup (h : Run tr) : ((pending tr).map Prod.fst).Nodup := by
  induction h with
  | nil => exact List.nodup_nil
  | add h hnew ih =>
    rw [pending_add, List.map_append, List.nodup_append]
    refine ⟨ih, List.nodup_singleton _, ?_⟩
    rintro x hx y hy rfl
    obtain rfl : x = _ := by simpa using hy
    exact hnew hx
  | fetch h _ _ _ ih =>
    rw [pending_fetch]
    exact ih.sublist (List.eraseP_sublist.map _)

omit [LinearOrder β] in
/-- Taking out an item leaves the others in their order. -/
theorem eraseP_split {before after : List (α × β)} {a : α} {p : β}
    (h : ((before ++ (a, p) :: after).map Prod.fst).Nodup) :
    (before ++ (a, p) :: after).eraseP (fun x ↦ x.1 = a) = before ++ after := by
  have hnot : ∀ x ∈ before, ¬decide (x.1 = a) = true := by
    intro x hx heq
    rw [List.map_append, List.nodup_append] at h
    refine h.2.2 x.1 (List.mem_map_of_mem hx) a (by simp) ?_
    simpa using heq
  rw [List.eraseP_append_right _ hnot, List.eraseP_cons_of_pos (by simp)]

theorem Run.pending_fetch_eq {a : α} {p : β} {before after : List (α × β)} (h : Run tr)
    (hpending : pending tr = before ++ (a, p) :: after) :
    pending (tr ++ [.fetch a]) = before ++ after := by
  have hnodup := h.nodup
  rw [hpending] at hnodup
  rw [pending_fetch, hpending, eraseP_split hnodup]

/-- **No item is lost and none is fetched twice**: each was added once for each time it was fetched,
and once more when it still waits. -/
theorem Run.added_eq (h : Run tr) (a : α) :
    added tr a = tr.count (.fetch a) + ((pending tr).map Prod.fst).count a := by
  unfold added at *
  induction h with
  | nil => rfl
  | @add tr b p h hnew ih =>
    rw [List.countP_append, ih, List.count_append, pending_add, List.map_append, List.count_append]
    by_cases hb : b = a
    · subst hb
      simp [Nat.add_assoc]
    · simp [hb]
  | @fetch tr b p before after h hpending _ _ ih =>
    rw [List.countP_append, ih, List.count_append, h.pending_fetch_eq hpending, hpending]
    by_cases hb : b = a
    · subst hb
      simp
      omega
    · simp [hb]

omit [LinearOrder β] in
/-- Items that wait go on waiting, in the same order, as long as none of them is fetched. -/
theorem sublist_pending {l : List (α × β)} {mid : List (Op α β)} (h : l.Sublist (pending tr))
    (hmid : ∀ x ∈ l, .fetch x.1 ∉ mid) : l.Sublist (pending (tr ++ mid)) := by
  induction mid using List.reverseRecOn with
  | nil => simpa using h
  | append_singleton mid e ih =>
    have hkept := ih fun x hx hmem ↦ hmid x hx (List.mem_append_left _ hmem)
    rw [← List.append_assoc]
    cases e with
    | add a p =>
      rw [pending_add]
      exact hkept.trans (List.sublist_append_left _ _)
    | fetch a =>
      have hne : ∀ x ∈ l, ¬decide (x.1 = a) = true := by
        intro x hx heq
        obtain rfl : x.1 = a := of_decide_eq_true heq
        exact hmid x hx (by simp)
      rw [pending_fetch, ← List.eraseP_of_forall_not hne]
      exact hkept.eraseP

/-- In a list without repetitions, what stands before an element stands in the part before it. -/
theorem mem_before {γ : Type*} {x y : γ} {before after : List γ}
    (hnodup : (before ++ y :: after).Nodup) (h : [x, y].Sublist (before ++ y :: after)) :
    x ∈ before := by
  obtain ⟨l₁, l₂, hsplit, h₁, h₂⟩ := List.sublist_append_iff.mp h
  cases l₁ with
  | cons z l₁ =>
    obtain rfl : x = z := (List.cons.inj hsplit).1
    exact h₁.subset List.mem_cons_self
  | nil =>
    obtain rfl : l₂ = [x, y] := by simpa using hsplit.symm
    have hxy : x ≠ y := by
      have := hnodup.sublist h
      simpa using this
    have hlate : y ∈ after := by
      rcases List.cons_sublist_cons'.mp h₂ with hrest | ⟨heq, -⟩
      · exact hrest.subset (by simp)
      · exact absurd heq hxy
    have htail := (List.nodup_append.mp hnodup).2.1
    exact absurd hlate (List.nodup_cons.mp htail).1

theorem Run.of_append {tr' : List (Op α β)} (h : Run (tr ++ tr')) : Run tr := by
  induction tr' using List.reverseRecOn with
  | nil => simpa using h
  | append_singleton tr' e ih =>
    refine ih ?_
    rw [← List.append_assoc] at h
    generalize hall : tr ++ tr' ++ [e] = all at h
    cases h with
    | nil => exact absurd hall (by simp)
    | add h _ => exact (List.append_inj' hall rfl).1 ▸ h
    | fetch h _ _ _ => exact (List.append_inj' hall rfl).1 ▸ h

theorem Run.of_fetch {a : α} (h : Run (tr ++ [.fetch a])) : ∃ p before after,
    pending tr = before ++ (a, p) :: after ∧ (∀ x ∈ before, x.2 < p) ∧ ∀ x ∈ after, x.2 ≤ p := by
  generalize hall : tr ++ [.fetch a] = all at h
  cases h with
  | nil => exact absurd hall (by simp)
  | add _ _ => exact absurd (List.append_inj' hall rfl).2 (by simp)
  | @fetch tr' b p before after h hpending hbefore hafter =>
    obtain ⟨rfl, hlast⟩ := List.append_inj' hall rfl
    obtain rfl : a = b := by simpa using hlast
    exact ⟨p, before, after, hpending, hbefore, hafter⟩

/-- **Items of equal priority leave in the order they came.** -/
theorem Run.fifo {a b : α} {p : β} {tr₁ tr₂ tr₃ : List (Op α β)}
    (h : Run (tr₁ ++ [.add a p] ++ tr₂ ++ [.add b p] ++ tr₃ ++ [.fetch b]))
    (hb : .fetch b ∉ tr₃) : .fetch a ∈ tr₂ ++ tr₃ := by
  by_contra hnot
  rw [List.mem_append, not_or] at hnot
  -- both wait, one behind the other, until the second is fetched
  have hfirst : [(a, p)].Sublist (pending (tr₁ ++ [.add a p] ++ tr₂)) := by
    refine sublist_pending ?_ (by simpa using hnot.1)
    rw [pending_add]
    exact List.sublist_append_right _ _
  have hboth : [(a, p), (b, p)].Sublist
      (pending (tr₁ ++ [.add a p] ++ tr₂ ++ [.add b p] ++ tr₃)) := by
    refine sublist_pending ?_ (by simpa using ⟨hnot.2, hb⟩)
    rw [pending_add]
    exact hfirst.append (List.Sublist.refl _)
  obtain ⟨q, before, after, hpending, hbefore, -⟩ := h.of_fetch
  have hkeys := h.of_append.nodup
  have hnodup := hkeys.of_map
  -- the second was fetched with the priority it was added with
  obtain rfl : p = q := by
    have hq : (b, q) ∈ pending (tr₁ ++ [.add a p] ++ tr₂ ++ [.add b p] ++ tr₃) := by
      rw [hpending]
      exact List.mem_append_right _ List.mem_cons_self
    have hp : (b, p) ∈ pending (tr₁ ++ [.add a p] ++ tr₂ ++ [.add b p] ++ tr₃) :=
      hboth.subset (by simp)
    exact congrArg Prod.snd (List.inj_on_of_nodup_map hkeys hp hq rfl)
  rw [hpending] at hnodup hboth
  exact absurd (hbefore _ (mem_before hnodup hboth)) (lt_irrefl p)

/-- How often an item was fetched. -/
def fetches (tr : List (Op α β)) : ℕ :=
  tr.countP fun x ↦ match x with
    | .add _ _ => false
    | .fetch _ => true

omit [DecidableEq α] [LinearOrder β] in
theorem fetches_append_singleton (tr : List (Op α β)) (e : Op α β) :
    fetches (tr ++ [e]) = fetches tr + fetches [e] := List.countP_append

/-- **What is ahead of an item** that waits: nothing comes in front of it as long as no item of a higher priority is
added, and each item that is fetched was ahead of it from the start. -/
theorem Run.ahead {a : α} {p : β} {tr₁ tr₂ : List (Op α β)} (h : Run (tr₁ ++ [.add a p] ++ tr₂))
    (hnot : .fetch a ∉ tr₂) (hlow : ∀ b q, .add b q ∈ tr₂ → q ≤ p) : ∃ ahead behind,
      pending (tr₁ ++ [.add a p] ++ tr₂) = ahead ++ (a, p) :: behind ∧ (∀ x ∈ behind, x.2 ≤ p) ∧
      fetches tr₂ + ahead.countP (fun x ↦ p ≤ x.2) = (pending tr₁).countP fun x ↦ p ≤ x.2 := by
  induction tr₂ using List.reverseRecOn with
  | nil => exact ⟨pending tr₁, [], by simp, by simp, Nat.zero_add _⟩
  | append_singleton tr₂ e ih =>
    rw [← List.append_assoc] at h ⊢
    obtain ⟨ahead, behind, hpending, hbehind, hcount⟩ := ih h.of_append
      (fun hmem ↦ hnot (List.mem_append_left _ hmem)) fun b q hmem ↦ hlow b q (List.mem_append_left _ hmem)
    rw [fetches_append_singleton]
    cases e with
    | add b q =>
      refine ⟨ahead, behind ++ [(b, q)], by rw [pending_add, hpending]; simp, fun x hx ↦ ?_, hcount⟩
      rcases List.mem_append.mp hx with hx | hx
      · exact hbehind x hx
      · obtain rfl := List.mem_singleton.mp hx
        exact hlow b q (by simp)
    | fetch b =>
      have hne : b ≠ a := by
        rintro rfl
        exact hnot (by simp)
      obtain ⟨q, before, after, hsplit, hbefore, hafter⟩ := h.of_fetch
      rw [h.of_append.pending_fetch_eq hsplit]
      rcases List.append_eq_append_iff.mp (hpending.symm.trans hsplit) with ⟨l, rfl, hl⟩ | ⟨l, rfl, hl⟩
      · -- the item is in front of the one that is fetched, which has a higher priority then
        rcases List.cons_eq_append_iff.mp hl with ⟨rfl, heq⟩ | ⟨l, rfl, rfl⟩
        · exact absurd (congrArg Prod.fst (List.cons.inj heq).1) hne
        · have hhigh : p < q := hbefore (a, p) (by simp)
          exact absurd (hbehind (b, q) (by simp)) (not_le.mpr hhigh)
      · rcases List.cons_eq_append_iff.mp hl with ⟨rfl, heq⟩ | ⟨l, rfl, rfl⟩
        · exact absurd (congrArg Prod.fst (List.cons.inj heq).1).symm hne
        · refine ⟨before ++ l, behind, by simp, hbehind, ?_⟩
          have hhigh : p ≤ q := hafter (a, p) (by simp)
          rw [List.countP_append, List.countP_cons_of_pos (by simpa using hhigh)] at hcount
          rw [List.countP_append]
          have hone : fetches [(.fetch b : Op α β)] = 1 := rfl
          omega

/-- **No item waits for ever** when no item of a higher priority is added: it is fetched at the latest when all that
were ahead of it have been. -/
theorem Run.mem_of_fetches {a : α} {p : β} {tr₁ tr₂ : List (Op α β)} (h : Run (tr₁ ++ [.add a p] ++ tr₂))
    (hlow : ∀ b q, .add b q ∈ tr₂ → q ≤ p) (hmany : (pending tr₁).countP (fun x ↦ p ≤ x.2) < fetches tr₂) :
    .fetch a ∈ tr₂ := by
  by_contra hnot
  obtain ⟨ahead, behind, -, -, hcount⟩ := h.ahead hnot hlow
  omega

end StableQueue
