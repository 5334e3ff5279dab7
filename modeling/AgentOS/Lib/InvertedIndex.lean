import Mathlib

/-!
# Inverted indexes

A relation between items and keys can be read backwards: for each key, the list of items related to
it. This file develops the upkeep of such lists. A family of buckets is *coherent* with a relation
when every bucket lists each related item once and nothing else; the two updates that keep it so are
appending an item to one bucket unless it is already there, and filtering an item out of the buckets
it is leaving.

The second half reads a family of buckets off a `Std.TreeMap`, where a key that is absent stands for
the empty bucket. A map may then hold an explicit empty bucket or hold none, and the two readings
agree.
-/

namespace InvertedIndex

variable {α κ : Type*}

/-! ## Coherence -/

/-- Each bucket lists the items related to its key, once each. -/
structure Coherent (R : α → κ → Prop) (b : κ → List α) : Prop where
  /-- No bucket lists an item twice. -/
  nodup : ∀ k, (b k).Nodup
  /-- A bucket lists exactly the related items. -/
  mem_iff : ∀ a k, a ∈ b k ↔ R a k

theorem Coherent.congr {R R' : α → κ → Prop} {b : κ → List α} (h : Coherent R b)
    (hR : ∀ a k, R' a k ↔ R a k) : Coherent R' b where
  nodup := h.nodup
  mem_iff a k := (h.mem_iff a k).trans (hR a k).symm

/-- Counting form of coherence: one occurrence when related, none otherwise. -/
theorem Coherent.count_eq [DecidableEq α] {R : α → κ → Prop} [∀ a k, Decidable (R a k)]
    {b : κ → List α} (h : Coherent R b) (a : α) (k : κ) :
    (b k).count a = if R a k then 1 else 0 := by
  by_cases hR : R a k
  · rw [if_pos hR]
    exact List.count_eq_one_of_mem (h.nodup k) ((h.mem_iff a k).mpr hR)
  · rw [if_neg hR]
    exact List.count_eq_zero_of_not_mem fun hmem ↦ hR ((h.mem_iff a k).mp hmem)

/-! ## The two updates -/

section Update

variable [DecidableEq α]

/-- Append an item to a bucket unless it is listed already. -/
def pushNew (a : α) (l : List α) : List α := if a ∈ l then l else l ++ [a]

theorem mem_pushNew {a x : α} {l : List α} : x ∈ pushNew a l ↔ x ∈ l ∨ x = a := by
  unfold pushNew
  split
  · next h => exact ⟨Or.inl, fun hx ↦ hx.elim id fun hxa ↦ hxa ▸ h⟩
  · simp

theorem nodup_pushNew {a : α} {l : List α} (h : l.Nodup) : (pushNew a l).Nodup := by
  unfold pushNew
  split
  · exact h
  · next ha => exact List.nodup_append.mpr ⟨h, List.nodup_singleton a, by
      intro x hx y hy hxy
      rw [List.mem_singleton] at hy
      exact ha (hy ▸ hxy ▸ hx)⟩

theorem pushNew_ne_nil (a : α) (l : List α) : pushNew a l ≠ [] := by
  intro h
  have : a ∈ pushNew a l := mem_pushNew.mpr (Or.inr rfl)
  rw [h] at this
  exact List.not_mem_nil this

/-- The bucket without an item. -/
def dropItem (a : α) (l : List α) : List α := l.filter (· ≠ a)

@[simp] theorem dropItem_nil (a : α) : dropItem a ([] : List α) = [] := rfl

theorem mem_dropItem {a x : α} {l : List α} : x ∈ dropItem a l ↔ x ∈ l ∧ x ≠ a := by
  simp [dropItem, List.mem_filter]

theorem nodup_dropItem {a : α} {l : List α} (h : l.Nodup) : (dropItem a l).Nodup := h.filter _

theorem dropItem_of_not_mem {a : α} {l : List α} (h : a ∉ l) : dropItem a l = l :=
  List.filter_eq_self.mpr fun x hx ↦ by
    simp only [ne_eq, decide_not, Bool.not_eq_eq_eq_not, Bool.not_true, decide_eq_false_iff_not]
    exact fun hxa ↦ h (hxa ▸ hx)

/-- Dropping an item that was just pushed. -/
theorem dropItem_pushNew {a : α} {l : List α} (h : a ∉ l) : dropItem a (pushNew a l) = l := by
  rw [pushNew, if_neg h, dropItem, List.filter_append, ← dropItem, dropItem_of_not_mem h]
  simp

variable [DecidableEq κ]

/-- Relating one more pair and appending its item to the bucket of its key. -/
theorem Coherent.push {R : α → κ → Prop} {b : κ → List α} (h : Coherent R b) (a : α) (k : κ) :
    Coherent (fun x j ↦ R x j ∨ (x = a ∧ j = k)) (Function.update b k (pushNew a (b k))) where
  nodup j := by
    by_cases hj : j = k
    · subst hj
      rw [Function.update_self]
      exact nodup_pushNew (h.nodup j)
    · rw [Function.update_of_ne hj]
      exact h.nodup j
  mem_iff x j := by
    by_cases hj : j = k
    · subst hj
      rw [Function.update_self, mem_pushNew, h.mem_iff]
      simp
    · rw [Function.update_of_ne hj, h.mem_iff]
      simp [hj]

/-- Unrelating one pair and filtering its item out of the bucket of its key. -/
theorem Coherent.drop {R : α → κ → Prop} {b : κ → List α} (h : Coherent R b) (a : α) (k : κ) :
    Coherent (fun x j ↦ R x j ∧ ¬(x = a ∧ j = k)) (Function.update b k (dropItem a (b k))) where
  nodup j := by
    by_cases hj : j = k
    · subst hj
      rw [Function.update_self]
      exact nodup_dropItem (h.nodup j)
    · rw [Function.update_of_ne hj]
      exact h.nodup j
  mem_iff x j := by
    by_cases hj : j = k
    · subst hj
      rw [Function.update_self, mem_dropItem, h.mem_iff]
      simp
    · rw [Function.update_of_ne hj, h.mem_iff]
      simp [hj]

/-- Filter one item out of the buckets of a list of keys, in order. -/
def dropAll (a : α) (b : κ → List α) (ks : List κ) : κ → List α :=
  ks.foldl (fun b k ↦ Function.update b k (dropItem a (b k))) b

theorem dropAll_apply (a : α) (b : κ → List α) (ks : List κ) (j : κ) :
    dropAll a b ks j = if j ∈ ks then dropItem a (b j) else b j := by
  induction ks generalizing b with
  | nil => rfl
  | cons k ks ih =>
    rw [dropAll, List.foldl_cons, ← dropAll, ih]
    rcases eq_or_ne j k with rfl | hne
    · have hself : dropItem a (dropItem a (b j)) = dropItem a (b j) :=
        dropItem_of_not_mem fun h ↦ (mem_dropItem.mp h).2 rfl
      rw [Function.update_self, hself, ite_self, if_pos List.mem_cons_self]
    · simp only [Function.update_of_ne hne, List.mem_cons, hne, false_or]

theorem Coherent.dropAll {R : α → κ → Prop} {b : κ → List α} (h : Coherent R b) (a : α)
    (ks : List κ) : Coherent (fun x j ↦ R x j ∧ ¬(x = a ∧ j ∈ ks)) (dropAll a b ks) := by
  induction ks generalizing R b with
  | nil => exact h.congr fun x j ↦ by simp
  | cons k ks ih =>
    refine (ih (h.drop a k)).congr fun x j ↦ ?_
    rw [List.mem_cons]
    tauto

end Update

/-! ## Buckets held in an ordered map -/

section Map

variable {cmp : κ → κ → Ordering} [Std.TransCmp cmp] [Std.LawfulEqCmp cmp]

/-- The bucket of a key, empty when the map has no entry for it. -/
def bucket (m : Std.TreeMap κ (List α) cmp) (k : κ) : List α := m[k]?.getD []

omit [Std.TransCmp cmp] [Std.LawfulEqCmp cmp] in
theorem bucket_of_getElem? {m : Std.TreeMap κ (List α) cmp} {k : κ} {l : List α}
    (h : m[k]? = some l) : bucket m k = l := by
  rw [bucket, h, Option.getD_some]

omit [Std.LawfulEqCmp cmp] in
@[simp] theorem bucket_empty (k : κ) : bucket (∅ : Std.TreeMap κ (List α) cmp) k = [] := by
  simp [bucket]

variable [DecidableEq κ] {β : Type*}

/-- Lookup after insertion, with equality of keys in place of the comparison. -/
theorem getElem?_insert_eq (m : Std.TreeMap κ β cmp) (k j : κ) (v : β) :
    (m.insert k v)[j]? = if j = k then some v else m[j]? := by
  rw [Std.TreeMap.getElem?_insert]
  simp only [Std.LawfulEqCmp.compare_eq_iff_eq, @eq_comm κ j k]

theorem getElem?_modify_eq (m : Std.TreeMap κ β cmp) (k j : κ) (f : β → β) :
    (m.modify k f)[j]? = if j = k then m[j]?.map f else m[j]? := by
  rw [Std.TreeMap.getElem?_modify]
  simp only [Std.LawfulEqCmp.compare_eq_iff_eq, @eq_comm κ j k]
  split
  · next h => rw [h]
  · rfl

theorem getElem?_erase_eq (m : Std.TreeMap κ β cmp) (k j : κ) :
    (m.erase k)[j]? = if j = k then none else m[j]? := by
  rw [Std.TreeMap.getElem?_erase]
  simp only [Std.LawfulEqCmp.compare_eq_iff_eq, @eq_comm κ j k]

theorem bucket_insert (m : Std.TreeMap κ (List α) cmp) (k : κ) (l : List α) :
    bucket (m.insert k l) = Function.update (bucket m) k l := by
  funext j
  rw [bucket, getElem?_insert_eq, Function.update_apply]
  split <;> rfl

/-- Modifying an entry acts on its bucket, provided an absent bucket would be left empty. -/
theorem bucket_modify (m : Std.TreeMap κ (List α) cmp) (k : κ) {f : List α → List α}
    (hf : f [] = []) : bucket (m.modify k f) = Function.update (bucket m) k (f (bucket m k)) := by
  funext j
  rw [bucket, getElem?_modify_eq, Function.update_apply]
  split
  · next hj =>
    subst hj
    cases h : m[j]? <;> simp [bucket, h, hf]
  · rfl

theorem bucket_erase (m : Std.TreeMap κ (List α) cmp) (k : κ) :
    bucket (m.erase k) = Function.update (bucket m) k [] := by
  funext j
  rw [bucket, getElem?_erase_eq, Function.update_apply]
  split <;> rfl

variable [DecidableEq α]

/-- Filter an item out of one bucket and discard the entry when nothing is left in it. -/
def dropEntry (m : Std.TreeMap κ (List α) cmp) (k : κ) (a : α) : Std.TreeMap κ (List α) cmp :=
  match m[k]? with
  | none => m
  | some v => if (dropItem a v).isEmpty then m.erase k else m.insert k (dropItem a v)

/-- Discarding an emptied entry is invisible in the buckets. -/
theorem bucket_dropEntry (m : Std.TreeMap κ (List α) cmp) (k : κ) (a : α) :
    bucket (dropEntry m k a) = Function.update (bucket m) k (dropItem a (bucket m k)) := by
  unfold dropEntry
  cases h : m[k]? with
  | none =>
    have hnil : bucket m k = [] := by rw [bucket, h, Option.getD_none]
    rw [hnil, dropItem_nil, ← hnil, Function.update_eq_self]
  | some v =>
    rw [bucket_of_getElem? h]
    dsimp only
    split
    · next he => rw [bucket_erase, List.isEmpty_iff.mp he]
    · rw [bucket_insert]

theorem bucket_foldl_dropEntry (m : Std.TreeMap κ (List α) cmp) (ks : List κ) (a : α) :
    bucket (ks.foldl (fun m k ↦ dropEntry m k a) m) = dropAll a (bucket m) ks := by
  induction ks generalizing m with
  | nil => rfl
  | cons k ks ih => rw [List.foldl_cons, ih, bucket_dropEntry, dropAll, dropAll, List.foldl_cons]

/-! ## Dead buckets

An entry with an empty bucket reads like no entry at all, but takes up room. -/

/-- No entry holds an empty bucket. -/
def NoDead (m : Std.TreeMap κ (List α) cmp) : Prop :=
  ∀ (k : κ) (l : List α), m[k]? = some l → l ≠ []

omit [Std.LawfulEqCmp cmp] [DecidableEq κ] [DecidableEq α] in
theorem noDead_empty : NoDead (∅ : Std.TreeMap κ (List α) cmp) := by
  intro k l h
  simp at h

omit [DecidableEq α] in
theorem NoDead.insert {m : Std.TreeMap κ (List α) cmp} (h : NoDead m) (k : κ) {l : List α}
    (hl : l ≠ []) : NoDead (m.insert k l) := by
  intro j l' hj
  rw [getElem?_insert_eq] at hj
  split at hj
  · exact Option.some.inj hj ▸ hl
  · exact h j l' hj

theorem NoDead.dropEntry {m : Std.TreeMap κ (List α) cmp} (h : NoDead m) (k : κ) (a : α) :
    NoDead (dropEntry m k a) := by
  unfold InvertedIndex.dropEntry
  split
  · exact h
  · split
    · intro j l hj
      rw [getElem?_erase_eq] at hj
      split at hj
      · exact absurd hj (by simp)
      · exact h j l hj
    · rename_i hne
      exact h.insert k (by simpa using hne)

theorem NoDead.foldl_dropEntry {m : Std.TreeMap κ (List α) cmp} (h : NoDead m) (ks : List κ)
    (a : α) : NoDead (ks.foldl (fun m k ↦ InvertedIndex.dropEntry m k a) m) := by
  induction ks generalizing m with
  | nil => exact h
  | cons k ks ih => exact ih (h.dropEntry k a)

omit [DecidableEq κ] [DecidableEq α] in
/-- Without dead buckets there are no more entries than keys something is related to. -/
theorem NoDead.size_le {m : Std.TreeMap κ (List α) cmp} (h : NoDead m) {R : α → κ → Prop}
    (hc : Coherent R (bucket m)) {ks : List κ} (hks : ∀ a k, R a k → k ∈ ks) :
    m.size ≤ ks.length := by
  have hnodup : m.keys.Nodup := by
    refine List.Pairwise.imp ?_ m.distinct_keys
    intro j k hjk heq
    exact hjk (Std.LawfulEqCmp.compare_eq_iff_eq.mpr heq)
  have hsub : m.keys ⊆ ks := by
    intro k hk
    obtain ⟨l, hl⟩ := Option.isSome_iff_exists.mp
      (Std.TreeMap.mem_iff_isSome_getElem?.mp (Std.TreeMap.mem_keys.mp hk))
    obtain ⟨a, ha⟩ := List.exists_mem_of_ne_nil l (h k l hl)
    refine hks a k ((hc.mem_iff a k).mp ?_)
    rwa [bucket_of_getElem? hl]
  rw [← Std.TreeMap.length_keys]
  exact (List.subperm_of_subset hnodup hsub).length_le

end Map

end InvertedIndex
