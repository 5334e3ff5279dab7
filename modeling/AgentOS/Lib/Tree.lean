import Mathlib

/-!
# Trees given by lists of children

A finite set of nodes, and for each node the list of its children. It is a tree when every node but
the root is in exactly one list, once, and every node is reached from the root. The second does not
follow from the first: a cycle apart from the root satisfies it.

Three operations keep a tree a tree: a new leaf, a leaf removed, and the children of a node moved to
the root. A breadth-first walk of a tree sees every node once. That is because what it has seen and
what is queued is the root followed by the children of what it has seen.
-/

namespace Tree

variable {T : Type*} [DecidableEq T]

/-- `nodes` is a tree with this root. -/
structure IsTree (children : T → List T) (nodes : Finset T) (root : T) : Prop where
  root_mem : root ∈ nodes
  outside : ∀ u ∉ nodes, children u = []
  count : ∀ t, ∑ u ∈ nodes, (children u).count t = if t ∈ nodes ∧ t ≠ root then 1 else 0
  reach : ∀ t ∈ nodes, Relation.ReflTransGen (fun u v ↦ v ∈ children u) root t

namespace IsTree

variable {children children' : T → List T} {nodes : Finset T} {root t c u : T}

/-- A tree of one node. -/
theorem single (root : T) : IsTree (fun _ ↦ []) {root} root where
  root_mem := Finset.mem_singleton_self root
  outside _ _ := rfl
  count t := by
    simp only [List.count_nil, Finset.sum_const_zero, Finset.mem_singleton]
    split <;> simp_all
  reach t ht := by
    rw [Finset.mem_singleton.mp ht]

theorem mem_of_child (h : IsTree children nodes root) (hc : c ∈ children u) : u ∈ nodes := by
  by_contra hu
  rw [h.outside u hu] at hc
  exact List.not_mem_nil hc

/-- What is in a list of children is a node, and not the root. -/
theorem child_mem (h : IsTree children nodes root) (hc : c ∈ children u) :
    c ∈ nodes ∧ c ≠ root := by
  by_contra hno
  have hsum := h.count c
  rw [if_neg hno, Finset.sum_eq_zero_iff] at hsum
  exact List.count_eq_zero.mp (hsum u (h.mem_of_child hc)) hc

/-- No list has a node twice. -/
theorem count_le (h : IsTree children nodes root) (u t : T) : (children u).count t ≤ 1 := by
  by_cases hu : u ∈ nodes
  · calc (children u).count t ≤ ∑ u ∈ nodes, (children u).count t :=
          Finset.single_le_sum (f := fun u ↦ (children u).count t) (fun _ _ ↦ Nat.zero_le _) hu
      _ ≤ 1 := by
          rw [h.count]
          split <;> omega
  · rw [h.outside u hu]
    exact Nat.zero_le 1

/-- Every node but the root is the child of one node. -/
theorem existsUnique_parent (h : IsTree children nodes root) (ht : t ∈ nodes) (hne : t ≠ root) :
    ∃! u, t ∈ children u := by
  have hsum := h.count t
  rw [if_pos ⟨ht, hne⟩] at hsum
  obtain ⟨u, hu, hpos⟩ : ∃ u ∈ nodes, 0 < (children u).count t := by
    by_contra hno
    push Not at hno
    have hzero := Finset.sum_eq_zero fun u hu ↦ Nat.le_zero.mp (hno u hu)
    omega
  refine ⟨u, List.count_pos_iff.mp hpos, fun v hv ↦ ?_⟩
  by_contra hvu
  have hvpos := List.count_pos_iff.mpr hv
  have hle : (children u).count t + (children v).count t ≤ 1 := by
    rw [← hsum, ← Finset.sum_pair (f := fun u ↦ (children u).count t) (Ne.symm hvu)]
    refine Finset.sum_le_sum_of_subset ?_
    intro w hw
    rcases Finset.mem_insert.mp hw with rfl | hw
    · exact hu
    · exact Finset.mem_singleton.mp hw ▸ h.mem_of_child hv
  omega

/-! ## Operations -/

/-- A new leaf. -/
theorem addLeaf (h : IsTree children nodes root) (ht : t ∈ nodes) (hc : c ∉ nodes)
    (hself : (children' t).Perm (c :: children t)) (hnew : children' c = [])
    (hother : ∀ u, u ≠ t → u ≠ c → children' u = children u) :
    IsTree children' (insert c nodes) root where
  root_mem := Finset.mem_insert_of_mem h.root_mem
  outside u hu := by
    obtain ⟨huc, hun⟩ := not_or.mp (mt Finset.mem_insert.mpr hu)
    rw [hother u (fun e ↦ hun (e ▸ ht)) huc, h.outside u hun]
  count x := by
    have hstep : ∀ u ∈ nodes, (children' u).count x =
        (children u).count x + if u = t then (if c = x then 1 else 0) else 0 := by
      intro u hu
      rcases eq_or_ne u t with rfl | hne
      · rw [hself.count_eq, List.count_cons, if_pos rfl]
        simp only [beq_iff_eq]
      · rw [hother u hne fun e ↦ hc (e ▸ hu), if_neg hne, Nat.add_zero]
    rw [Finset.sum_insert hc, hnew, List.count_nil, Finset.sum_congr rfl hstep,
      Finset.sum_add_distrib, Finset.sum_ite_eq', if_pos ht, h.count]
    rcases eq_or_ne c x with rfl | hne
    · have hroot : c ≠ root := fun e ↦ hc (e ▸ h.root_mem)
      simp [hc, hroot]
    · simp [hne, hne.symm]
  reach x hx := by
    have hmono : ∀ u ∈ nodes, Relation.ReflTransGen (fun u v ↦ v ∈ children' u) root u := by
      intro u hu
      refine Relation.ReflTransGen.mono (fun a b hab ↦ ?_) _ _ (h.reach u hu)
      rcases eq_or_ne a t with rfl | hne
      · exact hself.mem_iff.mpr (List.mem_cons_of_mem c hab)
      · rwa [hother a hne fun e ↦ hc (e ▸ h.mem_of_child hab)]
    rcases Finset.mem_insert.mp hx with rfl | hx
    · exact (hmono t ht).tail (hself.mem_iff.mpr List.mem_cons_self)
    · exact hmono x hx

/-- The children of a node become those of the root. -/
theorem splice (h : IsTree children nodes root) (ht : t ∈ nodes) (hne : t ≠ root)
    (hself : children' t = []) (hroot : children' root = children root ++ children t)
    (hother : ∀ u, u ≠ t → u ≠ root → children' u = children u) :
    IsTree children' nodes root where
  root_mem := h.root_mem
  outside u hu := by
    rw [hother u (fun e ↦ hu (e ▸ ht)) fun e ↦ hu (e ▸ h.root_mem), h.outside u hu]
  count x := by
    have hstep : ∀ u ∈ nodes, (children' u).count x + (if u = t then (children t).count x else 0) =
        (children u).count x + if u = root then (children t).count x else 0 := by
      intro u _
      rcases eq_or_ne u t with rfl | hut
      · rw [hself, if_pos rfl, if_neg hne, List.count_nil, Nat.zero_add, Nat.add_zero]
      · rcases eq_or_ne u root with rfl | hur
        · rw [hroot, List.count_append, if_neg hut, if_pos rfl, Nat.add_zero]
        · rw [hother u hut hur, if_neg hut, if_neg hur]
    have hsum := Finset.sum_congr rfl hstep
    rw [Finset.sum_add_distrib, Finset.sum_add_distrib, Finset.sum_ite_eq', Finset.sum_ite_eq',
      if_pos ht, if_pos h.root_mem] at hsum
    exact (Nat.add_right_cancel hsum).trans (h.count x)
  reach x hx := by
    induction h.reach x hx with
    | refl => exact .refl
    | @tail a b _ hab ih =>
      have ha := h.mem_of_child hab
      rcases eq_or_ne a t with rfl | hat
      · exact .single (hroot ▸ List.mem_append_right _ hab)
      · refine (ih ha).tail ?_
        rcases eq_or_ne a root with rfl | har
        · exact hroot ▸ List.mem_append_left _ hab
        · rwa [hother a hat har]

/-- A leaf is removed. -/
theorem removeLeaf (h : IsTree children nodes root) (hleaf : children c = [])
    (hself : (children t).Perm (c :: children' t)) (hother : ∀ u, u ≠ t → children' u = children u) :
    IsTree children' (nodes.erase c) root := by
  have hct : c ∈ children t := hself.mem_iff.mpr List.mem_cons_self
  have hne : c ≠ t := by
    rintro rfl
    rw [hleaf] at hct
    exact List.not_mem_nil hct
  obtain ⟨hc, hroot⟩ := h.child_mem hct
  have hgone : children' c = [] := (hother c hne).trans hleaf
  refine ⟨Finset.mem_erase.mpr ⟨hroot.symm, h.root_mem⟩, fun u hu ↦ ?_, fun x ↦ ?_, fun x hx ↦ ?_⟩
  · by_cases huc : u = c
    · rw [huc, hgone]
    · have hun : u ∉ nodes := fun hun ↦ hu (Finset.mem_erase.mpr ⟨huc, hun⟩)
      rw [hother u fun e ↦ hun (e ▸ h.mem_of_child hct), h.outside u hun]
  · have hstep : ∀ u ∈ nodes, (children u).count x =
        (children' u).count x + if u = t then (if c = x then 1 else 0) else 0 := by
      intro u _
      rcases eq_or_ne u t with rfl | hut
      · rw [hself.count_eq, List.count_cons, if_pos rfl]
        simp only [beq_iff_eq]
      · rw [hother u hut, if_neg hut, Nat.add_zero]
    have hsum := h.count x
    rw [Finset.sum_congr rfl hstep, Finset.sum_add_distrib, Finset.sum_ite_eq',
      if_pos (h.mem_of_child hct), ← Finset.add_sum_erase nodes _ hc, hgone, List.count_nil,
      Nat.zero_add] at hsum
    rcases eq_or_ne c x with rfl | hcx
    · rw [if_pos rfl, if_pos ⟨hc, hroot⟩] at hsum
      rw [if_neg (by simp)]
      omega
    · rw [if_neg hcx, Nat.add_zero] at hsum
      simpa [hcx.symm] using hsum
  · obtain ⟨hxc, hx⟩ := Finset.mem_erase.mp hx
    induction h.reach x hx with
    | refl => exact .refl
    | @tail a b _ hab ih =>
      have hac : a ≠ c := by
        rintro rfl
        rw [hleaf] at hab
        exact List.not_mem_nil hab
      have ha := h.mem_of_child hab
      refine (ih (Finset.mem_erase.mpr ⟨hac, ha⟩) hac ha).tail ?_
      rcases eq_or_ne a t with rfl | hat
      · exact (List.mem_cons.mp (hself.mem_iff.mp hab)).resolve_left hxc
      · rwa [hother a hat]

end IsTree

/-! ## Walks -/

/-- A breadth-first walk: what was seen, and what is queued. -/
inductive Walk (children : T → List T) (root : T) : List T → List T → Prop
  | start : Walk children root [] [root]
  | step {seen queue : List T} {t : T} (h : Walk children root seen (t :: queue)) :
      Walk children root (seen ++ [t]) (queue ++ children t)

namespace Walk

variable {children : T → List T} {nodes : Finset T} {root : T} {seen queue : List T}

omit [DecidableEq T] in
theorem append_eq (h : Walk children root seen queue) :
    seen ++ queue = root :: seen.flatMap children := by
  induction h with
  | start => rfl
  | @step seen queue t _ ih =>
    rw [List.flatMap_append, List.flatMap_singleton, ← List.cons_append, ← ih]
    simp

theorem subset (h : Walk children root seen queue) (ht : IsTree children nodes root) :
    ∀ x ∈ seen ++ queue, x ∈ nodes := by
  intro x hx
  rw [h.append_eq, List.mem_cons, List.mem_flatMap] at hx
  rcases hx with rfl | ⟨u, -, hu⟩
  · exact ht.root_mem
  · exact (ht.child_mem hu).1

/-- **A walk of a tree sees no node twice.** -/
theorem nodup (h : Walk children root seen queue) (ht : IsTree children nodes root) :
    (seen ++ queue).Nodup := by
  induction h with
  | start => exact List.nodup_singleton root
  | @step seen queue t hwalk ih =>
    have hseen : (seen ++ [t]).Nodup := by
      refine ih.sublist (List.Sublist.append_left ?_ seen)
      exact List.singleton_sublist.mpr List.mem_cons_self
    have hmem : ∀ x ∈ seen ++ [t], x ∈ nodes := by
      intro x hx
      refine hwalk.subset ht x ?_
      rcases List.mem_append.mp hx with hx | hx
      · exact List.mem_append_left _ hx
      · exact List.mem_append_right _ (List.mem_singleton.mp hx ▸ List.mem_cons_self)
    rw [(Walk.step hwalk).append_eq, List.nodup_iff_count_le_one]
    intro x
    have hle : ((seen ++ [t]).flatMap children).count x ≤ ∑ u ∈ nodes, (children u).count x := by
      rw [List.count_flatMap, ← List.sum_toFinset _ hseen]
      exact Finset.sum_le_sum_of_subset fun u hu ↦ hmem u (List.mem_toFinset.mp hu)
    rw [ht.count] at hle
    rw [List.count_cons]
    rcases eq_or_ne x root with rfl | hne
    · rw [if_neg (by simp)] at hle
      split <;> omega
    · have hroot : (root == x) = false := by simpa using hne.symm
      rw [hroot]
      split at hle <;> simp_all

theorem length_le (h : Walk children root seen queue) (ht : IsTree children nodes root) :
    seen.length + queue.length ≤ nodes.card := by
  rw [← List.length_append, ← List.toFinset_card_of_nodup (h.nodup ht)]
  exact Finset.card_le_card fun x hx ↦ h.subset ht x (List.mem_toFinset.mp hx)

/-- **A walk that has nothing queued has seen every node.** -/
theorem mem_iff (h : Walk children root seen []) (ht : IsTree children nodes root) (x : T) :
    x ∈ seen ↔ x ∈ nodes := by
  have heq := h.append_eq
  rw [List.append_nil] at heq
  refine ⟨fun hx ↦ h.subset ht x (List.mem_append_left _ hx), fun hx ↦ ?_⟩
  induction ht.reach x hx with
  | refl =>
    rw [heq]
    exact List.mem_cons_self
  | @tail a b _ hab ih =>
    rw [heq]
    exact List.mem_cons_of_mem _ (List.mem_flatMap.mpr ⟨a, ih (ht.mem_of_child hab), hab⟩)

end Walk

end Tree
