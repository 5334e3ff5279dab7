import AgentOS.Agent.FileAttr

/-!
# Dead index buckets

The three removals drop a bucket of an index when they empty it. Overwriting a value does not: when
the last file with a value gets another one, an empty bucket stays behind. A history leaves no dead
bucket exactly when no step of it overwrites the last occurrence of a value.
-/

namespace AgentOS

open InvertedIndex

namespace FileAttrStore

/-! ## Room -/

/-- The `(file, tag)` pairs that are stored. -/
def tagPairs (s : FileAttrStore) : List (String × String) :=
  s.byName.toList.flatMap fun p ↦ p.2.tags.map fun t ↦ (p.1, t)

/-- The `(file, (key, value))` pairs that are stored. -/
def kvPairs (s : FileAttrStore) : List (String × String × String) :=
  s.byName.toList.flatMap fun p ↦ p.2.kv.toList.map fun kv ↦ (p.1, kv)

/-- No index has a dead bucket, so an index has no more buckets than there are pairs stored. -/
structure NoLeak (s : FileAttrStore) : Prop where
  tag : NoDead s.indexTag
  kv : NoDead s.indexKv
  tag_size : s.indexTag.size ≤ s.tagPairs.length
  kv_size : s.indexKv.size ≤ s.kvPairs.length

theorem mem_tags_tagPairs {s : FileAttrStore} {f t : String} (h : t ∈ s.tagsOf f) :
    t ∈ s.tagPairs.map Prod.snd := by
  rw [tagsOf, entry] at h
  rcases hf : s.byName[f]? with _ | attrs
  · simp [hf, FileAttrs.default] at h
  · rw [hf, Option.getD_some] at h
    refine List.mem_map.mpr ⟨(f, t), List.mem_flatMap.mpr ⟨(f, attrs), ?_, ?_⟩, rfl⟩
    · exact Std.TreeMap.mem_toList_iff_getElem?_eq_some.mpr hf
    · exact List.mem_map_of_mem h

theorem mem_kv_kvPairs {s : FileAttrStore} {f : String} {kv : String × String}
    (h : s.valueOf f kv.1 = some kv.2) : kv ∈ s.kvPairs.map Prod.snd := by
  rw [valueOf, entry] at h
  rcases hf : s.byName[f]? with _ | attrs
  · simp [hf, FileAttrs.default] at h
  · rw [hf, Option.getD_some] at h
    refine List.mem_map.mpr ⟨(f, kv), List.mem_flatMap.mpr ⟨(f, attrs), ?_, ?_⟩, rfl⟩
    · exact Std.TreeMap.mem_toList_iff_getElem?_eq_some.mpr hf
    · exact List.mem_map_of_mem (Std.TreeMap.mem_toList_iff_getElem?_eq_some.mpr h)

/-- The bounds follow from the absence of dead buckets. -/
theorem noLeak_iff {s : FileAttrStore} (h : s.Coherent) :
    s.NoLeak ↔ NoDead s.indexTag ∧ NoDead s.indexKv := by
  refine ⟨fun hs ↦ ⟨hs.tag, hs.kv⟩, fun ⟨htag, hkv⟩ ↦ ⟨htag, hkv, ?_, ?_⟩⟩
  · have hsize := htag.size_le h.tag fun _ _ ↦ mem_tags_tagPairs
    rwa [List.length_map] at hsize
  · have hsize := hkv.size_le h.kv fun _ _ ↦ mem_kv_kvPairs
    rwa [List.length_map] at hsize

/-! ## One operation -/

/-- The file gives up a value that no other file has. -/
def Strands (s : FileAttrStore) (name key value : String) : Prop :=
  ∃ old, s.valueOf name key = some old ∧ old ≠ value ∧
    ∀ f, s.valueOf f key = some old → f = name

/-- The operation does not overwrite the last occurrence of a value. -/
def Spares (s : FileAttrStore) : FileAttrOp → Prop
  | .setKv name key value => ¬s.Strands name key value
  | .setOwner name owner => ¬s.Strands name "owner" owner
  | _ => True

/-- **Overwriting** leaves a dead bucket exactly when it strands the old value. -/
theorem noDead_setKv {s : FileAttrStore} (h : s.Coherent) (hkv : NoDead s.indexKv)
    (name key value : String) :
    NoDead (s.setKv name key value).indexKv ↔ ¬s.Strands name key value := by
  cases hold : s.valueOf name key with
  | none =>
    have hidx : (s.setKv name key value).indexKv =
        s.indexKv.insert (key, value) (pushNew name (bucket s.indexKv (key, value))) := by
      have : (s.entry name).kv[key]? = none := hold
      rw [setKv]
      simp only [this]
    rw [hidx]
    refine iff_of_true (hkv.insert _ (pushNew_ne_nil _ _)) ?_
    rintro ⟨old, hsome, -⟩
    exact absurd (hold.symm.trans hsome) (by simp)
  | some old =>
    have hidx : (s.setKv name key value).indexKv = (s.indexKv.modify (key, old) (dropItem name)).insert
        (key, value) (pushNew name (bucket (s.indexKv.modify (key, old) (dropItem name)) (key, value))) := by
      have : (s.entry name).kv[key]? = some old := hold
      rw [setKv]
      simp only [this]
    -- the file is in the bucket of its value
    have hmem : name ∈ bucket s.indexKv (key, old) := (h.kv.mem_iff name (key, old)).mpr hold
    obtain ⟨l, hl⟩ : ∃ l, s.indexKv[(key, old)]? = some l := by
      rcases hl : s.indexKv[(key, old)]? with _ | l
      · rw [bucket, hl] at hmem
        exact absurd hmem (by simp)
      · exact ⟨l, rfl⟩
    have hlist : ∀ f, f ∈ l ↔ s.valueOf f key = some old := by
      intro f
      rw [← bucket_of_getElem? hl]
      exact h.kv.mem_iff f (key, old)
    rw [hidx]
    constructor
    · rintro hnew ⟨old', hsome, hne, honly⟩
      obtain rfl : old = old' := Option.some.inj (hold.symm.trans hsome)
      have hkey : (key, old) ≠ (key, value) := fun heq ↦ hne (Prod.mk.inj heq).2
      refine hnew (key, old) (dropItem name l) ?_ ?_
      · rw [getElem?_insert_eq, if_neg hkey, getElem?_modify_eq, if_pos rfl, hl]
        rfl
      · refine List.eq_nil_iff_forall_not_mem.mpr fun f hf ↦ ?_
        obtain ⟨hfl, hfn⟩ := mem_dropItem.mp hf
        exact hfn (honly f ((hlist f).mp hfl))
    · intro hspares kv l' hl'
      rw [getElem?_insert_eq] at hl'
      split at hl'
      · exact Option.some.inj hl' ▸ pushNew_ne_nil _ _
      · rename_i hkey
        rw [getElem?_modify_eq] at hl'
        split at hl'
        · rename_i hkv'
          subst hkv'
          rw [hl] at hl'
          obtain rfl : dropItem name l = l' := Option.some.inj hl'
          have hne : old ≠ value := fun heq ↦ hkey (by rw [heq])
          have hother : ∃ f, s.valueOf f key = some old ∧ f ≠ name := by
            by_contra hnone
            refine hspares ⟨old, hold, hne, fun f hf ↦ ?_⟩
            by_contra hfn
            exact hnone ⟨f, hf, hfn⟩
          obtain ⟨f, hf, hfn⟩ := hother
          exact List.ne_nil_of_mem (mem_dropItem.mpr ⟨(hlist f).mpr hf, hfn⟩)
        · exact hkv kv l' hl'

theorem noDead_addTag {s : FileAttrStore} (h : NoDead s.indexTag) (name tag : String) :
    NoDead (s.addTag name tag).indexTag := h.insert _ (pushNew_ne_nil _ _)

theorem noDead_removeKv {s : FileAttrStore} (h : NoDead s.indexKv) (name key : String) :
    NoDead (s.removeKv name key).2.indexKv := by
  unfold removeKv
  split
  · exact h.dropEntry _ _
  · exact h

theorem noDead_removeFile {s : FileAttrStore} (htag : NoDead s.indexTag) (hkv : NoDead s.indexKv)
    (name : String) :
    NoDead (s.removeFile name).2.indexTag ∧ NoDead (s.removeFile name).2.indexKv := by
  unfold removeFile
  split
  · exact ⟨htag, hkv⟩
  · exact ⟨htag.foldl_dropEntry _ _, hkv.foldl_dropEntry _ _⟩

/-- **One operation** on a store without dead buckets leaves none exactly when it spares the last
occurrence of every value. -/
theorem noLeak_apply {s : FileAttrStore} (h : s.Coherent) (hs : s.NoLeak) (op : FileAttrOp) :
    (s.apply op).NoLeak ↔ s.Spares op := by
  obtain ⟨htag, hkv⟩ := (noLeak_iff h).mp hs
  rw [noLeak_iff (coherent_apply h op)]
  cases op with
  | addTag name tag => exact iff_of_true ⟨noDead_addTag htag name tag, hkv⟩ trivial
  | setKv name key value => exact (and_iff_right htag).trans (noDead_setKv h hkv name key value)
  | setOwner name owner => exact (and_iff_right htag).trans (noDead_setKv h hkv name "owner" owner)
  | setDigest name digest => exact iff_of_true ⟨htag, hkv⟩ trivial
  | removeTag name tag => exact iff_of_true ⟨htag.dropEntry _ _, hkv⟩ trivial
  | removeKv name key =>
    have hidx : (s.removeKv name key).2.indexTag = s.indexTag := by
      unfold removeKv
      split <;> rfl
    refine iff_of_true ⟨?_, noDead_removeKv hkv name key⟩ trivial
    show NoDead (s.removeKv name key).2.indexTag
    rwa [hidx]
  | removeFile name => exact iff_of_true (noDead_removeFile htag hkv name) trivial

/-! ## Histories -/

theorem noLeak_new : new.NoLeak :=
  (noLeak_iff coherent_new).mpr ⟨noDead_empty, noDead_empty⟩

theorem run_take_succ {ops : List FileAttrOp} {n : ℕ} {op : FileAttrOp} (h : ops[n]? = some op) :
    run (ops.take (n + 1)) = (run (ops.take n)).apply op := by
  rw [run, List.take_add_one, h, List.foldl_append]
  rfl

/-- **Histories without dead buckets**: in every state of a history the indexes have no dead bucket,
and no more buckets than there are pairs, exactly when each of its steps spares the last occurrence of
every value. -/
theorem noLeak_run (ops : List FileAttrOp) :
    (∀ n, (run (ops.take n)).NoLeak) ↔
      ∀ n op, ops[n]? = some op → (run (ops.take n)).Spares op := by
  constructor
  · intro h n op hop
    refine (noLeak_apply (coherent_run _) (h n) op).mp ?_
    rw [← run_take_succ hop]
    exact h (n + 1)
  · intro h n
    induction n with
    | zero => exact noLeak_new
    | succ n ih =>
      rcases hop : ops[n]? with _ | op
      · rw [List.take_add_one, hop]
        simpa using ih
      · rw [run_take_succ hop]
        exact (noLeak_apply (coherent_run _) ih op).mpr (h n op hop)

/-- A file's owner is overwritten: the index has two buckets for one pair, and one of them is
empty. -/
theorem not_noLeak_overwritten :
    ¬∀ ops : List FileAttrOp, (run ops).NoLeak := by
  intro h
  have hs := h [.setOwner "a" "x", .setOwner "a" "y"]
  have hdead : (run [.setOwner "a" "x", .setOwner "a" "y"]).indexKv[("owner", "x")]? = some [] := by
    decide +kernel
  exact hs.kv _ _ hdead rfl

end FileAttrStore

end AgentOS
