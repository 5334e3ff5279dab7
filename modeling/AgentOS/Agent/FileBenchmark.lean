import AgentOS.Agent.FileAttr

/-!
# The store of the benchmark

`run_benchmark` fills the three structures of a store by hand instead of calling its operations. The
store it gets is that of the operations: the loops run side by side, and what relates them after each
file is that they hold the same attributes and list the same names in the same order.
-/

namespace AgentOS

open InvertedIndex

namespace FileAttrStore

/-! ## Two ways to fill a store -/

/-- How many of the files match the query. -/
def benchHits (n : ℕ) : ℕ := if 8 ≤ n then 4 else min n 1

def benchName (i : ℕ) : String := "bench_file_" ++ toString i

/-- What the loop of `run_benchmark` builds up. -/
structure Bench where
  byName : Std.TreeMap String FileAttrs
  bgNames : List String
  needleNames : List String

/-- One turn of the loop. -/
def Bench.add (hits : ℕ) (b : Bench) (i : ℕ) : Bench :=
  let name := benchName i
  let attrs := FileAttrs.default
  if i < hits then
    { b with
      byName := b.byName.insert name
        { attrs with tags := attrs.tags ++ ["needle"], kv := attrs.kv.insert "owner" "Agent-Hit" }
      needleNames := b.needleNames ++ [name] }
  else
    { b with
      byName := b.byName.insert name
        { attrs with tags := attrs.tags ++ ["bg"], kv := attrs.kv.insert "owner" "Agent-Bg" }
      bgNames := b.bgNames ++ [name] }

/-- The three structures of a store, filled at once. -/
def Bench.store (b : Bench) : FileAttrStore where
  byName := b.byName
  indexTag := (new.indexTag.insert "bg" b.bgNames).insert "needle" b.needleNames
  indexKv := (new.indexKv.insert ("owner", "Agent-Bg") b.bgNames).insert ("owner", "Agent-Hit")
    b.needleNames

/-- The store `run_benchmark` queries. -/
def benchStore (n : ℕ) : FileAttrStore :=
  ((List.range n).foldl (Bench.add (benchHits n)) ⟨∅, [], []⟩).store

/-- The same file through the operations of the store. -/
def addFile (hits : ℕ) (s : FileAttrStore) (i : ℕ) : FileAttrStore :=
  if i < hits then (s.addTag (benchName i) "needle").setOwner (benchName i) "Agent-Hit"
  else (s.addTag (benchName i) "bg").setOwner (benchName i) "Agent-Bg"

/-- A new store with the files added one by one. -/
def stepwiseStore (n : ℕ) : FileAttrStore := (List.range n).foldl (addFile (benchHits n)) new

theorem benchName_injective : Function.Injective benchName := by
  intro i j h
  exact Nat.repr_injective (String.append_right_inj _ |>.mp h)

/-! ## The loops side by side -/

/-- The attributes of a file with one tag and an owner. -/
def benchAttrs (tag owner : String) : FileAttrs :=
  { FileAttrs.default with tags := [tag], kv := FileAttrs.default.kv.insert "owner" owner }

/-- The two stores hold the same attributes, and their buckets list the same names in the same
order. -/
structure SameContents (s s' : FileAttrStore) : Prop where
  get : ∀ f, s.get f = s'.get f
  tag : bucket s.indexTag = bucket s'.indexTag
  kv : bucket s.indexKv = bucket s'.indexKv

/-- **A new file with a tag and an owner**: its name goes to the end of two buckets. -/
theorem addTag_setOwner {s : FileAttrStore} (h : s.Coherent) {name : String}
    (hname : s.byName[name]? = none) (tag owner : String) :
    (∀ f, ((s.addTag name tag).setOwner name owner).byName[f]? =
        if f = name then some (benchAttrs tag owner) else s.byName[f]?) ∧
      bucket ((s.addTag name tag).setOwner name owner).indexTag =
        Function.update (bucket s.indexTag) tag (bucket s.indexTag tag ++ [name]) ∧
      bucket ((s.addTag name tag).setOwner name owner).indexKv =
        Function.update (bucket s.indexKv) ("owner", owner)
          (bucket s.indexKv ("owner", owner) ++ [name]) := by
  have hentry : s.entry name = FileAttrs.default := by rw [entry, hname, Option.getD_none]
  have hnew : (s.addTag name tag).entry name = { FileAttrs.default with tags := [tag] } := by
    rw [addTag, entry_insert, if_pos rfl, hentry]
    rfl
  have hnone : ((s.addTag name tag).entry name).kv["owner"]? = none := by
    rw [hnew]
    simp [FileAttrs.default]
  -- a file without attributes is in no bucket
  have htag : name ∉ bucket s.indexTag tag := by
    rw [h.tag.mem_iff, tagsOf, hentry]
    exact List.not_mem_nil
  have hkv : name ∉ bucket s.indexKv ("owner", owner) := by
    rw [h.kv.mem_iff, valueOf, hentry]
    simp [FileAttrs.default]
  refine ⟨fun f ↦ ?_, ?_, ?_⟩
  · rw [setOwner, setKv, hnew]
    simp only [getElem?_insert_eq, addTag]
    by_cases hf : f = name
    · simp [hf, benchAttrs]
    · simp [hf]
  · show bucket (s.indexTag.insert tag (pushNew name (bucket s.indexTag tag))) = _
    rw [bucket_insert, pushNew, if_neg htag]
  · rw [setOwner, setKv]
    simp only [hnone]
    show bucket (s.indexKv.insert _ (pushNew name (bucket s.indexKv _))) = _
    rw [bucket_insert, pushNew, if_neg hkv]

theorem Bench.bucket_indexTag (b : Bench) : bucket b.store.indexTag =
    Function.update (Function.update (fun _ ↦ []) "bg" b.bgNames) "needle" b.needleNames := by
  have hnew : bucket new.indexTag = fun _ ↦ [] := funext bucket_empty
  rw [Bench.store, bucket_insert, bucket_insert, hnew]

theorem Bench.bucket_indexKv (b : Bench) : bucket b.store.indexKv =
    Function.update (Function.update (fun _ ↦ []) ("owner", "Agent-Bg") b.bgNames)
      ("owner", "Agent-Hit") b.needleNames := by
  have hnew : bucket new.indexKv = fun _ ↦ [] := funext bucket_empty
  rw [Bench.store, bucket_insert, bucket_insert, hnew]

/-- One turn of the loop, read off the store. -/
theorem Bench.add_store (hits : ℕ) (b : Bench) (i : ℕ) :
    let tag := if i < hits then "needle" else "bg"
    let owner := if i < hits then "Agent-Hit" else "Agent-Bg"
    (∀ f, (b.add hits i).store.byName[f]? =
        if f = benchName i then some (benchAttrs tag owner) else b.store.byName[f]?) ∧
      bucket (b.add hits i).store.indexTag =
        Function.update (bucket b.store.indexTag) tag (bucket b.store.indexTag tag ++ [benchName i]) ∧
      bucket (b.add hits i).store.indexKv =
        Function.update (bucket b.store.indexKv) ("owner", owner)
          (bucket b.store.indexKv ("owner", owner) ++ [benchName i]) := by
  have hne : ("bg" : String) ≠ "needle" := by decide
  have hne' : (("owner", "Agent-Bg") : String × String) ≠ ("owner", "Agent-Hit") := by decide
  by_cases hi : i < hits
  · simp only [hi, if_true, Bench.bucket_indexTag, Bench.bucket_indexKv, Bench.add,
      Function.update_self, Function.update_idem]
    exact ⟨fun f ↦ getElem?_insert_eq _ _ _ _, trivial, trivial⟩
  · simp only [hi, if_false, Bench.bucket_indexTag, Bench.bucket_indexKv, Bench.add,
      Function.update_of_ne hne, Function.update_of_ne hne', Function.update_self]
    refine ⟨fun f ↦ getElem?_insert_eq _ _ _ _, ?_, ?_⟩
    · rw [Function.update_comm hne.symm, Function.update_idem]
    · rw [Function.update_comm hne'.symm, Function.update_idem]

/-- The two loops after some of the files: the rest of the files are new to both stores. -/
structure Alongside (i : ℕ) (b : Bench) (s : FileAttrStore) : Prop where
  same : SameContents b.store s
  coherent : s.Coherent
  fresh : ∀ j, i ≤ j → s.byName[benchName j]? = none

theorem addFile_eq (hits : ℕ) (s : FileAttrStore) (i : ℕ) : addFile hits s i =
    (s.addTag (benchName i) (if i < hits then "needle" else "bg")).setOwner (benchName i)
      (if i < hits then "Agent-Hit" else "Agent-Bg") := by
  rw [addFile]
  split <;> rfl

/-- **One file** keeps the two loops alongside each other. -/
theorem Alongside.step {hits i : ℕ} {b : Bench} {s : FileAttrStore} (h : Alongside i b s) :
    Alongside (i + 1) (b.add hits i) (addFile hits s i) := by
  rw [addFile_eq]
  obtain ⟨hget, htag, hkv⟩ := addTag_setOwner h.coherent (h.fresh i le_rfl)
    (if i < hits then "needle" else "bg") (if i < hits then "Agent-Hit" else "Agent-Bg")
  obtain ⟨hget', htag', hkv'⟩ := b.add_store hits i
  refine ⟨⟨fun f ↦ ?_, ?_, ?_⟩, ?_, fun j hj ↦ ?_⟩
  · exact (hget' f).trans (Eq.trans (by rw [← get, ← get, h.same.get]) (hget f).symm)
  · rw [htag, htag', h.same.tag]
  · rw [hkv, hkv', h.same.kv]
  · exact coherent_apply (coherent_apply h.coherent (.addTag _ _)) (.setOwner _ _)
  · have hne : benchName j ≠ benchName i := fun heq ↦ by
      have := benchName_injective heq
      omega
    rw [hget, if_neg hne]
    exact h.fresh j (by omega)

/-- **All files.** -/
theorem alongside_foldl (hits n : ℕ) :
    Alongside n ((List.range n).foldl (Bench.add hits) ⟨∅, [], []⟩)
      ((List.range n).foldl (addFile hits) new) := by
  induction n with
  | zero =>
    refine ⟨⟨fun _ ↦ rfl, ?_, ?_⟩, coherent_new, fun j _ ↦ by simp [new]⟩
    · rw [Bench.bucket_indexTag]
      funext t
      simp [Function.update_apply, new]
    · rw [Bench.bucket_indexKv]
      funext kv
      simp [Function.update_apply, new]
  | succ n ih =>
    rw [List.range_succ, List.foldl_append, List.foldl_append]
    exact ih.step

/-- Equal buckets are equal entries, apart from empty ones. -/
theorem getElem?_iff_of_bucket {κ : Type} {cmp : κ → κ → Ordering} [Std.TransCmp cmp]
    {m m' : Std.TreeMap κ (List String) cmp} (h : bucket m = bucket m') (k : κ) {l : List String}
    (hl : l ≠ []) : m[k]? = some l ↔ m'[k]? = some l := by
  have hiff : ∀ m : Std.TreeMap κ (List String) cmp, m[k]? = some l ↔ bucket m k = l := by
    intro m
    rw [bucket]
    rcases m[k]? with _ | l'
    · simp [hl.symm]
    · simp
  rw [hiff, hiff, h]

/-- **The benchmark's store is that of the operations**: the same attributes, the same buckets apart
from empty ones, coherent indexes, and the same answer from both timed queries. -/
theorem benchStore_faithful (n : ℕ) :
    (∀ f, (benchStore n).get f = (stepwiseStore n).get f) ∧
      (benchStore n).byName.toList = (stepwiseStore n).byName.toList ∧
      (∀ (t : String) (l : List String), l ≠ [] → ((benchStore n).indexTag[t]? = some l ↔
        (stepwiseStore n).indexTag[t]? = some l)) ∧
      (∀ (kv : String × String) (l : List String), l ≠ [] → ((benchStore n).indexKv[kv]? = some l ↔
        (stepwiseStore n).indexKv[kv]? = some l)) ∧
      (benchStore n).Coherent ∧
      ∀ f, f ∈ (benchStore n).queryIndexed (some "needle") (some "Agent-Hit") none ↔
        f ∈ (benchStore n).queryFullScan (some "needle") (some "Agent-Hit") none := by
  have h := alongside_foldl (benchHits n) n
  have hentry : ∀ f, (benchStore n).entry f = (stepwiseStore n).entry f := fun f ↦
    congrArg (Option.getD · FileAttrs.default) (h.same.get f)
  have hcoherent : (benchStore n).Coherent := by
    refine ⟨?_, ?_, fun f ↦ ?_⟩
    · have htag := h.coherent.tag
      rw [← h.same.tag] at htag
      exact htag.congr fun f t ↦ by rw [tagsOf, hentry]; rfl
    · have hkv := h.coherent.kv
      rw [← h.same.kv] at hkv
      exact hkv.congr fun f kv ↦ by rw [valueOf, hentry]; rfl
    · rw [tagsOf, hentry]
      exact h.coherent.tags_nodup f
  refine ⟨h.same.get, ?_, fun t l ↦ getElem?_iff_of_bucket h.same.tag t,
    fun kv l ↦ getElem?_iff_of_bucket h.same.kv kv, hcoherent, fun f ↦ ?_⟩
  · exact (Std.TreeMap.Equiv.of_forall_constGet?_eq h.same.get).toList_eq
  · rw [(lists_queryIndexed hcoherent (Or.inl rfl)).mem_iff, (lists_queryFullScan _ _ _ _).mem_iff]

end FileAttrStore

end AgentOS
