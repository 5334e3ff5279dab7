import AgentOS.Lib.InvertedIndex

/-!
# The file attribute store

The side table of file attributes kept in kernel memory: `byName` holds the attributes of each
file, and two inverted indexes, by tag and by `(key, value)`, hold the names of the files carrying
them. The three structures are redundant, and every operation touches them by hand.

`BTreeMap` is `Std.TreeMap`, which iterates in the same key order, and `String` is Lean's, which
like Rust's is a UTF-8 byte string compared by code point.

The indexes are coherent with `byName` in every reachable store. Each operation is described twice:
what it does to the tags and values of the files, and what it does to the buckets. The abstract
update rules of `InvertedIndex` then match the two.
-/

namespace AgentOS

open InvertedIndex

/-! ## The store -/

/-- The attributes of one file. -/
structure FileAttrs where
  /-- General key-value attributes. -/
  kv : Std.TreeMap String String
  /-- The tags, in the order they were added. -/
  tags : List String
  /-- The content digest. -/
  digest : List UInt8

namespace FileAttrs

/-- `FileAttrs::default()`. -/
def default : FileAttrs := ⟨∅, [], []⟩

end FileAttrs

/-- Order of the `(key, value)` pairs that `index_kv` is keyed by. -/
def compareKv (a b : String × String) : Ordering :=
  compareLex (compareOn Prod.fst) (compareOn Prod.snd) a b

instance : Std.TransCmp compareKv :=
  inferInstanceAs (Std.TransCmp (compareLex (compareOn Prod.fst) (compareOn Prod.snd)))

instance : Std.LawfulEqCmp compareKv where
  eq_of_compare := by
    rintro ⟨a, b⟩ ⟨c, d⟩ h
    simp only [compareKv, compareLex_eq_eq, compareOn, Std.LawfulEqCmp.compare_eq_iff_eq] at h
    exact Prod.ext h.1 h.2

structure FileAttrStore where
  /-- File name to attributes. -/
  byName : Std.TreeMap String FileAttrs
  /-- `(key, value)` to the names of the files carrying it. -/
  indexKv : Std.TreeMap (String × String) (List String) compareKv
  /-- Tag to the names of the files carrying it. -/
  indexTag : Std.TreeMap String (List String)

namespace FileAttrStore

def new : FileAttrStore := ⟨∅, ∅, ∅⟩

/-- `by_name.entry(name).or_default()`, read. -/
def entry (s : FileAttrStore) (name : String) : FileAttrs :=
  s.byName[name]?.getD FileAttrs.default

/-- Set a key-value attribute, overwriting. The old index entry loses the name but, unlike in the
removals below, stays in the map when that empties it. -/
def setKv (s : FileAttrStore) (name key value : String) : FileAttrStore :=
  let attrs := s.entry name
  let indexKv := match attrs.kv[key]? with
    | some old => s.indexKv.modify (key, old) (dropItem name)
    | none => s.indexKv
  { s with
    byName := s.byName.insert name { attrs with kv := attrs.kv.insert key value }
    indexKv := indexKv.insert (key, value) (pushNew name (bucket indexKv (key, value))) }

def addTag (s : FileAttrStore) (name tag : String) : FileAttrStore :=
  let attrs := s.entry name
  { s with
    byName := s.byName.insert name { attrs with tags := pushNew tag attrs.tags }
    indexTag := s.indexTag.insert tag (pushNew name (bucket s.indexTag tag)) }

def setOwner (s : FileAttrStore) (name owner : String) : FileAttrStore :=
  s.setKv name "owner" owner

def setDigest (s : FileAttrStore) (name : String) (digest : List UInt8) : FileAttrStore :=
  { s with byName := s.byName.insert name { s.entry name with digest := digest } }

/-- Remove one tag; `true` when the file carried it. -/
def removeTag (s : FileAttrStore) (name tag : String) : Bool × FileAttrStore :=
  let removed := match s.byName[name]? with
    | some attrs => (dropItem tag attrs.tags).length != attrs.tags.length
    | none => false
  (removed,
    { s with
      byName := s.byName.modify name fun attrs ↦ { attrs with tags := dropItem tag attrs.tags }
      indexTag := dropEntry s.indexTag tag name })

/-- Remove one key; `true` when the file had a value for it. -/
def removeKv (s : FileAttrStore) (name key : String) : Bool × FileAttrStore :=
  let byName := s.byName.modify name fun attrs ↦ { attrs with kv := attrs.kv.erase key }
  match s.byName[name]?.bind (·.kv[key]?) with
  | some old => (true, { s with byName := byName, indexKv := dropEntry s.indexKv (key, old) name })
  | none => (false, { s with byName := byName })

/-- Remove a file with all its attributes; `true` when it had an entry. -/
def removeFile (s : FileAttrStore) (name : String) : Bool × FileAttrStore :=
  match s.byName[name]? with
  | none => (false, s)
  | some attrs =>
    (true,
      { byName := s.byName.erase name
        indexKv := attrs.kv.toList.foldl (fun m kv ↦ dropEntry m kv name) s.indexKv
        indexTag := attrs.tags.foldl (fun m tag ↦ dropEntry m tag name) s.indexTag })

def get (s : FileAttrStore) (name : String) : Option FileAttrs := s.byName[name]?

/-! ## Queries -/

/-- Is `needle` a contiguous part of `hay`? -/
def memmem (hay needle : List UInt8) : Bool :=
  if needle.isEmpty then true
  else if hay.length < needle.length then false
  else (List.range (hay.length - needle.length + 1)).any fun i ↦
    (hay.drop i).take needle.length == needle

/-- `str::as_bytes`. -/
def asBytes (k : String) : List UInt8 := k.toUTF8.data.toList

def intersect (a : Option (List String)) (b : List String) : List String :=
  match a with
  | none => b
  | some prev => prev.filter fun x ↦ b.contains x

/-- Query through the indexes: intersect the candidate lists of the tag and the owner, then filter
the candidates (every name when there are none yet) by the keyword. -/
def queryIndexed (s : FileAttrStore) (tag owner keyword : Option String) : List String :=
  let candidates : Option (List String) := none
  let candidates := match tag with
    | some t => some (intersect candidates (bucket s.indexTag t))
    | none => candidates
  let candidates := match owner with
    | some o => some (intersect candidates (bucket s.indexKv ("owner", o)))
    | none => candidates
  let candidates := match keyword with
    | some k =>
      let names := match candidates with
        | some c => c
        | none => s.byName.keys
      some (names.filter fun (n : String) ↦ match s.byName[n]? with
        | some a => memmem a.digest (asBytes k)
        | none => false)
    | none => candidates
  candidates.getD []

/-- The three filters a full scan applies to one file. -/
def passes (attrs : FileAttrs) (tag owner keyword : Option String) : Bool :=
  (match tag with | some t => attrs.tags.contains t | none => true) &&
  (match owner with | some o => attrs.kv["owner"]? == some o | none => true) &&
  (match keyword with | some k => memmem attrs.digest (asBytes k) | none => true)

/-- Query by scanning every file. -/
def queryFullScan (s : FileAttrStore) (tag owner keyword : Option String) : List String :=
  (s.byName.toList.filter fun p ↦ passes p.2 tag owner keyword).map Prod.fst

end FileAttrStore

/-! ## Runs of operations -/

/-- The operations that change a store. -/
inductive FileAttrOp where
  | addTag (name tag : String)
  | setKv (name key value : String)
  | setOwner (name owner : String)
  | setDigest (name : String) (digest : List UInt8)
  | removeTag (name tag : String)
  | removeKv (name key : String)
  | removeFile (name : String)

namespace FileAttrStore

def apply (s : FileAttrStore) : FileAttrOp → FileAttrStore
  | .addTag name tag => s.addTag name tag
  | .setKv name key value => s.setKv name key value
  | .setOwner name owner => s.setOwner name owner
  | .setDigest name digest => s.setDigest name digest
  | .removeTag name tag => (s.removeTag name tag).2
  | .removeKv name key => (s.removeKv name key).2
  | .removeFile name => (s.removeFile name).2

/-- The store after a sequence of operations on a new one. -/
def run (ops : List FileAttrOp) : FileAttrStore := ops.foldl apply new

/-! ## What a store says about its files -/

/-- `by_name[f].tags`, empty for a file without an entry. -/
def tagsOf (s : FileAttrStore) (f : String) : List String := (s.entry f).tags

/-- `by_name[f].kv[k]`. -/
def valueOf (s : FileAttrStore) (f k : String) : Option String := (s.entry f).kv[k]?

/-- The indexes are coherent with `byName`, and no file lists a tag twice. -/
structure Coherent (s : FileAttrStore) : Prop where
  /-- Bucket `t` of the tag index lists the files tagged `t`. -/
  tag : InvertedIndex.Coherent (fun f t ↦ t ∈ s.tagsOf f) (bucket s.indexTag)
  /-- Bucket `(k, v)` of the other index lists the files whose value for `k` is `v`. -/
  kv : InvertedIndex.Coherent (fun f kv ↦ s.valueOf f kv.1 = some kv.2) (bucket s.indexKv)
  /-- Tag lists have no duplicates. -/
  tags_nodup : ∀ f, (s.tagsOf f).Nodup

@[simp] theorem entry_new (f : String) : new.entry f = FileAttrs.default := by
  simp [entry, new]

theorem coherent_new : new.Coherent where
  tag := by
    refine ⟨fun _ ↦ by simp [new], fun f t ↦ ?_⟩
    rw [tagsOf, entry_new]
    simp [new, FileAttrs.default]
  kv := by
    refine ⟨fun _ ↦ by simp [new], fun f kv ↦ ?_⟩
    rw [valueOf, entry_new]
    simp [new, FileAttrs.default]
  tags_nodup f := by simp [tagsOf, FileAttrs.default]

/-! ## How each update of `byName` reads back -/

section Entry

variable (s : FileAttrStore) (name f : String)
  (ikv : Std.TreeMap (String × String) (List String) compareKv)
  (itag : Std.TreeMap String (List String))

theorem entry_insert (a : FileAttrs) :
    (FileAttrStore.mk (s.byName.insert name a) ikv itag).entry f
      = if f = name then a else s.entry f := by
  rw [entry, getElem?_insert_eq]
  split <;> rfl

theorem entry_modify {g : FileAttrs → FileAttrs} (hg : g FileAttrs.default = FileAttrs.default) :
    (FileAttrStore.mk (s.byName.modify name g) ikv itag).entry f
      = if f = name then g (s.entry f) else s.entry f := by
  rw [entry, getElem?_modify_eq]
  split
  · cases h : s.byName[f]? <;> simp [entry, h, hg]
  · rfl

theorem entry_erase : (FileAttrStore.mk (s.byName.erase name) ikv itag).entry f
    = if f = name then FileAttrs.default else s.entry f := by
  rw [entry, getElem?_erase_eq]
  split <;> rfl

/-- Reading a value through `byName` directly. -/
theorem byName_bind_kv (key : String) :
    (s.byName[name]?.bind fun a ↦ a.kv[key]?) = s.valueOf name key := by
  cases h : s.byName[name]? <;> simp [valueOf, entry, h, FileAttrs.default]

end Entry

/-! ## The invariant, operation by operation -/

theorem coherent_addTag {s : FileAttrStore} (h : s.Coherent) (name tag : String) :
    (s.addTag name tag).Coherent := by
  have hentry : ∀ f, (s.addTag name tag).entry f
      = if f = name then { s.entry name with tags := pushNew tag (s.entry name).tags }
        else s.entry f := fun f ↦ entry_insert s name f _ _ _
  have htags : ∀ f, (s.addTag name tag).tagsOf f
      = if f = name then pushNew tag (s.tagsOf name) else s.tagsOf f := by
    intro f
    rw [tagsOf, hentry]
    split <;> rfl
  refine ⟨?_, ?_, ?_⟩
  · have hb : bucket (s.addTag name tag).indexTag
        = Function.update (bucket s.indexTag) tag (pushNew name (bucket s.indexTag tag)) :=
      bucket_insert _ _ _
    rw [hb]
    refine (h.tag.push name tag).congr fun f t ↦ ?_
    rw [htags]
    by_cases hf : f = name
    · subst hf
      simp [mem_pushNew]
    · simp [hf]
  · refine h.kv.congr fun f kv ↦ ?_
    rw [valueOf, valueOf, hentry]
    by_cases hf : f = name
    · subst hf
      simp
    · simp [hf]
  · intro f
    rw [htags]
    split
    · exact nodup_pushNew (h.tags_nodup name)
    · exact h.tags_nodup f

theorem coherent_setDigest {s : FileAttrStore} (h : s.Coherent) (name : String)
    (digest : List UInt8) : (s.setDigest name digest).Coherent := by
  have hentry : ∀ f, (s.setDigest name digest).entry f
      = if f = name then { s.entry name with digest := digest } else s.entry f :=
    fun f ↦ entry_insert s name f _ _ _
  have htags : ∀ f, (s.setDigest name digest).tagsOf f = s.tagsOf f := by
    intro f
    rw [tagsOf, hentry]
    split
    · next hf => rw [hf]; rfl
    · rfl
  have hvalue : ∀ f k, (s.setDigest name digest).valueOf f k = s.valueOf f k := by
    intro f k
    rw [valueOf, hentry]
    split
    · next hf => rw [hf]; rfl
    · rfl
  exact ⟨h.tag.congr fun f t ↦ by rw [htags], h.kv.congr fun f kv ↦ by rw [hvalue],
    fun f ↦ by rw [htags]; exact h.tags_nodup f⟩

/-- Overwriting first unrelates the old pair, then relates the new one. When the file had no value
for the key there is nothing to unrelate. -/
theorem coherent_setKv {s : FileAttrStore} (h : s.Coherent) (name key value : String) :
    (s.setKv name key value).Coherent := by
  have hentry : ∀ f, (s.setKv name key value).entry f
      = if f = name then { s.entry name with kv := (s.entry name).kv.insert key value }
        else s.entry f := fun f ↦ entry_insert s name f _ _ _
  have htags : ∀ f, (s.setKv name key value).tagsOf f = s.tagsOf f := by
    intro f
    rw [tagsOf, hentry]
    split
    · next hf => rw [hf]; rfl
    · rfl
  have hvalue : ∀ f k, (s.setKv name key value).valueOf f k
      = if f = name ∧ k = key then some value else s.valueOf f k := by
    intro f k
    rw [valueOf, hentry]
    by_cases hf : f = name
    · subst hf
      simp [getElem?_insert_eq, valueOf]
    · simp [hf, valueOf]
  refine ⟨h.tag.congr fun f t ↦ by rw [htags], ?_, fun f ↦ by rw [htags]; exact h.tags_nodup f⟩
  cases hold : s.valueOf name key with
  | none =>
    have hb : bucket (s.setKv name key value).indexKv = Function.update (bucket s.indexKv)
        (key, value) (pushNew name (bucket s.indexKv (key, value))) := by
      have : (s.entry name).kv[key]? = none := hold
      rw [setKv]
      simp only [this, bucket_insert]
    rw [hb]
    refine (h.kv.push name (key, value)).congr fun f kv ↦ ?_
    rw [hvalue]
    by_cases hf : f = name ∧ kv.1 = key
    · obtain ⟨rfl, rfl⟩ := hf
      simp [hold, Prod.ext_iff, eq_comm]
    · rw [if_neg hf, Prod.ext_iff]
      tauto
  | some old =>
    have hb : bucket (s.setKv name key value).indexKv
        = Function.update (Function.update (bucket s.indexKv) (key, old)
            (dropItem name (bucket s.indexKv (key, old)))) (key, value)
          (pushNew name (Function.update (bucket s.indexKv) (key, old)
            (dropItem name (bucket s.indexKv (key, old))) (key, value))) := by
      have : (s.entry name).kv[key]? = some old := hold
      rw [setKv]
      simp only [this, bucket_insert, bucket_modify _ _ (dropItem_nil name)]
    rw [hb]
    refine ((h.kv.drop name (key, old)).push name (key, value)).congr fun f kv ↦ ?_
    rw [hvalue]
    by_cases hf : f = name ∧ kv.1 = key
    · obtain ⟨rfl, rfl⟩ := hf
      simp only [and_self, if_true, hold, Option.some.injEq, Prod.ext_iff, true_and]
      constructor
      · intro hv
        exact Or.inr hv.symm
      · rintro (⟨hv, hne⟩ | hv)
        · exact absurd hv.symm hne
        · exact hv.symm
    · rw [if_neg hf, Prod.ext_iff, Prod.ext_iff]
      tauto

theorem coherent_removeTag {s : FileAttrStore} (h : s.Coherent) (name tag : String) :
    (s.removeTag name tag).2.Coherent := by
  have hentry : ∀ f, (s.removeTag name tag).2.entry f
      = if f = name then { s.entry f with tags := dropItem tag (s.entry f).tags }
        else s.entry f := fun f ↦ entry_modify s name f _ _ rfl
  have htags : ∀ f, (s.removeTag name tag).2.tagsOf f
      = if f = name then dropItem tag (s.tagsOf f) else s.tagsOf f := by
    intro f
    rw [tagsOf, hentry]
    split <;> rfl
  have hvalue : ∀ f k, (s.removeTag name tag).2.valueOf f k = s.valueOf f k := by
    intro f k
    rw [valueOf, hentry]
    split <;> rfl
  refine ⟨?_, h.kv.congr fun f kv ↦ by rw [hvalue], ?_⟩
  · have hb : bucket (s.removeTag name tag).2.indexTag
        = Function.update (bucket s.indexTag) tag (dropItem name (bucket s.indexTag tag)) :=
      bucket_dropEntry _ _ _
    rw [hb]
    refine (h.tag.drop name tag).congr fun f t ↦ ?_
    rw [htags]
    by_cases hf : f = name
    · simp [hf, mem_dropItem]
    · simp [hf]
  · intro f
    rw [htags]
    split
    · exact nodup_dropItem (h.tags_nodup f)
    · exact h.tags_nodup f

theorem coherent_removeKv {s : FileAttrStore} (h : s.Coherent) (name key : String) :
    (s.removeKv name key).2.Coherent := by
  have hentry : ∀ f, (s.removeKv name key).2.entry f
      = if f = name then { s.entry f with kv := (s.entry f).kv.erase key } else s.entry f := by
    intro f
    unfold removeKv
    split <;> exact entry_modify s name f _ _ rfl
  have htags : ∀ f, (s.removeKv name key).2.tagsOf f = s.tagsOf f := by
    intro f
    rw [tagsOf, hentry]
    split <;> rfl
  have hvalue : ∀ f k, (s.removeKv name key).2.valueOf f k
      = if f = name ∧ k = key then none else s.valueOf f k := by
    intro f k
    rw [valueOf, hentry]
    by_cases hf : f = name
    · simp [hf, getElem?_erase_eq, valueOf]
    · simp [hf, valueOf]
  refine ⟨?_, ?_, fun f ↦ by rw [htags]; exact h.tags_nodup f⟩
  · have hidx : (s.removeKv name key).2.indexTag = s.indexTag := by
      unfold removeKv
      split <;> rfl
    rw [hidx]
    exact h.tag.congr fun f t ↦ by rw [htags]
  · have hread := byName_bind_kv s name key
    cases hold : s.valueOf name key with
    | none =>
      have hidx : (s.removeKv name key).2.indexKv = s.indexKv := by
        simp only [removeKv, hread, hold]
      rw [hidx]
      refine h.kv.congr fun f kv ↦ ?_
      rw [hvalue]
      split
      · next hf => rw [hf.1, hf.2, hold]
      · rfl
    | some old =>
      have hb : bucket (s.removeKv name key).2.indexKv = Function.update (bucket s.indexKv)
          (key, old) (dropItem name (bucket s.indexKv (key, old))) := by
        simp only [removeKv, hread, hold, bucket_dropEntry]
      rw [hb]
      refine (h.kv.drop name (key, old)).congr fun f kv ↦ ?_
      rw [hvalue, Prod.ext_iff]
      by_cases hf : f = name ∧ kv.1 = key
      · simp [hf, hold, eq_comm]
      · rw [if_neg hf]
        tauto

/-- A removed file leaves the buckets it was listed in, which are those of its own tags and
values. -/
theorem coherent_removeFile {s : FileAttrStore} (h : s.Coherent) (name : String) :
    (s.removeFile name).2.Coherent := by
  cases hname : s.byName[name]? with
  | none =>
    have : (s.removeFile name).2 = s := by simp [removeFile, hname]
    rwa [this]
  | some attrs =>
    have hattrs : s.entry name = attrs := by rw [entry, hname, Option.getD_some]
    have hrm : (s.removeFile name).2
        = { byName := s.byName.erase name
            indexKv := attrs.kv.toList.foldl (fun m kv ↦ dropEntry m kv name) s.indexKv
            indexTag := attrs.tags.foldl (fun m tag ↦ dropEntry m tag name) s.indexTag } := by
      simp [removeFile, hname]
    have hentry : ∀ f, (s.removeFile name).2.entry f
        = if f = name then FileAttrs.default else s.entry f := by
      intro f
      rw [hrm]
      exact entry_erase s name f _ _
    refine ⟨?_, ?_, ?_⟩
    · have hb : bucket (s.removeFile name).2.indexTag
          = dropAll name (bucket s.indexTag) attrs.tags := by
        rw [hrm]
        exact bucket_foldl_dropEntry _ _ _
      rw [hb]
      refine (h.tag.dropAll name attrs.tags).congr fun f t ↦ ?_
      rw [tagsOf, tagsOf, hentry]
      by_cases hf : f = name
      · simp [hf, hattrs, FileAttrs.default]
      · simp [hf]
    · have hb : bucket (s.removeFile name).2.indexKv
          = dropAll name (bucket s.indexKv) attrs.kv.toList := by
        rw [hrm]
        exact bucket_foldl_dropEntry _ _ _
      rw [hb]
      refine (h.kv.dropAll name attrs.kv.toList).congr fun f kv ↦ ?_
      rw [valueOf, valueOf, hentry, Std.TreeMap.mem_toList_iff_getElem?_eq_some]
      by_cases hf : f = name
      · simp [hf, hattrs, FileAttrs.default]
      · simp [hf]
    · intro f
      rw [tagsOf, hentry]
      split
      · exact List.nodup_nil
      · exact h.tags_nodup f

theorem coherent_apply {s : FileAttrStore} (h : s.Coherent) (op : FileAttrOp) :
    (s.apply op).Coherent := by
  cases op with
  | addTag name tag => exact coherent_addTag h name tag
  | setKv name key value => exact coherent_setKv h name key value
  | setOwner name owner => exact coherent_setKv h name "owner" owner
  | setDigest name digest => exact coherent_setDigest h name digest
  | removeTag name tag => exact coherent_removeTag h name tag
  | removeKv name key => exact coherent_removeKv h name key
  | removeFile name => exact coherent_removeFile h name

theorem coherent_foldl {s : FileAttrStore} (h : s.Coherent) (ops : List FileAttrOp) :
    (ops.foldl apply s).Coherent := by
  induction ops generalizing s with
  | nil => exact h
  | cons op ops ih => exact ih (coherent_apply h op)

theorem coherent_run (ops : List FileAttrOp) : (run ops).Coherent := coherent_foldl coherent_new ops

/-- **The indexes stay coherent.** After any sequence of operations on a new store, a file occurs
once in the bucket of each of its tags and of each of its `(key, value)` pairs, nowhere else, and
its tag list has no duplicate. -/
theorem index_coherent_run (ops : List FileAttrOp) :
    (∀ f t, (bucket (run ops).indexTag t).count f = if t ∈ (run ops).tagsOf f then 1 else 0) ∧
      (∀ f k v, (bucket (run ops).indexKv (k, v)).count f
        = if (run ops).valueOf f k = some v then 1 else 0) ∧
      ∀ f, ((run ops).tagsOf f).Nodup := by
  have h := coherent_run ops
  exact ⟨fun f t ↦ h.tag.count_eq f t, fun f k v ↦ h.kv.count_eq f (k, v), h.tags_nodup⟩

/-! ## The two query paths

Both paths compute a list of names in stages, and at each stage the list is the set of files whose
attributes pass the filters applied so far, without repetition. -/

/-- `l` lists, once each, the files whose attributes satisfy `p`. -/
structure Lists (s : FileAttrStore) (p : FileAttrs → Bool) (l : List String) : Prop where
  nodup : l.Nodup
  mem_iff : ∀ n, n ∈ l ↔ ∃ a, s.byName[n]? = some a ∧ p a = true

theorem lists_congr {s : FileAttrStore} {p q : FileAttrs → Bool} {l : List String}
    (h : Lists s p l) (hpq : ∀ a, q a = p a) : Lists s q l :=
  ⟨h.nodup, fun n ↦ by simp only [hpq, h.mem_iff]⟩

theorem lists_tag {s : FileAttrStore} (h : s.Coherent) (t : String) :
    Lists s (fun a ↦ a.tags.contains t) (bucket s.indexTag t) where
  nodup := h.tag.nodup t
  mem_iff n := by
    rw [h.tag.mem_iff, tagsOf, entry]
    cases s.byName[n]? <;> simp [FileAttrs.default]

theorem lists_owner {s : FileAttrStore} (h : s.Coherent) (o : String) :
    Lists s (fun a ↦ a.kv["owner"]? == some o) (bucket s.indexKv ("owner", o)) where
  nodup := h.kv.nodup _
  mem_iff n := by
    rw [h.kv.mem_iff, valueOf, entry]
    cases s.byName[n]? <;> simp [FileAttrs.default]

theorem lists_intersect {s : FileAttrStore} {p q : FileAttrs → Bool} {l l' : List String}
    (hp : Lists s p l) (hq : Lists s q l') :
    Lists s (fun a ↦ p a && q a) (intersect (some l) l') where
  nodup := hp.nodup.filter _
  mem_iff n := by
    rw [intersect, List.mem_filter, List.contains_iff_mem, hp.mem_iff, hq.mem_iff]
    cases s.byName[n]? <;> simp

theorem lists_keyword {s : FileAttrStore} {p : FileAttrs → Bool} {l : List String}
    (hp : Lists s p l) (k : String) :
    Lists s (fun a ↦ p a && memmem a.digest (asBytes k))
      (l.filter fun (n : String) ↦ match s.byName[n]? with
        | some a => memmem a.digest (asBytes k)
        | none => false) where
  nodup := hp.nodup.filter _
  mem_iff n := by
    rw [List.mem_filter, hp.mem_iff]
    cases s.byName[n]? <;> simp

theorem nodup_keys (s : FileAttrStore) : s.byName.keys.Nodup := by
  refine List.Pairwise.imp ?_ s.byName.distinct_keys
  intro a b hab heq
  exact hab (Std.LawfulEqCmp.compare_eq_iff_eq.mpr heq)

theorem lists_keys (s : FileAttrStore) : Lists s (fun _ ↦ true) s.byName.keys where
  nodup := s.nodup_keys
  mem_iff n := by
    rw [Std.TreeMap.mem_keys, Std.TreeMap.mem_iff_isSome_getElem?]
    cases s.byName[n]? <;> simp

theorem lists_queryFullScan (s : FileAttrStore) (tag owner keyword : Option String) :
    Lists s (fun a ↦ passes a tag owner keyword) (s.queryFullScan tag owner keyword) where
  nodup := by
    have hsub : List.Sublist (s.queryFullScan tag owner keyword) s.byName.keys := by
      rw [queryFullScan, ← Std.TreeMap.map_fst_toList_eq_keys]
      exact List.filter_sublist.map _
    exact s.nodup_keys.sublist hsub
  mem_iff n := by
    simp only [queryFullScan, List.mem_map, List.mem_filter, Prod.exists, exists_and_right,
      exists_eq_right, Std.TreeMap.mem_toList_iff_getElem?_eq_some]

/-- With at least one filter the indexed query lists the files that pass all of them. -/
theorem lists_queryIndexed {s : FileAttrStore} (h : s.Coherent) {tag owner keyword : Option String}
    (hfilter : tag.isSome ∨ owner.isSome ∨ keyword.isSome) :
    Lists s (fun a ↦ passes a tag owner keyword) (s.queryIndexed tag owner keyword) := by
  cases tag with
  | some t =>
    cases owner with
    | some o =>
      have hto := lists_intersect (lists_tag h t) (lists_owner h o)
      cases keyword with
      | some k => exact lists_keyword hto k
      | none => exact lists_congr hto fun a ↦ by simp [passes]
    | none =>
      cases keyword with
      | some k => exact lists_congr (lists_keyword (lists_tag h t) k) fun a ↦ by simp [passes]
      | none => exact lists_congr (lists_tag h t) fun a ↦ by simp [passes]
  | none =>
    cases owner with
    | some o =>
      cases keyword with
      | some k => exact lists_congr (lists_keyword (lists_owner h o) k) fun a ↦ by simp [passes]
      | none => exact lists_congr (lists_owner h o) fun a ↦ by simp [passes]
    | none =>
      cases keyword with
      | some k => exact lists_congr (lists_keyword s.lists_keys k) fun a ↦ by simp [passes]
      | none => simp at hfilter

/-- Without a filter the indexed query has no candidates to start from, and answers nothing. -/
theorem queryIndexed_none (s : FileAttrStore) : s.queryIndexed none none none = [] := rfl

theorem queryFullScan_none (s : FileAttrStore) : s.queryFullScan none none none = s.byName.keys := by
  rw [queryFullScan, ← Std.TreeMap.map_fst_toList_eq_keys, List.filter_eq_self.mpr]
  intro p _
  rfl

end FileAttrStore

end AgentOS
