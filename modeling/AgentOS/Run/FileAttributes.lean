import AgentOS.Run.Agents

/-!
# Setting and deleting a tag

`sys_file_attr_set` adds a tag to a file, and `sys_file_attr_del` with the same arguments takes it away
again, unless the tag is empty: then it deletes the whole file. An entry that a file got for the tag
stays when the tag is gone, so a file that had none is listed afterwards by the queries that a file
without attributes passes.
-/

namespace AgentOS

open InvertedIndex

namespace FileAttrStore

/-! ## Stores that answer alike -/

section Answers

variable {s s' : FileAttrStore} {tag owner keyword : Option String}

/-- Two stores give the same answers to a query. -/
structure SameAnswers (s s' : FileAttrStore) (tag owner keyword : Option String) : Prop where
  indexed : s'.queryIndexed tag owner keyword = s.queryIndexed tag owner keyword
  scan : s'.queryFullScan tag owner keyword = s.queryFullScan tag owner keyword

/-- A full scan lists the names in order. -/
theorem sorted_queryFullScan (s : FileAttrStore) (tag owner keyword : Option String) :
    (s.queryFullScan tag owner keyword).Pairwise fun a b ↦ compare a b = .lt :=
  List.pairwise_map.mpr (s.byName.ordered_keys_toList.filter _)

/-- What a full scan lists depends on the files that pass. -/
theorem queryFullScan_congr (h : ∀ n : String, (∃ a, s'.byName[n]? = some a ∧ passes a tag owner keyword) ↔
    ∃ a, s.byName[n]? = some a ∧ passes a tag owner keyword) :
    s'.queryFullScan tag owner keyword = s.queryFullScan tag owner keyword := by
  have hs := lists_queryFullScan s tag owner keyword
  have hs' := lists_queryFullScan s' tag owner keyword
  have hperm : (s'.queryFullScan tag owner keyword).Perm (s.queryFullScan tag owner keyword) :=
    (List.perm_ext_iff_of_nodup hs'.nodup hs.nodup).mpr fun n ↦
      (hs'.mem_iff n).trans ((h n).trans (hs.mem_iff n).symm)
  exact List.Perm.eq_of_pairwise
    (fun a b _ _ (hab : compare a b = .lt) (hba : compare b a = .lt) ↦
      absurd hba (Std.OrientedCmp.not_lt_of_lt hab))
    (sorted_queryFullScan ..) (sorted_queryFullScan ..) hperm

/-- With only a keyword to go by, the indexed query scans the names as well. -/
theorem queryIndexed_keyword (s : FileAttrStore) (k : String) :
    s.queryIndexed none none (some k) = s.queryFullScan none none (some k) := by
  show s.byName.keys.filter _ = _
  rw [queryFullScan, ← Std.TreeMap.map_fst_toList_eq_keys, List.filter_map]
  congr 1
  refine List.filter_congr fun p hp ↦ ?_
  have hlookup := Std.TreeMap.mem_toList_iff_getElem?_eq_some.mp hp
  simp only [Function.comp_def, hlookup, passes, Bool.true_and]

/-- The indexes of two stores say the same, and the files they name have the same attributes. -/
structure Alike (s s' : FileAttrStore) : Prop where
  tag : bucket s'.indexTag = bucket s.indexTag
  kv : bucket s'.indexKv = bucket s.indexKv
  ofTag : ∀ (n : String) t, n ∈ bucket s.indexTag t → s'.byName[n]? = s.byName[n]?
  ofKv : ∀ (n : String) kv, n ∈ bucket s.indexKv kv → s'.byName[n]? = s.byName[n]?

theorem mem_intersect {n : String} {a : Option (List String)} {b : List String}
    (h : n ∈ intersect a b) : n ∈ b := by
  cases a with
  | none => exact h
  | some prev => simpa using (List.mem_filter.mp h).2

/-- Such stores answer alike when they scan alike. -/
theorem Alike.sameAnswers (h : Alike s s')
    (hscan : s'.queryFullScan tag owner keyword = s.queryFullScan tag owner keyword) :
    SameAnswers s s' tag owner keyword := by
  refine ⟨?_, hscan⟩
  rcases tag with _ | t <;> rcases owner with _ | o <;> rcases keyword with _ | k
  · rfl
  · rw [queryIndexed_keyword, queryIndexed_keyword, hscan]
  · simp only [queryIndexed, h.kv]
  · simp only [queryIndexed, h.kv]
    exact congrArg (fun l ↦ (some l).getD []) (List.filter_congr fun n hn ↦ by rw [h.ofKv n _ (mem_intersect hn)])
  · simp only [queryIndexed, h.tag]
  · simp only [queryIndexed, h.tag]
    exact congrArg (fun l ↦ (some l).getD []) (List.filter_congr fun n hn ↦ by rw [h.ofTag n _ (mem_intersect hn)])
  · simp only [queryIndexed, h.tag, h.kv]
  · simp only [queryIndexed, h.tag, h.kv]
    exact congrArg (fun l ↦ (some l).getD []) (List.filter_congr fun n hn ↦ by rw [h.ofKv n _ (mem_intersect hn)])

end Answers

/-! ## Setting and deleting -/

section Pair

variable {s : FileAttrStore} {name tag : String}

theorem getElem?_addTag (f : String) : (s.addTag name tag).byName[f]? =
    if f = name then some { s.entry name with tags := pushNew tag (s.entry name).tags }
    else s.byName[f]? := getElem?_insert_eq ..

theorem bucket_addTag : bucket (s.addTag name tag).indexTag =
    Function.update (bucket s.indexTag) tag (pushNew name (bucket s.indexTag tag)) :=
  bucket_insert ..

/-- **Removing a tag that was just added** leaves the file with the attributes it had, and an entry. -/
theorem removeTag_addTag (h : s.Coherent) (hnew : tag ∉ s.tagsOf name) :
    ((s.addTag name tag).removeTag name tag).1 = true ∧
      (∀ f : String, ((s.addTag name tag).removeTag name tag).2.byName[f]? =
        if f = name then some (s.entry name) else s.byName[f]?) ∧
      bucket ((s.addTag name tag).removeTag name tag).2.indexTag = bucket s.indexTag ∧
      ((s.addTag name tag).removeTag name tag).2.indexKv = s.indexKv := by
  have hdrop : dropItem tag (pushNew tag (s.entry name).tags) = (s.entry name).tags :=
    dropItem_pushNew hnew
  refine ⟨?_, fun f ↦ ?_, ?_, rfl⟩
  · simp only [removeTag, getElem?_addTag, if_pos, hdrop]
    rw [pushNew, if_neg (show tag ∉ (s.entry name).tags from hnew)]
    simp
  · refine (getElem?_modify_eq ..).trans ?_
    rw [getElem?_addTag]
    split
    · rw [Option.map_some, hdrop]
    · rfl
  · refine (bucket_dropEntry ..).trans ?_
    have hname : name ∉ bucket s.indexTag tag := mt (h.tag.mem_iff name tag).mp hnew
    rw [bucket_addTag, Function.update_self, Function.update_idem, dropItem_pushNew hname,
      Function.update_eq_self]

theorem getElem?_removeFile (f : String) : (s.removeFile name).2.byName[f]? =
    if f = name then none else s.byName[f]? := by
  unfold removeFile
  split
  · rename_i hnone
    split
    · rename_i hname
      rw [hname, hnone]
    · rfl
  · exact getElem?_erase_eq ..

theorem bucket_removeFile :
    bucket (s.removeFile name).2.indexTag = dropAll name (bucket s.indexTag) (s.tagsOf name) := by
  unfold removeFile tagsOf entry
  split
  · rename_i hnone
    rw [hnone]
    rfl
  · rename_i attrs hattrs
    rw [hattrs]
    exact bucket_foldl_dropEntry ..

/-- **Deleting a file that was just given a tag** is deleting the file. -/
theorem removeFile_addTag (h : s.Coherent) (hnew : tag ∉ s.tagsOf name) :
    ((s.addTag name tag).removeFile name).1 = true ∧
      Alike (s.removeFile name).2 ((s.addTag name tag).removeFile name).2 ∧
      ∀ f : String, ((s.addTag name tag).removeFile name).2.byName[f]? =
        (s.removeFile name).2.byName[f]? := by
  have hname : name ∉ bucket s.indexTag tag := mt (h.tag.mem_iff name tag).mp hnew
  have hentry : ∀ f : String, ((s.addTag name tag).removeFile name).2.byName[f]? =
      (s.removeFile name).2.byName[f]? := fun f ↦ by
    rw [getElem?_removeFile, getElem?_removeFile, getElem?_addTag]
    split <;> rfl
  refine ⟨?_, ⟨?_, ?_, fun n _ _ ↦ hentry n, fun n _ _ ↦ hentry n⟩, hentry⟩
  · rw [removeFile, getElem?_addTag, if_pos rfl]
  · have htags : (s.addTag name tag).tagsOf name = pushNew tag (s.tagsOf name) := by
      rw [tagsOf, entry, getElem?_addTag, if_pos rfl]
      rfl
    funext j
    rw [bucket_removeFile, bucket_removeFile, dropAll_apply, dropAll_apply, htags, bucket_addTag]
    -- only the bucket of the new tag saw the file come
    rcases eq_or_ne j tag with rfl | hne
    · rw [if_pos (mem_pushNew.mpr (Or.inr rfl)), if_neg hnew, Function.update_self,
        dropItem_pushNew hname]
    · have hmem : j ∈ pushNew tag (s.tagsOf name) ↔ j ∈ s.tagsOf name := by
        rw [mem_pushNew, or_iff_left hne]
      rw [Function.update_of_ne hne]
      simp only [hmem]
  · unfold removeFile
    rw [getElem?_addTag, if_pos rfl]
    rcases hattrs : s.byName[name]? with _ | attrs
    · have hdefault : s.entry name = FileAttrs.default := by
        rw [entry, hattrs]
        rfl
      simp only [hdefault]
      rfl
    · have hdefault : s.entry name = attrs := by
        rw [entry, hattrs]
        rfl
      simp only [hdefault]
      rfl

/-- A file that an index names has an entry. -/
theorem Coherent.some_entry (h : s.Coherent) {n : String} (hn : (∃ t, n ∈ bucket s.indexTag t) ∨
    ∃ kv, n ∈ bucket s.indexKv kv) : s.byName[n]? = some (s.entry n) := by
  rcases hentry : s.byName[n]? with _ | a
  · have hdefault : s.entry n = FileAttrs.default := by
      rw [entry, hentry]
      rfl
    rcases hn with ⟨t, ht⟩ | ⟨kv, hkv⟩
    · have hmem : t ∈ s.tagsOf n := (h.tag.mem_iff n t).mp ht
      rw [tagsOf, hdefault] at hmem
      exact absurd hmem List.not_mem_nil
    · have hvalue : s.valueOf n kv.1 = some kv.2 := (h.kv.mem_iff n kv).mp hkv
      rw [valueOf, hdefault] at hvalue
      exact absurd hvalue (by simp [FileAttrs.default])
  · rw [entry, hentry, Option.getD_some]

/-- The answers after a tag was added and removed, where it does not matter that the file has an entry
now. -/
theorem sameAnswers_removeTag (h : s.Coherent) (hnew : tag ∉ s.tagsOf name)
    {tags owner keyword : Option String}
    (hlisted : s.get name ≠ none ∨ passes FileAttrs.default tags owner keyword = false) :
    SameAnswers s ((s.addTag name tag).removeTag name tag).2 tags owner keyword := by
  obtain ⟨-, hentry, htag, hkv⟩ := removeTag_addTag h hnew
  have hsame : ∀ n : String, s.byName[n]? = some (s.entry n) →
      ((s.addTag name tag).removeTag name tag).2.byName[n]? = s.byName[n]? := by
    intro n hn
    rw [hentry]
    split
    · rename_i hname
      rw [← hname, hn]
    · rfl
  refine Alike.sameAnswers ⟨htag, congrArg bucket hkv, fun n t hn ↦ ?_, fun n kv hn ↦ ?_⟩ ?_
  · exact hsame n (h.some_entry (Or.inl ⟨t, hn⟩))
  · exact hsame n (h.some_entry (Or.inr ⟨kv, hn⟩))
  · refine queryFullScan_congr fun n ↦ ?_
    rcases hn : s.byName[n]? with _ | a
    · rw [hentry, hn]
      split
      · rename_i hname
        have hfails : passes (s.entry name) tags owner keyword = false := by
          rw [entry, ← hname, hn]
          exact hlisted.resolve_left fun hsome ↦ hsome (hname ▸ hn)
        simp [hfails]
      · simp
    · rw [hsame n (by rw [entry, hn]; rfl), hn]

end Pair

end FileAttrStore

namespace Kernel

/-! ## The store of the kernel -/

section Store

variable {k k' : Kernel}

theorem fileAttrStore_wakeAgentByPid (k : Kernel) (pid : ℕ) :
    (k.wakeAgentByPid pid).fileAttrStore = k.fileAttrStore := by
  rcases wakeAgentByPid_cases k pid with ⟨-, heq⟩ | ⟨e, rest, -, -, heq⟩
  · rw [heq]
  · rw [heq]
    rfl

theorem fileAttrStore_notify (mark : AgentExt → Option AgentExt) (ts : List ℕ) (k : Kernel) :
    (k.notify mark ts).fileAttrStore = k.fileAttrStore := by
  have wake : ∀ (pids : List ℕ) (k : Kernel),
      (pids.foldl wakeAgentByPid k).fileAttrStore = k.fileAttrStore := by
    intro pids
    induction pids with
    | nil => exact fun _ ↦ rfl
    | cons pid pids ih => exact fun k ↦ (ih _).trans (fileAttrStore_wakeAgentByPid k pid)
  have marks : ∀ (ts : List ℕ) (acc : Kernel × List ℕ),
      (markAgents mark ts acc).1.fileAttrStore = acc.1.fileAttrStore := by
    intro ts
    induction ts with
    | nil => exact fun _ ↦ rfl
    | cons t ts ih =>
      intro acc
      rw [markAgents_cons, ih]
      rcases markOne_cases mark t acc with ⟨-, heq⟩ | ⟨ext, ext', -, -, heq⟩
      · rw [heq]
      · rw [heq]
        rfl
  rw [notify_eq, wake, marks]

theorem fileAttrStore_tickWakeTimeouts (k : Kernel) (now : ℕ) :
    (k.tickWakeTimeouts now).fileAttrStore = k.fileAttrStore := by
  have wake : ∀ (ts : List ℕ) (k : Kernel),
      (ts.foldl wakeOne k).fileAttrStore = k.fileAttrStore := by
    intro ts
    induction ts with
    | nil => exact fun _ ↦ rfl
    | cons t ts ih => exact fun k ↦ ih (k.wakeOne t)
  exact wake _ _

/-- A step applies operations to the store, and changes it in no other way. -/
theorem Quiet.store_ops {event : Event} (hq : Quiet event k k') :
    ∃ ops : List FileAttrOp, k'.fileAttrStore = ops.foldl FileAttrStore.apply k.fileAttrStore := by
  cases hq with
  | @store _ _ op => exact ⟨[op], rfl⟩
  | heartbeats => exact ⟨[], fileAttrStore_notify ..⟩
  | fileEvents => exact ⟨[], fileAttrStore_notify ..⟩
  | timeouts => exact ⟨[], fileAttrStore_tickWakeTimeouts ..⟩
  | deliver => exact ⟨[], fileAttrStore_wakeAgentByPid ..⟩
  | @run _ k₁ t hidle hfetch hlive =>
    obtain ⟨rest, -, rfl⟩ := fetchTask_eq_some hfetch
    exact ⟨[], rfl⟩
  | _ => exact ⟨[], rfl⟩

variable [KernelLayout]

theorem step_store_ops {event : Event} {r : Option ℤ} (h : (step event).Returns k r k') :
    ∃ ops : List FileAttrOp, k'.fileAttrStore = ops.foldl FileAttrStore.apply k.fileAttrStore := by
  rcases step_effect h with hquiets | hc
  · clear h
    induction hquiets with
    | refl => exact ⟨[], rfl⟩
    | tail _ hq ih =>
      obtain ⟨ops, hops⟩ := ih
      obtain ⟨ops', hops'⟩ := hq.store_ops
      exact ⟨ops ++ ops', by rw [hops', hops, List.foldl_append]⟩
  · cases hc with
    | exit hcur htcb =>
      refine ⟨[], ?_⟩
      show (k.buried _ _ _).fileAttrStore = _
      rw [buried_eq]
      rfl
    | _ => exact ⟨[], rfl⟩

/-- Every state of a run has a store that operations on the first one lead to. -/
theorem Trace.store_run {tr : List Transition} (h : Trace k tr k')
    (hk : ∃ ops, k.fileAttrStore = .run ops) : ∃ ops, k'.fileAttrStore = .run ops := by
  induction h with
  | nil => exact hk
  | snoc _ hstep ih =>
    obtain ⟨ops, hops⟩ := ih
    obtain ⟨ops', hops'⟩ := step_store_ops hstep
    exact ⟨ops ++ ops', by rw [hops', hops, FileAttrStore.run, FileAttrStore.run, List.foldl_append]⟩

theorem Starts.store_of_initial {elf : Elf} {k₀ : Kernel} (h : (addInitproc elf).Returns k₀ () k) :
    k.fileAttrStore = k₀.fileAttrStore := by
  obtain ⟨hload, hpid, hstack⟩ := boot_effect h
  rfl

end Store

/-! ## The two calls -/

section Calls

variable {k k' : Kernel} {namePtr nameLen tagPtr tagLen : ℕ} {name tag : String}

/-- The name and the tag that a call with these arguments finds in the memory of the caller. -/
structure TagArgs (k : Kernel) (namePtr nameLen tagPtr tagLen : ℕ) (name tag : String) : Prop where
  lengths : ¬(namePtr = 0 ∨ nameLen = 0 ∨ 256 < nameLen ∨ 256 < tagLen)
  read : ∃ t tcb nameBuf tagBuf m₁ m₂, k.current = some t ∧ k.tasks t = some tcb ∧
    (readUserBytes .userPtr tcb.memorySet.pageTable namePtr (List.replicate nameLen 0)).Returns
      k.machine nameBuf m₁ ∧
    (readOptional tcb.memorySet.pageTable tagPtr tagLen).Returns m₁ tagBuf m₂ ∧
    fromUtf8 nameBuf = some name ∧ fromUtf8 tagBuf = some tag

/-- The caller is the same, and finds the same bytes in its memory. -/
structure SameCaller (k k' : Kernel) : Prop where
  current : k'.current = k.current
  core : k'.coreOf = k.coreOf
  bytes : k'.machine.byteAt = k.machine.byteAt

theorem readUserBytes_of_byteAt {via : Via} {pt : PageTable} {va : ℕ} {buf got : List UInt8}
    {m m' m₁ : Machine} (hbytes : m'.byteAt = m.byteAt)
    (h : (readUserBytes via pt va buf).Returns m got m₁) :
    ∃ m₂, (readUserBytes via pt va buf).Returns m' got m₂ ∧ m₁.byteAt = m.byteAt ∧
      m₂.byteAt = m'.byteAt := by
  obtain ⟨cs, hcs, hreads, rfl, rfl⟩ := returns_readUserBytes.mp h
  exact ⟨_, returns_readUserBytes.mpr ⟨cs, hcs, hreads, by rw [hbytes], rfl⟩, rfl, rfl⟩

theorem readOptional_of_byteAt {pt : PageTable} {ptr len : ℕ} {got : List UInt8}
    {m m' m₁ : Machine} (hbytes : m'.byteAt = m.byteAt)
    (h : (readOptional pt ptr len).Returns m got m₁) :
    ∃ m₂, (readOptional pt ptr len).Returns m' got m₂ ∧ m₁.byteAt = m.byteAt ∧
      m₂.byteAt = m'.byteAt := by
  by_cases hread : 0 < len ∧ ptr ≠ 0
  · simp only [readOptional, if_pos hread] at h ⊢
    exact readUserBytes_of_byteAt hbytes h
  · simp only [readOptional, if_neg hread] at h ⊢
    obtain ⟨rfl, rfl⟩ := Exec.returns_pure.mp h
    exact ⟨m', Exec.returns_pure.mpr ⟨rfl, rfl⟩, rfl, rfl⟩

theorem TagArgs.congr (h : TagArgs k namePtr nameLen tagPtr tagLen name tag)
    (hsame : SameCaller k k') : TagArgs k' namePtr nameLen tagPtr tagLen name tag := by
  obtain ⟨t, tcb, nameBuf, tagBuf, m₁, m₂, hcur, htcb, hname, htag, hutf⟩ := h.read
  have hcore := congrFun hsame.core t
  rw [coreOf, coreOf, htcb] at hcore
  obtain ⟨tcb', htcb', heq⟩ := Option.map_eq_some_iff.mp hcore
  have hms : tcb'.memorySet = tcb.memorySet := congrArg TaskCore.memorySet heq
  obtain ⟨m₃, hname', hbytes₁, hbytes₃⟩ := readUserBytes_of_byteAt hsame.bytes hname
  obtain ⟨m₄, htag', -, -⟩ := readOptional_of_byteAt
    (hbytes₃.trans (hsame.bytes.trans hbytes₁.symm)) htag
  refine ⟨h.lengths, t, tcb', nameBuf, tagBuf, m₃, m₄, hsame.current.trans hcur, htcb', ?_, ?_,
    hutf⟩
  · rwa [hms]
  · rwa [hms]

/-- Telling the agents about a file changes neither the caller nor the store. -/
theorem broadcastFileEvent_returns (hk : Family k) : ∃ k', broadcastFileEvent.Returns k () k' ∧
    k'.fileAttrStore = k.fileAttrStore ∧ SameCaller k k' := by
  obtain ⟨ts, hts, -, -⟩ := hk.snapshot
  have hmarks := marks_markAgents (fun _ _ ↦ area_fileEvent) ts (k, [])
  have hwakes := wakes_foldl_wakeAgentByPid (markAgents AgentExt.fileEvent ts (k, [])).2
    (markAgents AgentExt.fileEvent ts (k, [])).1
  refine ⟨k.notify AgentExt.fileEvent ts, ?_, fileAttrStore_notify .., ?_⟩
  · exact (Exec.returns_get.mpr ⟨rfl, rfl⟩).bind
      ((Exec.returns_unwrap.mpr ⟨hts, rfl⟩).bind (Exec.returns_modify.mpr rfl))
  · rw [notify_eq]
    exact ⟨hwakes.current.trans hmarks.current, hwakes.frame.coreOf.trans hmarks.frame.coreOf,
      congrArg Machine.byteAt (hwakes.machine.trans hmarks.machine)⟩

/-- **Setting a tag.** -/
theorem sysFileAttrSet_spec (hk : Family k)
    (h : TagArgs k namePtr nameLen tagPtr tagLen name tag) :
    ∃ k', (sysFileAttrSet namePtr nameLen tagPtr tagLen).Returns k (some 0) k' ∧
      k'.fileAttrStore = k.fileAttrStore.addTag name tag ∧ SameCaller k k' := by
  obtain ⟨t, tcb, nameBuf, tagBuf, m₁, m₂, hcur, htcb, hname, htag, hutfName, hutfTag⟩ := h.read
  obtain ⟨-, -, hbytes₁, -⟩ := readUserBytes_of_byteAt rfl hname
  obtain ⟨-, -, hbytes₂, -⟩ := readOptional_of_byteAt rfl htag
  have hframes : k.machine.SameFrames m₂ :=
    IsTrans.trans _ _ _ (readUserBytes_keeps _ _ _ _ _ _ _ hname) (readOptional_keeps _ _ _ _ _ _ htag)
  have hfamily : Family { k with machine := m₂, fileAttrStore := k.fileAttrStore.addTag name tag } :=
    (hk.quiet (.machine hframes : Quiet .timer k _)).quiet
      (quiet_store .timer { k with machine := m₂ } (.addTag name tag))
  obtain ⟨k', hbroadcast, hstore, hsame⟩ := broadcastFileEvent_returns hfamily
  refine ⟨k', ?_, hstore, hsame.current, hsame.core,
    hsame.bytes.trans (hbytes₂.trans hbytes₁)⟩
  rw [sysFileAttrSet, if_neg h.lengths]
  refine (returns_currentTask.mpr ⟨hcur, htcb, rfl⟩).bind ?_
  refine (returns_onMachine.mpr ⟨m₁, hname, rfl⟩).bind ?_
  refine (returns_onMachine.mpr ⟨m₂, htag, rfl⟩).bind ?_
  rw [hutfName, hutfTag]
  exact (Exec.returns_modify (u := ()).mpr rfl).bind (hbroadcast.bind (Exec.returns_pure.mpr ⟨rfl, rfl⟩))

theorem finishDel_spec (hk : Family k) (res : Bool × FileAttrStore) (op : FileAttrOp)
    (hop : res.2 = k.fileAttrStore.apply op) :
    ∃ k', (finishDel res).Returns k (some (if res.1 then 1 else 0)) k' ∧
      k'.fileAttrStore = res.2 := by
  obtain ⟨removed, store⟩ := res
  dsimp only at hop
  subst hop
  cases removed with
  | false =>
    exact ⟨_, (Exec.returns_modify (u := ()).mpr rfl).bind (Exec.returns_pure.mpr ⟨rfl, rfl⟩), rfl⟩
  | true =>
    obtain ⟨k', hbroadcast, hstore, -⟩ :=
      broadcastFileEvent_returns (hk.quiet (quiet_store .timer k op))
    exact ⟨k', (Exec.returns_modify (u := ()).mpr rfl).bind
      (hbroadcast.bind (Exec.returns_pure.mpr ⟨rfl, rfl⟩)), hstore⟩

/-- What `sys_file_attr_del` does to the store, and whether there was anything to delete. -/
def deletion (s : FileAttrStore) (tagLen : ℕ) (name tag : String) : Bool × FileAttrStore :=
  if tagLen = 0 then s.removeFile name else s.removeTag name tag

/-- **Deleting a tag**, or with an empty tag the file. -/
theorem sysFileAttrDel_spec (hk : Family k)
    (h : TagArgs k namePtr nameLen tagPtr tagLen name tag) (hptr : tagPtr ≠ 0 ∨ tagLen = 0) :
    ∃ k', (sysFileAttrDel namePtr nameLen tagPtr tagLen).Returns k
        (some (if (deletion k.fileAttrStore tagLen name tag).1 then 1 else 0)) k' ∧
      k'.fileAttrStore = (deletion k.fileAttrStore tagLen name tag).2 := by
  obtain ⟨t, tcb, nameBuf, tagBuf, m₁, m₂, hcur, htcb, hname, htag, hutfName, hutfTag⟩ := h.read
  have hframes₁ := readUserBytes_keeps _ _ _ _ _ _ _ hname
  have hframes₂ := readOptional_keeps _ _ _ _ _ _ htag
  have hfamily₁ : Family { k with machine := m₁ } := hk.quiet (.machine hframes₁ : Quiet .timer k _)
  have hfamily₂ : Family { k with machine := m₂ } :=
    hk.quiet (.machine (IsTrans.trans _ _ _ hframes₁ hframes₂) : Quiet .timer k _)
  rw [sysFileAttrDel, if_neg h.lengths, deletion]
  split
  · obtain ⟨k', hdel, hstore⟩ := finishDel_spec hfamily₁
      (k.fileAttrStore.removeFile name) (.removeFile name) rfl
    refine ⟨k', ?_, hstore⟩
    refine (returns_currentTask.mpr ⟨hcur, htcb, rfl⟩).bind ?_
    refine (returns_onMachine.mpr ⟨m₁, hname, rfl⟩).bind ?_
    rw [hutfName]
    exact (Exec.returns_get.mpr ⟨rfl, rfl⟩).bind hdel
  · rename_i hlen
    obtain ⟨k', hdel, hstore⟩ := finishDel_spec hfamily₂
      (k.fileAttrStore.removeTag name tag) (.removeTag name tag) rfl
    refine ⟨k', ?_, hstore⟩
    refine (returns_currentTask.mpr ⟨hcur, htcb, rfl⟩).bind ?_
    refine (returns_onMachine.mpr ⟨m₁, hname, rfl⟩).bind ?_
    rw [readOptional, if_pos ⟨Nat.pos_of_ne_zero hlen, hptr.resolve_right hlen⟩] at htag
    rw [hutfName]
    refine (returns_onMachine.mpr ⟨m₂, htag, rfl⟩).bind ?_
    rw [hutfTag]
    exact (Exec.returns_get.mpr ⟨rfl, rfl⟩).bind hdel

/-- What the two calls leave of the store, in the words of a store: the attributes of every file and
the answers that do not list a file without attributes are as before. An empty tag deletes the file. -/
structure Undone (s s' : FileAttrStore) (tagLen : ℕ) (name : String) : Prop where
  entry : 0 < tagLen → ∀ f, s'.entry f = s.entry f
  answers : 0 < tagLen → ∀ tag owner keyword, s.get name ≠ none ∨
    FileAttrStore.passes FileAttrs.default tag owner keyword = false →
      FileAttrStore.SameAnswers s s' tag owner keyword
  deleted : tagLen = 0 → ∀ tag owner keyword,
    FileAttrStore.SameAnswers (s.removeFile name).2 s' tag owner keyword
  absent : tagLen = 0 → s.get name = none → ∀ tag owner keyword,
    FileAttrStore.SameAnswers s s' tag owner keyword

theorem undone_deletion (tagLen : ℕ) {s : FileAttrStore} (h : s.Coherent) (hnew : tag ∉ s.tagsOf name) :
    (deletion (s.addTag name tag) tagLen name tag).1 = true ∧
      Undone s (deletion (s.addTag name tag) tagLen name tag).2 tagLen name := by
  rw [deletion]
  split
  · rename_i hzero
    obtain ⟨hremoved, halike, hentry⟩ := FileAttrStore.removeFile_addTag h hnew
    have hanswers : ∀ tags owner keyword, FileAttrStore.SameAnswers (s.removeFile name).2
        ((s.addTag name tag).removeFile name).2 tags owner keyword := fun _ _ _ ↦
      halike.sameAnswers (FileAttrStore.queryFullScan_congr fun n ↦ by rw [hentry])
    refine ⟨hremoved, ⟨fun hpos ↦ absurd hpos (by omega), fun hpos ↦ absurd hpos (by omega),
      fun _ ↦ hanswers, fun _ hnone ↦ ?_⟩⟩
    have hsame : (s.removeFile name).2 = s := by
      change s.byName[name]? = none at hnone
      rw [FileAttrStore.removeFile, hnone]
    intro tags owner keyword
    have := hanswers tags owner keyword
    rwa [hsame] at this
  · rename_i hpos
    obtain ⟨hremoved, hentry, -, -⟩ := FileAttrStore.removeTag_addTag h hnew
    refine ⟨hremoved, ⟨fun _ f ↦ ?_, fun _ _ _ _ ↦ FileAttrStore.sameAnswers_removeTag h hnew,
      fun hzero ↦ absurd hzero hpos, fun hzero ↦ absurd hzero hpos⟩⟩
    rw [FileAttrStore.entry, hentry]
    split
    · rename_i hname
      rw [hname, Option.getD_some]
    · rfl

end Calls

section Runs

variable [KernelLayout] {k : Kernel} {namePtr nameLen tagPtr tagLen : ℕ} {name tag : String}

/-- **Setting and deleting a tag** that a file does not carry returns 0 and then 1, and takes the tag
away again: the file with it, if the tag is empty. -/
theorem set_del_pair (hk : Reachable k) (hstore : ∃ ops, k.fileAttrStore = .run ops)
    (hargs : TagArgs k namePtr nameLen tagPtr tagLen name tag) (hptr : tagPtr ≠ 0 ∨ tagLen = 0)
    (hnew : tag ∉ k.fileAttrStore.tagsOf name) :
    ∃ k₁ k₂, (sysFileAttrSet namePtr nameLen tagPtr tagLen).Returns k (some 0) k₁ ∧
      (sysFileAttrDel namePtr nameLen tagPtr tagLen).Returns k₁ (some 1) k₂ ∧
      Undone k.fileAttrStore k₂.fileAttrStore tagLen name := by
  have hcoherent : k.fileAttrStore.Coherent := by
    obtain ⟨ops, hops⟩ := hstore
    exact hops ▸ FileAttrStore.coherent_run ops
  obtain ⟨k₁, hset, hadd, hsame⟩ := sysFileAttrSet_spec hk.family hargs
  have hcur : k.current ≠ none := by
    obtain ⟨t, -, -, -, -, -, ht, -⟩ := hargs.read
    rw [ht]
    exact Option.some_ne_none t
  have hcall : (syscall (.fileAttrSet namePtr nameLen tagPtr tagLen)).Returns k (some 0) k₁ := hset
  have hk₁ : Reachable k₁ := hk.step trivial (returns_step_syscall.mpr ⟨hcur, hcall⟩)
  obtain ⟨k₂, hdel, hdeleted⟩ := sysFileAttrDel_spec hk₁.family (hargs.congr hsame) hptr
  obtain ⟨hremoved, hundone⟩ := undone_deletion tagLen hcoherent hnew
  rw [hadd, hremoved] at hdel
  rw [hadd] at hdeleted
  exact ⟨k₁, k₂, hset, hdel, hdeleted ▸ hundone⟩

end Runs

section Sample

attribute [local instance] sampleLayout

/-- A process that has a name in its memory. -/
private def namedEvents : List Event := [.schedule, .store 0x10000 97]

/-- The same process, whose file has a tag. -/
private def taggedEvents : List Event :=
  namedEvents ++ [.syscall (.fileAttrSet 0x10000 1 0x10000 1)]

private theorem store_sampleRun {events : List Event}
    (h : (sampleRun sampleElf events).1.isSome) :
    ∃ ops, (sampleRun sampleElf events).2.fileAttrStore = .run ops := by
  refine (trace_sampleRun h).store_run ⟨[], ?_⟩
  have hboot : (addInitproc sampleElf).Returns sampleKernel () (sampleStart sampleElf) :=
    Exec.returns_of_fst (by decide +kernel)
  exact Starts.store_of_initial hboot

/-- What a call finds that takes its name and its tag from the same byte. -/
private def readArgs (pt : PageTable) (tagLen : ℕ) :
    Exec Machine (Option String × Option String) := do
  let nameBuf ← readUserBytes .userPtr pt 0x10000 (List.replicate 1 0)
  let tagBuf ← readOptional pt 0x10000 tagLen
  pure (fromUtf8 nameBuf, fromUtf8 tagBuf)

private theorem tagArgs_readArgs {k : Kernel} {tagLen : ℕ} {name tag : String}
    (hcur : k.current = some 0) (hlen : tagLen ≤ 256)
    (hread : (k.tasks 0).map (fun tcb ↦ (readArgs tcb.memorySet.pageTable tagLen k.machine).1) =
      some (some (some name, some tag))) : TagArgs k 0x10000 1 0x10000 tagLen name tag := by
  obtain ⟨tcb, htcb, hread⟩ := Option.map_eq_some_iff.mp hread
  obtain ⟨nameBuf, m₁, hname, h₁⟩ := Exec.returns_bind.mp (Exec.returns_of_fst hread)
  obtain ⟨tagBuf, m₂, htag, hpure⟩ := Exec.returns_bind.mp h₁
  obtain ⟨hutfName, hutfTag⟩ := Prod.mk.inj (Exec.returns_pure.mp hpure).1
  exact ⟨by omega, 0, tcb, nameBuf, tagBuf, m₁, m₂, hcur, htcb, hname, htag, hutfName.symm,
    hutfTag.symm⟩

theorem set_del_pair_one :
    let k := (sampleRun sampleElf namedEvents).2
    ∃ k₁ k₂, (sysFileAttrSet 0x10000 1 0x10000 1).Returns k (some 0) k₁ ∧
      (sysFileAttrDel 0x10000 1 0x10000 1).Returns k₁ (some 1) k₂ ∧
      Undone k.fileAttrStore k₂.fileAttrStore 1 "a" :=
  set_del_pair (reach_sampleRun (by decide +kernel) (by decide +kernel) trivial fun _ _ _ ↦ trivial)
    (store_sampleRun (by decide +kernel))
    (show TagArgs _ 0x10000 1 0x10000 1 "a" "a" from
      tagArgs_readArgs (by decide +kernel) (by decide) (by decide +kernel))
    (Or.inl (by decide)) (by decide +kernel)

/-- Does deleting undo setting, for every tag that is accepted? -/
def SetDelInverse : Prop :=
  ∀ (k : Kernel) (namePtr nameLen tagPtr tagLen : ℕ) (name tag : String), Reachable k →
    (∃ ops, k.fileAttrStore = .run ops) → TagArgs k namePtr nameLen tagPtr tagLen name tag →
    tag ∉ k.fileAttrStore.tagsOf name →
    ∃ k₁ k₂, (sysFileAttrSet namePtr nameLen tagPtr tagLen).Returns k (some 0) k₁ ∧
      (sysFileAttrDel namePtr nameLen tagPtr tagLen).Returns k₁ (some 1) k₂ ∧
      ∀ tag owner keyword,
        FileAttrStore.SameAnswers k.fileAttrStore k₂.fileAttrStore tag owner keyword

/-- Deleting the empty tag of a file that has another tag as well deletes the file. -/
theorem not_setDelInverse : ¬SetDelInverse := by
  intro h
  let k := (sampleRun sampleElf taggedEvents).2
  have hk : Reachable k := reach_sampleRun (by decide +kernel) (by decide +kernel) trivial
    fun _ _ _ ↦ trivial
  have hstore : ∃ ops, k.fileAttrStore = .run ops := store_sampleRun (by decide +kernel)
  have hargs : TagArgs k 0x10000 1 0x10000 0 "a" "" :=
    tagArgs_readArgs (by decide +kernel) (by decide) (by decide +kernel)
  have hnew : "" ∉ k.fileAttrStore.tagsOf "a" := by decide +kernel
  have hbefore : k.fileAttrStore.queryFullScan none none none = ["a"] := by decide +kernel
  have hafter : (sysFileAttrDel 0x10000 1 0x10000 0
      (sysFileAttrSet 0x10000 1 0x10000 0 k).2).2.fileAttrStore.queryFullScan none none none = [] :=
    by decide +kernel
  clear_value k
  obtain ⟨k₁, k₂, hset, hdel, hsame⟩ := h k _ _ _ _ _ _ hk hstore hargs hnew
  rw [hset.eq, hdel.eq] at hafter
  have hscan := (hsame none none none).scan
  rw [hafter, hbefore] at hscan
  exact absurd hscan (by simp)

end Sample

end Kernel

end AgentOS
