import AgentOS.Agent.PathRun

/-!
# What an eviction keeps

The nodes of a path are in the order of their times when the clock does not run backwards. Then the
least recently written node is the first one, and both policies evict from the front. A push keeps the
longest suffix of the nodes behind which the new node fits, and moves it to the front of the buffer.
-/

namespace AgentOS

namespace ContextPath

open PathEntry

/-! ## Times in order -/

/-- The entries were made in the order of their times, and the clock goes on from there. -/
structure Timed (m : Machine) (es : List PathEntry) : Prop where
  clock : Monotone m.clock
  ordered : Ordered es
  past : ∀ e ∈ es, e.ts ≤ m.clock 0

theorem Timed.grows {m m' : Machine} {ext ext' : AgentExt} {es es' : List PathEntry}
    (h : Timed m es) (hgrow : Grows m m' ext ext' es es') : Timed m' es' := by
  cases hgrow with
  | forget hsub hclock hseq =>
    refine ⟨hclock ▸ h.clock, h.ordered.sublist hsub, fun e he ↦ ?_⟩
    rw [hclock]
    exact h.past e (hsub.subset he)
  | @append kept req resp hsub hclock hseq =>
    have hnext : ∀ n, m'.clock n = m.clock (n + 1) := fun n ↦ congrFun hclock n
    refine ⟨fun i j hij ↦ ?_, ?_, fun e he ↦ ?_⟩
    · rw [hnext, hnext]
      exact h.clock (Nat.succ_le_succ hij)
    · -- the new entry has a later time than those it is put behind
      refine List.pairwise_append.mpr ⟨h.ordered.sublist hsub, List.pairwise_singleton _ _,
        fun e he e' he' ↦ ?_⟩
      rw [List.mem_singleton.mp he']
      exact h.past e (hsub.subset he)
    · rw [hnext]
      rcases List.mem_append.mp he with he | he
      · exact (h.past e (hsub.subset he)).trans (h.clock (Nat.zero_le 1))
      · rw [List.mem_singleton.mp he]
        exact h.clock (Nat.zero_le 1)

/-! ## Nodes that are kept -/

/-- The bytes that nodes take. -/
def lenTotal (ns : List PathNodeMeta) : ℕ := (ns.map PathNodeMeta.len).sum

/-- A new node of some size fits behind the nodes. -/
def Fits (quota : PathQuota) (size : ℕ) (ns : List PathNodeMeta) : Prop :=
  lenTotal ns + size ≤ quota.maxBytes ∧ ns.length + 1 ≤ quota.maxNodes

/-- Without its first `j` nodes, the path is the longest suffix behind which a new node fits. -/
structure LongestFit (quota : PathQuota) (size : ℕ) (ns : List PathNodeMeta) (j : ℕ) : Prop where
  le : j ≤ ns.length
  fits : Fits quota size (ns.drop j)
  longest : ∀ i < j, ¬Fits quota size (ns.drop i)

/-- The node after the bytes before it were moved `d` bytes to the left. -/
def movedLeft (d : ℕ) (n : PathNodeMeta) : PathNodeMeta :=
  { n with offsetInBuffer := n.offsetInBuffer - d }

theorem lenTotal_positions (off : ℕ) (es : List PathEntry) :
    lenTotal ((Packed.positions size off es).map toMeta) = Packed.total size es := by
  induction es generalizing off with
  | nil => rfl
  | cons e es ih =>
    have hrest := ih (off + e.size)
    rw [Packed.positions, List.map_cons, Packed.total_cons, ← hrest]
    rfl

section Nodes

variable {pt : PageTable} {m : Machine} {ext : AgentExt} {es : List PathEntry} {j : ℕ}

theorem drop_pathMeta (h : Represents pt m ext es) (hj : j ≤ es.length) :
    ext.pathMeta.drop j =
      (Packed.positions size (Packed.total size (es.take j)) (es.drop j)).map toMeta := by
  rw [h.meta_eq, ← List.map_drop, Packed.positions_drop 0 hj, Nat.zero_add]

theorem lenTotal_drop (h : Represents pt m ext es) (hj : j ≤ es.length) :
    lenTotal (ext.pathMeta.drop j) = Packed.total size (es.drop j) := by
  rw [drop_pathMeta h hj, lenTotal_positions]

theorem lenTotal_take (h : Represents pt m ext es) :
    lenTotal (ext.pathMeta.take j) = Packed.total size (es.take j) := by
  rw [h.meta_eq, ← List.map_take, ← Packed.positions_take, lenTotal_positions]

/-- The kept nodes are those of the kept entries, moved to the front. -/
theorem map_movedLeft_drop (h : Represents pt m ext es) (hj : j ≤ es.length) :
    (ext.pathMeta.drop j).map (movedLeft (Packed.total size (es.take j))) =
      (Packed.positions size 0 (es.drop j)).map toMeta := by
  rw [drop_pathMeta h hj, ← Packed.positions_shift 0 (Packed.total size (es.take j)), Nat.zero_add,
    List.map_map, List.map_map]
  rfl

theorem fits_drop_iff (h : Represents pt m ext es) (quota : PathQuota) (n : ℕ)
    (hj : j ≤ es.length) : Fits quota n (ext.pathMeta.drop j) ↔ Room quota n (es.drop j) := by
  have hlen : (ext.pathMeta.drop j).length = (es.drop j).length := by
    rw [List.length_drop, List.length_drop, h.length_eq]
  rw [Fits, Room, lenTotal_drop h hj, hlen]
  exact Iff.rfl

theorem LongestRoom.longestFit {quota : PathQuota} {n : ℕ} (hlongest : LongestRoom quota n es j)
    (h : Represents pt m ext es) : LongestFit quota n ext.pathMeta j where
  le := h.length_eq ▸ hlongest.le
  fits := (fits_drop_iff h quota n hlongest.le).mpr hlongest.room
  longest i hi := mt (fits_drop_iff h quota n (hi.le.trans hlongest.le)).mp (hlongest.longest i hi)

end Nodes

/-! ## The push -/

section Push

variable [KernelLayout] {pt : PageTable}

/-- A push to a path whose times are in order keeps the longest suffix of the nodes behind which the new
node fits: it moves them to the front, where they are read as before, and puts the new node behind
them. -/
theorem pushNode_keeps (hb : Backed pt contextAreaBase contextAreaDefaultSize)
    (hmapped : AreaMapped pt contextAreaBase contextAreaDefaultSize) {m : Machine} {ext : AgentExt}
    {es : List PathEntry} (h : Represents pt m ext es) (hordered : Ordered es)
    {req resp : List UInt8} (hreq : req.length ≤ 4096) (hresp : resp.length ≤ 4096)
    (hfits : nodeTotalSize req.length resp.length ≤ ext.pathQuota.maxBytes)
    (hnodes : 1 ≤ ext.pathQuota.maxNodes) :
    ∃ j ext' m', LongestFit ext.pathQuota (nodeTotalSize req.length resp.length) ext.pathMeta j ∧
      (pushNode ext pt req resp).Returns m (.ok (ext.pathMeta.length - j), ext') m' ∧
      ext'.pathMeta = (ext.pathMeta.drop j).map (movedLeft (lenTotal (ext.pathMeta.take j))) ++
        [⟨lenTotal (ext.pathMeta.drop j), nodeTotalSize req.length resp.length, m.clock 0,
          ext.nextSeq⟩] ∧
      (∀ n ∈ ext.pathMeta.drop j,
        readPathNodeZeroCopy m' pt (movedLeft (lenTotal (ext.pathMeta.take j)) n) =
          readPathNodeZeroCopy m pt n) ∧
      ∀ n ∈ ext'.pathMeta.getLast?, readPathNodeZeroCopy m' pt n = some (req, resp) := by
  obtain ⟨ext', m', es', hpush, -, hrep, -, -, -, hlongest⟩ :=
    pushNode_spec hb h hreq hresp hfits hnodes
  obtain ⟨j, hj, rfl⟩ := hlongest hordered
  have hlen : (es.drop j).length = ext.pathMeta.length - j := by
    rw [List.length_drop, h.length_eq]
  have hmeta : ext'.pathMeta = (Packed.positions size 0 (es.drop j)).map toMeta ++
      [toMeta (Packed.total size (es.drop j), ⟨ext.nextSeq, m.clock 0, req, resp⟩)] := by
    rw [hrep.meta_eq, Packed.positions_append, List.map_append, Nat.zero_add]
    rfl
  rw [hlen] at hpush
  refine ⟨j, ext', m', hj.longestFit h, hpush, ?_, fun n hn ↦ ?_, fun n hn ↦ ?_⟩
  · rw [hmeta, lenTotal_take h, map_movedLeft_drop h hj.le, lenTotal_drop h hj.le]
    rfl
  · -- both are the node of one entry
    rw [lenTotal_take h]
    rw [drop_pathMeta h hj.le] at hn
    obtain ⟨p, hp, rfl⟩ := List.mem_map.mp hn
    have hbefore : p ∈ Packed.positions size 0 es := by
      have hdrop : (Packed.positions size 0 es).drop j = _ := Packed.positions_drop 0 hj.le
      rw [Nat.zero_add] at hdrop
      exact List.mem_of_mem_drop (hdrop ▸ hp)
    have hafter : (p.1 - Packed.total size (es.take j), p.2) ∈
        Packed.positions size 0 (es.drop j ++ [⟨ext.nextSeq, m.clock 0, req, resp⟩]) := by
      rw [Packed.positions_append]
      refine List.mem_append_left _ ?_
      rw [← Packed.positions_shift 0 (Packed.total size (es.take j)), Nat.zero_add]
      exact List.mem_map_of_mem hp
    exact (readPathNodeZeroCopy_eq hmapped hrep hafter).1.trans
      (readPathNodeZeroCopy_eq hmapped h hbefore).1.symm
  · rw [hmeta, List.getLast?_concat] at hn
    obtain rfl := Option.mem_some.mp hn
    have hlast : (Packed.total size (es.drop j), PathEntry.mk ext.nextSeq (m.clock 0) req resp) ∈
        Packed.positions size 0 (es.drop j ++ [⟨ext.nextSeq, m.clock 0, req, resp⟩]) := by
      rw [Packed.positions_append, Nat.zero_add]
      exact List.mem_append_right _ List.mem_cons_self
    exact (readPathNodeZeroCopy_eq hmapped hrep hlast).1

/-- **Eviction keeps as much as it can**, in every path that pushes, rollbacks and clears lead to, under
both policies. A node that is too large by itself is refused, and nothing changes; any other is
appended to the longest suffix of the nodes behind which it fits. -/
theorem eviction_keeps_most (hb : Backed pt contextAreaBase contextAreaDefaultSize)
    (hmapped : AreaMapped pt contextAreaBase contextAreaDefaultSize) (agentType : AgentType)
    {maxNodes maxBytes : ℕ} (hnodes : 1 ≤ maxNodes) (hbytes : maxBytes ≤ Layout.pathBufferLen)
    (policy : EvictPolicy) {ops : List PathOp} (hops : ∀ op ∈ ops, op.Admitted) {m : Machine}
    (hclock : Monotone m.clock) :
    ∃ s m', (execAll pt ops (freshPath agentType maxNodes maxBytes policy)).Returns m s m' ∧
      ∀ req resp : List UInt8, req.length ≤ 4096 → resp.length ≤ 4096 →
        (maxBytes < nodeTotalSize req.length resp.length →
          (pushNode s.ext pt req resp).Returns m' (.error .quotaExceeded, s.ext) m') ∧
        (nodeTotalSize req.length resp.length ≤ maxBytes → ∃ j ext' m'',
          LongestFit ⟨maxNodes, maxBytes, policy⟩ (nodeTotalSize req.length resp.length)
            s.ext.pathMeta j ∧
          (pushNode s.ext pt req resp).Returns m' (.ok (s.ext.pathMeta.length - j), ext') m'' ∧
          ext'.pathMeta =
            (s.ext.pathMeta.drop j).map (movedLeft (lenTotal (s.ext.pathMeta.take j))) ++
              [⟨lenTotal (s.ext.pathMeta.drop j), nodeTotalSize req.length resp.length,
                m'.clock 0, s.ext.nextSeq⟩] ∧
          (∀ n ∈ s.ext.pathMeta.drop j,
            readPathNodeZeroCopy m'' pt (movedLeft (lenTotal (s.ext.pathMeta.take j)) n) =
              readPathNodeZeroCopy m' pt n) ∧
          ∀ n ∈ ext'.pathMeta.getLast?, readPathNodeZeroCopy m'' pt n = some (req, resp)) := by
  have htimed : Timed m [] := ⟨hclock, List.Pairwise.nil, by simp⟩
  obtain ⟨s, m', es, h, hinv, htimed'⟩ := execAll_spec (I := fun m _ es ↦ Timed m es) hb hnodes
    (fun h hgrow ↦ h.grows hgrow) hops (runInv_freshPath pt agentType hbytes policy m) htimed
  have hquota := hinv.quota_eq
  refine ⟨s, m', h, fun req resp hreq hresp ↦ ⟨fun hbig ↦ ?_, fun hfits ↦ ?_⟩⟩
  · exact pushNode_refused hreq hresp (by rwa [hquota])
  · have hkeeps := pushNode_keeps hb hmapped hinv.represents htimed'.ordered hreq hresp
      (by rwa [hquota]) (by rwa [hquota])
    rwa [hquota] at hkeeps

end Push

section Sample

attribute [local instance] sampleLayout

/-- A quota of two nodes: a push behind three others keeps the last one. -/
theorem eviction_keeps_most_two : ∃ s m',
    (execAll samplePageTable [.push [1, 2] [3], .push [4] [], .push [] [5, 6, 7]]
      (freshPath .normal 2 16384 .lru)).Returns sampleMachine s m' ∧
    ∃ j ext' m'', LongestFit ⟨2, 16384, .lru⟩ 26 s.ext.pathMeta j ∧
      (pushNode s.ext samplePageTable [8] [9]).Returns m' (.ok (s.ext.pathMeta.length - j), ext')
        m'' := by
  obtain ⟨s, m', h, hpush⟩ := @eviction_keeps_most _ samplePageTable samplePageTable_mapped.1
    samplePageTable_mapped.2 .normal 2 16384 (by decide) (by decide) .lru
    [.push [1, 2] [3], .push [4] [], .push [] [5, 6, 7]] (by simp [PathOp.Admitted])
    sampleMachine fun _ _ hle ↦ hle
  obtain ⟨j, ext', m'', hj, hreturns, -⟩ := (hpush [8] [9] (by decide) (by decide)).2 (by decide)
  exact ⟨s, m', h, j, ext', m'', hj, hreturns⟩

end Sample

end ContextPath

end AgentOS
