import AgentOS.Agent.PathEntries

/-!
# Runs of a context path

What holds of a path after any sequence of pushes, rollbacks and clears: its nodes lie back to back
from the start of the path buffer, within the quota, in the order of their sequence numbers, and the
user's reader finds in each of them what was pushed.

`created` is what a run remembers for the statement: under which sequence number each successful push
stored which request and response.
-/

namespace AgentOS

open LittleEndian

namespace ContextPath

open PathEntry

/-! ## What the user reads -/

namespace PathEntry

theorem take_header (e : PathEntry) : e.header.take 8 = leBytes 8 e.seq := by
  simp [header]

theorem take_drop_header (e : PathEntry) : (e.header.drop 16).take 4 = leBytes 4 e.req.length ∧
    (e.header.drop 20).take 4 = leBytes 4 e.resp.length := by
  have hdrop : ∀ k n i : ℕ, k ≤ i → (leBytes k n).drop i = [] := fun k n i h ↦
    List.drop_eq_nil_of_le (by rwa [length_leBytes])
  constructor
  · simp [header, List.drop_append, hdrop]
  · simp [header, List.drop_append, hdrop]

end PathEntry

section Reader

variable [KernelLayout] {pt : PageTable} {m : Machine} {ext : AgentExt} {es : List PathEntry}
  (hmapped : AreaMapped pt contextAreaBase contextAreaDefaultSize)

include hmapped

omit [KernelLayout] in
/-- The user's loads in the path buffer. -/
theorem userLoads_path {off n : ℕ} (h : off + n ≤ Layout.pathBufferLen) :
    userLoads m pt (contextAreaBase + 0x4100 + off) n =
      some ((List.range' off n).map (pathView m pt)) := by
  simp only [Layout.pathBufferLen] at h
  rw [Nat.add_assoc, userLoads_eq hmapped (by decide)
    (by simp only [contextAreaDefaultSize]; omega)]
  congr 1
  refine List.ext_getElem (by simp) fun i hi hi' ↦ ?_
  have hlt : 0x4100 + (off + i) < contextAreaDefaultSize := by
    have hi : i < n := by simpa using hi
    simp only [contextAreaDefaultSize]
    omega
  simp only [List.getElem_map, List.getElem_range', pathView, areaView, bufferView,
    Layout.pathBufferOff, Nat.one_mul, if_pos hlt, Nat.add_assoc]

omit [KernelLayout] in
/-- Loading cells that the path buffer holds. -/
theorem userLoads_of_holds {off : ℕ} {cells : List UInt8}
    (hholds : Packed.Holds (pathView m pt) off cells)
    (h : off + cells.length ≤ Layout.pathBufferLen) :
    userLoads m pt (contextAreaBase + 0x4100 + off) cells.length = some cells := by
  rw [userLoads_path hmapped h, hholds.read]

omit [KernelLayout] in
/-- **What the user reads in a node** is the entry the node was made from. -/
theorem readPathNodeZeroCopy_eq (h : Represents pt m ext es) {p : ℕ × PathEntry}
    (hp : p ∈ Packed.positions size 0 es) :
    readPathNodeZeroCopy m pt (toMeta p) = some (p.2.req, p.2.resp) ∧
      readSeq m pt (toMeta p) = some (p.2.seq % 2 ^ 64) := by
  obtain ⟨off, e⟩ := p
  have htotal := h.total_le
  have hle := (Packed.le_of_mem_positions hp).2
  have hlen := e.length_header
  simp only [size, nodeTotalSize, nodeHeaderSize] at hle hlen
  have hholds := h.holds.of_mem_positions length_encode hp
  dsimp only at hholds
  rw [encode, Packed.holds_append, Packed.holds_append, hlen] at hholds
  obtain ⟨hheader, hreq, hresp⟩ := hholds
  have hload := userLoads_of_holds hmapped hheader (by simp only [Layout.pathBufferLen]; omega)
  have hloadReq : userLoads m pt (contextAreaBase + 0x4100 + off + (8 + 8 + 4 + 4))
      e.req.length = some e.req :=
    userLoads_of_holds hmapped hreq (by simp only [Layout.pathBufferLen]; omega)
  have hloadResp : userLoads m pt (contextAreaBase + 0x4100 + off + (8 + 8 + 4 + 4) + e.req.length)
      e.resp.length = some e.resp := by
    rw [Nat.add_assoc _ (8 + 8 + 4 + 4), Nat.add_assoc _ off, ← Nat.add_assoc off]
    exact userLoads_of_holds hmapped hresp (by simp only [Layout.pathBufferLen]; omega)
  have hreqLen : leValue ((e.header.drop 16).take 4) = e.req.length := by
    rw [e.take_drop_header.1, leValue_leBytes_of_lt (by omega)]
  have hrespLen : leValue ((e.header.drop 20).take 4) = e.resp.length := by
    rw [e.take_drop_header.2, leValue_leBytes_of_lt (by omega)]
  rw [hlen] at hload
  constructor
  · have hbig : ¬(toMeta (off, e)).len < 8 + 8 + 4 + 4 := by
      simp only [toMeta, size, nodeTotalSize, nodeHeaderSize]
      omega
    rw [readPathNodeZeroCopy, if_neg hbig]
    simp only [toMeta, Option.bind_eq_bind]
    rw [hload, Option.bind_some, hreqLen, hrespLen, hloadReq, Option.bind_some, hloadResp,
      Option.bind_some]
    rfl
  · have hseq : Packed.Holds (pathView m pt) off (leBytes 8 e.seq) := by
      rw [← List.take_append_drop 8 e.header, Packed.holds_append, e.take_header] at hheader
      exact hheader.1
    have hload := userLoads_of_holds hmapped hseq
      (by simp only [length_leBytes, Layout.pathBufferLen]; omega)
    rw [length_leBytes] at hload
    simp only [readSeq, toMeta, hload, Option.map_some, leValue_leBytes]
    norm_num

end Reader

/-! ## Runs -/

inductive PathOp where
  | push (req resp : List UInt8)
  | rollback (nodeCount : ℕ)
  | clear
  deriving DecidableEq, Repr

/-- The summaries are no longer than a push system call admits. -/
def PathOp.Admitted : PathOp → Prop
  | push req resp => req.length ≤ 4096 ∧ resp.length ≤ 4096
  | rollback _ => True
  | clear => True

structure PathState where
  ext : AgentExt
  /-- Sequence number, request and response of each successful push. -/
  created : List (ℕ × List UInt8 × List UInt8)

section Run

variable [KernelLayout]

def PathOp.exec (pt : PageTable) : PathOp → PathState → Exec Machine PathState
  | .push req resp, s => do
    let (r, ext) ← pushNode s.ext pt req resp
    match r with
    | .error _ => pure ⟨ext, s.created⟩
    | .ok idx => do
      let node ← Exec.unwrap ext.pathMeta[idx]?
      pure ⟨ext, s.created ++ [(node.seq, req, resp)]⟩
  | .rollback nodeCount, s => do
    let (_, ext) ← ContextPath.rollback s.ext pt nodeCount
    pure ⟨ext, s.created⟩
  | .clear, s => do
    let ext ← ContextPath.clear s.ext pt
    pure ⟨ext, s.created⟩

/-- A sequence of operations, one after the other. -/
def execAll (pt : PageTable) : List PathOp → PathState → Exec Machine PathState
  | [], s => pure s
  | op :: ops, s => do
    let s ← op.exec pt s
    execAll pt ops s

end Run

/-! ## What holds in every state -/

/-- The nodes lie back to back between the two offsets. -/
def Tiles : ℕ → List PathNodeMeta → ℕ → Prop
  | off, [], stop => off = stop
  | off, n :: ns, stop => n.offsetInBuffer = off ∧ Tiles (off + n.len) ns stop

/-- A path whose metadata, buffer and history agree. -/
structure Sound (pt : PageTable) (maxNodes maxBytes : ℕ) (m : Machine) (s : PathState) : Prop where
  tiles : Tiles 0 s.ext.pathMeta s.ext.pathUsedBytes
  used_le : s.ext.pathUsedBytes ≤ maxBytes
  count_le : s.ext.pathMeta.length ≤ maxNodes
  seq_lt : s.ext.pathMeta.Pairwise fun n n' ↦ n.seq < n'.seq
  seq_next : ∀ n ∈ s.ext.pathMeta, n.seq < s.ext.nextSeq
  /-- Different pushes have different sequence numbers. -/
  created_nodup : (s.created.map Prod.fst).Nodup
  /-- The user reads in each node what the push with its sequence number stored. -/
  read : ∀ n ∈ s.ext.pathMeta, ∃ req resp, (n.seq, req, resp) ∈ s.created ∧
    readPathNodeZeroCopy m pt n = some (req, resp) ∧ readSeq m pt n = some (n.seq % 2 ^ 64)

/-- The invariant of a run: the state stands for entries that were pushed, in the order of their
sequence numbers. -/
structure RunInv (pt : PageTable) (quota : PathQuota) (m : Machine) (s : PathState)
    (es : List PathEntry) : Prop where
  represents : Represents pt m s.ext es
  quota_eq : s.ext.pathQuota = quota
  seq_lt : es.Pairwise fun e e' ↦ e.seq < e'.seq
  seq_next : ∀ e ∈ es, e.seq < s.ext.nextSeq
  created_lt : s.created.Pairwise fun c c' ↦ c.1 < c'.1
  created_next : ∀ c ∈ s.created, c.1 < s.ext.nextSeq
  mem_created : ∀ e ∈ es, (e.seq, e.req, e.resp) ∈ s.created

/-- What an operation does to the entries: it forgets some, or forgets some and appends one that has the
next sequence number and the time of a reading of the clock. -/
inductive Grows (m m' : Machine) (ext ext' : AgentExt) (es : List PathEntry) :
    List PathEntry → Prop
  | forget {es' : List PathEntry} (hsub : List.Sublist es' es) (hclock : m'.clock = m.clock)
      (hseq : ext'.nextSeq = ext.nextSeq) : Grows m m' ext ext' es es'
  | append {kept : List PathEntry} {req resp : List UInt8} (hsub : List.Sublist kept es)
      (hclock : m'.clock = fun n ↦ m.clock (n + 1)) (hseq : ext'.nextSeq = ext.nextSeq + 1) :
      Grows m m' ext ext' es (kept ++ [⟨ext.nextSeq, m.clock 0, req, resp⟩])

theorem tiles_positions (off : ℕ) (es : List PathEntry) :
    Tiles off ((Packed.positions size off es).map toMeta) (off + Packed.total size es) := by
  induction es generalizing off with
  | nil => rfl
  | cons e es ih =>
    rw [Packed.total_cons, ← Nat.add_assoc]
    exact ⟨rfl, ih (off + e.size)⟩

/-- The nodes' sequence numbers are those of the entries. -/
theorem map_seq_positions (off : ℕ) (es : List PathEntry) :
    ((Packed.positions size off es).map toMeta).map PathNodeMeta.seq = es.map PathEntry.seq := by
  induction es generalizing off with
  | nil => rfl
  | cons e es ih => simp only [Packed.positions, List.map_cons, ih, toMeta]

section Invariant

variable [KernelLayout] {pt : PageTable} {quota : PathQuota} {m : Machine} {s : PathState}
  {es : List PathEntry}

omit [KernelLayout] in
theorem RunInv.sound (hmapped : AreaMapped pt contextAreaBase contextAreaDefaultSize)
    (h : RunInv pt quota m s es) : Sound pt quota.maxNodes quota.maxBytes m s := by
  have hrep := h.represents
  refine ⟨?_, ?_, ?_, ?_, ?_, ?_, ?_⟩
  · rw [hrep.meta_eq, hrep.used_eq]
    simpa using tiles_positions 0 es
  · rw [hrep.used_eq, ← h.quota_eq]
    exact hrep.used_le
  · rw [hrep.length_eq, ← h.quota_eq]
    exact hrep.count_le
  · rw [← List.pairwise_map (f := PathNodeMeta.seq) (R := fun a b ↦ a < b), hrep.meta_eq,
      map_seq_positions, List.pairwise_map]
    exact h.seq_lt
  · intro n hn
    rw [hrep.meta_eq] at hn
    obtain ⟨p, hp, rfl⟩ := List.mem_map.mp hn
    exact h.seq_next p.2 (mem_of_mem_positions hp)
  · rw [List.nodup_iff_pairwise_ne, List.pairwise_map]
    exact h.created_lt.imp fun hlt ↦ Nat.ne_of_lt hlt
  · intro n hn
    rw [hrep.meta_eq] at hn
    obtain ⟨p, hp, rfl⟩ := List.mem_map.mp hn
    obtain ⟨hread, hseq⟩ := readPathNodeZeroCopy_eq hmapped hrep hp
    exact ⟨p.2.req, p.2.resp, h.mem_created p.2 (mem_of_mem_positions hp), hread, hseq⟩

omit [KernelLayout] in
/-- Forgetting entries keeps the invariant. -/
theorem RunInv.sublist (h : RunInv pt quota m s es) {m' : Machine} {ext : AgentExt}
    {es' : List PathEntry} (hsub : List.Sublist es' es) (hrep : Represents pt m' ext es')
    (hseq : ext.nextSeq = s.ext.nextSeq) (hquota : ext.pathQuota = s.ext.pathQuota) :
    RunInv pt quota m' ⟨ext, s.created⟩ es' where
  represents := hrep
  quota_eq := hquota.trans h.quota_eq
  seq_lt := h.seq_lt.sublist hsub
  seq_next e he := hseq ▸ h.seq_next e (hsub.subset he)
  created_lt := h.created_lt
  created_next c hc := hseq ▸ h.created_next c hc
  mem_created e he := h.mem_created e (hsub.subset he)

/-- **One operation** returns and keeps the invariant. -/
theorem exec_spec (hb : Backed pt contextAreaBase contextAreaDefaultSize)
    (hnodes : 1 ≤ quota.maxNodes) (h : RunInv pt quota m s es) {op : PathOp} (hop : op.Admitted) :
    ∃ s' m' es', (op.exec pt s).Returns m s' m' ∧ RunInv pt quota m' s' es' ∧
      Grows m m' s.ext s'.ext es es' := by
  have hrep := h.represents
  cases op with
  | push req resp =>
    obtain ⟨hreq, hresp⟩ := hop
    by_cases hfits : nodeTotalSize req.length resp.length ≤ s.ext.pathQuota.maxBytes
    · obtain ⟨ext', m', es', hpush, hsub, hrep', hseq, hquota, hclock, -⟩ :=
        pushNode_spec hb hrep hreq hresp hfits (h.quota_eq ▸ hnodes)
      have hnode : ext'.pathMeta[es'.length]? = some (toMeta (Packed.total size es',
          ⟨s.ext.nextSeq, m.clock 0, req, resp⟩)) := by
        rw [hrep'.getElem_meta (by simp)]
        simp
      refine ⟨⟨ext', s.created ++ [(s.ext.nextSeq, req, resp)]⟩, m', _,
        hpush.bind (Exec.Returns.bind (Exec.returns_unwrap.mpr ⟨hnode, rfl⟩)
          (Exec.returns_pure.mpr ⟨rfl, rfl⟩)), ⟨hrep', hquota.trans h.quota_eq, ?_, ?_, ?_, ?_, ?_⟩,
        .append hsub hclock hseq⟩
      · -- the new entry has the next sequence number, above all others
        rw [List.pairwise_append]
        refine ⟨h.seq_lt.sublist hsub, List.pairwise_singleton _ _, fun e he e' he' ↦ ?_⟩
        rw [List.mem_singleton.mp he']
        exact h.seq_next e (hsub.subset he)
      · intro e he
        rw [hseq]
        rcases List.mem_append.mp he with he | he
        · exact Nat.lt_succ_of_lt (h.seq_next e (hsub.subset he))
        · rw [List.mem_singleton.mp he]
          exact Nat.lt_succ_self _
      · rw [List.pairwise_append]
        refine ⟨h.created_lt, List.pairwise_singleton _ _, fun c hc c' hc' ↦ ?_⟩
        rw [List.mem_singleton.mp hc']
        exact h.created_next c hc
      · intro c hc
        rw [hseq]
        rcases List.mem_append.mp hc with hc | hc
        · exact Nat.lt_succ_of_lt (h.created_next c hc)
        · rw [List.mem_singleton.mp hc]
          exact Nat.lt_succ_self _
      · intro e he
        rcases List.mem_append.mp he with he | he
        · exact List.mem_append_left _ (h.mem_created e (hsub.subset he))
        · rw [List.mem_singleton.mp he]
          exact List.mem_append_right _ List.mem_cons_self
    · exact ⟨s, m, es, (pushNode_refused hreq hresp (Nat.lt_of_not_le hfits)).bind
        (Exec.returns_pure.mpr ⟨rfl, rfl⟩), h, .forget (List.Sublist.refl es) rfl rfl⟩
  | rollback nodeCount =>
    by_cases hn : nodeCount ≤ es.length
    · obtain ⟨ext', m', hroll, hrep', hseq, hquota, hclock⟩ := rollback_spec hb hrep hn
      exact ⟨_, m', _, hroll.bind (Exec.returns_pure.mpr ⟨rfl, rfl⟩),
        h.sublist (List.take_sublist _ _) hrep' hseq hquota,
        .forget (List.take_sublist _ _) hclock hseq⟩
    · exact ⟨s, m, es, (rollback_refused (by rw [hrep.length_eq]; omega)).bind
        (Exec.returns_pure.mpr ⟨rfl, rfl⟩), h, .forget (List.Sublist.refl es) rfl rfl⟩
  | clear =>
    obtain ⟨ext', m', hclear, hrep', hseq, hquota, hclock⟩ := clear_spec hb hrep
    exact ⟨_, m', _, hclear.bind (Exec.returns_pure.mpr ⟨rfl, rfl⟩),
      h.sublist (List.nil_sublist _) hrep' hseq hquota, .forget (List.nil_sublist _) hclock hseq⟩

/-- **Every run** returns and keeps the invariant, and every other property of the entries and the clock
that growing keeps. -/
theorem execAll_spec (hb : Backed pt contextAreaBase contextAreaDefaultSize)
    (hnodes : 1 ≤ quota.maxNodes) {I : Machine → AgentExt → List PathEntry → Prop}
    (hgrows : ∀ {m m' ext ext' es es'}, I m ext es → Grows m m' ext ext' es es' → I m' ext' es')
    {ops : List PathOp} (hops : ∀ op ∈ ops, op.Admitted) (h : RunInv pt quota m s es)
    (hI : I m s.ext es) :
    ∃ s' m' es', (execAll pt ops s).Returns m s' m' ∧ RunInv pt quota m' s' es' ∧
      I m' s'.ext es' := by
  induction ops generalizing m s es with
  | nil => exact ⟨s, m, es, Exec.returns_pure.mpr ⟨rfl, rfl⟩, h, hI⟩
  | cons op ops ih =>
    obtain ⟨s₁, m₁, es₁, h₁, hinv₁, hgrow⟩ := exec_spec hb hnodes h (hops op List.mem_cons_self)
    obtain ⟨s', m', es', h', hinv'⟩ :=
      ih (fun o ho ↦ hops o (List.mem_cons_of_mem _ ho)) hinv₁ (hgrows hI hgrow)
    exact ⟨s', m', es', h₁.bind h', hinv'⟩

end Invariant

/-- A fresh agent whose quota is as given. -/
def freshPath (agentType : AgentType) (maxNodes maxBytes : ℕ) (policy : EvictPolicy) : PathState where
  ext := { AgentExt.new agentType contextAreaBase contextAreaDefaultSize maxNodes maxBytes with
    pathQuota := ⟨maxNodes, maxBytes, policy⟩ }
  created := []

/-- A fresh path stands for no entries. -/
theorem runInv_freshPath (pt : PageTable) (agentType : AgentType) {maxNodes maxBytes : ℕ}
    (hbytes : maxBytes ≤ Layout.pathBufferLen) (policy : EvictPolicy) (m : Machine) :
    RunInv pt ⟨maxNodes, maxBytes, policy⟩ m (freshPath agentType maxNodes maxBytes policy) [] := by
  refine ⟨⟨rfl, rfl, rfl, Nat.zero_le _, hbytes, Nat.zero_le _, ?_⟩, rfl, List.Pairwise.nil, ?_,
    List.Pairwise.nil, ?_, ?_⟩
  · exact Packed.holds_nil _ _
  · exact fun e he ↦ absurd he (by simp)
  · exact fun c hc ↦ absurd hc (by simp [freshPath])
  · exact fun e he ↦ absurd he (by simp)

/-- **Every path is sound.** From a fresh agent whose context area is mapped, any operations at any
times return, and they leave metadata and buffer in agreement. -/
theorem path_sound [KernelLayout] {pt : PageTable}
    (hb : Backed pt contextAreaBase contextAreaDefaultSize)
    (hmapped : AreaMapped pt contextAreaBase contextAreaDefaultSize) (agentType : AgentType)
    {maxNodes maxBytes : ℕ} (hnodes : 1 ≤ maxNodes) (hbytes : maxBytes ≤ Layout.pathBufferLen)
    (policy : EvictPolicy) {ops : List PathOp} (hops : ∀ op ∈ ops, op.Admitted) (m : Machine) :
    ∃ s m', (execAll pt ops (freshPath agentType maxNodes maxBytes policy)).Returns m s m' ∧
      Sound pt maxNodes maxBytes m' s := by
  obtain ⟨s, m', es, h, hinv, -⟩ := execAll_spec (I := fun _ _ _ ↦ True) hb hnodes
    (fun _ _ ↦ trivial) hops (runInv_freshPath pt agentType hbytes policy m) trivial
  exact ⟨s, m', h, hinv.sound hmapped⟩

/-- A quota of two nodes: the third push evicts the first node, of which there is nothing left. -/
theorem path_sound_two_nodes :
    ∃ s m', (@execAll sampleLayout samplePageTable
        [.push [1, 2] [3], .push [4] [], .push [] [5, 6, 7], .rollback 1, .push [8] [9]]
        (freshPath .normal 2 16384 .fifo)).Returns sampleMachine s m' ∧
      Sound samplePageTable 2 16384 m' s :=
  letI := sampleLayout
  path_sound samplePageTable_mapped.1 samplePageTable_mapped.2 .normal (by decide) (by decide) .fifo
    (by simp [PathOp.Admitted]) sampleMachine

end ContextPath

end AgentOS
