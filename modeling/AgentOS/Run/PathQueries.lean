import AgentOS.Agent.PathRun
import AgentOS.Run.Effects

/-!
# Queries of a context path

The kernel serializes the metadata of a path with a type of its own, and the user library reads them
back with another. Both have the same fields in the same order, so what the user gets is what the
kernel has. A path within the default quota is never too long for the ring the answer is written to.
-/

namespace AgentOS

open Postcard

/-! ## The reader in user space -/

namespace User

structure PathNodeMeta where
  offset : ℕ
  len : ℕ
  seq : ℕ
  writeTime : ℕ
  deriving DecidableEq, Repr

structure PathMetaList where
  items : List PathNodeMeta
  deriving DecidableEq, Repr

def decodePathNodeMeta : Decoder PathNodeMeta := do
  let offset ← decodeU32
  let len ← decodeU32
  let seq ← decodeU64
  let writeTime ← decodeU64
  pure ⟨offset, len, seq, writeTime⟩

def decodePathMetaList : Decoder PathMetaList := do
  let items ← decodeSeq decodePathNodeMeta
  pure ⟨items⟩

end User

namespace ContextPath

open PathEntry

/-! ## Bodies -/

/-- The fields fit their types in the source. -/
structure MetaFits (n : PathNodeMeta) : Prop where
  offset : n.offsetInBuffer < 2 ^ 32
  len : n.len < 2 ^ 32
  seq : n.seq < 2 ^ 64
  writeTime : n.writeTime < 2 ^ 64

/-- The metadata of a node as the user has them. -/
def toUser (n : PathNodeMeta) : User.PathNodeMeta := ⟨n.offsetInBuffer, n.len, n.seq, n.writeTime⟩

/-- The code of a node. -/
def encodeMeta (n : PathNodeMeta) : List UInt8 :=
  encodeVarint n.offsetInBuffer ++ encodeVarint n.len ++ encodeVarint n.seq ++
    encodeVarint n.writeTime

theorem serializeMeta_eq (ext : AgentExt) :
    serializeMeta ext = .ok (encodeSeq encodeMeta ext.pathMeta) := rfl

theorem reads_meta {n : PathNodeMeta} (h : MetaFits n) :
    Reads User.decodePathNodeMeta (encodeMeta n) (toUser n) := by
  rw [encodeMeta, List.append_assoc, List.append_assoc]
  exact (reads_u32 h.offset).bind ((reads_u32 h.len).bind ((reads_u64 h.seq).bind
    ((reads_u64 h.writeTime).map _)))

theorem length_encodeMeta_le {n : PathNodeMeta} (h : MetaFits n) :
    (encodeMeta n).length ≤ 30 := by
  have hoffset := length_encodeVarint_u32 h.offset
  have hlen := length_encodeVarint_u32 h.len
  have hseq := length_encodeVarint_le n.seq
  have htime := length_encodeVarint_le n.writeTime
  simp only [encodeMeta, List.length_append]
  omega

/-- **The body of a path with few nodes** fits the ring, and the user reads the metadata from it. -/
theorem body_spec {ns : List PathNodeMeta} (hcount : ns.length ≤ 128) (h : ∀ n ∈ ns, MetaFits n) :
    (encodeSeq encodeMeta ns).length ≤ Layout.toolResultLen ∧
      fromBytes User.decodePathMetaList (encodeSeq encodeMeta ns) = some ⟨ns.map toUser⟩ := by
  constructor
  · have hlength : (encodeSeq encodeMeta ns).length ≤ _ :=
      length_encodeSeq_le fun n hn ↦ length_encodeMeta_le (h n hn)
    have hprefix := length_encodeVarint_le ns.length
    simp only [Layout.toolResultLen]
    omega
  · have hread := (reads_seq (by omega) fun n hn ↦ reads_meta (h n hn)).map User.PathMetaList.mk
    have hall := hread []
    rw [List.append_nil] at hall
    rw [fromBytes, User.decodePathMetaList, hall]
    rfl

/-! ## Paths -/

/-- The times of the entries, and those still to come, are readings of a 64-bit register. -/
def Stamped (m : Machine) (es : List PathEntry) : Prop :=
  (∀ n, m.clock n < 2 ^ 64) ∧ ∀ e ∈ es, e.ts < 2 ^ 64

theorem Stamped.grows {m m' : Machine} {ext ext' : AgentExt} {es es' : List PathEntry}
    (h : Stamped m es) (hgrow : Grows m m' ext ext' es es') : Stamped m' es' := by
  cases hgrow with
  | forget hsub hclock hseq => exact ⟨hclock ▸ h.1, fun e he ↦ h.2 e (hsub.subset he)⟩
  | @append kept req resp hsub hclock hseq =>
    refine ⟨fun n ↦ hclock ▸ h.1 (n + 1), fun e he ↦ ?_⟩
    rcases List.mem_append.mp he with he | he
    · exact h.2 e (hsub.subset he)
    · rw [List.mem_singleton.mp he]
      exact h.1 0

/-- As long as the sequence numbers have not run out, every field fits its type. -/
theorem RunInv.metaFits {pt : PageTable} {quota : PathQuota} {m : Machine} {s : PathState}
    {es : List PathEntry} (h : RunInv pt quota m s es) (hstamped : Stamped m es)
    (hseq : s.ext.nextSeq ≤ 2 ^ 64) : ∀ n ∈ s.ext.pathMeta, MetaFits n := by
  intro n hn
  rw [h.represents.meta_eq] at hn
  obtain ⟨p, hp, rfl⟩ := List.mem_map.mp hn
  have htotal := h.represents.total_le
  have hle := (Packed.le_of_mem_positions hp).2
  have hmem := mem_of_mem_positions hp
  have hnext := h.seq_next p.2 hmem
  exact ⟨show p.1 < _ by omega, show p.2.size < _ by omega, show p.2.seq < _ by omega,
    hstamped.2 p.2 hmem⟩

/-! ## The call -/

section Query

variable [KernelLayout]

/-- A query of a path whose body fits the ring succeeds. -/
theorem sysContextQuery_ok {k k' : Kernel} {t start count outOffsetPtr outLenPtr : ℕ}
    {ext : AgentExt} {r : Option ℤ} (hcur : k.current = some t) (hext : k.extOf t = some ext)
    (hfits : (encodeSeq encodeMeta ext.pathMeta).length ≤ Layout.toolResultLen)
    (h : (Kernel.sysContextQuery start count outOffsetPtr outLenPtr).Returns k r k') :
    r = some 0 := by
  obtain ⟨u, tcb, hcur', htcb, ⟨hnone, -, -⟩ | ⟨ext', hext', hbody⟩⟩ := Kernel.returns_withExt h
  · obtain rfl := Option.some.inj (hcur.symm.trans hcur')
    exact absurd ((Kernel.extOf_of_tasks htcb).trans hnone) (by simp [hext])
  · obtain rfl := Option.some.inj (hcur.symm.trans hcur')
    obtain rfl := Option.some.inj (hext.symm.trans ((Kernel.extOf_of_tasks htcb).trans hext'))
    rw [serializeMeta_eq] at hbody
    dsimp only at hbody
    rw [if_neg (not_lt.mpr hfits)] at hbody
    obtain ⟨_, k₁, -, h₁⟩ := Exec.returns_bind.mp hbody
    obtain ⟨_, k₂, -, h₂⟩ := Exec.returns_bind.mp h₁
    obtain ⟨_, k₃, -, hpure⟩ := Exec.returns_bind.mp h₂
    exact (Exec.returns_pure.mp hpure).1

/-- **A query never overflows and decodes back.** Every path that pushes, rollbacks and clears lead to
under the default quota has a body that fits the ring, from which the user library reads just the
metadata in the kernel; so the call succeeds for every agent with such a path. -/
theorem query_decodes {pt : PageTable} (hb : Backed pt contextAreaBase contextAreaDefaultSize)
    (agentType : AgentType) (policy : EvictPolicy) {ops : List PathOp}
    (hops : ∀ op ∈ ops, op.Admitted) {m : Machine} (hclock : ∀ n, m.clock n < 2 ^ 64) :
    ∃ s m', (execAll pt ops (freshPath agentType 128 (16 * 1024) policy)).Returns m s m' ∧
      (s.ext.nextSeq ≤ 2 ^ 64 → ∃ body, serializeMeta s.ext = .ok body ∧
        body.length ≤ Layout.toolResultLen ∧
        fromBytes User.decodePathMetaList body = some ⟨s.ext.pathMeta.map toUser⟩ ∧
        ∀ (k k' : Kernel) (t start count outOffsetPtr outLenPtr : ℕ) (r : Option ℤ),
          k.current = some t → k.extOf t = some s.ext →
          (Kernel.sysContextQuery start count outOffsetPtr outLenPtr).Returns k r k' →
          r = some 0) := by
  have hstamped : Stamped m [] := ⟨hclock, by simp⟩
  have hinit : RunInv pt ⟨128, 16 * 1024, policy⟩ m
      (freshPath agentType 128 (16 * 1024) policy) [] :=
    runInv_freshPath pt agentType (by decide) policy m
  have hnodes : 1 ≤ (⟨128, 16 * 1024, policy⟩ : PathQuota).maxNodes := Nat.succ_pos _
  obtain ⟨s, m', es, h, hinv, hstamped'⟩ := execAll_spec (I := fun m _ es ↦ Stamped m es) hb
    hnodes (fun h hgrow ↦ h.grows hgrow) hops hinit hstamped
  refine ⟨s, m', h, fun hseq ↦ ?_⟩
  have hcount : s.ext.pathMeta.length ≤ 128 := by
    have hle := hinv.represents.count_le
    rw [hinv.quota_eq] at hle
    rwa [hinv.represents.length_eq]
  obtain ⟨hlen, hread⟩ := body_spec hcount (hinv.metaFits hstamped' hseq)
  exact ⟨_, serializeMeta_eq s.ext, hlen, hread,
    fun k k' t start count outOffsetPtr outLenPtr r hcur hext hcall ↦
      sysContextQuery_ok hcur hext hlen hcall⟩

end Query

section Sample

attribute [local instance] sampleLayout

/-- Two pushes. -/
theorem query_decodes_two : ∃ s m',
    (execAll samplePageTable [.push [1, 2] [3], .push [4] []]
      (freshPath .normal 128 (16 * 1024) .lru)).Returns
        { sampleMachine with clock := fun n ↦ min n 1000 } s m' ∧
    (s.ext.nextSeq ≤ 2 ^ 64 → ∃ body, serializeMeta s.ext = .ok body ∧
      fromBytes User.decodePathMetaList body = some ⟨s.ext.pathMeta.map toUser⟩) := by
  have hclock : ∀ n, ({ sampleMachine with clock := fun n ↦ min n 1000 } : Machine).clock n <
      2 ^ 64 := fun n ↦ lt_of_le_of_lt (min_le_right n 1000) (by decide)
  obtain ⟨s, m', h, hquery⟩ := @query_decodes _ samplePageTable samplePageTable_mapped.1 .normal .lru
    [.push [1, 2] [3], .push [4] []] (by simp [PathOp.Admitted]) _ hclock
  refine ⟨s, m', h, fun hseq ↦ ?_⟩
  obtain ⟨body, hbody, -, hread, -⟩ := hquery hseq
  exact ⟨body, hbody, hread⟩

end Sample

end ContextPath

end AgentOS
