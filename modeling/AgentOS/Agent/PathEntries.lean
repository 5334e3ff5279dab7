import AgentOS.Agent.ContextPath

/-!
# Context paths as lists of entries

An entry is what a push hands to the kernel: a request and a response, with the sequence number and
the time they are stored under. `Represents` says when the metadata in the kernel and the bytes in the
path buffer stand for a list of entries: the entries' nodes are packed from the start of the buffer.

On lists of entries, evicting is erasing one, pushing appends one, and rolling back takes a prefix.
Each operation on metadata and bytes does just that, so a run never breaks the correspondence.
-/

namespace AgentOS

open LittleEndian

namespace ContextPath

structure PathEntry where
  seq : ℕ
  ts : ℕ
  req : List UInt8
  resp : List UInt8
  deriving DecidableEq, Repr

namespace PathEntry

/-- The header of an entry's node. -/
def header (e : PathEntry) : List UInt8 :=
  leBytes 8 e.seq ++ leBytes 8 e.ts ++ leBytes 4 e.req.length ++ leBytes 4 e.resp.length

/-- The node of an entry. -/
def encode (e : PathEntry) : List UInt8 := e.header ++ (e.req ++ e.resp)

def size (e : PathEntry) : ℕ := nodeTotalSize e.req.length e.resp.length

@[simp] theorem length_header (e : PathEntry) : e.header.length = nodeHeaderSize := by
  simp [header, nodeHeaderSize]

theorem length_encode (e : PathEntry) : e.encode.length = e.size := by
  rw [encode, List.length_append, List.length_append, length_header, ← Nat.add_assoc]
  rfl

theorem size_pos (e : PathEntry) : 0 < e.size := by
  simp only [size, nodeTotalSize, nodeHeaderSize]
  omega

/-- The metadata of an entry whose node starts at the offset. -/
def toMeta (p : ℕ × PathEntry) : PathNodeMeta := ⟨p.1, p.2.size, p.2.ts, p.2.seq⟩

end PathEntry

open PathEntry

theorem mem_of_mem_positions {off : ℕ} {es : List PathEntry} {p : ℕ × PathEntry}
    (h : p ∈ Packed.positions size off es) : p.2 ∈ es := by
  induction es generalizing off with
  | nil => simp [Packed.positions] at h
  | cons e es ih =>
    rw [Packed.positions] at h
    rcases List.mem_cons.mp h with rfl | h
    · exact List.mem_cons_self
    · exact List.mem_cons_of_mem _ (ih h)

/-! ## The buffers -/

/-- The context area as the user sees it. -/
def areaView (m : Machine) (pt : PageTable) : ℕ → UInt8 :=
  bufferView m pt contextAreaBase contextAreaDefaultSize

/-- The path buffer. -/
def pathView (m : Machine) (pt : PageTable) (k : ℕ) : UInt8 :=
  areaView m pt (Layout.pathBufferOff + k)

variable [KernelLayout] {pt : PageTable}

section Buffers

variable (hb : Backed pt contextAreaBase contextAreaDefaultSize)

include hb

theorem writePath_spec {va off : ℕ} (data : List UInt8)
    (hva : va = contextAreaBase + Layout.pathBufferOff + off)
    (hoff : off + data.length ≤ Layout.pathBufferLen) (m : Machine) :
    ∃ m', (writeUserBytes .contextArea pt va data).Returns m () m' ∧ m'.clock = m.clock ∧
      Packed.Holds (pathView m' pt) off data ∧
      ∀ k, k < off ∨ off + data.length ≤ k → pathView m' pt k = pathView m pt k := by
  simp only [Layout.pathBufferLen] at hoff
  obtain ⟨m', h, hclock, hholds, hframe⟩ := writeUserBytes_buffer .contextArea hb
    (Layout.pathBufferOff + off) data (by decide)
    (by simp only [Layout.pathBufferOff, contextAreaDefaultSize]; omega) m
  rw [← Nat.add_assoc, ← hva] at h
  refine ⟨m', h, hclock, fun i hi ↦ ?_, fun k hk ↦ hframe _ (by omega)⟩
  rw [pathView, ← Nat.add_assoc]
  exact hholds i hi

theorem readPath_spec {va off : ℕ} (buf : List UInt8)
    (hva : va = contextAreaBase + Layout.pathBufferOff + off)
    (hoff : off + buf.length ≤ Layout.pathBufferLen) (m : Machine) :
    ∃ m', (readUserBytes .contextArea pt va buf).Returns m
        ((List.range' off buf.length).map (pathView m pt)) m' ∧ m'.clock = m.clock ∧
      pathView m' pt = pathView m pt := by
  simp only [Layout.pathBufferLen] at hoff
  obtain ⟨m', h, hclock, hview⟩ := readUserBytes_buffer .contextArea hb
    (Layout.pathBufferOff + off) buf (by decide)
    (by simp only [Layout.pathBufferOff, contextAreaDefaultSize]; omega) m
  rw [← Nat.add_assoc, ← hva] at h
  have hgot : (List.range' (Layout.pathBufferOff + off) buf.length).map
      (bufferView m pt contextAreaBase contextAreaDefaultSize) =
      (List.range' off buf.length).map (pathView m pt) := by
    refine List.ext_getElem (by simp) fun i hi hi' ↦ ?_
    simp [pathView, areaView, Nat.add_assoc]
  refine ⟨m', by rwa [← hgot], hclock, funext fun k ↦ ?_⟩
  exact congrFun hview _

/-- The header lies outside the path buffer. -/
theorem syncHeader_spec (ext : AgentExt) (hbase : ext.contextAreaBase = contextAreaBase)
    (m : Machine) : ∃ m', (syncHeader ext pt).Returns m () m' ∧ m'.clock = m.clock ∧
      pathView m' pt = pathView m pt := by
  obtain ⟨m₁, h₁, hclock₁, -, hframe₁⟩ := writeUserBytes_buffer .contextArea hb
    36 (leBytes 4 ext.pathUsedBytes) (by decide)
    (by simp [contextAreaDefaultSize]) m
  obtain ⟨m₂, h₂, hclock₂, -, hframe₂⟩ := writeUserBytes_buffer .contextArea hb
    40 (leBytes 4 ext.pathMeta.length) (by decide)
    (by simp [contextAreaDefaultSize]) m₁
  refine ⟨m₂, ?_, hclock₂.trans hclock₁, funext fun k ↦ ?_⟩
  · rw [← hbase] at h₁ h₂
    exact h₁.bind h₂
  · have hk : 40 + (leBytes 4 ext.pathMeta.length).length ≤ Layout.pathBufferOff + k := by
      simp only [length_leBytes, Layout.pathBufferOff]
      omega
    rw [length_leBytes] at hk
    exact (hframe₂ _ (Or.inr (by rw [length_leBytes]; omega))).trans
      (hframe₁ _ (Or.inr (by rw [length_leBytes]; omega)))

theorem writeNodeAt_spec {va off : ℕ} {e : PathEntry}
    (hva : va = contextAreaBase + Layout.pathBufferOff)
    (hoff : off + e.size ≤ Layout.pathBufferLen) (m : Machine) :
    ∃ m', (writeNodeAt pt va off e.seq e.ts e.req e.resp).Returns m () m' ∧ m'.clock = m.clock ∧
      Packed.Holds (pathView m' pt) off e.encode ∧
      ∀ k < off, pathView m' pt k = pathView m pt k := by
  have hlen := e.length_header
  simp only [PathEntry.size, nodeTotalSize, nodeHeaderSize] at hoff hlen
  obtain ⟨m₁, h₁, hclock₁, hholds₁, hframe₁⟩ := writePath_spec hb e.header
    (show va + off = contextAreaBase + Layout.pathBufferOff + off by rw [hva]) (by omega) m
  obtain ⟨m₂, h₂, hclock₂, hholds₂, hframe₂⟩ := writePath_spec hb e.req
    (show va + off + 24 = contextAreaBase + Layout.pathBufferOff + (off + 24) by omega)
    (by omega) m₁
  obtain ⟨m₃, h₃, hclock₃, hholds₃, hframe₃⟩ := writePath_spec hb e.resp
    (show va + off + 24 + e.req.length =
      contextAreaBase + Layout.pathBufferOff + (off + 24 + e.req.length) by omega) (by omega) m₂
  refine ⟨m₃, h₁.bind (h₂.bind h₃), hclock₃.trans (hclock₂.trans hclock₁), ?_, fun k hk ↦ ?_⟩
  · rw [encode, Packed.holds_append, Packed.holds_append, hlen]
    refine ⟨hholds₁.congr fun k _ hk ↦ ?_, hholds₂.congr fun k _ hk ↦ ?_, hholds₃⟩
    · rw [hlen] at hk
      rw [hframe₃ k (Or.inl (by omega)), hframe₂ k (Or.inl (by omega))]
    · exact hframe₃ k (Or.inl (by omega))
  · rw [hframe₃ k (Or.inl (by omega)), hframe₂ k (Or.inl (by omega)), hframe₁ k (Or.inl hk)]

/-- **The shift loop** moves what is left to move. The invariant is the part moved so far. -/
theorem shiftFrom_spec {va «from» len shift : ℕ}
    (hva : va = contextAreaBase + Layout.pathBufferOff) (hshift : shift ≤ «from»)
    (hlen : «from» + len ≤ Layout.pathBufferLen) {μ : ℕ → UInt8} {turns copied : ℕ}
    (buf : List UInt8) (hbuf : buf.length = 256) (hcopied : copied ≤ len)
    (hturns : (len - copied + 255) / 256 < turns) (m : Machine)
    (hmoved : Packed.MovedLeft «from» («from» - shift) copied μ (pathView m pt)) :
    ∃ m', (shiftFrom pt va «from» len shift turns copied buf).Returns m () m' ∧
      m'.clock = m.clock ∧ Packed.MovedLeft «from» («from» - shift) len μ (pathView m' pt) := by
  induction turns generalizing copied buf m with
  | zero => omega
  | succ turns ih =>
    simp only [Layout.pathBufferLen] at hlen
    rw [shiftFrom]
    by_cases hlt : copied < len
    · rw [if_pos hlt]
      obtain ⟨n, hn⟩ : ∃ n, n = min (len - copied) 256 := ⟨_, rfl⟩
      have htake : (buf.take n).length = n := List.length_take_of_le (by omega)
      have hsrc : va + («from» + copied) % 2 ^ 32 =
          contextAreaBase + Layout.pathBufferOff + («from» + copied) := by
        rw [hva, Nat.mod_eq_of_lt (by omega)]
      have hdst : va + («from» + copied + (2 ^ 32 - shift)) % 2 ^ 32 =
          contextAreaBase + Layout.pathBufferOff + («from» - shift + copied) := by
        have hsum : «from» + copied + (2 ^ 32 - shift) = «from» - shift + copied + 2 ^ 32 := by omega
        rw [hva, hsum, Nat.add_mod_right, Nat.mod_eq_of_lt (by omega)]
      obtain ⟨m₁, h₁, hclock₁, hview₁⟩ := readPath_spec hb (buf.take n) hsrc
        (by simp only [Layout.pathBufferLen]; omega) m
      obtain ⟨m₂, h₂, hclock₂, hholds, hframe⟩ := writePath_spec hb
        ((List.range' («from» + copied) (buf.take n).length).map (pathView m pt)) hdst
        (by simp only [List.length_map, List.length_range', Layout.pathBufferLen]; omega) m₁
      simp only [List.length_map, List.length_range', htake] at hholds hframe
      have hstep : Packed.MovedLeft «from» («from» - shift) (copied + n) μ (pathView m₂ pt) := by
        refine hmoved.step (Nat.sub_le _ _) (fun i hi ↦ ?_) fun j hj ↦ ?_
        · rw [hholds i (by simpa [htake] using hi)]
          simp
        · rw [hframe j hj, hview₁]
      obtain ⟨m', h', hclock', hmoved'⟩ := ih
        ((List.range' («from» + copied) (buf.take n).length).map (pathView m pt) ++ buf.drop n)
        (by simp only [List.length_append, List.length_map, List.length_range', htake,
          List.length_drop]; omega) (by omega) (by omega) m₂ hstep
      refine ⟨m', ?_, hclock'.trans (hclock₂.trans hclock₁), hmoved'⟩
      dsimp only
      rw [← hn]
      exact h₁.bind (h₂.bind h')
    · rw [if_neg hlt]
      obtain rfl : copied = len := by omega
      exact ⟨m, Exec.returns_pure.mpr ⟨rfl, rfl⟩, rfl, hmoved⟩

theorem shiftPathBufferLeft_spec {va : ℕ} («from» len shift : ℕ)
    (hva : va = contextAreaBase + Layout.pathBufferOff) (hshift : shift ≤ «from»)
    (hpos : 0 < shift) (hlen : «from» + len ≤ Layout.pathBufferLen) (m : Machine) :
    ∃ m', (shiftPathBufferLeft pt va «from» len shift).Returns m () m' ∧ m'.clock = m.clock ∧
      Packed.MovedLeft «from» («from» - shift) len (pathView m pt) (pathView m' pt) := by
  unfold shiftPathBufferLeft
  split
  · rename_i hzero
    obtain rfl : len = 0 := by omega
    exact ⟨m, Exec.returns_pure.mpr ⟨rfl, rfl⟩, rfl, Packed.movedLeft_zero _ _ _⟩
  · exact shiftFrom_spec hb hva hshift hlen _ List.length_replicate (Nat.zero_le _) (by omega) m
      (Packed.movedLeft_zero _ _ _)

/-- **The shift is an overlapping move**: the run arrives with the bytes it had before the shift, and
the rest of the path buffer keeps its own. A chunk overwrites no byte that a later chunk reads,
because the destination is not to the right of the source. -/
theorem shiftPathBufferLeft_moves {«from» len shift : ℕ} (hshift : shift ≤ «from»)
    (hlen : «from» + len ≤ Layout.pathBufferLen) (m : Machine) :
    ∃ m', (shiftPathBufferLeft pt (contextAreaBase + Layout.pathBufferOff) «from» len shift).Returns
        m () m' ∧
      (∀ i < len, pathView m' pt («from» - shift + i) = pathView m pt («from» + i)) ∧
      ∀ k, k < «from» - shift ∨ «from» - shift + len ≤ k → pathView m' pt k = pathView m pt k := by
  rcases Nat.eq_zero_or_pos shift with rfl | hpos
  · -- the function returns at once, and the bytes are where they belong
    refine ⟨m, ?_, fun i _ ↦ rfl, fun k _ ↦ rfl⟩
    rw [shiftPathBufferLeft, if_pos (Or.inr rfl)]
    exact Exec.returns_pure.mpr ⟨rfl, rfl⟩
  · obtain ⟨m', hrun, -, hmoved⟩ :=
      shiftPathBufferLeft_spec hb «from» len shift rfl hshift hpos hlen m
    exact ⟨m', hrun, hmoved.copied, hmoved.frame⟩

end Buffers

omit [KernelLayout] in
/-- Two chunks move to the left by less than a chunk. -/
theorem shiftPathBufferLeft_moves_sample : ∃ m', (@shiftPathBufferLeft sampleLayout samplePageTable
      (contextAreaBase + Layout.pathBufferOff) 300 500 10).Returns sampleMachine () m' ∧
    (∀ i < 500, pathView m' samplePageTable (290 + i) =
      pathView sampleMachine samplePageTable (300 + i)) ∧
    ∀ k, k < 290 ∨ 790 ≤ k →
      pathView m' samplePageTable k = pathView sampleMachine samplePageTable k :=
  @shiftPathBufferLeft_moves sampleLayout samplePageTable samplePageTable_mapped.1 300 500 10
    (by decide) (by decide) sampleMachine

/-! ## Operations on entries -/

/-- The metadata of the extension and the bytes of the path buffer stand for the entries, which fit
the quota. -/
structure Represents (pt : PageTable) (m : Machine) (ext : AgentExt) (es : List PathEntry) :
    Prop where
  base_eq : ext.contextAreaBase = contextAreaBase
  meta_eq : ext.pathMeta = (Packed.positions size 0 es).map toMeta
  used_eq : ext.pathUsedBytes = Packed.total size es
  used_le : Packed.total size es ≤ ext.pathQuota.maxBytes
  maxBytes_le : ext.pathQuota.maxBytes ≤ Layout.pathBufferLen
  count_le : es.length ≤ ext.pathQuota.maxNodes
  holds : Packed.Holds (pathView m pt) 0 (es.flatMap encode)

namespace Represents

variable {m : Machine} {ext : AgentExt} {es : List PathEntry}

omit [KernelLayout] in
theorem length_eq (h : Represents pt m ext es) : ext.pathMeta.length = es.length := by
  rw [h.meta_eq, List.length_map, Packed.length_positions]

omit [KernelLayout] in
theorem total_le (h : Represents pt m ext es) : Packed.total size es ≤ 32768 :=
  h.used_le.trans h.maxBytes_le

omit [KernelLayout] in
/-- Every node takes some of the buffer, so there are not many. -/
theorem length_le (h : Represents pt m ext es) : es.length ≤ 32768 := by
  refine le_trans ?_ h.total_le
  have hle : ∀ l : List PathEntry, l.length ≤ Packed.total size l := by
    intro l
    induction l with
    | nil => exact le_rfl
    | cons e l ih =>
      have := e.size_pos
      rw [List.length_cons, Packed.total_cons]
      omega
  exact hle es

omit [KernelLayout] in
theorem getElem_meta (h : Represents pt m ext es) {i : ℕ} (hi : i < es.length) :
    ext.pathMeta[i]? = some (toMeta (Packed.total size (es.take i), es[i])) := by
  rw [h.meta_eq, List.getElem?_map, Packed.getElem?_positions hi, Nat.zero_add]
  rfl

end Represents

omit [KernelLayout] in
theorem pickVictim_lt {ext : AgentExt} {i : ℕ} (h : pickVictim ext = some i) :
    i < ext.pathMeta.length := by
  unfold pickVictim at h
  split at h
  · exact absurd h (by simp)
  · rename_i hne
    split at h
    · obtain rfl := Option.some.inj h
      rw [List.isEmpty_iff] at hne
      exact List.length_pos_iff.mpr hne
    · obtain ⟨⟨n, j⟩, hmin, rfl⟩ := Option.map_eq_some_iff.mp h
      have hmem := List.mem_zipIdx (List.argmin_mem hmin)
      omega

omit [KernelLayout] in
theorem exists_pickVictim {ext : AgentExt} (h : ext.pathMeta ≠ []) :
    ∃ i, pickVictim ext = some i := by
  rw [pickVictim, if_neg (by simpa using h)]
  cases ext.pathQuota.policy with
  | fifo => exact ⟨0, rfl⟩
  | lru =>
    have hne : ext.pathMeta.zipIdx.argmin (fun p ↦ p.1.writeTime) ≠ none := by
      rw [ne_eq, List.argmin_eq_none]
      simpa using h
    obtain ⟨p, hp⟩ := Option.ne_none_iff_exists'.mp hne
    exact ⟨p.2, by rw [hp]; rfl⟩

/-! ### What an eviction leaves -/

/-- A node of size `n` fits behind the entries. -/
def Room (quota : PathQuota) (n : ℕ) (es : List PathEntry) : Prop :=
  Packed.total size es + n ≤ quota.maxBytes ∧ es.length < quota.maxNodes

/-- The longest suffix of the entries behind which a node of size `n` fits. -/
structure LongestRoom (quota : PathQuota) (n : ℕ) (es : List PathEntry) (j : ℕ) : Prop where
  le : j ≤ es.length
  room : Room quota n (es.drop j)
  longest : ∀ i < j, ¬Room quota n (es.drop i)

/-- The entries are in the order of their times. -/
def Ordered (es : List PathEntry) : Prop := es.Pairwise fun e e' ↦ e.ts ≤ e'.ts

omit [KernelLayout] in
theorem LongestRoom.cons {quota : PathQuota} {n j : ℕ} {e : PathEntry} {es : List PathEntry}
    (h : LongestRoom quota n es j) (hfull : ¬Room quota n (e :: es)) :
    LongestRoom quota n (e :: es) (j + 1) where
  le := Nat.succ_le_succ h.le
  room := h.room
  longest i hi := by
    cases i with
    | zero => exact hfull
    | succ i => exact h.longest i (Nat.lt_of_succ_lt_succ hi)

omit [KernelLayout] in
/-- Of several smallest elements the first is taken. -/
theorem argmin_cons_of_le {α : Type} {f : α → ℕ} {a : α} {l : List α} (h : ∀ b ∈ l, f a ≤ f b) :
    (a :: l).argmin f = some a := by
  rw [List.argmin_cons]
  rcases hmin : l.argmin f with _ | c
  · rfl
  · exact if_neg (not_lt.mpr (h c (List.argmin_mem hmin)))

omit [KernelLayout] in
/-- **The oldest node is the victim**, whatever the policy, when the times are in order. -/
theorem pickVictim_eq_zero {m : Machine} {ext : AgentExt} {es : List PathEntry}
    (h : Represents pt m ext es) (hordered : Ordered es) {i : ℕ} (hi : pickVictim ext = some i) :
    i = 0 := by
  unfold pickVictim at hi
  split at hi
  · exact absurd hi (by simp)
  · split at hi
    · exact (Option.some.inj hi).symm
    · cases es with
      | nil => rw [h.meta_eq] at hi; exact absurd hi (by simp [Packed.positions])
      | cons e es =>
        rw [h.meta_eq, Packed.positions, List.map_cons, List.zipIdx_cons, argmin_cons_of_le] at hi
        · exact (Option.some.inj hi).symm
        · rintro ⟨n, j⟩ hmem
          obtain ⟨p, hp, hn⟩ := List.mem_map.mp (List.fst_mem_of_mem_zipIdx hmem)
          dsimp only at hn ⊢
          rw [← hn]
          exact List.rel_of_pairwise_cons hordered (mem_of_mem_positions hp)

section Operations

variable (hb : Backed pt contextAreaBase contextAreaDefaultSize) {m : Machine} {ext : AgentExt}
  {es : List PathEntry}

include hb

/-- **Evicting a node** erases its entry. -/
theorem evictOne_spec (h : Represents pt m ext es) {i : ℕ} (hi : pickVictim ext = some i) :
    ∃ ext' m', (evictOne ext pt).Returns m (.ok (), ext') m' ∧ m'.clock = m.clock ∧
      Represents pt m' ext' (es.eraseIdx i) ∧ ext'.nextSeq = ext.nextSeq ∧
      ext'.pathQuota = ext.pathQuota := by
  have hlt : i < es.length := h.length_eq ▸ pickVictim_lt hi
  have hvictim := h.getElem_meta hlt
  have htotal := h.total_le
  have hpos := es[i].size_pos
  -- the space before the victim, its own, and the space behind it
  have hsplit : Packed.total size (es.take i) + es[i].size +
      Packed.total size (es.drop (i + 1)) = Packed.total size es := by
    have hes : es = es.take i ++ es[i] :: es.drop (i + 1) := by
      rw [List.getElem_cons_drop, List.take_append_drop]
    conv_rhs => rw [hes]
    rw [Packed.total_append, Packed.total_cons]
    omega
  have hfrom : (Packed.total size (es.take i) + es[i].size) % 2 ^ 32 =
      Packed.total size (es.take i) + es[i].size := Nat.mod_eq_of_lt (by omega)
  have hlen : ext.pathUsedBytes - (Packed.total size (es.take i) + es[i].size) =
      Packed.total size (es.drop (i + 1)) := by
    rw [h.used_eq]
    omega
  obtain ⟨m', hshift, hclock, hmoved⟩ := shiftPathBufferLeft_spec hb
    (Packed.total size (es.take i) + es[i].size) (Packed.total size (es.drop (i + 1))) es[i].size
    (show ext.contextAreaBase + Layout.pathBufferOff = _ by rw [h.base_eq]) (by omega) hpos
    (by simp only [Layout.pathBufferLen]; omega) m
  have herase : _ + es[i].size = Packed.total size es := Packed.total_eraseIdx hlt
  refine ⟨{ ext with
    pathMeta := (ext.pathMeta.eraseIdx i).map fun n ↦
      if Packed.total size (es.take i) + es[i].size ≤ n.offsetInBuffer then
        { n with offsetInBuffer := (n.offsetInBuffer + (2 ^ 32 - es[i].size)) % 2 ^ 32 }
      else n
    pathUsedBytes := ext.pathUsedBytes - es[i].size }, m', ?_, hclock,
    ⟨h.base_eq, ?_, ?_, ?_, h.maxBytes_le, ?_, ?_⟩, rfl, rfl⟩
  · rw [evictOne, hi]
    refine Exec.Returns.bind (Exec.returns_unwrap.mpr ⟨hvictim, rfl⟩) ?_
    simp only [toMeta, hfrom, hlen]
    exact hshift.bind (Exec.returns_pure.mpr ⟨rfl, rfl⟩)
  · dsimp only
    rw [h.meta_eq, List.eraseIdx_map, Packed.positions_eraseIdx hlt fun e _ ↦ e.size_pos,
      List.map_map, List.map_map]
    refine List.map_congr_left fun p hp ↦ ?_
    have hp' := Packed.le_of_mem_positions (List.mem_of_mem_eraseIdx hp)
    simp only [Function.comp_apply, toMeta, Nat.zero_add]
    by_cases hge : Packed.total size (es.take i) + es[i].size ≤ p.1
    · have hsum : p.1 + (2 ^ 32 - es[i].size) = p.1 - es[i].size + 2 ^ 32 := by omega
      simp only [hge, if_true]
      rw [hsum, Nat.add_mod_right, Nat.mod_eq_of_lt (by omega)]
    · simp only [hge, if_false]
  · show ext.pathUsedBytes - es[i].size = _
    rw [h.used_eq]
    omega
  · have hle := h.used_le
    show _ ≤ ext.pathQuota.maxBytes
    omega
  · have hle := h.count_le
    rw [List.length_eraseIdx_of_lt hlt]
    show _ ≤ ext.pathQuota.maxNodes
    omega
  · refine Packed.MovedLeft.holds_eraseIdx length_encode hlt h.holds ?_
    rw [Nat.add_sub_cancel] at hmoved
    simpa only [Nat.zero_add] using hmoved

/-- **The eviction loop** ends with room for a node that fits the quota. What is left is in the old
order, and it is the longest suffix with room when the times are in order. -/
theorem evictUntil_spec {n : ℕ} (turns : ℕ) (h : Represents pt m ext es)
    (hn : n ≤ ext.pathQuota.maxBytes) (hnodes : 1 ≤ ext.pathQuota.maxNodes)
    (hturns : es.length < turns) :
    ∃ ext' m' es', (evictUntil pt n turns ext).Returns m (.ok (), ext') m' ∧
      m'.clock = m.clock ∧ List.Sublist es' es ∧ Represents pt m' ext' es' ∧
      ext'.nextSeq = ext.nextSeq ∧ ext'.pathQuota = ext.pathQuota ∧
      Room ext.pathQuota n es' ∧
      (Ordered es → ∃ j, LongestRoom ext.pathQuota n es j ∧ es' = es.drop j) := by
  induction turns generalizing ext es m with
  | zero => omega
  | succ turns ih =>
    have hmax : ext.pathQuota.maxBytes ≤ 32768 := h.maxBytes_le
    have hused : (ext.pathUsedBytes + n) % 2 ^ 32 = Packed.total size es + n := by
      have := h.total_le
      rw [h.used_eq, Nat.mod_eq_of_lt (by omega)]
    have hcount : ext.pathMeta.length % 2 ^ 32 = es.length := by
      have := h.length_le
      rw [h.length_eq, Nat.mod_eq_of_lt (by omega)]
    rw [evictUntil, hused, hcount]
    by_cases hfull : ext.pathQuota.maxBytes < Packed.total size es + n ∨
        ext.pathQuota.maxNodes ≤ es.length
    · -- an empty path is not full
      have hne : ext.pathMeta ≠ [] := by
        intro hnil
        obtain rfl : es = [] := List.length_eq_zero_iff.mp (by rw [← h.length_eq, hnil]; rfl)
        simp only [Packed.total_nil, List.length_nil] at hfull
        omega
      obtain ⟨i, hi⟩ := exists_pickVictim hne
      have hlt : i < es.length := h.length_eq ▸ pickVictim_lt hi
      obtain ⟨ext₁, m₁, h₁, hclock₁, hrep₁, hseq₁, hquota₁⟩ := evictOne_spec hb h hi
      obtain ⟨ext', m', es', h', hclock', hsub, hrep', hseq', hquota', hroom, hlongest⟩ :=
        ih hrep₁ (hquota₁ ▸ hn) (hquota₁ ▸ hnodes)
          (by rw [List.length_eraseIdx_of_lt hlt]; omega)
      refine ⟨ext', m', es', ?_, hclock'.trans hclock₁, hsub.trans (List.eraseIdx_sublist _ _),
        hrep', hseq'.trans hseq₁, hquota'.trans hquota₁, hquota₁ ▸ hroom, fun hordered ↦ ?_⟩
      · rw [if_pos hfull, if_neg (by simpa using hne)]
        exact h₁.bind h'
      · obtain rfl := pickVictim_eq_zero h hordered hi
        cases es with
        | nil => exact absurd hlt (by simp)
        | cons e es =>
          obtain ⟨j, hj, hes'⟩ := hlongest (List.Pairwise.of_cons hordered)
          rw [hquota₁] at hj
          exact ⟨j + 1, LongestRoom.cons hj fun hroom ↦ by
            have := hroom.1
            have := hroom.2
            omega, hes'⟩
    · rw [if_neg hfull]
      have hroom : Room ext.pathQuota n es := ⟨by omega, by omega⟩
      exact ⟨ext, m, es, Exec.returns_pure.mpr ⟨rfl, rfl⟩, rfl, List.Sublist.refl _, h, rfl, rfl,
        hroom, fun _ ↦ ⟨0, ⟨Nat.zero_le _, hroom, nofun⟩, rfl⟩⟩

omit [KernelLayout] hb in
/-- What a node of a request and a response of moderate size takes. -/
theorem nodeTotalSize_mod {req resp : List UInt8} (hreq : req.length ≤ 4096)
    (hresp : resp.length ≤ 4096) (seq ts : ℕ) :
    nodeTotalSize req.length resp.length % 2 ^ 32 = (PathEntry.mk seq ts req resp).size := by
  refine Nat.mod_eq_of_lt ?_
  simp only [nodeTotalSize, nodeHeaderSize]
  omega

omit hb in
/-- A node that does not fit the quota by itself is refused, and nothing changes. -/
theorem pushNode_refused {req resp : List UInt8} (hreq : req.length ≤ 4096)
    (hresp : resp.length ≤ 4096)
    (hbig : ext.pathQuota.maxBytes < nodeTotalSize req.length resp.length) :
    (pushNode ext pt req resp).Returns m (.error .quotaExceeded, ext) m := by
  have hsize := nodeTotalSize_mod hreq hresp 0 0
  have hbig' : ext.pathQuota.maxBytes < (PathEntry.mk 0 0 req resp).size := hbig
  rw [pushNode, hsize]
  dsimp only
  by_cases hbuf : Layout.pathBufferLen < (PathEntry.mk 0 0 req resp).size
  · rw [if_pos hbuf]
    exact Exec.returns_pure.mpr ⟨rfl, rfl⟩
  · rw [if_neg hbuf, if_pos hbig']
    exact Exec.returns_pure.mpr ⟨rfl, rfl⟩

/-- **Pushing a node** appends its entry to what the eviction leaves: the longest suffix with room when
the times are in order. The clock is read once. -/
theorem pushNode_spec {req resp : List UInt8} (h : Represents pt m ext es)
    (hreq : req.length ≤ 4096) (hresp : resp.length ≤ 4096)
    (hfits : nodeTotalSize req.length resp.length ≤ ext.pathQuota.maxBytes)
    (hnodes : 1 ≤ ext.pathQuota.maxNodes) :
    ∃ ext' m' es', (pushNode ext pt req resp).Returns m (.ok es'.length, ext') m' ∧
      List.Sublist es' es ∧
      Represents pt m' ext' (es' ++ [⟨ext.nextSeq, m.clock 0, req, resp⟩]) ∧
      ext'.nextSeq = ext.nextSeq + 1 ∧ ext'.pathQuota = ext.pathQuota ∧
      m'.clock = (fun n ↦ m.clock (n + 1)) ∧
      (Ordered es → ∃ j, LongestRoom ext.pathQuota (nodeTotalSize req.length resp.length) es j ∧
        es' = es.drop j) := by
  obtain ⟨e, he⟩ : ∃ e, e = PathEntry.mk ext.nextSeq (m.clock 0) req resp := ⟨_, rfl⟩
  have hsize : nodeTotalSize req.length resp.length % 2 ^ 32 = e.size := by
    rw [he]
    exact nodeTotalSize_mod hreq hresp _ _
  have hfits' : e.size ≤ ext.pathQuota.maxBytes := by
    rw [he]
    exact hfits
  have hmax := h.maxBytes_le
  obtain ⟨ext₁, m₁, es', h₁, hclock₁, hsub, hrep, hseq, hquota, ⟨hroom, hcount⟩, hlongest⟩ :=
    evictUntil_spec hb (ext.pathMeta.length + 1) h hfits' hnodes
      (by rw [h.length_eq]; omega)
  have hused : (ext₁.pathUsedBytes + e.size) % 2 ^ 32 = Packed.total size es' + e.size := by
    rw [hrep.used_eq, Nat.mod_eq_of_lt]
    simp only [Layout.pathBufferLen] at hmax
    omega
  -- the clock moves, the bytes do not
  obtain ⟨m₂, hm₂⟩ : ∃ m₂, m₂ = { m₁ with clock := fun n ↦ m₁.clock (n + 1) } := ⟨_, rfl⟩
  have hview₂ : pathView m₂ pt = pathView m₁ pt := by
    rw [hm₂]
    rfl
  obtain ⟨m₃, h₃, hclock₃, hholds₃, hframe₃⟩ := writeNodeAt_spec hb (e := e)
    (show ext₁.contextAreaBase + Layout.pathBufferOff = _ by rw [hrep.base_eq])
    (show ext₁.pathUsedBytes + e.size ≤ _ by rw [hrep.used_eq]; omega) m₂
  obtain ⟨ext', hext'⟩ : ∃ ext', ext' = { ext₁ with
      pathMeta := ext₁.pathMeta ++ [PathNodeMeta.mk ext₁.pathUsedBytes e.size (m.clock 0) ext₁.nextSeq]
      pathUsedBytes := (ext₁.pathUsedBytes + e.size) % 2 ^ 32
      nextSeq := ext₁.nextSeq + 1 } := ⟨_, rfl⟩
  have hbase' : ext'.contextAreaBase = contextAreaBase := by rw [hext', ← hrep.base_eq]
  obtain ⟨m₄, h₄, hclock₄, hview₄⟩ := syncHeader_spec hb ext' hbase' m₃
  have hidx : (ext₁.pathMeta ++ [PathNodeMeta.mk ext₁.pathUsedBytes e.size (m.clock 0)
      ext₁.nextSeq]).length - 1 = es'.length := by
    rw [List.length_append, hrep.length_eq]
    rfl
  refine ⟨ext', m₄, es', ?_, hsub, ⟨hbase', ?_, ?_, ?_, ?_, ?_, ?_⟩, ?_, ?_, ?_, ?_⟩
  · rw [pushNode, hsize]
    dsimp only
    rw [if_neg (by omega), if_neg (by omega)]
    refine h₁.bind ?_
    have hnow : Machine.getTime.Returns m₁ (m.clock 0) m₂ := by
      rw [hm₂, ← hclock₁]
      rfl
    have h₃' : (writeNodeAt pt (ext₁.contextAreaBase + Layout.pathBufferOff) ext₁.pathUsedBytes
        ext₁.nextSeq (m.clock 0) req resp).Returns m₂ () m₃ := by
      rw [he] at h₃
      rw [hseq]
      exact h₃
    refine hnow.bind (h₃'.bind ?_)
    dsimp only
    rw [← hext']
    exact h₄.bind (Exec.returns_pure.mpr ⟨by rw [hidx], rfl⟩)
  · rw [← he, hext', Packed.positions_append, List.map_append, hrep.meta_eq, hrep.used_eq,
      hseq, Nat.zero_add]
    simp [Packed.positions, toMeta, he]
  · rw [← he, Packed.total_append, Packed.total_cons, Packed.total_nil, hext']
    exact hused
  · rw [← he, Packed.total_append, Packed.total_cons, Packed.total_nil, hext']
    exact (hquota ▸ hroom : _ ≤ ext₁.pathQuota.maxBytes)
  · rw [hext']
    exact hrep.maxBytes_le
  · rw [hext', List.length_append, List.length_singleton]
    exact (hquota ▸ hcount : _ < ext₁.pathQuota.maxNodes)
  · rw [← he, List.flatMap_append, Packed.holds_append, Packed.length_flatMap length_encode,
      hview₄, Nat.zero_add]
    refine ⟨hrep.holds.congr fun k _ hk ↦ ?_, ?_⟩
    · rw [Nat.zero_add, Packed.length_flatMap length_encode] at hk
      rw [hframe₃ k (by rwa [hrep.used_eq]), hview₂]
    · rw [← hrep.used_eq]
      simpa using hholds₃
  · rw [hext', hseq]
  · rw [hext', hquota]
  · rw [hclock₄, hclock₃, hm₂, hclock₁]
  · have hsame : e.size = nodeTotalSize req.length resp.length := by rw [he, PathEntry.size]
    rwa [hsame] at hlongest

omit [KernelLayout] hb in
/-- Dropping the last nodes changes no byte of the others. -/
theorem represents_take (h : Represents pt m ext es) (n : ℕ) {m' : Machine} {ext' : AgentExt}
    (hview : pathView m' pt = pathView m pt) (hbase : ext'.contextAreaBase = ext.contextAreaBase)
    (hmeta : ext'.pathMeta = ext.pathMeta.take n)
    (hused : ext'.pathUsedBytes = Packed.total size (es.take n))
    (hquota : ext'.pathQuota = ext.pathQuota) : Represents pt m' ext' (es.take n) := by
  have hsplit := congrArg (Packed.total size) (List.take_append_drop n es)
  rw [Packed.total_append] at hsplit
  have hle := h.used_le
  refine ⟨hbase.trans h.base_eq, ?_, hused, by rw [hquota]; omega, hquota ▸ h.maxBytes_le, ?_, ?_⟩
  · rw [hmeta, h.meta_eq, Packed.positions_take, List.map_take]
  · rw [hquota, List.length_take]
    have := h.count_le
    omega
  · have hholds := h.holds
    rw [← List.take_append_drop n es, List.flatMap_append, Packed.holds_append] at hholds
    rw [hview]
    exact hholds.1

omit hb in
/-- Rolling back too far is refused, and nothing changes. -/
theorem rollback_refused {n : ℕ} (hn : ext.pathMeta.length < n) :
    (rollback ext pt n).Returns m (.error .notFound, ext) m := by
  rw [rollback, if_pos hn]
  exact Exec.returns_pure.mpr ⟨rfl, rfl⟩

/-- **Rolling back** keeps a prefix. -/
theorem rollback_spec {n : ℕ} (h : Represents pt m ext es) (hn : n ≤ es.length) :
    ∃ ext' m', (rollback ext pt n).Returns m (.ok (), ext') m' ∧
      Represents pt m' ext' (es.take n) ∧ ext'.nextSeq = ext.nextSeq ∧
      ext'.pathQuota = ext.pathQuota ∧ m'.clock = m.clock := by
  have htrunc : truncate ext n = some { ext with
      pathMeta := ext.pathMeta.take n
      pathUsedBytes := Packed.total size (es.take n) } := by
    rw [truncate]
    by_cases hzero : n = 0
    · rw [if_pos hzero, hzero]
      rfl
    · have hlt : n - 1 < es.length := by omega
      have hlast : es.take n = es.take (n - 1) ++ [es[n - 1]] := by
        rw [List.take_concat_get' es (n - 1) hlt]
        congr 1
        omega
      have hsum : Packed.total size (es.take (n - 1)) + es[n - 1].size =
          Packed.total size (es.take n) := by
        rw [hlast, Packed.total_append, Packed.total_cons, Packed.total_nil, Nat.add_zero]
      have hle : Packed.total size (es.take n) ≤ 32768 := by
        have hsplit := congrArg (Packed.total size) (List.take_append_drop n es)
        rw [Packed.total_append] at hsplit
        have := h.total_le
        omega
      rw [if_neg hzero, h.getElem_meta hlt, Option.map_some]
      simp only [toMeta]
      rw [hsum, Nat.mod_eq_of_lt (by omega)]
  obtain ⟨ext', hext'⟩ : ∃ ext', ext' = { ext with
      pathMeta := ext.pathMeta.take n
      pathUsedBytes := Packed.total size (es.take n) } := ⟨_, rfl⟩
  obtain ⟨m', hsync, hclock, hview⟩ := syncHeader_spec hb ext' (by rw [hext']; exact h.base_eq) m
  refine ⟨ext', m', ?_, ?_, by rw [hext'], by rw [hext'], hclock⟩
  · rw [rollback, if_neg (by rw [h.length_eq]; omega), htrunc, ← hext']
    exact (Exec.returns_unwrap.mpr ⟨rfl, rfl⟩ : (Exec.unwrap (some ext')).Returns m ext' m).bind
      (hsync.bind (Exec.returns_pure.mpr ⟨rfl, rfl⟩))
  · exact represents_take h n hview (by rw [hext']) (by rw [hext']) (by rw [hext'])
      (by rw [hext'])

/-- **Clearing** leaves no entry. -/
theorem clear_spec (h : Represents pt m ext es) :
    ∃ ext' m', (clear ext pt).Returns m ext' m' ∧ Represents pt m' ext' [] ∧
      ext'.nextSeq = ext.nextSeq ∧ ext'.pathQuota = ext.pathQuota ∧ m'.clock = m.clock := by
  obtain ⟨m', hsync, hclock, hview⟩ := syncHeader_spec hb
    { ext with pathMeta := [], pathUsedBytes := 0 } h.base_eq m
  refine ⟨_, m', hsync.bind (Exec.returns_pure.mpr ⟨rfl, rfl⟩), ?_, rfl, rfl, hclock⟩
  exact represents_take h 0 hview rfl rfl rfl rfl

end Operations

end ContextPath

end AgentOS
