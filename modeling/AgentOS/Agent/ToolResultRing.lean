import AgentOS.Agent.ContextArea

/-!
# The tool result ring

The header of a context area says where the next result goes. `writeToolResult` looks for that at the
offset 20 and stores it there, but 20 is the offset of the length of the ring; the write position is
the field behind it. So the first result that is accepted breaks the law of the ring, and until then
nothing is written at all.
-/

namespace AgentOS

open LittleEndian

/-! ## The header -/

/-- The fields of the header. -/
structure AreaHeader where
  magic : ℕ
  version : ℕ
  seqNumber : ℕ
  toolResultOff : ℕ
  toolResultLen : ℕ
  toolResultWritePos : ℕ
  pathBufferOff : ℕ
  pathBufferLen : ℕ
  pathUsedBytes : ℕ
  pathNodeCount : ℕ
  historyOff : ℕ
  historyLen : ℕ
  reserved : List UInt8
  deriving DecidableEq, Repr

/-- The fields of a header of 248 bytes. The compiler puts each at the first offset behind the last one
that is a multiple of the field's size. -/
def AreaHeader.ofBytes (bytes : List UInt8) : AreaHeader where
  magic := leValue (bytes.take 4)
  version := leValue ((bytes.drop 4).take 4)
  seqNumber := leValue ((bytes.drop 8).take 8)
  toolResultOff := leValue ((bytes.drop 16).take 4)
  toolResultLen := leValue ((bytes.drop 20).take 4)
  toolResultWritePos := leValue ((bytes.drop 24).take 4)
  pathBufferOff := leValue ((bytes.drop 28).take 4)
  pathBufferLen := leValue ((bytes.drop 32).take 4)
  pathUsedBytes := leValue ((bytes.drop 36).take 4)
  pathNodeCount := leValue ((bytes.drop 40).take 4)
  historyOff := leValue ((bytes.drop 44).take 4)
  historyLen := leValue ((bytes.drop 48).take 4)
  reserved := (bytes.drop 52).take (256 - 64)

/-- What `init_header` sets the fields to. -/
def AreaHeader.fresh : AreaHeader where
  magic := headerMagic
  version := headerVersion
  seqNumber := 0
  toolResultOff := Layout.toolResultOff
  toolResultLen := Layout.toolResultLen
  toolResultWritePos := 0
  pathBufferOff := Layout.pathBufferOff
  pathBufferLen := Layout.pathBufferLen
  pathUsedBytes := 0
  pathNodeCount := 0
  historyOff := Layout.historyOff
  historyLen := Layout.historyLen
  reserved := List.replicate (256 - 64) 0

theorem ofBytes_areaHeader : AreaHeader.ofBytes areaHeader = .fresh := by decide +kernel

/-- The header at the front of an area. -/
def readHeader (μ : ℕ → UInt8) : AreaHeader := .ofBytes ((List.range' 0 248).map μ)

theorem readHeader_of_holds {μ : ℕ → UInt8} (h : Packed.Holds μ 0 areaHeader) :
    readHeader μ = .fresh := by
  have hlen : areaHeader.length = 248 := by decide +kernel
  have hread := h.read
  rw [hlen] at hread
  rw [readHeader, hread, ofBytes_areaHeader]

/-- Part of a list of consecutive bytes. -/
theorem take_drop_range' (μ : ℕ → UInt8) {off n len : ℕ} (h : off + n ≤ len) :
    (((List.range' 0 len).map μ).drop off).take n = (List.range' off n).map μ := by
  rw [← List.map_drop, ← List.map_take]
  congr 1
  refine List.ext_getElem (by simp; omega) fun i hi hi' ↦ ?_
  simp

theorem toolResultLen_readHeader (μ : ℕ → UInt8) :
    (readHeader μ).toolResultLen = leValue ((List.range' 20 4).map μ) :=
  congrArg leValue (take_drop_range' μ (by decide))

theorem toolResultWritePos_readHeader (μ : ℕ → UInt8) :
    (readHeader μ).toolResultWritePos = leValue ((List.range' 24 4).map μ) :=
  congrArg leValue (take_drop_range' μ (by decide))

namespace AgentContextArea

section Ring

variable [KernelLayout] {area : AgentContextArea} {ms : MemorySet}

/-- The area as the user sees it. -/
def view (area : AgentContextArea) (ms : MemorySet) (m : Machine) : ℕ → UInt8 :=
  bufferView m ms.pageTable area.base area.size

/-! ## The law of the ring -/

/-- Where a result goes: behind the last one, or to the start of the ring when it does not fit there. -/
def ringStart (pos len : ℕ) : ℕ := if Layout.toolResultLen < pos + len then 0 else pos

/-- The law of the ring for a sequence of results. `pos` is the end of the last result and `seq` the
sequence number. A result that is longer than the ring is refused, and nothing changes. Any other is
stored in the ring at the place that is returned; then the write position is its end, the sequence
number is two larger, and the other fields are as they were. -/
def RingLaw (area : AgentContextArea) (ms : MemorySet) :
    List (List UInt8) → Machine → ℕ → ℕ → Prop
  | [], _, _, _ => True
  | data :: rest, m, pos, seq =>
    (Layout.toolResultLen < data.length →
      (area.writeToolResult ms data).Returns m none m ∧ RingLaw area ms rest m pos seq) ∧
    (data.length ≤ Layout.toolResultLen → ∃ m',
      (area.writeToolResult ms data).Returns m
        (some (Layout.toolResultOff + ringStart pos data.length, data.length)) m' ∧
      ringStart pos data.length + data.length ≤ Layout.toolResultLen ∧
      Packed.Holds (area.view ms m') (Layout.toolResultOff + ringStart pos data.length) data ∧
      readHeader (area.view ms m') = { AreaHeader.fresh with
        seqNumber := (seq + 2) % 2 ^ 64
        toolResultWritePos := ringStart pos data.length + data.length } ∧
      RingLaw area ms rest m' (ringStart pos data.length + data.length) (seq + 2))

omit [KernelLayout] in
theorem ringStart_add_le (pos : ℕ) {len : ℕ} (h : len ≤ Layout.toolResultLen) :
    ringStart pos len + len ≤ Layout.toolResultLen := by
  unfold ringStart
  split
  · omega
  · rename_i hfits
    exact not_lt.mp hfits

theorem writeToolResult_refused {data : List UInt8} (h : Layout.toolResultLen < data.length)
    (m : Machine) : (area.writeToolResult ms data).Returns m none m := by
  rw [writeToolResult, if_pos h]
  exact Exec.returns_pure.mpr ⟨rfl, rfl⟩

section Mapped

variable (hb : Backed ms.pageTable area.base area.size) (hsize : Layout.pathBufferOff ≤ area.size)
  (hlow : area.base + area.size ≤ 2 ^ 38)

include hb hsize hlow

/-- **What a write does.** The bytes from the offset 20 on are taken as the write position, and changed;
those of the field behind them are left alone. -/
theorem writeToolResult_spec {data : List UInt8} (h : data.length ≤ Layout.toolResultLen)
    (m : Machine) : ∃ m' pos, pos = leValue ((List.range' 20 4).map (area.view ms m)) ∧
      (area.writeToolResult ms data).Returns m
        (some (Layout.toolResultOff + ringStart pos data.length, data.length)) m' ∧
      Packed.Holds (area.view ms m') (Layout.toolResultOff + ringStart pos data.length) data ∧
      Packed.Holds (area.view ms m') 20 (leBytes 4 (ringStart pos data.length + data.length)) ∧
      ∀ k, 24 ≤ k → k < Layout.headerLen → area.view ms m' k = area.view ms m k := by
  simp only [Layout.pathBufferOff] at hsize
  obtain ⟨m₁, h₁, -, hview₁⟩ := readUserBytes_buffer .contextArea hb 0 (List.replicate 256 0) hlow
    (by rw [List.length_replicate]; omega) m
  rw [List.length_replicate, Nat.add_zero] at h₁
  -- the two numbers that are taken from the header
  obtain ⟨pos, hpos⟩ : ∃ pos, pos = leValue ((List.range' 20 4).map (area.view ms m)) := ⟨_, rfl⟩
  obtain ⟨seq, hseq⟩ : ∃ seq, seq = (leValue ((((List.range' 0 256).map
    (bufferView m ms.pageTable area.base area.size)).drop 8).take 8) + 2) % 2 ^ 64 := ⟨_, rfl⟩
  have hcur : leValue ((((List.range' 0 256).map
      (bufferView m ms.pageTable area.base area.size)).drop 20).take 4) = pos := by
    rw [take_drop_range' _ (by decide), hpos]
    rfl
  have hstart := ringStart_add_le pos h
  simp only [Layout.toolResultLen] at h hstart
  obtain ⟨m₂, h₂, -, hholds₂, hframe₂⟩ := writeUserBytes_buffer .contextArea hb
    (Layout.toolResultOff + ringStart pos data.length) data hlow
    (by simp only [Layout.toolResultOff]; omega) m₁
  obtain ⟨m₃, h₃, -, -, hframe₃⟩ := writeUserBytes_buffer .contextArea hb 8 (leBytes 8 seq) hlow
    (by rw [length_leBytes]; omega) m₂
  obtain ⟨m₄, h₄, -, hholds₄, hframe₄⟩ := writeUserBytes_buffer .contextArea hb 20
    (leBytes 4 (ringStart pos data.length + data.length)) hlow (by rw [length_leBytes]; omega) m₃
  rw [length_leBytes] at hframe₃ hframe₄
  refine ⟨m₄, pos, hpos, ?_, hholds₂.congr fun k hk _ ↦ ?_, hholds₄, fun k hk hlt ↦ ?_⟩
  · have hend : (ringStart pos data.length + data.length) % 2 ^ 32 =
        ringStart pos data.length + data.length := Nat.mod_eq_of_lt (by omega)
    have hoff : (Layout.toolResultOff + ringStart pos data.length) % 2 ^ 32 =
        Layout.toolResultOff + ringStart pos data.length :=
      Nat.mod_eq_of_lt (by simp only [Layout.toolResultOff]; omega)
    have hlen : data.length % 2 ^ 32 = data.length := Nat.mod_eq_of_lt (by omega)
    rw [← Nat.add_assoc] at h₂
    rw [← hend] at h₄
    rw [writeToolResult, if_neg (by simp only [Layout.toolResultLen]; omega)]
    refine Exec.Returns.bind h₁ ?_
    dsimp only
    rw [hcur, ← hseq, ← ringStart]
    refine h₂.bind (h₃.bind (h₄.bind (Exec.returns_pure.mpr ⟨?_, rfl⟩)))
    rw [hoff, hlen]
  · simp only [Layout.toolResultOff] at hk
    exact (hframe₄ k (Or.inr (by omega))).trans (hframe₃ k (Or.inr (by omega)))
  · simp only [Layout.headerLen] at hlt
    have h₂₁ := hframe₂ k (Or.inl (by simp only [Layout.toolResultOff]; omega))
    exact (hframe₄ k (Or.inr (by omega))).trans ((hframe₃ k (Or.inr (by omega))).trans
      (h₂₁.trans (congrFun hview₁ k)))

/-- As long as no result was accepted the header is fresh. The first one that is accepted leaves the
write position at zero, where it should be the end of the result; and one of no bytes is put at the end
of the ring instead of its start. -/
theorem ringLaw_iff_of_fresh {m : Machine} (hfresh : Packed.Holds (area.view ms m) 0 areaHeader)
    (results : List (List UInt8)) :
    RingLaw area ms results m 0 0 ↔ ∀ data ∈ results, Layout.toolResultLen < data.length := by
  induction results with
  | nil => exact ⟨fun _ _ h ↦ absurd h List.not_mem_nil, fun _ ↦ trivial⟩
  | cons data rest ih =>
    rw [RingLaw, List.forall_mem_cons]
    constructor
    · rintro ⟨hrefused, haccepted⟩
      by_cases hlong : Layout.toolResultLen < data.length
      · exact ⟨hlong, ih.mp (hrefused hlong).2⟩
      · exfalso
        obtain ⟨m', hlaw, -, -, hheader, -⟩ := haccepted (not_lt.mp hlong)
        obtain ⟨m₁, pos, hpos, hcode, -, -, hframe⟩ :=
          writeToolResult_spec hb hsize hlow (not_lt.mp hlong) m
        obtain ⟨hplace, rfl⟩ := hlaw.det hcode
        have hbefore := readHeader_of_holds hfresh
        -- the field behind the one that was changed is still zero
        have hsame : (List.range' 24 4).map (area.view ms m') =
            (List.range' 24 4).map (area.view ms m) := List.map_congr_left fun k hk ↦ by
          have hk' := List.mem_range'_1.mp hk
          exact hframe k hk'.1 (hk'.2.trans (by decide))
        have hzero : ringStart 0 data.length + data.length = 0 := by
          have hpos' := congrArg AreaHeader.toolResultWritePos hheader
          rw [toolResultWritePos_readHeader, hsame, ← toolResultWritePos_readHeader, hbefore] at hpos'
          exact hpos'.symm
        -- so the result has no bytes, but it was put at the end of the ring
        have hlen : data.length = 0 := by omega
        have hend : pos = Layout.toolResultLen := by
          rw [hpos, ← toolResultLen_readHeader, hbefore]
          rfl
        rw [hlen, hend] at hplace
        exact absurd hplace (by decide)
    · rintro ⟨hlong, hrest⟩
      exact ⟨fun _ ↦ ⟨writeToolResult_refused hlong m, ih.mpr hrest⟩,
        fun hle ↦ absurd hle (not_le.mpr hlong)⟩

/-- A fresh header is stored. -/
theorem initHeader_spec (m : Machine) : ∃ m', (area.initHeader ms).Returns m () m' ∧
    Packed.Holds (area.view ms m') 0 areaHeader := by
  simp only [Layout.pathBufferOff] at hsize
  have hlen : areaHeader.length = 248 := by decide +kernel
  obtain ⟨m', h, -, hholds, -⟩ := writeUserBytes_buffer .contextArea hb 0 areaHeader hlow
    (by omega) m
  rw [Nat.add_zero] at h
  exact ⟨m', h, hholds⟩

/-- **When the ring keeps its law.** After `init_header` a sequence of results is stored by the law of the
ring exactly when none of them is accepted. -/
theorem ringLaw_iff (m : Machine) (results : List (List UInt8)) :
    ∃ m', (area.initHeader ms).Returns m () m' ∧
      (RingLaw area ms results m' 0 0 ↔ ∀ data ∈ results, Layout.toolResultLen < data.length) := by
  obtain ⟨m', h, hholds⟩ := initHeader_spec hb hsize hlow m
  exact ⟨m', h, ringLaw_iff_of_fresh hb hsize hlow hholds results⟩

end Mapped

end Ring

section Sample

attribute [local instance] sampleLayout

/-- An area in the sample page table. -/
def sampleArea : AgentContextArea := ⟨contextAreaBase, contextAreaDefaultSize⟩

/-- The sample machine with a fresh area. -/
def sampleFresh : Machine := (sampleArea.initHeader ⟨samplePageTable, []⟩ sampleMachine).2

/-- Three bytes are stored; the header says that the ring is three bytes long and that nothing is in it. -/
theorem ringLaw_three_bytes :
    (sampleArea.writeToolResult ⟨samplePageTable, []⟩ [1, 2, 3] sampleFresh).1 =
        some (some (0x100, 3)) ∧
      readHeader (sampleArea.view ⟨samplePageTable, []⟩
          (sampleArea.writeToolResult ⟨samplePageTable, []⟩ [1, 2, 3] sampleFresh).2) =
        { AreaHeader.fresh with seqNumber := 2, toolResultLen := 3 } ∧
      ¬RingLaw sampleArea ⟨samplePageTable, []⟩ [[1, 2, 3]] sampleFresh 0 0 := by
  refine ⟨by decide +kernel, by decide +kernel, fun hlaw ↦ ?_⟩
  obtain ⟨m', h, hholds⟩ := @initHeader_spec _ sampleArea ⟨samplePageTable, []⟩
    samplePageTable_mapped.1 (by decide) (by decide) sampleMachine
  have hm : m' = sampleFresh := congrArg Prod.snd h.symm
  have hlong := (ringLaw_iff_of_fresh samplePageTable_mapped.1 (by decide) (by decide)
    (hm ▸ hholds) _).mp hlaw
  exact absurd (hlong _ List.mem_cons_self) (by decide)

/-- The law of the ring for the result of three bytes, after `init_header`. -/
theorem ringLaw_iff_three_bytes :
    ∃ m', (sampleArea.initHeader ⟨samplePageTable, []⟩).Returns sampleMachine () m' ∧
      (RingLaw sampleArea ⟨samplePageTable, []⟩ [[1, 2, 3]] m' 0 0 ↔
        ∀ data ∈ ([[1, 2, 3]] : List (List UInt8)), Layout.toolResultLen < data.length) :=
  @ringLaw_iff _ sampleArea ⟨samplePageTable, []⟩ samplePageTable_mapped.1 (by decide) (by decide)
    sampleMachine [[1, 2, 3]]

end Sample

end AgentContextArea

end AgentOS
