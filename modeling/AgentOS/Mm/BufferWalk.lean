import AgentOS.Agent.ContextArea

/-!
# The walk over a user range

Here is when the walk ends, and what the copies it serves do. The loop compares `start` and `end` as 64-bit values, but each turn cuts both to 39 bits. For the
pointers the cut leaves alone a turn goes forward to the end of the page or of the range. For others it
may go back, or stay where it is for ever. Which ranges the loop gets through, going forward at every
turn, is decided by the two ends of the range.
-/

namespace AgentOS

namespace PageTable

/-! ## One turn -/

/-- Where the loop goes on after a turn at `start`. -/
def nextStart («end» start : ℕ) : ℕ :=
  VirtAddr.toUsize (min (VirtPageNum.toVirtAddr (VirtAddr.floor (VirtAddr.ofUsize start) + 1))
    (VirtAddr.ofUsize «end»))

/-- The bounds of the slice of that turn. -/
def sliceBounds («end» start : ℕ) : ℕ × ℕ :=
  let endVa := min (VirtPageNum.toVirtAddr (VirtAddr.floor (VirtAddr.ofUsize start) + 1))
    (VirtAddr.ofUsize «end»)
  (VirtAddr.pageOffset (VirtAddr.ofUsize start),
    if VirtAddr.pageOffset endVa = 0 then pageSize else VirtAddr.pageOffset endVa)

theorem chunksFrom_of_ge (pt : PageTable) {e x : ℕ} (h : e ≤ x) (turns : ℕ) :
    pt.chunksFrom e (turns + 1) x = some [] := by
  rw [chunksFrom, if_neg (not_lt.mpr h)]

theorem chunksFrom_of_lt (pt : PageTable) {e x : ℕ} (h : x < e) (turns : ℕ) :
    pt.chunksFrom e (turns + 1) x =
      (pt.translate (pageOf x)).bind fun pte ↦
        if (sliceBounds e x).1 ≤ (sliceBounds e x).2 then
          (pt.chunksFrom e turns (nextStart e x)).map
            (⟨pageOf x, pte.ppn, (sliceBounds e x).1, (sliceBounds e x).2⟩ :: ·)
        else none := by
  rw [chunksFrom, if_pos h]
  simp only [Option.bind_eq_bind, Option.map_eq_bind]
  rfl

/-- The turn in numbers: `y` is where the slice ends, cut to 39 bits. -/
theorem nextStart_eq (e x : ℕ) : ∃ y, y = min ((x % 2 ^ 39 / 4096 + 1) * 4096) (e % 2 ^ 39) ∧
    nextStart e x = (if y < 2 ^ 38 then y else y + (2 ^ 64 - 2 ^ 39)) ∧
    sliceBounds e x = (x % 4096, if y % 4096 = 0 then 4096 else y % 4096) := by
  refine ⟨_, rfl, ?_, ?_⟩
  · have hlt : min ((x % 2 ^ 39 / 4096 + 1) * 4096) (e % 2 ^ 39) < 2 ^ 39 := by omega
    split
    · exact VirtAddr.toUsize_of_lt ‹_›
    · exact VirtAddr.toUsize_of_ge (not_lt.mp ‹_›) hlt
  · have hoff : x % 2 ^ 39 % 4096 = x % 4096 := Nat.mod_mod_of_dvd x (by decide)
    exact Prod.ext hoff rfl

/-- The values of `start` the loop gets to. -/
inductive Visits («end» ptr : ℕ) : ℕ → Prop
  | first : Visits «end» ptr ptr
  | next {start : ℕ} (h : Visits «end» ptr start) (hlt : start < «end») :
      Visits «end» ptr (nextStart «end» start)

/-- The pointer survives the cut to 39 bits. -/
def Survives (a : ℕ) : Prop := a < 2 ^ 38 ∨ 2 ^ 64 - 2 ^ 38 ≤ a

theorem survives_nextStart (e x : ℕ) : Survives (nextStart e x) := by
  obtain ⟨y, hy, hnext, -⟩ := nextStart_eq e x
  rw [hnext, Survives]
  split <;> omega

/-- A turn that goes forward, and takes no more bytes than it goes forward or are left. -/
structure Forward (e x : ℕ) : Prop where
  lt_next : x < nextStart e x
  bounds : (sliceBounds e x).1 ≤ (sliceBounds e x).2
  le_next : (sliceBounds e x).2 - (sliceBounds e x).1 + x ≤ nextStart e x
  le_end : (sliceBounds e x).2 - (sliceBounds e x).1 + x ≤ e
  next_page : e ≤ nextStart e x ∨ x / 4096 + 1 ≤ nextStart e x / 4096

/-! ## The loop -/

/-- The end of the range, as the 64-bit sum gives it. -/
def rangeEnd (ptr len : ℕ) : ℕ := (ptr + len) % 2 ^ 64

theorem rangeEnd_sub_le (ptr len : ℕ) : rangeEnd ptr len - ptr ≤ len := by
  unfold rangeEnd
  omega

/-- **A loop of turns forward ends**, and its slices have no more bytes than the range. The induction
is on the pages that the range still touches. -/
theorem chunksFrom_returns (pt : PageTable) {e turns x : ℕ}
    (hpos : 0 < turns) (hturns : x < e → (e + 4095) / 4096 - x / 4096 + 1 ≤ turns)
    (hforward : ∀ z, Visits e x z → z < e → Forward e z)
    (hmapped : ∀ z, Visits e x z → z < e → (pt.translate (pageOf z)).isSome) :
    ∃ cs, pt.chunksFrom e turns x = some cs ∧ (cs.map Chunk.length).sum ≤ e - x := by
  induction turns generalizing x with
  | zero => omega
  | succ turns ih =>
    by_cases hlt : x < e
    · have hturn := hforward x .first hlt
      obtain ⟨pte, hpte⟩ := Option.isSome_iff_exists.mp (hmapped x .first hlt)
      -- what the next turn visits, this one visits too
      have hlate : ∀ z, Visits e (nextStart e x) z → Visits e x z := by
        intro z hz
        induction hz with
        | first => exact .next .first hlt
        | next _ hlt' ih => exact ih.next hlt'
      have hleft := hturns hlt
      have hpages : nextStart e x < e →
          (e + 4095) / 4096 - nextStart e x / 4096 + 1 ≤ turns := fun hnext ↦ by
        have hpage := hturn.next_page.resolve_left (not_le.mpr hnext)
        omega
      obtain ⟨cs, hcs, hsum⟩ := ih (by omega) hpages (fun z hz ↦ hforward z (hlate z hz))
        fun z hz ↦ hmapped z (hlate z hz)
      refine ⟨⟨pageOf x, pte.ppn, (sliceBounds e x).1, (sliceBounds e x).2⟩ :: cs, ?_, ?_⟩
      · rw [chunksFrom_of_lt pt hlt, hpte, Option.bind_some, if_pos hturn.bounds, hcs]
        rfl
      · have hle := hturn.le_next
        have hend := hturn.le_end
        rw [List.map_cons, List.sum_cons]
        simp only [Chunk.length] at hsum ⊢
        omega
    · exact ⟨[], chunksFrom_of_ge pt (not_lt.mp hlt) turns, by simp⟩

/-- A loop that stays before the end does not end. -/
theorem chunksFrom_eq_none (pt : PageTable) {e : ℕ} (hstuck : ∀ x, nextStart e x < e) (turns : ℕ)
    {x : ℕ} (hx : x < e) : pt.chunksFrom e turns x = none := by
  induction turns generalizing x with
  | zero => rfl
  | succ turns ih =>
    rw [chunksFrom_of_lt pt hx, ih (hstuck x)]
    cases pt.translate (pageOf x) <;> simp

/-! ## Which ranges the loop gets through -/

/-- A pointer that does not survive the cut may be the start only if it is cut to the upper half, or to
the last page of the lower half, so that the first turn goes to the upper half. There the slice runs to
the end of a page, or its bounds are in order. -/
def StartsForward («end» ptr : ℕ) : Prop :=
  Survives ptr ∨ (2 ^ 38 - 4096 ≤ ptr % 2 ^ 39 ∧
    (ptr % 2 ^ 39 ≤ «end» % 2 ^ 39 ∨ «end» % 4096 = 0 ∨ ptr % 4096 ≤ «end» % 4096))

/-- The loop gets to the end when the end survives the cut, or is cut to the upper half. -/
def EndReached («end» : ℕ) : Prop := Survives «end» ∨ 2 ^ 38 ≤ «end» % 2 ^ 39

/-- The ranges the loop gets through: the empty ones, and those with two good ends. -/
def GoesThrough (ptr len : ℕ) : Prop :=
  rangeEnd ptr len ≤ ptr ∨
    (EndReached (rangeEnd ptr len) ∧ StartsForward (rangeEnd ptr len) ptr)

instance (ptr len : ℕ) : Decidable (GoesThrough ptr len) := by
  unfold GoesThrough EndReached StartsForward Survives
  infer_instance

/-- From a pointer that survives the cut a turn goes forward. -/
theorem forward_of_survives {e x : ℕ} (he : EndReached e) (he64 : e < 2 ^ 64) (hx : Survives x)
    (hlt : x < e) : Forward e x := by
  obtain ⟨y, hy, hnext, hslice⟩ := nextStart_eq e x
  unfold EndReached Survives at he
  unfold Survives at hx
  have hhi : (sliceBounds e x).1 = x % 4096 ∧
      (sliceBounds e x).2 = if y % 4096 = 0 then 4096 else y % 4096 := by
    rw [hslice]
    exact ⟨rfl, rfl⟩
  obtain ⟨h1, h2⟩ := hhi
  constructor
  · rw [hnext]
    split <;> omega
  · rw [h1, h2]
    split <;> omega
  · rw [h1, h2, hnext]
    split <;> split <;> omega
  · rw [h1, h2]
    split <;> omega
  · rw [hnext]
    split <;> omega

/-- From any other start the first turn goes to the upper half. -/
theorem forward_of_startsForward {e x : ℕ} (he : EndReached e) (he64 : e < 2 ^ 64)
    (hx : StartsForward e x) (hlt : x < e) : Forward e x := by
  rcases hx with hx | ⟨hhigh, horder⟩
  · exact forward_of_survives he he64 hx hlt
  by_cases hsurv : Survives x
  · exact forward_of_survives he he64 hsurv hlt
  obtain ⟨y, hy, hnext, hslice⟩ := nextStart_eq e x
  unfold EndReached Survives at he
  unfold Survives at hsurv
  have h1 : (sliceBounds e x).1 = x % 4096 := by rw [hslice]
  have h2 : (sliceBounds e x).2 = if y % 4096 = 0 then 4096 else y % 4096 := by rw [hslice]
  have hy38 : 2 ^ 38 ≤ y := by omega
  rw [if_neg (by omega)] at hnext
  constructor
  · omega
  · rw [h1, h2]
    split <;> omega
  · rw [h1, h2, hnext]
    split <;> omega
  · rw [h1, h2]
    split <;> omega
  · rw [hnext]
    omega

/-- What the loop visits is the start or survives the cut. -/
theorem eq_or_survives_of_visits {e x z : ℕ} (h : Visits e x z) : z = x ∨ Survives z := by
  cases h with
  | first => exact Or.inl rfl
  | next _ _ => exact Or.inr (survives_nextStart e _)

theorem forward_of_goesThrough {ptr len z : ℕ} (h : GoesThrough ptr len)
    (hv : Visits (rangeEnd ptr len) ptr z) (hlt : z < rangeEnd ptr len) :
    Forward (rangeEnd ptr len) z := by
  have he64 : rangeEnd ptr len < 2 ^ 64 := Nat.mod_lt _ (by decide)
  rcases h with hempty | ⟨hend, hstart⟩
  · -- an empty range has no turn
    cases hv with
    | first => omega
    | next hv' hlt' =>
      have hfirst : ∀ z, Visits (rangeEnd ptr len) ptr z → z = ptr := by
        intro z hz
        induction hz with
        | first => rfl
        | next _ hlt ih => omega
      have := hfirst _ hv'
      omega
  · rcases eq_or_survives_of_visits hv with rfl | hsurv
    · exact forward_of_startsForward hend he64 hstart hlt
    · exact forward_of_survives hend he64 hsurv hlt

/-- Every turn of the walk goes forward, and the walk ends with slices of no more than `len` bytes. -/
def Walks (pt : PageTable) (ptr len : ℕ) : Prop :=
  (∀ z, Visits (rangeEnd ptr len) ptr z → z < rangeEnd ptr len →
    z < nextStart (rangeEnd ptr len) z) ∧
  ∃ turns cs, pt.chunksFrom (rangeEnd ptr len) turns ptr = some cs ∧ (cs.map Chunk.length).sum ≤ len

/-- A range the loop gets through, within the turns that `translatedByteBuffer` allows it. -/
theorem translatedByteBuffer_of_goesThrough (pt : PageTable) {ptr len : ℕ}
    (hmapped : ∀ z, Visits (rangeEnd ptr len) ptr z → z < rangeEnd ptr len →
      (pt.translate (pageOf z)).isSome) (h : GoesThrough ptr len) :
    ∃ cs, pt.translatedByteBuffer ptr len = some cs ∧ (cs.map Chunk.length).sum ≤ len := by
  have hlen := rangeEnd_sub_le ptr len
  have hturns : (rangeEnd ptr len + 4095) / 4096 - ptr / 4096 + 1 ≤ len / pageSize + 3 := by
    simp only [pageSize]
    omega
  obtain ⟨cs, hcs, hsum⟩ := pt.chunksFrom_returns (Nat.succ_pos _) (fun _ ↦ hturns)
    (fun z hz hlt ↦ forward_of_goesThrough h hz hlt) hmapped
  exact ⟨cs, hcs, hsum.trans hlen⟩

theorem goesThrough_of_walks {pt : PageTable} {ptr len : ℕ} (h : pt.Walks ptr len) :
    GoesThrough ptr len := by
  obtain ⟨hforward, turns, cs, hcs, -⟩ := h
  by_cases hempty : rangeEnd ptr len ≤ ptr
  · exact Or.inl hempty
  have hlt := not_le.mp hempty
  refine Or.inr ⟨?_, ?_⟩
  · -- an end that is cut to the lower half is never reached
    by_contra hend
    have hstuck : ∀ x, nextStart (rangeEnd ptr len) x < rangeEnd ptr len := by
      intro x
      obtain ⟨y, hy, hnext, -⟩ := nextStart_eq (rangeEnd ptr len) x
      unfold EndReached Survives at hend
      rw [hnext, if_pos (by omega)]
      omega
    rw [pt.chunksFrom_eq_none hstuck turns hlt] at hcs
    exact absurd hcs (by simp)
  · obtain ⟨y, hy, hnext, hslice⟩ := nextStart_eq (rangeEnd ptr len) ptr
    have hahead := hforward ptr .first hlt
    have hbounds : (sliceBounds (rangeEnd ptr len) ptr).1 ≤
        (sliceBounds (rangeEnd ptr len) ptr).2 := by
      by_contra hout
      cases turns with
      | zero => exact absurd hcs (by simp [chunksFrom])
      | succ turns =>
        rw [chunksFrom_of_lt pt hlt] at hcs
        obtain ⟨pte, -, hcs⟩ := Option.bind_eq_some_iff.mp hcs
        rw [if_neg hout] at hcs
        exact absurd hcs (by simp)
    rw [hslice] at hbounds
    rw [hnext] at hahead
    dsimp only at hbounds
    unfold StartsForward
    by_cases hsurv : Survives ptr
    · exact Or.inl hsurv
    · right
      unfold Survives at hsurv
      have hhigh : 2 ^ 38 ≤ y := by
        by_contra hlow
        rw [if_pos (by omega)] at hahead
        omega
      refine ⟨by omega, ?_⟩
      split at hbounds <;> omega

/-- **When the walk over a user range ends.** The pages it looks up have entries. Then it goes forward at
every turn and ends, with slices of no more bytes than were asked for, exactly for the ranges with two
good ends; and for these it takes no more turns than `translatedByteBuffer` allows. -/
theorem walks_iff (pt : PageTable) {ptr len : ℕ}
    (hmapped : ∀ z, Visits (rangeEnd ptr len) ptr z → z < rangeEnd ptr len →
      (pt.translate (pageOf z)).isSome) :
    (pt.Walks ptr len ↔ GoesThrough ptr len) ∧
      (GoesThrough ptr len → ∃ cs, pt.translatedByteBuffer ptr len = some cs ∧
        (cs.map Chunk.length).sum ≤ len) := by
  refine ⟨⟨goesThrough_of_walks, fun h ↦ ?_⟩, pt.translatedByteBuffer_of_goesThrough hmapped⟩
  obtain ⟨cs, hcs, hsum⟩ := pt.translatedByteBuffer_of_goesThrough hmapped h
  exact ⟨fun z hz hlt ↦ (forward_of_goesThrough h hz hlt).lt_next, _, cs, hcs, hsum⟩

/-- Three nodes, and behind every page number a page of physical memory, its last nine bits deciding
which. -/
def samplePages : PageTable where
  rootPpn := 0x82000
  frames := [0x82000, 0x82001, 0x82002]
  nodes node idx :=
    if node = 0x82000 then .new 0x82001 PTEFlags.V
    else if node = 0x82001 then .new 0x82002 PTEFlags.V
    else .new (0x82010 + idx) (PTEFlags.V ||| PTEFlags.R ||| PTEFlags.W ||| PTEFlags.U)

theorem translate_samplePages (vpn : ℕ) : samplePages.translate vpn =
    some (.new (0x82010 + vpn % 512) (PTEFlags.V ||| PTEFlags.R ||| PTEFlags.W ||| PTEFlags.U)) := by
  have hroot : ∀ i, samplePages.child 0x82000 i = some 0x82001 := fun _ ↦ (by decide : samplePages.child 0x82000 0 = some 0x82001)
  have hmid : ∀ i, samplePages.child 0x82001 i = some 0x82002 := fun _ ↦ (by decide : samplePages.child 0x82001 0 = some 0x82002)
  have hnode : samplePages.node [(VirtPageNum.indexes vpn).1, (VirtPageNum.indexes vpn).2.1] =
      some 0x82002 := (congrArg (Option.bind · _) (hroot _)).trans (hmid _)
  rw [translate_eq, hnode]
  rfl

/-- Every page is mapped here, and a range of one byte is asked for. The first turn goes to the address
that its end is cut to, and from there the loop does not move. -/
theorem walk_stuck : (∀ vpn, (samplePages.translate vpn).isSome) ∧
    nextStart (rangeEnd (2 ^ 39) 1) (2 ^ 39) = 1 ∧ nextStart (rangeEnd (2 ^ 39) 1) 1 = 1 ∧
    (∀ turns, samplePages.chunksFrom (rangeEnd (2 ^ 39) 1) turns (2 ^ 39) = none) ∧
    ¬samplePages.Walks (2 ^ 39) 1 := by
  refine ⟨fun vpn ↦ ?_, by decide, by decide, fun turns ↦ ?_, fun h ↦ ?_⟩
  · rw [translate_samplePages]
    rfl
  · refine samplePages.chunksFrom_eq_none (fun x ↦ ?_) turns (by decide)
    have hend : rangeEnd (2 ^ 39) 1 = 2 ^ 39 + 1 := by decide
    obtain ⟨y, hy, hnext, -⟩ := nextStart_eq (rangeEnd (2 ^ 39) 1) x
    rw [hnext]
    split <;> omega
  · exact absurd (goesThrough_of_walks h) (by decide)

theorem walks_samplePages : samplePages.Walks 4090 10 ∧
    ∃ cs, samplePages.translatedByteBuffer 4090 10 = some cs ∧ (cs.map Chunk.length).sum ≤ 10 := by
  have h := @walks_iff samplePages 4090 10 fun z _ _ ↦ by
    rw [translate_samplePages]
    rfl
  exact ⟨h.1.mpr (by decide), h.2 (by decide)⟩

end PageTable

/-! ## What the walk copies -/

section Copies

variable [KernelLayout] {pt : PageTable} {ptr len : ℕ}

open KernelLayout

omit [KernelLayout] in
/-- In the lower half an address is its page and its offset. -/
theorem eq_of_pageOf_eq {a b : ℕ} (ha : a < 2 ^ 38) (hb : b < 2 ^ 38) (hpage : pageOf a = pageOf b)
    (hoff : a % pageSize = b % pageSize) : a = b := by
  simp only [pageOf, VirtAddr.floor, VirtAddr.ofUsize, pageSize] at hpage hoff
  omega

/-- Pages in different frames back a range of the lower half. -/
theorem Backed.of_distinct (hlow : ptr + len ≤ 2 ^ 38)
    (hmapped : ∀ a, ptr ≤ a → a < ptr + len →
      ∃ pte, pt.translate (pageOf a) = some pte ∧ InRam pte.ppn)
    (hdistinct : ∀ a b, ptr ≤ a → a < ptr + len → ptr ≤ b → b < ptr + len →
      (pt.place a).1 = (pt.place b).1 → pageOf a = pageOf b) : Backed pt ptr len where
  mapped := hmapped
  place_inj a b ha ha' hb hb' heq := by
    obtain ⟨hframe, hoff⟩ := Prod.mk.inj heq
    exact eq_of_pageOf_eq (by omega) (by omega) (hdistinct a b ha ha' hb hb' hframe) hoff

omit [KernelLayout] in
/-- The slices of a range are its bytes in order. -/
theorem translatedByteBuffer_places (hlow : ptr + len ≤ 2 ^ 38)
    (hmapped : ∀ a, ptr ≤ a → a < ptr + len → ∃ pte, pt.translate (pageOf a) = some pte) :
    ∃ cs, pt.translatedByteBuffer ptr len = some cs ∧ placesOf cs = pt.userPlaces ptr len := by
  have hslices := pt.slices_translatedByteBuffer (Or.inl hlow : Canonical ptr len)
  cases hcs : pt.translatedByteBuffer ptr len with
  | none =>
    rw [hcs] at hslices
    obtain ⟨a, ha, ha', hnone⟩ := hslices
    obtain ⟨pte, hpte⟩ := hmapped a ha ha'
    rw [hnone] at hpte
    exact absurd hpte (by simp)
  | some cs =>
    rw [hcs] at hslices
    exact ⟨cs, rfl, hslices.1⟩

omit [KernelLayout] in
theorem length_placesOf (cs : List Chunk) : (placesOf cs).length = (cs.map Chunk.length).sum := by
  simp only [placesOf, List.length_flatMap, Chunk.length_places]

/-- **Copies into and out of a range of the lower half**, whose pages are in different frames. The slices
of the walk are the bytes of the range in order. Writing returns and sets these bytes and no others,
and reading returns what was written. -/
theorem copies_exact (hlow : ptr + len ≤ 2 ^ 38)
    (hmapped : ∀ a, ptr ≤ a → a < ptr + len →
      ∃ pte, pt.translate (pageOf a) = some pte ∧ InRam pte.ppn)
    (hdistinct : ∀ a b, ptr ≤ a → a < ptr + len → ptr ≤ b → b < ptr + len →
      (pt.place a).1 = (pt.place b).1 → pageOf a = pageOf b) (m : Machine) :
    (∃ cs, pt.translatedByteBuffer ptr len = some cs ∧ (cs.map Chunk.length).sum = len ∧
      ∀ k < len, (placesOf cs)[k]? = some (pt.place (ptr + k))) ∧
    ∀ (via via' : Via) (data : List UInt8), data.length = len →
      ∃ m', (writeUserBytes via pt ptr data).Returns m () m' ∧
        (∀ k (hk : k < data.length), m'.byteAt (pt.place (ptr + k)) = data[k]) ∧
        (∀ p, (∀ a, ptr ≤ a → a < ptr + len → p ≠ pt.place a) → m'.byteAt p = m.byteAt p) ∧
        ∀ buf : List UInt8, buf.length = len →
          ∃ m'', (readUserBytes via' pt ptr buf).Returns m' data m'' ∧ m''.byteAt = m'.byteAt := by
  refine ⟨?_, fun via via' data hdata ↦ ?_⟩
  · obtain ⟨cs, hcs, hplaces⟩ := translatedByteBuffer_places hlow fun a ha ha' ↦
      (hmapped a ha ha').imp fun _ h ↦ h.1
    refine ⟨cs, hcs, ?_, fun k hk ↦ ?_⟩
    · rw [← length_placesOf, hplaces, PageTable.length_userPlaces]
    · rw [hplaces, PageTable.userPlaces, List.getElem?_map, List.getElem?_range' hk]
      simp
  · subst hdata
    have hb := Backed.of_distinct hlow hmapped hdistinct
    have hcan : Canonical ptr data.length := Or.inl hlow
    obtain ⟨log, hwrite⟩ := writeUserBytes_backed via hcan hb m
    have hbyte : ∀ k (hk : k < data.length),
        (m.written (pt.userPlaces ptr data.length) data log).byteAt (pt.place (ptr + k)) =
          data[k] := by
      intro k hk
      have h := userView_written hb (Nat.zero_add data.length).le m log hk
      rw [if_neg (Nat.not_lt_zero k), Nat.sub_zero, List.getElem?_eq_getElem hk] at h
      exact h
    refine ⟨_, hwrite, hbyte, fun p hp ↦ ?_, fun buf hbuf ↦ ?_⟩
    · rw [Machine.byteAt_written]
      refine Scatter.scatter_of_not_mem (fun hmem ↦ ?_) _ _
      obtain ⟨a, ha, heq⟩ := List.mem_map.mp hmem
      have ha' := List.mem_range'_1.mp ha
      exact hp a ha'.1 ha'.2 heq.symm
    · obtain ⟨log', hread⟩ := readUserBytes_backed via'
        (hbuf ▸ hcan : Canonical ptr buf.length) (hbuf ▸ hb)
        (m.written (pt.userPlaces ptr data.length) data log)
      refine ⟨_, ?_, Machine.byteAt_noted _ log'⟩
      have hgot : (pt.userPlaces ptr buf.length).map
          (m.written (pt.userPlaces ptr data.length) data log).byteAt = data := by
        refine List.ext_getElem (by simp [hbuf]) fun k hk hk' ↦ ?_
        rw [List.getElem_map, ← hbyte k hk']
        simp [PageTable.userPlaces]
      rwa [hgot] at hread

end Copies

open PageTable in
attribute [local instance] sampleLayout in
/-- Ten bytes across the end of the first page, into two pages of memory. -/
theorem copies_samplePages : ∃ m', (writeUserBytes .userPtr samplePages 4090
      [1, 2, 3, 4, 5, 6, 7, 8, 9, 10]).Returns sampleMachine () m' ∧
    m'.byteAt (0x82010, 4095) = 6 ∧ m'.byteAt (0x82011, 0) = 7 ∧ m'.byteAt (0x82011, 4) = 0 := by
  have hppn : ∀ vpn, (samplePages.translate vpn).map PageTableEntry.ppn =
      some (0x82010 + vpn % 512) := fun vpn ↦ by
    rw [translate_samplePages, Option.map_some,
      PageTableEntry.ppn_new (by omega) (by decide)]
  obtain ⟨m', hwrite, hbyte, hother, -⟩ := (@copies_exact sampleLayout samplePages 4090 10
    (by decide) (fun a _ _ ↦ ⟨_, translate_samplePages _, by
      rw [PageTableEntry.ppn_new (by omega) (by decide)]
      exact ⟨(by omega : 0x81A60 ≤ _), (by omega : _ < 0x88000)⟩⟩)
    (fun a b _ _ _ _ h ↦ by
      simp only [place, hppn, Option.getD_some] at h
      simp only [pageOf, VirtAddr.floor, VirtAddr.ofUsize, pageSize] at h ⊢
      omega) sampleMachine).2 .userPtr .userPtr [1, 2, 3, 4, 5, 6, 7, 8, 9, 10] rfl
  refine ⟨m', hwrite, hbyte 5 (by decide), hbyte 6 (by decide), hother _ fun a ha ha' h ↦ ?_⟩
  simp only [place, hppn, Option.getD_some, pageSize, Prod.mk.injEq] at h
  omega

end AgentOS
