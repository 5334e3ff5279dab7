import AgentOS.Lib.Packed
import AgentOS.Lib.Scatter
import AgentOS.Mm.PageTable

/-!
# Copies between the kernel and a user address space

The kernel reaches user memory by walking the user's page table in software: the range is cut at
page boundaries into slices of physical pages, and the bytes are copied slice by slice. The walk
fails, and the kernel stops, only where it meets an invalid entry above the leaves. An invalid leaf is
taken as it is, and no permission bit is looked at. A slice of a page that the kernel address space
does not map makes the kernel fault when it is touched.

Pointers are the 64-bit values a user passes. Their sum with a length wraps around, as in the
released kernel, and each is cut to 39 bits when it becomes a virtual address and extended again when
it comes back.
-/

namespace AgentOS

open Scatter

/-! ## Slices -/

/-- Part of a physical page, and the page number it was found at. -/
structure Chunk where
  vpn : ℕ
  ppn : ℕ
  lo : ℕ
  hi : ℕ
  deriving DecidableEq, Repr

namespace Chunk

def length (c : Chunk) : ℕ := c.hi - c.lo

/-- The bytes of the slice: physical page and offset. -/
def places (c : Chunk) : List (ℕ × ℕ) := (List.range' c.lo c.length).map fun o ↦ (c.ppn, o)

@[simp] theorem length_places (c : Chunk) : c.places.length = c.length := by simp [places]

end Chunk

namespace PageTable

/-- The loop of `translated_byte_buffer` from `start`, in at most as many turns as the first
argument. -/
def chunksFrom (pt : PageTable) («end» : ℕ) : ℕ → ℕ → Option (List Chunk)
  | 0, _ => none
  | turns + 1, start =>
    if start < «end» then do
      let startVa := VirtAddr.ofUsize start
      let vpn := VirtAddr.floor startVa
      let pte ← pt.translate vpn
      let endVa := min (VirtPageNum.toVirtAddr (vpn + 1)) (VirtAddr.ofUsize «end»)
      let lo := VirtAddr.pageOffset startVa
      let hi := if VirtAddr.pageOffset endVa = 0 then pageSize else VirtAddr.pageOffset endVa
      if lo ≤ hi then do
        let rest ← chunksFrom pt «end» turns (VirtAddr.toUsize endVa)
        some (⟨vpn, pte.ppn, lo, hi⟩ :: rest)
      -- a slice whose bounds are out of order
      else none
    else some []

/-- `translated_byte_buffer`. A loop that ends makes at most two turns more than the range has whole
pages; one that does not end exhausts the heap. -/
def translatedByteBuffer (pt : PageTable) (ptr len : ℕ) : Option (List Chunk) :=
  pt.chunksFrom ((ptr + len) % 2 ^ 64) (len / pageSize + 3) ptr

end PageTable

/-! ## Copies -/

section Copies

variable [KernelLayout]

open KernelLayout

/-- Copy bytes to the front of a slice. -/
def writeSlice (via : Via) (c : Chunk) (data : List UInt8) : Exec Machine Unit :=
  if data.isEmpty then pure ()
  else do
    Exec.assert (kernelWrites c.ppn = true)
    Exec.modify fun m ↦
      { m.setPage c.ppn fun o ↦
          if o < c.lo then m.bytes c.ppn o else data[o - c.lo]?.getD (m.bytes c.ppn o) with
        accesses := ⟨via, true, c.vpn, c.ppn⟩ :: m.accesses }

/-- Copy bytes from the front of a slice. -/
def readSlice (via : Via) (c : Chunk) (n : ℕ) : Exec Machine (List UInt8) :=
  if n = 0 then pure []
  else do
    Exec.assert (kernelReads c.ppn = true)
    let m ← Exec.get
    Exec.modify fun m ↦ { m with accesses := ⟨via, false, c.vpn, c.ppn⟩ :: m.accesses }
    pure ((List.range' c.lo n).map (m.bytes c.ppn))

/-- The copy loop towards the user, and the number of bytes it wrote. -/
def writeChunks (via : Via) : List Chunk → List UInt8 → Exec Machine ℕ
  | [], _ => pure 0
  | c :: cs, data => do
    let n := min c.length data.length
    writeSlice via c (data.take n)
    if data.length ≤ n then pure n
    else do
      let k ← writeChunks via cs (data.drop n)
      pure (n + k)

/-- The copy loop from the user, into a buffer. What it does not reach keeps its contents. -/
def readChunks (via : Via) : List Chunk → List UInt8 → Exec Machine (List UInt8)
  | [], buf => pure buf
  | c :: cs, buf => do
    let n := min c.length buf.length
    let got ← readSlice via c n
    if buf.length ≤ n then pure got
    else do
      let rest ← readChunks via cs (buf.drop n)
      pure (got ++ rest)

def writeUserBytes (via : Via) (pt : PageTable) (userVa : ℕ) (data : List UInt8) :
    Exec Machine Unit := do
  let chunks ← Exec.unwrap (pt.translatedByteBuffer userVa data.length)
  let _ ← writeChunks via chunks data
  pure ()

def readUserBytes (via : Via) (pt : PageTable) (userVa : ℕ) (buf : List UInt8) :
    Exec Machine (List UInt8) := do
  let chunks ← Exec.unwrap (pt.translatedByteBuffer userVa buf.length)
  readChunks via chunks buf

end Copies

/-! ## Memory as a function of places

A place is a physical page and an offset in it. -/

namespace Machine

/-- The byte at a place. -/
def byteAt (m : Machine) (p : ℕ × ℕ) : UInt8 := m.bytes p.1 p.2

/-- The machine after bytes were written to places, and accesses recorded. -/
def written (m : Machine) (ps : List (ℕ × ℕ)) (data : List UInt8) (log : List Access) : Machine :=
  { m with
    bytes := fun f o ↦ scatter ps data m.byteAt (f, o)
    accesses := log ++ m.accesses }

/-- The machine after accesses were recorded. -/
def noted (m : Machine) (log : List Access) : Machine := { m with accesses := log ++ m.accesses }

@[simp] theorem byteAt_written (m : Machine) (ps : List (ℕ × ℕ)) (data : List UInt8)
    (log : List Access) : (m.written ps data log).byteAt = scatter ps data m.byteAt := rfl

@[simp] theorem byteAt_noted (m : Machine) (log : List Access) : (m.noted log).byteAt = m.byteAt :=
  rfl

@[simp] theorem written_frameAllocator (m : Machine) (ps : List (ℕ × ℕ)) (data : List UInt8)
    (log : List Access) : (m.written ps data log).frameAllocator = m.frameAllocator := rfl

@[simp] theorem noted_frameAllocator (m : Machine) (log : List Access) :
    (m.noted log).frameAllocator = m.frameAllocator := rfl

@[simp] theorem written_clock (m : Machine) (ps : List (ℕ × ℕ)) (data : List UInt8)
    (log : List Access) : (m.written ps data log).clock = m.clock := rfl

@[simp] theorem noted_clock (m : Machine) (log : List Access) : (m.noted log).clock = m.clock := rfl

theorem written_written (m : Machine) {ps : List (ℕ × ℕ)} {data : List UInt8}
    (h : ps.length = data.length) (ps' : List (ℕ × ℕ)) (data' : List UInt8)
    (log log' : List Access) :
    (m.written ps data log).written ps' data' log' =
      m.written (ps ++ ps') (data ++ data') (log' ++ log) := by
  simp only [written, scatter_append h, List.append_assoc]
  rfl

theorem noted_noted (m : Machine) (log log' : List Access) :
    (m.noted log).noted log' = m.noted (log' ++ log) := by
  simp [noted]

end Machine

/-! ## What the copy loops do -/

/-- The access that copying to or from a slice is. -/
def Chunk.access (via : Via) (write : Bool) (c : Chunk) : Access := ⟨via, write, c.vpn, c.ppn⟩

/-- The slices that a copy of `n` bytes takes bytes of, in order. -/
def touched : List Chunk → ℕ → List Chunk
  | [], _ => []
  | c :: cs, n =>
    if n ≤ c.length then (if n = 0 then [] else [c])
    else (if c.length = 0 then [] else [c]) ++ touched cs (n - c.length)

/-- The accesses of such a copy, the last one first. -/
def accessesOf (via : Via) (write : Bool) (cs : List Chunk) (n : ℕ) : List Access :=
  ((touched cs n).map (Chunk.access via write)).reverse

/-- The places of a list of slices. -/
def placesOf (cs : List Chunk) : List (ℕ × ℕ) := cs.flatMap Chunk.places

theorem placesOf_cons (c : Chunk) (cs : List Chunk) :
    placesOf (c :: cs) = c.places ++ placesOf cs := by
  simp [placesOf]

section Loops

variable [KernelLayout] {via : Via}

open KernelLayout

theorem returns_writeSlice {c : Chunk} {data : List UInt8} (h : data.length ≤ c.length)
    {m m' : Machine} {u : Unit} :
    (writeSlice via c data).Returns m u m' ↔
      (data ≠ [] → kernelWrites c.ppn = true) ∧
        m' = m.written c.places data (if data = [] then [] else [c.access via true]) := by
  by_cases hdata : data = []
  · subst hdata
    have hw : m.written c.places [] [] = m := by simp [Machine.written, Machine.byteAt]
    simp [writeSlice, hw]
  · have hw : m.written c.places data [c.access via true] =
        { m.setPage c.ppn fun o ↦
            if o < c.lo then m.bytes c.ppn o else data[o - c.lo]?.getD (m.bytes c.ppn o) with
          accesses := c.access via true :: m.accesses } := by
      have hplaces : c.places = (List.range' c.lo data.length).map (fun o ↦ (c.ppn, o)) ++
          (List.range' (c.lo + data.length) (c.length - data.length)).map fun o ↦ (c.ppn, o) := by
        rw [Chunk.places, ← List.map_append, List.range'_append_1]
        congr 2
        omega
      simp only [Machine.written, Machine.setPage, List.singleton_append, Machine.mk.injEq, and_true]
      funext f o
      rw [hplaces, scatter_append_left (by simp)]
      by_cases hf : f = c.ppn
      · subst hf
        rw [if_pos rfl,
          scatter_map_apply (g := fun o ↦ (c.ppn, o)) (fun l _ e ↦ (Prod.mk.inj e).2),
          scatter_range']
        rfl
      · rw [if_neg hf, scatter_of_not_mem]
        · rfl
        · simp only [List.mem_map, Prod.mk.injEq, not_exists, not_and]
          exact fun _ _ e ↦ absurd e.symm hf
    rw [if_neg hdata, hw]
    simp only [writeSlice, List.isEmpty_iff, hdata, if_false, Exec.returns_bind,
      Exec.returns_assert, Exec.returns_modify, Chunk.access, ne_eq, not_false_eq_true,
      forall_const]
    constructor
    · rintro ⟨_, _, ⟨hk, rfl⟩, rfl⟩
      exact ⟨hk, rfl⟩
    · rintro ⟨hk, rfl⟩
      exact ⟨(), m, ⟨hk, rfl⟩, rfl⟩

/-- **The copy loop towards the user.** It returns when the kernel can write the pages of the slices
it gets to, and then it has written the bytes to the places of the slices in order. -/
theorem returns_writeChunks {cs : List Chunk} {data : List UInt8} {m m' : Machine} {k : ℕ} :
    (writeChunks via cs data).Returns m k m' ↔
      (∀ c ∈ touched cs data.length, kernelWrites c.ppn = true) ∧
        k = min (placesOf cs).length data.length ∧
        m' = m.written (placesOf cs) data (accessesOf via true cs data.length) := by
  induction cs generalizing data m m' k with
  | nil =>
    have hw : m.written [] data [] = m := by simp [Machine.written, Machine.byteAt]
    simp [writeChunks, placesOf, touched, accessesOf, hw]
  | cons c cs ih =>
    by_cases hle : data.length ≤ c.length
    · -- the slice takes all there is
      have hscatter : m.written (placesOf (c :: cs)) data
          (accessesOf via true (c :: cs) data.length) =
          m.written c.places data (if data = [] then [] else [c.access via true]) := by
        have hlog : accessesOf via true (c :: cs) data.length =
            if data = [] then [] else [c.access via true] := by
          rw [accessesOf, touched, if_pos hle]
          cases data with
          | nil => rfl
          | cons b bs => rfl
        have hfst : scatter (c.places ++ placesOf cs) data m.byteAt =
            scatter c.places data m.byteAt :=
          scatter_append_left (by rw [Chunk.length_places]; exact hle) _ _
        rw [hlog, placesOf_cons, Machine.written, hfst, Machine.written]
      have hk : min (placesOf (c :: cs)).length data.length = data.length := by
        rw [placesOf_cons, List.length_append, Chunk.length_places]
        omega
      have htouched : (∀ c' ∈ touched (c :: cs) data.length, kernelWrites c'.ppn = true) ↔
          (data ≠ [] → kernelWrites c.ppn = true) := by
        rw [touched, if_pos hle]
        cases data <;> simp
      rw [hscatter, hk, htouched]
      simp only [writeChunks, Nat.min_eq_right hle, List.take_length, le_refl, if_true,
        Exec.returns_bind, returns_writeSlice hle, Exec.returns_pure]
      constructor
      · rintro ⟨_, _, ⟨h₁, rfl⟩, rfl, rfl⟩
        exact ⟨h₁, rfl, rfl⟩
      · rintro ⟨h₁, rfl, rfl⟩
        exact ⟨(), _, ⟨h₁, rfl⟩, rfl, rfl⟩
    · -- the slice is filled, and the rest goes on
      have hlt : c.length < data.length := Nat.lt_of_not_le hle
      have hmin : min c.length data.length = c.length := Nat.min_eq_left hlt.le
      have htake : (data.take c.length).length = c.length := List.length_take_of_le hlt.le
      have hnil : (data.take c.length = []) ↔ c.length = 0 := by
        rw [← List.length_eq_zero_iff, htake]
      have hlog : accessesOf via true (c :: cs) data.length =
          accessesOf via true cs (data.drop c.length).length ++
            (if data.take c.length = [] then [] else [c.access via true]) := by
        simp only [accessesOf, touched, if_neg hle, hnil, List.length_drop, List.map_append,
          List.reverse_append]
        split <;> rfl
      have hscatter : (m.written c.places (data.take c.length)
            (if data.take c.length = [] then [] else [c.access via true])).written
          (placesOf cs) (data.drop c.length)
            (accessesOf via true cs (data.drop c.length).length) =
          m.written (placesOf (c :: cs)) data (accessesOf via true (c :: cs) data.length) := by
        rw [Machine.written_written _ (by rw [Chunk.length_places, htake]), List.take_append_drop,
          placesOf_cons, hlog]
      have htouched : (∀ c' ∈ touched (c :: cs) data.length, kernelWrites c'.ppn = true) ↔
          (data.take c.length ≠ [] → kernelWrites c.ppn = true) ∧
            ∀ c' ∈ touched cs (data.drop c.length).length, kernelWrites c'.ppn = true := by
        simp only [touched, if_neg hle, hnil, ne_eq, List.length_drop]
        split <;> simp [*]
      have hk : min (placesOf (c :: cs)).length data.length =
          c.length + min (placesOf cs).length (data.drop c.length).length := by
        rw [placesOf_cons, List.length_append, Chunk.length_places, List.length_drop]
        omega
      rw [htouched, hk, ← hscatter]
      simp only [writeChunks, hmin, if_neg hle, Exec.returns_bind, returns_writeSlice htake.le, ih,
        Exec.returns_pure]
      constructor
      · rintro ⟨_, _, ⟨h₁, rfl⟩, _, _, ⟨h₂, rfl, rfl⟩, rfl, rfl⟩
        exact ⟨⟨h₁, h₂⟩, rfl, rfl⟩
      · rintro ⟨⟨h₁, h₂⟩, rfl, rfl⟩
        exact ⟨(), _, ⟨h₁, rfl⟩, _, _, ⟨h₂, rfl, rfl⟩, rfl, rfl⟩

omit [KernelLayout] in
theorem returns_readSlice {c : Chunk} {n : ℕ} (h : n ≤ c.length) {m m' : Machine}
    {got : List UInt8} :
    (readSlice via c n).Returns m got m' ↔
      (n ≠ 0 → kernelReads c.ppn = true) ∧ got = (c.places.take n).map m.byteAt ∧
        m' = m.noted (if n = 0 then [] else [c.access via false]) := by
  by_cases hn : n = 0
  · subst hn
    simp [readSlice, Machine.noted]
  · have hgot : (c.places.take n).map m.byteAt = (List.range' c.lo n).map (m.bytes c.ppn) := by
      rw [Chunk.places, ← List.map_take, List.take_range'_of_length_ge h, List.map_map]
      rfl
    rw [hgot]
    simp only [readSlice, hn, if_false, Exec.returns_bind, Exec.returns_assert, Exec.returns_get,
      Exec.returns_modify, Exec.returns_pure, ne_eq, not_false_eq_true, forall_const]
    constructor
    · rintro ⟨_, _, ⟨hk, rfl⟩, _, _, ⟨rfl, rfl⟩, _, _, rfl, rfl, rfl⟩
      exact ⟨hk, rfl, rfl⟩
    · rintro ⟨hk, rfl, rfl⟩
      exact ⟨(), m, ⟨hk, rfl⟩, m, m, ⟨rfl, rfl⟩, (), _, rfl, rfl, rfl⟩

omit [KernelLayout] in
/-- **The copy loop from the user.** It returns when the kernel can read the pages of the slices it
gets to; the buffer then starts with the bytes at the places of the slices in order. -/
theorem returns_readChunks {cs : List Chunk} {buf : List UInt8} {m m' : Machine}
    {got : List UInt8} :
    (readChunks via cs buf).Returns m got m' ↔
      (∀ c ∈ touched cs buf.length, kernelReads c.ppn = true) ∧
        got = ((placesOf cs).take buf.length).map m.byteAt ++ buf.drop (placesOf cs).length ∧
        m' = m.noted (accessesOf via false cs buf.length) := by
  induction cs generalizing buf m m' got with
  | nil => simp [readChunks, placesOf, touched, accessesOf, Machine.noted]
  | cons c cs ih =>
    by_cases hle : buf.length ≤ c.length
    · have hgot : ((placesOf (c :: cs)).take buf.length).map m.byteAt ++
          buf.drop (placesOf (c :: cs)).length = (c.places.take buf.length).map m.byteAt := by
        rw [placesOf_cons, List.take_append_of_le_length (by rw [Chunk.length_places]; exact hle),
          List.drop_eq_nil_of_le, List.append_nil]
        rw [List.length_append, Chunk.length_places]
        omega
      have hlog : accessesOf via false (c :: cs) buf.length =
          if buf.length = 0 then [] else [c.access via false] := by
        rw [accessesOf, touched, if_pos hle]
        split <;> rfl
      have htouched : (∀ c' ∈ touched (c :: cs) buf.length, kernelReads c'.ppn = true) ↔
          (buf.length ≠ 0 → kernelReads c.ppn = true) := by
        rw [touched, if_pos hle]
        split <;> simp [*]
      rw [hgot, hlog, htouched]
      simp only [readChunks, Nat.min_eq_right hle, le_refl, if_true, Exec.returns_bind,
        returns_readSlice hle, Exec.returns_pure]
      constructor
      · rintro ⟨_, _, ⟨h₁, rfl, rfl⟩, rfl, rfl⟩
        exact ⟨h₁, rfl, rfl⟩
      · rintro ⟨h₁, rfl, rfl⟩
        exact ⟨_, _, ⟨h₁, rfl, rfl⟩, rfl, rfl⟩
    · have hlt : c.length < buf.length := Nat.lt_of_not_le hle
      have hmin : min c.length buf.length = c.length := Nat.min_eq_left hlt.le
      have hgot : (c.places.take c.length).map m.byteAt ++
          (((placesOf cs).take (buf.drop c.length).length).map m.byteAt ++
            (buf.drop c.length).drop (placesOf cs).length) =
          ((placesOf (c :: cs)).take buf.length).map m.byteAt ++
            buf.drop (placesOf (c :: cs)).length := by
        have hall : ∀ n, c.length ≤ n → c.places.take n = c.places := fun n h ↦
          List.take_of_length_le (by rw [Chunk.length_places]; exact h)
        rw [placesOf_cons, List.take_append, List.map_append, List.append_assoc,
          List.length_append, Chunk.length_places, List.length_drop, List.drop_drop,
          hall _ le_rfl, hall _ hlt.le]
      have hlog : (m.noted (if c.length = 0 then [] else [c.access via false])).noted
          (accessesOf via false cs (buf.drop c.length).length) =
          m.noted (accessesOf via false (c :: cs) buf.length) := by
        rw [Machine.noted_noted]
        simp only [accessesOf, touched, if_neg hle, List.length_drop, List.map_append,
          List.reverse_append]
        split <;> rfl
      have htouched : (∀ c' ∈ touched (c :: cs) buf.length, kernelReads c'.ppn = true) ↔
          (c.length ≠ 0 → kernelReads c.ppn = true) ∧
            ∀ c' ∈ touched cs (buf.drop c.length).length, kernelReads c'.ppn = true := by
        simp only [touched, if_neg hle, ne_eq, List.length_drop]
        split <;> simp [*]
      rw [htouched, ← hgot, ← hlog]
      simp only [readChunks, hmin, if_neg hle, Exec.returns_bind, returns_readSlice le_rfl, ih,
        Exec.returns_pure]
      constructor
      · rintro ⟨_, _, ⟨h₁, rfl, rfl⟩, _, _, ⟨h₂, rfl, rfl⟩, rfl, rfl⟩
        exact ⟨⟨h₁, h₂⟩, rfl, rfl⟩
      · rintro ⟨⟨h₁, h₂⟩, rfl, rfl⟩
        exact ⟨_, _, ⟨h₁, rfl, rfl⟩, _, _, ⟨h₂, rfl, rfl⟩, rfl, rfl⟩

end Loops

/-! ## Where a range of user addresses lies

A range of addresses is *canonical* when it keeps to the lower or to the upper half of the address
space, where pointers survive the cut to 39 bits. For such a range the walk finds, byte by byte, the
places its addresses are translated to. -/

/-- The range lies in one half of the address space and does not reach its top. -/
def Canonical (ptr len : ℕ) : Prop :=
  ptr + len ≤ 2 ^ 38 ∨ (2 ^ 64 - 2 ^ 38 ≤ ptr ∧ ptr + len < 2 ^ 64)

/-- The page an address lies in. -/
def pageOf (a : ℕ) : ℕ := VirtAddr.floor (VirtAddr.ofUsize a)

namespace PageTable

/-- Where an address is translated to, whatever the flags of the entry. -/
def place (pt : PageTable) (a : ℕ) : ℕ × ℕ :=
  (((pt.translate (pageOf a)).map PageTableEntry.ppn).getD 0, a % pageSize)

/-- Where the addresses of a range are translated to. -/
def userPlaces (pt : PageTable) (ptr len : ℕ) : List (ℕ × ℕ) :=
  (List.range' ptr len).map pt.place

@[simp] theorem length_userPlaces (pt : PageTable) (ptr len : ℕ) :
    (pt.userPlaces ptr len).length = len := by simp [userPlaces]

/-- The slices of a range are its bytes in order, each slice from the page of one of its addresses.
Without slices, some page of the range has no entry. -/
def Slices (pt : PageTable) (ptr len : ℕ) : Option (List Chunk) → Prop
  | some cs => placesOf cs = pt.userPlaces ptr len ∧ ∀ c ∈ cs, 0 < c.length ∧
      (pt.translate c.vpn).map PageTableEntry.ppn = some c.ppn ∧
      ∃ a, ptr ≤ a ∧ a < ptr + len ∧ c.vpn = pageOf a
  | none => ∃ a, ptr ≤ a ∧ a < ptr + len ∧ pt.translate (pageOf a) = none

/-- One turn of the loop: the slice goes up to `t`, the end of the page or of the range. -/
private theorem turn_bounds {start len t : ℕ} (hcan : Canonical start len) (hlen : 0 < len)
    (ht : t = min ((start / pageSize + 1) * pageSize) (start + len)) :
    let endVa := min (VirtPageNum.toVirtAddr (pageOf start + 1)) (VirtAddr.ofUsize (start + len))
    let hi := if VirtAddr.pageOffset endVa = 0 then pageSize else VirtAddr.pageOffset endVa
    hi = start % pageSize + (t - start) ∧
      (VirtAddr.toUsize endVa = t ∨ (t = start + len ∧ t ≤ VirtAddr.toUsize endVa)) := by
  intro endVa hi
  simp only [pageSize] at ht
  rcases hcan with hlow | ⟨hge, hlt⟩
  · have hpage : VirtPageNum.toVirtAddr (pageOf start + 1) = (start / 4096 + 1) * 4096 := by
      rw [pageOf, VirtAddr.ofUsize_of_lt (by omega)]
      rfl
    have hend : endVa = t := by
      show min _ _ = t
      rw [hpage, VirtAddr.ofUsize_of_lt (by omega), ht]
    refine ⟨?_, ?_⟩
    · show (if VirtAddr.pageOffset endVa = 0 then pageSize else VirtAddr.pageOffset endVa) = _
      rw [hend, VirtAddr.pageOffset, pageSize]
      split <;> omega
    · rw [hend]
      by_cases h38 : t < 2 ^ 38
      · exact Or.inl (VirtAddr.toUsize_of_lt h38)
      · exact Or.inr ⟨by omega, VirtAddr.le_toUsize t⟩
  · have hof : ∀ a, 2 ^ 64 - 2 ^ 38 ≤ a → a < 2 ^ 64 →
        VirtAddr.ofUsize a = a - (2 ^ 64 - 2 ^ 39) := by
      intro a ha ha'
      rw [VirtAddr.ofUsize]
      omega
    have hpage : VirtPageNum.toVirtAddr (pageOf start + 1) =
        (start / 4096 + 1) * 4096 - (2 ^ 64 - 2 ^ 39) := by
      rw [pageOf, hof start hge (by omega), VirtAddr.floor, VirtPageNum.toVirtAddr, pageSize]
      omega
    have hend : endVa = t - (2 ^ 64 - 2 ^ 39) := by
      show min _ _ = _
      rw [hpage, hof (start + len) (by omega) hlt, ht]
      omega
    refine ⟨?_, Or.inl ?_⟩
    · show (if VirtAddr.pageOffset endVa = 0 then pageSize else VirtAddr.pageOffset endVa) = _
      rw [hend, VirtAddr.pageOffset, pageSize]
      split <;> omega
    · rw [hend, VirtAddr.toUsize_of_ge (by omega) (by omega)]
      omega

/-- Within one page of a canonical range the page number stays and the offset runs along. -/
private theorem pageOf_eq {start len a : ℕ} (hcan : Canonical start len) (ha : start ≤ a)
    (halt : a < start + len) (hpage : a < (start / pageSize + 1) * pageSize) :
    pageOf a = pageOf start := by
  simp only [pageOf, VirtAddr.floor, VirtAddr.ofUsize, pageSize] at *
  rcases hcan with hlow | ⟨hge, hlt⟩ <;> omega

theorem slices_chunksFrom (pt : PageTable) {start len turns : ℕ} (hcan : Canonical start len)
    (hturns : (start + len + 4095) / 4096 - start / 4096 + 1 ≤ turns) :
    pt.Slices start len (pt.chunksFrom (start + len) turns start) := by
  induction turns generalizing start len with
  | zero => omega
  | succ turns ih =>
    by_cases hlen : len = 0
    · subst hlen
      rw [chunksFrom, if_neg (by omega)]
      exact ⟨rfl, by simp⟩
    obtain ⟨t, ht⟩ : ∃ t, t = min ((start / pageSize + 1) * pageSize) (start + len) := ⟨_, rfl⟩
    have hbounds := turn_bounds hcan (Nat.pos_of_ne_zero hlen) ht
    simp only [pageSize] at ht
    obtain ⟨hhi, hnext⟩ := hbounds
    have hpage : ∀ a, start ≤ a → a < t → pageOf a = pageOf start := fun a ha hat ↦
      pageOf_eq hcan ha (by omega) (by simp only [pageSize]; omega)
    rw [chunksFrom, if_pos (by omega)]
    dsimp only at hhi hnext ⊢
    have hvpn : VirtAddr.floor (VirtAddr.ofUsize start) = pageOf start := rfl
    rw [hvpn]
    cases htr : pt.translate (pageOf start) with
    | none => exact ⟨start, le_rfl, by omega, htr⟩
    | some pte =>
      have hlo : VirtAddr.pageOffset (VirtAddr.ofUsize start) = start % pageSize := by
        simp only [VirtAddr.pageOffset, VirtAddr.ofUsize, pageSize]
        omega
      simp only [Option.bind_eq_bind, Option.bind_some, hlo, hhi]
      rw [if_pos (by omega)]
      -- the places of the slice are those of the addresses up to `t`
      have hplaces : (Chunk.mk (pageOf start) pte.ppn (start % pageSize)
          (start % pageSize + (t - start))).places = pt.userPlaces start (t - start) := by
        simp only [Chunk.places, Chunk.length, Nat.add_sub_cancel_left, userPlaces]
        refine List.ext_getElem (by simp) fun i hi hi' ↦ ?_
        have hlt : i < t - start := by simpa using hi'
        simp only [List.getElem_map, List.getElem_range', Nat.one_mul, place,
          hpage (start + i) (by omega) (by omega), htr]
        refine Prod.ext rfl ?_
        show start % pageSize + i = (start + i) % pageSize
        simp only [pageSize]
        omega
      have hsplit : pt.userPlaces start len =
          pt.userPlaces start (t - start) ++ pt.userPlaces t (start + len - t) := by
        have hst : t = start + (t - start) := by omega
        have hl : len = (t - start) + (start + len - t) := by omega
        simp only [userPlaces, ← List.map_append]
        congr 1
        conv_lhs => rw [hl]
        conv_rhs => rw [hst, ← hst]
        rw [← List.range'_append_1, ← hst]
      have hchunk : 0 < (Chunk.mk (pageOf start) pte.ppn (start % pageSize)
          (start % pageSize + (t - start))).length := by
        simp only [Chunk.length]
        omega
      -- what the loop does from `t` on
      have hrest : pt.Slices t (start + len - t) (pt.chunksFrom (start + len) turns
          (VirtAddr.toUsize (min (VirtPageNum.toVirtAddr (pageOf start + 1))
            (VirtAddr.ofUsize (start + len))))) := by
        by_cases hend : t = start + len
        · have hge : start + len ≤ VirtAddr.toUsize (min (VirtPageNum.toVirtAddr (pageOf start + 1))
              (VirtAddr.ofUsize (start + len))) := by
            rcases hnext with hnext | ⟨-, hge⟩ <;> omega
          have hzero : start + len - t = 0 := by omega
          cases turns with
          | zero => omega
          | succ turns =>
            rw [chunksFrom, if_neg (by omega), hzero]
            exact ⟨rfl, by simp⟩
        · rw [hnext.resolve_right fun h ↦ hend h.1]
          have hcan' : Canonical t (start + len - t) := by
            rcases hcan with hlow | ⟨hlow, hhigh⟩
            · exact Or.inl (by omega)
            · exact Or.inr ⟨by omega, by omega⟩
          have hsum : t + (start + len - t) = start + len := by omega
          have := ih hcan' (by rw [hsum]; omega)
          rwa [hsum] at this
      cases hrec : pt.chunksFrom (start + len) turns (VirtAddr.toUsize
          (min (VirtPageNum.toVirtAddr (pageOf start + 1)) (VirtAddr.ofUsize (start + len)))) with
      | none =>
        rw [hrec] at hrest
        obtain ⟨a, ha, hat, hnone⟩ := hrest
        exact ⟨a, by omega, by omega, hnone⟩
      | some rest =>
        rw [hrec] at hrest
        obtain ⟨hrest₁, hrest₂⟩ := hrest
        refine ⟨?_, fun c hc ↦ ?_⟩
        · rw [placesOf_cons, hplaces, hrest₁, hsplit]
        · rcases List.mem_cons.mp hc with rfl | hc
          · exact ⟨hchunk, by simp [htr], start, le_rfl, by omega, rfl⟩
          · obtain ⟨hpos, htrans, a, ha, hat, hv⟩ := hrest₂ c hc
            exact ⟨hpos, htrans, a, by omega, by omega, hv⟩

/-- **The walk of a canonical range.** -/
theorem slices_translatedByteBuffer (pt : PageTable) {ptr len : ℕ} (hcan : Canonical ptr len) :
    pt.Slices ptr len (pt.translatedByteBuffer ptr len) := by
  have hend : (ptr + len) % 2 ^ 64 = ptr + len := by
    rcases hcan with hlow | ⟨-, hhigh⟩
    · exact Nat.mod_eq_of_lt (by omega)
    · exact Nat.mod_eq_of_lt hhigh
  rw [translatedByteBuffer, hend]
  refine slices_chunksFrom pt hcan ?_
  simp only [pageSize]
  omega

end PageTable

/-! ## Copies in a mapped range -/

section Backed

variable [KernelLayout] {via : Via} {pt : PageTable}

open KernelLayout

theorem returns_writeUserBytes {va : ℕ} {data : List UInt8} {m m' : Machine} {u : Unit} :
    (writeUserBytes via pt va data).Returns m u m' ↔
      ∃ cs, pt.translatedByteBuffer va data.length = some cs ∧
        (∀ c ∈ touched cs data.length, kernelWrites c.ppn = true) ∧
        m' = m.written (placesOf cs) data (accessesOf via true cs data.length) := by
  simp only [writeUserBytes, Exec.returns_bind, Exec.returns_unwrap, returns_writeChunks,
    Exec.returns_pure]
  constructor
  · rintro ⟨cs, _, ⟨hcs, rfl⟩, _, _, ⟨hw, rfl, rfl⟩, -, rfl⟩
    exact ⟨cs, hcs, hw, rfl⟩
  · rintro ⟨cs, hcs, hw, rfl⟩
    exact ⟨cs, m, ⟨hcs, rfl⟩, _, _, ⟨hw, rfl, rfl⟩, trivial, rfl⟩

omit [KernelLayout] in
theorem returns_readUserBytes {va : ℕ} {buf : List UInt8} {m m' : Machine} {got : List UInt8} :
    (readUserBytes via pt va buf).Returns m got m' ↔
      ∃ cs, pt.translatedByteBuffer va buf.length = some cs ∧
        (∀ c ∈ touched cs buf.length, kernelReads c.ppn = true) ∧
        got = ((placesOf cs).take buf.length).map m.byteAt ++ buf.drop (placesOf cs).length ∧
        m' = m.noted (accessesOf via false cs buf.length) := by
  simp only [readUserBytes, Exec.returns_bind, Exec.returns_unwrap, returns_readChunks]
  constructor
  · rintro ⟨cs, _, ⟨hcs, rfl⟩, hr, rfl, rfl⟩
    exact ⟨cs, hcs, hr, rfl, rfl⟩
  · rintro ⟨cs, hcs, hr, rfl, rfl⟩
    exact ⟨cs, m, ⟨hcs, rfl⟩, hr, rfl, rfl⟩

omit [KernelLayout] in
theorem mem_touched {cs : List Chunk} {n : ℕ} {c : Chunk} (h : c ∈ touched cs n) : c ∈ cs := by
  induction cs generalizing n with
  | nil => simp [touched] at h
  | cons c' cs ih =>
    rw [touched] at h
    split at h
    · split at h <;> simp_all
    · rcases List.mem_append.mp h with h | h
      · split at h <;> simp_all
      · exact List.mem_cons_of_mem _ (ih h)

/-- The addresses of the range are mapped to pages the frame allocator hands out, different addresses
to different places. -/
structure Backed (pt : PageTable) (ptr len : ℕ) : Prop where
  mapped : ∀ a, ptr ≤ a → a < ptr + len →
    ∃ pte, pt.translate (pageOf a) = some pte ∧ InRam pte.ppn
  place_inj : ∀ a b, ptr ≤ a → a < ptr + len → ptr ≤ b → b < ptr + len →
    pt.place a = pt.place b → a = b

theorem Backed.sub {ptr len : ℕ} (h : Backed pt ptr len) {ptr' len' : ℕ} (hge : ptr ≤ ptr')
    (hle : ptr' + len' ≤ ptr + len) : Backed pt ptr' len' where
  mapped a ha ha' := h.mapped a (by omega) (by omega)
  place_inj a b ha ha' hb hb' := h.place_inj a b (by omega) (by omega) (by omega) (by omega)

/-- The slices of a mapped range: the walk does not fail, no slice is empty, and the kernel reads and
writes them. -/
theorem chunks_of_backed {ptr len : ℕ} (hcan : Canonical ptr len)
    (hb : Backed pt ptr len) : ∃ cs, pt.translatedByteBuffer ptr len = some cs ∧
      placesOf cs = pt.userPlaces ptr len ∧
      ∀ c ∈ cs, kernelWrites c.ppn = true ∧ 0 < c.length := by
  have hslices := pt.slices_translatedByteBuffer hcan
  cases hcs : pt.translatedByteBuffer ptr len with
  | none =>
    rw [hcs] at hslices
    obtain ⟨a, ha, ha', hnone⟩ := hslices
    obtain ⟨pte, hpte, -⟩ := hb.mapped a ha ha'
    rw [hnone] at hpte
    exact absurd hpte (by simp)
  | some cs =>
    rw [hcs] at hslices
    obtain ⟨hplaces, hmem⟩ := hslices
    refine ⟨cs, rfl, hplaces, fun c hc ↦ ?_⟩
    obtain ⟨hpos, htr, a, ha, ha', hv⟩ := hmem c hc
    obtain ⟨pte, hpte, hram⟩ := hb.mapped a ha ha'
    rw [hv, hpte] at htr
    rw [← Option.some.inj htr]
    exact ⟨kernelWrites_of_inRam hram, hpos⟩

/-- **Writing to a mapped range** returns, and puts the bytes where the addresses are mapped. -/
theorem writeUserBytes_backed (via : Via) {va : ℕ} {data : List UInt8} (hcan : Canonical va data.length)
    (hb : Backed pt va data.length) (m : Machine) :
    ∃ log, (writeUserBytes via pt va data).Returns m ()
      (m.written (pt.userPlaces va data.length) data log) := by
  obtain ⟨cs, hcs, hplaces, hw⟩ := chunks_of_backed hcan hb
  refine ⟨accessesOf via true cs data.length, returns_writeUserBytes.mpr
    ⟨cs, hcs, fun c hc ↦ (hw c (mem_touched hc)).1, ?_⟩⟩
  rw [hplaces]

/-- **Reading from a mapped range** returns the bytes found where the addresses are mapped. -/
theorem readUserBytes_backed (via : Via) {va : ℕ} {buf : List UInt8} (hcan : Canonical va buf.length)
    (hb : Backed pt va buf.length) (m : Machine) :
    ∃ log, (readUserBytes via pt va buf).Returns m ((pt.userPlaces va buf.length).map m.byteAt)
      (m.noted log) := by
  obtain ⟨cs, hcs, hplaces, hw⟩ := chunks_of_backed hcan hb
  refine ⟨accessesOf via false cs buf.length, returns_readUserBytes.mpr
    ⟨cs, hcs, fun c hc ↦ kernelReads_of_kernelWrites (hw c (mem_touched hc)).1, ?_, rfl⟩⟩
  have hlen := pt.length_userPlaces va buf.length
  rw [hplaces, List.take_of_length_le hlen.le, List.drop_eq_nil_of_le hlen.ge, List.append_nil]

/-! ## A mapped range as a buffer -/

/-- The contents of memory from an address on, as the user sees them. -/
def userView (m : Machine) (pt : PageTable) (base k : ℕ) : UInt8 := m.byteAt (pt.place (base + k))

omit [KernelLayout] in
theorem userPlaces_eq_map (pt : PageTable) (base off n : ℕ) :
    pt.userPlaces (base + off) n = (List.range' off n).map fun k ↦ pt.place (base + k) := by
  refine List.ext_getElem (by simp) fun i hi hi' ↦ ?_
  simp only [PageTable.userPlaces, List.getElem_map, List.getElem_range']
  congr 1
  omega

omit [KernelLayout] in
/-- Reading part of a buffer. -/
theorem map_byteAt_userPlaces (m : Machine) (pt : PageTable) (base off n : ℕ) :
    (pt.userPlaces (base + off) n).map m.byteAt =
      (List.range' off n).map (userView m pt base) := by
  rw [userPlaces_eq_map, List.map_map]
  rfl

/-- Writing part of a buffer changes the bytes of that part and no others of the buffer. -/
theorem userView_written {base size off : ℕ} {data : List UInt8} (hb : Backed pt base size)
    (hoff : off + data.length ≤ size) (m : Machine) (log : List Access) {k : ℕ} (hk : k < size) :
    userView (m.written (pt.userPlaces (base + off) data.length) data log) pt base k =
      if k < off then userView m pt base k
      else data[k - off]?.getD (userView m pt base k) := by
  rw [userView, Machine.byteAt_written, userPlaces_eq_map,
    scatter_map_apply (g := fun k ↦ pt.place (base + k)), scatter_range']
  · rfl
  · intro l hl heq
    have hl' := List.mem_range'_1.mp hl
    have := hb.place_inj _ _ (by omega) (by omega) (by omega) (by omega) heq
    omega

/-- The contents of a buffer, with zeros behind its end. -/
def bufferView (m : Machine) (pt : PageTable) (base size k : ℕ) : UInt8 :=
  if k < size then userView m pt base k else 0

/-- **Storing in a mapped buffer.** -/
theorem writeUserBytes_buffer (via : Via) {base size : ℕ} (hb : Backed pt base size) (off : ℕ)
    (data : List UInt8) (hlow : base + size ≤ 2 ^ 38) (hoff : off + data.length ≤ size) (m : Machine) :
    ∃ m', (writeUserBytes via pt (base + off) data).Returns m () m' ∧ m'.clock = m.clock ∧
      Packed.Holds (bufferView m' pt base size) off data ∧
      ∀ k, k < off ∨ off + data.length ≤ k →
        bufferView m' pt base size k = bufferView m pt base size k := by
  have hsub : Backed pt (base + off) data.length := hb.sub (by omega) (by omega)
  obtain ⟨log, h⟩ := writeUserBytes_backed via (Or.inl (by omega)) hsub m
  refine ⟨_, h, rfl, fun i hi ↦ ?_, fun k hk ↦ ?_⟩
  · have hlt : off + i < size := by omega
    rw [bufferView, if_pos hlt, userView_written hb hoff m log hlt, if_neg (by omega),
      Nat.add_sub_cancel_left, List.getElem?_eq_getElem hi, Option.getD_some]
  · unfold bufferView
    split
    · rename_i hlt
      rw [userView_written hb hoff m log hlt]
      split
      · rfl
      · rw [List.getElem?_eq_none (by omega), Option.getD_none]
    · rfl

/-- **Loading from a mapped buffer.** -/
theorem readUserBytes_buffer (via : Via) {base size : ℕ} (hb : Backed pt base size) (off : ℕ)
    (buf : List UInt8) (hlow : base + size ≤ 2 ^ 38) (hoff : off + buf.length ≤ size) (m : Machine) :
    ∃ m', (readUserBytes via pt (base + off) buf).Returns m
        ((List.range' off buf.length).map (bufferView m pt base size)) m' ∧ m'.clock = m.clock ∧
      bufferView m' pt base size = bufferView m pt base size := by
  have hsub : Backed pt (base + off) buf.length := hb.sub (by omega) (by omega)
  obtain ⟨log, h⟩ := readUserBytes_backed via (Or.inl (by omega)) hsub m
  rw [map_byteAt_userPlaces] at h
  have hview : (List.range' off buf.length).map (bufferView m pt base size) =
      (List.range' off buf.length).map (userView m pt base) :=
    List.map_congr_left fun k hk ↦ by
      have hk' := List.mem_range'_1.mp hk
      rw [bufferView, if_pos (by omega)]
  exact ⟨m.noted log, by rwa [hview], rfl, rfl⟩

end Backed

end AgentOS
