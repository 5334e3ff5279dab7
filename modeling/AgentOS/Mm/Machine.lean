import AgentOS.Lib.Exec
import AgentOS.Mm.Address

/-!
# The machine the kernel runs on

The contents of the physical pages, the allocator that hands them out, and the clock. A page that
holds a page-table node is described by the table it belongs to (`PageTable.nodes`), and only pages
that hold data by their bytes here: a page has one use at a time.

The clock is the stream of its future readings, so a kernel function stays a function although two
readings within it may differ. Whether the clock goes backwards is a hypothesis on the stream.

`accesses` is not part of the machine. It records which pages the kernel touched through an address
in a user's address space, for statements about page protection.
-/

namespace AgentOS

/-- `StackFrameAllocator`. Pages from `current` to `end` have never been handed out; `recycled`
holds the returned ones, the next to be handed out first. -/
structure StackFrameAllocator where
  current : ℕ
  «end» : ℕ
  recycled : List ℕ
  current_le : current ≤ «end»
  deriving DecidableEq, Repr

/-- Which pointer a copy between kernel and user memory goes through: one that the user passed to a
system call, or the address of the context area that the kernel itself chose. -/
inductive Via where
  | userPtr
  | contextArea
  deriving DecidableEq, Repr

/-- The kernel read or wrote bytes of the page `vpn` of the current address space, found at the
physical page `ppn`. -/
structure Access where
  via : Via
  write : Bool
  vpn : ℕ
  ppn : ℕ
  deriving DecidableEq, Repr

structure Machine where
  /-- The bytes of each physical page. -/
  bytes : ℕ → ℕ → UInt8
  frameAllocator : StackFrameAllocator
  /-- Future readings of the `time` register. -/
  clock : ℕ → ℕ
  accesses : List Access

namespace StackFrameAllocator

def init (l r : ℕ) (h : l ≤ r) : StackFrameAllocator := ⟨l, r, [], h⟩

/-- The page handed out next, and the allocator without it. -/
def alloc (fa : StackFrameAllocator) : Option (ℕ × StackFrameAllocator) :=
  match fa.recycled with
  | ppn :: rest => some (ppn, { fa with recycled := rest })
  | [] =>
    if h : fa.current = fa.end then none
    else some (fa.current,
      { fa with
        current := fa.current + 1
        current_le := Nat.lt_of_le_of_ne fa.current_le h })

/-- Take a page back. `none` when it is not one that is handed out. -/
def dealloc (fa : StackFrameAllocator) (ppn : ℕ) : Option StackFrameAllocator :=
  if fa.current ≤ ppn ∨ ppn ∈ fa.recycled then none
  else some { fa with recycled := ppn :: fa.recycled }

/-- How often the allocator still holds a page: among the returned ones and among those never handed
out. -/
def free (fa : StackFrameAllocator) (ppn : ℕ) : ℕ :=
  fa.recycled.count ppn + if fa.current ≤ ppn ∧ ppn < fa.end then 1 else 0

/-- How many pages it can still hand out. -/
def available (fa : StackFrameAllocator) : ℕ := fa.recycled.length + (fa.end - fa.current)

/-- The page handed out is one the allocator held, and it holds it no longer. -/
theorem free_alloc {fa fa' : StackFrameAllocator} {ppn : ℕ} (h : fa.alloc = some (ppn, fa'))
    (f : ℕ) : fa'.free f + (if ppn = f then 1 else 0) = fa.free f := by
  unfold alloc at h
  split at h
  · rename_i p rest hrec
    obtain ⟨rfl, rfl⟩ : p = ppn ∧ { fa with recycled := rest } = fa' := by simpa using h
    simp only [free, hrec, List.count_cons, beq_iff_eq]
    split <;> split <;> omega
  · rename_i hrec
    split at h
    · exact absurd h (by simp)
    · rename_i hne
      simp only [Option.some.injEq, Prod.mk.injEq] at h
      obtain ⟨rfl, rfl⟩ := h
      have := fa.current_le
      simp only [free, hrec, List.count_nil]
      split <;> split <;> split <;> omega

/-- A returned page is back. -/
theorem free_dealloc {fa fa' : StackFrameAllocator} {ppn : ℕ} (h : fa.dealloc ppn = some fa')
    (f : ℕ) : fa'.free f = fa.free f + (if ppn = f then 1 else 0) := by
  unfold dealloc at h
  split at h
  · exact absurd h (by simp)
  · obtain rfl : { fa with recycled := ppn :: fa.recycled } = fa' := by simpa using h
    simp only [free, List.count_cons, beq_iff_eq]
    split <;> split <;> omega

/-- As long as pages are left, the next one is handed out. -/
theorem alloc_of_available {fa : StackFrameAllocator} (h : 0 < fa.available) :
    ∃ ppn fa', fa.alloc = some (ppn, fa') ∧ fa'.available + 1 = fa.available := by
  unfold alloc
  split
  · rename_i p rest hrec
    refine ⟨p, _, rfl, ?_⟩
    simp only [available, hrec, List.length_cons]
    omega
  · rename_i hrec
    have hle := fa.current_le
    simp only [available, hrec, List.length_nil] at h ⊢
    have hne : ¬fa.current = fa.end := by omega
    refine ⟨fa.current, _, dif_neg hne, ?_⟩
    show _ + 1 = _
    simp only [List.length_nil]
    omega

end StackFrameAllocator

namespace Machine

/-- Change the bytes of a physical page. -/
def setPage (m : Machine) (ppn : ℕ) (page : ℕ → UInt8) : Machine :=
  { m with bytes := fun f ↦ if f = ppn then page else m.bytes f }

/-- `frame_alloc().unwrap()`: the tracker of a new page clears it. -/
def frameAlloc : Exec Machine ℕ := do
  let m ← Exec.get
  let (ppn, fa) ← Exec.unwrap m.frameAllocator.alloc
  Exec.modify fun m ↦ { m.setPage ppn fun _ ↦ 0 with frameAllocator := fa }
  pure ppn

/-- Dropping a `FrameTracker`. -/
def frameDealloc (ppn : ℕ) : Exec Machine Unit := do
  let m ← Exec.get
  let fa ← Exec.unwrap (m.frameAllocator.dealloc ppn)
  Exec.modify fun m ↦ { m with frameAllocator := fa }

/-- Dropping several trackers, in order. -/
def frameDeallocAll : List ℕ → Exec Machine Unit
  | [] => pure ()
  | ppn :: rest => do
    frameDealloc ppn
    frameDeallocAll rest

/-- `get_time`. -/
def getTime : Exec Machine ℕ := do
  let m ← Exec.get
  Exec.modify fun m ↦ { m with clock := fun n ↦ m.clock (n + 1) }
  pure (m.clock 0)

/-- `get_time_ms`: the clock runs at 12.5 MHz. -/
def getTimeMs : Exec Machine ℕ := do
  let t ← getTime
  pure (t / 12500)

/-! ## What the primitives do -/

theorem returns_frameAlloc {m m' : Machine} {ppn : ℕ} :
    frameAlloc.Returns m ppn m' ↔ ∃ fa, m.frameAllocator.alloc = some (ppn, fa) ∧
      m' = { m.setPage ppn fun _ ↦ 0 with frameAllocator := fa } := by
  simp only [frameAlloc, Exec.returns_bind, Exec.returns_get, Exec.returns_unwrap,
    Exec.returns_modify, Exec.returns_pure]
  constructor
  · rintro ⟨a, t, ⟨rfl, rfl⟩, ⟨p, fa⟩, t', ⟨hp, rfl⟩, u, t'', rfl, rfl, rfl⟩
    exact ⟨fa, hp, rfl⟩
  · rintro ⟨fa, hp, rfl⟩
    exact ⟨m, m, ⟨rfl, rfl⟩, (ppn, fa), m, ⟨hp, rfl⟩, (), _, rfl, rfl, rfl⟩

theorem returns_frameDealloc {m m' : Machine} {ppn : ℕ} {u : Unit} :
    (frameDealloc ppn).Returns m u m' ↔ ∃ fa, m.frameAllocator.dealloc ppn = some fa ∧
      m' = { m with frameAllocator := fa } := by
  simp only [frameDealloc, Exec.returns_bind, Exec.returns_get, Exec.returns_unwrap,
    Exec.returns_modify]
  constructor
  · rintro ⟨a, t, ⟨rfl, rfl⟩, fa, t', ⟨hp, rfl⟩, rfl⟩
    exact ⟨fa, hp, rfl⟩
  · rintro ⟨fa, hp, rfl⟩
    exact ⟨m, m, ⟨rfl, rfl⟩, fa, m, ⟨hp, rfl⟩, rfl⟩

/-! ## Pages in use -/

/-- How often the allocator still holds a page. -/
def free (m : Machine) (ppn : ℕ) : ℕ := m.frameAllocator.free ppn

/-- From `m` to `m'`, pages were taken from the allocator and filled, and nothing else happened:
every page in use before keeps its bytes. -/
structure Extends (m m' : Machine) : Prop where
  free_le : ∀ f, m'.free f ≤ m.free f
  bytes : ∀ f, m.free f = 0 → m'.bytes f = m.bytes f
  clock : m'.clock = m.clock
  accesses : m'.accesses = m.accesses

theorem Extends.refl (m : Machine) : Extends m m :=
  ⟨fun _ ↦ le_refl _, fun _ _ ↦ rfl, rfl, rfl⟩

theorem Extends.trans {m₁ m₂ m₃ : Machine} (h₁ : Extends m₁ m₂) (h₂ : Extends m₂ m₃) :
    Extends m₁ m₃ where
  free_le f := (h₂.free_le f).trans (h₁.free_le f)
  bytes f hf := by
    have hf₂ : m₂.free f = 0 := Nat.le_zero.mp (hf ▸ h₁.free_le f)
    rw [h₂.bytes f hf₂, h₁.bytes f hf]
  clock := h₂.clock.trans h₁.clock
  accesses := h₂.accesses.trans h₁.accesses

/-- What an allocation does to the accounting: the page leaves the allocator. -/
theorem free_of_frameAlloc {m m' : Machine} {ppn : ℕ} (h : frameAlloc.Returns m ppn m') (f : ℕ) :
    m'.free f + (if ppn = f then 1 else 0) = m.free f := by
  obtain ⟨fa, hfa, rfl⟩ := returns_frameAlloc.mp h
  exact StackFrameAllocator.free_alloc hfa f

theorem extends_of_frameAlloc {m m' : Machine} {ppn : ℕ} (h : frameAlloc.Returns m ppn m') :
    Extends m m' := by
  have hfree := free_of_frameAlloc h
  obtain ⟨fa, hfa, rfl⟩ := returns_frameAlloc.mp h
  refine ⟨fun f ↦ ?_, fun f hf ↦ ?_, rfl, rfl⟩
  · have := hfree f
    omega
  · have hne : f ≠ ppn := by
      rintro rfl
      have := hfree f
      simp only [if_true] at this
      omega
    exact if_neg hne

/-- A page is handed out as long as one is left. -/
theorem frameAlloc_returns {m : Machine} (h : 0 < m.frameAllocator.available) :
    ∃ ppn m', frameAlloc.Returns m ppn m' ∧
      m'.frameAllocator.available + 1 = m.frameAllocator.available := by
  obtain ⟨ppn, fa, hfa, hav⟩ := StackFrameAllocator.alloc_of_available h
  exact ⟨ppn, _, returns_frameAlloc.mpr ⟨fa, hfa, rfl⟩, hav⟩

/-- A page that is handed out can be given back. -/
theorem frameDealloc_returns {m : Machine} {f : ℕ} (hfree : m.free f = 0) (hend : f < m.frameAllocator.end) :
    ∃ fa, (frameDealloc f).Returns m () { m with frameAllocator := fa } ∧
      fa.end = m.frameAllocator.end := by
  have hout : ¬(m.frameAllocator.current ≤ f ∨ f ∈ m.frameAllocator.recycled) := by
    rw [free, StackFrameAllocator.free] at hfree
    rintro (hle | hmem)
    · rw [if_pos ⟨hle, hend⟩] at hfree
      omega
    · have := List.count_pos_iff.mpr hmem
      omega
  have hdealloc : m.frameAllocator.dealloc f =
      some { m.frameAllocator with recycled := f :: m.frameAllocator.recycled } := if_neg hout
  exact ⟨_, returns_frameDealloc.mpr ⟨_, hdealloc, rfl⟩, rfl⟩

/-- What a deallocation does: the page is back with the allocator, and nothing else changes. -/
theorem free_of_frameDealloc {m m' : Machine} {ppn : ℕ} {u : Unit}
    (h : (frameDealloc ppn).Returns m u m') :
    (∀ f, m'.free f = m.free f + if ppn = f then 1 else 0) ∧ m'.bytes = m.bytes ∧
      m'.clock = m.clock ∧ m'.accesses = m.accesses := by
  obtain ⟨fa, hfa, rfl⟩ := returns_frameDealloc.mp h
  exact ⟨StackFrameAllocator.free_dealloc hfa, rfl, rfl, rfl⟩

theorem free_of_frameDeallocAll {fs : List ℕ} {m m' : Machine} {u : Unit}
    (h : (frameDeallocAll fs).Returns m u m') :
    (∀ f, m'.free f = m.free f + fs.count f) ∧ m'.bytes = m.bytes ∧
      m'.clock = m.clock ∧ m'.accesses = m.accesses := by
  induction fs generalizing m with
  | nil =>
    obtain ⟨-, rfl⟩ := Exec.returns_pure.mp h
    simp
  | cons ppn rest ih =>
    obtain ⟨_, m₁, h₁, h₂⟩ := Exec.returns_bind.mp h
    obtain ⟨hfree₁, hb₁, hc₁, ha₁⟩ := free_of_frameDealloc h₁
    obtain ⟨hfree₂, hb₂, hc₂, ha₂⟩ := ih h₂
    refine ⟨fun f ↦ ?_, hb₂.trans hb₁, hc₂.trans hc₁, ha₂.trans ha₁⟩
    rw [hfree₂, hfree₁, List.count_cons]
    simp only [beq_iff_eq]
    omega

/-- The pages in the list and the pages the allocator holds are all different, and an entry of a
page table can name them. -/
def Separate (m : Machine) (fs : List ℕ) : Prop :=
  ∀ f, fs.count f + m.free f ≤ 1 ∧ (0 < fs.count f + m.free f → f < 2 ^ 44)

/-- From `m` to `m'`, pages moved between the allocator and the list, and none got lost. -/
def Conserves (m : Machine) (fs : List ℕ) (m' : Machine) (fs' : List ℕ) : Prop :=
  ∀ f, fs'.count f + m'.free f = fs.count f + m.free f

theorem Conserves.refl (m : Machine) (fs : List ℕ) : m.Conserves fs m fs := fun _ ↦ rfl

theorem Conserves.trans {m₁ m₂ m₃ : Machine} {fs₁ fs₂ fs₃ : List ℕ} (h₁ : m₁.Conserves fs₁ m₂ fs₂)
    (h₂ : m₂.Conserves fs₂ m₃ fs₃) : m₁.Conserves fs₁ m₃ fs₃ :=
  fun f ↦ (h₂ f).trans (h₁ f)

/-- Pages held elsewhere may be counted in. -/
theorem Conserves.append {m m' : Machine} {fs fs' : List ℕ} (h : m.Conserves fs m' fs')
    (gs : List ℕ) : m.Conserves (fs ++ gs) m' (fs' ++ gs) := fun f ↦ by
  have := h f
  simp only [List.count_append]
  omega

theorem conserves_frameAlloc {m m' : Machine} {ppn : ℕ} (h : frameAlloc.Returns m ppn m')
    (fs : List ℕ) : m.Conserves fs m' (fs ++ [ppn]) := fun f ↦ by
  have := free_of_frameAlloc h f
  simp only [List.count_append, List.count_singleton, beq_iff_eq]
  omega

theorem conserves_frameDeallocAll {fs : List ℕ} {m m' : Machine} {u : Unit}
    (h : (frameDeallocAll fs).Returns m u m') (gs : List ℕ) :
    m.Conserves (fs ++ gs) m' gs := fun f ↦ by
  have := (free_of_frameDeallocAll h).1 f
  simp only [List.count_append]
  omega

theorem Separate.conserves {m m' : Machine} {fs fs' : List ℕ} (h : m.Separate fs)
    (hc : m.Conserves fs m' fs') : m'.Separate fs' := fun f ↦ by
  rw [hc f]
  exact h f

theorem Separate.mono {m : Machine} {fs gs : List ℕ} (h : m.Separate gs)
    (hle : ∀ f, fs.count f ≤ gs.count f) : m.Separate fs := fun f ↦ by
  obtain ⟨h₁, h₂⟩ := h f
  have := hle f
  exact ⟨by omega, fun hpos ↦ h₂ (by omega)⟩

theorem Separate.nodup {m : Machine} {fs : List ℕ} (h : m.Separate fs) : fs.Nodup :=
  List.nodup_iff_count_le_one.mpr fun f ↦ by
    have := (h f).1
    omega

theorem Separate.lt {m : Machine} {fs : List ℕ} (h : m.Separate fs) {f : ℕ} (hf : f ∈ fs) :
    f < 2 ^ 44 := by
  have := List.count_pos_iff.mpr hf
  exact (h f).2 (by omega)

/-- A page just handed out is none of those in use. -/
theorem Separate.frameAlloc {m m' : Machine} {fs : List ℕ} {ppn : ℕ} (h : m.Separate fs)
    (ha : frameAlloc.Returns m ppn m') : ppn ∉ fs ∧ ppn < 2 ^ 44 := by
  have hppn := free_of_frameAlloc ha ppn
  simp only [if_true] at hppn
  obtain ⟨h₁, h₂⟩ := h ppn
  refine ⟨fun hmem ↦ ?_, h₂ (by omega)⟩
  have := List.count_pos_iff.mpr hmem
  omega

end Machine

end AgentOS
