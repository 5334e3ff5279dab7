import AgentOS.Syscall.Agent
import AgentOS.Syscall.Process

/-!
# What copies and path operations leave alone

Copies between kernel and user memory, readings of the clock and the operations on a context path
take no page from the allocator and give none back. Path operations change the path fields of the
extension and nothing else in it.
-/

namespace AgentOS

/-- An extension without its path and its loop state: the fields that have to do with events. -/
def AgentExt.sansPath (ext : AgentExt) : AgentExt :=
  { ext with loopState := .idle, pathMeta := [], pathUsedBytes := 0, nextSeq := 0 }

namespace Machine

/-- The allocator is the same. -/
def SameFrames (m m' : Machine) : Prop := m'.frameAllocator = m.frameAllocator

instance : Std.Refl SameFrames := ⟨fun _ ↦ rfl⟩

instance : IsTrans Machine SameFrames := ⟨fun _ _ _ h₁ h₂ ↦ Eq.trans h₂ h₁⟩

theorem getTime_keeps : Exec.Keeps SameFrames getTime :=
  Exec.keeps_bind Exec.keeps_get fun _ ↦
    Exec.keeps_bind (Exec.keeps_modify fun _ ↦ rfl) fun _ ↦ Exec.keeps_pure _

theorem getTimeMs_keeps : Exec.Keeps SameFrames getTimeMs :=
  Exec.keeps_bind getTime_keeps fun _ ↦ Exec.keeps_pure _

/-- A reading of the clock. -/
theorem returns_getTimeMs {m m' : Machine} {now : ℕ} : getTimeMs.Returns m now m' ↔
    now = m.clock 0 / 12500 ∧ m' = { m with clock := fun n ↦ m.clock (n + 1) } := by
  simp only [getTimeMs, getTime, Exec.returns_bind, Exec.returns_get, Exec.returns_modify,
    Exec.returns_pure]
  constructor
  · rintro ⟨_, _, ⟨_, _, ⟨rfl, rfl⟩, _, _, rfl, rfl, rfl⟩, rfl, rfl⟩
    exact ⟨rfl, rfl⟩
  · rintro ⟨rfl, rfl⟩
    exact ⟨_, _, ⟨_, _, ⟨rfl, rfl⟩, (), _, rfl, rfl, rfl⟩, rfl, rfl⟩

end Machine

open Machine

/-! ## Copies -/

section Copies

variable [KernelLayout] (via : Via) (pt : PageTable)

theorem writeUserBytes_keeps (va : ℕ) (data : List UInt8) :
    Exec.Keeps SameFrames (writeUserBytes via pt va data) := by
  intro m _ m' h
  obtain ⟨cs, -, -, rfl⟩ := returns_writeUserBytes.mp h
  rfl

omit [KernelLayout] in
theorem readUserBytes_keeps (va : ℕ) (buf : List UInt8) :
    Exec.Keeps SameFrames (readUserBytes via pt va buf) := by
  intro m _ m' h
  obtain ⟨cs, -, -, -, rfl⟩ := returns_readUserBytes.mp h
  rfl

theorem writeChunks_keeps (cs : List Chunk) (data : List UInt8) :
    Exec.Keeps SameFrames (writeChunks via cs data) := by
  intro m _ m' h
  obtain ⟨-, -, rfl⟩ := returns_writeChunks.mp h
  rfl

omit [KernelLayout] in
theorem readOptional_keeps (ptr len : ℕ) :
    Exec.Keeps SameFrames (Kernel.readOptional pt ptr len) :=
  Exec.keeps_ite (readUserBytes_keeps _ _ _ _) (Exec.keeps_pure _)

theorem writeOut_keeps (ptr value : ℕ) : Exec.Keeps SameFrames (Kernel.writeOut pt ptr value) :=
  Exec.keeps_ite (writeUserBytes_keeps _ _ _ _) (Exec.keeps_pure _)

theorem writeSlice_keeps (c : Chunk) (data : List UInt8) :
    Exec.Keeps SameFrames (writeSlice via c data) :=
  Exec.keeps_ite (Exec.keeps_pure _)
    (Exec.keeps_bind (Exec.keeps_assert _) fun _ ↦ Exec.keeps_modify fun _ ↦ rfl)

theorem storeI32_keeps (ptr : ℕ) (value : ℤ) :
    Exec.Keeps SameFrames (Kernel.storeI32 pt ptr value) :=
  Exec.keeps_bind (Exec.keeps_assert _) fun _ ↦ Exec.keeps_bind (Exec.keeps_unwrap _) fun _ ↦
    writeSlice_keeps _ _ _

end Copies

theorem waitDeadline_keeps (timeoutMs : ℤ) :
    Exec.Keeps SameFrames (Kernel.waitDeadline timeoutMs) :=
  Exec.keeps_ite (Exec.keeps_pure _) (Exec.keeps_bind getTimeMs_keeps fun _ ↦ Exec.keeps_pure _)

/-! ## The context path -/

namespace ContextPath

variable [KernelLayout] (pt : PageTable)

theorem syncHeader_keeps (ext : AgentExt) : Exec.Keeps SameFrames (syncHeader ext pt) :=
  Exec.keeps_bind (writeUserBytes_keeps _ _ _ _) fun _ ↦ writeUserBytes_keeps _ _ _ _

theorem writeNodeAt_keeps (va off seq ts : ℕ) (req resp : List UInt8) :
    Exec.Keeps SameFrames (writeNodeAt pt va off seq ts req resp) :=
  Exec.keeps_bind (writeUserBytes_keeps _ _ _ _) fun _ ↦
    Exec.keeps_bind (writeUserBytes_keeps _ _ _ _) fun _ ↦ writeUserBytes_keeps _ _ _ _

theorem shiftFrom_keeps (va start len shift turns copied : ℕ) (buf : List UInt8) :
    Exec.Keeps SameFrames (shiftFrom pt va start len shift turns copied buf) := by
  induction turns generalizing copied buf with
  | zero => exact Exec.keeps_panic
  | succ turns ih =>
    exact Exec.keeps_ite (Exec.keeps_bind (readUserBytes_keeps _ _ _ _) fun _ ↦
      Exec.keeps_bind (writeUserBytes_keeps _ _ _ _) fun _ ↦ ih _ _) (Exec.keeps_pure _)

theorem shiftPathBufferLeft_keeps (va start len shift : ℕ) :
    Exec.Keeps SameFrames (shiftPathBufferLeft pt va start len shift) :=
  Exec.keeps_ite (Exec.keeps_pure _) (shiftFrom_keeps _ _ _ _ _ _ _ _)

variable {pt} {ext ext' : AgentExt} {m m' : Machine}

theorem evictOne_frame {r : AgentResult Unit} (h : (evictOne ext pt).Returns m (r, ext') m') :
    ext'.sansPath = ext.sansPath ∧ SameFrames m m' := by
  unfold evictOne at h
  split at h
  · obtain ⟨heq, rfl⟩ := Exec.returns_pure.mp h
    obtain ⟨-, rfl⟩ := Prod.mk.inj heq
    exact ⟨rfl, rfl⟩
  · obtain ⟨victim, m₁, hvictim, hrest⟩ := Exec.returns_bind.mp h
    obtain ⟨_, m₂, hshift, hpure⟩ := Exec.returns_bind.mp hrest
    obtain ⟨-, rfl⟩ := Exec.returns_unwrap.mp hvictim
    obtain ⟨heq, rfl⟩ := Exec.returns_pure.mp hpure
    obtain ⟨-, rfl⟩ := Prod.mk.inj heq
    exact ⟨rfl, shiftPathBufferLeft_keeps pt _ _ _ _ _ _ _ hshift⟩

theorem evictUntil_frame {size turns : ℕ} {r : AgentResult Unit}
    (h : (evictUntil pt size turns ext).Returns m (r, ext') m') :
    ext'.sansPath = ext.sansPath ∧ SameFrames m m' := by
  have stay : ∀ {r' : AgentResult Unit} {ext₁ : AgentExt} {m₁ : Machine},
      (pure (r', ext₁) : Exec Machine (AgentResult Unit × AgentExt)).Returns m₁ (r, ext') m' →
        ext' = ext₁ ∧ m' = m₁ := by
    intro r' ext₁ m₁ hpure
    obtain ⟨heq, rfl⟩ := Exec.returns_pure.mp hpure
    exact ⟨(Prod.mk.inj heq).2, rfl⟩
  induction turns generalizing ext m with
  | zero => exact (Exec.returns_panic.mp h).elim
  | succ turns ih =>
    unfold evictUntil at h
    split at h
    · split at h
      · obtain ⟨rfl, rfl⟩ := stay h
        exact ⟨rfl, rfl⟩
      · obtain ⟨⟨r₁, ext₁⟩, m₁, hevict, h⟩ := Exec.returns_bind.mp h
        obtain ⟨hext₁, hm₁⟩ := evictOne_frame hevict
        rcases r₁ with e | ⟨⟩
        · obtain ⟨rfl, rfl⟩ := stay h
          exact ⟨hext₁, hm₁⟩
        · obtain ⟨hext, hm⟩ := ih h
          exact ⟨hext.trans hext₁, hm.trans hm₁⟩
    · obtain ⟨rfl, rfl⟩ := stay h
      exact ⟨rfl, rfl⟩

theorem pushNode_frame {req resp : List UInt8} {r : AgentResult ℕ}
    (h : (pushNode ext pt req resp).Returns m (r, ext') m') :
    ext'.sansPath = ext.sansPath ∧ SameFrames m m' := by
  have stay : ∀ {r' : AgentResult ℕ} {ext₁ : AgentExt} {m₁ : Machine},
      (pure (r', ext₁) : Exec Machine (AgentResult ℕ × AgentExt)).Returns m₁ (r, ext') m' →
        ext' = ext₁ ∧ m' = m₁ := by
    intro r' ext₁ m₁ hpure
    obtain ⟨heq, rfl⟩ := Exec.returns_pure.mp hpure
    exact ⟨(Prod.mk.inj heq).2, rfl⟩
  simp only [pushNode] at h
  split at h
  · obtain ⟨rfl, rfl⟩ := stay h
    exact ⟨rfl, rfl⟩
  split at h
  · obtain ⟨rfl, rfl⟩ := stay h
    exact ⟨rfl, rfl⟩
  obtain ⟨⟨r₁, ext₁⟩, m₁, hevict, h⟩ := Exec.returns_bind.mp h
  obtain ⟨hext₁, hm₁⟩ := evictUntil_frame hevict
  rcases r₁ with e | ⟨⟩
  · obtain ⟨rfl, rfl⟩ := stay h
    exact ⟨hext₁, hm₁⟩
  · obtain ⟨now, m₂, hnow, h⟩ := Exec.returns_bind.mp h
    obtain ⟨_, m₃, hwrite, h⟩ := Exec.returns_bind.mp h
    obtain ⟨_, m₄, hsync, h⟩ := Exec.returns_bind.mp h
    obtain ⟨rfl, rfl⟩ := stay h
    have hm₂ := getTime_keeps _ _ _ hnow
    have hm₃ := writeNodeAt_keeps pt _ _ _ _ _ _ _ _ _ hwrite
    have hm₄ := syncHeader_keeps pt _ _ _ _ hsync
    exact ⟨hext₁, hm₄.trans (hm₃.trans (hm₂.trans hm₁))⟩

omit [KernelLayout] in
theorem truncate_sansPath {nodeCount : ℕ} (h : truncate ext nodeCount = some ext') :
    ext'.sansPath = ext.sansPath := by
  unfold truncate at h
  split at h
  · obtain rfl := Option.some.inj h
    rfl
  · obtain ⟨last, -, rfl⟩ := Option.map_eq_some_iff.mp h
    rfl

theorem rollback_frame {nodeCount : ℕ} {r : AgentResult Unit}
    (h : (rollback ext pt nodeCount).Returns m (r, ext') m') :
    ext'.sansPath = ext.sansPath ∧ SameFrames m m' := by
  unfold rollback at h
  split at h
  · obtain ⟨heq, rfl⟩ := Exec.returns_pure.mp h
    obtain ⟨-, rfl⟩ := Prod.mk.inj heq
    exact ⟨rfl, rfl⟩
  · obtain ⟨ext₁, m₁, hunwrap, hrest⟩ := Exec.returns_bind.mp h
    obtain ⟨_, m₂, hsync, hpure⟩ := Exec.returns_bind.mp hrest
    obtain ⟨htruncate, rfl⟩ := Exec.returns_unwrap.mp hunwrap
    obtain ⟨heq, rfl⟩ := Exec.returns_pure.mp hpure
    obtain ⟨-, rfl⟩ := Prod.mk.inj heq
    exact ⟨truncate_sansPath htruncate, syncHeader_keeps pt _ _ _ _ hsync⟩

theorem clear_frame (h : (clear ext pt).Returns m ext' m') :
    ext'.sansPath = ext.sansPath ∧ SameFrames m m' := by
  obtain ⟨_, m₁, hsync, hpure⟩ := Exec.returns_bind.mp h
  obtain ⟨rfl, rfl⟩ := Exec.returns_pure.mp hpure
  exact ⟨rfl, syncHeader_keeps pt _ _ _ _ hsync⟩

end ContextPath

end AgentOS
