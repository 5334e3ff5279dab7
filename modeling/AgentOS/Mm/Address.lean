import Mathlib

/-!
# Addresses and the layout of memory

SV39 addresses and page numbers, and the constants that place things in the two address spaces.
Virtual addresses, virtual page numbers and physical page numbers are all natural numbers; the
conversions between them carry the masks of the source, so a number that is too wide loses the same
bits here as there.

The kernel reaches every physical page it uses at the virtual address equal to the physical one. Which
pages are mapped there, and how, is fixed at boot by the symbols of the linker script.
-/

namespace AgentOS

/-! ## Constants -/

def pageSize : ℕ := 4096

/-- Two pages. -/
def userStackSize : ℕ := 4096 * 2

def kernelStackSize : ℕ := 4096 * 2

/-- The last page of the address space. -/
def trampoline : ℕ := 2 ^ 64 - 4096

/-- The page below it. -/
def trapContext : ℕ := trampoline - 4096

def memoryEnd : ℕ := 0x88000000

/-- The start and length of each memory-mapped device. -/
def mmio : List (ℕ × ℕ) := [(0x00100000, 0x002000), (0x10001000, 0x001000)]

/-- Where the linker script places the kernel image. -/
def baseAddress : ℕ := 0x80200000

/-! ## Conversions -/

namespace VirtAddr

/-- `VirtAddr::from(usize)` keeps 39 bits. -/
def ofUsize (v : ℕ) : ℕ := v % 2 ^ 39

/-- `usize::from(VirtAddr)` extends the sign, bit 38. -/
def toUsize (v : ℕ) : ℕ := if 2 ^ 38 ≤ v then v ||| (2 ^ 64 - 2 ^ 39) else v

def floor (v : ℕ) : ℕ := v / pageSize

def ceil (v : ℕ) : ℕ := if v = 0 then 0 else (v - 1 + pageSize) / pageSize

def pageOffset (v : ℕ) : ℕ := v % pageSize

end VirtAddr

namespace VirtPageNum

/-- `VirtAddr::from(VirtPageNum)`. -/
def toVirtAddr (vpn : ℕ) : ℕ := vpn * pageSize

/-- The three nine-bit indexes of a page number, the root's first. -/
def indexes (vpn : ℕ) : ℕ × ℕ × ℕ := (vpn / 2 ^ 18 % 512, vpn / 2 ^ 9 % 512, vpn % 512)

end VirtPageNum

theorem VirtAddr.toUsize_of_lt {v : ℕ} (h : v < 2 ^ 38) : VirtAddr.toUsize v = v := by
  rw [VirtAddr.toUsize, if_neg (by omega)]

theorem VirtAddr.ofUsize_of_lt {v : ℕ} (h : v < 2 ^ 39) : VirtAddr.ofUsize v = v :=
  Nat.mod_eq_of_lt h

/-- In the upper half the sign bits are added. -/
theorem VirtAddr.toUsize_of_ge {v : ℕ} (h : 2 ^ 38 ≤ v) (hlt : v < 2 ^ 39) :
    VirtAddr.toUsize v = v + (2 ^ 64 - 2 ^ 39) := by
  have hbits : (2 ^ 64 - 2 ^ 39 : ℕ) = (2 ^ 25 - 1) <<< 39 := by decide
  rw [VirtAddr.toUsize, if_pos h, hbits, Nat.or_comm, ← Nat.shiftLeft_add_eq_or_of_lt hlt,
    Nat.add_comm]

theorem VirtAddr.le_toUsize (v : ℕ) : v ≤ VirtAddr.toUsize v := by
  unfold VirtAddr.toUsize
  split
  · exact Nat.left_le_or
  · exact le_rfl

theorem VirtAddr.floor_ofUsize_lt (v : ℕ) : VirtAddr.floor (VirtAddr.ofUsize v) < 2 ^ 27 := by
  have h : v % 2 ^ 39 < 2 ^ 39 := Nat.mod_lt _ (by norm_num)
  rw [VirtAddr.floor, VirtAddr.ofUsize, pageSize]
  omega

theorem VirtAddr.ceil_ofUsize_le (v : ℕ) : VirtAddr.ceil (VirtAddr.ofUsize v) ≤ 2 ^ 27 := by
  have h : v % 2 ^ 39 < 2 ^ 39 := Nat.mod_lt _ (by norm_num)
  rw [VirtAddr.ceil, VirtAddr.ofUsize, pageSize]
  split <;> omega

/-- The indexes of a 27-bit page number determine it. -/
theorem VirtPageNum.indexes_inj {v w : ℕ} (hv : v < 2 ^ 27) (hw : w < 2 ^ 27)
    (h : VirtPageNum.indexes v = VirtPageNum.indexes w) : v = w := by
  simp only [VirtPageNum.indexes, Prod.mk.injEq] at h
  omega

/-! ## The kernel image -/

/-- The symbols the linker script defines. The sections follow one another, each page-aligned: code
(with the trampoline page in it), read-only data, data, and the zeroed data that ends the image. -/
class KernelLayout where
  strampoline : ℕ
  etext : ℕ
  erodata : ℕ
  edata : ℕ
  ekernel : ℕ
  aligned : strampoline % 4096 = 0 ∧ etext % 4096 = 0 ∧ erodata % 4096 = 0 ∧ edata % 4096 = 0 ∧
    ekernel % 4096 = 0
  strampoline_mem : baseAddress ≤ strampoline ∧ strampoline < etext
  ordered : etext ≤ erodata ∧ erodata ≤ edata ∧ edata ≤ ekernel ∧ ekernel ≤ memoryEnd

namespace KernelLayout

/-- Is the page one of a device's registers? -/
def isMmio (ppn : ℕ) : Bool :=
  mmio.any fun p ↦ p.1 / pageSize ≤ ppn && ppn < (p.1 + p.2) / pageSize

variable [KernelLayout]

/-- Does the kernel address space map this physical page, at its own address, for reading? The
sections of the image and the memory behind it are all readable. -/
def kernelReads (ppn : ℕ) : Bool :=
  (baseAddress / pageSize ≤ ppn && ppn < memoryEnd / pageSize) || isMmio ppn

/-- And for writing? The code and the read-only data are not. -/
def kernelWrites (ppn : ℕ) : Bool :=
  (erodata / pageSize ≤ ppn && ppn < memoryEnd / pageSize) || isMmio ppn

/-- A page of the memory that the frame allocator hands out. -/
def InRam (ppn : ℕ) : Prop := ekernel / pageSize ≤ ppn ∧ ppn < memoryEnd / pageSize

theorem kernelWrites_of_inRam {ppn : ℕ} (h : InRam ppn) : kernelWrites ppn = true := by
  obtain ⟨h1, h2⟩ := h
  have h3 : erodata / pageSize ≤ ekernel / pageSize :=
    Nat.div_le_div_right (ordered.2.1.trans ordered.2.2.1)
  simp only [kernelWrites, Bool.or_eq_true, Bool.and_eq_true, decide_eq_true_eq]
  exact Or.inl ⟨h3.trans h1, h2⟩

theorem kernelReads_of_kernelWrites {ppn : ℕ} (h : kernelWrites ppn = true) :
    kernelReads ppn = true := by
  have h0 := strampoline_mem
  have h1 := ordered
  have h2 : baseAddress / pageSize ≤ erodata / pageSize := Nat.div_le_div_right (by omega)
  simp only [kernelWrites, kernelReads, Bool.or_eq_true, Bool.and_eq_true,
    decide_eq_true_eq] at h ⊢
  exact h.imp_left fun h ↦ ⟨h2.trans h.1, h.2⟩

end KernelLayout

/-- A kernel image of about the size the build produces: its 24 MiB heap lies in the zeroed data. -/
@[reducible] def sampleLayout : KernelLayout where
  strampoline := 0x80201000
  etext := 0x80220000
  erodata := 0x80230000
  edata := 0x80240000
  ekernel := 0x81A60000
  aligned := by decide
  strampoline_mem := by decide
  ordered := by decide

end AgentOS
