import Mathlib
import AgentOS.Lib.LittleEndian

/-!
# Values in a byte buffer

A layout says how the values of a type lie in memory: how many bytes they take, how they are read and
what writing one does. Two laws make it one: what was written is read back, and nothing beyond its
bytes is read or written. Padding is what a layout neither reads nor writes.

Layouts are put together from those of the fields, and used at an offset of a buffer. With the two laws
values at disjoint places do not disturb each other.
-/

/-- How the values of `T` lie in memory. -/
structure ByteLayout (T : Type) where
  /-- The number of bytes a value takes, padding included. -/
  size : ℕ
  get : (ℕ → UInt8) → T
  set : T → (ℕ → UInt8) → ℕ → UInt8
  get_set : ∀ v b, get (set v b) = v
  get_congr : ∀ {b c}, (∀ i < size, b i = c i) → get b = get c
  set_of_le : ∀ v b {i}, size ≤ i → set v b i = b i

namespace ByteLayout

open LittleEndian

variable {T U : Type}

/-! ## At an offset -/

/-- The value at an offset. -/
def getAt (L : ByteLayout T) (off : ℕ) (b : ℕ → UInt8) : T := L.get fun i ↦ b (off + i)

/-- Write a value at an offset. -/
def setAt (L : ByteLayout T) (off : ℕ) (v : T) (b : ℕ → UInt8) : ℕ → UInt8 := fun i ↦
  if off ≤ i then L.set v (fun j ↦ b (off + j)) (i - off) else b i

theorem setAt_add (L : ByteLayout T) (off : ℕ) (v : T) (b : ℕ → UInt8) (i : ℕ) :
    L.setAt off v b (off + i) = L.set v (fun j ↦ b (off + j)) i := by
  rw [setAt, if_pos (Nat.le_add_right off i), Nat.add_sub_cancel_left]

theorem getAt_setAt (L : ByteLayout T) (off : ℕ) (v : T) (b : ℕ → UInt8) :
    L.getAt off (L.setAt off v b) = v := by
  rw [getAt, funext (L.setAt_add off v b), L.get_set]

/-- Writing a value changes only its own bytes. -/
theorem setAt_of_outside (L : ByteLayout T) {off i : ℕ} (v : T) (b : ℕ → UInt8)
    (h : i < off ∨ off + L.size ≤ i) : L.setAt off v b i = b i := by
  rw [setAt]
  split
  · have hle : L.size ≤ i - off := by omega
    have hi : off + (i - off) = i := by omega
    rw [L.set_of_le v _ hle, hi]
  · rfl

theorem getAt_congr (L : ByteLayout T) {off : ℕ} {b c : ℕ → UInt8}
    (h : ∀ i, off ≤ i → i < off + L.size → b i = c i) : L.getAt off b = L.getAt off c :=
  L.get_congr fun i hi ↦ h (off + i) (by omega) (by omega)

theorem getAt_setAt_of_disjoint (L : ByteLayout T) (L' : ByteLayout U) {off off' : ℕ} (v : U)
    (b : ℕ → UInt8) (h : off + L.size ≤ off' ∨ off' + L'.size ≤ off) :
    L.getAt off (L'.setAt off' v b) = L.getAt off b :=
  L.getAt_congr fun i _ _ ↦ L'.setAt_of_outside v b (by omega)

/-! ## The layouts of the basic types -/

/-- A byte. -/
def u8 : ByteLayout UInt8 where
  size := 1
  get b := b 0
  set v b i := if i = 0 then v else b i
  get_set _ _ := if_pos rfl
  get_congr h := h 0 Nat.one_pos
  set_of_le _ _ _ h := if_neg (by omega)

/-- An unsigned integer of `k` bytes, least significant byte first. -/
def word (k : ℕ) (toNat : T → ℕ) (ofNat : ℕ → T) (h : ∀ v, ofNat (toNat v % 256 ^ k) = v) :
    ByteLayout T where
  size := k
  get b := ofNat (leValue ((List.range k).map b))
  set v b i := (leBytes k (toNat v)).getD i (b i)
  get_set v b := by
    have hbytes : ((List.range k).map fun i ↦ (leBytes k (toNat v)).getD i (b i)) =
        leBytes k (toNat v) := by
      refine List.ext_getElem (by simp) fun i hi hi' ↦ ?_
      simp only [List.getElem_map, List.getElem_range]
      exact (List.getElem_eq_getD _).symm
    rw [hbytes, leValue_leBytes, h]
  get_congr h := by
    congr 2
    exact List.map_congr_left fun i hi ↦ h i (List.mem_range.mp hi)
  set_of_le v b i h := List.getD_eq_default _ _ (by simpa using h)

/-- `u32`. -/
def u32 : ByteLayout UInt32 :=
  word 4 UInt32.toNat UInt32.ofNat fun v ↦ by
    rw [Nat.mod_eq_of_lt (by simpa using v.toNat_lt), UInt32.ofNat_toNat]

/-- `u64`. -/
def u64 : ByteLayout UInt64 :=
  word 8 UInt64.toNat UInt64.ofNat fun v ↦ by
    rw [Nat.mod_eq_of_lt (by simpa using v.toNat_lt), UInt64.ofNat_toNat]

@[simp] theorem size_u8 : u8.size = 1 := rfl

@[simp] theorem size_u32 : u32.size = 4 := rfl

@[simp] theorem size_u64 : u64.size = 8 := rfl

/-! ## Composition -/

/-- One value behind the other. -/
def prod (L : ByteLayout T) (L' : ByteLayout U) : ByteLayout (T × U) where
  size := L.size + L'.size
  get b := (L.get b, L'.getAt L.size b)
  set v b := L'.setAt L.size v.2 (L.set v.1 b)
  get_set v b := by
    have hfst : L.get (L'.setAt L.size v.2 (L.set v.1 b)) = v.1 := by
      rw [← L.get_set v.1 b]
      refine L.get_congr fun i hi ↦ ?_
      rw [L'.setAt_of_outside _ _ (Or.inl hi), L.get_set]
    rw [hfst, getAt_setAt]
  get_congr h := by
    rw [L.get_congr fun i hi ↦ h i (by omega), L'.getAt_congr fun i _ hi ↦ h i hi]
  set_of_le v b i h := by
    rw [L'.setAt_of_outside _ _ (Or.inr h), L.set_of_le _ _ (by omega)]

/-- Bytes nobody reads or writes. -/
def pad (n : ℕ) : ByteLayout Unit where
  size := n
  get _ := ()
  set _ b := b
  get_set _ _ := rfl
  get_congr _ := rfl
  set_of_le _ _ _ _ := rfl

/-- The same bytes read as another type. -/
def map (L : ByteLayout T) (e : T ≃ U) : ByteLayout U where
  size := L.size
  get b := e (L.get b)
  set v b := L.set (e.symm v) b
  get_set v b := by rw [L.get_set, Equiv.apply_symm_apply]
  get_congr h := by rw [L.get_congr h]
  set_of_le v b _ h := L.set_of_le _ b h

/-- `[T; n]`. -/
def array (n : ℕ) (L : ByteLayout T) (hpos : 0 < L.size) : ByteLayout (Vector T n) where
  size := n * L.size
  get b := Vector.ofFn fun i : Fin n ↦ L.get fun j ↦ b (i * L.size + j)
  set v b i :=
    if h : i / L.size < n then
      L.set v[i / L.size] (fun j ↦ b (i / L.size * L.size + j)) (i % L.size)
    else b i
  get_set v b := by
    refine Vector.ext fun i hi ↦ ?_
    rw [Vector.getElem_ofFn]
    conv_rhs => rw [← L.get_set v[i] fun j ↦ b (i * L.size + j)]
    refine L.get_congr fun j hj ↦ ?_
    have hdiv : (i * L.size + j) / L.size = i := by
      rw [Nat.mul_comm, Nat.mul_add_div hpos, Nat.div_eq_of_lt hj, Nat.add_zero]
    have hmod : (i * L.size + j) % L.size = j := by
      rw [Nat.mul_comm, Nat.mul_add_mod, Nat.mod_eq_of_lt hj]
    simp only [hdiv, hmod, hi, dif_pos]
  get_congr h := by
    refine Vector.ext fun i hi ↦ ?_
    rw [Vector.getElem_ofFn, Vector.getElem_ofFn]
    refine L.get_congr fun j hj ↦ h _ ?_
    calc i * L.size + j < (i + 1) * L.size := by rw [Nat.succ_mul]; omega
      _ ≤ n * L.size := Nat.mul_le_mul_right _ hi
  set_of_le v b i h := dif_neg (Nat.not_lt.mpr ((Nat.le_div_iff_mul_le hpos).mpr h))

/-- `[u8; n]`. -/
def bytes (n : ℕ) : ByteLayout (Vector UInt8 n) := array n u8 Nat.one_pos

@[simp] theorem size_array (n : ℕ) (L : ByteLayout T) (hpos : 0 < L.size) :
    (array n L hpos).size = n * L.size := rfl

@[simp] theorem size_bytes (n : ℕ) : (bytes n).size = n := Nat.mul_one n

theorem getElem_get_bytes {n i : ℕ} (b : ℕ → UInt8) (hi : i < n) : ((bytes n).get b)[i] = b i := by
  change (Vector.ofFn fun i : Fin n ↦ u8.get fun j ↦ b (i * 1 + j))[i] = b i
  rw [Vector.getElem_ofFn]
  change b (i * 1 + 0) = b i
  rw [Nat.mul_one, Nat.add_zero]

theorem set_bytes_of_lt {n i : ℕ} (v : Vector UInt8 n) (b : ℕ → UInt8) (hi : i < n) :
    (bytes n).set v b i = v[i] := by
  rw [← getElem_get_bytes ((bytes n).set v b) hi]
  exact congrArg (fun w : Vector UInt8 n ↦ w[i]) ((bytes n).get_set v b)

/-! ## Writing back what was read -/

/-- Every byte of a value counts, so that writing back what was read changes nothing. -/
def Exact (L : ByteLayout T) : Prop := ∀ b i, L.set (L.get b) b i = b i

theorem exact_u32 : u32.Exact := by
  intro b i
  have hlen : ((List.range 4).map b).length = 4 := by simp
  have hlt : leValue ((List.range 4).map b) < 2 ^ 32 := by
    have h := leValue_lt ((List.range 4).map b)
    rw [hlen] at h
    exact h
  change (leBytes 4 (UInt32.ofNat (leValue ((List.range 4).map b))).toNat).getD i (b i) = b i
  have hbytes := leBytes_leValue ((List.range 4).map b)
  rw [hlen] at hbytes
  rw [UInt32.toNat_ofNat_of_lt' hlt, hbytes]
  by_cases hi : i < 4
  · rw [← List.getElem_eq_getD (h := by simpa using hi)]
    simp
  · exact List.getD_eq_default _ _ (by simpa using hi)

theorem exact_array {n : ℕ} {L : ByteLayout T} (hpos : 0 < L.size) (h : L.Exact) :
    (array n L hpos).Exact := by
  intro b i
  change (if h : i / L.size < n then L.set ((array n L hpos).get b)[i / L.size]
    (fun j ↦ b (i / L.size * L.size + j)) (i % L.size) else b i) = b i
  split
  · next hi =>
    have hget : ((array n L hpos).get b)[i / L.size] =
        L.get fun j ↦ b (i / L.size * L.size + j) :=
      Vector.getElem_ofFn (f := fun i : Fin n ↦ L.get fun j ↦ b (i * L.size + j)) hi
    rw [hget, h, Nat.mul_comm, Nat.div_add_mod]
  · rfl

/-! ## Buffers of a fixed size -/

section Buffer

variable {n : ℕ}

/-- The bytes of a buffer. -/
def cells (b : Vector UInt8 n) (i : ℕ) : UInt8 := if h : i < n then b[i] else 0

theorem cells_of_lt {i : ℕ} (b : Vector UInt8 n) (h : i < n) : cells b i = b[i] := dif_pos h

/-- The value at an offset of a buffer. -/
def read (L : ByteLayout T) (off : ℕ) (b : Vector UInt8 n) : T := L.getAt off (cells b)

/-- The buffer with a value written at an offset. -/
def write (L : ByteLayout T) (off : ℕ) (v : T) (b : Vector UInt8 n) : Vector UInt8 n :=
  Vector.ofFn fun i ↦ L.setAt off v (cells b) i

theorem cells_write {i : ℕ} (L : ByteLayout T) (off : ℕ) (v : T) (b : Vector UInt8 n) (h : i < n) :
    cells (L.write off v b) i = L.setAt off v (cells b) i := by
  rw [cells_of_lt _ h, write, Vector.getElem_ofFn]

@[simp] theorem read_write {L : ByteLayout T} {off : ℕ} (h : off + L.size ≤ n) (v : T)
    (b : Vector UInt8 n) : L.read off (L.write off v b) = v := by
  conv_rhs => rw [← L.getAt_setAt off v (cells b)]
  exact L.getAt_congr fun i _ hi ↦ cells_write L off v b (by omega)

theorem Exact.write_read {L : ByteLayout T} (h : L.Exact) (off : ℕ) (b : Vector UInt8 n) :
    L.write off (L.read off b) b = b := by
  refine Vector.ext fun i hi ↦ ?_
  rw [write, Vector.getElem_ofFn, setAt]
  split
  · next hle =>
    have hi' : off + (i - off) = i := Nat.add_sub_cancel' hle
    rw [read, getAt, h, hi', cells_of_lt b hi]
  · exact cells_of_lt b hi

/-- A value is not disturbed by what is written beside it. -/
theorem read_write_of_disjoint (L : ByteLayout T) (L' : ByteLayout U) {off off' : ℕ} (v : U)
    (b : Vector UInt8 n) (h : off + L.size ≤ off' ∨ off' + L'.size ≤ off)
    (hoff : off + L.size ≤ n) : L.read off (L'.write off' v b) = L.read off b := by
  refine L.getAt_congr fun i hi hlt ↦ ?_
  rw [cells_write L' off' v b (by omega), L'.setAt_of_outside _ _ (by omega)]

theorem getElem_read_bytes {k off i : ℕ} (b : Vector UInt8 n) (hi : i < k) (h : off + k ≤ n) :
    ((bytes k).read off b)[i] = b[off + i] := by
  rw [read, getAt, getElem_get_bytes _ hi, cells_of_lt _ (by omega)]

theorem getElem_write_bytes {k off i : ℕ} (v : Vector UInt8 k) (b : Vector UInt8 n) (hi : i < k)
    (h : off + k ≤ n) : (((bytes k).write off v b))[off + i] = v[i] := by
  rw [write, Vector.getElem_ofFn]
  dsimp only
  rw [setAt_add, set_bytes_of_lt _ _ hi]

/-- A whole buffer, read as bytes. -/
@[simp] theorem read_bytes_self (b : Vector UInt8 n) : (bytes n).read 0 b = b := by
  refine Vector.ext fun i hi ↦ ?_
  rw [getElem_read_bytes b hi (by omega)]
  simp only [Nat.zero_add]

@[simp] theorem write_bytes_self (v b : Vector UInt8 n) : (bytes n).write 0 v b = v := by
  refine Vector.ext fun i hi ↦ ?_
  have h : ((bytes n).write 0 v b)[0 + i] = v[i] := getElem_write_bytes v b hi (by omega)
  simpa only [Nat.zero_add] using h

end Buffer

end ByteLayout
