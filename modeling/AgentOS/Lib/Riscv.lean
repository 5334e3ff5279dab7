import Mathlib
import AgentOS.Lib.Scatter

/-!
# A hart

The instructions with which a kernel saves and restores registers, on a hart with its control and status registers
and a physical memory of doublewords. Loads and stores go through an address translation that `satp` selects and
that is a parameter. Code without jumps is a list of instructions.

Storing registers to a row of places and loading them from one are blocks: the memory afterwards is the memory of
before with the registers scattered over it, and the other way round.
-/

namespace Riscv

open Scatter

abbrev Word := BitVec 64

/-- `x0` to `x31` -/
abbrev Reg := Fin 32

instance instNeZeroReg : NeZero 32 := ⟨by decide⟩

/-- Control and status registers -/
inductive Csr where
  | stvec
  | sscratch
  | sstatus
  | sepc
  | satp
  deriving DecidableEq, Repr

structure Hart where
  pc : Word
  /-- In user mode. -/
  user : Bool
  x : Reg → Word
  csr : Csr → Word
  /-- The doublewords of physical memory. -/
  mem : ℕ → Word

/-- Offsets are in doublewords. -/
inductive Instr where
  | sd (rs : Reg) (offset : ℕ) (base : Reg)
  | ld (rd : Reg) (offset : ℕ) (base : Reg)
  | csrrw (rd : Reg) (csr : Csr) (rs : Reg)
  | csrr (rd : Reg) (csr : Csr)
  | csrw (csr : Csr) (rs : Reg)
  | mv (rd rs : Reg)
  | jr (rs : Reg)
  | sret
  | sfenceVma
  deriving DecidableEq, Repr

/-! ## The status register -/

namespace Word

def setBit (w : Word) (i : ℕ) (b : Bool) : Word :=
  if b then w ||| BitVec.twoPow 64 i else w &&& ~~~BitVec.twoPow 64 i

/-- `SIE` -/
def sie : ℕ := 1

/-- `SPIE` -/
def spie : ℕ := 5

/-- `SPP` -/
def spp : ℕ := 8

/-- The status that a trap makes of it. -/
def enter (w : Word) (user : Bool) : Word :=
  setBit (setBit (setBit w spp (!user)) spie (w.getLsbD sie)) sie false

/-- The status that `sret` makes of it. -/
def leave (w : Word) : Word := setBit (setBit (setBit w sie (w.getLsbD spie)) spie true) spp false

variable {w : Word}

theorem getLsbD_setBit (w : Word) {i : ℕ} (hi : i < 64) (b : Bool) (j : ℕ) :
    (setBit w i b).getLsbD j = if j = i then b else w.getLsbD j := by
  unfold setBit
  by_cases hj : j = i
  · subst hj
    cases b <;> simp [hi]
  · cases b <;> simp [hj, Ne.symm hj]
    intro hset
    exact w.lt_of_getLsbD hset

/-- **A trap undoes what `sret` did** to the status of user mode without interrupts. -/
theorem enter_leave (huser : w.getLsbD spp = false) (hoff : w.getLsbD sie = false) :
    enter (leave w) true = w := by
  refine BitVec.eq_of_getLsbD_eq fun j hj ↦ ?_
  have hspp : spp < 64 := by decide
  have hspie : spie < 64 := by decide
  have hsie : sie < 64 := by decide
  simp only [enter, leave, getLsbD_setBit _ hspp, getLsbD_setBit _ hspie, getLsbD_setBit _ hsie]
  by_cases h₁ : j = sie
  · rw [if_pos h₁, h₁, hoff]
  · by_cases h₂ : j = spie
    · subst h₂
      simp [sie, spie, spp]
    · by_cases h₃ : j = spp
      · rw [if_neg h₁, if_neg h₂, if_pos h₃, h₃, huser]
        rfl
      · simp [h₁, h₂, h₃]

end Word

/-! ## Instructions -/

namespace Hart

/-- `x0` is not written. -/
def set (h : Hart) (r : Reg) (v : Word) : Hart :=
  if r = 0 then h else { h with x := Function.update h.x r v }

def setCsr (h : Hart) (csr : Csr) (v : Word) : Hart := { h with csr := Function.update h.csr csr v }

/-- What the hardware does when a trap is taken. -/
def trap (h : Hart) : Hart :=
  { h with
    pc := h.csr .stvec
    user := false
    csr := Function.update (Function.update h.csr .sepc h.pc) .sstatus (Word.enter (h.csr .sstatus) h.user) }

end Hart

section Steps

-- the place in physical memory, for what is in `satp` and a virtual address
variable (translate : Word → Word → Option ℕ)

/-- An instruction. A load or a store that is not mapped goes nowhere. -/
def step (h : Hart) : Instr → Option Hart
  | .sd rs offset base => do
    let a ← translate (h.csr .satp) (h.x base + BitVec.ofNat 64 (8 * offset))
    some { h with mem := Function.update h.mem a (h.x rs) }
  | .ld rd offset base => do
    let a ← translate (h.csr .satp) (h.x base + BitVec.ofNat 64 (8 * offset))
    some (h.set rd (h.mem a))
  | .csrrw rd csr rs => some ((h.setCsr csr (h.x rs)).set rd (h.csr csr))
  | .csrr rd csr => some (h.set rd (h.csr csr))
  | .csrw csr rs => some (h.setCsr csr (h.x rs))
  | .mv rd rs => some (h.set rd (h.x rs))
  | .jr rs => some { h with pc := h.x rs }
  | .sret => some { h.setCsr .sstatus (Word.leave (h.csr .sstatus)) with
      pc := h.csr .sepc
      user := !(h.csr .sstatus).getLsbD Word.spp }
  | .sfenceVma => some h

def run (h : Hart) : List Instr → Option Hart
  | [] => some h
  | i :: code => (step translate h i).bind fun h' ↦ run h' code

variable {translate} {h h' : Hart} {code code' : List Instr} {l : List (Reg × ℕ)} {base : Reg} {f : ℕ → ℕ}

theorem run_append (hrun : run translate h code = some h') :
    run translate h (code ++ code') = run translate h' code' := by
  induction code generalizing h with
  | nil =>
    obtain rfl := Option.some.inj hrun
    rfl
  | cons i code ih =>
    rw [run] at hrun
    rw [List.cons_append, run]
    cases hstep : step translate h i with
    | none =>
      rw [hstep] at hrun
      exact absurd hrun (by simp)
    | some h₁ =>
      rw [hstep] at hrun
      exact ih hrun

/-! ## Blocks -/

/-- Store registers. -/
def saves (base : Reg) (l : List (Reg × ℕ)) : List Instr := l.map fun p ↦ .sd p.1 p.2 base

/-- Load registers. -/
def loads (base : Reg) (l : List (Reg × ℕ)) : List Instr := l.map fun p ↦ .ld p.1 p.2 base

/-- The offsets behind an address are translated to places. -/
def At (translate : Word → Word → Option ℕ) (satp va : Word) (f : ℕ → ℕ) (n : ℕ) : Prop :=
  ∀ i < n, translate satp (va + BitVec.ofNat 64 (8 * i)) = some (f i)

variable {n : ℕ}

theorem step_sd (hat : At translate (h.csr .satp) (h.x base) f n) {i : ℕ} (hi : i < n) (rs : Reg) :
    step translate h (.sd rs i base) = some { h with mem := Function.update h.mem (f i) (h.x rs) } := by
  rw [step, hat i hi]
  rfl

theorem step_ld (hat : At translate (h.csr .satp) (h.x base) f n) {i : ℕ} (hi : i < n) (rd : Reg) :
    step translate h (.ld rd i base) = some (h.set rd (h.mem (f i))) := by
  rw [step, hat i hi]
  rfl

/-- **Stored registers** are scattered over the memory. -/
theorem run_saves (hat : At translate (h.csr .satp) (h.x base) f n) (hl : ∀ p ∈ l, p.2 < n) :
    run translate h (saves base l) =
      some { h with mem := scatter (l.map fun p ↦ f p.2) (l.map fun p ↦ h.x p.1) h.mem } := by
  induction l generalizing h with
  | nil => rfl
  | cons p l ih =>
    obtain ⟨hp, hl⟩ := List.forall_mem_cons.mp hl
    rw [saves, List.map_cons, run, step_sd hat hp]
    exact ih hat hl

/-- **Loaded registers** are scattered over the registers. -/
theorem run_loads (hat : At translate (h.csr .satp) (h.x base) f n) (hl : ∀ p ∈ l, p.2 < n)
    (hbase : ∀ p ∈ l, p.1 ≠ base) (hzero : ∀ p ∈ l, p.1 ≠ 0) :
    run translate h (loads base l) =
      some { h with x := scatter (l.map fun p ↦ p.1) (l.map fun p ↦ h.mem (f p.2)) h.x } := by
  induction l generalizing h with
  | nil => rfl
  | cons p l ih =>
    obtain ⟨hp, hl⟩ := List.forall_mem_cons.mp hl
    obtain ⟨hpbase, hbase⟩ := List.forall_mem_cons.mp hbase
    obtain ⟨hpzero, hzero⟩ := List.forall_mem_cons.mp hzero
    rw [loads, List.map_cons, run, step_ld hat hp, Hart.set, if_neg hpzero]
    have hsame : (Function.update h.x p.1 (h.mem (f p.2))) base = h.x base :=
      Function.update_of_ne hpbase.symm _ _
    have hat' : At translate (h.csr .satp) (Function.update h.x p.1 (h.mem (f p.2)) base) f n := by rwa [hsame]
    exact ih (h := { h with x := _ }) hat' hl hbase hzero

end Steps

/-- Different places hold what was scattered over them. -/
theorem scatter_map_of_mem {P L B : Type*} [DecidableEq L] {l : List P} (place : P → L)
    (hnodup : (l.map place).Nodup) (value : P → B) (μ : L → B) {p : P} (hp : p ∈ l) :
    scatter (l.map place) (l.map value) μ (place p) = value p := by
  have hlength : (l.map value).length ≤ (l.map place).length := by simp
  have hmap := map_scatter hnodup hlength μ
  rw [List.drop_of_length_le (by simp), List.map_nil, List.append_nil, List.map_map] at hmap
  exact List.map_inj_left.mp hmap p hp

/-- Other places are left alone. -/
theorem scatter_map_of_forall_ne {P L B : Type*} [DecidableEq L] {l : List P} (place : P → L) (value : P → B)
    (μ : L → B) {a : L} (ha : ∀ p ∈ l, a ≠ place p) : scatter (l.map place) (l.map value) μ a = μ a := by
  refine scatter_of_not_mem (fun hmem ↦ ?_) _ _
  obtain ⟨p, hp, heq⟩ := List.mem_map.mp hmem
  exact ha p hp heq.symm

section Blocks

variable {translate : Word → Word → Option ℕ} {h : Hart} {base : Reg} {f : ℕ → ℕ} {n : ℕ} {l : List (Reg × ℕ)}

/-- **A block of stores** puts each register in its place, and leaves all other places alone. -/
theorem run_saves_distinct (hat : At translate (h.csr .satp) (h.x base) f n) (hl : ∀ p ∈ l, p.2 < n)
    (hnodup : (l.map fun p ↦ f p.2).Nodup) : ∃ mem, run translate h (saves base l) = some { h with mem } ∧
      (∀ p ∈ l, mem (f p.2) = h.x p.1) ∧ ∀ a, (∀ p ∈ l, a ≠ f p.2) → mem a = h.mem a :=
  ⟨_, run_saves hat hl, fun _ hp ↦ scatter_map_of_mem _ hnodup (fun p ↦ h.x p.1) h.mem hp,
    fun _ ha ↦ scatter_map_of_forall_ne _ _ _ ha⟩

/-- **A block of loads** gives each register what is in its place, and leaves all other registers alone. -/
theorem run_loads_distinct (hat : At translate (h.csr .satp) (h.x base) f n) (hl : ∀ p ∈ l, p.2 < n)
    (hbase : ∀ p ∈ l, p.1 ≠ base) (hzero : ∀ p ∈ l, p.1 ≠ 0) (hnodup : (l.map fun p ↦ p.1).Nodup) :
    ∃ x, run translate h (loads base l) = some { h with x } ∧
      (∀ p ∈ l, x p.1 = h.mem (f p.2)) ∧ ∀ r, (∀ p ∈ l, r ≠ p.1) → x r = h.x r :=
  ⟨_, run_loads hat hl hbase hzero, fun _ hp ↦ scatter_map_of_mem _ hnodup (fun p ↦ h.mem (f p.2)) h.x hp,
    fun _ hr ↦ scatter_map_of_forall_ne _ _ _ hr⟩

end Blocks

end Riscv
