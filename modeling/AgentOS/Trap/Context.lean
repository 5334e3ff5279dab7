import AgentOS.Lib.Riscv

/-!
# Trap contexts

`os/src/trap/trap.S`, `os/src/trap/context.rs`, and what `trap_handler` and `trap_return` do with registers. Every
process has a page for its `TrapContext`, at the same address in each address space. `__alltraps` saves the registers
of a program there, and `__restore` gives them back, perhaps much later and after other programs have run.

A `TrapContext` has 37 doublewords: `x[0]` to `x[31]`, `sstatus`, `sepc`, `kernel_satp`, `kernel_sp` and
`trap_handler`.
-/

namespace AgentOS

open Riscv Scatter

namespace TrapContext

/-- Registers go where their number says. -/
def own (regs : List Reg) : List (Reg × ℕ) := regs.map fun r ↦ (r, r.val)

/-- `x5` to `x31` -/
def generalRegs : List Reg := (List.range 27).map fun n ↦ Fin.ofNat 32 (n + 5)

/-- `__alltraps` -/
def alltraps : List Instr :=
  [.csrrw 2 .sscratch 2,
    -- now sp->*TrapContext in user space, sscratch->user stack
    .sd 1 1 2,
    -- skip sp(x2), we will save it later
    .sd 3 3 2] ++
    -- skip tp(x4), application does not use it
  saves 2 (own generalRegs) ++
  [.csrr 5 .sstatus,
    .csrr 6 .sepc,
    .sd 5 32 2,
    .sd 6 33 2,
    -- read user stack from sscratch and save it in TrapContext
    .csrr 7 .sscratch,
    .sd 7 2 2,
    -- load kernel_satp, trap_handler and kernel_sp
    .ld 5 34 2,
    .ld 6 36 2,
    .ld 2 35 2,
    .csrw .satp 5,
    .sfenceVma,
    .jr 6]

/-- `__restore` -/
def restore : List Instr :=
  [ -- switch to user space
    .csrw .satp 11,
    .sfenceVma,
    .csrw .sscratch 10,
    .mv 2 10,
    -- restore sstatus/sepc
    .ld 5 32 2,
    .ld 6 33 2,
    .csrw .sstatus 5,
    .csrw .sepc 6,
    -- restore general purpose registers except x0/sp/tp
    .ld 1 1 2,
    .ld 3 3 2] ++
  loads 2 (own generalRegs) ++
  [ -- back to user stack
    .ld 2 2 2,
    .sret]

/-- What is saved of a program. -/
structure User where
  pc : Word
  status : Word
  x : Reg → Word

/-- The registers that are saved. -/
def Saved (r : Reg) : Prop := r ≠ 0 ∧ r ≠ 4

instance (r : Reg) : Decidable (Saved r) := inferInstanceAs (Decidable (_ ∧ _))

/-- A context holds a program. -/
structure Holds (f : ℕ → ℕ) (mem : ℕ → Word) (u : User) : Prop where
  x : ∀ r, Saved r → mem (f r.val) = u.x r
  status : mem (f 32) = u.status
  pc : mem (f 33) = u.pc

/-- The places of a context are different. -/
def Distinct (f : ℕ → ℕ) : Prop := ∀ i < 37, ∀ j < 37, f i = f j → i = j

variable {translate : Word → Word → Option ℕ} {h : Hart} {f : ℕ → ℕ} {va : Word}

theorem mem_generalRegs {r : Reg} : r ∈ generalRegs ↔ 5 ≤ r.val := by
  revert r
  decide

theorem nodup_generalRegs : generalRegs.Nodup := by decide

/-- What `__alltraps` does behind the block: it saves what is left, and goes to the kernel. -/
theorem run_alltraps_rest {h : Hart} (hat : At translate (h.csr .satp) (h.x 2) f 37) :
    ∃ h', run translate h (alltraps.drop 30) = some h' ∧
      h'.mem = Function.update (Function.update (Function.update h.mem (f 32) (h.csr .sstatus)) (f 33)
        (h.csr .sepc)) (f 2) (h.csr .sscratch) ∧
      h'.pc = h'.mem (f 36) ∧ h'.x 2 = h'.mem (f 35) ∧ h'.csr .satp = h'.mem (f 34) := by
  have hrest : alltraps.drop 30 = [Instr.csrr 5 .sstatus, .csrr 6 .sepc, .sd 5 32 2, .sd 6 33 2, .csrr 7 .sscratch,
      .sd 7 2 2, .ld 5 34 2, .ld 6 36 2, .ld 2 35 2, .csrw .satp 5, .sfenceVma, .jr 6] := rfl
  have h2 := hat 2 (by decide)
  have h32 := hat 32 (by decide)
  have h33 := hat 33 (by decide)
  have h34 := hat 34 (by decide)
  have h35 := hat 35 (by decide)
  have h36 := hat 36 (by decide)
  simp only [hrest, run, step, Hart.set, Hart.setCsr, Option.bind_some, Option.bind_eq_bind, Fin.isValue, h32, h33,
    Function.update_of_ne (show (2 : Reg) ≠ 5 by decide), Function.update_of_ne (show (2 : Reg) ≠ 6 by decide),
    Function.update_of_ne (show (2 : Reg) ≠ 7 by decide), if_neg (show (5 : Reg) ≠ 0 by decide),
    if_neg (show (6 : Reg) ≠ 0 by decide), if_neg (show (7 : Reg) ≠ 0 by decide),
    if_neg (show (2 : Reg) ≠ 0 by decide), h2, h34, h35, h36]
  refine ⟨_, rfl, ?_, ?_, ?_, ?_⟩ <;> simp

theorem places_own (regs : List Reg) : (own regs).map (fun p ↦ f p.2) = regs.map fun r ↦ f r.val := by
  rw [own, List.map_map]
  rfl

theorem nodup_places (hf : Distinct f) {regs : List Reg} (hregs : regs.Nodup) :
    ((own regs).map fun p ↦ f p.2).Nodup := by
  rw [places_own]
  refine List.Nodup.map_on (fun r _ r' _ heq ↦ ?_) hregs
  exact Fin.ext (hf r (by omega) r' (by omega) heq)

theorem mem_own {regs : List Reg} {r : Reg} (h : r ∈ regs) : (r, r.val) ∈ own regs :=
  List.mem_map_of_mem (f := fun r : Reg ↦ (r, r.val)) h

theorem own_lt {regs : List Reg} : ∀ p ∈ own regs, p.2 < 37 := by
  intro p hp
  obtain ⟨r, -, rfl⟩ := List.mem_map.mp hp
  exact r.isLt.trans (by decide)

/-- **Saving a program.** -/
theorem run_alltraps (hscratch : h.csr .sscratch = va) (hat : At translate (h.csr .satp) va f 37)
    (hf : Distinct f) : ∃ h', run translate h alltraps = some h' ∧
      h'.pc = h.mem (f 36) ∧ h'.x 2 = h.mem (f 35) ∧ h'.csr .satp = h.mem (f 34) ∧
      Holds f h'.mem ⟨h.csr .sepc, h.csr .sstatus, h.x⟩ ∧
      (∀ i, 34 ≤ i → i < 37 → h'.mem (f i) = h.mem (f i)) ∧
      ∀ a, (∀ i < 37, a ≠ f i) → h'.mem a = h.mem a := by
  obtain ⟨h₁, hh₁⟩ : ∃ h₁, h₁ = (h.setCsr .sscratch (h.x 2)).set 2 va := ⟨_, rfl⟩
  obtain ⟨regs, hregs⟩ : ∃ regs : List Reg, regs = 1 :: 3 :: generalRegs := ⟨_, rfl⟩
  have hcode : alltraps = [Instr.csrrw 2 .sscratch 2] ++ (saves 2 (own regs) ++ alltraps.drop 30) := by
    subst hregs
    rfl
  have hfirst : run translate h [Instr.csrrw 2 .sscratch 2] = some h₁ := by
    rw [hh₁, ← hscratch]
    rfl
  have hx : ∀ r, r ≠ 2 → h₁.x r = h.x r := fun r hr ↦ by
    rw [hh₁]
    exact Function.update_of_ne hr _ _
  have hx2 : h₁.x 2 = va := by simp [hh₁, Hart.set]
  have hcsr : ∀ csr, csr ≠ .sscratch → h₁.csr csr = h.csr csr := fun csr hne ↦ by
    rw [hh₁]
    exact Function.update_of_ne hne _ _
  have hmem₁ : h₁.mem = h.mem := by rw [hh₁]; rfl
  have hat₁ : At translate (h₁.csr .satp) (h₁.x 2) f 37 := by rwa [hx2, hcsr _ (by decide)]
  have hlt : ∀ p ∈ own regs, p.2 < 37 := own_lt
  obtain ⟨M, hsaves, hstored, hleft⟩ := run_saves_distinct hat₁ hlt
    (nodup_places hf (hregs ▸ (by decide : (1 :: 3 :: generalRegs).Nodup)))
  obtain ⟨h', hrun, hmem, hpc, hsp, hsatp⟩ := run_alltraps_rest (h := { h₁ with mem := M }) hat₁
  -- the block has saved its registers, and nothing else
  have hsaved : ∀ r ∈ regs, M (f r.val) = h.x r := fun r hr ↦ by
    have hne : r ≠ 2 := by
      rintro rfl
      rw [hregs] at hr
      revert hr
      decide
    exact (hstored _ (mem_own hr)).trans (hx r hne)
  have hkept : ∀ a, (∀ r ∈ regs, a ≠ f r.val) → M a = h.mem a := fun a ha ↦ by
    rw [hleft a, hmem₁]
    intro p hp
    obtain ⟨r, hr, rfl⟩ := List.mem_map.mp hp
    exact ha r hr
  have hrest : ∀ a, a ≠ f 2 → a ≠ f 32 → a ≠ f 33 → h'.mem a = M a := fun a h2 h32 h33 ↦ by
    rw [hmem, Function.update_of_ne h2, Function.update_of_ne h33, Function.update_of_ne h32]
  have hne : ∀ i < 37, ∀ j < 37, i ≠ j → f i ≠ f j := fun i hi j hj hij heq ↦ hij (hf i hi j hj heq)
  have hword : ∀ i, 34 ≤ i → i < 37 → h'.mem (f i) = h.mem (f i) := fun i hge hlt ↦ by
    rw [hrest _ (hne i hlt 2 (by decide) (by omega)) (hne i hlt 32 (by decide) (by omega))
      (hne i hlt 33 (by decide) (by omega))]
    exact hkept _ fun r _ ↦ hne i hlt r (by omega) (by omega)
  refine ⟨h', ?_, ?_, ?_, ?_, ⟨fun r hr ↦ ?_, ?_, ?_⟩, hword, fun a ha ↦ ?_⟩
  · rw [hcode, run_append hfirst, run_append hsaves, hrun]
  · rw [hpc, hword 36 (by decide) (by decide)]
  · rw [hsp, hword 35 (by decide) (by decide)]
  · rw [hsatp, hword 34 (by decide) (by decide)]
  · by_cases h2 : r = 2
    · subst h2
      rw [hmem]
      simp [hh₁, Hart.set, Hart.setCsr]
    · have hr' : r ∈ regs := by
        obtain ⟨h0, h4⟩ := hr
        rw [hregs]
        revert r
        decide
      have hval : r.val ≠ 2 := fun heq ↦ h2 (Fin.ext heq)
      rw [hrest _ (hne r (by omega) 2 (by decide) hval) (hne r (by omega) 32 (by decide) (by omega))
        (hne r (by omega) 33 (by decide) (by omega)), hsaved r hr']
  · rw [hmem, Function.update_of_ne (hne 32 (by decide) 2 (by decide) (by decide)),
      Function.update_of_ne (hne 32 (by decide) 33 (by decide) (by decide)), Function.update_self]
    exact hcsr _ (by decide)
  · rw [hmem, Function.update_of_ne (hne 33 (by decide) 2 (by decide) (by decide)), Function.update_self]
    exact hcsr _ (by decide)
  · rw [hrest a (ha 2 (by decide)) (ha 32 (by decide)) (ha 33 (by decide))]
    exact hkept a fun r _ ↦ ha r (by omega)

/-- The first part of `__restore`. -/
theorem run_restore_first {token : Word} (ha0 : h.x 10 = va) (ha1 : h.x 11 = token)
    (hat : At translate token va f 37) : ∃ h', run translate h (restore.take 10) = some h' ∧
      h'.mem = h.mem ∧ h'.csr .satp = token ∧ h'.csr .sscratch = va ∧ h'.csr .sstatus = h.mem (f 32) ∧
      h'.csr .sepc = h.mem (f 33) ∧ h'.x 2 = va ∧ h'.x 1 = h.mem (f 1) ∧ h'.x 3 = h.mem (f 3) ∧
      h'.x 4 = h.x 4 := by
  subst ha0 ha1
  have hfirst : restore.take 10 = [Instr.csrw .satp 11, .sfenceVma, .csrw .sscratch 10, .mv 2 10, .ld 5 32 2,
      .ld 6 33 2, .csrw .sstatus 5, .csrw .sepc 6, .ld 1 1 2, .ld 3 3 2] := rfl
  have h1 := hat 1 (by decide)
  have h3 := hat 3 (by decide)
  have h32 := hat 32 (by decide)
  have h33 := hat 33 (by decide)
  simp [hfirst, run, step, Hart.set, Hart.setCsr, h1, h3, h32, h33]

/-- **Giving a program its registers back.** -/
theorem run_restore {token : Word} (ha0 : h.x 10 = va) (ha1 : h.x 11 = token) (hat : At translate token va f 37) :
    ∃ h', run translate h restore = some h' ∧ h'.mem = h.mem ∧ h'.pc = h.mem (f 33) ∧
      (∀ r, Saved r → h'.x r = h.mem (f r.val)) ∧ h'.x 4 = h.x 4 ∧ h'.csr .satp = token ∧ h'.csr .sscratch = va ∧
      h'.csr .sstatus = Word.leave (h.mem (f 32)) ∧ h'.user = !(h.mem (f 32)).getLsbD Word.spp := by
  obtain ⟨h₁, hfirst, hmem, hsatp, hscratch, hstatus, hsepc, hx2, hx1, hx3, hx4⟩ := run_restore_first ha0 ha1 hat
  have hcode : restore = restore.take 10 ++ (loads 2 (own generalRegs) ++ [.ld 2 2 2, .sret]) := rfl
  have hat₁ : At translate (h₁.csr .satp) (h₁.x 2) f 37 := by rwa [hsatp, hx2]
  have hnot : ∀ p ∈ own generalRegs, 5 ≤ p.1.val := by
    intro p hp
    obtain ⟨r, hr, rfl⟩ := List.mem_map.mp hp
    exact mem_generalRegs.mp hr
  have hregs : (own generalRegs).map (fun p ↦ p.1) = generalRegs := by
    rw [own, List.map_map]
    exact List.map_id _
  obtain ⟨X, hloads, hgiven, hleft⟩ := run_loads_distinct hat₁ own_lt
    (fun p hp heq ↦ absurd (hnot p hp) (by rw [heq]; decide))
    (fun p hp heq ↦ absurd (hnot p hp) (by rw [heq]; decide)) (by rw [hregs]; exact nodup_generalRegs)
  have hloaded : ∀ r, 5 ≤ r.val → X r = h.mem (f r.val) := fun r hr ↦ by
    rw [← hmem]
    exact hgiven _ (mem_own (mem_generalRegs.mpr hr))
  have hkept : ∀ r, r.val < 5 → X r = h₁.x r := fun r hr ↦ by
    refine hleft r fun p hp heq ↦ ?_
    have hge := hnot p hp
    rw [← heq] at hge
    omega
  have h2 := hat₁ 2 (by decide)
  rw [← hkept 2 (by decide)] at h2
  refine ⟨({ h₁ with x := Function.update X 2 (h₁.mem (f 2)) }.setCsr .sstatus (Word.leave (h₁.csr .sstatus))) |>
    fun h ↦ { h with pc := h₁.csr .sepc, user := !(h₁.csr .sstatus).getLsbD Word.spp }, ?_, hmem, hsepc,
    fun r hr ↦ ?_, ?_, hsatp, hscratch, ?_, ?_⟩
  · rw [hcode, run_append hfirst, run_append hloads]
    simp [run, step, Hart.set, Hart.setCsr, h2]
  · dsimp only [Hart.setCsr]
    by_cases hr2 : r = 2
    · rw [hr2, Function.update_self, hmem]
      rfl
    · rw [Function.update_of_ne hr2]
      by_cases hge : 5 ≤ r.val
      · exact hloaded r hge
      · rw [hkept r (by omega)]
        obtain ⟨h0, h4⟩ := hr
        have hcases : r = 1 ∨ r = 3 := by
          revert r
          decide
        rcases hcases with rfl | rfl
        · exact hx1
        · exact hx3
  · dsimp only [Hart.setCsr]
    rw [Function.update_of_ne (by decide), hkept 4 (by decide), hx4]
  · dsimp only [Hart.setCsr]
    rw [Function.update_self, hstatus]
  · dsimp only
    rw [hstatus]

end TrapContext

/-! ## What the kernel writes -/

namespace TrapContext

/-- What `trap_handler` does with the registers of a system call: the program goes on behind `ecall`, with the result
in `a0`. -/
def User.afterSyscall (u : User) (result : Word) : User :=
  { u with pc := u.pc + 4, x := Function.update u.x 10 result }

/-- `app_init_context`, with what is in `sstatus`. -/
def appInitContext (entry sp sstatus : Word) : User where
  pc := entry
  status := Word.setBit sstatus Word.spp false
  x := Function.update (fun _ ↦ 0) 2 sp

/-- The two words that are written after a system call. -/
def storeResult (f : ℕ → ℕ) (result : Word) (mem : ℕ → Word) : ℕ → Word :=
  Function.update (Function.update mem (f 33) (mem (f 33) + 4)) (f 10) result

end TrapContext

/-! ## Programs on one hart -/

/-- Where the contexts of processes are, and what is in their words for the kernel. -/
structure TrapContexts (translate : Word → Word → Option ℕ) (Task : Type) where
  /-- `TRAP_CONTEXT` -/
  va : Word
  token : Task → Word
  place : Task → ℕ → ℕ
  kernelSatp : Word
  kernelSp : Task → Word
  trapHandler : Word
  maps : ∀ t, At translate (token t) va (place t) 37
  separate : ∀ t t' i j, i < 37 → j < 37 → place t i = place t' j → t = t' ∧ i = j

namespace TrapContexts

open TrapContext

variable {translate : Word → Word → Option ℕ} {Task : Type} (c : TrapContexts translate Task)

theorem distinct (t : Task) : Distinct (c.place t) := fun i hi j hj heq ↦ (c.separate t t i j hi hj heq).2

/-- The words for the kernel. -/
structure Entry (mem : ℕ → Word) (t : Task) : Prop where
  satp : mem (c.place t 34) = c.kernelSatp
  sp : mem (c.place t 35) = c.kernelSp t
  handler : mem (c.place t 36) = c.trapHandler

/-- The status of user mode, without interrupts in the kernel. -/
def Unprivileged (u : User) : Prop := u.status.getLsbD Word.spp = false ∧ u.status.getLsbD Word.sie = false

/-- The program of a task is running. -/
structure Running (t : Task) (u : User) (h : Hart) : Prop where
  user : h.user = true
  pc : h.pc = u.pc
  x : ∀ r, Saved r → h.x r = u.x r
  status : h.csr .sstatus = Word.leave u.status
  satp : h.csr .satp = c.token t
  scratch : h.csr .sscratch = c.va

/-- What the kernel does to contexts while no program runs: each program becomes another one. -/
structure Works (edit : Task → User → User) (mem mem' : ℕ → Word) : Prop where
  holds : ∀ t u, Holds (c.place t) mem u → Holds (c.place t) mem' (edit t u)
  entry : ∀ t, c.Entry mem t → c.Entry mem' t
  unprivileged : ∀ t u, Unprivileged u → Unprivileged (edit t u)

variable {c} {h h' : Hart} {t t' : Task} {u : Task → User} {v : User} {mem mem' : ℕ → Word}

/-- Words that are the same hold the same. -/
theorem holds_congr (hmem : ∀ i < 37, mem' (c.place t i) = mem (c.place t i)) (hholds : Holds (c.place t) mem v) :
    Holds (c.place t) mem' v where
  x r hr := (hmem r (by omega)).trans (hholds.x r hr)
  status := (hmem 32 (by decide)).trans hholds.status
  pc := (hmem 33 (by decide)).trans hholds.pc

theorem entry_congr (hmem : ∀ i < 37, mem' (c.place t i) = mem (c.place t i)) (hentry : c.Entry mem t) :
    c.Entry mem' t where
  satp := (hmem 34 (by decide)).trans hentry.satp
  sp := (hmem 35 (by decide)).trans hentry.sp
  handler := (hmem 36 (by decide)).trans hentry.handler

/-- A context that holds a program is one that it can go on from. -/
theorem running_restore (hholds : Holds (c.place t) h.mem v) (hunprivileged : Unprivileged v) (ha0 : h.x 10 = c.va)
    (ha1 : h.x 11 = c.token t) : ∃ h', run translate h restore = some h' ∧ c.Running t v h' ∧ h'.mem = h.mem ∧
      h'.x 4 = h.x 4 := by
  obtain ⟨h', hrun, hmem, hpc, hx, hx4, hsatp, hscratch, hstatus, huser⟩ := run_restore ha0 ha1 (c.maps t)
  refine ⟨h', hrun, ⟨?_, hpc.trans hholds.pc, fun r hr ↦ (hx r hr).trans (hholds.x r hr), ?_, hsatp, hscratch⟩, hmem,
    hx4⟩
  · rw [huser, hholds.status, hunprivileged.1]
    rfl
  · rw [hstatus, hholds.status]

/-- One program runs, and all others are in their contexts. -/
structure Multiplexed (c : TrapContexts translate Task) (h : Hart) (t : Task) (u : Task → User) : Prop where
  running : c.Running t (u t) h
  holds : ∀ s, s ≠ t → Holds (c.place s) h.mem (u s)
  entry : ∀ s, c.Entry h.mem s
  unprivileged : ∀ s, Unprivileged (u s)

/-- **A trap puts the program that runs into its context** and goes to the kernel. -/
theorem Multiplexed.save (hm : c.Multiplexed h t u) : ∃ h₁, run translate h.trap alltraps = some h₁ ∧
    (h₁.pc = c.trapHandler ∧ h₁.x 2 = c.kernelSp t ∧ h₁.csr .satp = c.kernelSatp) ∧
    (∀ s, Holds (c.place s) h₁.mem (u s)) ∧ (∀ s, c.Entry h₁.mem s) ∧
    ∀ a, (∀ i < 37, a ≠ c.place t i) → h₁.mem a = h.mem a := by
  have hrunning := hm.running
  have hscratch : h.trap.csr .sscratch = c.va := hrunning.scratch
  have hsatp : h.trap.csr .satp = c.token t := hrunning.satp
  obtain ⟨h₁, hrun, hpc, hsp, hksatp, hholds, hwords, hrest⟩ :=
    run_alltraps hscratch (by rw [hsatp]; exact c.maps t) (c.distinct t)
  have hepc : h.trap.csr .sepc = (u t).pc := hrunning.pc
  have hstatus : h.trap.csr .sstatus = (u t).status := by
    have henter : h.trap.csr .sstatus = Word.enter (h.csr .sstatus) h.user := rfl
    rw [henter, hrunning.status, hrunning.user]
    exact Word.enter_leave (hm.unprivileged t).1 (hm.unprivileged t).2
  have hother : ∀ s, s ≠ t → ∀ i < 37, h₁.mem (c.place s i) = h.mem (c.place s i) := fun s hs i hi ↦
    hrest _ fun j hj heq ↦ hs (c.separate s t i j hi hj heq).1
  refine ⟨h₁, hrun, ⟨hpc.trans (hm.entry t).handler, hsp.trans (hm.entry t).sp, hksatp.trans (hm.entry t).satp⟩,
    fun s ↦ ?_, fun s ↦ ?_, hrest⟩
  · by_cases hs : s = t
    · subst hs
      exact ⟨fun r hr ↦ (hholds.x r hr).trans (hrunning.x r hr), hholds.status.trans hstatus, hholds.pc.trans hepc⟩
    · exact holds_congr (hother s hs) (hm.holds s hs)
  · by_cases hs : s = t
    · subst hs
      have hentry := hm.entry s
      exact ⟨(hwords 34 (by decide) (by decide)).trans hentry.satp, (hwords 35 (by decide) (by decide)).trans hentry.sp,
        (hwords 36 (by decide) (by decide)).trans hentry.handler⟩
    · exact entry_congr (hother s hs) (hm.entry s)

variable [DecidableEq Task]

/-- What a hart can come to, with the program that runs and what each program has got to. -/
inductive Reached (c : TrapContexts translate Task) : Hart → Task → (Task → User) → Prop
  /-- Every program is in its context, and the kernel starts one. -/
  | start {h h' : Hart} {t : Task} {u : Task → User} (hentry : ∀ s, c.Entry h.mem s)
      (hholds : ∀ s, Holds (c.place s) h.mem (u s)) (hunprivileged : ∀ s, Unprivileged (u s))
      (ha0 : h.x 10 = c.va) (ha1 : h.x 11 = c.token t) (hrun : run translate h restore = some h') : Reached c h' t u
  /-- The program computes. -/
  | compute {h h' : Hart} {t : Task} {u : Task → User} (hreached : Reached c h t u) (huser : h'.user = h.user)
      (hcsr : h'.csr = h.csr) (hmem : ∀ s, ∀ i < 37, h'.mem (c.place s i) = h.mem (c.place s i)) :
      Reached c h' t (Function.update u t ⟨h'.pc, (u t).status, h'.x⟩)
  /-- A trap, work of the kernel, and a program goes on. -/
  | trap {h h₁ h₂ h' : Hart} {t t' : Task} {u : Task → User} {edit : Task → User → User} (hreached : Reached c h t u)
      (hsave : run translate h.trap alltraps = some h₁) (hworks : c.Works edit h₁.mem h₂.mem)
      (ha0 : h₂.x 10 = c.va) (ha1 : h₂.x 11 = c.token t') (hrestore : run translate h₂ restore = some h') :
      Reached c h' t' fun s ↦ edit s (u s)

theorem Reached.multiplexed (hreached : c.Reached h t u) : c.Multiplexed h t u := by
  induction hreached with
  | start hentry hholds hunprivileged ha0 ha1 hrun =>
    obtain ⟨h₁, hrun₁, hrunning, hmem, -⟩ := running_restore (hholds _) (hunprivileged _) ha0 ha1
    obtain rfl := Option.some.inj (hrun.symm.trans hrun₁)
    exact ⟨hrunning, fun s _ ↦ hmem ▸ hholds s, fun s ↦ hmem ▸ hentry s, hunprivileged⟩
  | @compute h h' t u _ huser hcsr hmem ih =>
    refine ⟨?_, fun s hs ↦ ?_, fun s ↦ entry_congr (hmem s) (ih.entry s), fun s ↦ ?_⟩
    · rw [Function.update_self]
      have hrunning := ih.running
      exact ⟨huser.trans hrunning.user, rfl, fun _ _ ↦ rfl, by rw [hcsr]; exact hrunning.status,
        by rw [hcsr]; exact hrunning.satp, by rw [hcsr]; exact hrunning.scratch⟩
    · rw [Function.update_of_ne hs]
      exact holds_congr (hmem s) (ih.holds s hs)
    · by_cases hs : s = t
      · subst hs
        rw [Function.update_self]
        exact ih.unprivileged s
      · rw [Function.update_of_ne hs]
        exact ih.unprivileged s
  | trap _ hsave hworks ha0 ha1 hrestore ih =>
    obtain ⟨h₁, hsave₁, -, hholds, hentry, -⟩ := ih.save
    obtain rfl := Option.some.inj (hsave.symm.trans hsave₁)
    obtain ⟨h₃, hrun, hrunning, hmem, -⟩ := running_restore (hworks.holds _ _ (hholds _))
      (hworks.unprivileged _ _ (ih.unprivileged _)) ha0 ha1
    obtain rfl := Option.some.inj (hrestore.symm.trans hrun)
    exact ⟨hrunning, fun s _ ↦ hmem ▸ hworks.holds s _ (hholds s), fun s ↦ hmem ▸ hworks.entry s (hentry s),
      fun s ↦ hworks.unprivileged s _ (ih.unprivileged s)⟩

/-- **Programs go on where they were**, whatever other programs do in between: the one that runs has the registers
that are its own, a trap saves them and enters the kernel on the kernel stack of that process without touching
another memory, and whichever program the kernel goes on with has in its registers what it had when it was
interrupted, up to what the kernel wrote to its context. Only `tp` is not given back. -/
theorem programs_go_on (hreached : c.Reached h t u) : c.Running t (u t) h ∧
    ∃ h₁, run translate h.trap alltraps = some h₁ ∧
      (h₁.pc = c.trapHandler ∧ h₁.x 2 = c.kernelSp t ∧ h₁.csr .satp = c.kernelSatp) ∧
      (∀ a, (∀ i < 37, a ≠ c.place t i) → h₁.mem a = h.mem a) ∧
      ∀ edit t' h₂, c.Works edit h₁.mem h₂.mem → h₂.x 10 = c.va → h₂.x 11 = c.token t' →
        ∃ h₃, run translate h₂ restore = some h₃ ∧ c.Running t' (edit t' (u t')) h₃ ∧ h₃.mem = h₂.mem ∧
          h₃.x 4 = h₂.x 4 ∧ c.Reached h₃ t' fun s ↦ edit s (u s) := by
  have hm := hreached.multiplexed
  obtain ⟨h₁, hsave, hkernel, hholds, -, hrest⟩ := hm.save
  refine ⟨hm.running, h₁, hsave, hkernel, hrest, fun edit t' h₂ hworks ha0 ha1 ↦ ?_⟩
  obtain ⟨h₃, hrun, hrunning, hmem, hx4⟩ := running_restore (hworks.holds _ _ (hholds t'))
    (hworks.unprivileged _ _ (hm.unprivileged t')) ha0 ha1
  exact ⟨h₃, hrun, hrunning, hmem, hx4, .trap hreached hsave hworks ha0 ha1 hrun⟩

/-- The kernel changes one program only. -/
theorem works_of_one {edit : User → User}
    (hother : ∀ s, s ≠ t → ∀ i < 37, mem' (c.place s i) = mem (c.place s i))
    (hholds : ∀ v, Holds (c.place t) mem v → Holds (c.place t) mem' (edit v))
    (hentry : c.Entry mem t → c.Entry mem' t) (hunprivileged : ∀ v, Unprivileged v → Unprivileged (edit v)) :
    c.Works (fun s v ↦ if s = t then edit v else v) mem mem' where
  holds s v hv := by
    by_cases hs : s = t
    · subst hs
      rw [if_pos rfl]
      exact hholds v hv
    · rw [if_neg hs]
      exact holds_congr (hother s hs) hv
  entry s hs := by
    by_cases hst : s = t
    · subst hst
      exact hentry hs
    · exact entry_congr (hother s hst) hs
  unprivileged s v hv := by
    by_cases hs : s = t
    · rw [if_pos hs]
      exact hunprivileged v hv
    · rw [if_neg hs]
      exact hv

/-- **The result of a system call** reaches the program that made it, and no other one. -/
theorem works_storeResult (result : Word) : c.Works (fun s v ↦ if s = t then v.afterSyscall result else v) mem
    (storeResult (c.place t) result mem) := by
  have hstore : ∀ a, a ≠ c.place t 10 → a ≠ c.place t 33 → storeResult (c.place t) result mem a = mem a :=
    fun a h10 h33 ↦ by rw [storeResult, Function.update_of_ne h10, Function.update_of_ne h33]
  have hne : ∀ i < 37, ∀ j < 37, i ≠ j → c.place t i ≠ c.place t j := fun i hi j hj hij heq ↦
    hij (c.separate t t i j hi hj heq).2
  refine works_of_one (fun s hs i hi ↦ hstore _ ?_ ?_) (fun v hv ↦ ⟨fun r hr ↦ ?_, ?_, ?_⟩) (fun hentry ↦ ?_)
    fun _ hv ↦ hv
  · exact fun heq ↦ hs (c.separate s t i 10 hi (by decide) heq).1
  · exact fun heq ↦ hs (c.separate s t i 33 hi (by decide) heq).1
  · by_cases hr' : r = 10
    · subst hr'
      have hread : (v.afterSyscall result).x 10 = result := by simp [User.afterSyscall]
      rw [hread]
      exact Function.update_self _ _ _
    · have hval : r.val ≠ 10 := fun heq ↦ hr' (Fin.ext heq)
      rw [hstore _ (hne r (by omega) 10 (by decide) hval) (hne r (by omega) 33 (by decide) (by omega)), hv.x r hr]
      exact (Function.update_of_ne hr' _ _).symm
  · rw [hstore _ (hne 32 (by decide) 10 (by decide) (by decide)) (hne 32 (by decide) 33 (by decide) (by decide))]
    exact hv.status
  · rw [storeResult, Function.update_of_ne (hne 33 (by decide) 10 (by decide) (by decide)), Function.update_self,
      hv.pc]
    rfl
  · have hword : ∀ i, 34 ≤ i → i < 37 → storeResult (c.place t) result mem (c.place t i) = mem (c.place t i) :=
      fun i hge hi ↦ hstore _ (hne i hi 10 (by decide) (by omega)) (hne i hi 33 (by decide) (by omega))
    exact ⟨(hword 34 (by decide) (by decide)).trans hentry.satp, (hword 35 (by decide) (by decide)).trans hentry.sp,
      (hword 36 (by decide) (by decide)).trans hentry.handler⟩

/-- **A new program** starts at its entry point, whatever was in the registers before. -/
theorem works_appInitContext {entry sp sstatus : Word} (hoff : sstatus.getLsbD Word.sie = false)
    (hother : ∀ s, s ≠ t → ∀ i < 37, mem' (c.place s i) = mem (c.place s i)) (hentry : c.Entry mem' t)
    (hholds : Holds (c.place t) mem' (appInitContext entry sp sstatus)) :
    c.Works (fun s v ↦ if s = t then appInitContext entry sp sstatus else v) mem mem' := by
  have hspp : Word.spp < 64 := by decide
  refine works_of_one hother (fun _ _ ↦ hholds) (fun _ ↦ hentry) fun _ _ ↦ ⟨?_, ?_⟩
  · exact (Word.getLsbD_setBit _ hspp _ _).trans (if_pos rfl)
  · exact ((Word.getLsbD_setBit _ hspp _ _).trans (if_neg (by decide))).trans hoff

end TrapContexts

/-! ## Two programs -/

/-- A page for each of some address spaces. -/
def smallTranslate (satp va : Word) : Option ℕ := some (va.toNat / 8 + 64 * satp.toNat)

/-- The contexts of two processes. -/
def smallContexts : TrapContexts smallTranslate Bool where
  va := 0
  token s := if s then 1 else 0
  place s i := i + 64 * if s then 1 else 0
  kernelSatp := 2
  kernelSp s := if s then 0x2000 else 0x1000
  trapHandler := 0x80200000
  maps s i hi := by
    have hva : ((0 : Word) + BitVec.ofNat 64 (8 * i)).toNat / 8 = i := by
      rw [zero_add, BitVec.toNat_ofNat]
      omega
    rw [smallTranslate, hva]
    cases s <;> rfl
  separate s s' i j hi hj heq := by
    cases s <;> cases s' <;> simp only [Bool.false_eq_true, if_true, if_false] at heq <;>
      first
      | exact ⟨rfl, by omega⟩
      | omega

/-- A memory with both contexts, when nothing has run. -/
def smallMemory (a : ℕ) : Word :=
  if a % 64 = 33 then 0x10000 else if a % 64 = 34 then 2 else if a = 35 then 0x1000 else if a = 99 then 0x2000
  else if a % 64 = 36 then 0x80200000 else 0

/-- A program makes a system call and another one goes on, and then the first one again, with the result. -/
theorem TrapContexts.programs_go_on_two : ∃ h h₁ h₂ h₃ h₄ : Hart,
    run smallTranslate h.trap TrapContext.alltraps = some h₁ ∧
    h₂.mem = TrapContext.storeResult (smallContexts.place false) 7 h₁.mem ∧
    run smallTranslate h₂ TrapContext.restore = some h₃ ∧ h₃.pc = 0x10000 ∧ h₃.x 10 = 0 ∧
    (∃ h₅, run smallTranslate h₃.trap TrapContext.alltraps = some h₅ ∧ h₄.mem = h₅.mem) ∧
    ∃ h₆, run smallTranslate h₄ TrapContext.restore = some h₆ ∧ h₆.pc = 0x10004 ∧ h₆.x 10 = 7 := by
  obtain ⟨h₀, hh₀⟩ : ∃ h₀ : Hart, h₀ = ⟨0, false, fun _ ↦ 0, fun _ ↦ 0, smallMemory⟩ := ⟨_, rfl⟩
  obtain ⟨u, hu⟩ : ∃ u : Bool → TrapContext.User, u = fun _ ↦ ⟨0x10000, 0, fun _ ↦ 0⟩ := ⟨_, rfl⟩
  have hentry : ∀ s, smallContexts.Entry h₀.mem s := fun s ↦ by
    subst hh₀
    cases s <;> exact ⟨rfl, rfl, rfl⟩
  have hholds : ∀ s, TrapContext.Holds (smallContexts.place s) h₀.mem (u s) := fun s ↦ by
    subst hh₀ hu
    refine ⟨?_, ?_, ?_⟩ <;> cases s <;> decide
  have hunprivileged : ∀ s, TrapContexts.Unprivileged (u s) := fun s ↦ by
    subst hu
    refine ⟨?_, ?_⟩ <;> revert s <;> decide
  have hx : h₀.x 10 = smallContexts.va ∧ h₀.x 11 = smallContexts.token false := by
    subst hh₀
    exact ⟨rfl, rfl⟩
  obtain ⟨h, hrun, -⟩ := TrapContexts.running_restore (hholds false) (hunprivileged false) hx.1 hx.2
  obtain ⟨-, h₁, hsave, -, -, hgo⟩ := TrapContexts.programs_go_on (.start hentry hholds hunprivileged hx.1 hx.2 hrun)
  obtain ⟨h₂, hh₂⟩ : ∃ h₂ : Hart, h₂ = { h₁ with
      x := fun r ↦ if r = 11 then 1 else 0
      mem := TrapContext.storeResult (smallContexts.place false) 7 h₁.mem } := ⟨_, rfl⟩
  have hmem : h₂.mem = TrapContext.storeResult (smallContexts.place false) 7 h₁.mem := by rw [hh₂]
  have hx₂ : h₂.x 10 = smallContexts.va ∧ h₂.x 11 = smallContexts.token true := by
    subst hh₂
    exact ⟨rfl, rfl⟩
  obtain ⟨h₃, hrestore, hrunning, -, -, hreached⟩ := hgo _ true h₂ (hmem ▸ TrapContexts.works_storeResult 7) hx₂.1 hx₂.2
  obtain ⟨-, h₅, hsave', -, -, hgo'⟩ := TrapContexts.programs_go_on hreached
  obtain ⟨h₄, hh₄⟩ : ∃ h₄ : Hart, h₄ = { h₅ with x := fun _ ↦ 0 } := ⟨_, rfl⟩
  have hmem' : h₄.mem = h₅.mem := by rw [hh₄]
  have hx₄ : h₄.x 10 = smallContexts.va ∧ h₄.x 11 = smallContexts.token false := by
    subst hh₄
    exact ⟨rfl, rfl⟩
  obtain ⟨h₆, hrestore', hrunning', -⟩ := hgo' (fun _ v ↦ v) false h₄
    ⟨fun _ _ hv ↦ hmem' ▸ hv, fun _ hv ↦ hmem' ▸ hv, fun _ _ hv ↦ hv⟩ hx₄.1 hx₄.2
  have hpc : h₃.pc = 0x10000 := by
    rw [hrunning.pc, hu]
    rfl
  have ha0 : h₃.x 10 = 0 := by
    rw [hrunning.x 10 (by decide), hu]
    rfl
  have hpc' : h₆.pc = 0x10004 := by
    rw [hrunning'.pc, hu]
    decide
  have ha0' : h₆.x 10 = 7 := by
    rw [hrunning'.x 10 (by decide), hu]
    rfl
  exact ⟨h, h₁, h₂, h₃, h₄, hsave, hmem, hrestore, hpc, ha0, ⟨h₅, hsave', hmem'⟩, h₆, hrestore', hpc', ha0'⟩

end AgentOS
