import AgentOS.Lib.Riscv

/-!
# Switching between tasks

`os/src/task/switch.S` and `os/src/task/context.rs`. `__switch` is a call that returns somewhere else: it saves `ra`,
`sp` and `s0` to `s11` in the `TaskContext` of the task that gives up the processor, loads those of another one, and
returns to where that one has called it. To its caller it is a call that takes long.

A `TaskContext` has 14 doublewords: `ra`, `sp` and `s[0]` to `s[11]`.
-/

namespace AgentOS

open Riscv Scatter

namespace TaskSwitch

/-- `s0` to `s11`, with their offsets. -/
def sRegs : List (Reg × ℕ) :=
  (List.range 12).map fun n ↦ (Fin.ofNat 32 (if n < 2 then n + 8 else n + 16), n + 2)

/-- `__switch` -/
def switch : List Instr :=
  [ -- save kernel stack of current task
    .sd 2 1 10,
    -- save ra & s0~s11 of current execution
    .sd 1 0 10] ++
  saves 10 sRegs ++
  [ -- restore ra & s0~s11 of next execution
    .ld 1 0 11] ++
  loads 11 sRegs ++
  [ -- restore kernel stack of next task
    .ld 2 1 11,
    .jr 1]

/-- All registers that are saved, with their offsets. -/
def savedRegs : List (Reg × ℕ) := (2, 1) :: (1, 0) :: sRegs

/-- `goto_trap_return`, with the address of `trap_return`. -/
def gotoTrapReturn (trapReturn kstackPtr : Word) : Reg → Word :=
  Function.update (Function.update (fun _ ↦ 0) 1 trapReturn) 2 kstackPtr

/-- Contexts of tasks in the memory of the kernel. -/
structure Contexts (translate : Word → Word → Option ℕ) (Task : Type) where
  /-- The page table of the kernel. -/
  satp : Word
  ptr : Task → Word
  place : Task → ℕ → ℕ
  maps : ∀ t, At translate satp (ptr t) (place t) 14
  separate : ∀ t t' i j, i < 14 → j < 14 → place t i = place t' j → t = t' ∧ i = j

/-- A context holds registers. -/
def Holds (f : ℕ → ℕ) (mem : ℕ → Word) (v : Reg → Word) : Prop := ∀ p ∈ savedRegs, mem (f p.2) = v p.1

theorem savedRegs_lt : ∀ p ∈ savedRegs, p.2 < 14 := by decide

theorem nodup_offsets : (savedRegs.map Prod.snd).Nodup := by decide

variable {translate : Word → Word → Option ℕ} {Task : Type} {k : Contexts translate Task} {h h' : Hart} {t t' : Task}
  {f : ℕ → ℕ} {va : Word}

/-- **The first half** saves registers. -/
theorem run_save (hat : At translate (h.csr .satp) (h.x 10) f 14)
    (hf : ∀ i < 14, ∀ j < 14, f i = f j → i = j) : ∃ mem, run translate h (switch.take 14) = some { h with mem } ∧
      Holds f mem h.x ∧ ∀ a, (∀ i < 14, a ≠ f i) → mem a = h.mem a := by
  have hcode : switch.take 14 = saves 10 savedRegs := rfl
  have hnodup : (savedRegs.map fun p ↦ f p.2).Nodup := by
    have hmap : savedRegs.map (fun p ↦ f p.2) = (savedRegs.map Prod.snd).map f := by rw [List.map_map]; rfl
    rw [hmap]
    refine nodup_offsets.map_on fun i hi j hj heq ↦ ?_
    obtain ⟨p, hp, rfl⟩ := List.mem_map.mp hi
    obtain ⟨q, hq, rfl⟩ := List.mem_map.mp hj
    exact hf _ (savedRegs_lt p hp) _ (savedRegs_lt q hq) heq
  obtain ⟨mem, hsaves, hsaved, hkept⟩ := run_saves_distinct hat savedRegs_lt hnodup
  exact ⟨mem, hcode ▸ hsaves, hsaved, fun a ha ↦ hkept a fun p hp ↦ ha p.2 (savedRegs_lt p hp)⟩

/-- **The second half** loads registers and returns. -/
theorem run_load (hat : At translate (h.csr .satp) (h.x 11) f 14) : ∃ x, run translate h (switch.drop 14) =
      some { h with
        pc := h.mem (f 0)
        x := x } ∧ ∀ p ∈ savedRegs, x p.1 = h.mem (f p.2) := by
  have hcode : switch.drop 14 = loads 11 ((1, 0) :: (sRegs ++ [(2, 1)])) ++ [.jr 1] := rfl
  have hperm : ∀ p ∈ savedRegs, p ∈ ((1, 0) :: (sRegs ++ [(2, 1)]) : List (Reg × ℕ)) := by decide
  obtain ⟨x, hloads, hloaded, -⟩ := run_loads_distinct (l := (1, 0) :: (sRegs ++ [(2, 1)])) hat (by decide) (by decide)
    (by decide) (by decide)
  refine ⟨x, ?_, fun p hp ↦ hloaded p (hperm p hp)⟩
  rw [hcode, run_append hloads, run, step, Option.bind_some, run]
  dsimp only
  rw [hloaded (1, 0) (by decide)]

/-- **A switch** saves the registers of one task and loads those of another one. -/
theorem run_switch (hsatp : h.csr .satp = k.satp) (ha0 : h.x 10 = k.ptr t) (ha1 : h.x 11 = k.ptr t') :
    ∃ h', run translate h switch = some h' ∧ h'.csr = h.csr ∧ Holds (k.place t) h'.mem h.x ∧
      Holds (k.place t') h'.mem h'.x ∧ h'.pc = h'.x 1 ∧ ∀ a, (∀ i < 14, a ≠ k.place t i) → h'.mem a = h.mem a := by
  have hat : At translate (h.csr .satp) (h.x 10) (k.place t) 14 := by
    rw [hsatp, ha0]
    exact k.maps t
  have hat' : At translate (h.csr .satp) (h.x 11) (k.place t') 14 := by
    rw [hsatp, ha1]
    exact k.maps t'
  obtain ⟨mem, hsave, hholds, hrest⟩ := run_save hat fun i hi j hj heq ↦ (k.separate t t i j hi hj heq).2
  obtain ⟨x, hload, hloaded⟩ := run_load (h := { h with mem }) hat'
  have hcode : switch = switch.take 14 ++ switch.drop 14 := (List.take_append_drop 14 switch).symm
  refine ⟨⟨mem (k.place t' 0), h.user, x, h.csr, mem⟩, ?_, rfl, hholds, fun p hp ↦ (hloaded p hp).symm,
    (hloaded (1, 0) (by decide)).symm, hrest⟩
  rw [hcode, run_append hsave, hload]

/-! ## Tasks on one hart -/

/-- The task that has the processor, and what is in the contexts of the others. -/
structure State (Task : Type) where
  hart : Hart
  current : Task
  saved : Task → Reg → Word

variable [DecidableEq Task]

/-- What happens in the kernel, with the task that is made, if one is. -/
inductive Step (k : Contexts translate Task) : Option Task → State Task → State Task → Prop
  /-- The current task runs, and does not write contexts. -/
  | work {s : State Task} {h : Hart} (hsatp : h.csr .satp = k.satp)
      (hmem : ∀ t, ∀ i < 14, h.mem (k.place t i) = s.hart.mem (k.place t i)) : Step k none s { s with hart := h }
  /-- The context of a new task is written. -/
  | make {s : State Task} {mem : ℕ → Word} {t : Task} {v : Reg → Word} (hholds : Holds (k.place t) mem v)
      (hmem : ∀ t', t' ≠ t → ∀ i < 14, mem (k.place t' i) = s.hart.mem (k.place t' i)) :
      Step k (some t) s { s with hart := { s.hart with mem }, saved := Function.update s.saved t v }
  /-- The current task switches to another one. -/
  | switch {s : State Task} {h : Hart} {t : Task} (ha0 : s.hart.x 10 = k.ptr s.current)
      (ha1 : s.hart.x 11 = k.ptr t) (hrun : run translate s.hart TaskSwitch.switch = some h) :
      Step k none s ⟨h, t, Function.update s.saved s.current s.hart.x⟩

/-- The contexts hold what tasks have saved. -/
structure Coherent (k : Contexts translate Task) (s : State Task) : Prop where
  satp : s.hart.csr .satp = k.satp
  holds : ∀ t, t ≠ s.current → Holds (k.place t) s.hart.mem (s.saved t)

variable {s s' : State Task} {made : Option Task}

omit [DecidableEq Task] in
theorem holds_congr {mem mem' : ℕ → Word} {v : Reg → Word}
    (hmem : ∀ i < 14, mem' (k.place t i) = mem (k.place t i)) (hholds : Holds (k.place t) mem v) :
    Holds (k.place t) mem' v := fun p hp ↦ (hmem p.2 (savedRegs_lt p hp)).trans (hholds p hp)

/-- The call of the current task returns in another one, with what that one has saved. -/
theorem Coherent.switch (hs : Coherent k s) (ha0 : s.hart.x 10 = k.ptr s.current) (ha1 : s.hart.x 11 = k.ptr t) :
    ∃ h, run translate s.hart TaskSwitch.switch = some h ∧
      (∀ p ∈ savedRegs, h.x p.1 = Function.update s.saved s.current s.hart.x t p.1) ∧ h.pc = h.x 1 ∧
      Coherent k ⟨h, t, Function.update s.saved s.current s.hart.x⟩ := by
  obtain ⟨h, hrun, hcsr, hown, hnext, hpc, hrest⟩ := run_switch hs.satp ha0 ha1
  have hall : ∀ t', Holds (k.place t') h.mem (Function.update s.saved s.current s.hart.x t') := fun t' ↦ by
    by_cases ht : t' = s.current
    · subst ht
      rw [Function.update_self]
      exact hown
    · rw [Function.update_of_ne ht]
      exact holds_congr (fun i hi ↦ hrest _ fun j hj heq ↦ ht (k.separate t' s.current i j hi hj heq).1)
        (hs.holds t' ht)
  exact ⟨h, hrun, fun p hp ↦ (hnext p hp).symm.trans (hall t p hp), hpc, by rw [hcsr]; exact hs.satp,
    fun t' _ ↦ hall t'⟩

theorem Step.coherent (hstep : Step k made s s') (hs : Coherent k s) : Coherent k s' := by
  cases hstep with
  | work hsatp hmem => exact ⟨hsatp, fun t ht ↦ holds_congr (hmem t) (hs.holds t ht)⟩
  | @make _ mem t v hholds hmem =>
    refine ⟨hs.satp, fun t' ht' ↦ ?_⟩
    dsimp only
    by_cases heq : t' = t
    · subst heq
      rw [Function.update_self]
      exact hholds
    · rw [Function.update_of_ne heq]
      exact holds_congr (hmem t' heq) (hs.holds t' ht')
  | switch ha0 ha1 hrun =>
    obtain ⟨h, hrun', -, -, hcoherent⟩ := hs.switch ha0 ha1
    obtain rfl := Option.some.inj (hrun.symm.trans hrun')
    exact hcoherent

/-- Steps of others: the task is not switched to, and it is not made again. -/
def Away (k : Contexts translate Task) (t : Task) (s s' : State Task) : Prop :=
  s'.current ≠ t ∧ ∃ made, made ≠ some t ∧ Step k made s s'

/-- While a task is away, its registers stay saved. -/
theorem away_saved (hs : Coherent k s) (ht : s.current ≠ t) (haway : Relation.ReflTransGen (Away k t) s s') :
    Coherent k s' ∧ s'.current ≠ t ∧ s'.saved t = s.saved t := by
  induction haway with
  | refl => exact ⟨hs, ht, rfl⟩
  | tail _ hstep ih =>
    obtain ⟨hcoherent, hne, hsaved⟩ := ih
    obtain ⟨hne', made, hmade, hstep⟩ := hstep
    refine ⟨hstep.coherent hcoherent, hne', ?_⟩
    rw [← hsaved]
    cases hstep with
    | work => rfl
    | make => exact Function.update_of_ne (fun heq ↦ hmade (congrArg some heq.symm)) _ _
    | switch => exact Function.update_of_ne hne.symm _ _

/-- A task that was made begins in `trap_return`, on its kernel stack. -/
theorem switch_made {trapReturn kstackPtr : Word} (hs : Coherent k s) (ha0 : s.hart.x 10 = k.ptr s.current)
    (ha1 : s.hart.x 11 = k.ptr t) (ht : t ≠ s.current) (hmade : s.saved t = gotoTrapReturn trapReturn kstackPtr) :
    ∃ h, run translate s.hart switch = some h ∧ h.pc = trapReturn ∧ h.x 2 = kstackPtr := by
  obtain ⟨h, hrun, hx, hpc, -⟩ := hs.switch ha0 ha1
  have hsaved : ∀ p ∈ savedRegs, h.x p.1 = gotoTrapReturn trapReturn kstackPtr p.1 := fun p hp ↦ by
    rw [hx p hp, Function.update_of_ne ht, hmade]
  refine ⟨h, hrun, ?_, ?_⟩
  · rw [hpc, hsaved (1, 0) (by decide)]
    rfl
  · rw [hsaved (2, 1) (by decide)]
    rfl

/-- **Switching away and back is a call that returns**: whatever other tasks do in the meantime, among them to be made
and to switch to each other, the task goes on behind its call of `__switch`, with its stack pointer and with the
registers that a call has to keep. -/
theorem switch_returns (hs : Coherent k s) (ha0 : s.hart.x 10 = k.ptr s.current) (ha1 : s.hart.x 11 = k.ptr t)
    (ht : t ≠ s.current) : ∃ h₁, run translate s.hart switch = some h₁ ∧
      ∀ s', Relation.ReflTransGen (Away k s.current) ⟨h₁, t, Function.update s.saved s.current s.hart.x⟩ s' →
        s'.hart.x 10 = k.ptr s'.current → s'.hart.x 11 = k.ptr s.current →
        ∃ h₂, run translate s'.hart switch = some h₂ ∧ h₂.pc = s.hart.x 1 ∧
          ∀ p ∈ savedRegs, h₂.x p.1 = s.hart.x p.1 := by
  obtain ⟨h₁, hrun, -, -, hcoherent⟩ := hs.switch ha0 ha1
  refine ⟨h₁, hrun, fun s' haway ha0' ha1' ↦ ?_⟩
  obtain ⟨hcoherent', hne, hsaved⟩ := away_saved hcoherent ht haway
  obtain ⟨h₂, hrun', hx, hpc, -⟩ := hcoherent'.switch ha0' ha1'
  have hsaved' : s'.saved s.current = s.hart.x := hsaved.trans (Function.update_self _ _ _)
  have hback : ∀ p ∈ savedRegs, h₂.x p.1 = s.hart.x p.1 := fun p hp ↦ by
    rw [hx p hp, Function.update_of_ne hne.symm, hsaved']
  exact ⟨h₂, hrun', hpc.trans (hback (1, 0) (by decide)), hback⟩

/-! ## Two tasks -/

/-- Memory is where its address says. -/
def flatTranslate (_ va : Word) : Option ℕ := some (va.toNat / 8)

/-- The contexts of two tasks. -/
def smallContexts : Contexts flatTranslate Bool where
  satp := 0
  ptr t := if t then 0x400 else 0
  place t i := i + if t then 128 else 0
  maps t i hi := by
    cases t
    · have hva : ((0 : Word) + BitVec.ofNat 64 (8 * i)).toNat / 8 = i := by
        rw [zero_add, BitVec.toNat_ofNat]
        omega
      exact congrArg some hva
    · have hva : ((0x400 : Word) + BitVec.ofNat 64 (8 * i)).toNat / 8 = i + 128 := by
        have hbase : (0x400 : Word).toNat = 0x400 := rfl
        rw [BitVec.toNat_add, hbase, BitVec.toNat_ofNat]
        omega
      exact congrArg some hva
  separate t t' i j hi hj heq := by
    cases t <;> cases t' <;> simp only [Bool.false_eq_true, if_true, if_false] at heq <;>
      first
      | exact ⟨rfl, by omega⟩
      | omega

/-- One task runs, and the other one was made. -/
def smallState : State Bool where
  hart :=
    { pc := 0
      user := false
      x := fun r ↦ if r = 1 then 0x80200100 else if r = 2 then 0x80300000 else if r = 11 then 0x400 else 0
      csr := fun _ ↦ 0
      mem := fun a ↦ if a = 128 then 0x80200200 else if a = 129 then 0x80400000 else 0 }
  current := false
  saved _ := gotoTrapReturn 0x80200200 0x80400000

theorem coherent_smallState : Coherent smallContexts smallState where
  satp := rfl
  holds t ht := by
    cases t
    · exact absurd rfl ht
    · unfold Holds
      decide

/-- A task switches to one that is new, and that one back. -/
theorem switch_returns_two : ∃ h₁ h₂ h₃ : Hart, run flatTranslate smallState.hart switch = some h₁ ∧
    h₁.pc = 0x80200200 ∧ h₁.x 2 = 0x80400000 ∧ h₂.mem = h₁.mem ∧ run flatTranslate h₂ switch = some h₃ ∧
    h₃.pc = 0x80200100 ∧ h₃.x 2 = 0x80300000 := by
  obtain ⟨h₁, hrun, hreturns⟩ := switch_returns coherent_smallState (t := true) rfl rfl (by decide)
  obtain ⟨h, hrun', hpc, hsp⟩ := switch_made coherent_smallState (t := true) rfl rfl (by decide) rfl
  obtain rfl := Option.some.inj (hrun.symm.trans hrun')
  obtain ⟨h₂, hh₂⟩ : ∃ h₂ : Hart, h₂ = { h₁ with
      x := fun r ↦ if r = 10 then 0x400 else 0
      csr := fun _ ↦ 0 } := ⟨_, rfl⟩
  have hwork : Step smallContexts none ⟨h₁, true, Function.update smallState.saved false smallState.hart.x⟩
      ⟨h₂, true, Function.update smallState.saved false smallState.hart.x⟩ := by
    subst hh₂
    exact .work rfl fun _ _ _ ↦ rfl
  obtain ⟨h₃, hback, hpc', hx⟩ := hreturns _ (.single ⟨(by decide : true ≠ false), none, by decide, hwork⟩)
    (by subst hh₂; rfl) (by subst hh₂; rfl)
  exact ⟨h₁, h₂, h₃, hrun, hpc, hsp, by rw [hh₂], hback, hpc', hx (2, 1) (by decide)⟩

end TaskSwitch

end AgentOS
