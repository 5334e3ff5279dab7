import Mathlib
import AgentOS.Fs.CacheCalls

/-!
# Devices that share the block cache

What is read from a device and what is finally written to it should depend only on its own contents and on
the calls made with it. It does in every run that gets no block with a device while the block of the same id
of another device is in memory. Otherwise the other device's block is what the handle is for.
-/

namespace AgentOS.Fs

open Exec

/-- The calls that are made with a device. -/
def Call.uses (dev : DeviceId) : Call → Bool
  | .get h _ => h.device = dev
  | .read h _ _ => h.device = dev
  | .modify h _ _ _ => h.device = dev
  | .release h => h.device = dev
  | .syncAll => false

/-- What the calls made with a device gave. -/
def outputsOn (dev : DeviceId) (calls : List Call) (outs : List (List UInt8)) : List (List UInt8) :=
  ((calls.zip outs).filter fun p ↦ p.1.uses dev).map Prod.snd

/-- What is read from a device, and what is finally written to it, is what its own contents and the calls
made with it give. -/
def Separate (dev : DeviceId) (device : DeviceId → ℕ → Block) (calls : List Call)
    (outs : List (List UInt8)) (c : Client) : Prop :=
  let alone := (Direct.start fun _ ↦ device dev).run (calls.filter fun call ↦ call.uses dev)
  outputsOn dev calls outs = alone.1 ∧
    (calls.getLast? = some .syncAll → c.storage.device dev = alone.2.content dev)

namespace Direct

/-- Two states that are the same for a device; the second has its variables only. -/
structure SameOn (dev : DeviceId) (d e : Direct) : Prop where
  content : d.content dev = e.content dev
  held : e.held = d.held.filter fun p ↦ p.1.device = dev

variable {dev : DeviceId} {d e : Direct} {h : Handle}

theorem lookup_filter {held : List (Handle × ℕ)} (hdev : h.device = dev) :
    (held.filter fun p ↦ p.1.device = dev).lookup h = held.lookup h := by
  induction held with
  | nil => rfl
  | cons p held ih =>
    by_cases hp : p.1.device = dev
    · rw [List.filter_cons_of_pos (by simpa using hp), List.lookup_cons, List.lookup_cons, ih]
    · have hne : (h == p.1) = false := by
        simp only [beq_eq_false_iff_ne]
        rintro rfl
        exact hp hdev
      rw [List.filter_cons_of_neg (by simpa using hp), ih, List.lookup_cons, hne]

theorem SameOn.blockOf (hsame : SameOn dev d e) (hdev : h.device = dev) :
    e.blockOf h = d.blockOf h := by
  rw [Direct.blockOf, hsame.held, lookup_filter hdev, Direct.blockOf]

/-- A call made with the device gives the same. -/
theorem SameOn.step_of_uses (hsame : SameOn dev d e) {call : Call} (huses : call.uses dev) :
    (d.step call).1 = (e.step call).1 ∧ SameOn dev (d.step call).2 (e.step call).2 := by
  cases call with
  | get h i =>
    have hdev : h.device = dev := by simpa [Call.uses] using huses
    refine ⟨rfl, hsame.content, ?_⟩
    simp [Direct.step, hsame.held, hdev]
  | read h offset len =>
    have hdev : h.device = dev := by simpa [Call.uses] using huses
    simp only [Direct.step, hsame.blockOf hdev]
    split
    · exact ⟨by rw [hdev, hsame.content], hsame⟩
    · exact ⟨rfl, hsame⟩
  | modify h offset len f =>
    have hdev : h.device = dev := by simpa [Call.uses] using huses
    simp only [Direct.step, hsame.blockOf hdev]
    split
    · subst hdev
      refine ⟨by rw [hsame.content], ?_, hsame.held⟩
      simp [Storage.setBlock, hsame.content]
    · exact ⟨rfl, hsame⟩
  | release h =>
    refine ⟨rfl, hsame.content, ?_⟩
    simp only [Direct.step, hsame.held, List.filter_filter]
    exact List.filter_congr fun p _ ↦ Bool.and_comm _ _
  | syncAll => simp [Call.uses] at huses

/-- A call made with another device changes nothing of the device. -/
theorem SameOn.step_of_not_uses (hsame : SameOn dev d e) {call : Call} (huses : ¬call.uses dev) :
    SameOn dev (d.step call).2 e := by
  cases call with
  | get h i =>
    have hdev : h.device ≠ dev := by simpa [Call.uses] using huses
    exact ⟨hsame.content, by simp [Direct.step, hsame.held, hdev]⟩
  | read h offset len =>
    simp only [Direct.step]
    split <;> exact hsame
  | modify h offset len f =>
    have hdev : h.device ≠ dev := by simpa [Call.uses] using huses
    simp only [Direct.step]
    split
    · refine ⟨?_, hsame.held⟩
      dsimp only [Storage.setBlock]
      rw [Function.update_of_ne hdev.symm, hsame.content]
    · exact hsame
  | release h =>
    have hdev : h.device ≠ dev := by simpa [Call.uses] using huses
    refine ⟨hsame.content, ?_⟩
    simp only [Direct.step, hsame.held, List.filter_filter]
    refine List.filter_congr fun p _ ↦ ?_
    by_cases hp : p.1.device = dev
    · have hne : p.1 ≠ h := fun heq ↦ hdev (heq ▸ hp)
      simp [hp, hne]
    · simp [hp]
  | syncAll => exact hsame

/-- A run is, for one device, the run of the calls made with it. -/
theorem SameOn.run (hsame : SameOn dev d e) (calls : List Call) :
    outputsOn dev calls (d.run calls).1 = (e.run (calls.filter fun call ↦ call.uses dev)).1 ∧
      SameOn dev (d.run calls).2 (e.run (calls.filter fun call ↦ call.uses dev)).2 := by
  induction calls generalizing d e with
  | nil => exact ⟨rfl, hsame⟩
  | cons call calls ih =>
    by_cases huses : call.uses dev
    · obtain ⟨hout, hsame'⟩ := hsame.step_of_uses huses
      obtain ⟨houts, hsame''⟩ := ih hsame'
      rw [List.filter_cons_of_pos huses]
      refine ⟨?_, hsame''⟩
      simp only [Direct.run, outputsOn, List.zip_cons_cons, List.filter_cons_of_pos, huses,
        List.map_cons] at houts ⊢
      rw [hout, houts]
    · obtain ⟨houts, hsame'⟩ := ih (hsame.step_of_not_uses huses)
      rw [List.filter_cons_of_neg huses]
      refine ⟨?_, hsame'⟩
      simp only [Direct.run, outputsOn, List.zip_cons_cons] at houts ⊢
      rw [List.filter_cons_of_neg (by simpa using huses), houts]

end Direct

/-- **Devices do not mix** in a run that never gets a block with a device while it is cached for another. -/
theorem devices_separate (dev : DeviceId) (device : DeviceId → ℕ → Block) (calls : List Call)
    (outs : List (List UInt8)) (c : Client) (hunmixed : (Client.start device).UnmixedRun calls)
    (hret : (Client.run calls).Returns (Client.start device) outs c) :
    Separate dev device calls outs c := by
  obtain ⟨rfl, hsim, hlast⟩ := (sim_start device).run hunmixed hret
  have hstart : Direct.SameOn dev (Direct.start device) (Direct.start fun _ ↦ device dev) :=
    ⟨rfl, rfl⟩
  obtain ⟨houts, hsame⟩ := hstart.run calls
  refine ⟨houts, fun h ↦ ?_⟩
  rw [hlast h, hsim.content, hsame.content]

/-- Two devices, each with its own block 0. -/
theorem devices_separate_blocks :
    let calls : List Call := [.get ⟨0, 0⟩ 3, .get ⟨1, 0⟩ 4, .read ⟨0, 0⟩ 0 1, .syncAll]
    ∃ outs c, (Client.run calls).Returns (Client.start fun _ _ ↦ zeroBlock) outs c ∧
      Separate 0 (fun _ _ ↦ zeroBlock) calls outs c := by
  intro calls
  have hret : (Client.run calls).Returns (Client.start fun _ _ ↦ zeroBlock) [[], [], [0], []] _ :=
    returns_of_fst (by decide +kernel)
  refine ⟨_, _, hret, devices_separate 0 _ calls _ _ ⟨nofun, fun _ c₁ h₁ ↦ ⟨fun b hb ↦ ?_, ?_⟩⟩ hret⟩
  · obtain ⟨-, rfl⟩ := h₁.det (returns_of_fst (a := []) (by decide +kernel))
    have hnone : (Client.step (.get ⟨0, 0⟩ 3) (Client.start fun _ _ ↦ zeroBlock)).2.storage.entry 4 =
        none := Option.isNone_iff_eq_none.mp (by decide +kernel)
    exact absurd (hnone.symm.trans hb) (by simp)
  · exact fun _ _ _ ↦ ⟨trivial, fun _ _ _ ↦ ⟨trivial, fun _ _ _ ↦ trivial⟩⟩

/-- A block of device 1 is read through a handle for device 0. -/
theorem not_separate : ¬∀ (dev : DeviceId) (device : DeviceId → ℕ → Block) (calls : List Call)
    (outs : List (List UInt8)) (c : Client),
    (Client.run calls).Returns (Client.start device) outs c → Separate dev device calls outs c := by
  intro h
  have hret : (Client.run [.get ⟨1, 0⟩ 0, .get ⟨0, 0⟩ 0, .read ⟨0, 0⟩ 0 1]).Returns
      (Client.start fun dev _ ↦ Vector.replicate blockSz dev.toUInt8) [[], [], [1]] _ :=
    returns_of_fst (by decide +kernel)
  exact absurd (h 0 _ _ _ _ hret).1 (by decide +kernel)

end AgentOS.Fs
