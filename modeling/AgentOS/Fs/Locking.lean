import Mathlib
import AgentOS.Fs.Reopening

/-!
# What the calls of the file system lock

A closure over a block runs while the block is locked, and may use other blocks in turn. The lock of a block
spins when it is taken by who has it already, and the cache panics when all of its blocks are held. Neither
happens, because a call locks at most the block of an inode, the block of its indirect blocks and one more,
and they are different.
-/

namespace AgentOS.Fs

open Exec Session

/-- What is asked of a file system. -/
inductive Request
  | call (op : Op)
  | find (name : String)

namespace Request

def exec : Request → Exec Session Unit
  | .call op => do
    let _ ← op.exec
    pure ()
  | .find name => do
    let c ← get
    let _ ← onStorage (c.root.find name)
    pure ()

/-- What a call makes of the files. -/
def onFiles (F : Files) : Request → Files
  | .call op => (F.step op).2
  | .find _ => F

/-- Any name can be looked for. -/
def Legal (g : Geometry) (F : Files) : Request → Prop
  | .call op => F.Legal g op
  | .find _ => True

end Request

/-- The block of an offset is there. -/
def Inside (bytes : List UInt8) (offset : ℕ) : Prop :=
  offset < bytes.length ∨ offset = bytes.length ∧ bytes.length % blockSz ≠ 0

instance (bytes : List UInt8) (offset : ℕ) : Decidable (Inside bytes offset) :=
  inferInstanceAs (Decidable (_ ∨ _))

theorem Inside.le {bytes : List UInt8} {offset : ℕ} (h : Inside bytes offset) : offset ≤ bytes.length :=
  h.elim Nat.le_of_lt fun h ↦ h.1.le

theorem Inside.div_lt {bytes : List UInt8} {offset : ℕ} (h : Inside bytes offset) :
    offset / blockSz < blocksFor bytes.length := by
  unfold Inside at h
  simp only [blocksFor, blockSz] at *
  omega

/-- A file system is made, called and opened again. In between nothing is written to files, where there is a
block for it. -/
inductive Visited (g : Geometry) (D : DeviceId) : Files → Session → Prop
  | made {c : Session} : Made g D c → Visited g D [] c
  | called {F : Files} {c c' : Session} {request : Request} : Visited g D F c → request.Legal g F →
      request.exec.Returns c () c' → Visited g D (request.onFiles F) c'
  | wroteNothing {F : Files} {c c' : Session} {i offset : ℕ} {out : Out} : Visited g D F c →
      i < F.length → Inside (F.bytes i) offset → (Op.writeAt i offset []).exec.Returns c out c' →
      Visited g D F c'
  | reopened {F : Files} {c c' : Session} : Visited g D F c → (Session.reopen D).Returns c () c' →
      Visited g D F c'

variable {g : Geometry} {D : DeviceId} {F : Files} {c : Session} {r : Request}

namespace Represents

/-- **Looking for a name** that may be there or not. -/
theorem find (h : Represents g D F c) (name : String) :
    ∃ c', (Request.find name).exec.Returns c () c' ∧ Represents g D F c' ∧
      HoldsAtMost 3 c.storage c'.storage := by
  have hne : scan name F.names 0 ≠ none := scan_ne_none h.terminated
  obtain ⟨found, hfound⟩ := Option.ne_none_iff_exists'.mp hne
  obtain ⟨s', hret, hready, hheld⟩ := h.ready.find h.slots hfound
  refine ⟨_, ?_, h.of_ready hready, hheld⟩
  exact Returns.bind (returns_get.mpr ⟨rfl, rfl⟩) ((returns_onStorage (h.root ▸ hret)).bind
    (returns_pure.mpr ⟨rfl, rfl⟩))

theorem request (h : Represents g D F c) (hlegal : r.Legal g F) :
    ∃ c', r.exec.Returns c () c' ∧ Represents g D (r.onFiles F) c' ∧
      HoldsAtMost 3 c.storage c'.storage := by
  cases r with
  | call op =>
    obtain ⟨c', hret, hrep, hheld⟩ := h.step hlegal
    exact ⟨c', hret.bind (returns_pure.mpr ⟨rfl, rfl⟩), hrep, hheld⟩
  | find name => exact h.find name

/-- **Writing nothing** leaves the files as they are. -/
theorem writeNothing (h : Represents g D F c) {i offset : ℕ} (hi : i < F.length)
    (hinside : Inside (F.bytes i) offset) :
    ∃ c', (Op.writeAt i offset []).exec.Returns c (.written 0) c' ∧ Represents g D F c' := by
  have hbytes := Files.getElem?_bytes hi
  obtain ⟨hlt, hget⟩ := List.getElem?_eq_some_iff.mp hbytes
  have hsame : F.volume.set (i + 1) (overlay (F.bytes i) offset []) = F.volume := by
    rw [overlay_nil hinside.le, ← hget, List.set_getElem_self]
  have hstart : offset / blockSz < blocksFor (max (F.bytes i).length (offset + ([] : List UInt8).length)) := by
    rw [List.length_nil, Nat.add_zero, Nat.max_eq_left hinside.le]
    exact hinside.div_lt
  obtain ⟨s', hret, hready, -⟩ := h.ready.writeAt hbytes hstart (by rw [hsame]; exact h.ready.holds.fits)
  rw [hsame] at hready
  exact ⟨_, (h.returns_file hi).bind ((returns_onStorage hret).bind (returns_pure.mpr ⟨rfl, rfl⟩)),
    h.of_ready hready⟩

end Represents

theorem Visited.represents (h : Visited g D F c) : Represents g D F c := by
  induction h with
  | made h => exact h.represents
  | called _ hlegal hret ih =>
    obtain ⟨c'', hret', hrep, -⟩ := ih.request hlegal
    obtain ⟨-, rfl⟩ := hret.det hret'
    exact hrep
  | wroteNothing _ hi hinside hret ih =>
    obtain ⟨c'', hret', hrep⟩ := ih.writeNothing hi hinside
    obtain ⟨-, rfl⟩ := hret.det hret'
    exact hrep
  | reopened _ hret ih =>
    obtain ⟨c'', hret', hrep⟩ := ih.reopen
    obtain ⟨-, rfl⟩ := hret.det hret'
    exact hrep

/-- **No call waits for itself**: it returns, so it has met no lock that is taken and no full cache. Whenever it
has locked a block this was not one of those it had locked, and it held three at most. -/
theorem calls_lock_apart (h : Visited g D F c) (hlegal : r.Legal g F) :
    ∃ c', r.exec.Returns c () c' ∧ ∃ uses, c'.storage.uses = uses ++ c.storage.uses ∧
      ∀ u ∈ uses, u.block ∉ u.held ∧ u.entries ≤ 3 := by
  obtain ⟨c', hret, -, hheld⟩ := h.represents.request hlegal
  exact ⟨c', hret, hheld⟩

theorem calls_lock_apart_small : ∃ c, Made smallFs 0 c ∧ ∃ c₁ c₂,
    (Request.call (.create "a")).exec.Returns c () c₁ ∧ (Request.find "a").exec.Returns c₁ () c₂ ∧
      ∃ uses, c₂.storage.uses = uses ++ c.storage.uses ∧ ∀ u ∈ uses, u.block ∉ u.held ∧ u.entries ≤ 3 := by
  obtain ⟨c, hmade⟩ := exists_made (g := smallFs) (D := 0) (by decide)
  have hlegal : (Request.call (.create "a")).Legal smallFs [] :=
    (by decide +kernel : Files.Legal smallFs [] (.create "a"))
  obtain ⟨c₁, hret₁, hheld₁⟩ := @calls_lock_apart smallFs 0 [] c (.call (.create "a")) (.made hmade) hlegal
  obtain ⟨c₂, hret₂, hheld₂⟩ := @calls_lock_apart smallFs 0 _ c₁ (.find "a")
    (.called (.made hmade) hlegal hret₁) trivial
  exact ⟨c, hmade, c₁, c₂, hret₁, hret₂, Locks.trans hheld₁ hheld₂⟩

end AgentOS.Fs
