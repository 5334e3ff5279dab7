import AgentOS.Syscall.DescriptorRuns

/-!
# Sharing an open file

A fork copies descriptors and not open files, so that parent and child read on where the other has stopped. When
nobody changes the file in the meantime, what they get, put together in the order of the calls, is the file from
where it was open at: no byte is delivered twice and none is left out, whoever reads, through which descriptor, and
in pieces of any size.
-/

namespace AgentOS

open Exec Fs

/-! ## What calls deliver -/

/-- What a call delivered from an open file. -/
def FileEvent.delivered (arc : ℕ) (e : FileEvent) : List UInt8 :=
  match e.request, e.handle with
  | .read _ _, some (arc', _) => if arc' = arc then e.got.take e.value.toNat else []
  | _, _ => []

/-- What calls delivered from an open file, the last call first. -/
def delivered (arc : ℕ) : List FileEvent → List UInt8
  | [] => []
  | e :: events => delivered arc events ++ e.delivered arc

/-- A call that leaves a file as it is: it writes nothing to it and does not open it to clear it. -/
def FileEvent.Quiet (F : Files) (i : ℕ) (e : FileEvent) : Prop :=
  match e.request with
  | .write _ data => ∀ arc h, e.handle = some (arc, h) → h.file = i → data = []
  | .open_ name flags => F.names[i]? = some name → ¬(flags.contains .CREATE ∨ flags.contains .TRUNC)
  | _ => True

/-- From an open file those bytes were delivered that are behind its offset. -/
structure Delivers (arc : ℕ) (hd : Handle) (p : Posix) (got : List UInt8) (p' : Posix) : Prop where
  handle : p'.handles[arc]? = some { hd with offset := hd.offset + got.length }
  bytes : p'.files.bytes hd.file = p.files.bytes hd.file
  names : p.files.names <+: p'.files.names
  got : got = ((p.files.bytes hd.file).drop hd.offset).take got.length

variable {g : Geometry} {D : DeviceId} {p p' : Posix} {arc t : ℕ} {hd : Handle} {got : List UInt8}

/-- What is read is what is behind the offset. -/
theorem take_readInto_self (bytes : List UInt8) (offset : ℕ) (buf : List UInt8) :
    (readInto bytes offset buf).take (min buf.length (bytes.length - offset)) =
      (bytes.drop offset).take (min buf.length (bytes.length - offset)) := by
  have hlength : ((bytes.drop offset).take buf.length).length = min buf.length (bytes.length - offset) := by
    rw [List.length_take, List.length_drop]
  rw [readInto, List.take_left' hlength, List.take_eq_take_iff, List.length_drop]
  omega

theorem length_take_readInto (bytes : List UInt8) (offset : ℕ) (buf : List UInt8) :
    ((readInto bytes offset buf).take (min buf.length (bytes.length - offset))).length =
      min buf.length (bytes.length - offset) := by
  rw [take_readInto_self, List.length_take, List.length_drop]
  omega

/-- Names of files stay, and a file that is not cleared keeps its bytes. -/
theorem Fs.Files.openFile_quiet (F : Files) (i : ℕ) (name : String) (flags : OpenFlags)
    (hquiet : F.names[i]? = some name → ¬(flags.contains .CREATE ∨ flags.contains .TRUNC)) :
    (F.openFile name flags).2.bytes i = F.bytes i ∧ F.names <+: (F.openFile name flags).2.names := by
  cases hfind : F.find name with
  | some j =>
    rw [Files.openFile_of_find hfind]
    by_cases hclear : flags.contains .CREATE ∨ flags.contains .TRUNC
    · have hne : i ≠ j := by
        rintro rfl
        exact hquiet (Files.find_eq_some hfind) hclear
      rw [if_pos hclear]
      exact ⟨Files.bytes_put _ _ hne, by rw [Files.names_put]⟩
    · rw [if_neg hclear]
      exact ⟨rfl, List.prefix_rfl⟩
  | none =>
    rw [Files.openFile_of_not_find hfind]
    split_ifs
    · exact ⟨Files.bytes_concat F name i, by rw [Files.names_concat]; exact List.prefix_append _ _⟩
    · exact ⟨rfl, List.prefix_rfl⟩

theorem Posix.handle_eq_some {fd : ℕ} {r : ℕ × Handle} (h : p.handle t fd = some r) : p.handles[r.1]? = some r.2 := by
  unfold handle at h
  split at h
  · obtain ⟨h', hh', rfl⟩ := Option.map_eq_some_iff.mp h
    exact hh'
  · exact absurd h (by simp)

theorem Posix.handle_of_stdin {fd : ℕ} (h : p.file t fd = some .stdin) : p.handle t fd = none := by
  rw [handle, h]

namespace Delivers

variable {e : FileEvent}

theorem refl (h : p.handles[arc]? = some hd) : Delivers arc hd p [] p :=
  ⟨h, rfl, List.prefix_rfl, rfl⟩

/-- Nothing more is delivered. -/
theorem of_same (h : Delivers arc hd p got p') {p₁ : Posix} (hhandle : p₁.handles[arc]? = p'.handles[arc]?)
    (hbytes : p₁.files.bytes hd.file = p'.files.bytes hd.file) (hnames : p'.files.names <+: p₁.files.names) :
    Delivers arc hd p got p₁ :=
  ⟨hhandle.trans h.handle, hbytes.trans h.bytes, h.names.trans hnames, h.got⟩

/-- The next bytes are delivered. -/
theorem advance (h : Delivers arc hd p got p') {hd' : Handle} (hhd' : p'.handles[arc]? = some hd') {n : ℕ}
    {more : List UInt8} (hmore : more = ((p'.files.bytes hd'.file).drop hd'.offset).take n)
    (hlength : more.length = n) : Delivers arc hd p (got ++ more) (p'.advance arc hd' n) := by
  obtain rfl := Option.some.inj (h.handle.symm.trans hhd')
  refine ⟨?_, h.bytes, h.names, ?_⟩
  · have hlt := (List.getElem?_eq_some_iff.mp hhd').1
    rw [Posix.advance, List.getElem?_set_self hlt, List.length_append, hlength, Nat.add_assoc]
  · dsimp only at hmore
    rw [h.bytes, ← List.drop_drop] at hmore
    rw [List.length_append, List.take_add, ← h.got, hlength, ← hmore]

theorem read (h : Delivers arc hd p got p') {fd : ℕ} {buf : List UInt8} (hrequest : e.request = .read fd buf)
    (hhandle : e.handle = p'.handle t fd) (hvalue : e.value = (p'.read t fd buf).1.1)
    (hgot : e.got = (p'.read t fd buf).1.2) : Delivers arc hd p (got ++ e.delivered arc) (p'.read t fd buf).2 := by
  unfold Posix.read at hvalue hgot ⊢
  by_cases hstdin : p'.file t fd = some .stdin
  · have hnone : e.delivered arc = [] := by
      rw [FileEvent.delivered, hrequest, hhandle, Posix.handle_of_stdin hstdin]
    rw [if_pos hstdin, hnone, List.append_nil]
    exact h.of_same rfl rfl List.prefix_rfl
  · rw [if_neg hstdin] at hvalue hgot ⊢
    cases hcase : p'.handle t fd with
    | none =>
      have hnone : e.delivered arc = [] := by rw [FileEvent.delivered, hrequest, hhandle, hcase]
      rw [hnone, List.append_nil]
      exact h
    | some r =>
      have hhd' := Posix.handle_eq_some hcase
      have hdelivered : e.delivered arc = if r.1 = arc then e.got.take e.value.toNat else [] := by
        rw [FileEvent.delivered, hrequest, hhandle, hcase]
      rw [hcase] at hvalue hgot
      dsimp only at hvalue hgot ⊢
      rw [hdelivered]
      by_cases hreadable : r.2.readable = true
      · rw [if_pos hreadable] at hvalue hgot ⊢
        dsimp only at hvalue hgot ⊢
        by_cases harc : r.1 = arc
        · subst harc
          rw [if_pos rfl, hgot, hvalue, Int.toNat_natCast]
          exact h.advance hhd' (take_readInto_self _ _ _) (length_take_readInto _ _ _)
        · rw [if_neg harc, List.append_nil]
          refine h.of_same ?_ rfl List.prefix_rfl
          rw [Posix.advance, List.getElem?_set_ne harc]
      · rw [if_neg hreadable] at hvalue ⊢
        have hnone : e.got.take e.value.toNat = [] := by rw [hvalue]; rfl
        rw [hnone, ite_self, List.append_nil]
        exact h

theorem write (h : Delivers arc hd p got p') {fd : ℕ} {data : List UInt8}
    (hquiet : ∀ arc h, p'.handle t fd = some (arc, h) → h.file = hd.file → data = []) :
    Delivers arc hd p got (p'.write t fd data).2 := by
  unfold Posix.write
  by_cases hstdout : p'.file t fd = some .stdout
  · rw [if_pos hstdout]
    exact h.of_same rfl rfl List.prefix_rfl
  · rw [if_neg hstdout]
    cases hcase : p'.handle t fd with
    | none => exact h
    | some r =>
      have hhd' := Posix.handle_eq_some hcase
      dsimp only
      by_cases hwritable : r.2.writable = true
      · rw [if_pos hwritable]
        by_cases hnil : data = []
        · subst hnil
          refine h.of_same ?_ rfl List.prefix_rfl
          obtain ⟨hlt, hget⟩ := List.getElem?_eq_some_iff.mp hhd'
          show (p'.handles.set r.1 r.2)[arc]? = _
          rw [← hget, List.set_getElem_self]
        · have hne : hd.file ≠ r.2.file := fun heq ↦ hnil (hquiet r.1 r.2 hcase heq.symm)
          have harc : r.1 ≠ arc := fun heq ↦ by
            rw [heq, h.handle] at hhd'
            exact hne (congrArg Handle.file (Option.some.inj hhd') :)
          rw [if_neg hnil]
          refine h.of_same ?_ (Files.bytes_put _ _ hne) ?_
          · dsimp only [Posix.advance]
            rw [List.getElem?_set_ne harc]
          · dsimp only [Posix.advance]
            rw [Files.names_put]
      · rw [if_neg hwritable]
        exact h

/-- **Any call**: what it delivers is what is behind the offset, which moves on by that much. -/
theorem step (h : Delivers arc hd p got p') (hlt : hd.file < p.files.length) {request : FileRequest}
    (hrequest : e.request = request) (hhandle : e.handle = request.fd.bind (p'.handle t))
    (hvalue : e.value = (p'.step t request).1.1)
    (hgot : ∀ fd buf, request = .read fd buf → e.got = (p'.step t request).1.2)
    (hquiet : e.Quiet p.files hd.file) :
    Delivers arc hd p (got ++ e.delivered arc) (p'.step t request).2 := by
  rw [FileEvent.Quiet, hrequest] at hquiet
  cases request with
  | open_ name flags =>
    have hnone : e.delivered arc = [] := by rw [FileEvent.delivered, hrequest]
    rw [hnone, List.append_nil, Posix.step, Posix.open_]
    dsimp only at hquiet
    have hname : p'.files.names[hd.file]? = p.files.names[hd.file]? := by
      obtain ⟨rest, hrest⟩ := h.names
      rw [← hrest, List.getElem?_append_left (by rwa [Files.length_names])]
    obtain ⟨hbytes, hnames⟩ := p'.files.openFile_quiet hd.file name flags (by rwa [hname])
    cases (p'.files.openFile name flags).1 with
    | none => exact h
    | some i =>
      refine h.of_same ?_ hbytes hnames
      exact List.getElem?_append_left (List.getElem?_eq_some_iff.mp h.handle).1
  | close fd =>
    have hnone : e.delivered arc = [] := by rw [FileEvent.delivered, hrequest]
    rw [hnone, List.append_nil, Posix.step, Posix.close]
    split_ifs
    · exact h
    · exact h.of_same rfl rfl List.prefix_rfl
  | read fd buf => exact h.read hrequest hhandle hvalue (hgot fd buf rfl)
  | write fd data =>
    have hnone : e.delivered arc = [] := by rw [FileEvent.delivered, hrequest]
    rw [hnone, List.append_nil]
    dsimp only at hquiet
    rw [hhandle] at hquiet
    exact h.write hquiet

end Delivers

/-! ## Runs -/

section Runs

variable [KernelLayout] {s s' : Io} {pt : PageTable} {c : FileCall} {request : FileRequest}

/-- A call to read asks to read. -/
theorem FileCall.Asks.buffer_eq {m m' : Machine} {result : List UInt8} {fd : ℕ} {buf : List UInt8}
    (hasks : c.Asks g p t pt m (.read fd buf)) (hfills : c.Fills pt m m' result) : c.buffer pt m' = result := by
  cases hasks
  exact hfills.1

/-- **An open file is shared out**: while it is read, by anyone and through any descriptor that stands for it, and its
file is not changed, the bytes that are delivered are those behind its offset, one after the other. -/
theorem shared_reads {events : List FileEvent} (hsim : Simulates g D p s) (hserves : Serves g D p s events p' s')
    (harc : p.handles[arc]? = some hd) (hquiet : ∀ e ∈ events, e.Quiet p.files hd.file) :
    delivered arc events = ((p.files.bytes hd.file).drop hd.offset).take (delivered arc events).length ∧
      p'.handles[arc]? = some { hd with offset := hd.offset + (delivered arc events).length } := by
  have hlt := hsim.inside hd (List.mem_of_getElem? harc)
  suffices hdelivers : Delivers arc hd p (delivered arc events) p' from ⟨hdelivers.got, hdelivers.handle⟩
  induction hserves with
  | start => exact .refl harc
  | newTask t _ _ ih => exact (ih hquiet).of_same rfl rfl List.prefix_rfl
  | fork t child _ _ ih => exact (ih hquiet).of_same rfl rfl List.prefix_rfl
  | memory m _ ih => exact ih hquiet
  | type keys _ ih => exact (ih hquiet).of_same rfl rfl List.prefix_rfl
  | call hserves hasks hret ih =>
    obtain ⟨s₁, hret₁, -, hfills⟩ := (hserves.simulates hsim).call hasks
    obtain ⟨hvalue, rfl⟩ := hret.det hret₁
    obtain ⟨hfirst, hrest⟩ := List.forall_mem_cons.mp hquiet
    refine (ih hrest).step hlt rfl rfl hvalue (fun fd buf hread ↦ ?_) hfirst
    subst hread
    exact hasks.buffer_eq hfills

end Runs

section Example

attribute [local instance] sampleLayout

/-- Tasks that share an open file. -/
def sharedPosix : Posix :=
  ⟨[("abc", [1, 2, 3])], [⟨0, 0, true, false⟩], fun _ ↦ newFdTable ++ [some (.inode 0)], [], []⟩

theorem step_sharedPosix {first second : List UInt8} (hfirst : first.length = 2) (hsecond : second.length = 5) :
    (sharedPosix.step 1 (.read 3 first)).2.file 2 3 = some (.inode 0) ∧
    ((sharedPosix.step 1 (.read 3 first)).2.step 2 (.read 3 second)).2.handles[0]? = some ⟨0, 3, true, false⟩ := by
  simp [Posix.step, Posix.read, Posix.file, Posix.handle, Posix.advance, sharedPosix, newFdTable, Files.bytes,
    hfirst, hsecond]

/-- A task reads two bytes and another one what is left. -/
theorem shared_reads_abc : ∃ s s' events p', Serves smallFs 0 sharedPosix s events p' s' ∧
    events.map FileEvent.task = [2, 1] ∧ delivered 0 events = [1, 2, 3] := by
  obtain ⟨st, hst⟩ := exists_stores_abc
  obtain ⟨s, hs⟩ : ∃ s : Io, s = ⟨sampleMachine, st, Geometry.inode smallFs 0 0,
      [Handle.osInode smallFs 0 ⟨0, 0, true, false⟩], sharedPosix.fdTables, [], []⟩ := ⟨_, rfl⟩
  have hsim : Simulates smallFs 0 sharedPosix s := by
    subst hs
    refine ⟨hst, rfl, rfl, by decide, rfl, fun t arc harc ↦ ?_, rfl, rfl⟩
    have heq : arc = 0 := by simpa [sharedPosix, newFdTable] using harc
    exact heq ▸ Nat.zero_lt_one
  have hbacked : ∀ len ≤ 10, Backed .samplePages 4090 len := fun len hlen ↦
    backed_samplePages.sub le_rfl (Nat.add_le_add_left hlen _)
  have hlength : ∀ (m : Machine) len, ((PageTable.samplePages.userPlaces 4090 len).map m.byteAt).length = len :=
    fun m len ↦ by rw [List.length_map, PageTable.length_userPlaces]
  have hfirst : FileCall.Asks smallFs sharedPosix 1 .samplePages s.machine (.read 3 4090 2) _ :=
    .read (Or.inl (by decide)) (hbacked 2 (by decide)) fun hstdin ↦ absurd hstdin (by decide)
  obtain ⟨s₁, hret₁, hsim₁, -⟩ := hsim.call hfirst
  have hsteps := fun m ↦ step_sharedPosix (hlength s.machine 2) (hlength m 5)
  have hsecond : FileCall.Asks smallFs _ 2 .samplePages s₁.machine (.read 3 4090 5) _ :=
    .read (Or.inl (by decide)) (hbacked 5 (by decide)) fun hstdin ↦
      absurd ((hsteps s₁.machine).1.symm.trans hstdin) (by decide)
  obtain ⟨s₂, hret₂, -, -⟩ := hsim₁.call hsecond
  have hserves := ((Serves.start (g := smallFs) (D := 0)).call hfirst hret₁).call hsecond hret₂
  have harc : sharedPosix.handles[0]? = some ⟨0, 0, true, false⟩ := rfl
  obtain ⟨hgot, hhandle⟩ := shared_reads hsim hserves harc (by simp [FileCall.event, FileEvent.Quiet])
  have hmoved := congrArg Handle.offset (Option.some.inj (hhandle.symm.trans (hsteps s₁.machine).2))
  dsimp only at hmoved
  rw [Nat.zero_add] at hmoved
  refine ⟨s, s₂, _, _, hserves, rfl, ?_⟩
  rw [hgot, hmoved]
  rfl

end Example

end AgentOS
