import AgentOS.Run.Agents

/-!
# Tool calls

A tool call says in the loop state that it has begun before it reads the request, and that there is
something to observe when the reply is written. In between there are two ways to fail: the request is
no request, or the answer is too long. Both leave the loop state as it was set at the beginning.
-/

namespace AgentOS

namespace Kernel

/-! ## The dispatcher -/

/-- What a dispatched request does. The tools that answer with bytes change nothing but the clock. -/
inductive Dispatched (k : Kernel) (dr : DispatchResult) : Kernel → Prop
  | reads {m : Machine} (hbytes : m.bytes = k.machine.bytes) :
      Dispatched k dr { k with machine := m }
  | delivers {t pid : ℕ} {ext : AgentExt} {payload : List UInt8} (hbody : dr.body = [])
      (hext : k.extOf t = some ext) : Dispatched k dr (k.deliver t pid ext payload)

section Dispatcher

variable {k k' : Kernel} {req : ToolRequest}

theorem Dispatched.refl (k : Kernel) (dr : DispatchResult) : Dispatched k dr k := .reads rfl

/-- The handlers that read the processes or the files never fail. -/
theorem exists_of_handlers (procs : List ProcessInfo) (store : FileAttrStore) (now : ℕ)
    (req : ToolRequest) : (∃ dr, systemStatus procs now = .ok dr) ∧
      (∃ dr, queryProcess procs req = .ok dr) ∧ (∃ dr, readContext procs req = .ok dr) ∧
        ∃ dr, queryFile store req = .ok dr := by
  refine ⟨⟨_, rfl⟩, ?_, ?_, ?_⟩
  · unfold queryProcess
    split <;> exact ⟨_, rfl⟩
  · unfold readContext
    split
    · split
      · exact ⟨_, rfl⟩
      · split
        · exact ⟨_, rfl⟩
        · split <;> exact ⟨_, rfl⟩
    · exact ⟨_, rfl⟩
  · unfold queryFile
    split <;> exact ⟨_, rfl⟩

/-- **The dispatcher** always comes to a result. -/
theorem dispatch_cases {res : AgentResult DispatchResult} (h : (dispatch req).Returns k res k') :
    ∃ dr, res = .ok dr ∧ Dispatched k dr k' := by
  unfold dispatch at h
  split at h
  · obtain ⟨procs, k₁, hprocs, h₁⟩ := Exec.returns_bind.mp h
    obtain ⟨now, k₂, hnow, hpure⟩ := Exec.returns_bind.mp h₁
    obtain ⟨rfl, rfl⟩ := Exec.returns_pure.mp hpure
    obtain rfl := collectProcesses_state hprocs
    obtain ⟨m, hm, rfl⟩ := returns_onMachine.mp hnow
    refine ⟨_, rfl, .reads ?_⟩
    simp only [Machine.getTime, Exec.returns_bind, Exec.returns_get, Exec.returns_modify,
      Exec.returns_pure] at hm
    obtain ⟨_, _, ⟨rfl, rfl⟩, _, _, rfl, -, rfl⟩ := hm
    rfl
  · obtain ⟨procs, k₁, hprocs, hpure⟩ := Exec.returns_bind.mp h
    obtain ⟨rfl, rfl⟩ := Exec.returns_pure.mp hpure
    obtain rfl := collectProcesses_state hprocs
    obtain ⟨dr, hdr⟩ := (exists_of_handlers procs .new 0 req).2.1
    exact ⟨dr, hdr, .refl k' dr⟩
  · obtain ⟨procs, k₁, hprocs, hpure⟩ := Exec.returns_bind.mp h
    obtain ⟨rfl, rfl⟩ := Exec.returns_pure.mp hpure
    obtain rfl := collectProcesses_state hprocs
    obtain ⟨dr, hdr⟩ := (exists_of_handlers procs .new 0 req).2.2.1
    exact ⟨dr, hdr, .refl k' dr⟩
  · unfold sendMessage at h
    split at h
    · obtain ⟨ok, k₁, hdeliver, hpure⟩ := Exec.returns_bind.mp h
      obtain ⟨rfl, rfl⟩ := Exec.returns_pure.mp hpure
      refine ⟨_, rfl, ?_⟩
      obtain ⟨tasks, -, ⟨-, rfl, -⟩ | ⟨t, ext, -, hext, -, -, rfl⟩⟩ := deliverMessage_cases hdeliver
      · exact .refl k' _
      · exact .delivers rfl hext
    · obtain ⟨rfl, rfl⟩ := Exec.returns_pure.mp h
      exact ⟨_, rfl, .refl k' _⟩
  · simp only [Exec.returns_bind, Exec.returns_get, Exec.returns_pure] at h
    obtain ⟨_, _, ⟨rfl, rfl⟩, hres, rfl⟩ := h
    obtain ⟨dr, hdr⟩ := (exists_of_handlers [] k'.fileAttrStore 0 req).2.2.2
    exact ⟨dr, hres.trans hdr, .refl k' dr⟩

theorem Dispatched.bytes {dr : DispatchResult} (h : Dispatched k dr k') :
    k'.machine.bytes = k.machine.bytes := by
  cases h with
  | reads hbytes => exact hbytes
  | delivers => exact congrArg Machine.bytes (wakes_wakeAgentByPid _ _).machine

end Dispatcher

/-! ## The call -/

/-- The words that a reply writes: the offset and the length of the body, or zeros. -/
def replyWords (dr : DispatchResult) : ℕ × ℕ :=
  if dr.status = .ok ∧ dr.body ≠ [] then (Layout.toolResultOff, dr.body.length) else (0, 0)

section Calls

variable [KernelLayout]

/-- What a reply writes: the body to the context area, and the two words to the user. -/
structure Replied (pt : PageTable) (areaBase : ℕ) (dr : DispatchResult)
    (outOffsetPtr outLenPtr : ℕ) (m m' : Machine) : Prop where
  exists_body : ∃ m₁, ((if dr.status = .ok ∧ dr.body ≠ [] then
      writeUserBytes .contextArea pt (areaBase + Layout.toolResultOff) dr.body else pure ()) :
        Exec Machine Unit).Returns m () m₁ ∧
    ∃ m₂, (writeOut pt outOffsetPtr (replyWords dr).1).Returns m₁ () m₂ ∧
      (writeOut pt outLenPtr (replyWords dr).2).Returns m₂ () m'

/-- The kernel in which a tool call is dispatched: the loop state says that there is a call, and the
request was read. -/
def calling (k : Kernel) (t : ℕ) (m : Machine) : Kernel :=
  { k.setExt t fun ext ↦ { ext with loopState := .calling } with machine := m }

/-- What a tool call of an agent does, and its return value. -/
inductive ToolCalled (t : ℕ) (pt : PageTable) (areaBase reqPtr reqLen outOffsetPtr outLenPtr : ℕ)
    (k : Kernel) : ℤ → Kernel → Prop
  | refused (hargs : reqPtr = 0 ∨ reqLen = 0 ∨ 64 * 1024 < reqLen) :
      ToolCalled t pt areaBase reqPtr reqLen outOffsetPtr outLenPtr k (-1) k
  | malformed {reqBuf : List UInt8} {m : Machine} {e : DecodeError}
      (hargs : ¬(reqPtr = 0 ∨ reqLen = 0 ∨ 64 * 1024 < reqLen))
      (hread : (readUserBytes .userPtr pt reqPtr (List.replicate reqLen 0)).Returns k.machine
        reqBuf m) (hreq : decodeRequest reqBuf = .error e) :
      ToolCalled t pt areaBase reqPtr reqLen outOffsetPtr outLenPtr k (-3) (k.calling t m)
  | tooLong {reqBuf : List UInt8} {m : Machine} {req : ToolRequest} {dr : DispatchResult}
      {k₁ : Kernel} (hargs : ¬(reqPtr = 0 ∨ reqLen = 0 ∨ 64 * 1024 < reqLen))
      (hread : (readUserBytes .userPtr pt reqPtr (List.replicate reqLen 0)).Returns k.machine
        reqBuf m) (hreq : decodeRequest reqBuf = .ok req)
      (hdispatch : (dispatch req).Returns (k.calling t m) (.ok dr) k₁) (hok : dr.status = .ok)
      (hlong : Layout.toolResultLen < dr.body.length) :
      ToolCalled t pt areaBase reqPtr reqLen outOffsetPtr outLenPtr k (-5) k₁
  | answered {reqBuf : List UInt8} {m m' : Machine} {req : ToolRequest} {dr : DispatchResult}
      {k₁ : Kernel} (hargs : ¬(reqPtr = 0 ∨ reqLen = 0 ∨ 64 * 1024 < reqLen))
      (hread : (readUserBytes .userPtr pt reqPtr (List.replicate reqLen 0)).Returns k.machine
        reqBuf m) (hreq : decodeRequest reqBuf = .ok req)
      (hdispatch : (dispatch req).Returns (k.calling t m) (.ok dr) k₁)
      (hfits : dr.status = .ok → dr.body.length ≤ Layout.toolResultLen)
      (hreply : Replied pt areaBase dr outOffsetPtr outLenPtr k₁.machine m') :
      ToolCalled t pt areaBase reqPtr reqLen outOffsetPtr outLenPtr k dr.status.returnValue
        ({ k₁ with machine := m' }.setExt t fun ext ↦ { ext with loopState := .observing })

variable {k k' : Kernel} {r : Option ℤ}

theorem returns_toolReply {t areaBase outOffsetPtr outLenPtr : ℕ} {pt : PageTable}
    {dr : DispatchResult} :
    (toolReply t pt areaBase dr outOffsetPtr outLenPtr).Returns k r k' ↔
      (dr.status = .ok ∧ Layout.toolResultLen < dr.body.length ∧ r = some (-5) ∧ k' = k) ∨
      ((dr.status = .ok → dr.body.length ≤ Layout.toolResultLen) ∧
        r = some dr.status.returnValue ∧
        ∃ m, Replied pt areaBase dr outOffsetPtr outLenPtr k.machine m ∧
          k' = { k with machine := m }.setExt t fun ext ↦ { ext with loopState := .observing }) := by
  by_cases hlong : dr.status = .ok ∧ Layout.toolResultLen < dr.body.length
  · obtain ⟨hok, hlen⟩ := hlong
    have hfilled : (dr.status = .ok ∧ dr.body ≠ []) ∧ Layout.toolResultLen < dr.body.length := by
      refine ⟨⟨hok, ?_⟩, hlen⟩
      rintro hnil
      rw [hnil] at hlen
      exact absurd hlen (Nat.not_lt_zero _)
    rw [toolReply, if_pos hfilled, Exec.returns_pure]
    constructor
    · rintro ⟨rfl, rfl⟩
      exact Or.inl ⟨hok, hlen, rfl, rfl⟩
    · rintro (⟨-, -, rfl, rfl⟩ | ⟨hfits, -⟩)
      · exact ⟨rfl, rfl⟩
      · exact absurd (hfits hok) (not_le.mpr hlen)
  · have hfits : dr.status = .ok → dr.body.length ≤ Layout.toolResultLen :=
      fun hok ↦ not_lt.mp fun hlen ↦ hlong ⟨hok, hlen⟩
    have hwords : (if dr.status = .ok ∧ dr.body ≠ [] then Layout.toolResultOff else 0) =
          (replyWords dr).1 ∧
        (if dr.status = .ok ∧ dr.body ≠ [] then dr.body.length else 0) = (replyWords dr).2 := by
      rw [replyWords]
      split <;> exact ⟨rfl, rfl⟩
    have hnot : ¬((dr.status = .ok ∧ dr.body ≠ []) ∧ Layout.toolResultLen < dr.body.length) :=
      fun h ↦ hlong ⟨h.1.1, h.2⟩
    rw [toolReply, if_neg hnot, hwords.1, hwords.2]
    simp only [Exec.returns_bind, returns_onMachine, Exec.returns_modify, Exec.returns_pure]
    constructor
    · rintro ⟨_, _, ⟨m₁, h₁, rfl⟩, _, _, ⟨m₂, h₂, rfl⟩, _, _, ⟨m₃, h₃, rfl⟩, _, _, rfl, rfl, rfl⟩
      exact Or.inr ⟨hfits, rfl, m₃, ⟨m₁, h₁, m₂, h₂, h₃⟩, rfl⟩
    · rintro (⟨hok, hlen, -⟩ | ⟨-, rfl, m₃, ⟨m₁, h₁, m₂, h₂, h₃⟩, rfl⟩)
      · exact absurd ⟨hok, hlen⟩ hlong
      · exact ⟨(), _, ⟨m₁, h₁, rfl⟩, (), _, ⟨m₂, h₂, rfl⟩, (), _, ⟨m₃, h₃, rfl⟩, (), _, rfl, rfl,
          rfl⟩

/-- **A tool call of an agent.** -/
theorem returns_sysToolCall {t reqPtr reqLen outOffsetPtr outLenPtr : ℕ} {tcb : TaskControlBlock}
    {ext : AgentExt} (hcur : k.current = some t) (htcb : k.tasks t = some tcb)
    (hext : tcb.agentExt = some ext) :
    (sysToolCall reqPtr reqLen outOffsetPtr outLenPtr).Returns k r k' ↔
      ∃ v, r = some v ∧ ToolCalled t tcb.memorySet.pageTable ext.contextAreaBase reqPtr reqLen
        outOffsetPtr outLenPtr k v k' := by
  by_cases hargs : reqPtr = 0 ∨ reqLen = 0 ∨ 64 * 1024 < reqLen
  · rw [sysToolCall, if_pos hargs, Exec.returns_pure]
    constructor
    · rintro ⟨rfl, rfl⟩
      exact ⟨_, rfl, .refused hargs⟩
    · rintro ⟨v, rfl, hcalled⟩
      cases hcalled with
      | refused => exact ⟨rfl, rfl⟩
      | malformed hno => exact absurd hargs hno
      | tooLong hno => exact absurd hargs hno
      | answered hno => exact absurd hargs hno
  rw [sysToolCall, if_neg hargs]
  constructor
  · intro h
    obtain ⟨u, ucb, hu, hucb, ⟨hnone, -⟩ | ⟨ext', hext', hbody⟩⟩ := returns_withExt h
    · obtain rfl := Option.some.inj (hcur.symm.trans hu)
      obtain rfl := Option.some.inj (htcb.symm.trans hucb)
      exact absurd (hext.symm.trans hnone) (by simp)
    obtain rfl := Option.some.inj (hcur.symm.trans hu)
    obtain rfl := Option.some.inj (htcb.symm.trans hucb)
    obtain rfl := Option.some.inj (hext.symm.trans hext')
    obtain ⟨_, _, hmodify, h₁⟩ := Exec.returns_bind.mp hbody
    obtain ⟨reqBuf, _, hcopy, h₂⟩ := Exec.returns_bind.mp h₁
    obtain rfl := Exec.returns_modify.mp hmodify
    obtain ⟨m, hread, rfl⟩ := returns_onMachine.mp hcopy
    split at h₂
    · rename_i e hreq
      obtain ⟨rfl, rfl⟩ := Exec.returns_pure.mp h₂
      exact ⟨_, rfl, .malformed hargs hread hreq⟩
    · rename_i req hreq
      obtain ⟨res, k₁, hdispatch, h₃⟩ := Exec.returns_bind.mp h₂
      obtain ⟨dr, rfl, -⟩ := dispatch_cases hdispatch
      obtain ⟨hok, hlong, rfl, rfl⟩ | ⟨hfits, rfl, m', hreply, rfl⟩ := returns_toolReply.mp h₃
      · exact ⟨_, rfl, .tooLong hargs hread hreq hdispatch hok hlong⟩
      · exact ⟨_, rfl, .answered hargs hread hreq hdispatch hfits hreply⟩
  · rintro ⟨v, rfl, hcalled⟩
    have hcurrent : currentTask.Returns k (t, tcb) k := returns_currentTask.mpr ⟨hcur, htcb, rfl⟩
    refine hcurrent.bind ?_
    simp only [hext]
    refine Exec.Returns.bind (a := ()) (Exec.returns_modify.mpr rfl) ?_
    have honMachine : ∀ {reqBuf m},
        (readUserBytes .userPtr tcb.memorySet.pageTable reqPtr (List.replicate reqLen 0)).Returns
          k.machine reqBuf m →
        (onMachine (readUserBytes .userPtr tcb.memorySet.pageTable reqPtr
          (List.replicate reqLen 0))).Returns
            (k.setExt t fun ext ↦ { ext with loopState := .calling }) reqBuf (k.calling t m) :=
      fun hread ↦ returns_onMachine.mpr ⟨_, hread, rfl⟩
    cases hcalled with
    | refused hbad => exact absurd hbad hargs
    | malformed _ hread hreq =>
      refine (honMachine hread).bind ?_
      rw [hreq]
      exact Exec.returns_pure.mpr ⟨rfl, rfl⟩
    | tooLong _ hread hreq hdispatch hok hlong =>
      refine (honMachine hread).bind ?_
      rw [hreq]
      exact hdispatch.bind (returns_toolReply.mpr (Or.inl ⟨hok, hlong, rfl, rfl⟩))
    | answered _ hread hreq hdispatch hfits hreply =>
      refine (honMachine hread).bind ?_
      rw [hreq]
      exact hdispatch.bind (returns_toolReply.mpr (Or.inr ⟨hfits, rfl, _, hreply, rfl⟩))

end Calls

end Kernel

end AgentOS
