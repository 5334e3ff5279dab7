import AgentOS.Agent.Error
import AgentOS.Agent.FileAttr
import AgentOS.Proto

/-!
# The kernel tools

A handler answers a decoded request with a status and a postcard body. Four of the five only read
kernel state: the table of processes, passed here as the list `collect_processes` makes of it, or
the file attribute store. `send_message` is not among them, since it delivers to a mailbox.

Serialising to a growing buffer cannot fail, so the internal error the source maps it to does not
occur.
-/

namespace AgentOS

open Postcard

/-! ## Lossy UTF-8 -/

/-- Is `b` a continuation byte? A missing byte reads as zero, which is not. -/
def isCont (b : ℕ) : Bool := 128 ≤ b ∧ b < 192

/-- The second byte that may follow a lead byte of a three- or four-byte sequence: the ranges that
exclude overlong forms, surrogates and code points past the last. -/
def secondOk (lead second : ℕ) : Bool :=
  if lead = 0xE0 then 0xA0 ≤ second ∧ second < 192
  else if lead = 0xED then 128 ≤ second ∧ second ≤ 0x9F
  else if lead = 0xF0 then 0x90 ≤ second ∧ second < 192
  else if lead = 0xF4 then 128 ≤ second ∧ second ≤ 0x8F
  else isCont second

/-- One step of a lossy decoder on a non-empty input: the character read, the replacement character
for a maximal invalid prefix, and the number of bytes used. -/
def lossyStep (b0 : ℕ) (rest : List ℕ) : Char × ℕ :=
  let b1 := rest.getD 0 0
  let b2 := rest.getD 1 0
  let b3 := rest.getD 2 0
  let bad := Char.ofNat 0xFFFD
  if b0 < 128 then (Char.ofNat b0, 1)
  else if 0xC2 ≤ b0 ∧ b0 < 0xE0 then
    if isCont b1 then (Char.ofNat (b0 % 32 * 64 + b1 % 64), 2) else (bad, 1)
  else if 0xE0 ≤ b0 ∧ b0 < 0xF0 then
    if !secondOk b0 b1 then (bad, 1)
    else if !isCont b2 then (bad, 2)
    else (Char.ofNat (b0 % 16 * 4096 + b1 % 64 * 64 + b2 % 64), 3)
  else if 0xF0 ≤ b0 ∧ b0 < 0xF5 then
    if !secondOk b0 b1 then (bad, 1)
    else if !isCont b2 then (bad, 2)
    else if !isCont b3 then (bad, 3)
    else (Char.ofNat (b0 % 8 * 262144 + b1 % 64 * 4096 + b2 % 64 * 64 + b3 % 64), 4)
  else (bad, 1)

/-- Decode with `k` steps of fuel. Each step uses a byte at least. -/
def lossyChars : ℕ → List ℕ → List Char
  | 0, _ => []
  | _ + 1, [] => []
  | k + 1, b :: rest => (lossyStep b rest).1 :: lossyChars k (rest.drop ((lossyStep b rest).2 - 1))

/-- `String::from_utf8_lossy`. -/
def fromUtf8Lossy (bytes : List UInt8) : String :=
  String.ofList (lossyChars bytes.length (bytes.map UInt8.toNat))

example : fromUtf8Lossy [0x68, 0xC3, 0xA9, 0xE2, 0x82, 0x21] = "hé\uFFFD!" := by decide

/-! ## Handlers -/

/-- The status of a tool and its serialised result. -/
structure DispatchResult where
  status : ToolStatus
  body : List UInt8
  deriving DecidableEq, Repr

def systemStatus (procs : List ProcessInfo) (now : ℕ) : AgentResult DispatchResult :=
  let info : SystemStatusInfo :=
    { totalProcs := procs.length
      agentProcs := (procs.filter (·.isAgent)).length
      runningProcs := (procs.filter (·.status = .running)).length
      memoryUsedBytes := 0
      uptimeTicks := now }
  .ok ⟨.ok, encodeSystemStatusInfo info⟩

def queryProcess (procs : List ProcessInfo) (req : ToolRequest) : AgentResult DispatchResult :=
  match req.params with
  | .queryProcess statusFilter tyFilter =>
    let procs := procs.filter fun p ↦
      (match statusFilter with | none => true | some s => p.status = s) &&
      (match tyFilter with | .any => true | .agent => p.isAgent | .normal => !p.isAgent)
    .ok ⟨.ok, encodeQueryResult encodeProcessInfo procs⟩
  | _ => .ok ⟨.badParams, []⟩

def readContext (procs : List ProcessInfo) (req : ToolRequest) : AgentResult DispatchResult :=
  match req.params with
  | .readContext targetType targetId =>
    match targetType with
    | .file => .ok ⟨.notImplemented, []⟩
    | _ =>
      match procs.find? (·.pid = targetId) with
      | none => .ok ⟨.toolNotFound, []⟩
      | some p =>
        if targetType = .agent ∧ !p.isAgent then .ok ⟨.permissionDenied, []⟩
        else .ok ⟨.ok, encodeProcessInfo p⟩
  | _ => .ok ⟨.badParams, []⟩

/-- What `query_file` reports about one name. The store knows neither inode nor size. -/
def fileInfo (store : FileAttrStore) (n : String) : FileInfo :=
  match store.get n with
  | some a =>
    { inodeId := 0, name := n, size := 0, tags := a.tags, owner := a.kv["owner"]?,
      digestPreview := fromUtf8Lossy (a.digest.take (min a.digest.length 48)) }
  | none => { inodeId := 0, name := n, size := 0, tags := [], owner := none, digestPreview := "" }

/-- The items `query_file` answers with, through the indexes or by a full scan. -/
def queryFileItems (store : FileAttrStore) (tag owner keyword : Option String) (useIndex : Bool) :
    List FileInfo :=
  let names := if useIndex then store.queryIndexed tag owner keyword
    else store.queryFullScan tag owner keyword
  names.map (fileInfo store)

def queryFile (store : FileAttrStore) (req : ToolRequest) : AgentResult DispatchResult :=
  match req.params with
  | .queryFile tag owner keyword useIndex =>
    .ok ⟨.ok, encodeQueryResult encodeFileInfo (queryFileItems store tag owner keyword useIndex)⟩
  | _ => .ok ⟨.badParams, []⟩

/-! ## The tool list -/

def toolDoc : ToolName → String
  | .systemStatus => "Returns overall system status (proc count, memory, uptime)."
  | .queryProcess => "Filter processes by status / agent type."
  | .readContext => "Read structured info about a process / file / agent by id."
  | .sendMessage => "Send an opaque byte payload to another process (task-5)."
  | .queryFile => "Query files by tag / owner / keyword (task-4)."

/-- The serialised tool descriptions. -/
def toolList : List UInt8 :=
  encodeQueryResult encodeToolDescriptor (ToolName.all.map fun t ↦ ⟨t.asStr, toolDoc t⟩)

/-! ## The two query paths, at the tool

The answers of `query_file` with and without the index agree up to order, except when no filter is
given: then the full scan lists every file and the indexed query, which never got a candidate list,
answers with none. -/

/-- With one set of filters, both query paths name the same files, each name once, and the tool
answers with the same items up to order. -/
structure SameAnswer (store : FileAttrStore) (tag owner keyword : Option String) : Prop where
  nodup_indexed : (store.queryIndexed tag owner keyword).Nodup
  nodup_scan : (store.queryFullScan tag owner keyword).Nodup
  mem_iff : ∀ n, n ∈ store.queryIndexed tag owner keyword ↔ n ∈ store.queryFullScan tag owner keyword
  items : (queryFileItems store tag owner keyword true).Perm
    (queryFileItems store tag owner keyword false)

theorem sameAnswer_of_lists {store : FileAttrStore} {tag owner keyword : Option String}
    {p : FileAttrs → Bool}
    (hi : FileAttrStore.Lists store p (store.queryIndexed tag owner keyword))
    (hs : FileAttrStore.Lists store p (store.queryFullScan tag owner keyword)) :
    SameAnswer store tag owner keyword where
  nodup_indexed := hi.nodup
  nodup_scan := hs.nodup
  mem_iff n := (hi.mem_iff n).trans (hs.mem_iff n).symm
  items := by
    have hperm := (List.perm_ext_iff_of_nodup hi.nodup hs.nodup).mpr fun n ↦
      (hi.mem_iff n).trans (hs.mem_iff n).symm
    exact hperm.map _

/-- **When the two paths agree.** On every reachable store, for every choice of filters, the indexed
query and the full scan give the same answer exactly when some filter is given or there is no file
to list. -/
theorem sameAnswer_run_iff (ops : List FileAttrOp) (tag owner keyword : Option String) :
    SameAnswer (.run ops) tag owner keyword ↔
      tag.isSome ∨ owner.isSome ∨ keyword.isSome ∨ (FileAttrStore.run ops).byName.isEmpty := by
  have hscan := FileAttrStore.lists_queryFullScan (.run ops) tag owner keyword
  constructor
  · intro h
    by_contra hno
    simp only [not_or] at hno
    obtain ⟨htag, howner, hkeyword, hfiles⟩ := hno
    obtain rfl : tag = none := by simpa using htag
    obtain rfl : owner = none := by simpa using howner
    obtain rfl : keyword = none := by simpa using hkeyword
    have hkeys : (FileAttrStore.run ops).byName.keys = [] := by
      rw [← FileAttrStore.queryFullScan_none, List.eq_nil_iff_forall_not_mem]
      intro n hn
      have := (h.mem_iff n).mpr hn
      rw [FileAttrStore.queryIndexed_none] at this
      exact List.not_mem_nil this
    rw [← List.isEmpty_iff, Std.TreeMap.isEmpty_keys] at hkeys
    exact hfiles hkeys
  · intro h
    by_cases hfilter : tag.isSome ∨ owner.isSome ∨ keyword.isSome
    · exact sameAnswer_of_lists
        (FileAttrStore.lists_queryIndexed (FileAttrStore.coherent_run ops) hfilter) hscan
    · simp only [not_or] at hfilter
      obtain ⟨htag, howner, hkeyword⟩ := hfilter
      obtain rfl : tag = none := by simpa using htag
      obtain rfl : owner = none := by simpa using howner
      obtain rfl : keyword = none := by simpa using hkeyword
      have hempty : (FileAttrStore.run ops).byName.isEmpty := by simpa using h
      have hnil : (FileAttrStore.run ops).queryFullScan none none none = [] := by
        rw [FileAttrStore.queryFullScan_none, ← List.isEmpty_iff, Std.TreeMap.isEmpty_keys]
        exact hempty
      refine sameAnswer_of_lists (p := fun a ↦ FileAttrStore.passes a none none none) ?_ hscan
      rw [FileAttrStore.queryIndexed_none, ← hnil]
      exact hscan

/-- One tagged file and no filter: the full scan names the file, the indexed query does not. -/
theorem not_sameAnswer_no_filter :
    ¬SameAnswer (.run [.addTag "a" "demo"]) none none none := by
  intro h
  have hscan : "a" ∈ (FileAttrStore.run [.addTag "a" "demo"]).queryFullScan none none none := by
    decide
  exact List.not_mem_nil ((h.mem_iff "a").mpr hscan)

end AgentOS
