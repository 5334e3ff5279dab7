import AgentOS.Mm.Machine

/-!
# Page tables

An SV39 page table is a tree of three levels: entries of the root and of the middle nodes point to
the nodes below, entries of the leaves to data pages. The node pages are described by the table that
owns them, entry by entry.

The second half says what the operations do to the translation the table stands for, the partial map
`lookup` from page numbers to valid entries. Mapping a page touches the entry of that page only,
provided that different paths from the root lead to different nodes and that a node page taken from
the allocator was not a node already.
-/

namespace AgentOS

/-! ## Entries -/

namespace PTEFlags

def V : ℕ := 1 <<< 0
def R : ℕ := 1 <<< 1
def W : ℕ := 1 <<< 2
def X : ℕ := 1 <<< 3
def U : ℕ := 1 <<< 4

end PTEFlags

structure PageTableEntry where
  bits : ℕ
  deriving DecidableEq, Repr

namespace PageTableEntry

def new (ppn flags : ℕ) : PageTableEntry := ⟨ppn <<< 10 ||| flags⟩

def empty : PageTableEntry := ⟨0⟩

/-- 44 bits of page number. -/
def ppn (pte : PageTableEntry) : ℕ := pte.bits >>> 10 &&& (2 ^ 44 - 1)

/-- The low eight bits. -/
def flags (pte : PageTableEntry) : ℕ := pte.bits % 256

def isValid (pte : PageTableEntry) : Bool := pte.flags.testBit 0
def readable (pte : PageTableEntry) : Bool := pte.flags.testBit 1
def writable (pte : PageTableEntry) : Bool := pte.flags.testBit 2
def executable (pte : PageTableEntry) : Bool := pte.flags.testBit 3

/-- Accessible in user mode. -/
def user (pte : PageTableEntry) : Bool := pte.flags.testBit 4

theorem flags_new (ppn : ℕ) {flags : ℕ} (h : flags < 256) : (new ppn flags).flags = flags := by
  have hlt : flags < 2 ^ 10 := by omega
  simp only [PageTableEntry.flags, new]
  rw [← Nat.shiftLeft_add_eq_or_of_lt hlt, Nat.shiftLeft_eq]
  omega

theorem ppn_new {ppn flags : ℕ} (hp : ppn < 2 ^ 44) (hf : flags < 256) :
    (new ppn flags).ppn = ppn := by
  have hlt : flags < 2 ^ 10 := by omega
  simp only [PageTableEntry.ppn, new]
  rw [← Nat.shiftLeft_add_eq_or_of_lt hlt, Nat.shiftLeft_eq, Nat.shiftRight_eq_div_pow,
    Nat.and_two_pow_sub_one_eq_mod]
  omega

@[simp] theorem isValid_empty : empty.isValid = false := rfl

end PageTableEntry

/-- The flags a mapping is entered with: those asked for, and valid. -/
theorem PTEFlags.testBit_or_V (flags : ℕ) : (flags ||| PTEFlags.V).testBit 0 = true := by
  simp [PTEFlags.V]

theorem PTEFlags.or_V_lt {flags : ℕ} (h : flags < 256) : flags ||| PTEFlags.V < 256 :=
  Nat.or_lt_two_pow (n := 8) h (by decide)

/-! ## Tables -/

structure PageTable where
  rootPpn : ℕ
  /-- The trackers of the node pages. -/
  frames : List ℕ
  /-- The entries of each node page. -/
  nodes : ℕ → ℕ → PageTableEntry

namespace PageTable

/-- An empty table: one cleared page. -/
def new : Exec Machine PageTable := do
  let frame ← Machine.frameAlloc
  pure ⟨frame, [frame], fun _ _ ↦ .empty⟩

/-- Write an entry. -/
def setEntry (pt : PageTable) (node idx : ℕ) (pte : PageTableEntry) : PageTable :=
  { pt with nodes := fun f i ↦ if f = node ∧ i = idx then pte else pt.nodes f i }

/-- The node that an entry points to, if the entry is valid. -/
def child (pt : PageTable) (node idx : ℕ) : Option ℕ :=
  if (pt.nodes node idx).isValid then some (pt.nodes node idx).ppn else none

/-- Take a cleared page as a new node and enter it. -/
def addNode (pt : PageTable) (node idx frame : ℕ) : PageTable :=
  let pt := { pt with nodes := fun f i ↦ if f = frame then .empty else pt.nodes f i }
  let pt := pt.setEntry node idx (.new frame PTEFlags.V)
  { pt with frames := pt.frames ++ [frame] }

/-- The node that an entry points to, with a new node entered if there is none. -/
def childCreate (pt : PageTable) (node idx : ℕ) : Exec Machine (ℕ × PageTable) :=
  if (pt.nodes node idx).isValid then pure ((pt.nodes node idx).ppn, pt)
  else do
    let frame ← Machine.frameAlloc
    pure (frame, pt.addNode node idx frame)

/-- Where the entry of a page is: its node and the index there. -/
def findPte (pt : PageTable) (vpn : ℕ) : Option (ℕ × ℕ) := do
  let (i, j, l) := VirtPageNum.indexes vpn
  let mid ← pt.child pt.rootPpn i
  let leaf ← pt.child mid j
  pure (leaf, l)

/-- Where the entry of a page is, with the missing nodes on the way to it entered. -/
def findPteCreate (pt : PageTable) (vpn : ℕ) : Exec Machine ((ℕ × ℕ) × PageTable) := do
  let (i, j, l) := VirtPageNum.indexes vpn
  let (mid, pt) ← pt.childCreate pt.rootPpn i
  let (leaf, pt) ← pt.childCreate mid j
  pure ((leaf, l), pt)

/-- Enter a mapping. The page must not be mapped. -/
def map (pt : PageTable) (vpn ppn flags : ℕ) : Exec Machine PageTable := do
  let ((node, idx), pt) ← pt.findPteCreate vpn
  Exec.assert ((pt.nodes node idx).isValid = false)
  pure (pt.setEntry node idx (.new ppn (flags ||| PTEFlags.V)))

/-- Clear a mapping. The page must be mapped. -/
def unmap (pt : PageTable) (vpn : ℕ) : Exec Machine PageTable := do
  let (node, idx) ← Exec.unwrap (pt.findPte vpn)
  Exec.assert ((pt.nodes node idx).isValid = true)
  pure (pt.setEntry node idx .empty)

/-- The entry of a page, valid or not. `none` when the walk does not reach a leaf. -/
def translate (pt : PageTable) (vpn : ℕ) : Option PageTableEntry :=
  (pt.findPte vpn).map fun p ↦ pt.nodes p.1 p.2

/-- The physical page and the offset of a virtual address. -/
def translateVa (pt : PageTable) (va : ℕ) : Option (ℕ × ℕ) :=
  (pt.translate (VirtAddr.floor va)).map fun pte ↦ (pte.ppn, VirtAddr.pageOffset va)

/-! ## The translation a table stands for -/

/-- The valid entry of a page: what the hardware finds. -/
def lookup (pt : PageTable) (vpn : ℕ) : Option PageTableEntry :=
  (pt.translate vpn).filter (·.isValid)

theorem translate_of_lookup {pt : PageTable} {vpn : ℕ} {pte : PageTableEntry}
    (h : pt.lookup vpn = some pte) : pt.translate vpn = some pte :=
  (Option.filter_eq_some_iff.mp h).1

/-- The node at the end of a path of indexes from the root. -/
def node (pt : PageTable) : List ℕ → Option ℕ
  | [] => some pt.rootPpn
  | [i] => pt.child pt.rootPpn i
  | [i, j] => (pt.child pt.rootPpn i).bind fun mid ↦ pt.child mid j
  | _ => none

theorem node_root (pt : PageTable) : pt.node [] = some pt.rootPpn := rfl

/-- The node pages are tracked, and each is the end of one path only. -/
structure Wf (pt : PageTable) : Prop where
  node_mem : ∀ path ppn, pt.node path = some ppn → ppn ∈ pt.frames
  node_inj : ∀ path path' ppn, pt.node path = some ppn → pt.node path' = some ppn → path = path'

theorem translate_eq (pt : PageTable) (vpn : ℕ) :
    pt.translate vpn = (pt.node [(VirtPageNum.indexes vpn).1, (VirtPageNum.indexes vpn).2.1]).map
      fun leaf ↦ pt.nodes leaf (VirtPageNum.indexes vpn).2.2 := by
  simp only [translate, findPte, node, Option.bind_eq_bind, Option.pure_def]
  cases pt.child pt.rootPpn (VirtPageNum.indexes vpn).1 with
  | none => rfl
  | some mid =>
    simp only [Option.bind_some]
    cases pt.child mid (VirtPageNum.indexes vpn).2.1 with
    | none => rfl
    | some leaf => rfl

theorem lookup_eq_none_of_node {pt : PageTable} {vpn : ℕ}
    (h : pt.node [(VirtPageNum.indexes vpn).1, (VirtPageNum.indexes vpn).2.1] = none) :
    pt.lookup vpn = none := by
  rw [lookup, translate_eq, h]
  rfl

/-! ## Entries and nodes after an update -/

theorem nodes_setEntry (pt : PageTable) (node idx : ℕ) (pte : PageTableEntry) (f i : ℕ) :
    (pt.setEntry node idx pte).nodes f i = if f = node ∧ i = idx then pte else pt.nodes f i := rfl

theorem child_setEntry (pt : PageTable) (node idx : ℕ) (pte : PageTableEntry) (f i : ℕ) :
    (pt.setEntry node idx pte).child f i =
      if f = node ∧ i = idx then (if pte.isValid then some pte.ppn else none)
      else pt.child f i := by
  rw [child, nodes_setEntry]
  split <;> rfl

theorem nodes_addNode (pt : PageTable) (node idx frame f i : ℕ) :
    (pt.addNode node idx frame).nodes f i =
      if f = node ∧ i = idx then .new frame PTEFlags.V
      else if f = frame then .empty else pt.nodes f i := rfl

private theorem isValid_new_V (frame : ℕ) :
    (PageTableEntry.new frame PTEFlags.V).isValid = true := by
  rw [PageTableEntry.isValid, PageTableEntry.flags_new _ (by decide)]
  decide

theorem child_addNode (pt : PageTable) (node idx : ℕ) {frame : ℕ} (hframe : frame < 2 ^ 44)
    (f i : ℕ) :
    (pt.addNode node idx frame).child f i =
      if f = node ∧ i = idx then some frame
      else if f = frame then none else pt.child f i := by
  rw [child, nodes_addNode]
  by_cases h : f = node ∧ i = idx
  · rw [if_pos h, if_pos h, isValid_new_V, if_pos rfl, PageTableEntry.ppn_new hframe (by decide)]
  · rw [if_neg h, if_neg h]
    by_cases hf : f = frame
    · simp [hf]
    · simp [hf, child]

section Wf

variable {pt : PageTable} (hwf : pt.Wf)

include hwf

/-- A new node is the end of the path it was entered at, and the other paths end where they did. -/
theorem node_addNode {path : List ℕ} {node idx frame : ℕ} (hnode : pt.node path = some node)
    (hlen : path.length < 2) (hnone : pt.child node idx = none) (hnew : frame ∉ pt.frames)
    (hframe : frame < 2 ^ 44) (q : List ℕ) :
    (pt.addNode node idx frame).node q = if q = path ++ [idx] then some frame else pt.node q := by
  have hchild := pt.child_addNode node idx hframe
  have hroot : pt.rootPpn ≠ frame := fun h ↦ hnew (h ▸ hwf.node_mem [] _ rfl)
  have hmid : ∀ i g, pt.child pt.rootPpn i = some g → g ≠ frame := fun i g h e ↦
    hnew (e ▸ hwf.node_mem [i] _ h)
  match path, hlen with
  | [], _ =>
    obtain rfl : pt.rootPpn = node := by simpa [PageTable.node] using hnode
    match q with
    | [] => simp [PageTable.node, addNode, setEntry]
    | [x] =>
      show (pt.addNode _ _ _).child pt.rootPpn x = _
      simp only [hchild, hroot, true_and, if_false, List.nil_append, List.cons.injEq, and_true]
      rfl
    | [x, y] =>
      show ((pt.addNode _ _ _).child pt.rootPpn x).bind _ = _
      simp only [hchild, hroot, true_and, if_false]
      by_cases hx : x = idx
      · subst hx
        simp [PageTable.node, hnone, hroot.symm]
      · simp only [hx, if_false, PageTable.node]
        cases hg : pt.child pt.rootPpn x with
        | none => simp
        | some g =>
          have hne : g ≠ pt.rootPpn := fun e ↦ by
            simpa using hwf.node_inj [x] [] g hg (congrArg some e.symm)
          simp [hne, hmid x g hg]
    | x :: y :: z :: rest => simp [PageTable.node]
  | [a], _ =>
    have ha : pt.child pt.rootPpn a = some node := hnode
    have hne : pt.rootPpn ≠ node := fun e ↦ by
      simpa using hwf.node_inj [] [a] node (congrArg some e) hnode
    match q with
    | [] => simp [PageTable.node, addNode, setEntry]
    | [x] =>
      show (pt.addNode _ _ _).child pt.rootPpn x = _
      simp [hchild, hroot, hne, PageTable.node]
    | [x, y] =>
      show ((pt.addNode _ _ _).child pt.rootPpn x).bind _ = _
      simp only [hchild, hroot, hne, false_and, if_false, PageTable.node]
      cases hg : pt.child pt.rootPpn x with
      | none =>
        have hx : x ≠ a := fun e ↦ by simp [e, ha] at hg
        simp [hx]
      | some g =>
        have hiff : g = node ↔ x = a := by
          constructor
          · rintro rfl
            simpa using hwf.node_inj [x] [a] g hg hnode
          · rintro rfl
            exact Option.some.inj (hg.symm.trans ha)
        simp [hiff, hmid x g hg]
    | x :: y :: z :: rest => simp [PageTable.node]

theorem wf_addNode {path : List ℕ} {node idx frame : ℕ} (hnode : pt.node path = some node)
    (hlen : path.length < 2) (hnone : pt.child node idx = none) (hnew : frame ∉ pt.frames)
    (hframe : frame < 2 ^ 44) : (pt.addNode node idx frame).Wf := by
  have key := node_addNode hwf hnode hlen hnone hnew hframe
  have hmem : ∀ q g, pt.node q = some g → g ≠ frame := fun q g h e ↦
    hnew (e ▸ hwf.node_mem q g h)
  constructor
  · intro q g hq
    rw [key] at hq
    show g ∈ pt.frames ++ [frame]
    split at hq
    · simp_all
    · exact List.mem_append_left _ (hwf.node_mem q g hq)
  · intro q q' g hq hq'
    rw [key] at hq hq'
    split at hq <;> split at hq'
    · simp_all
    · exact absurd (Option.some.inj hq).symm (hmem q' g hq')
    · exact absurd (Option.some.inj hq').symm (hmem q g hq)
    · exact hwf.node_inj q q' g hq hq'

/-- Entering an empty node maps nothing. -/
theorem lookup_addNode {path : List ℕ} {node idx frame : ℕ} (hnode : pt.node path = some node)
    (hlen : path.length < 2) (hnone : pt.child node idx = none) (hnew : frame ∉ pt.frames)
    (hframe : frame < 2 ^ 44) (vpn : ℕ) :
    (pt.addNode node idx frame).lookup vpn = pt.lookup vpn := by
  have key := node_addNode hwf hnode hlen hnone hnew hframe
  set i := (VirtPageNum.indexes vpn).1
  set j := (VirtPageNum.indexes vpn).2.1
  by_cases hq : [i, j] = path ++ [idx]
  · -- the path now ends at the new node, whose entries are all invalid
    obtain ⟨rfl, rfl⟩ : path = [i] ∧ idx = j := by
      match path, hlen, hq with
      | [], _, hq => simp at hq
      | [a], _, hq =>
        obtain ⟨ha, hj⟩ : i = a ∧ j = idx := by simpa only [List.cons_append, List.nil_append,
          List.cons.injEq, and_true] using hq
        exact ⟨by rw [ha], hj.symm⟩
    have hne : frame ≠ node := fun e ↦ hnew (e ▸ hwf.node_mem [i] node hnode)
    have hnone' : pt.node [i, j] = none := by
      have hi : pt.child pt.rootPpn i = some node := hnode
      simp [PageTable.node, hi, hnone]
    rw [lookup_eq_none_of_node hnone', lookup, translate_eq, key, if_pos hq]
    simp [nodes_addNode, hne]
  · rw [lookup, lookup, translate_eq, translate_eq, key, if_neg hq]
    cases hg : pt.node [i, j] with
    | none => rfl
    | some g =>
      have hne : g ≠ frame := fun e ↦ hnew (e ▸ hwf.node_mem [i, j] g hg)
      have hne' : g ≠ node := fun e ↦ by
        have := hwf.node_inj [i, j] path g hg (e ▸ hnode)
        simp [← this] at hlen
      simp [nodes_addNode, hne, hne']

/-- Writing into a leaf moves no node. -/
theorem node_setEntry_leaf {i j leaf : ℕ} (hleaf : pt.node [i, j] = some leaf) (l : ℕ)
    (pte : PageTableEntry) (q : List ℕ) : (pt.setEntry leaf l pte).node q = pt.node q := by
  have hroot : pt.rootPpn ≠ leaf := fun e ↦ by
    simpa using hwf.node_inj [] [i, j] leaf (congrArg some e) hleaf
  have hmid : ∀ x g, pt.child pt.rootPpn x = some g → g ≠ leaf := fun x g hg e ↦ by
    simpa using hwf.node_inj [x] [i, j] leaf (hg.trans (congrArg some e)) hleaf
  match q with
  | [] => rfl
  | [x] =>
    show (pt.setEntry _ _ _).child pt.rootPpn x = _
    simp [child_setEntry, hroot, PageTable.node]
  | [x, y] =>
    show ((pt.setEntry _ _ _).child pt.rootPpn x).bind _ = _
    simp only [child_setEntry, hroot, false_and, if_false, PageTable.node]
    cases hg : pt.child pt.rootPpn x with
    | none => rfl
    | some g => simp [hmid x g hg]
  | x :: y :: z :: rest => rfl

theorem wf_setEntry_leaf {i j leaf : ℕ} (hleaf : pt.node [i, j] = some leaf) (l : ℕ)
    (pte : PageTableEntry) : (pt.setEntry leaf l pte).Wf := by
  have key := node_setEntry_leaf hwf hleaf l pte
  exact ⟨fun q g hq ↦ hwf.node_mem q g (key q ▸ hq),
    fun q q' g hq hq' ↦ hwf.node_inj q q' g (key q ▸ hq) (key q' ▸ hq')⟩

/-- Writing the leaf entry of a page changes the translation of that page only. -/
theorem lookup_setEntry_leaf {vpn leaf : ℕ} (hvpn : vpn < 2 ^ 27)
    (hleaf : pt.node [(VirtPageNum.indexes vpn).1, (VirtPageNum.indexes vpn).2.1] = some leaf)
    (pte : PageTableEntry) {w : ℕ} (hw : w < 2 ^ 27) :
    (pt.setEntry leaf (VirtPageNum.indexes vpn).2.2 pte).lookup w =
      if w = vpn then (if pte.isValid then some pte else none) else pt.lookup w := by
  rw [lookup, translate_eq, node_setEntry_leaf hwf hleaf]
  by_cases h : w = vpn
  · subst h
    rw [hleaf, if_pos rfl]
    simp [nodes_setEntry, Option.filter]
  · rw [if_neg h, lookup, translate_eq]
    cases hg : pt.node [(VirtPageNum.indexes w).1, (VirtPageNum.indexes w).2.1] with
    | none => rfl
    | some g =>
      have hne : ¬(g = leaf ∧ (VirtPageNum.indexes w).2.2 = (VirtPageNum.indexes vpn).2.2) := by
        rintro ⟨rfl, hl⟩
        have hpath := hwf.node_inj _ _ g hg hleaf
        simp only [List.cons.injEq, and_true] at hpath
        exact h (VirtPageNum.indexes_inj hw hvpn
          (Prod.ext hpath.1 (Prod.ext hpath.2 hl)))
      simp [nodes_setEntry, hne]

end Wf

/-! ## What the operations do -/

theorem node_append {pt : PageTable} {path : List ℕ} {node : ℕ} (hnode : pt.node path = some node)
    (hlen : path.length < 2) (idx : ℕ) : pt.node (path ++ [idx]) = pt.child node idx := by
  match path, hlen with
  | [], _ =>
    obtain rfl : pt.rootPpn = node := by simpa [PageTable.node] using hnode
    rfl
  | [a], _ =>
    have ha : pt.child pt.rootPpn a = some node := hnode
    simp [PageTable.node, ha]

theorem wf_new {m m' : Machine} {pt : PageTable} (h : new.Returns m pt m') :
    pt.Wf ∧ (∀ vpn, pt.lookup vpn = none) ∧ pt.frames = [pt.rootPpn] ∧
      Machine.frameAlloc.Returns m pt.rootPpn m' := by
  obtain ⟨frame, m₁, hframe, h⟩ := Exec.returns_bind.mp h
  obtain ⟨rfl, rfl⟩ := Exec.returns_pure.mp h
  have hnode : ∀ path, path ≠ [] →
      PageTable.node ⟨frame, [frame], fun _ _ ↦ .empty⟩ path = none := by
    intro path hne
    match path with
    | [] => exact absurd rfl hne
    | [i] => simp [PageTable.node, child]
    | [i, j] => simp [PageTable.node, child]
    | i :: j :: k :: rest => rfl
  refine ⟨⟨fun path ppn hp ↦ ?_, fun path path' ppn hp hp' ↦ ?_⟩,
    fun vpn ↦ lookup_eq_none_of_node (hnode _ (by simp)), rfl, hframe⟩
  · by_cases hpath : path = []
    · subst hpath
      simp_all [PageTable.node]
    · simp [hnode path hpath] at hp
  · by_cases hpath : path = [] <;> by_cases hpath' : path' = []
    · rw [hpath, hpath']
    · simp [hnode path' hpath'] at hp'
    · simp [hnode path hpath] at hp
    · simp [hnode path hpath] at hp

theorem childCreate_takes {pt pt' : PageTable} {m m' : Machine} {node idx c : ℕ}
    (h : (pt.childCreate node idx).Returns m (c, pt') m') :
    m.Extends m' ∧ m.Conserves pt.frames m' pt'.frames := by
  unfold childCreate at h
  split at h
  · obtain ⟨heq, rfl⟩ := Exec.returns_pure.mp h
    obtain ⟨-, rfl⟩ := Prod.mk.inj heq
    exact ⟨Machine.Extends.refl _, Machine.Conserves.refl _ _⟩
  · obtain ⟨frame, m₁, hframe, h⟩ := Exec.returns_bind.mp h
    obtain ⟨heq, rfl⟩ := Exec.returns_pure.mp h
    obtain ⟨-, rfl⟩ := Prod.mk.inj heq
    exact ⟨Machine.extends_of_frameAlloc hframe, Machine.conserves_frameAlloc hframe _⟩

/-- Mapping takes the pages of new nodes from the allocator. -/
theorem map_takes {pt pt' : PageTable} {m m' : Machine} {vpn ppn flags : ℕ}
    (h : (pt.map vpn ppn flags).Returns m pt' m') :
    m.Extends m' ∧ m.Conserves pt.frames m' pt'.frames := by
  obtain ⟨⟨⟨node, idx⟩, pt₂⟩, m₂, hfind, hrest⟩ := Exec.returns_bind.mp h
  dsimp only at hrest
  obtain ⟨_, m₃, hassert, hpure⟩ := Exec.returns_bind.mp hrest
  obtain ⟨-, rfl⟩ := Exec.returns_assert.mp hassert
  obtain ⟨rfl, rfl⟩ := Exec.returns_pure.mp hpure
  obtain ⟨⟨mid, pt₁⟩, m₁, h₁, hrest⟩ := Exec.returns_bind.mp hfind
  obtain ⟨⟨leaf, pt₂'⟩, m₂', h₂, h₃⟩ := Exec.returns_bind.mp hrest
  obtain ⟨heq, rfl⟩ := Exec.returns_pure.mp h₃
  obtain ⟨-, rfl⟩ := Prod.mk.inj heq
  obtain ⟨he₁, hc₁⟩ := childCreate_takes h₁
  obtain ⟨he₂, hc₂⟩ := childCreate_takes h₂
  exact ⟨he₁.trans he₂, hc₁.trans hc₂⟩

theorem childCreate_spec {pt pt' : PageTable} {m m' : Machine} {path : List ℕ} {node idx c : ℕ}
    (hwf : pt.Wf) (hsep : m.Separate pt.frames) (hnode : pt.node path = some node)
    (hlen : path.length < 2) (h : (pt.childCreate node idx).Returns m (c, pt') m') :
    pt'.Wf ∧ pt'.node (path ++ [idx]) = some c ∧ ∀ vpn, pt'.lookup vpn = pt.lookup vpn := by
  unfold childCreate at h
  split at h
  · rename_i hvalid
    obtain ⟨heq, rfl⟩ := Exec.returns_pure.mp h
    obtain ⟨rfl, rfl⟩ := Prod.mk.inj heq
    refine ⟨hwf, ?_, fun _ ↦ rfl⟩
    rw [node_append hnode hlen, child, if_pos hvalid]
  · rename_i hinvalid
    obtain ⟨frame, m₁, hframe, h⟩ := Exec.returns_bind.mp h
    obtain ⟨heq, rfl⟩ := Exec.returns_pure.mp h
    obtain ⟨rfl, rfl⟩ := Prod.mk.inj heq
    obtain ⟨hnew, hlt⟩ := hsep.frameAlloc hframe
    have hnone : pt.child node idx = none := by rw [child, if_neg hinvalid]
    refine ⟨wf_addNode hwf hnode hlen hnone hnew hlt, ?_,
      lookup_addNode hwf hnode hlen hnone hnew hlt⟩
    rw [node_addNode hwf hnode hlen hnone hnew hlt, if_pos rfl]

theorem findPteCreate_spec {pt pt' : PageTable} {m m' : Machine} {vpn : ℕ} {loc : ℕ × ℕ}
    (hwf : pt.Wf) (hsep : m.Separate pt.frames)
    (h : (pt.findPteCreate vpn).Returns m (loc, pt') m') :
    pt'.Wf ∧ pt'.node [(VirtPageNum.indexes vpn).1, (VirtPageNum.indexes vpn).2.1] = some loc.1 ∧
      loc.2 = (VirtPageNum.indexes vpn).2.2 ∧ ∀ w, pt'.lookup w = pt.lookup w := by
  obtain ⟨⟨mid, pt₁⟩, m₁, h₁, hrest⟩ := Exec.returns_bind.mp h
  obtain ⟨⟨leaf, pt₂⟩, m₂, h₂, h₃⟩ := Exec.returns_bind.mp hrest
  obtain ⟨heq, rfl⟩ := Exec.returns_pure.mp h₃
  obtain ⟨rfl, rfl⟩ := Prod.mk.inj heq
  obtain ⟨hwf₁, hnode₁, hl₁⟩ := childCreate_spec hwf hsep (pt.node_root) (by simp) h₁
  obtain ⟨hwf₂, hnode₂, hl₂⟩ :=
    childCreate_spec hwf₁ (hsep.conserves (childCreate_takes h₁).2) hnode₁ (by simp) h₂
  exact ⟨hwf₂, hnode₂, rfl, fun w ↦ (hl₂ w).trans (hl₁ w)⟩

/-- **Mapping.** The page was not mapped, it is mapped as asked now, and no other page's translation
changes. -/
theorem map_spec {pt pt' : PageTable} {m m' : Machine} {vpn ppn flags : ℕ} (hwf : pt.Wf)
    (hsep : m.Separate pt.frames) (hvpn : vpn < 2 ^ 27) (hflags : flags < 256)
    (h : (pt.map vpn ppn flags).Returns m pt' m') :
    pt'.Wf ∧ pt.lookup vpn = none ∧ ∀ w < 2 ^ 27, pt'.lookup w =
      if w = vpn then some (.new ppn (flags ||| PTEFlags.V)) else pt.lookup w := by
  obtain ⟨⟨⟨node, idx⟩, pt₁⟩, m₁, h₁, hrest⟩ := Exec.returns_bind.mp h
  dsimp only at hrest
  obtain ⟨_, m₂, h₂, h₃⟩ := Exec.returns_bind.mp hrest
  obtain ⟨hvalid, rfl⟩ := Exec.returns_assert.mp h₂
  obtain ⟨rfl, rfl⟩ := Exec.returns_pure.mp h₃
  obtain ⟨hwf₁, hnode, hidx, hl⟩ := findPteCreate_spec hwf hsep h₁
  obtain rfl : idx = _ := hidx
  have hv : (PageTableEntry.new ppn (flags ||| PTEFlags.V)).isValid = true := by
    rw [PageTableEntry.isValid, PageTableEntry.flags_new _ (PTEFlags.or_V_lt hflags)]
    exact PTEFlags.testBit_or_V flags
  refine ⟨wf_setEntry_leaf hwf₁ hnode _ _, ?_, fun w hw ↦ ?_⟩
  · rw [← hl, lookup, translate_eq, hnode]
    simpa [Option.filter] using hvalid
  · rw [lookup_setEntry_leaf hwf₁ hvpn hnode _ hw, hv, if_pos rfl, hl]

theorem unmap_frames {pt pt' : PageTable} {m m' : Machine} {vpn : ℕ}
    (h : (pt.unmap vpn).Returns m pt' m') : pt'.frames = pt.frames ∧ m' = m := by
  obtain ⟨⟨node, idx⟩, m₁, h₁, hrest⟩ := Exec.returns_bind.mp h
  obtain ⟨-, rfl⟩ := Exec.returns_unwrap.mp h₁
  dsimp only at hrest
  obtain ⟨_, m₂, h₂, h₃⟩ := Exec.returns_bind.mp hrest
  obtain ⟨-, rfl⟩ := Exec.returns_assert.mp h₂
  obtain ⟨rfl, rfl⟩ := Exec.returns_pure.mp h₃
  exact ⟨rfl, rfl⟩

/-- **Unmapping.** The page was mapped, it is not mapped any more, and no other page's translation
changes. -/
theorem unmap_spec {pt pt' : PageTable} {m m' : Machine} {vpn : ℕ} (hwf : pt.Wf)
    (hvpn : vpn < 2 ^ 27) (h : (pt.unmap vpn).Returns m pt' m') :
    pt'.Wf ∧ pt.lookup vpn ≠ none ∧
      ∀ w < 2 ^ 27, pt'.lookup w = if w = vpn then none else pt.lookup w := by
  obtain ⟨⟨node, idx⟩, m₁, h₁, hrest⟩ := Exec.returns_bind.mp h
  obtain ⟨hfind, rfl⟩ := Exec.returns_unwrap.mp h₁
  dsimp only at hrest
  obtain ⟨_, m₂, h₂, h₃⟩ := Exec.returns_bind.mp hrest
  obtain ⟨hvalid, rfl⟩ := Exec.returns_assert.mp h₂
  obtain ⟨rfl, rfl⟩ := Exec.returns_pure.mp h₃
  have hleaf : pt.node [(VirtPageNum.indexes vpn).1, (VirtPageNum.indexes vpn).2.1] = some node ∧
      idx = (VirtPageNum.indexes vpn).2.2 := by
    simp only [findPte, Option.bind_eq_bind, Option.pure_def, Option.bind_eq_some_iff,
      Option.some.injEq, Prod.mk.injEq] at hfind
    obtain ⟨mid, hmid, leaf, hleaf, rfl, rfl⟩ := hfind
    exact ⟨by simp [PageTable.node, hmid, hleaf], rfl⟩
  obtain ⟨hnode, rfl⟩ := hleaf
  refine ⟨wf_setEntry_leaf hwf hnode _ _, ?_, fun w hw ↦ ?_⟩
  · rw [lookup, translate_eq, hnode]
    simp [Option.filter, hvalid]
  · rw [lookup_setEntry_leaf hwf hvpn hnode _ hw]
    rfl

/-! ## When mapping succeeds

Mapping an unmapped page fails only for want of a page for a node. -/

/-- How many nodes are missing on the way to a leaf. -/
def missing (pt : PageTable) (i j : ℕ) : ℕ :=
  if pt.node [i] = none then 2 else if pt.node [i, j] = none then 1 else 0

theorem missing_le (pt : PageTable) (i j : ℕ) : pt.missing i j ≤ 2 := by
  unfold missing
  split
  · exact le_rfl
  · split <;> omega

theorem childCreate_returns {pt : PageTable} {m : Machine} {node idx : ℕ}
    (h : pt.child node idx = none → 0 < m.frameAllocator.available) :
    ∃ c pt' m', (pt.childCreate node idx).Returns m (c, pt') m' ∧
      m'.frameAllocator.available + (if pt.child node idx = none then 1 else 0) =
        m.frameAllocator.available := by
  by_cases hvalid : (pt.nodes node idx).isValid = true
  · refine ⟨(pt.nodes node idx).ppn, pt, m, ?_, ?_⟩
    · rw [childCreate, if_pos hvalid]
      exact Exec.returns_pure.mpr ⟨rfl, rfl⟩
    · rw [child, if_pos hvalid, if_neg (by simp), Nat.add_zero]
  · have hnone : pt.child node idx = none := by rw [child, if_neg hvalid]
    obtain ⟨frame, m', hframe, hav⟩ := Machine.frameAlloc_returns (h hnone)
    refine ⟨frame, pt.addNode node idx frame, m', ?_, ?_⟩
    · rw [childCreate, if_neg hvalid]
      exact hframe.bind (Exec.returns_pure.mpr ⟨rfl, rfl⟩)
    · rw [if_pos hnone, hav]

/-- Entering the middle node does not enter the leaf. -/
private theorem missing_split {pt pt₁ : PageTable} {m m₁ : Machine} {i j mid : ℕ} (hwf : pt.Wf)
    (hsep : m.Separate pt.frames) (h : (pt.childCreate pt.rootPpn i).Returns m (mid, pt₁) m₁)
    (hmid : pt₁.node [i, j] = pt₁.child mid j) :
    (if pt.child pt.rootPpn i = none then 1 else 0) + (if pt₁.child mid j = none then 1 else 0) =
      pt.missing i j := by
  have hroot : pt.node [i] = pt.child pt.rootPpn i := rfl
  rw [missing, hroot, ← hmid]
  by_cases hc : pt.child pt.rootPpn i = none
  · have hij : pt₁.node [i, j] = none := by
      unfold childCreate at h
      rw [if_neg (by intro hv; simp [child, hv] at hc)] at h
      obtain ⟨frame, m₂, hframe, hpure⟩ := Exec.returns_bind.mp h
      obtain ⟨heq, rfl⟩ := Exec.returns_pure.mp hpure
      obtain ⟨rfl, rfl⟩ := Prod.mk.inj heq
      obtain ⟨hnew, hlt⟩ := hsep.frameAlloc hframe
      rw [node_addNode hwf pt.node_root (by simp) hc hnew hlt, if_neg (by simp)]
      simp [PageTable.node, hc]
    simp [hc, hij]
  · have hsame : pt₁ = pt := by
      unfold childCreate at h
      rw [if_pos (by
        by_contra hv
        exact hc (by rw [child, if_neg hv]))] at h
      obtain ⟨heq, -⟩ := Exec.returns_pure.mp h
      exact (Prod.mk.inj heq).2
    simp [hc, hsame]

theorem findPteCreate_returns {pt : PageTable} {m : Machine} {vpn : ℕ} (hwf : pt.Wf)
    (hsep : m.Separate pt.frames)
    (hav : pt.missing (VirtPageNum.indexes vpn).1 (VirtPageNum.indexes vpn).2.1 ≤
      m.frameAllocator.available) :
    ∃ loc pt' m', (pt.findPteCreate vpn).Returns m (loc, pt') m' ∧
      m'.frameAllocator.available +
          pt.missing (VirtPageNum.indexes vpn).1 (VirtPageNum.indexes vpn).2.1 =
        m.frameAllocator.available := by
  obtain ⟨i, hi⟩ : ∃ i, i = (VirtPageNum.indexes vpn).1 := ⟨_, rfl⟩
  obtain ⟨j, hj⟩ : ∃ j, j = (VirtPageNum.indexes vpn).2.1 := ⟨_, rfl⟩
  rw [← hi, ← hj] at hav ⊢
  have hfirst : pt.child pt.rootPpn i = none → 0 < m.frameAllocator.available := fun h ↦ by
    have hroot : pt.node [i] = none := h
    rw [missing, hroot, if_pos rfl] at hav
    omega
  obtain ⟨mid, pt₁, m₁, h₁, hav₁⟩ := childCreate_returns hfirst
  obtain ⟨hwf₁, hnode₁, -⟩ := childCreate_spec hwf hsep (pt.node_root) (by simp) h₁
  have hmissing := missing_split hwf hsep h₁ (node_append hnode₁ (by simp) j)
  have hsecond : pt₁.child mid j = none → 0 < m₁.frameAllocator.available := fun h ↦ by
    rw [h, if_pos rfl] at hmissing
    omega
  obtain ⟨leaf, pt₂, m₂, h₂, hav₂⟩ := childCreate_returns hsecond
  refine ⟨(leaf, (VirtPageNum.indexes vpn).2.2), pt₂, m₂, ?_, by omega⟩
  subst hi hj
  exact h₁.bind (h₂.bind (Exec.returns_pure.mpr ⟨rfl, rfl⟩))

/-- **Mapping an unmapped page** succeeds when there are pages for the missing nodes, and then no
node is missing for the page any more. -/
theorem map_returns {pt : PageTable} {m : Machine} {vpn : ℕ} (ppn flags : ℕ) (hwf : pt.Wf)
    (hsep : m.Separate pt.frames) (hnone : pt.lookup vpn = none)
    (hav : pt.missing (VirtPageNum.indexes vpn).1 (VirtPageNum.indexes vpn).2.1 ≤
      m.frameAllocator.available) :
    ∃ pt' m', (pt.map vpn ppn flags).Returns m pt' m' ∧
      pt'.missing (VirtPageNum.indexes vpn).1 (VirtPageNum.indexes vpn).2.1 = 0 ∧
      m'.frameAllocator.available +
          pt.missing (VirtPageNum.indexes vpn).1 (VirtPageNum.indexes vpn).2.1 =
        m.frameAllocator.available := by
  obtain ⟨⟨leaf, idx⟩, pt₁, m₁, h₁, hav₁⟩ := findPteCreate_returns hwf hsep hav
  obtain ⟨hwf₁, hnode, hidx, hl⟩ := findPteCreate_spec hwf hsep h₁
  obtain rfl : idx = _ := hidx
  have hinvalid : (pt₁.nodes leaf (VirtPageNum.indexes vpn).2.2).isValid = false := by
    have h := (hl vpn).trans hnone
    rw [lookup, translate_eq, hnode] at h
    simpa [Option.filter] using h
  refine ⟨pt₁.setEntry leaf (VirtPageNum.indexes vpn).2.2 (.new ppn (flags ||| PTEFlags.V)), m₁,
    ?_, ?_, hav₁⟩
  · exact h₁.bind ((Exec.returns_assert_of hinvalid m₁).bind (Exec.returns_pure.mpr ⟨rfl, rfl⟩))
  · have hset := node_setEntry_leaf hwf₁ hnode (VirtPageNum.indexes vpn).2.2
      (.new ppn (flags ||| PTEFlags.V))
    have hpath : pt₁.node [(VirtPageNum.indexes vpn).1] ≠ none := fun h ↦ by
      have h' : (pt₁.node [(VirtPageNum.indexes vpn).1]).bind
        (fun mid ↦ pt₁.child mid (VirtPageNum.indexes vpn).2.1) = some leaf := hnode
      rw [h] at h'
      exact absurd h' (by simp)
    rw [missing, hset, if_neg hpath, hset, hnode, if_neg (by simp)]

end PageTable

end AgentOS
