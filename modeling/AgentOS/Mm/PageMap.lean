import AgentOS.Agent.ContextArea

/-!
# Page tables as partial maps

A table that was made by `PageTable.new` and changed by `map` and `unmap` only stands for a partial map
from pages to physical pages and flags: the one that the calls describe. Nothing is assumed of the
allocator but that the pages it has left are none of the table's nodes, whoever else used it between
two calls.
-/

namespace AgentOS

namespace PageTable

/-- A call that changes a table. -/
inductive Op where
  | map (vpn ppn flags : ℕ)
  | unmap (vpn : ℕ)
  deriving DecidableEq, Repr

namespace Op

/-- The page a call is about. -/
def vpn : Op → ℕ
  | .map vpn _ _ => vpn
  | .unmap vpn => vpn

/-- Page numbers of 27 and 44 bits, and a byte of flags. -/
def Valid : Op → Prop
  | .map vpn ppn flags => vpn < 2 ^ 27 ∧ ppn < 2 ^ 44 ∧ flags < 256
  | .unmap vpn => vpn < 2 ^ 27

end Op

def apply (pt : PageTable) : Op → Exec Machine PageTable
  | .map vpn ppn flags => pt.map vpn ppn flags
  | .unmap vpn => pt.unmap vpn

/-- The partial map that a sequence of calls describes. -/
def mappings (ops : List Op) : ℕ → Option (ℕ × ℕ) :=
  ops.foldl (fun f op ↦ match op with
    | .map vpn ppn flags => Function.update f vpn (some (ppn, flags))
    | .unmap vpn => Function.update f vpn none) fun _ ↦ none

/-- The tables that sequences of calls lead to. The machine may change between two calls. -/
inductive History : List Op → PageTable → Prop
  | new {m m' : Machine} {pt : PageTable} (hsep : m.Separate [])
      (h : PageTable.new.Returns m pt m') : History [] pt
  | call {ops : List Op} {op : Op} {pt pt' : PageTable} {m m' : Machine} (hpt : History ops pt)
      (hsep : m.Separate pt.frames) (hop : op.Valid) (h : (pt.apply op).Returns m pt' m') :
      History (ops ++ [op]) pt'

/-! ## Nodes stay -/

/-- Entries that are not valid are empty. -/
def Cleared (pt : PageTable) : Prop := ∀ node idx, (pt.nodes node idx).isValid = false →
  pt.nodes node idx = .empty

section Nodes

variable {pt pt' : PageTable} {m m' : Machine}

theorem Cleared.setEntry {node idx : ℕ} {pte : PageTableEntry} (h : pt.Cleared)
    (hpte : pte.isValid = false → pte = .empty) : (pt.setEntry node idx pte).Cleared := by
  intro f i hf
  rw [nodes_setEntry] at hf ⊢
  split at hf <;> rename_i heq
  · rw [if_pos heq]
    exact hpte hf
  · rw [if_neg heq]
    exact h f i hf

theorem Cleared.childCreate {node idx c : ℕ} (h : pt.Cleared)
    (hc : (pt.childCreate node idx).Returns m (c, pt') m') : pt'.Cleared := by
  unfold PageTable.childCreate at hc
  split at hc
  · obtain ⟨heq, -⟩ := Exec.returns_pure.mp hc
    obtain ⟨-, rfl⟩ := Prod.mk.inj heq
    exact h
  · obtain ⟨frame, m₁, -, hpure⟩ := Exec.returns_bind.mp hc
    obtain ⟨heq, -⟩ := Exec.returns_pure.mp hpure
    obtain ⟨-, rfl⟩ := Prod.mk.inj heq
    intro f i hf
    rw [nodes_addNode] at hf ⊢
    split at hf <;> rename_i heq
    · rw [PageTableEntry.isValid, PageTableEntry.flags_new _ (by decide)] at hf
      exact absurd hf (by decide)
    · rw [if_neg heq]
      split at hf <;> rename_i hframe
      · rw [if_pos hframe]
      · rw [if_neg hframe]
        exact h f i hf

/-- Creating a node keeps the nodes there are. -/
theorem childCreate_node {path : List ℕ} {node idx c : ℕ} (hwf : pt.Wf)
    (hsep : m.Separate pt.frames) (hnode : pt.node path = some node) (hlen : path.length < 2)
    (h : (pt.childCreate node idx).Returns m (c, pt') m') {q : List ℕ} (hq : pt.node q ≠ none) :
    pt'.node q ≠ none := by
  unfold childCreate at h
  split at h
  · obtain ⟨heq, -⟩ := Exec.returns_pure.mp h
    obtain ⟨-, rfl⟩ := Prod.mk.inj heq
    exact hq
  · rename_i hinvalid
    obtain ⟨frame, m₁, hframe, hpure⟩ := Exec.returns_bind.mp h
    obtain ⟨heq, -⟩ := Exec.returns_pure.mp hpure
    obtain ⟨-, rfl⟩ := Prod.mk.inj heq
    obtain ⟨hnew, hlt⟩ := hsep.frameAlloc hframe
    rw [node_addNode hwf hnode hlen (by rw [child, if_neg hinvalid]) hnew hlt]
    split
    · simp
    · exact hq

/-- The walk to an entry ends in a valid entry, in the empty one, or before it reaches a leaf. -/
theorem Cleared.translate_cases (h : pt.Cleared) (vpn : ℕ) :
    pt.translate vpn = none ∨ pt.translate vpn = some .empty ∨
      ∃ pte, pt.lookup vpn = some pte ∧ pt.translate vpn = some pte := by
  rw [translate_eq]
  cases hnode : pt.node [(VirtPageNum.indexes vpn).1, (VirtPageNum.indexes vpn).2.1] with
  | none => exact Or.inl rfl
  | some leaf =>
    refine Or.inr ?_
    by_cases hvalid : (pt.nodes leaf (VirtPageNum.indexes vpn).2.2).isValid = true
    · refine Or.inr ⟨_, ?_, rfl⟩
      rw [lookup, translate_eq, hnode]
      simp [Option.filter, hvalid]
    · exact Or.inl (congrArg some (h _ _ (by simpa using hvalid)))

/-- What creating the way to an entry keeps. -/
theorem findPteCreate_keeps {vpn : ℕ} {loc : ℕ × ℕ} (hwf : pt.Wf) (hcleared : pt.Cleared)
    (hsep : m.Separate pt.frames) (h : (pt.findPteCreate vpn).Returns m (loc, pt') m') :
    pt'.Cleared ∧ m.Conserves pt.frames m' pt'.frames ∧
      ∀ q, pt.node q ≠ none → pt'.node q ≠ none := by
  obtain ⟨⟨mid, pt₁⟩, m₁, h₁, hrest⟩ := Exec.returns_bind.mp h
  obtain ⟨⟨leaf, pt₂⟩, m₂, h₂, h₃⟩ := Exec.returns_bind.mp hrest
  obtain ⟨heq, rfl⟩ := Exec.returns_pure.mp h₃
  obtain ⟨-, rfl⟩ := Prod.mk.inj heq
  obtain ⟨hwf₁, hnode₁, -⟩ := childCreate_spec hwf hsep pt.node_root (by simp) h₁
  have hc₁ := (childCreate_takes h₁).2
  have hsep₁ := hsep.conserves hc₁
  refine ⟨(hcleared.childCreate h₁).childCreate h₂, hc₁.trans (childCreate_takes h₂).2, fun q hq ↦ ?_⟩
  exact childCreate_node hwf₁ hsep₁ hnode₁ (by simp) h₂
    (childCreate_node hwf hsep pt.node_root (by simp) h₁ hq)

/-- **What a call keeps**: the shape of the table, its nodes, and what it says of the other pages. -/
structure Kept (op : Op) (pt : PageTable) (m' : Machine) (pt' : PageTable) : Prop where
  wf : pt'.Wf
  cleared : pt'.Cleared
  separate : m'.Separate pt'.frames
  node : ∀ q, pt.node q ≠ none → pt'.node q ≠ none
  lookup : ∀ w < 2 ^ 27, w ≠ op.vpn → pt'.lookup w = pt.lookup w

theorem kept_map {vpn ppn flags : ℕ} (hwf : pt.Wf) (hcleared : pt.Cleared)
    (hsep : m.Separate pt.frames) (hvpn : vpn < 2 ^ 27) (hflags : flags < 256)
    (h : (pt.map vpn ppn flags).Returns m pt' m') : Kept (.map vpn ppn flags) pt m' pt' := by
  obtain ⟨hwf', -, hl⟩ := map_spec hwf hsep hvpn hflags h
  have hcons := (map_takes h).2
  obtain ⟨⟨⟨node, idx⟩, pt₁⟩, m₁, h₁, hrest⟩ := Exec.returns_bind.mp h
  dsimp only at hrest
  obtain ⟨_, m₂, h₂, h₃⟩ := Exec.returns_bind.mp hrest
  obtain ⟨-, rfl⟩ := Exec.returns_assert.mp h₂
  obtain ⟨rfl, rfl⟩ := Exec.returns_pure.mp h₃
  obtain ⟨hcleared₁, -, hkeep⟩ := findPteCreate_keeps hwf hcleared hsep h₁
  obtain ⟨hwf₁, hnode, -, -⟩ := findPteCreate_spec hwf hsep h₁
  refine ⟨hwf', hcleared₁.setEntry fun hinvalid ↦ ?_, hsep.conserves hcons, fun q hq ↦ ?_,
    fun w hw hne ↦ ?_⟩
  · rw [PageTableEntry.isValid, PageTableEntry.flags_new _ (PTEFlags.or_V_lt hflags),
      PTEFlags.testBit_or_V] at hinvalid
    exact absurd hinvalid (by simp)
  · rw [node_setEntry_leaf hwf₁ hnode]
    exact hkeep q hq
  · exact (hl w hw).trans (if_neg hne)

theorem kept_unmap {vpn : ℕ} (hwf : pt.Wf) (hcleared : pt.Cleared) (hsep : m.Separate pt.frames)
    (hvpn : vpn < 2 ^ 27) (h : (pt.unmap vpn).Returns m pt' m') : Kept (.unmap vpn) pt m' pt' := by
  obtain ⟨hwf', hmapped, hl⟩ := unmap_spec hwf hvpn h
  obtain ⟨hframes, rfl⟩ := unmap_frames h
  obtain ⟨⟨node, idx⟩, m₁, h₁, hrest⟩ := Exec.returns_bind.mp h
  obtain ⟨hfind, rfl⟩ := Exec.returns_unwrap.mp h₁
  dsimp only at hrest
  obtain ⟨_, m₂, h₂, h₃⟩ := Exec.returns_bind.mp hrest
  obtain ⟨-, rfl⟩ := Exec.returns_assert.mp h₂
  obtain ⟨rfl, -⟩ := Exec.returns_pure.mp h₃
  refine ⟨hwf', hcleared.setEntry fun _ ↦ rfl, hframes ▸ hsep, fun q hq ↦ ?_, fun w hw hne ↦ ?_⟩
  · simp only [findPte, Option.bind_eq_bind, Option.pure_def, Option.bind_eq_some_iff,
      Option.some.injEq, Prod.mk.injEq] at hfind
    obtain ⟨mid, hmid, leaf, hleaf, rfl, rfl⟩ := hfind
    rw [node_setEntry_leaf hwf (i := (VirtPageNum.indexes vpn).1)
      (j := (VirtPageNum.indexes vpn).2.1) (by simp [PageTable.node, hmid, hleaf])]
    exact hq
  · exact (hl w hw).trans (if_neg hne)

theorem kept_apply {op : Op} (hwf : pt.Wf) (hcleared : pt.Cleared) (hsep : m.Separate pt.frames)
    (hop : op.Valid) (h : (pt.apply op).Returns m pt' m') : Kept op pt m' pt' := by
  cases op with
  | map vpn ppn flags => exact kept_map hwf hcleared hsep hop.1 hop.2.2 h
  | unmap vpn => exact kept_unmap hwf hcleared hsep hop h

/-- The walk to another page ends where it ended, or at an empty entry instead of nowhere. -/
theorem Kept.translate_of_ne {op : Op} (h : Kept op pt m' pt') (hcleared : pt.Cleared) {w : ℕ}
    (hw : w < 2 ^ 27) (hne : w ≠ op.vpn) :
    pt'.translate w = pt.translate w ∨ pt.translate w = none ∧ pt'.translate w = some .empty := by
  have hl := h.lookup w hw hne
  rcases hcleared.translate_cases w with hnone | hempty | ⟨pte, hpte, htr⟩
  · rcases h.cleared.translate_cases w with hnone' | hempty' | ⟨pte, hpte, -⟩
    · exact Or.inl (hnone'.trans hnone.symm)
    · exact Or.inr ⟨hnone, hempty'⟩
    · have htr := translate_of_lookup (hl.symm.trans hpte)
      rw [hnone] at htr
      exact absurd htr (by simp)
  · refine Or.inl ?_
    rcases h.cleared.translate_cases w with hnone' | hempty' | ⟨pte, hpte, htr'⟩
    · rw [translate_eq, Option.map_eq_none_iff] at hnone'
      have hnode : pt.node [(VirtPageNum.indexes w).1, (VirtPageNum.indexes w).2.1] ≠ none := by
        intro hnode
        rw [translate_eq, hnode] at hempty
        exact absurd hempty (by simp)
      exact absurd hnone' (h.node _ hnode)
    · exact hempty'.trans hempty.symm
    · exact htr'.trans (translate_of_lookup (hl.symm.trans hpte)).symm
  · exact Or.inl ((translate_of_lookup (hl.trans hpte)).trans htr.symm)

end Nodes

/-! ## The partial map of a history -/

theorem mappings_append (ops : List Op) (op : Op) (vpn : ℕ) :
    mappings (ops ++ [op]) vpn = if vpn = op.vpn then
      (match op with
        | .map _ ppn flags => some (ppn, flags)
        | .unmap _ => none)
      else mappings ops vpn := by
  rw [mappings, List.foldl_append]
  cases op <;> exact Function.update_apply _ _ _ _

/-- The table says what the calls say. -/
structure Refines (ops : List Op) (pt : PageTable) : Prop where
  wf : pt.Wf
  cleared : pt.Cleared
  lookup : ∀ vpn < 2 ^ 27, pt.lookup vpn =
    (mappings ops vpn).map fun p ↦ .new p.1 (p.2 ||| PTEFlags.V)
  bounds : ∀ vpn p, mappings ops vpn = some p → p.1 < 2 ^ 44 ∧ p.2 < 256

theorem History.refines {ops : List Op} {pt : PageTable} (h : History ops pt) : Refines ops pt := by
  induction h with
  | @new m m' pt hsep h =>
    obtain ⟨hwf, hnone, -, -⟩ := wf_new h
    obtain ⟨frame, m₁, -, hpure⟩ := Exec.returns_bind.mp h
    obtain ⟨rfl, -⟩ := Exec.returns_pure.mp hpure
    exact ⟨hwf, fun _ _ _ ↦ rfl, fun vpn _ ↦ hnone vpn, fun _ _ h ↦ absurd h (by simp [mappings])⟩
  | @call ops op pt pt' m m' hpt hsep hop h ih =>
    have hkept := kept_apply ih.wf ih.cleared hsep hop h
    refine ⟨hkept.wf, hkept.cleared, fun vpn hv ↦ ?_, fun vpn p hp ↦ ?_⟩
    · rw [mappings_append]
      split
      · rename_i heq
        subst heq
        cases op with
        | map vpn ppn flags =>
          have hl := (map_spec ih.wf hsep hop.1 hop.2.2 h).2.2 vpn hv
          rwa [if_pos rfl] at hl
        | unmap vpn =>
          have hl := (unmap_spec ih.wf hop h).2.2 vpn hv
          rwa [if_pos rfl] at hl
      · rename_i hne
        rw [hkept.lookup vpn hv hne, ih.lookup vpn hv]
    · rw [mappings_append] at hp
      split at hp
      · cases op with
        | map vpn ppn flags =>
          obtain rfl := Option.some.inj hp
          exact hop.2
        | unmap vpn => exact absurd hp (by simp)
      · exact ih.bounds vpn p hp

/-- What it means for a table to stand for the map that calls describe. -/
structure IsPartialMap (ops : List Op) (pt : PageTable) : Prop where
  valid_iff : ∀ vpn < 2 ^ 27,
    (∃ pte, pt.translate vpn = some pte ∧ pte.isValid = true) ↔ mappings ops vpn ≠ none
  entry : ∀ vpn < 2 ^ 27, ∀ ppn flags, mappings ops vpn = some (ppn, flags) →
    ∃ pte, pt.translate vpn = some pte ∧ pte.ppn = ppn ∧ pte.flags = flags ||| PTEFlags.V
  /-- A call says nothing new of other pages. Where a walk found no leaf it may find an empty entry. -/
  other : ∀ op : Op, op.Valid → ∀ m pt' m', m.Separate pt.frames →
    (pt.apply op).Returns m pt' m' → ∀ w < 2 ^ 27, w ≠ op.vpn →
      pt'.translate w = pt.translate w ∨ pt.translate w = none ∧ pt'.translate w = some .empty
  map_panics : ∀ vpn ppn flags, (Op.map vpn ppn flags).Valid → ∀ m : Machine, m.Separate pt.frames →
    pt.missing (VirtPageNum.indexes vpn).1 (VirtPageNum.indexes vpn).2.1 ≤ m.frameAllocator.available →
      ((pt.map vpn ppn flags m).1 = none ↔ mappings ops vpn ≠ none)
  unmap_panics : ∀ vpn < 2 ^ 27, ∀ m, (pt.unmap vpn m).1 = none ↔ mappings ops vpn = none

theorem Refines.valid_iff {ops : List Op} {pt : PageTable} (h : Refines ops pt) {vpn : ℕ}
    (hv : vpn < 2 ^ 27) :
    (∃ pte, pt.translate vpn = some pte ∧ pte.isValid = true) ↔ mappings ops vpn ≠ none := by
  have hl := h.lookup vpn hv
  rw [← Option.isSome_iff_ne_none, ← Option.isSome_map, ← hl, Option.isSome_iff_exists]
  refine exists_congr fun pte ↦ ?_
  rw [PageTable.lookup, Option.filter_eq_some_iff]

/-- An unmapping of a mapped page succeeds. -/
theorem unmap_returns {pt : PageTable} {vpn : ℕ} {pte : PageTableEntry}
    (h : pt.lookup vpn = some pte) (m : Machine) : ∃ pt', (pt.unmap vpn).Returns m pt' m := by
  obtain ⟨htranslate, hvalid⟩ := Option.filter_eq_some_iff.mp h
  obtain ⟨⟨node, idx⟩, hfind, rfl⟩ := Option.map_eq_some_iff.mp htranslate
  exact ⟨_, (Exec.returns_unwrap.mpr ⟨hfind, rfl⟩).bind
    ((Exec.returns_assert_of hvalid m).bind (Exec.returns_pure.mpr ⟨rfl, rfl⟩))⟩

/-- **A page table is a partial map.** -/
theorem history_isPartialMap {ops : List Op} {pt : PageTable} (h : History ops pt) :
    IsPartialMap ops pt := by
  have hr := h.refines
  refine ⟨fun vpn hv ↦ hr.valid_iff hv, fun vpn hv ppn flags hmap ↦ ?_,
    fun op hop m pt' m' hsep hret w hw hne ↦ ?_, fun vpn ppn flags hop m hsep hav ↦ ?_,
    fun vpn hv m ↦ ?_⟩
  · have hl := hr.lookup vpn hv
    rw [hmap] at hl
    obtain ⟨hppn, hflags⟩ := hr.bounds vpn _ hmap
    exact ⟨_, translate_of_lookup hl, PageTableEntry.ppn_new hppn (PTEFlags.or_V_lt hflags),
      PageTableEntry.flags_new _ (PTEFlags.or_V_lt hflags)⟩
  · exact (kept_apply hr.wf hr.cleared hsep hop hret).translate_of_ne hr.cleared hw hne
  · have hl := hr.lookup vpn hop.1
    constructor
    · intro hpanic hnone
      rw [hnone] at hl
      obtain ⟨pt', m', hret, -⟩ := map_returns ppn flags hr.wf hsep hl hav
      rw [hret.eq] at hpanic
      exact absurd hpanic (by simp)
    · intro hmapped
      rcases hres : (pt.map vpn ppn flags m).1 with _ | pt'
      · rfl
      · have hnone := (map_spec hr.wf hsep hop.1 hop.2.2 (Exec.returns_of_fst hres)).2.1
        rw [hl] at hnone
        exact absurd (Option.map_eq_none_iff.mp hnone) hmapped
  · have hl := hr.lookup vpn hv
    constructor
    · intro hpanic
      by_contra hmapped
      obtain ⟨p, hp⟩ := Option.ne_none_iff_exists'.mp hmapped
      rw [hp] at hl
      obtain ⟨pt', hret⟩ := unmap_returns hl m
      rw [hret.eq] at hpanic
      exact absurd hpanic (by simp)
    · intro hnone
      rcases hres : (pt.unmap vpn m).1 with _ | pt'
      · rfl
      · have hmapped := (unmap_spec hr.wf hv (Exec.returns_of_fst hres)).2.1
        rw [hl, hnone] at hmapped
        exact absurd rfl hmapped

/-- A page is mapped and unmapped. -/
theorem history_isPartialMap_unmap :
    ∃ pt, IsPartialMap ([] ++ [.map 3 0x90000 6] ++ [.unmap 3]) pt := by
  have hsep := separate_sampleMachine
  obtain ⟨frame, m, halloc, hav⟩ := Machine.frameAlloc_returns (m := sampleMachine) (by decide)
  have hnew : PageTable.new.Returns sampleMachine ⟨frame, [frame], fun _ _ ↦ .empty⟩ m :=
    halloc.bind (Exec.returns_pure.mpr ⟨rfl, rfl⟩)
  have hpt := History.new hsep hnew
  have hr := hpt.refines
  have hsep' := hsep.conserves (Machine.conserves_frameAlloc halloc [])
  have hav' : sampleMachine.frameAllocator.available = 100 := by decide
  obtain ⟨pt₁, m₁, hmap, -⟩ := map_returns 0x90000 6 hr.wf hsep' (hr.lookup 3 (by decide))
    ((missing_le _ _ _).trans (by omega))
  have hpt₁ : History ([] ++ [.map 3 0x90000 6]) pt₁ :=
    hpt.call hsep' ⟨by decide, by decide, by decide⟩ hmap
  have hsep₁ := (kept_map hr.wf hr.cleared hsep' (by decide) (by decide) hmap).separate
  obtain ⟨pt₂, hunmap⟩ := unmap_returns (hpt₁.refines.lookup 3 (by decide)) m₁
  exact ⟨pt₂, history_isPartialMap (hpt₁.call hsep₁ (show 3 < 2 ^ 27 by decide) hunmap)⟩

end PageTable

end AgentOS
