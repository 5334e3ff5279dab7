import Mathlib
import AgentOS.Fs.Index

/-!
# Growing and clearing an inode

`increase_size` takes the new blocks one by one, for data and for indexing, and `clear_size` gives the same
blocks in the same order. In between, `get_block_id` finds the data blocks.
-/

namespace AgentOS.Fs

open Exec

/-! ## Index blocks -/

/-- The entries of an indirect block. -/
def entries (v : IndirectBlock) (k : ℕ) : UInt32 := v[k]?.getD 0

theorem size_indirectBlock : 0 + indirectBlock.size ≤ blockSz := by decide

theorem entriesOf_eq (m : ℕ → Block) (id : UInt32) :
    entriesOf m id = entries (indirectBlock.read 0 (m id.toNat)) := rfl

theorem entriesOf_congr {m m' : ℕ → Block} {id : UInt32} (h : m' id.toNat = m id.toNat) :
    entriesOf m' id = entriesOf m id := by
  rw [entriesOf_eq, h, entriesOf_eq]

theorem entriesOf_write (m : ℕ → Block) (id : UInt32) (v : IndirectBlock) (b : Block) :
    entriesOf (Function.update m id.toNat (indirectBlock.write 0 v b)) =
      Function.update (entriesOf m) id (entries v) := by
  funext id'
  by_cases hid : id' = id
  · subst hid
    rw [entriesOf_eq, Function.update_self, Function.update_self,
      ByteLayout.read_write size_indirectBlock]
  · have hne : id'.toNat ≠ id.toNat := fun heq ↦ hid (UInt32.toNat_inj.mp heq)
    rw [Function.update_of_ne hid, entriesOf_congr (Function.update_of_ne hne _ _)]

theorem entries_set (v : IndirectBlock) {k : ℕ} (hk : k < 128) (b : UInt32) :
    entries (Vector.set v k b hk) = Function.update (entries v) k b := by
  funext j
  by_cases hj : j = k
  · subst hj
    simp [entries, hk]
  · rw [Function.update_of_ne hj, entries, entries, Vector.getElem?_set_ne _ (Ne.symm hj)]

theorem entries_setIfInBounds (v : IndirectBlock) {k : ℕ} (hk : k < 128) (b : UInt32) :
    entries (v.setIfInBounds k b) = Function.update (entries v) k b := by
  rw [← entries_set v hk]
  congr 1
  exact Vector.ext fun j hj ↦ by rw [Vector.getElem_setIfInBounds, Vector.getElem_set]

theorem getElem?_entries (v : IndirectBlock) {k : ℕ} (hk : k < 128) : v[k]? = some (entries v k) := by
  rw [entries, Vector.getElem?_eq_getElem hk, Option.getD_some]

namespace DiskInode

variable {d : DiskInode} {E : UInt32 → ℕ → UInt32} {m : ℕ → Block} {D : DeviceId}
  {used : List (ℕ × Bool)}

/-- **The blocks are found**, as long as the index blocks can be locked. -/
theorem reads_getBlockId_of [LockRule] {j : UInt32} (hj : j.toNat < indirect2Bound)
    (h1 : 28 ≤ j.toNat → j.toNat < 156 → Lockable used d.indirect1.toNat)
    (h2 : 156 ≤ j.toNat → Lockable used d.indirect2.toNat ∧
      Lockable used (entriesOf m d.indirect2 ((j.toNat - 156) / 128)).toNat) :
    Reads D (d.getBlockId j D) used m (d.blockId (entriesOf m) j.toNat) := by
  unfold getBlockId blockId
  dsimp only
  have hbound : j.toNat < 156 + 128 * 128 := hj
  by_cases h28 : j.toNat < 28
  · rw [if_pos h28, if_pos h28, Vector.getElem?_eq_getElem h28]
    exact reads_pure _
  rw [if_neg h28, if_neg h28]
  by_cases h156 : j.toNat < 156
  · have h128 : j.toNat - 28 < 128 := by omega
    rw [if_pos (show j.toNat < indirect1Bound from h156), if_pos h156]
    exact reads_readBlock_of (h1 (Nat.le_of_not_lt h28) h156) size_indirectBlock
      (reads_unwrap (getElem?_entries _ h128))
  · have hdiv : (j.toNat - 156) / 128 < 128 := by omega
    have hmod : (j.toNat - 156) % 128 < 128 := Nat.mod_lt _ (by decide)
    obtain ⟨hindirect2, hsub⟩ := h2 (Nat.le_of_not_lt h156)
    rw [if_neg (show ¬j.toNat < indirect1Bound from h156), if_neg h156]
    refine Reads.bind (reads_readBlock_of hindirect2 size_indirectBlock
      (reads_unwrap (getElem?_entries _ hdiv))) ?_
    exact reads_readBlock_of hsub size_indirectBlock (reads_unwrap (getElem?_entries _ hmod))

theorem reads_getBlockId [HeldLimit] {j : UInt32} (hj : j.toNat < indirect2Bound)
    (h1 : 28 ≤ j.toNat → d.indirect1.toNat ∉ used.map Prod.fst)
    (h2 : 156 ≤ j.toNat → d.indirect2.toNat ∉ used.map Prod.fst ∧
      (entriesOf m d.indirect2 ((j.toNat - 156) / 128)).toNat ∉ used.map Prod.fst)
    (hroom : used.length < HeldLimit.limit) :
    Reads D (d.getBlockId j D) used m (d.blockId (entriesOf m) j.toNat) :=
  reads_getBlockId_of hj (fun h28 _ ↦ lockable_of_limit (h1 h28) hroom) fun h156 ↦
    ⟨lockable_of_limit (h2 h156).1 hroom, lockable_of_limit (h2 h156).2 hroom⟩

/-! ## Growing -/

theorem fill_of_le {n : ℕ} (e : Vector UInt32 n) {c bound : ℕ} (h : bound ≤ c) (w : List UInt32) :
    fill e c bound w = some (e, w) := by
  cases w with
  | nil => rw [fill, if_neg (Nat.not_lt.mpr h)]
  | cons b w => rw [fill, if_neg (Nat.not_lt.mpr h)]

/-- The direct blocks take new blocks. -/
theorem fill_direct {c bound : ℕ} (v w : List UInt32) (hbound : bound ≤ 28)
    (hlength : c + v.length = bound) :
    ∃ direct, fill d.direct c bound (v ++ w) = some (direct, w) ∧
      ({ d with direct } : DiskInode).refs E bound = d.refs E c ++ v := by
  induction v generalizing c d with
  | nil =>
    obtain rfl : c = bound := hlength
    refine ⟨d.direct, fill_of_le _ le_rfl w, ?_⟩
    rw [List.append_nil]
  | cons b v ih =>
    rw [List.length_cons] at hlength
    have hc : c < 28 := by omega
    obtain ⟨direct, hfill, hrefs⟩ := ih (d := { d with direct := d.direct.set c b }) (c := c + 1)
      (by omega)
    refine ⟨direct, ?_, ?_⟩
    · rw [List.cons_append, fill, if_pos (by omega), dif_pos hc]
      exact hfill
    · rw [hrefs, refs_direct hc, List.append_assoc]
      rfl

/-- The blocks for the data blocks before one of the indirect blocks, with the indirect1 block. -/
def refsFrom1 (d : DiskInode) (E : UInt32 → ℕ → UInt32) (c : ℕ) : List UInt32 :=
  if c = 28 then d.refs E c ++ [d.indirect1] else d.refs E c

theorem refsFrom1_succ {c : ℕ} (h28 : 28 ≤ c) (hc : c < 156) (b : UInt32) :
    d.refsFrom1 (setEntry E d.indirect1 (c - 28) b) (c + 1) = d.refsFrom1 E c ++ [b] := by
  rw [refsFrom1, if_neg (by omega), refs_entry1 h28 hc, refsFrom1]
  rcases Nat.eq_or_lt_of_le h28 with rfl | hlt
  · rw [if_pos rfl, indexAt_28, List.append_assoc]
  · rw [if_neg (by omega), indexAt_eq_nil (by omega) (Or.inl hc), List.nil_append]

/-- The indirect1 block takes new blocks. -/
theorem fill_indirect1 {c bound : ℕ} (e : IndirectBlock) (v w : List UInt32) (hbound : bound ≤ 128)
    (hlength : c + v.length = bound) :
    ∃ e', fill e c bound (v ++ w) = some (e', w) ∧
      d.refsFrom1 (Function.update E d.indirect1 (entries e')) (28 + bound) =
        d.refsFrom1 (Function.update E d.indirect1 (entries e)) (28 + c) ++ v := by
  induction v generalizing c e with
  | nil =>
    obtain rfl : c = bound := hlength
    exact ⟨e, fill_of_le _ le_rfl w, (List.append_nil _).symm⟩
  | cons b v ih =>
    rw [List.length_cons] at hlength
    have hc : c < 128 := by omega
    obtain ⟨e', hfill, hrefs⟩ := ih (Vector.set e c b hc) (c := c + 1) (by omega)
    have hset : Function.update E d.indirect1 (entries (Vector.set e c b hc)) =
        setEntry (Function.update E d.indirect1 (entries e)) d.indirect1 (28 + c - 28) b := by
      rw [setEntry, Function.update_self, Function.update_idem, Nat.add_sub_cancel_left,
        entries_set e hc]
    refine ⟨e', ?_, ?_⟩
    · rw [List.cons_append, fill, if_pos (by omega), dif_pos hc]
      exact hfill
    · rw [hrefs, hset, ← Nat.add_assoc, refsFrom1_succ (by omega) (by omega), List.append_assoc]
      rfl

theorem setEntry_update_comm {s i : UInt32} (h : s ≠ i) (E : UInt32 → ℕ → UInt32) (k : ℕ) (b : UInt32)
    (f : ℕ → UInt32) : Function.update (setEntry E s k b) i f = setEntry (Function.update E i f) s k b := by
  rw [setEntry, setEntry, Function.update_of_ne h, Function.update_comm h]

/-- A data block is entered in a low-level indirect1 block. -/
theorem does_storeEntry [HeldLimit] {v2 : IndirectBlock} {a k : ℕ} (ha : a < 128) (hk : k < 128) (b : UInt32)
    (hid : (entries v2 a).toNat ∉ used.map Prod.fst) (hroom : used.length < HeldLimit.limit) :
    ∃ m', Does D (fillIndirect2.storeEntry D v2 a k b) used m () m' ∧
      entriesOf m' = setEntry (entriesOf m) (entries v2 a) k b ∧
      ∀ id, (entries v2 a).toNat ≠ id → m' id = m id := by
  refine ⟨_, (does_unwrap (getElem?_entries v2 ha)).bind (does_modifyBlock hid hroom size_indirectBlock
    ((does_assert hk).bind (does_pure _))), ?_, fun id hne ↦ Function.update_of_ne hne.symm _ _⟩
  rw [entriesOf_write, entries_setIfInBounds _ hk]
  rfl

theorem next_spec {a k : ℕ} (hk : k < 128) : ∃ a' k', fillIndirect2.next a k = (a', k') ∧ k' < 128 ∧
    156 + 128 * a' + k' = 156 + 128 * a + k + 1 := by
  unfold fillIndirect2.next
  by_cases hlast : k + 1 = 128
  · exact ⟨a + 1, 0, if_pos hlast, by decide, by omega⟩
  · exact ⟨a, k + 1, if_neg hlast, by omega, by omega⟩

theorem length_refsFrom2 (d : DiskInode) (E : UInt32 → ℕ → UInt32) (c : ℕ) :
    (d.refsFrom2 E c).length = refsLength c + if c = 156 then 1 else 0 := by
  unfold refsFrom2
  split
  · rw [List.length_append, length_refs, List.length_singleton]
  · rw [length_refs, Nat.add_zero]

/-- The doubly indirect blocks take new blocks. While they do, the indirect2 block is `v2` and not yet what
the device has. -/
theorem does_fillIndirect2 [HeldLimit] {a1 b1 : ℕ} (hb1 : b1 < 128) (ha1 : 128 * a1 + b1 ≤ 128 * 128)
    (hroom : used.length < HeldLimit.limit) {a0 b0 : ℕ} (hb0 : b0 < 128) (k : ℕ) (hk : 128 * a0 + b0 + k = 128 * a1 + b1)
    (v2 : IndirectBlock) (v : List UInt32)
    (hE : E = Function.update (entriesOf m) d.indirect2 (entries v2))
    (hnodup : (d.refsFrom2 E (156 + 128 * a0 + b0) ++ v).Nodup)
    (hlength : (d.refsFrom2 E (156 + 128 * a0 + b0) ++ v).length =
      (d.refsFrom2 E (156 + 128 * a1 + b1)).length)
    (hfree : ∀ x ∈ d.refsFrom2 E (156 + 128 * a0 + b0) ++ v, x ≠ d.indirect2 →
      x.toNat ∉ used.map Prod.fst) :
    ∃ v2' m', Does D (fillIndirect2 D a1 b1 v a0 b0 v2) used m v2' m' ∧
      d.refsFrom2 (Function.update (entriesOf m') d.indirect2 (entries v2')) (156 + 128 * a1 + b1) =
        d.refsFrom2 E (156 + 128 * a0 + b0) ++ v ∧
      (∀ a, 128 * a < 128 * a0 + b0 → entries v2' a = entries v2 a) ∧
      ∀ id, (∀ a, 128 * a < 128 * a1 + b1 → (entries v2' a).toNat ≠ id) → m' id = m id := by
  induction k generalizing a0 b0 v2 v m E with
  | zero =>
    obtain ⟨rfl, rfl⟩ : a0 = a1 ∧ b0 = b1 := by omega
    obtain rfl : v = [] := by
      rw [List.length_append] at hlength
      exact List.length_eq_zero_iff.mp (by omega)
    refine ⟨v2, m, (does_assert (by omega)).bind (does_pure _), ?_, fun _ _ ↦ rfl, fun _ _ ↦ rfl⟩
    rw [← hE, List.append_nil]
  | succ k ih =>
    have hlt : a0 < a1 ∨ a0 = a1 ∧ b0 < b1 := by omega
    have ha0 : a0 < 128 := by omega
    rw [List.length_append, length_refsFrom2, length_refsFrom2] at hlength
    obtain ⟨a', b', hnext, hb', hsucc⟩ := next_spec (a := a0) hb0
    have hmono := refsLength_mono (show 156 + 128 * a0 + b0 + 1 ≤ 156 + 128 * a1 + b1 by omega)
    by_cases hzero : b0 = 0
    · -- a new low-level indirect1 block, and its first entry
      subst hzero
      have hlong : 2 ≤ v.length := by
        have h1 : refsLength (156 + 128 * a0 + 0 + 1) =
            refsLength (156 + 128 * a0 + 0) + (if 156 + 128 * a0 + 0 = 156 then 1 else 0) + 2 := by
          unfold refsLength
          split_ifs <;> omega
        split_ifs at hlength h1 <;> omega
      obtain ⟨s, b, v, rfl⟩ : ∃ s b w, v = s :: b :: w := by
        rcases v with _ | ⟨s, _ | ⟨b, w⟩⟩
        · simp at hlong
        · simp at hlong
        · exact ⟨s, b, w, rfl⟩
      have hs : s ≠ d.indirect2 := by
        rintro rfl
        exact (List.nodup_append.mp hnodup).2.2 _ (indirect2_mem_refsFrom2 (by omega)) _
          List.mem_cons_self rfl
      have hset := entries_setIfInBounds v2 ha0 s
      have hentry : entries (v2.setIfInBounds a0 s) a0 = s := by rw [hset, Function.update_self]
      obtain ⟨m₁, hm₁, hm₁E, hframe₁⟩ := does_storeEntry (D := D) (m := m) ha0
        (Nat.zero_lt_succ 127) b (hentry.symm ▸ hfree s (by simp) hs) hroom
      rw [hentry] at hm₁E hframe₁
      have hE₁ : setEntry (setEntry E d.indirect2 a0 s) s 0 b =
          Function.update (entriesOf m₁) d.indirect2 (entries (v2.setIfInBounds a0 s)) := by
        rw [hm₁E, setEntry_update_comm hs, hset, hE]
        congr 1
        rw [setEntry, Function.update_self, Function.update_idem]
      have hrefs := refs_entry2_zero (d := d) (E := E) (a := a0) (s := s) (b := b)
        (hnodup.sublist (List.Sublist.append_left (List.singleton_sublist.mpr List.mem_cons_self) _))
      have hrefs' : d.refsFrom2 (setEntry (setEntry E d.indirect2 a0 s) s 0 b) (156 + 128 * a' + b') ++ v =
          d.refsFrom2 E (156 + 128 * a0 + 0) ++ s :: b :: v := by
        rw [hsucc, refsFrom2, if_neg (by omega)]
        change d.refs _ (156 + 128 * a0 + 1) ++ v = _
        rw [hrefs, List.append_assoc]
        rfl
      obtain ⟨v2', m', hm', hfinal, hkept, hframe⟩ := ih hb' (by omega) (v2.setIfInBounds a0 s) v hE₁
        (hrefs' ▸ hnodup)
        (by rw [hrefs', List.length_append, length_refsFrom2, length_refsFrom2]; exact hlength)
        (hrefs' ▸ hfree)
      refine ⟨v2', m', ?_, by rw [hfinal, hrefs'], fun a ha ↦ ?_, fun id hid ↦ ?_⟩
      · rw [fillIndirect2, if_pos hlt, if_pos rfl, hnext]
        exact (does_assert ha0).bind (hm₁.bind hm')
      · rw [hkept a (by omega), hset, Function.update_of_ne (by omega)]
      · rw [hframe id hid, hframe₁ id]
        rw [← hentry, ← hkept a0 (by omega)]
        exact hid a0 (by omega)
    · -- another entry of the low-level indirect1 block
      have hlong : 1 ≤ v.length := by
        have h1 : refsLength (156 + 128 * a0 + b0 + 1) = refsLength (156 + 128 * a0 + b0) + 1 := by
          unfold refsLength
          split_ifs <;> omega
        split_ifs at hlength <;> omega
      obtain ⟨b, v, rfl⟩ : ∃ b w, v = b :: w := by
        rcases v with _ | ⟨b, w⟩
        · simp at hlong
        · exact ⟨b, w, rfl⟩
      have hfrom : d.refsFrom2 E (156 + 128 * a0 + b0) = d.refs E (156 + 128 * a0 + b0) :=
        if_neg (by omega)
      rw [hfrom] at hnodup hfree
      have hold := (List.nodup_append.mp hnodup).1
      have hentry : E d.indirect2 a0 = entries v2 a0 := by rw [hE, Function.update_self]
      have hs : entries v2 a0 ≠ d.indirect2 := by
        rw [← hentry]
        exact sub_ne_indirect2 hold (by omega)
      have hmem : entries v2 a0 ∈ d.refs E (156 + 128 * a0 + b0) := by
        rw [← hentry]
        exact sub_mem_refs (by omega)
      obtain ⟨m₁, hm₁, hm₁E, hframe₁⟩ := does_storeEntry (D := D) (m := m) ha0
        hb0 b (hfree _ (List.mem_append_left _ hmem) hs) hroom
      have hE₁ : setEntry E (E d.indirect2 a0) b0 b =
          Function.update (entriesOf m₁) d.indirect2 (entries v2) := by
        rw [hm₁E, setEntry_update_comm hs, hentry, hE]
      have hrefs := refs_entry2_succ (b := b) (Nat.pos_of_ne_zero hzero) hb0 hold
      have hrefs' : d.refsFrom2 (setEntry E (E d.indirect2 a0) b0 b) (156 + 128 * a' + b') ++ v =
          d.refs E (156 + 128 * a0 + b0) ++ b :: v := by
        rw [hsucc, refsFrom2, if_neg (by omega), hrefs, List.append_assoc]
        rfl
      obtain ⟨v2', m', hm', hfinal, hkept, hframe⟩ := ih hb' (by omega) v2 v hE₁ (hrefs' ▸ hnodup)
        (by
          rw [hrefs', ← hfrom, List.length_append, length_refsFrom2, length_refsFrom2]
          exact hlength)
        (hrefs' ▸ hfree)
      refine ⟨v2', m', ?_, by rw [hfinal, hrefs', hfrom], fun a ha ↦ hkept a (by omega), fun id hid ↦ ?_⟩
      · cases v with
        | nil =>
          rw [fillIndirect2, if_pos hlt, if_neg hzero, hnext]
          exact hm₁.bind hm'
        | cons c w =>
          rw [fillIndirect2, if_pos hlt, if_neg hzero, hnext]
          exact hm₁.bind hm'
      · rw [hframe id hid, hframe₁ id]
        rw [← hkept a0 (by omega)]
        exact hid a0 (by omega)

/-- What growing does: the inode has the blocks `l` for its first `n` data blocks, and only index blocks are
written to. -/
structure Grown (d : DiskInode) (m : ℕ → Block) (n : ℕ) (l : List UInt32) (d' : DiskInode)
    (m' : ℕ → Block) : Prop where
  size : d'.size = d.size
  type_ : d'.type_ = d.type_
  refs : d'.refs (entriesOf m') n = l
  frame : ∀ id, (∀ x ∈ d'.indexBlocks (entriesOf m') n, x.toNat ≠ id) → m' id = m id

/-- The doubly indirect blocks and the indirect2 block. -/
theorem does_modifyIndirect2 [HeldLimit] {c t : ℕ} {v : List UInt32} (hc : 128 ≤ c) (hct : c ≤ t) (ht : 128 < t)
    (hmax : t ≤ 128 + 128 * 128) (hroom : used.length + 1 < HeldLimit.limit)
    (hnodup : (d.refsFrom2 (entriesOf m) (28 + c) ++ v).Nodup)
    (hlength : (d.refsFrom2 (entriesOf m) (28 + c) ++ v).length = refsLength (28 + t))
    (hfree : ∀ x ∈ d.refsFrom2 (entriesOf m) (28 + c) ++ v, x.toNat ∉ used.map Prod.fst) :
    ∃ m', Does D (modifyBlock D d.indirect2.toNat indirectBlock 0 fun indirect2 ↦ do
        let indirect2 ← fillIndirect2 D ((t - 128) / 128) ((t - 128) % 128) v ((c - 128) / 128)
          ((c - 128) % 128) indirect2
        pure ((), indirect2)) used m () m' ∧
      Grown d m (28 + t) (d.refsFrom2 (entriesOf m) (28 + c) ++ v) d m' := by
  have h2 : d.indirect2.toNat ∉ used.map Prod.fst :=
    hfree _ (List.mem_append_left _ (indirect2_mem_refsFrom2 (by omega)))
  have hfrom : 28 + c = 156 + 128 * ((c - 128) / 128) + (c - 128) % 128 := by omega
  have hto : 28 + t = 156 + 128 * ((t - 128) / 128) + (t - 128) % 128 := by omega
  have hlast : ∀ E, d.refsFrom2 E (28 + t) = d.refs E (28 + t) := fun E ↦ if_neg (by omega)
  have hE : entriesOf m = Function.update (entriesOf m) d.indirect2
      (entries (indirectBlock.read 0 (m d.indirect2.toNat))) := (Function.update_eq_self _ _).symm
  rw [hfrom] at hnodup hlength hfree
  have hbound : 128 * ((t - 128) / 128) + (t - 128) % 128 ≤ 128 * 128 := by omega
  have hsteps : 128 * ((c - 128) / 128) + (c - 128) % 128 + (t - c) =
      128 * ((t - 128) / 128) + (t - 128) % 128 := by omega
  have hroom' : ((d.indirect2.toNat, true) :: used).length < HeldLimit.limit := by
    rw [List.length_cons]
    omega
  obtain ⟨v2', m', hm', hrefs, -, hframe⟩ := does_fillIndirect2 (D := D) (d := d)
    (Nat.mod_lt (t - 128) (by decide)) hbound hroom' (Nat.mod_lt (c - 128) (by decide)) (t - c) hsteps
    (indirectBlock.read 0 (m d.indirect2.toNat)) v hE hnodup
    (by rw [hlength, ← hto, hlast, length_refs])
    (fun x hx hne ↦ by
      rw [List.map_cons, List.mem_cons]
      rintro (heq | hin)
      · exact hne (UInt32.toNat_inj.mp heq)
      · exact hfree x hx hin)
  have hfinal := entriesOf_write m' d.indirect2 v2' (m' d.indirect2.toNat)
  rw [← hto, hlast, ← hfrom, ← hfinal] at hrefs
  refine ⟨_, does_modifyBlock h2 (by omega) size_indirectBlock (hm'.bind (does_pure _)),
    rfl, rfl, hrefs, fun id hid ↦ ?_⟩
  rw [Function.update_of_ne fun heq ↦ hid _ (indirect2_mem_indexBlocks (by omega)) heq.symm]
  refine hframe id fun a ha ↦ ?_
  have hsub := hid _ (sub_mem_indexBlocks (a := a) (by omega))
  rwa [hfinal, Function.update_self] at hsub

/-- From the doubly indirect blocks on. -/
theorem does_increaseIndirect2 [HeldLimit] {c t : ℕ} {v : List UInt32} (hct : c ≤ t) (hstart : min t 128 ≤ c)
    (hmax : t ≤ 128 + 128 * 128) (hroom : used.length + 1 < HeldLimit.limit)
    (hnodup : (d.refs (entriesOf m) (28 + c) ++ v).Nodup)
    (hlength : (d.refs (entriesOf m) (28 + c) ++ v).length = refsLength (28 + t))
    (hfree : ∀ x ∈ d.refs (entriesOf m) (28 + c) ++ v, x.toNat ∉ used.map Prod.fst) :
    ∃ d' m', Does D (d.increaseIndirect2 c t v D) used m d' m' ∧
      Grown d m (28 + t) (d.refs (entriesOf m) (28 + c) ++ v) d' m' ∧ d'.indirect1 = d.indirect1 := by
  unfold increaseIndirect2
  by_cases ht : 128 < t
  · rw [if_pos ht]
    by_cases hc : c = 128
    · -- the first of the new blocks is the indirect2 block
      have h156 : 28 + c = 156 := by omega
      rw [List.length_append, length_refs] at hlength
      have hlong : 1 ≤ v.length := by
        have hlt : refsLength (28 + c) + 1 ≤ refsLength (28 + t) := by
          unfold refsLength
          split_ifs <;> omega
        omega
      obtain ⟨b, v, rfl⟩ : ∃ b w, v = b :: w := by
        rcases v with _ | ⟨b, w⟩
        · simp at hlong
        · exact ⟨b, w, rfl⟩
      have hfrom : ({ d with indirect2 := b } : DiskInode).refsFrom2 (entriesOf m) (28 + c) ++ v =
          d.refs (entriesOf m) (28 + c) ++ b :: v := by
        rw [refsFrom2, if_pos h156, List.append_assoc, h156, refs_indirect2]
        rfl
      obtain ⟨m', hm', hgrown⟩ := does_modifyIndirect2 (D := D) (d := { d with indirect2 := b })
        hc.ge hct ht hmax hroom (by rw [hfrom]; exact hnodup)
        (by rw [hfrom, List.length_append, length_refs]; exact hlength) (by rw [hfrom]; exact hfree)
      rw [hfrom] at hgrown
      refine ⟨{ d with indirect2 := b }, m', ?_,
        ⟨hgrown.size, hgrown.type_, hgrown.refs, hgrown.frame⟩, rfl⟩
      rw [if_pos (show c = inodeIndirect1Count from hc)]
      exact (does_pure _).bind (hm'.bind (does_pure _))
    · have hfrom : d.refsFrom2 (entriesOf m) (28 + c) = d.refs (entriesOf m) (28 + c) :=
        if_neg (by omega)
      rw [← hfrom] at hnodup hlength hfree ⊢
      obtain ⟨m', hm', hgrown⟩ := does_modifyIndirect2 (D := D) (d := d) (by omega) hct ht hmax hroom
        hnodup hlength hfree
      rw [if_neg (show ¬c = inodeIndirect1Count from hc)]
      exact ⟨d, m', (does_pure _).bind (hm'.bind (does_pure _)), hgrown, rfl⟩
  · rw [if_neg ht]
    obtain rfl : c = t := by omega
    obtain rfl : v = [] := by
      rw [List.length_append, length_refs] at hlength
      exact List.length_eq_zero_iff.mp (by omega)
    exact ⟨d, m, does_pure d, ⟨rfl, rfl, (List.append_nil _).symm, fun _ _ ↦ rfl⟩, rfl⟩

theorem exact_indirectBlock : indirectBlock.Exact := ByteLayout.exact_array _ ByteLayout.exact_u32

theorem length_refsFrom1 {c : ℕ} (h28 : 28 ≤ c) (hc : c ≤ 156) : (d.refsFrom1 E c).length = c + 1 := by
  unfold refsFrom1
  split
  · rw [List.length_append, length_refs, List.length_singleton, refsLength]
    split_ifs <;> omega
  · rw [length_refs, refsLength]
    split_ifs <;> omega

/-- The indirect1 block takes as many of the new blocks as it has room for. -/
theorem does_fillIndirect1 [HeldLimit] {c bound : ℕ} {v : List UInt32} (h28 : 28 ≤ c) (hbound : bound ≤ 128)
    (hlong : 28 + bound ≤ c + v.length) (hroom : used.length < HeldLimit.limit)
    (h1 : d.indirect1.toNat ∉ used.map Prod.fst) :
    ∃ w₁ w₂ m', v = w₁ ++ w₂ ∧
      Does D (modifyBlock D d.indirect1.toNat indirectBlock 0 fun indirect1 ↦ do
        let (indirect1, newBlocks) ← unwrap (fill indirect1 (c - 28) bound v)
        pure (newBlocks, indirect1)) used m w₂ m' ∧
      d.refsFrom1 (entriesOf m') (max c (28 + bound)) = d.refsFrom1 (entriesOf m) c ++ w₁ ∧
      ∀ id, d.indirect1.toNat ≠ id → m' id = m id := by
  have h28c : 28 + (c - 28) = c := by omega
  rcases Nat.le_total bound (c - 28) with hle | hle
  · -- it is full already
    refine ⟨[], v, _, rfl, does_modifyBlock h1 hroom size_indirectBlock
      ((does_unwrap (fill_of_le _ hle v)).bind (does_pure _)), ?_,
      fun id hid ↦ Function.update_of_ne hid.symm _ _⟩
    rw [exact_indirectBlock.write_read, Function.update_eq_self, Nat.max_eq_left (by omega),
      List.append_nil]
  · obtain ⟨e', hfill, hrefs⟩ := fill_indirect1 (d := d) (E := entriesOf m) (c := c - 28)
      (indirectBlock.read 0 (m d.indirect1.toNat)) (v.take (bound - (c - 28))) (v.drop (bound - (c - 28)))
      hbound (by rw [List.length_take]; omega)
    rw [List.take_append_drop] at hfill
    have hentries : Function.update (entriesOf m) d.indirect1
        (entries (indirectBlock.read 0 (m d.indirect1.toNat))) = entriesOf m :=
      Function.update_eq_self _ _
    refine ⟨v.take (bound - (c - 28)), v.drop (bound - (c - 28)), _, (List.take_append_drop _ v).symm,
      does_modifyBlock h1 hroom size_indirectBlock ((does_unwrap hfill).bind (does_pure _)), ?_,
      fun id hid ↦ Function.update_of_ne hid.symm _ _⟩
    rw [entriesOf_write, Nat.max_eq_right (by omega), hrefs, h28c, hentries]

/-- The indirect1 block, and what comes after it. -/
theorem does_modifyIndirect1 [HeldLimit] {c t : ℕ} {v : List UInt32} (h28 : 28 ≤ c) (hct : c ≤ t) (ht : 28 < t)
    (hmax : t ≤ 156 + 128 * 128) (hroom : used.length + 1 < HeldLimit.limit)
    (hnodup : (d.refsFrom1 (entriesOf m) c ++ v).Nodup)
    (hlength : (d.refsFrom1 (entriesOf m) c ++ v).length = refsLength t)
    (hfree : ∀ x ∈ d.refsFrom1 (entriesOf m) c ++ v, x.toNat ∉ used.map Prod.fst) :
    ∃ d' m', Does D (do
        let newBlocks ← modifyBlock D d.indirect1.toNat indirectBlock 0 fun indirect1 ↦ do
          let (indirect1, newBlocks) ← unwrap (fill indirect1 (c - 28) (min (t - 28) 128) v)
          pure (newBlocks, indirect1)
        increaseIndirect2 d (max (c - 28) (min (t - 28) 128)) (t - 28) newBlocks D) used m d' m' ∧
      Grown d m t (d.refsFrom1 (entriesOf m) c ++ v) d' m' := by
  have hmem : d.indirect1 ∈ d.refsFrom1 (entriesOf m) c := by
    unfold refsFrom1
    split
    · exact List.mem_append_right _ (List.mem_singleton.mpr rfl)
    · exact indirect1_mem_refs (by omega)
  have hlong : 28 + min (t - 28) 128 ≤ c + v.length := by
    rcases Nat.lt_or_ge 156 c with hc | hc
    · omega
    · rw [List.length_append, length_refsFrom1 h28 hc] at hlength
      have h1 : t + 1 ≤ refsLength t := by
        unfold refsLength
        split_ifs <;> omega
      omega
  obtain ⟨w₁, w₂, m₁, rfl, hm₁, hrefs₁, hframe₁⟩ := does_fillIndirect1 (D := D) (m := m) h28
    (Nat.min_le_right (t - 28) 128) hlong (by omega) (hfree _ (List.mem_append_left _ hmem))
  have hmax' : max c (28 + min (t - 28) 128) = 28 + max (c - 28) (min (t - 28) 128) := by omega
  have hdone : d.refsFrom1 (entriesOf m₁) (max c (28 + min (t - 28) 128)) =
      d.refs (entriesOf m₁) (28 + max (c - 28) (min (t - 28) 128)) := by
    rw [refsFrom1, if_neg (by omega), hmax']
  rw [hdone] at hrefs₁
  rw [← List.append_assoc, ← hrefs₁] at hnodup hlength hfree ⊢
  have ht28 : 28 + (t - 28) = t := by omega
  obtain ⟨d', m', hm', hgrown, h1⟩ := does_increaseIndirect2 (D := D) (t := t - 28) (by omega)
    (by omega) (by omega) hroom hnodup (by rw [ht28]; exact hlength) hfree
  rw [ht28] at hgrown
  refine ⟨d', m', hm₁.bind hm', hgrown.size, hgrown.type_, hgrown.refs, fun id hid ↦ ?_⟩
  rw [hgrown.frame id hid]
  refine hframe₁ id ?_
  rw [← h1]
  exact hid _ (indirect1_mem_indexBlocks ht)

/-- From the indirect blocks on. -/
theorem does_increaseIndirect1 [HeldLimit] {c t : ℕ} {v : List UInt32} (hct : c ≤ t) (hstart : min t 28 ≤ c)
    (hmax : t ≤ 156 + 128 * 128) (hroom : used.length + 1 < HeldLimit.limit)
    (hnodup : (d.refs (entriesOf m) c ++ v).Nodup)
    (hlength : (d.refs (entriesOf m) c ++ v).length = refsLength t)
    (hfree : ∀ x ∈ d.refs (entriesOf m) c ++ v, x.toNat ∉ used.map Prod.fst) :
    ∃ d' m', Does D (d.increaseIndirect1 c t v D) used m d' m' ∧
      Grown d m t (d.refs (entriesOf m) c ++ v) d' m' := by
  unfold increaseIndirect1
  by_cases ht : 28 < t
  · rw [if_pos ht]
    by_cases hc : c = 28
    · -- the first of the new blocks is the indirect1 block
      rw [List.length_append, length_refs] at hlength
      have hlong : 1 ≤ v.length := by
        have hlt : refsLength c + 1 ≤ refsLength t := by
          unfold refsLength
          split_ifs <;> omega
        omega
      obtain ⟨b, v, rfl⟩ : ∃ b w, v = b :: w := by
        rcases v with _ | ⟨b, w⟩
        · simp at hlong
        · exact ⟨b, w, rfl⟩
      have hfrom : ({ d with indirect1 := b } : DiskInode).refsFrom1 (entriesOf m) c ++ v =
          d.refs (entriesOf m) c ++ b :: v := by
        rw [refsFrom1, if_pos hc, List.append_assoc, hc, refs_indirect1]
        rfl
      obtain ⟨d', m', hm', hgrown⟩ := does_modifyIndirect1 (D := D) (d := { d with indirect1 := b })
        hc.ge hct ht hmax hroom (by rw [hfrom]; exact hnodup)
        (by rw [hfrom, List.length_append, length_refs]; exact hlength) (by rw [hfrom]; exact hfree)
      rw [hfrom] at hgrown
      refine ⟨d', m', ?_, hgrown.size, hgrown.type_, hgrown.refs, hgrown.frame⟩
      rw [if_pos (show c = inodeDirectCount from hc)]
      exact (does_pure _).bind hm'
    · have hfrom : d.refsFrom1 (entriesOf m) c = d.refs (entriesOf m) c := if_neg hc
      rw [← hfrom] at hnodup hlength hfree ⊢
      obtain ⟨d', m', hm', hgrown⟩ := does_modifyIndirect1 (D := D) (d := d) (by omega) hct ht hmax
        hroom hnodup hlength hfree
      rw [if_neg (show ¬c = inodeDirectCount from hc)]
      exact ⟨d', m', (does_pure _).bind hm', hgrown⟩
  · rw [if_neg ht]
    obtain rfl : c = t := by omega
    obtain rfl : v = [] := by
      rw [List.length_append, length_refs] at hlength
      exact List.length_eq_zero_iff.mp (by omega)
    exact ⟨d, m, does_pure d, rfl, rfl, (List.append_nil _).symm, fun _ _ ↦ rfl⟩

/-- **Growing**: the new blocks go behind those the inode has. -/
theorem does_increaseSize [HeldLimit] {newSize : UInt32} {v : List UInt32}
    (hle : d.dataBlocks.toNat ≤ (dataBlocksOf newSize).toNat)
    (hmax : (dataBlocksOf newSize).toNat ≤ indirect2Bound) (hroom : used.length + 1 < HeldLimit.limit)
    (hnodup : (d.refs (entriesOf m) d.dataBlocks.toNat ++ v).Nodup)
    (hlength : (d.refs (entriesOf m) d.dataBlocks.toNat ++ v).length =
      refsLength (dataBlocksOf newSize).toNat)
    (hfree : ∀ x ∈ d.refs (entriesOf m) d.dataBlocks.toNat ++ v, x.toNat ∉ used.map Prod.fst) :
    ∃ d' m', Does D (d.increaseSize newSize v D) used m d' m' ∧
      Grown { d with size := newSize } m (dataBlocksOf newSize).toNat
        (d.refs (entriesOf m) d.dataBlocks.toNat ++ v) d' m' := by
  unfold increaseSize
  change ∃ d' m', Does D (unwrap (fill d.direct d.dataBlocks.toNat
      (min (dataBlocksOf newSize).toNat 28) v) >>= fun p ↦
    increaseIndirect1 { d with size := newSize, direct := p.1 }
      (max d.dataBlocks.toNat (min (dataBlocksOf newSize).toNat 28)) (dataBlocksOf newSize).toNat p.2 D)
    used m d' m' ∧ _
  generalize hn : d.dataBlocks.toNat = n at *
  generalize ht : (dataBlocksOf newSize).toNat = t at *
  -- the direct blocks take what they have room for
  obtain ⟨direct, w₁, w₂, rfl, hfill, hrefs⟩ : ∃ direct w₁ w₂, v = w₁ ++ w₂ ∧
      fill d.direct n (min t 28) v = some (direct, w₂) ∧
      ({ d with size := newSize, direct } : DiskInode).refs (entriesOf m) (max n (min t 28)) =
        d.refs (entriesOf m) n ++ w₁ := by
    rcases Nat.le_total (min t 28) n with hmin | hmin
    · refine ⟨d.direct, [], v, rfl, fill_of_le _ hmin v, ?_⟩
      rw [Nat.max_eq_left hmin, List.append_nil]
      rfl
    · have hlong : min t 28 ≤ n + v.length := by
        rw [List.length_append, length_refs] at hlength
        have h1 : t ≤ refsLength t := by
          unfold refsLength
          omega
        have h2 : refsLength n = n := by
          unfold refsLength
          split_ifs <;> omega
        omega
      obtain ⟨direct, hfill, hrefs⟩ := fill_direct (d := { d with size := newSize })
        (E := entriesOf m) (c := n) (v.take (min t 28 - n)) (v.drop (min t 28 - n))
        (Nat.min_le_right t 28) (by rw [List.length_take]; omega)
      rw [List.take_append_drop] at hfill
      refine ⟨direct, v.take (min t 28 - n), v.drop (min t 28 - n), (List.take_append_drop _ v).symm,
        hfill, ?_⟩
      rw [Nat.max_eq_right hmin, hrefs]
      rfl
  rw [← List.append_assoc, ← hrefs] at hnodup hlength hfree ⊢
  obtain ⟨d', m', hm', hgrown⟩ := does_increaseIndirect1 (D := D) (t := t) (by omega) (by omega) hmax
    hroom hnodup hlength hfree
  exact ⟨d', m', (does_unwrap hfill).bind hm', hgrown.size, hgrown.type_, hgrown.refs, hgrown.frame⟩

/-! ## Clearing -/

/-- Data blocks with index blocks before the first of them only. -/
theorem refs_segment {c k : ℕ} (hk : 0 < k) (h : ∀ j, 0 < j → j < k → d.indexAt E (c + j) = []) :
    d.refs E (c + k) = d.refs E c ++ (d.indexAt E c ++ (List.range k).map fun j ↦ d.blockId E (c + j)) := by
  induction k, hk using Nat.le_induction with
  | base => simpa using refs_succ d E c
  | succ k hk ih =>
    have hsucc : d.refs E (c + (k + 1)) = _ := refs_succ d E (c + k)
    rw [hsucc, ih fun j hj hjk ↦ h j hj (by omega), h k hk (Nat.lt_succ_self k), List.range_succ,
      List.map_append, List.append_assoc, List.append_assoc]
    rfl

theorem take_toList {n k : ℕ} (v : Vector UInt32 n) (hk : k ≤ n) :
    v.toList.take k = (List.range k).map fun j ↦ v[j]?.getD 0 := by
  refine List.ext_getElem (by simp [hk]) fun j hj _ ↦ ?_
  have hjn : j < n := by
    rw [List.length_take, Vector.length_toList] at hj
    omega
  simp [hjn]

theorem refs_of_direct {n : ℕ} (hn : n ≤ 28) : d.refs E n = d.direct.toList.take n := by
  rcases Nat.eq_zero_or_pos n with rfl | hpos
  · rfl
  · have hseg := refs_segment (d := d) (E := E) (c := 0) hpos fun j _ hj ↦
      indexAt_eq_nil (by omega) (by omega)
    rw [indexAt_eq_nil (by decide) (by decide), Nat.zero_add, refs_zero, List.nil_append,
      List.nil_append] at hseg
    rw [hseg, take_toList _ hn]
    refine List.map_congr_left fun j hj ↦ ?_
    rw [Nat.zero_add, blockId, if_pos (by have := List.mem_range.mp hj; omega)]

theorem refs_of_indirect1 {k : ℕ} (hpos : 0 < k) (hk : k ≤ 128) :
    d.refs E (28 + k) = d.refs E 28 ++ d.indirect1 :: (List.range k).map (E d.indirect1) := by
  rw [refs_segment hpos fun j hj hjk ↦ indexAt_eq_nil (by omega) (by omega), indexAt_28]
  refine congrArg (d.refs E 28 ++ d.indirect1 :: ·) (List.map_congr_left fun j hj ↦ ?_)
  have hj := List.mem_range.mp hj
  rw [blockId, if_neg (by omega), if_pos (by omega), Nat.add_sub_cancel_left]

/-- A low-level indirect1 block and the first `k` blocks it refers to. -/
def subBlocks (E : UInt32 → ℕ → UInt32) (k : ℕ) (id : UInt32) : List UInt32 :=
  id :: (List.range k).map (E id)

theorem refs_of_sub {a k : ℕ} (hpos : 0 < k) (hk : k ≤ 128) :
    d.refs E (156 + 128 * a + k) = d.refsFrom2 E (156 + 128 * a) ++ subBlocks E k (E d.indirect2 a) := by
  have hmap : ((List.range k).map fun j ↦ d.blockId E (156 + 128 * a + j)) =
      (List.range k).map (E (E d.indirect2 a)) := by
    refine List.map_congr_left fun j hj ↦ ?_
    have hj := List.mem_range.mp hj
    have hdiv : (156 + 128 * a + j - 156) / 128 = a := by omega
    have hmod : (156 + 128 * a + j - 156) % 128 = j := by omega
    rw [blockId, if_neg (by omega), if_neg (by omega), hdiv, hmod]
  rw [refs_segment hpos fun j hj hjk ↦ indexAt_eq_nil (by omega) (by omega), hmap, refsFrom2]
  rcases Nat.eq_zero_or_pos a with rfl | ha
  · rw [if_pos rfl, indexAt_156, List.append_assoc]
    rfl
  · rw [if_neg (by omega), indexAt_sub ha]
    rfl

theorem refsFrom2_full (a : ℕ) : d.refsFrom2 E (156 + 128 * a) =
    d.refs E 156 ++ d.indirect2 :: ((List.range a).map (E d.indirect2)).flatMap (subBlocks E 128) := by
  induction a with
  | zero => rfl
  | succ a ih =>
    have hsucc : 156 + 128 * (a + 1) = 156 + 128 * a + 128 := by omega
    rw [hsucc, refsFrom2, if_neg (by omega), refs_of_sub (by decide) le_rfl, ih, List.range_succ,
      List.map_append, List.flatMap_append, List.append_assoc]
    simp

theorem does_clearIndirect1 [HeldLimit] {k : ℕ} (hk : k ≤ 128) {id : UInt32} (hid : id.toNat ∉ used.map Prod.fst)
    (hroom : used.length < HeldLimit.limit) :
    Does D (clearIndirect1 D k id) used m (subBlocks (entriesOf m) k id) m := by
  have h := does_modifyBlock (D := D) (m := m) (L := indirectBlock)
    (f := fun indirect1 ↦ pure (indirect1.toList.take k, indirect1)) hid hroom size_indirectBlock
    (does_pure _)
  rw [exact_indirectBlock.write_read, Function.update_eq_self, take_toList _ hk] at h
  exact h.bind (does_pure _)

theorem does_clearEntries [HeldLimit] (l : List UInt32) (hl : ∀ id ∈ l, id.toNat ∉ used.map Prod.fst)
    (hroom : used.length < HeldLimit.limit) :
    Does D (clearEntries D 128 l) used m (l.flatMap (subBlocks (entriesOf m) 128)) m := by
  induction l with
  | nil => exact does_pure _
  | cons id l ih =>
    rw [clearEntries, List.flatMap_cons]
    exact (does_clearIndirect1 le_rfl (hl id List.mem_cons_self) hroom).bind
      ((ih fun x hx ↦ hl x (List.mem_cons_of_mem _ hx)).bind (does_pure _))

/-- From the doubly indirect blocks on. What comes before them has been cleared in `c` already. -/
theorem does_clearIndirect2 [HeldLimit] {c : DiskInode} {r : ℕ} (hc : c.indirect2 = d.indirect2)
    (hmax : r ≤ 128 + 128 * 128) (hroom : used.length + 1 < HeldLimit.limit)
    (hnodup : (d.refs (entriesOf m) (28 + r)).Nodup)
    (hfree : ∀ x ∈ d.refs (entriesOf m) (28 + r), x.toNat ∉ used.map Prod.fst) :
    ∃ l d', Does D (c.clearIndirect2 r D) used m (l, d') m ∧
      d.refs (entriesOf m) (28 + min r 128) ++ l = d.refs (entriesOf m) (28 + r) ∧
      d'.size = c.size ∧ d'.type_ = c.type_ := by
  unfold clearIndirect2
  rw [hc]
  by_cases hr : 128 < r
  · rw [if_pos hr, Nat.min_eq_right hr.le]
    have hsplit : 28 + r = 156 + 128 * ((r - 128) / 128) + (r - 128) % 128 := by omega
    generalize ha : (r - 128) / 128 = a at hsplit
    generalize hb : (r - 128) % 128 = b at hsplit
    have hb128 : b < 128 := hb ▸ Nat.mod_lt _ (by decide)
    have ha128 : a ≤ 128 := by omega
    have h2 : d.indirect2.toNat ∉ used.map Prod.fst := hfree _ (indirect2_mem_refs (by omega))
    have hroom' : ((d.indirect2.toNat, true) :: used).length < HeldLimit.limit := by
      rw [List.length_cons]
      omega
    have hsub : ∀ k, 128 * k < 128 * a + b →
        (entriesOf m d.indirect2 k).toNat ∉ ((d.indirect2.toNat, true) :: used).map Prod.fst := by
      intro k hk hin
      rcases List.mem_cons.mp hin with heq | hin
      · exact sub_ne_indirect2 hnodup (a := k) (by omega) (UInt32.toNat_inj.mp heq)
      · exact hfree _ (sub_mem_refs (by omega)) hin
    -- the full low-level indirect1 blocks
    have hfull : Does D (clearEntries D inodeIndirect1Count
        ((indirectBlock.read 0 (m d.indirect2.toNat)).toList.take a)) ((d.indirect2.toNat, true) :: used) m
        (((List.range a).map (entriesOf m d.indirect2)).flatMap (subBlocks (entriesOf m) 128)) m := by
      rw [show (indirectBlock.read 0 (m d.indirect2.toNat)).toList.take a =
        (List.range a).map (entriesOf m d.indirect2) from take_toList _ ha128]
      refine does_clearEntries _ (fun id hid ↦ ?_) hroom'
      obtain ⟨k, hk, rfl⟩ := List.mem_map.mp hid
      have hk := List.mem_range.mp hk
      exact hsub k (by omega)
    -- with the last one
    obtain ⟨l, hbody, hl⟩ : ∃ l, Does D (do
        let v ← clearEntries D inodeIndirect1Count
          ((indirectBlock.read 0 (m d.indirect2.toNat)).toList.take a)
        if b > 0 then
          let last ← unwrap (indirectBlock.read 0 (m d.indirect2.toNat))[a]?
          let w ← clearIndirect1 D b last
          pure (v ++ w, indirectBlock.read 0 (m d.indirect2.toNat))
        else pure (v, indirectBlock.read 0 (m d.indirect2.toNat))) ((d.indirect2.toNat, true) :: used) m
          (l, indirectBlock.read 0 (m d.indirect2.toNat)) m ∧
        d.refs (entriesOf m) 156 ++ d.indirect2 :: l = d.refs (entriesOf m) (28 + r) := by
      rcases Nat.eq_zero_or_pos b with rfl | hpos
      · refine ⟨_, hfull.bind (does_pure _), ?_⟩
        have hfrom : d.refsFrom2 (entriesOf m) (156 + 128 * a) = d.refs (entriesOf m) (28 + r) := by
          rw [refsFrom2, if_neg (by omega), hsplit]
          rfl
        rw [← hfrom, refsFrom2_full]
      · have hlast : (indirectBlock.read 0 (m d.indirect2.toNat))[a]? =
            some (entriesOf m d.indirect2 a) := getElem?_entries _ (by omega)
        refine ⟨((List.range a).map (entriesOf m d.indirect2)).flatMap (subBlocks (entriesOf m) 128) ++
          subBlocks (entriesOf m) b (entriesOf m d.indirect2 a), hfull.bind ?_, ?_⟩
        · rw [if_pos hpos]
          exact (does_unwrap hlast).bind
            ((does_clearIndirect1 hb128.le (hsub a (by omega)) hroom').bind (does_pure _))
        · rw [hsplit, refs_of_sub hpos hb128.le, refsFrom2_full, List.append_assoc]
          rfl
    have hwhole := does_modifyBlock (L := indirectBlock) (o := 0) h2 (by omega) size_indirectBlock
      (f := fun indirect2 ↦ do
        let v ← clearEntries D inodeIndirect1Count (indirect2.toList.take a)
        if b > 0 then
          let last ← unwrap indirect2[a]?
          let w ← clearIndirect1 D b last
          pure (v ++ w, indirect2)
        else pure (v, indirect2)) hbody
    rw [exact_indirectBlock.write_read, Function.update_eq_self] at hwhole
    subst ha hb
    have hassert : r - inodeIndirect1Count ≤ inodeIndirect2Count := by
      simp only [inodeIndirect1Count, inodeIndirect2Count]
      omega
    exact ⟨d.indirect2 :: l, { c with indirect2 := 0 },
      (does_assert hassert).bind (hwhole.bind (does_pure _)), hl, rfl, rfl⟩
  · rw [if_neg hr, Nat.min_eq_left (Nat.le_of_not_lt hr)]
    exact ⟨[], c, does_pure _, List.append_nil _, rfl, rfl⟩

/-- **Clearing** gives the blocks of the inode, in the order they were taken in. -/
theorem does_clearSize [HeldLimit] (hmax : d.dataBlocks.toNat ≤ indirect2Bound) (hroom : used.length + 1 < HeldLimit.limit)
    (hnodup : (d.refs (entriesOf m) d.dataBlocks.toNat).Nodup)
    (hfree : ∀ x ∈ d.refs (entriesOf m) d.dataBlocks.toNat, x.toNat ∉ used.map Prod.fst) :
    ∃ d', Does D (d.clearSize D) used m (d.refs (entriesOf m) d.dataBlocks.toNat, d') m ∧
      d'.size = 0 ∧ d'.type_ = d.type_ := by
  have hmax' : d.dataBlocks.toNat ≤ 28 + 128 + 128 * 128 := hmax
  unfold clearSize
  dsimp only
  generalize d.dataBlocks.toNat = n at *
  by_cases h28 : 28 < n
  · rw [if_pos h28, Nat.min_eq_right h28.le]
    have hn : 28 + (n - 28) = n := by omega
    have h1 : d.indirect1.toNat ∉ used.map Prod.fst := hfree _ (indirect1_mem_refs h28)
    have hbody := does_modifyBlock (D := D) (m := m) (L := indirectBlock) (o := 0)
      (f := fun indirect1 ↦
        pure (indirect1.toList.take (min (n - 28) inodeIndirect1Count), indirect1))
      h1 (by omega) size_indirectBlock (does_pure _)
    rw [exact_indirectBlock.write_read, Function.update_eq_self,
      take_toList _ (Nat.min_le_right _ _)] at hbody
    obtain ⟨l, d', hrest, hl, hsize, htype⟩ := does_clearIndirect2 (D := D) (d := d)
      (c := { d with
        size := 0, direct := Vector.ofFn fun i ↦ if i.val < 28 then 0 else d.direct[i], indirect1 := 0 })
      (r := n - 28) rfl (by omega) hroom (by rw [hn]; exact hnodup) (by rw [hn]; exact hfree)
    refine ⟨d', hbody.bind (hrest.bind ?_), hsize, htype⟩
    have hlist : d.direct.toList.take 28 ++ d.indirect1 ::
        (List.range (min (n - 28) 128)).map (entriesOf m d.indirect1) ++ l = d.refs (entriesOf m) n := by
      rw [← refs_of_direct (E := entriesOf m) le_rfl,
        ← refs_of_indirect1 (by omega) (Nat.min_le_right _ _), hl, hn]
    rw [← hlist]
    exact does_pure _
  · have hle : n ≤ 28 := Nat.le_of_not_lt h28
    rw [if_neg h28, Nat.min_eq_left hle, ← refs_of_direct (E := entriesOf m) hle]
    exact ⟨_, does_pure _, rfl, rfl⟩

end DiskInode

end AgentOS.Fs
