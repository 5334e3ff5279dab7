import AgentOS.Mm.BufferWalk

/-!
# Where a buffer is cut

The slices of a user's buffer end where its pages end, and nowhere else. For what treats every slice on its own
this is all that shows of them.
-/

namespace AgentOS

/-- The number of bytes in some slices. -/
def lengthOf (cs : List Chunk) : ℕ := (cs.map Chunk.length).sum

@[simp] theorem lengthOf_nil : lengthOf [] = 0 := rfl

@[simp] theorem lengthOf_cons (c : Chunk) (cs : List Chunk) : lengthOf (c :: cs) = c.length + lengthOf cs :=
  List.sum_cons

namespace PageTable

/-- The end of the range is where the loop sees it. -/
theorem le_toUsize_end {ptr len : ℕ} (hcan : Canonical ptr len) :
    ptr + len ≤ VirtAddr.toUsize (VirtAddr.ofUsize (ptr + len)) := by
  rcases hcan with hlow | ⟨hge, hlt⟩
  · rw [VirtAddr.ofUsize_of_lt (by omega)]
    exact VirtAddr.le_toUsize _
  · have hof : VirtAddr.ofUsize (ptr + len) = ptr + len - (2 ^ 64 - 2 ^ 39) := by
      rw [VirtAddr.ofUsize]
      omega
    rw [hof, VirtAddr.toUsize_of_ge (by omega) (by omega)]
    omega

/-- A slice lies in a page, and all but the last go up to its end. -/
theorem hi_of_chunksFrom {pt : PageTable} {turns start «end» : ℕ} {cs : List Chunk}
    (hend : «end» ≤ VirtAddr.toUsize (VirtAddr.ofUsize «end»))
    (h : pt.chunksFrom «end» turns start = some cs) :
    (∀ c ∈ cs, c.hi ≤ pageSize) ∧ ∀ c ∈ cs.dropLast, c.hi = pageSize := by
  induction turns generalizing start cs with
  | zero => simp [chunksFrom] at h
  | succ turns ih =>
    rw [chunksFrom] at h
    by_cases hlt : start < «end»
    · rw [if_pos hlt] at h
      obtain ⟨pte, -, h⟩ := Option.bind_eq_some_iff.mp h
      dsimp only at h
      generalize hendVa : min _ (VirtAddr.ofUsize «end») = endVa at h
      generalize hhi : (if VirtAddr.pageOffset endVa = 0 then pageSize else _) = hi at h
      have hle : hi ≤ pageSize := by
        rw [← hhi]
        split
        · exact le_rfl
        · exact (Nat.mod_lt _ (by decide)).le
      obtain ⟨-, h⟩ := Option.ite_none_right_eq_some.mp h
      obtain ⟨rest, hrest, h⟩ := Option.bind_eq_some_iff.mp h
      obtain rfl := Option.some.inj h
      obtain ⟨hle', hlast⟩ := ih hrest
      refine ⟨List.forall_mem_cons.mpr ⟨hle, hle'⟩, fun c hc ↦ ?_⟩
      cases rest with
      | nil => simp at hc
      | cons c' rest =>
        rcases List.mem_cons.mp hc with rfl | hc
        · -- there is a next turn, so that this one has not seen the end of the range
          by_cases hpage : endVa = VirtAddr.ofUsize «end»
          · cases turns with
            | zero => simp [chunksFrom] at hrest
            | succ turns =>
              rw [chunksFrom, if_neg (by rw [hpage]; omega)] at hrest
              simp at hrest
          · have hboundary : VirtAddr.pageOffset endVa = 0 := by
              rcases min_choice (VirtPageNum.toVirtAddr (VirtAddr.floor (VirtAddr.ofUsize start) + 1))
                (VirtAddr.ofUsize «end») with hmin | hmin
              · rw [← hendVa, hmin, VirtAddr.pageOffset, VirtPageNum.toVirtAddr, Nat.mul_mod_left]
              · exact absurd (hendVa.symm.trans hmin) hpage
            rw [← hhi, if_pos hboundary]
        · exact hlast c hc
    · rw [if_neg hlt] at h
      obtain rfl := Option.some.inj h
      simp

/-- **A buffer is cut where its pages end.** -/
theorem cuts_iff {pt : PageTable} {cs : List Chunk} {start len k : ℕ} (hplaces : placesOf cs = pt.userPlaces start len)
    (hpos : ∀ c ∈ cs, 0 < c.length) (hle : ∀ c ∈ cs, c.hi ≤ pageSize)
    (hlast : ∀ c ∈ cs.dropLast, c.hi = pageSize) (hk : 0 < k) (hlt : k < len) :
    (start + k) % pageSize = 0 ↔ ∃ i ≤ cs.length, lengthOf (cs.take i) = k := by
  induction cs generalizing start len k with
  | nil =>
    have hlen := congrArg List.length hplaces
    rw [length_userPlaces] at hlen
    have hzero : len = 0 := hlen.symm
    omega
  | cons c cs ih =>
    have hlen := congrArg List.length hplaces
    rw [length_placesOf, length_userPlaces, ← lengthOf, lengthOf_cons] at hlen
    have hsplit : pt.userPlaces start len =
        pt.userPlaces start c.length ++ pt.userPlaces (start + c.length) (lengthOf cs) := by
      rw [userPlaces, userPlaces, userPlaces, ← List.map_append, List.range'_append_1, hlen]
    rw [placesOf_cons, hsplit] at hplaces
    obtain ⟨hfirst, hrest⟩ := List.append_inj hplaces (by rw [Chunk.length_places, length_userPlaces])
    have hc := hpos c List.mem_cons_self
    have hhi := hle c List.mem_cons_self
    have hlength : c.length = c.hi - c.lo := rfl
    have hoffset : ∀ j < c.length, (start + j) % pageSize = c.lo + j := by
      intro j hj
      have hget := congrArg (fun l ↦ l[j]?.map Prod.snd) hfirst
      simpa [Chunk.places, userPlaces, place, List.getElem?_range', hj] using hget.symm
    rcases lt_trichotomy k c.length with hkc | rfl | hkc
    · rw [hoffset k hkc]
      refine iff_of_false (by omega) ?_
      rintro ⟨i, -, hi⟩
      cases i with
      | zero => exact absurd hi hk.ne
      | succ i =>
        rw [List.take_succ_cons, lengthOf_cons] at hi
        omega
    · have hend : c.hi = pageSize := by
        cases cs with
        | nil =>
          rw [lengthOf_nil] at hlen
          omega
        | cons c' cs => exact hlast c List.mem_cons_self
      have hbefore := hoffset (c.length - 1) (by omega)
      refine iff_of_true ?_ ⟨1, by simp, by simp⟩
      simp only [pageSize] at *
      omega
    · have hnext := ih hrest (fun c' hc' ↦ hpos c' (List.mem_cons_of_mem _ hc'))
        (fun c' hc' ↦ hle c' (List.mem_cons_of_mem _ hc'))
        (fun c' hc' ↦ hlast c' (by
          cases cs with
          | nil => simp at hc'
          | cons d cs => exact List.mem_cons_of_mem _ hc'))
        (k := k - c.length) (by omega) (by omega)
      have hsum : start + c.length + (k - c.length) = start + k := by omega
      rw [hsum] at hnext
      rw [hnext]
      constructor
      · rintro ⟨i, hi, hlengths⟩
        exact ⟨i + 1, by simpa using hi, by rw [List.take_succ_cons, lengthOf_cons]; omega⟩
      · rintro ⟨i, hi, hlengths⟩
        cases i with
        | zero => exact absurd hlengths hk.ne
        | succ i =>
          rw [List.take_succ_cons, lengthOf_cons] at hlengths
          exact ⟨i, by simpa using hi, by omega⟩

theorem cuts_translatedByteBuffer {pt : PageTable} {cs : List Chunk} {ptr len k : ℕ} (hcan : Canonical ptr len)
    (h : pt.translatedByteBuffer ptr len = some cs) (hk : 0 < k) (hlt : k < len) :
    (ptr + k) % pageSize = 0 ↔ ∃ i ≤ cs.length, lengthOf (cs.take i) = k := by
  have hslices := pt.slices_translatedByteBuffer hcan
  rw [h] at hslices
  have hend : (ptr + len) % 2 ^ 64 = ptr + len := by
    rcases hcan with hlow | ⟨-, hhigh⟩
    · exact Nat.mod_eq_of_lt (by omega)
    · exact Nat.mod_eq_of_lt hhigh
  rw [translatedByteBuffer, hend] at h
  obtain ⟨hle, hlast⟩ := hi_of_chunksFrom (le_toUsize_end hcan) h
  exact cuts_iff hslices.1 (fun c hc ↦ (hslices.2 c hc).1) hle hlast hk hlt

end PageTable

end AgentOS
