import Kumo.Mm.FirstFit
import Kumo.Mm.KheapCapacity

/-!
# Requests that `kmalloc` refuses

`kmalloc` finds no block, adds four pages and calls itself. The new pages are one block
that is never joined to another, so a request for more than four pages that no block can
serve adds pages until the heap is at its limit or the kernel zone has no four adjacent
pages left. Then NULL is returned, and the pages stay in the heap.
-/

namespace Kumo

open Memory LinkedList

namespace Kheap

/-- The heap is below its limit, and the kernel zone has the pages of an expansion. -/
def Expandable (h : Kheap) : Prop :=
  h.heapPages.length + expandPages ≤ maxHeapPages ∧
    ∃ start, h.pmm.Grantable 0 (min Pmm.kernelEndIdx h.pmm.totalPages) expandPages start

/-- What the call has not changed: the free list, the block headers, `heap_page_count` and the
bitmap of the page allocator. -/
structure Unchanged (h h' : Kheap) : Prop where
  freeList : h'.freeList = h.freeList
  headers : ∀ b, blockSize h'.mem b = blockSize h.mem b ∧ blockFree h'.mem b = blockFree h.mem b
  pageCount : h'.heapPages.length = h.heapPages.length
  bitmap : h'.pmm.bitmap = h.pmm.bitmap

theorem Unchanged.refl (h : Kheap) : h.Unchanged h := ⟨rfl, fun _ => ⟨rfl, rfl⟩, rfl, rfl⟩

/-- A `kmalloc` that returns NULL has changed nothing. -/
def FailsCleanly (h : Kheap) (size : Nat) : Prop :=
  ∃ p h', h.kmalloc size = some (p, h') ∧ (p = 0 → h.Unchanged h')

end Kheap

variable {h h' : Kheap} {tiles : Tiles} {fl : List Nat} {size needed fuel : Nat}

/-! ## Expansion -/

/-- `heap_expand` succeeds exactly when the heap is expandable. -/
theorem heapExpand_iff (hpmm : h.pmm.Wf) : h.heapExpand.1 = true ↔ h.Expandable := by
  have hfit := hpmm.contiguous_firstFit (show 0 < expandPages by decide)
  rw [Kheap.Expandable, Kheap.heapExpand]
  by_cases hlimit : maxHeapPages < h.heapPages.length + expandPages
  · rw [if_pos hlimit]
    exact iff_of_false (by simp) fun hroom => by omega
  · rw [if_neg hlimit, and_iff_right (by omega)]
    generalize h.pmm.pmmAllocContiguousPages expandPages = r at hfit
    cases hfit with
    | refused hnone => exact iff_of_false (by simp) fun ⟨start, hstart⟩ => hnone start hstart
    | granted start after hleast _ _ _ =>
        have hbase : managedBase + start * pageSize ≠ 0 := by
          simp only [managedBase]
          omega
        dsimp only
        rw [if_neg hbase]
        exact iff_of_true rfl ⟨start, hleast.1⟩

/-- An expansion that fails changes nothing. -/
theorem heapExpand_refused (hpmm : h.pmm.Wf) (hexp : h.heapExpand.1 = false) :
    h.heapExpand.2 = h := by
  unfold Kheap.heapExpand at hexp ⊢
  split
  · rfl
  · next hroom =>
      rw [if_neg hroom] at hexp
      by_cases hbase : (h.pmm.pmmAllocContiguousPages expandPages).1 = 0
      · have hsame : (h.pmm.pmmAllocContiguousPages expandPages).2 = h.pmm := by
          rcases hpmm.call_cases (.contiguous expandPages) with heq | ⟨start, _, _, hres, _⟩
          · exact congrArg Prod.snd heq
          · have hzero : managedBase + start * pageSize = 0 := hres.symm.trans hbase
            simp only [managedBase] at hzero
            omega
        simp only [hbase, if_true, hsame]
      · simp [hbase] at hexp

/-- A successful expansion adds four pages to the count and one block of that size to the list. -/
theorem Laid.heapExpand_grows (hl : Laid h ⟨tiles, fl, []⟩) (hexp : h.heapExpand.1 = true) :
    ∃ tiles' fl', Laid h.heapExpand.2 ⟨tiles', fl', []⟩ ∧
      h.heapExpand.2.heapPages.length = h.heapPages.length + expandPages ∧
      ∀ b ∈ fl', blockSize h.heapExpand.2.mem b = expandPages * pageSize ∨
        ∃ c ∈ fl, blockSize h.heapExpand.2.mem b = blockSize h.mem c := by
  unfold Kheap.heapExpand at hexp ⊢
  split at hexp
  · cases hexp
  · next hroom =>
      rw [if_neg hroom]
      by_cases hbase : (h.pmm.pmmAllocContiguousPages expandPages).1 = 0
      · simp [hbase] at hexp
      · have hl' := (hl.granted_region (c := 0) hbase).1
        simp only [if_neg hbase]
        refine ⟨_, _, hl', ?_, fun b hb => ?_⟩
        · simp [Kheap.addRegion, Kheap.flInsert, Kheap.pageList]
        · rcases List.mem_cons.mp hb with rfl | hold
          · exact .inl (hl'.size _ _ ((Tiles.add_apply ..).trans (if_pos rfl)))
          · -- the blocks that were listed before keep their sizes
            obtain ⟨n, hn⟩ := hl.listed_tile hold
            have hne : b ≠ (h.pmm.pmmAllocContiguousPages expandPages).1 :=
              fun heq => (List.nodup_cons.mp hl'.nodup).1 (heq ▸ hold)
            refine .inr ⟨b, hold, ?_⟩
            exact (hl'.size b n ((Tiles.add_apply ..).trans ((if_neg hne).trans hn))).trans
              (hl.size b n hn).symm

/-! ## The recursion of a refused request -/

/-- A request for more than four pages that no free block can serve is refused, after as many
expansions as there is memory for. -/
theorem Laid.kmallocLoop_refused (hl : Laid h ⟨tiles, fl, []⟩)
    (hbig : expandPages * pageSize < needed) (hnofit : ∀ b ∈ fl, blockSize h.mem b < needed)
    (hfuel : maxHeapPages < fuel + h.heapPages.length) (hfuel0 : 0 < fuel) :
    ∃ h', Kheap.kmallocLoop needed fuel h = some (0, h') ∧
      h.heapPages.length ≤ h'.heapPages.length ∧
      (h.heapExpand.1 = true → h.heapPages.length < h'.heapPages.length) := by
  induction fuel generalizing h tiles fl with
  | zero => omega
  | succ fuel ih =>
      rw [Kheap.kmallocLoop]
      rcases firstFit_chain needed hl.chain hl.listed_length with
        ⟨hnone, _⟩ | ⟨b, hb, _, hfit⟩
      · rw [hnone]
        have hsame := heapExpand_refused hl.pmm
        have hgrows := hl.heapExpand_grows
        have hlimit := fun hexp => ((heapExpand_iff hl.pmm).mp hexp).1
        cases hexp : h.heapExpand with
        | mk ok h1 =>
            rw [hexp] at hsame hgrows hlimit
            cases ok with
            | false =>
                obtain rfl : h1 = h := hsame rfl
                exact ⟨h1, rfl, Nat.le_refl _, by simp⟩
            | true =>
                obtain ⟨tiles1, fl1, hl1, hlen, hsizes⟩ := hgrows rfl
                have hlen : h1.heapPages.length = h.heapPages.length + expandPages := hlen
                have hlimit : h.heapPages.length + expandPages ≤ maxHeapPages := hlimit rfl
                have hpages : 0 < expandPages := by decide
                have hnofit1 : ∀ b ∈ fl1, blockSize h1.mem b < needed := by
                  intro b hb
                  rcases hsizes b hb with hnew | ⟨c, hc, hold⟩
                  · exact (show blockSize h1.mem b = expandPages * pageSize from hnew) ▸ hbig
                  · exact (show blockSize h1.mem b = blockSize h.mem c from hold) ▸ hnofit c hc
                obtain ⟨h', hrun, hle, _⟩ := ih hl1 hnofit1 (by omega) (by omega)
                exact ⟨h', hrun, by omega, fun _ => by omega⟩
      · have := hnofit b hb
        omega

/-- A `kmalloc` that fails changes nothing exactly when a free block is large enough, or the
request is for at most four pages, or the heap cannot be expanded. -/
theorem kmalloc_fails_cleanly_iff (h : Kheap) (hwf : h.Wf) (size : Nat) :
    h.FailsCleanly size ↔
      (∃ b ∈ h.freeList, Kheap.neededSize size ≤ blockSize h.mem b) ∨
        Kheap.neededSize size ≤ expandPages * pageSize ∨ ¬ h.Expandable := by
  obtain ⟨tiles, fl, hl⟩ := hwf
  have hlist : h.freeList = fl := hl.freeList_eq
  rw [Kheap.FailsCleanly, Kheap.kmalloc, hlist, ← heapExpand_iff hl.pmm]
  generalize Kheap.neededSize size = needed
  rcases firstFit_chain needed hl.chain hl.listed_length with
    ⟨hnone, hsmall⟩ | ⟨b, hb, hsome, hfit⟩
  · have hnofit : ¬ ∃ b ∈ fl, needed ≤ blockSize h.mem b := by
      rintro ⟨b, hb, hle⟩
      have := hsmall b hb
      omega
    rw [or_iff_right hnofit]
    cases hexp : h.heapExpand.1 with
    | false =>
        refine iff_of_true ⟨0, h, ?_, fun _ => .refl h⟩ (.inr (by simp))
        have hsame := heapExpand_refused hl.pmm hexp
        have hpair : h.heapExpand = (false, h) := Prod.ext hexp hsame
        rw [Kheap.kmallocLoop, hnone]
        dsimp only
        rw [hpair]
    | true =>
        by_cases hregion : needed ≤ expandPages * pageSize
        · -- the block that the expansion adds is large enough
          obtain ⟨p, h', hrun, hiff⟩ := hl.kmallocLoop_served hregion
          have hne : p ≠ 0 := hiff.mpr (.inr hexp)
          exact iff_of_true ⟨p, h', hrun, fun hp => absurd hp hne⟩ (.inl hregion)
        · obtain ⟨h', hrun, -, hgrown⟩ := hl.kmallocLoop_refused (by omega) hsmall
            (show maxHeapPages < maxHeapPages + 1 + h.heapPages.length by omega) (by omega)
          have hlen := hgrown hexp
          refine iff_of_false ?_ (by simp [hregion])
          rintro ⟨p, h'', hrun', hclean⟩
          obtain ⟨rfl, rfl⟩ := Prod.mk.inj (Option.some.inj (hrun.symm.trans hrun'))
          have hcount := (hclean rfl).pageCount
          omega
  · rw [Kheap.kmallocLoop, hsome]
    have hne : b + headerSize ≠ 0 := by
      simp only [headerSize]
      omega
    exact iff_of_true ⟨_, _, rfl, fun hp => absurd hp hne⟩ (.inl ⟨b, hb, hfit⟩)

/-- Requests on a heap of sixteen pages. -/
theorem kmalloc_fails_cleanly_iff_sample :
    (Kheap.kheapInit (fun _ => 0) HeapState.samplePmm).FailsCleanly 100 ↔
      (∃ b ∈ (Kheap.kheapInit (fun _ => 0) HeapState.samplePmm).freeList,
        Kheap.neededSize 100 ≤ blockSize (Kheap.kheapInit (fun _ => 0) HeapState.samplePmm).mem b) ∨
      Kheap.neededSize 100 ≤ expandPages * pageSize ∨
      ¬ (Kheap.kheapInit (fun _ => 0) HeapState.samplePmm).Expandable :=
  kmalloc_fails_cleanly_iff _ (kheapInit_wf _ HeapState.samplePmm_wf) 100

/-- A page allocator with 24 free pages of the kernel zone. -/
def roomyPmm : Pmm where
  bitmap := fun n => if n < 3 then 0#8 else 0xFF#8
  totalPages := 24
  freePages := 24

theorem roomyPmm_wf : roomyPmm.Wf := by
  refine ⟨by decide +kernel, fun i hi _ => ?_⟩
  simp only [roomyPmm, managedBase, pageSize] at *
  omega

/-- A request for 100000 bytes is refused, and the last eight pages are gone. -/
theorem kmalloc_fails_with_pages : ¬ ∀ (h : Kheap), h.Wf → ∀ size h', size < 2 ^ 32 →
    h.kmalloc size = some (0, h') → h.Unchanged h' := by
  intro hclaim
  have hvalue : ((Kheap.kheapInit (fun _ => 0) roomyPmm).kmalloc 100000).map
      (fun r => (r.1, r.2.heapPages.length)) = some (0, 24) := by
    decide +kernel
  obtain ⟨⟨p, h'⟩, hrun, heq⟩ := Option.map_eq_some_iff.mp hvalue
  obtain ⟨rfl, hlen⟩ := Prod.mk.inj heq
  have hsame := (hclaim _ (kheapInit_wf _ roomyPmm_wf) 100000 h' (by decide) hrun).pageCount
  have hbefore : (Kheap.kheapInit (fun _ => 0) roomyPmm).heapPages.length = 16 := by
    decide +kernel
  rw [hbefore] at hsame
  exact absurd (hlen.symm.trans hsame) (by decide)

end Kumo
