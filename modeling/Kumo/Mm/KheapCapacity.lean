import Kumo.Mm.KheapRuns

/-!
# The capacity of a block

`kmalloc` rounds a request up to 8 and adds the header in 32-bit arithmetic. From
`2 ^ 32 - 15` on the sum wraps, and the request is served like one of no bytes: with the
smallest block there is. A system call passes the size of a user program straight to it.
-/

namespace Kumo

open Memory LinkedList

namespace Kheap

/-- The heap is in order: headers and links describe a layout. -/
def Wf (h : Kheap) : Prop := ∃ tiles fl, Laid h ⟨tiles, fl, []⟩

/-- There is no free block, and no memory for more. -/
def Exhausted (h : Kheap) : Prop := h.freeHead = 0 ∧ h.heapExpand.1 = false

/-- A free block is large enough for a request, or the heap can be expanded. -/
def Serves (h : Kheap) (needed : Nat) : Prop :=
  (∃ b ∈ h.freeList, needed ≤ blockSize h.mem b) ∨ h.heapExpand.1 = true

/-- The block behind a pointer has room for `size` bytes after its header. -/
def Fits (h : Kheap) (size p : Nat) : Prop :=
  size + headerSize ≤ blockSize h.mem (p - headerSize)

end Kheap

variable {h h' : Kheap} {L : Layout} {tiles : Tiles} {fl : List Nat} {size p fuel : Nat}

/-- Runs of the heap stay in order. -/
theorem HeapState.Inv.wf {s : HeapState} (hs : s.Inv) : s.heap.Wf := by
  obtain ⟨⟨tiles, fl, T⟩, hL⟩ := hs
  obtain rfl : T = [] := hL.settled
  exact ⟨tiles, fl, hL.laid⟩

theorem kheapInit_wf (mem : Memory) {pmm : Pmm} (hpmm : pmm.Wf) : (Kheap.kheapInit mem pmm).Wf := by
  obtain ⟨tiles, fl, hl, _⟩ := laid_kheapInit mem hpmm
  exact ⟨tiles, fl, hl⟩

/-- A request that wraps needs the smallest block. -/
theorem neededSize_wrapped (hwrap : 2 ^ 32 ≤ size + 15) (h32 : size < 2 ^ 32) :
    Kheap.neededSize size = 16 := by
  have hneeded : ((size + 7) % 2 ^ 32 / 8 * 8 + headerSize) % 2 ^ 32 < minBlockSize := by
    simp only [headerSize, minBlockSize]
    omega
  exact if_pos hneeded

/-- The block that `kmalloc` returns is a block of the layout, large enough for a request that does
not wrap. -/
theorem Allocated.fits (hl : Laid h' L) {L0 : Layout} (ha : Allocated h L0 size p h' L)
    (hp : p ≠ 0) : h'.Fits size p ∧ blockSize h'.mem (p - headerSize) ≤ userMemStart := by
  cases ha with
  | refused => exact absurd rfl hp
  | granted b n _ _ _ hbusy _ hn =>
      have hsize := hl.size b n hbusy.1
      have hbound := (hl.bounds hbusy.1).2
      rw [Kheap.Fits, Nat.add_sub_cancel, hsize]
      simp only [headerSize]
      omega

/-- A request that the first free block is large enough for takes that block. -/
theorem kmallocLoop_first {needed : Nat} (hhead : h.freeHead ≠ 0)
    (hfit : needed ≤ blockSize h.mem h.freeHead) (fuel : Nat) :
    Kheap.kmallocLoop needed (fuel + 1) h =
      some (h.freeHead + headerSize, h.takeBlock h.freeHead needed) := by
  have hfirst : Kheap.firstFit h.mem needed walkFuel h.freeHead = some (some h.freeHead) := by
    rw [show walkFuel = (walkFuel - 1) + 1 from rfl, Kheap.firstFit, if_neg hhead, if_pos hfit]
  rw [Kheap.kmallocLoop, hfirst]

/-- A successful expansion leaves a free block of four pages at the head of the list. -/
theorem Laid.heapExpand_head (hl : Laid h ⟨tiles, fl, []⟩) (hexp : h.heapExpand.1 = true) :
    h.heapExpand.2.freeHead ≠ 0 ∧
      blockSize h.heapExpand.2.mem h.heapExpand.2.freeHead = expandPages * pageSize := by
  unfold Kheap.heapExpand at hexp ⊢
  split at hexp
  · cases hexp
  · next hroom =>
      rw [if_neg hroom]
      by_cases hbase : (h.pmm.pmmAllocContiguousPages expandPages).1 = 0
      · simp [hbase] at hexp
      · have hl' := (hl.granted_region (c := 0) hbase).1
        simp only [if_neg hbase]
        refine ⟨hbase, hl'.size _ _ ?_⟩
        exact (Tiles.add_apply ..).trans (if_pos rfl)

/-- A request of up to four pages is served when a free block is large enough, or the heap can be
expanded, and is refused otherwise. -/
theorem Laid.kmallocLoop_served {needed : Nat} (hl : Laid h ⟨tiles, fl, []⟩)
    (hregion : needed ≤ expandPages * pageSize) :
    ∃ p h', Kheap.kmallocLoop needed (maxHeapPages + 1) h = some (p, h') ∧
      (p ≠ 0 ↔ h.Serves needed) := by
  have hlist : h.freeList = fl := hl.freeList_eq
  have hserves : h.Serves needed ↔
      (∃ b ∈ fl, needed ≤ blockSize h.mem b) ∨ h.heapExpand.1 = true := by
    rw [Kheap.Serves, hlist]
  rw [Kheap.kmallocLoop]
  rcases firstFit_chain needed hl.chain hl.listed_length with
    ⟨hnone, hsmall⟩ | ⟨b, hb, hsome, hfit⟩
  · rw [hnone]
    have hnofit : ¬ ∃ b ∈ fl, needed ≤ blockSize h.mem b := by
      rintro ⟨b, hb, hle⟩
      have := hsmall b hb
      omega
    obtain ⟨tiles1, fl1, hl1, -⟩ := hl.heapExpand
    have hnew := hl.heapExpand_head
    cases hexp : h.heapExpand with
    | mk ok h1 =>
        rw [hexp] at hl1 hnew hserves
        cases ok with
        | false => exact ⟨0, h1, rfl, iff_of_false (by simp) (by simp [hserves, hnofit])⟩
        | true =>
            obtain ⟨hhead, hsize⟩ := hnew rfl
            refine ⟨_, _, kmallocLoop_first hhead (hsize ▸ hregion) (maxHeapPages - 1), ?_⟩
            exact iff_of_true (by simp [headerSize]) (hserves.mpr (.inr rfl))
  · rw [hsome]
    exact ⟨_, _, rfl, iff_of_true (by simp [headerSize]) (hserves.mpr (.inl ⟨b, hb, hfit⟩))⟩

/-- `kmalloc` of up to four pages returns a block just if the heap serves the request. -/
theorem Kheap.Wf.kmalloc_served (hwf : h.Wf)
    (hregion : Kheap.neededSize size ≤ expandPages * pageSize) :
    ∃ p h', h.kmalloc size = some (p, h') ∧ (p ≠ 0 ↔ h.Serves (Kheap.neededSize size)) := by
  obtain ⟨tiles, fl, hl⟩ := hwf
  exact hl.kmallocLoop_served hregion

/-- What the heap serves does not depend on memory outside it. -/
theorem Kheap.Wf.serves_of_same {m : Memory} {needed : Nat} (hwf : h.Wf)
    (hsame : ∀ x, h.InHeap x → m x = h.mem x) :
    Kheap.Serves { h with mem := m } needed ↔ h.Serves needed := by
  obtain ⟨tiles, fl, hl⟩ := hwf
  have hl' := hl.of_same hsame
  have hexp : (Kheap.heapExpand { h with mem := m }).1 = h.heapExpand.1 := by
    unfold Kheap.heapExpand
    split
    · rfl
    · dsimp only
      split <;> rfl
  have hsize : ∀ b ∈ fl, blockSize m b = blockSize h.mem b := by
    intro b hb
    obtain ⟨n, hn⟩ := hl.listed_tile hb
    exact (hl'.size b n hn).trans (hl.size b n hn).symm
  rw [Kheap.Serves, Kheap.Serves, hexp, hl.freeList_eq, hl'.freeList_eq]
  refine or_congr (exists_congr fun b => and_congr_right fun hb => ?_) Iff.rfl
  show needed ≤ blockSize m b ↔ needed ≤ blockSize h.mem b
  rw [hsize b hb]

/-- A heap without free blocks serves a request when it can be expanded. A heap with free blocks
serves one for the smallest block. -/
theorem Laid.serves_min (hl : Laid h ⟨tiles, fl, []⟩) : h.Serves 16 ↔ ¬ h.Exhausted := by
  have hlist : h.freeList = fl := hl.freeList_eq
  have hchain := hl.chain
  rw [Kheap.Serves, Kheap.Exhausted, hlist]
  cases fl with
  | nil =>
      have hhead : h.freeHead = 0 := hchain
      simp [hhead]
  | cons b rest =>
      obtain ⟨rfl, hhead, _⟩ := hchain
      obtain ⟨n, hn⟩ := hl.listed_tile (List.mem_cons_self ..)
      have hfit : 16 ≤ blockSize h.mem h.freeHead := by
        rw [hl.size _ n hn]
        exact (hl.shape _ n hn).2.2
      exact iff_of_true (.inl ⟨_, List.mem_cons_self .., hfit⟩) fun hex => hhead hex.1

/-- A request for the smallest block is refused just when the heap is exhausted. -/
theorem kmalloc_min_ne_zero (hwf : h.Wf) :
    ∃ p h', h.kmalloc 0 = some (p, h') ∧ (p = 0 ↔ h.Exhausted) := by
  obtain ⟨tiles, fl, hl⟩ := hwf
  obtain ⟨p, h', hrun, hiff⟩ := hl.kmallocLoop_served (show 16 ≤ expandPages * pageSize by decide)
  refine ⟨p, h', hrun, ?_⟩
  rw [hl.serves_min] at hiff
  tauto

/-- A block that `kmalloc` returns has room for the request just if the request does not wrap: or
the heap is exhausted, and no block is returned. -/
theorem kmalloc_capacity_iff (h : Kheap) (hwf : h.Wf) (size : Nat) (h32 : size < 2 ^ 32) :
    (∃ p h', h.kmalloc size = some (p, h') ∧ (p ≠ 0 → h'.Fits size p)) ↔
      size + 15 < 2 ^ 32 ∨ h.Exhausted := by
  have hlaid := hwf
  obtain ⟨tiles, fl, hl⟩ := hlaid
  by_cases hwrap : size + 15 < 2 ^ 32
  · obtain ⟨p, h', tiles', fl', hrun, hl', ha⟩ := hl.kmalloc hwrap
    exact iff_of_true ⟨p, h', hrun, fun hp => (ha.fits hl' hp).1⟩ (.inl hwrap)
  · -- the request is served like one of no bytes
    have hsame : h.kmalloc size = h.kmalloc 0 := by
      rw [Kheap.kmalloc, Kheap.kmalloc, neededSize_wrapped (by omega) h32]
      rfl
    obtain ⟨p, h', tiles', fl', hrun, hl', ha⟩ := hl.kmalloc (show 0 + 15 < 2 ^ 32 by decide)
    obtain ⟨q, g, hrun0, hzero⟩ := kmalloc_min_ne_zero hwf
    obtain ⟨rfl, rfl⟩ := Prod.mk.inj (Option.some.inj (hrun0.symm.trans hrun))
    rw [hsame]
    constructor
    · rintro ⟨p, h', hrun', hfit⟩
      obtain ⟨rfl, rfl⟩ := Prod.mk.inj (Option.some.inj (hrun'.symm.trans hrun))
      refine .inr (hzero.mp ?_)
      by_contra hp
      have hbig := hfit hp
      have hsmall := (ha.fits hl' hp).2
      simp only [Kheap.Fits, headerSize, userMemStart] at hbig hsmall
      omega
    · rintro (hno | hex)
      · exact absurd hno hwrap
      · exact ⟨_, _, hrun, fun hp => absurd (hzero.mpr hex) hp⟩

/-- The capacity of a block for 100 bytes. -/
theorem kmalloc_capacity_iff_sample :
    (∃ p h', (Kheap.kheapInit (fun _ => 0) HeapState.samplePmm).kmalloc 100 = some (p, h') ∧
      (p ≠ 0 → h'.Fits 100 p)) ↔
      100 + 15 < 2 ^ 32 ∨ (Kheap.kheapInit (fun _ => 0) HeapState.samplePmm).Exhausted :=
  kmalloc_capacity_iff _ (kheapInit_wf _ HeapState.samplePmm_wf) 100 (by decide)

/-- A request for `2 ^ 32 - 1` bytes gets a block of sixteen. -/
theorem kmalloc_too_small : ¬ ∀ (h : Kheap), h.Wf → ∀ size p h', size < 2 ^ 32 →
    h.kmalloc size = some (p, h') → p ≠ 0 → h'.Fits size p := by
  intro hclaim
  have hvalue : ((Kheap.kheapInit (fun _ => 0) HeapState.samplePmm).kmalloc (2 ^ 32 - 1)).map
      (fun r => (r.1, blockSize r.2.mem (r.1 - headerSize))) = some (0x100008, 16) := by
    decide +kernel
  obtain ⟨⟨p, h'⟩, hrun, heq⟩ := Option.map_eq_some_iff.mp hvalue
  obtain ⟨rfl, hsize⟩ := Prod.mk.inj heq
  have hfit := hclaim _ (kheapInit_wf _ HeapState.samplePmm_wf) (2 ^ 32 - 1) _ h' (by decide) hrun
    (by decide)
  rw [Kheap.Fits, hsize] at hfit
  exact absurd hfit (by decide)

end Kumo
