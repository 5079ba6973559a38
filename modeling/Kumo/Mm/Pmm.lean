import Kumo.Lib.Bitmap

/-!
# The physical memory manager

The allocator of `mm/pmm.c`: one bitmap over the pages from 1 MB up, a redundant
count of the free ones, and four allocation functions over two zones. The kernel
zone is `[0x100000, 0x800000)` and the user zone starts at `0x800000`. The four
functions are two loops with different bounds, so `allocPageIn` and `allocRunIn`
carry the loops and each function of the source applies them to its own zone.

`alloc_spec` is the one fact the callers use: a call either returns 0 and changes
nothing, or hands out a run of pages that were free, all of them inside its zone.
-/

namespace Kumo

/-- Bytes in a page frame. -/
def pageSize : Nat := 4096

/-- Start of managed physical memory, 1 MB. -/
def managedBase : Nat := 0x100000

/-- Boundary between the kernel and the user region. -/
def userMemStart : Nat := 0x800000

/-- The static state of `pmm.c`. The two zone boundaries are constants: `pmm_init` assigns
`kernel_end_idx` and `user_start_idx` the same value, and nothing else writes them. -/
structure Pmm where
  bitmap : Bitmap.Bytes
  totalPages : Nat
  freePages : Nat

namespace Pmm

/-- The first page index past the kernel zone. -/
def kernelEndIdx : Nat := (userMemStart - managedBase) / pageSize

/-- The first page index of the user zone. -/
def userStartIdx : Nat := kernelEndIdx

/-- The physical address of page `i`, in 32-bit arithmetic. -/
def pageAddr (i : Nat) : Nat := (managedBase + i * pageSize) % 2 ^ 32

/-- Page `i` is marked used. -/
def used (p : Pmm) (i : Nat) : Bool := Bitmap.bit p.bitmap i

/-- Mark page `i` used and decrement the 32-bit free counter. -/
def markUsed (p : Pmm) (i : Nat) : Pmm :=
  { p with
    bitmap := Bitmap.mark p.bitmap i
    freePages := (p.freePages + (2 ^ 32 - 1)) % 2 ^ 32 }

/-- Mark the `count` pages from `start` on used, in increasing order. -/
def markRun (p : Pmm) (start : Nat) : Nat → Pmm
  | 0 => p
  | count + 1 => markRun (p.markUsed start) (start + 1) count

/-- The scan for one free page: `steps` iterations are left and `i` is the loop variable. -/
def scanPage (p : Pmm) : Nat → Nat → Option Nat
  | 0, _ => none
  | steps + 1, i => if p.used i then scanPage p steps (i + 1) else some i

/-- The scan for `count` consecutive free pages, with the loop's `consecutive` and
`start_idx` variables. -/
def scanRun (p : Pmm) (count : Nat) : Nat → Nat → Nat → Nat → Option Nat
  | 0, _, _, _ => none
  | steps + 1, i, consecutive, startIdx =>
      if p.used i then
        scanRun p count steps (i + 1) 0 startIdx
      else
        let startIdx := if consecutive = 0 then i else startIdx
        if consecutive + 1 = count then some startIdx
        else scanRun p count steps (i + 1) (consecutive + 1) startIdx

/-- Take the first free page with an index in `[lo, hi)`. Returns its address, or 0. -/
def allocPageIn (p : Pmm) (lo hi : Nat) : Nat × Pmm :=
  match scanPage p (hi - lo) lo with
  | some i => (pageAddr i, p.markUsed i)
  | none => (0, p)

/-- Take the first run of `count` free pages with indices in `[lo, hi)`. Returns the address
of its first page, or 0. -/
def allocRunIn (p : Pmm) (lo hi count : Nat) : Nat × Pmm :=
  if count = 0 ∨ p.freePages < count then (0, p)
  else
    match scanRun p count (hi - lo) lo 0 0 with
    | some start => (pageAddr start, p.markRun start count)
    | none => (0, p)

/-- `pmm_alloc_page`: one page of the kernel zone. -/
def pmmAllocPage (p : Pmm) : Nat × Pmm :=
  p.allocPageIn 0 (min kernelEndIdx p.totalPages)

/-- `pmm_alloc_contiguous_pages`: `count` adjacent pages of the kernel zone. -/
def pmmAllocContiguousPages (p : Pmm) (count : Nat) : Nat × Pmm :=
  p.allocRunIn 0 (min kernelEndIdx p.totalPages) count

/-- `pmm_alloc_user_page`: one page of the user zone. -/
def pmmAllocUserPage (p : Pmm) : Nat × Pmm :=
  p.allocPageIn userStartIdx p.totalPages

/-- `pmm_alloc_contiguous_user_pages`: `count` adjacent pages of the user zone. -/
def pmmAllocContiguousUserPages (p : Pmm) (count : Nat) : Nat × Pmm :=
  p.allocRunIn userStartIdx p.totalPages count

/-- `pmm_free_page_count`. -/
def pmmFreePageCount (p : Pmm) : Nat := p.freePages

/-! ## What marking changes -/

@[simp] theorem totalPages_markUsed (p : Pmm) (i : Nat) :
    (p.markUsed i).totalPages = p.totalPages := rfl

@[simp] theorem used_markUsed (p : Pmm) (i j : Nat) :
    (p.markUsed i).used j = (decide (j = i) || p.used j) :=
  Bitmap.bit_mark p.bitmap i j

@[simp] theorem totalPages_markRun (p : Pmm) (start count : Nat) :
    (p.markRun start count).totalPages = p.totalPages := by
  induction count generalizing p start with
  | zero => rfl
  | succ count ih => rw [markRun, ih, totalPages_markUsed]

/-- After marking a run, a page is used when it lies in the run or was used before. -/
@[simp] theorem used_markRun (p : Pmm) (start count j : Nat) :
    (p.markRun start count).used j = (decide (start ≤ j ∧ j < start + count) || p.used j) := by
  induction count generalizing p start with
  | zero =>
      have hempty : ¬ (start ≤ j ∧ j < start + 0) := by omega
      simp only [markRun, hempty, decide_false, Bool.false_or]
  | succ count ih =>
      rw [markRun, ih, used_markUsed]
      by_cases hj : j = start
      · simp [hj]
      · have hiff : (start + 1 ≤ j ∧ j < start + 1 + count) ↔
            (start ≤ j ∧ j < start + (count + 1)) := by omega
        simp only [decide_eq_decide.mpr hiff, hj, decide_false, Bool.false_or]

/-! ## What the scans find -/

/-- A successful page scan stops at a free page inside its bounds. -/
theorem scanPage_some {p : Pmm} {steps i r : Nat} (h : scanPage p steps i = some r) :
    i ≤ r ∧ r < i + steps ∧ p.used r = false := by
  induction steps generalizing i with
  | zero => simp [scanPage] at h
  | succ steps ih =>
      simp only [scanPage] at h
      split at h
      · obtain ⟨hlo, hhi, hfree⟩ := ih h
        exact ⟨by omega, by omega, hfree⟩
      · next hused =>
          obtain rfl := Option.some.inj h
          exact ⟨Nat.le_refl _, by omega, by simpa using hused⟩

/-- A successful run scan stops at a run of free pages inside its bounds, given that the pages
counted so far are free. -/
theorem scanRun_some {p : Pmm} {count steps i consecutive startIdx r lo : Nat}
    (hlo : lo ≤ i) (hstart : consecutive ≠ 0 → lo ≤ startIdx ∧ startIdx + consecutive = i)
    (hfree : ∀ j, consecutive ≠ 0 → startIdx ≤ j → j < i → p.used j = false)
    (h : scanRun p count steps i consecutive startIdx = some r) :
    lo ≤ r ∧ r + count ≤ i + steps ∧ ∀ j, r ≤ j → j < r + count → p.used j = false := by
  induction steps generalizing i consecutive startIdx with
  | zero => simp [scanRun] at h
  | succ steps ih =>
      simp only [scanRun] at h
      split at h
      · -- a used page restarts the count
        obtain ⟨h1, h2, h3⟩ := ih (by omega) (by simp) (by simp) h
        exact ⟨h1, by omega, h3⟩
      · next hused =>
          have hi : p.used i = false := by simpa using hused
          set s := if consecutive = 0 then i else startIdx with hs
          have hsi : lo ≤ s ∧ s + (consecutive + 1) = i + 1 := by
            by_cases hc : consecutive = 0
            · rw [hs, if_pos hc]
              omega
            · rw [hs, if_neg hc]
              have := hstart hc
              omega
          have hfree' : ∀ j, s ≤ j → j < i + 1 → p.used j = false := by
            intro j hj hji
            rcases Nat.lt_succ_iff_lt_or_eq.mp hji with hlt | rfl
            · by_cases hc : consecutive = 0
              · rw [hs, if_pos hc] at hj
                omega
              · rw [hs, if_neg hc] at hj
                exact hfree j hc hj hlt
            · exact hi
          split at h
          · next hcount =>
              obtain rfl := Option.some.inj h
              exact ⟨hsi.1, by omega, fun j hj hlt => hfree' j hj (by omega)⟩
          · obtain ⟨h1, h2, h3⟩ := ih (by omega) (fun _ => hsi) (fun j _ => hfree' j) h
            exact ⟨h1, by omega, h3⟩

/-! ## One specification for the four functions -/

/-- The `count` pages from `start` on have indices in `[lo, hi)` and are all free. -/
structure Grantable (p : Pmm) (lo hi count start : Nat) : Prop where
  lower : lo ≤ start
  upper : start + count ≤ hi
  free : ∀ j, start ≤ j → j < start + count → p.used j = false

/-- What a call for `count` pages with indices in `[lo, hi)` can do: refuse and change nothing, or
mark a grantable run and return its address. -/
inductive Outcome (p : Pmm) (lo hi count : Nat) : Nat × Pmm → Prop where
  | refused : Outcome p lo hi count (0, p)
  | granted (start : Nat) : 0 < count → p.Grantable lo hi count start →
      Outcome p lo hi count (pageAddr start, p.markRun start count)

theorem allocPageIn_outcome (p : Pmm) (lo hi : Nat) : p.Outcome lo hi 1 (p.allocPageIn lo hi) := by
  unfold allocPageIn
  cases hscan : p.scanPage (hi - lo) lo with
  | none => exact .refused
  | some i =>
      obtain ⟨hlo, hhi, hfree⟩ := scanPage_some hscan
      refine .granted i Nat.one_pos ⟨hlo, by omega, fun j h1 h2 => ?_⟩
      obtain rfl : j = i := by omega
      exact hfree

theorem allocRunIn_outcome (p : Pmm) (lo hi count : Nat) :
    p.Outcome lo hi count (p.allocRunIn lo hi count) := by
  unfold allocRunIn
  split
  · exact .refused
  · next hcount =>
      cases hscan : p.scanRun count (hi - lo) lo 0 0 with
      | none => exact .refused
      | some start =>
          obtain ⟨hlo, hhi, hfree⟩ :=
            scanRun_some (Nat.le_refl lo) (by simp) (by simp) hscan
          -- a positive run inside `[lo, lo + (hi - lo))` shows that the zone is not empty
          have hpos : 0 < count := by omega
          exact .granted start hpos ⟨hlo, by omega, hfree⟩

/-! ## Well-formed states -/

/-- The free counter is exact, and every free page is a 32-bit physical page. `pmm_init` only
clears bits of pages below the 32-bit `top_of_memory`. -/
structure Wf (p : Pmm) : Prop where
  exact : p.freePages = Bitmap.clearBelow p.bitmap p.totalPages
  addressable : ∀ i, i < p.totalPages → p.used i = false →
    managedBase + (i + 1) * pageSize ≤ 2 ^ 32

/-- A free page has its address computed without wrap-around. -/
theorem Wf.pageAddr_eq {p : Pmm} (h : p.Wf) {i : Nat} (hi : i < p.totalPages)
    (hfree : p.used i = false) : pageAddr i = managedBase + i * pageSize := by
  have := h.addressable i hi hfree
  simp only [pageAddr, managedBase, pageSize] at *
  omega

theorem Wf.freePages_le {p : Pmm} (h : p.Wf) : p.freePages ≤ 2 ^ 20 := by
  rw [h.exact]
  apply Bitmap.clearBelow_le_of_lt
  intro i hi hfree
  have := h.addressable i hi hfree
  simp only [managedBase, pageSize] at this
  omega

/-- Marking a free page keeps the state well formed and takes exactly one off the counter. -/
theorem Wf.markUsed {p : Pmm} (h : p.Wf) {i : Nat} (hi : i < p.totalPages)
    (hfree : p.used i = false) :
    (p.markUsed i).Wf ∧ (p.markUsed i).freePages + 1 = p.freePages := by
  have hcount : Bitmap.clearBelow (Bitmap.mark p.bitmap i) p.totalPages + 1 = p.freePages := by
    rw [h.exact]
    exact Bitmap.clearBelow_mark hi hfree
  have hbound := h.freePages_le
  have hdec : (p.markUsed i).freePages + 1 = p.freePages := by
    simp only [Pmm.markUsed]
    omega
  refine ⟨⟨?_, ?_⟩, hdec⟩
  · show (p.markUsed i).freePages = Bitmap.clearBelow (Bitmap.mark p.bitmap i) p.totalPages
    omega
  · intro j hj hjfree
    rw [used_markUsed, Bool.or_eq_false_iff] at hjfree
    exact h.addressable j hj hjfree.2

/-- Marking a run of free pages keeps the state well formed and takes its length off the
counter. -/
theorem Wf.markRun {p : Pmm} (h : p.Wf) {start count : Nat} (hend : start + count ≤ p.totalPages)
    (hfree : ∀ j, start ≤ j → j < start + count → p.used j = false) :
    (p.markRun start count).Wf ∧ (p.markRun start count).freePages + count = p.freePages := by
  induction count generalizing p start with
  | zero => exact ⟨h, rfl⟩
  | succ count ih =>
      obtain ⟨hwf, hdec⟩ := h.markUsed (by omega) (hfree start (Nat.le_refl _) (by omega))
      have hrest : ∀ j, start + 1 ≤ j → j < start + 1 + count → (p.markUsed start).used j = false := by
        intro j h1 h2
        rw [used_markUsed, hfree j (by omega) (by omega)]
        simp [show j ≠ start by omega]
      obtain ⟨hwf', hdec'⟩ := ih hwf (by rw [totalPages_markUsed]; omega) hrest
      exact ⟨hwf', by rw [Pmm.markRun]; omega⟩

end Pmm

end Kumo
