import Mathlib.Data.Finset.Card
import Kumo.Mm.MemoryMap
import Kumo.Mm.Pmm

/-!
# Initialisation of the page allocator

`pmm_init` of `mm/pmm.c` marks every page used and then walks over the usable regions
in steps of a page from their first byte, freeing the page that holds each address.
`pmm_init_iff` says for which memory maps the result is exact: the region walks have to
come to every page that lies in the regions once, and to no other page.
-/

namespace Kumo

open Multiboot

namespace Pmm

/-- The addresses with one offset in a page, and one more. A walk in steps of a page that is longer
has come back to an address. -/
def pageFuel : Nat := 2 ^ 20 + 1

/-- Mark page `i` free and increment the 32-bit free counter. -/
def freePage (p : Pmm) (i : Nat) : Pmm :=
  { p with
    bitmap := Bitmap.unmark p.bitmap i
    freePages := (p.freePages + 1) % 2 ^ 32 }

/-- The loop over the addresses of a region, `none` when it never ends. -/
def freeLoop (firstFree stop : Nat) : Nat → Nat → Pmm → Option Pmm
  | 0, _, _ => none
  | fuel + 1, addr, p =>
      if addr < stop then
        freeLoop firstFree stop fuel ((addr + pageSize) % 2 ^ 32)
          (if addr < firstFree then p
            else p.freePage ((addr + (2 ^ 32 - managedBase)) % 2 ^ 32 / pageSize))
      else some p

/-- One round of the loop over the regions. -/
def freeRegion (top firstFree : Nat) (p : Pmm) (r : Region) : Option Pmm :=
  let base := if r.base < managedBase then managedBase else r.base
  let stop := if top < r.stop then top else r.stop
  freeLoop firstFree stop pageFuel base p

/-- `total_pages` for a top of memory. -/
def pagesBelow (top : Nat) : Nat := (top + (2 ^ 32 - managedBase)) % 2 ^ 32 / pageSize

/-- `bitmap_bytes`. -/
def bitmapBytes (totalPages : Nat) : Nat := (totalPages + 7) / 8

/-- `first_free`: the bitmap lies in the pages after the kernel. -/
def firstFree (totalPages kernelEnd : Nat) : Nat :=
  let bitmapPages := (bitmapBytes totalPages + pageSize - 1) / pageSize
  let bitmapAddr := (kernelEnd + pageSize - 1) % 2 ^ 32 / pageSize * pageSize
  (bitmapAddr + bitmapPages * pageSize) % 2 ^ 32

/-- `pmm_init`, with the address of `_kernel_end` and the bytes of memory from the bitmap on. -/
def pmmInit (map : MemoryMap) (kernelEnd : Nat) (memory : Bitmap.Bytes) : Option Pmm :=
  let totalPages := pagesBelow map.topOfMemory
  let filled : Bitmap.Bytes := fun n => if n < bitmapBytes totalPages then 0xFF#8 else memory n
  map.regions.foldlM (freeRegion map.topOfMemory (firstFree totalPages kernelEnd))
    ⟨filled, totalPages, 0⟩

/-! ## What the initial state should be -/

/-- The address of page `x`. -/
def pageStart (x : Nat) : Nat := managedBase + x * pageSize

/-- The whole page `x` lies in the union of the regions. -/
def Whole (regions : List Region) (x : Nat) : Prop :=
  ∀ a, pageStart x ≤ a → a < pageStart x + pageSize →
    ∃ r ∈ regions, r.base ≤ a ∧ a < r.base + r.length

/-- The initial state is exact: a page below `total_pages` is free exactly if it lies in the
regions and not below `first_free`, the rest of the last byte of the bitmap is marked used, the
memory after the bitmap is as it was, and the counter is the number of free pages. -/
structure InitExact (map : MemoryMap) (kernelEnd : Nat) (memory : Bitmap.Bytes) (p : Pmm) :
    Prop where
  totalPages : p.totalPages = pagesBelow map.topOfMemory
  free : ∀ x, x < p.totalPages → (p.used x = false ↔
    firstFree p.totalPages kernelEnd ≤ pageStart x ∧ Whole map.regions x)
  padding : ∀ x, p.totalPages ≤ x → x < 8 * bitmapBytes p.totalPages → p.used x = true
  outside : ∀ x, 8 * bitmapBytes p.totalPages ≤ x → p.used x = Bitmap.bit memory x
  counted : p.freePages = Bitmap.clearBelow p.bitmap p.totalPages

/-- `pmm_init` returns, and the state is exact. -/
def InitsExactly (map : MemoryMap) (kernelEnd : Nat) (memory : Bitmap.Bytes) : Prop :=
  ∃ p, pmmInit map kernelEnd memory = some p ∧ InitExact map kernelEnd memory p

/-! ## The walk over a region -/

/-- The start of a region in the managed memory. -/
def start (r : Region) : Nat := max r.base managedBase

/-- The address at which the walk over the region comes to page `x`. -/
def visit (r : Region) (x : Nat) : Nat := pageStart x + start r % pageSize

/-- The walk over the region comes to page `x`. -/
def Covers (r : Region) (x : Nat) : Prop := start r ≤ visit r x ∧ visit r x < r.stop

instance (r : Region) (x : Nat) : Decidable (Covers r x) := inferInstanceAs (Decidable (_ ∧ _))

/-- The walk comes back to the addresses it has met, and never ends. -/
def Endless (r : Region) : Prop := start r < r.stop ∧ 2 ^ 32 - pageSize + start r % pageSize < r.stop

/-- The pages that the walk over a region frees, in order. -/
def visits (firstFree : Nat) (r : Region) : List Nat :=
  let first := (start r - managedBase) / pageSize
  let past := (r.stop + (pageSize - 1) - (managedBase + start r % pageSize)) / pageSize
  (List.range' first (past - first)).filter fun x => firstFree ≤ pageStart x

variable {r : Region} {ff top x : Nat}

theorem mem_visits : x ∈ visits ff r ↔ ff ≤ pageStart x ∧ Covers r x := by
  have hstart : managedBase ≤ start r := Nat.le_max_right _ _
  rw [visits, List.mem_filter, List.mem_range'_1, decide_eq_true_iff, and_comm]
  refine and_congr_right fun _ => ?_
  simp only [Covers, visit, pageStart]
  generalize start r = b at *
  simp only [pageSize, managedBase] at *
  omega

theorem nodup_visits (ff : Nat) (r : Region) : (visits ff r).Nodup :=
  (List.nodup_range' ..).filter _

/-- The walk from the address in page `x` on. -/
theorem freeLoop_eq {c fuel past : Nat} {p : Pmm} (hff : ff % pageSize = 0) (hc : c < pageSize)
    (hstop : r.stop ≤ 2 ^ 32 - pageSize + c)
    (hpast : past = (r.stop + (pageSize - 1) - (managedBase + c)) / pageSize)
    (hfuel : past - x < fuel) :
    freeLoop ff r.stop fuel (pageStart x + c) p = some
      (((List.range' x (past - x)).filter fun x => ff ≤ pageStart x).foldl freePage p) := by
  induction fuel generalizing x p with
  | zero => omega
  | succ fuel ih =>
      have hlt : pageStart x + c < r.stop ↔ x < past := by
        simp only [pageStart, pageSize, managedBase] at *
        omega
      rw [freeLoop]
      by_cases hx : x < past
      · rw [if_pos (hlt.mpr hx)]
        have hadd : pageStart x + c < r.stop := hlt.mpr hx
        have hnext : (pageStart x + c + pageSize) % 2 ^ 32 = pageStart (x + 1) + c := by
          simp only [pageStart, pageSize, managedBase] at *
          omega
        have hindex : (pageStart x + c + (2 ^ 32 - managedBase)) % 2 ^ 32 / pageSize = x := by
          simp only [pageStart, pageSize, managedBase] at *
          omega
        have hbelow : pageStart x + c < ff ↔ ¬ ff ≤ pageStart x := by
          simp only [pageStart, pageSize, managedBase] at *
          omega
        obtain ⟨k, hk⟩ : ∃ k, past - x = k + 1 := ⟨past - x - 1, by omega⟩
        have hk' : past - (x + 1) = k := by omega
        rw [hnext, hindex, ih (by omega), hk, hk', List.range'_succ]
        by_cases hfree : ff ≤ pageStart x
        · rw [if_neg fun h => hbelow.mp h hfree, List.filter_cons_of_pos (by simpa using hfree),
            List.foldl_cons]
        · rw [if_pos (hbelow.mpr hfree), List.filter_cons_of_neg (by simpa using hfree)]
      · rw [if_neg fun h => hx (hlt.mp h), show past - x = 0 by omega]
        rfl

/-- The walk that never ends. -/
theorem freeLoop_endless {fuel addr : Nat} {p : Pmm}
    (hstop : 2 ^ 32 - pageSize + addr % pageSize < r.stop) (haddr : addr < 2 ^ 32) :
    freeLoop ff r.stop fuel addr p = none := by
  induction fuel generalizing addr p with
  | zero => rfl
  | succ fuel ih =>
      have hlt : addr < r.stop := by
        simp only [pageSize] at *
        omega
      rw [freeLoop, if_pos hlt]
      refine ih ?_ (Nat.mod_lt _ (Nat.two_pow_pos 32))
      simp only [pageSize] at *
      omega

/-- What one round of the loop over the regions does. -/
theorem freeRegion_eq {p : Pmm} (hff : ff % pageSize = 0) (hbase : r.base < 2 ^ 32)
    (htop : r.stop ≤ top) :
    (Endless r → freeRegion top ff p r = none) ∧
      (¬ Endless r → freeRegion top ff p r = some ((visits ff r).foldl freePage p)) := by
  have hmin : (if top < r.stop then top else r.stop) = r.stop := if_neg (by omega)
  have hmax : (if r.base < managedBase then managedBase else r.base) = start r := by
    simp only [start]
    split <;> omega
  have hlow : managedBase ≤ start r := Nat.le_max_right _ _
  have hhigh : start r < 2 ^ 32 := by
    simp only [start, managedBase]
    omega
  rw [freeRegion, hmin, hmax]
  constructor
  · exact fun h => freeLoop_endless h.2 hhigh
  · intro h
    have hstop32 : r.stop < 2 ^ 32 := Nat.mod_lt _ (Nat.two_pow_pos 32)
    have hc : start r % pageSize < pageSize := Nat.mod_lt _ (by decide)
    have hstop : r.stop ≤ 2 ^ 32 - pageSize + start r % pageSize := by
      by_contra hgt
      refine h ⟨?_, by omega⟩
      simp only [pageSize] at *
      omega
    have haddr : pageStart ((start r - managedBase) / pageSize) + start r % pageSize = start r := by
      simp only [pageStart, pageSize, managedBase] at *
      omega
    have hfuel : (r.stop + (pageSize - 1) - (managedBase + start r % pageSize)) / pageSize -
        (start r - managedBase) / pageSize < pageFuel := by
      simp only [pageFuel, pageSize, managedBase] at *
      omega
    have hrun := freeLoop_eq (p := p) hff hc hstop rfl hfuel
    rw [haddr] at hrun
    exact hrun

/-! ## The loop over the regions -/

/-- All pages that the walks free. -/
def allVisits (firstFree : Nat) (regions : List Region) : List Nat :=
  regions.flatMap (visits firstFree)

theorem foldlM_freeRegion {regions : List Region} {p : Pmm} (hff : ff % pageSize = 0)
    (hbase : ∀ r ∈ regions, r.base < 2 ^ 32) (htop : ∀ r ∈ regions, r.stop ≤ top)
    (hends : ∀ r ∈ regions, ¬ Endless r) :
    regions.foldlM (freeRegion top ff) p = some ((allVisits ff regions).foldl freePage p) := by
  induction regions generalizing p with
  | nil => rfl
  | cons r regions ih =>
      obtain ⟨hb, hbs⟩ := List.forall_mem_cons.mp hbase
      obtain ⟨ht, hts⟩ := List.forall_mem_cons.mp htop
      obtain ⟨he, hes⟩ := List.forall_mem_cons.mp hends
      rw [List.foldlM_cons, (freeRegion_eq hff hb ht).2 he]
      show regions.foldlM (freeRegion top ff) ((visits ff r).foldl freePage p) = _
      rw [ih hbs hts hes, allVisits, allVisits, List.flatMap_cons, List.foldl_append]

/-- One region whose walk never ends is enough. -/
theorem foldlM_endless {regions : List Region} {p : Pmm} (hff : ff % pageSize = 0)
    (hbase : ∀ r ∈ regions, r.base < 2 ^ 32) (htop : ∀ r ∈ regions, r.stop ≤ top)
    (hend : ∃ r ∈ regions, Endless r) : regions.foldlM (freeRegion top ff) p = none := by
  induction regions generalizing p with
  | nil => simp at hend
  | cons r regions ih =>
      obtain ⟨hb, hbs⟩ := List.forall_mem_cons.mp hbase
      obtain ⟨ht, hts⟩ := List.forall_mem_cons.mp htop
      obtain ⟨hnone, hsome⟩ := freeRegion_eq (p := p) hff hb ht
      rw [List.foldlM_cons]
      by_cases he : Endless r
      · rw [hnone he]
        rfl
      · rw [hsome he]
        refine ih hbs hts ?_
        obtain ⟨r', hr', he'⟩ := hend
        rcases List.mem_cons.mp hr' with rfl | hr'
        · exact absurd he' he
        · exact ⟨r', hr', he'⟩

/-- How many walks come to a page. -/
theorem count_allVisits (ff : Nat) (regions : List Region) (x : Nat) :
    (allVisits ff regions).count x =
      if ff ≤ pageStart x then regions.countP (fun r => Covers r x) else 0 := by
  induction regions with
  | nil => simp [allVisits]
  | cons r regions ih =>
      have hone : (visits ff r).count x = if ff ≤ pageStart x ∧ Covers r x then 1 else 0 := by
        split
        · next h => exact List.count_eq_one_of_mem (nodup_visits ff r) (mem_visits.mpr h)
        · next h => exact List.count_eq_zero_of_not_mem fun hmem => h (mem_visits.mp hmem)
      rw [allVisits, List.flatMap_cons, List.count_append, hone]
      rw [allVisits] at ih
      rw [ih]
      by_cases hff : ff ≤ pageStart x
      · by_cases hcov : Covers r x
        · simp only [hff, hcov, and_self, if_true, List.countP_cons, decide_true]
          omega
        · simp only [hff, hcov, and_false, if_true, if_false, List.countP_cons, decide_false,
            Bool.false_eq_true]
          omega
      · simp only [hff, false_and, if_false]

/-! ## The state after the walks -/

/-- Freeing a list of pages. -/
theorem foldl_freePage {p : Pmm} (pages : List Nat) :
    (pages.foldl freePage p).totalPages = p.totalPages ∧
      (∀ x, (pages.foldl freePage p).used x = (decide (x ∉ pages) && p.used x)) ∧
      (p.freePages < 2 ^ 32 →
        (pages.foldl freePage p).freePages = (p.freePages + pages.length) % 2 ^ 32) := by
  induction pages generalizing p with
  | nil => exact ⟨rfl, by simp, fun h => (Nat.mod_eq_of_lt h).symm⟩
  | cons i pages ih =>
      obtain ⟨htotal, hused, hcount⟩ := ih (p := p.freePage i)
      refine ⟨htotal, fun x => ?_, fun _ => ?_⟩
      · rw [List.foldl_cons, hused x]
        show (decide (x ∉ pages) && Bitmap.bit (Bitmap.unmark p.bitmap i) x) = _
        have hmem : decide (x ∉ i :: pages) = (decide (x ∉ pages) && decide (x ≠ i)) := by
          simp [Bool.and_comm]
        rw [Bitmap.bit_unmark, hmem, Bool.and_assoc]
        rfl
      · rw [List.foldl_cons, hcount (Nat.mod_lt _ (Nat.two_pow_pos 32)), List.length_cons]
        show ((p.freePages + 1) % 2 ^ 32 + pages.length) % 2 ^ 32 = _
        omega

/-- A list has as many elements as it has different elements below a bound exactly if nothing is
listed twice and everything is below the bound. -/
theorem length_eq_card_iff (l : List Nat) (n : Nat) :
    l.length = ((Finset.range n).filter fun x => x ∈ l).card ↔ l.Nodup ∧ ∀ x ∈ l, x < n := by
  have hsub : (Finset.range n).filter (fun x => x ∈ l) ⊆ l.toFinset := by
    intro x hx
    exact List.mem_toFinset.mpr (Finset.mem_filter.mp hx).2
  have hle := Finset.card_le_card hsub
  have hle' := List.toFinset_card_le l
  constructor
  · intro h
    refine ⟨Multiset.toFinset_card_eq_card_iff_nodup.mp (show l.toFinset.card = l.length by omega),
      fun x hx => ?_⟩
    have heq := Finset.eq_of_subset_of_card_le hsub (by omega)
    have hmem : x ∈ (Finset.range n).filter fun x => x ∈ l := heq ▸ List.mem_toFinset.mpr hx
    exact Finset.mem_range.mp (Finset.mem_filter.mp hmem).1
  · rintro ⟨hnodup, hlt⟩
    rw [← List.toFinset_card_of_nodup hnodup]
    refine congrArg Finset.card (Finset.ext fun x => ?_)
    rw [List.mem_toFinset, Finset.mem_filter, Finset.mem_range]
    exact ⟨fun hx => ⟨hlt x hx, hx⟩, fun hx => hx.2⟩

/-- The count of clear bits, where the clear bits are known. -/
theorem clearBelow_eq_card {bytes : Bitmap.Bytes} {l : List Nat} {n : Nat}
    (h : ∀ x, x < n → (Bitmap.bit bytes x = false ↔ x ∈ l)) :
    Bitmap.clearBelow bytes n = ((Finset.range n).filter fun x => x ∈ l).card := by
  induction n with
  | zero => rfl
  | succ n ih =>
      rw [Bitmap.clearBelow, ih fun x hx => h x (by omega), Finset.range_add_one,
        Finset.filter_insert]
      by_cases hn : n ∈ l
      · rw [if_pos hn, if_neg (by rw [(h n (Nat.lt_succ_self n)).mpr hn]; simp),
          Finset.card_insert_of_notMem (by simp)]
      · have hbit : Bitmap.bit bytes n = true := by
          rw [← Bool.not_eq_false, h n (Nat.lt_succ_self n)]
          exact hn
        rw [if_neg hn, if_pos hbit, Nat.add_zero]

/-- The regions of the memory map are as `multiboot_parse` leaves them. -/
structure MapOk (map : MemoryMap) : Prop where
  count : map.regions.length ≤ maxUsableRegions
  words : ∀ r ∈ map.regions, r.base < 2 ^ 32 ∧ r.length < 2 ^ 32
  top : map.topOfMemory = (map.regions.map Region.stop).foldl max 0

/-- Every managed page from `first_free` on is met by one walk if it lies below `total_pages` and
in the regions, and by none otherwise. -/
structure MetOnce (map : MemoryMap) (kernelEnd : Nat) : Prop where
  inside : ∀ x, x < pagesBelow map.topOfMemory →
    firstFree (pagesBelow map.topOfMemory) kernelEnd ≤ pageStart x → Whole map.regions x →
    map.regions.countP (fun r => Covers r x) = 1
  outside : ∀ x, firstFree (pagesBelow map.topOfMemory) kernelEnd ≤ pageStart x →
    ¬ (x < pagesBelow map.topOfMemory ∧ Whole map.regions x) → ∀ r ∈ map.regions, ¬ Covers r x

theorem le_foldl_max {l : List Nat} {a b : Nat} (h : b ∈ l ∨ b ≤ a) : b ≤ l.foldl max a := by
  induction l generalizing a with
  | nil =>
      rcases h with h | h
      · cases h
      · exact h
  | cons c l ih =>
      refine ih ?_
      rcases h with h | h
      · rcases List.mem_cons.mp h with rfl | h
        · exact .inr (Nat.le_max_right _ _)
        · exact .inl h
      · exact .inr (Nat.le_trans h (Nat.le_max_left _ _))

theorem foldl_max_lt {l : List Nat} {a n : Nat} (hl : ∀ b ∈ l, b < n) (ha : a < n) :
    l.foldl max a < n := by
  induction l generalizing a with
  | nil => exact ha
  | cons c l ih =>
      obtain ⟨hc, hl⟩ := List.forall_mem_cons.mp hl
      exact ih hl (Nat.max_lt.mpr ⟨ha, hc⟩)

theorem MapOk.top_lt {map : MemoryMap} (h : MapOk map) : map.topOfMemory < 2 ^ 32 := by
  rw [h.top]
  refine foldl_max_lt (fun b hb => ?_) (Nat.two_pow_pos 32)
  obtain ⟨r, _, rfl⟩ := List.mem_map.mp hb
  exact Nat.mod_lt _ (Nat.two_pow_pos 32)

theorem MapOk.stop_le {map : MemoryMap} (h : MapOk map) {r : Region} (hr : r ∈ map.regions) :
    r.stop ≤ map.topOfMemory := by
  rw [h.top]
  exact le_foldl_max (.inl (List.mem_map_of_mem hr))

theorem length_allVisits_le (ff : Nat) (regions : List Region) :
    (allVisits ff regions).length ≤ regions.length * 2 ^ 20 := by
  induction regions with
  | nil => exact Nat.le_refl 0
  | cons r regions ih =>
      have hstop : r.stop < 2 ^ 32 := Nat.mod_lt _ (Nat.two_pow_pos 32)
      have hone : (visits ff r).length ≤ 2 ^ 20 := by
        refine Nat.le_trans (List.length_filter_le _ _) ?_
        rw [List.length_range']
        simp only [pageSize, managedBase] at *
        omega
      rw [allVisits, List.flatMap_cons, List.length_append, List.length_cons]
      rw [allVisits] at ih
      omega

theorem mem_allVisits (ff : Nat) (regions : List Region) (x : Nat) :
    x ∈ allVisits ff regions ↔ ff ≤ pageStart x ∧ ∃ r ∈ regions, Covers r x := by
  rw [allVisits, List.mem_flatMap]
  constructor
  · rintro ⟨r, hr, hx⟩
    exact ⟨(mem_visits.mp hx).1, r, hr, (mem_visits.mp hx).2⟩
  · rintro ⟨hff, r, hr, hx⟩
    exact ⟨r, hr, mem_visits.mpr ⟨hff, hx⟩⟩

/-- The state in which `pmm_init` starts to free pages. -/
def filled (map : MemoryMap) (memory : Bitmap.Bytes) : Pmm where
  bitmap := fun n => if n < bitmapBytes (pagesBelow map.topOfMemory) then 0xFF#8 else memory n
  totalPages := pagesBelow map.topOfMemory
  freePages := 0

theorem used_filled {map : MemoryMap} {memory : Bitmap.Bytes} (x : Nat) :
    (filled map memory).used x =
      if x < 8 * bitmapBytes (pagesBelow map.topOfMemory) then true else Bitmap.bit memory x := by
  have hdiv : x / 8 < bitmapBytes (pagesBelow map.topOfMemory) ↔
      x < 8 * bitmapBytes (pagesBelow map.topOfMemory) := by omega
  rw [Pmm.used, Bitmap.bit_eq_getLsbD]
  simp only [filled, hdiv]
  split
  · have hbit : x % 8 < 8 := Nat.mod_lt _ (by decide)
    show (BitVec.allOnes 8).getLsbD (x % 8) = true
    rw [BitVec.getLsbD_allOnes, decide_eq_true hbit]
  · rw [Bitmap.bit_eq_getLsbD]

/-- The state after freeing a list of pages is exact if the list is the pages in the regions, each
of them once. -/
theorem initExact_iff (map : MemoryMap) (kernelEnd : Nat) (memory : Bitmap.Bytes)
    {pages : List Nat} (hlen : pages.length < 2 ^ 32) :
    InitExact map kernelEnd memory (pages.foldl freePage (filled map memory)) ↔
      (∀ x, x < pagesBelow map.topOfMemory → (x ∈ pages ↔
        firstFree (pagesBelow map.topOfMemory) kernelEnd ≤ pageStart x ∧ Whole map.regions x)) ∧
      pages.Nodup ∧ ∀ x ∈ pages, x < pagesBelow map.topOfMemory := by
  obtain ⟨htotal, hused, hcount⟩ := foldl_freePage (p := filled map memory) pages
  have hcount : (pages.foldl freePage (filled map memory)).freePages = pages.length := by
    rw [hcount (Nat.two_pow_pos 32)]
    show (0 + pages.length) % 2 ^ 32 = _
    omega
  generalize pages.foldl freePage (filled map memory) = p at *
  have htotal : p.totalPages = pagesBelow map.topOfMemory := htotal
  have hbytes : pagesBelow map.topOfMemory ≤ 8 * bitmapBytes (pagesBelow map.topOfMemory) := by
    simp only [bitmapBytes]
    omega
  have hbelow : ∀ x, x < pagesBelow map.topOfMemory → (p.used x = false ↔ x ∈ pages) := by
    intro x hx
    rw [hused, used_filled, if_pos (by omega), Bool.and_true, decide_eq_false_iff_not, not_not]
  have hclear : Bitmap.clearBelow p.bitmap p.totalPages =
      ((Finset.range (pagesBelow map.topOfMemory)).filter fun x => x ∈ pages).card := by
    rw [htotal]
    exact clearBelow_eq_card hbelow
  rw [← length_eq_card_iff]
  constructor
  · intro h
    refine ⟨fun x hx => ?_, ?_⟩
    · rw [← hbelow x hx, h.free x (htotal ▸ hx), htotal]
    · rw [← hclear, ← h.counted, hcount]
  · rintro ⟨hfree, hcard⟩
    have hlt := ((length_eq_card_iff _ _).mp hcard).2
    refine ⟨htotal, fun x hx => ?_, fun x h1 h2 => ?_, fun x hx => ?_, ?_⟩
    · rw [htotal] at hx ⊢
      rw [hbelow x hx, hfree x hx]
    · rw [htotal] at h1 h2
      have hnot : x ∉ pages := fun hmem => by
        have := hlt x hmem
        omega
      rw [hused, used_filled, if_pos h2, decide_eq_true hnot, Bool.true_and]
    · rw [htotal] at hx
      have hnot : x ∉ pages := fun hmem => by
        have := hlt x hmem
        omega
      rw [hused, used_filled, if_neg (by omega), decide_eq_true hnot, Bool.true_and]
    · rw [hcount, hclear, hcard]

theorem firstFree_aligned (totalPages kernelEnd : Nat) :
    firstFree totalPages kernelEnd % pageSize = 0 := by
  simp only [firstFree, pageSize]
  omega

/-- A walk that never ends comes to the last page of the address space, which is not managed. -/
theorem MetOnce.ends {map : MemoryMap} {kernelEnd : Nat} (h : MetOnce map kernelEnd)
    (hmap : MapOk map) {r : Region} (hr : r ∈ map.regions) : ¬ Endless r := by
  rintro ⟨_, hend⟩
  have hstop := hmap.stop_le hr
  have htop := hmap.top_lt
  have hstart : start r < 2 ^ 32 := by
    have := (hmap.words r hr).1
    simp only [start, managedBase]
    omega
  obtain ⟨last, hlast⟩ : ∃ last, pageStart last = 2 ^ 32 - pageSize := ⟨1048319, by decide⟩
  have hff : firstFree (pagesBelow map.topOfMemory) kernelEnd ≤ pageStart last := by
    have halign := firstFree_aligned (pagesBelow map.topOfMemory) kernelEnd
    have hlt : firstFree (pagesBelow map.topOfMemory) kernelEnd < 2 ^ 32 :=
      Nat.mod_lt _ (Nat.two_pow_pos 32)
    generalize firstFree (pagesBelow map.topOfMemory) kernelEnd = ff at *
    simp only [pageSize] at *
    omega
  refine h.outside last hff ?_ r hr ⟨?_, ?_⟩
  · rintro ⟨hlow, _⟩
    simp only [pageStart, pagesBelow, pageSize, managedBase] at *
    omega
  · simp only [visit, hlast, pageSize] at *
    omega
  · simp only [visit, hlast]
    exact hend

/-- `pmm_init` builds the exact state for just the memory maps whose walks meet each page that is to
be freed once and no other page. -/
theorem pmm_init_iff (map : MemoryMap) (hmap : MapOk map) (kernelEnd : Nat)
    (memory : Bitmap.Bytes) :
    InitsExactly map kernelEnd memory ↔ MetOnce map kernelEnd := by
  have hff := firstFree_aligned (pagesBelow map.topOfMemory) kernelEnd
  have hbase : ∀ r ∈ map.regions, r.base < 2 ^ 32 := fun r hr => (hmap.words r hr).1
  have hlen : (allVisits (firstFree (pagesBelow map.topOfMemory) kernelEnd) map.regions).length <
      2 ^ 32 := by
    have hle := length_allVisits_le (firstFree (pagesBelow map.topOfMemory) kernelEnd) map.regions
    have hcount := hmap.count
    simp only [maxUsableRegions] at hcount
    omega
  have hrun (hends : ∀ r ∈ map.regions, ¬ Endless r) : pmmInit map kernelEnd memory =
      some ((allVisits (firstFree (pagesBelow map.topOfMemory) kernelEnd) map.regions).foldl
        freePage (filled map memory)) :=
    foldlM_freeRegion hff hbase (fun r hr => hmap.stop_le hr) hends
  have hexact := initExact_iff map kernelEnd memory hlen
  have hcount := count_allVisits (firstFree (pagesBelow map.topOfMemory) kernelEnd) map.regions
  have hmem := mem_allVisits (firstFree (pagesBelow map.topOfMemory) kernelEnd) map.regions
  generalize allVisits (firstFree (pagesBelow map.topOfMemory) kernelEnd) map.regions = pages at *
  constructor
  · rintro ⟨p, hinit, hp⟩
    have hends : ∀ r ∈ map.regions, ¬ Endless r := by
      intro r hr he
      have hnone : pmmInit map kernelEnd memory = none :=
        foldlM_endless hff hbase (fun r hr => hmap.stop_le hr) ⟨r, hr, he⟩
      rw [hnone] at hinit
      cases hinit
    obtain rfl := Option.some.inj (hinit.symm.trans (hrun hends))
    obtain ⟨hfree, hnodup, hlt⟩ := hexact.mp hp
    refine ⟨fun x hx hlow hwhole => ?_, fun x hlow hno r hr hcov => ?_⟩
    · have hone := List.count_eq_one_of_mem hnodup ((hfree x hx).mpr ⟨hlow, hwhole⟩)
      rw [hcount x, if_pos hlow] at hone
      exact hone
    · have hin : x ∈ pages := (hmem x).mpr ⟨hlow, r, hr, hcov⟩
      have hx := hlt x hin
      exact hno ⟨hx, ((hfree x hx).mp hin).2⟩
  · intro h
    refine ⟨_, hrun fun r hr => h.ends hmap hr, hexact.mpr ⟨fun x hx => ?_, ?_, fun x hx => ?_⟩⟩
    · rw [hmem x]
      refine and_congr_right fun hlow => ⟨?_, fun hwhole => ?_⟩
      · rintro ⟨r, hr, hcov⟩
        by_contra hno
        exact h.outside x hlow (fun hin => hno hin.2) r hr hcov
      · have hpos : 0 < map.regions.countP fun r => Covers r x := by
          rw [h.inside x hx hlow hwhole]
          exact Nat.one_pos
        obtain ⟨r, hr, hcov⟩ := List.countP_pos_iff.mp hpos
        exact ⟨r, hr, of_decide_eq_true hcov⟩
    · refine List.nodup_iff_count_le_one.mpr fun x => ?_
      rw [hcount x]
      split
      · next hlow =>
          by_cases hin : x < pagesBelow map.topOfMemory ∧ Whole map.regions x
          · exact Nat.le_of_eq (h.inside x hin.1 hlow hin.2)
          · have hzero : map.regions.countP (fun r => Covers r x) = 0 :=
              List.countP_eq_zero.mpr fun r hr => by simpa using h.outside x hlow hin r hr
            rw [hzero]
            exact Nat.zero_le 1
      · exact Nat.zero_le 1
    · obtain ⟨hlow, r, hr, hcov⟩ := (hmem x).mp hx
      by_contra hge
      exact h.outside x hlow (fun hin => hge hin.1) r hr hcov

/-! ## Regular maps -/

/-- Regions of whole pages below 4 GB that do not overlap. -/
structure Regular (map : MemoryMap) : Prop where
  aligned : ∀ r ∈ map.regions, r.base % pageSize = 0 ∧ r.length % pageSize = 0 ∧
    r.base + r.length < 2 ^ 32
  disjoint : map.regions.Pairwise fun r s => r.base + r.length ≤ s.base ∨ s.base + s.length ≤ r.base

/-- Where at most one element of a list can satisfy a property, one does if any does. -/
theorem countP_eq_one {α : Type*} {l : List α} {q : α → Bool} {rel : α → α → Prop}
    (hl : l.Pairwise rel) (hrel : ∀ a b, rel a b → q a = true → q b = true → False)
    (hex : ∃ a ∈ l, q a = true) : l.countP q = 1 := by
  induction hl with
  | nil => simp at hex
  | @cons a l ha _ ih =>
      by_cases hq : q a = true
      · have hzero : l.countP q = 0 :=
          List.countP_eq_zero.mpr fun b hb hqb => hrel a b (ha b hb) hq hqb
        rw [List.countP_cons_of_pos hq, hzero]
      · rw [List.countP_cons_of_neg hq]
        obtain ⟨b, hb, hqb⟩ := hex
        rcases List.mem_cons.mp hb with rfl | hb
        · exact absurd hqb hq
        · exact ih ⟨b, hb, hqb⟩

/-- The walk over a region of whole pages comes to the pages in it. -/
theorem covers_iff (haligned : r.base % pageSize = 0 ∧ r.length % pageSize = 0 ∧
    r.base + r.length < 2 ^ 32) :
    Covers r x ↔ r.base ≤ pageStart x ∧ pageStart x + pageSize ≤ r.base + r.length := by
  simp only [Covers, visit, start, Region.stop, pageStart, pageSize, managedBase] at *
  omega

/-- Regular maps, like the one that an emulator provides, are initialised exactly. -/
theorem Regular.metOnce {map : MemoryMap} (h : Regular map) (hmap : MapOk map) (kernelEnd : Nat) :
    MetOnce map kernelEnd := by
  have hpage : 0 < pageSize := by decide
  refine ⟨fun x _ _ hwhole => ?_, fun x _ hno r hr hcov => hno ⟨?_, fun a h1 h2 => ?_⟩⟩
  · refine countP_eq_one (List.Pairwise.and_mem.mp h.disjoint) (fun r s hrs hr hs => ?_) ?_
    · obtain ⟨hrm, hsm, hdisj⟩ := hrs
      have hr := (covers_iff (h.aligned r hrm)).mp (of_decide_eq_true hr)
      have hs := (covers_iff (h.aligned s hsm)).mp (of_decide_eq_true hs)
      omega
    · obtain ⟨r, hr, hlow, hhigh⟩ := hwhole (pageStart x) (Nat.le_refl _) (by omega)
      refine ⟨r, hr, decide_eq_true ((covers_iff (h.aligned r hr)).mpr ⟨hlow, ?_⟩)⟩
      have haligned := h.aligned r hr
      simp only [pageStart, pageSize, managedBase] at *
      omega
  · have hin := (covers_iff (h.aligned r hr)).mp hcov
    have haligned := h.aligned r hr
    have hstop := hmap.stop_le hr
    have htop := hmap.top_lt
    simp only [Region.stop, pagesBelow, pageStart, pageSize, managedBase] at *
    omega
  · have hin := (covers_iff (h.aligned r hr)).mp hcov
    exact ⟨r, hr, by omega, by omega⟩

/-- The memory map of an emulator with 16 MB: low memory, and the rest from 1 MB on. -/
def sampleMap : MemoryMap := ⟨[⟨0, 0x9F000⟩, ⟨0x100000, 0xF00000⟩], 0x1000000⟩

theorem sampleMap_ok : MapOk sampleMap := ⟨by decide, by decide, by decide⟩

theorem pmm_init_iff_sample :
    InitsExactly sampleMap 0x123456 (fun _ => 0) ↔ MetOnce sampleMap 0x123456 :=
  pmm_init_iff sampleMap sampleMap_ok 0x123456 fun _ => 0

/-- A region of one page's length that begins in the middle of a page. -/
def unalignedMap : MemoryMap := ⟨[⟨0x102800, 0x1000⟩], 0x103800⟩

/-- The page in which an unaligned region begins is freed, though half of it is not usable. -/
theorem pmm_init_frees_partial_page : ¬ ∀ (map : MemoryMap), MapOk map →
    ∀ (kernelEnd : Nat) (memory : Bitmap.Bytes), InitsExactly map kernelEnd memory := by
  intro hclaim
  obtain ⟨p, hrun, hp⟩ := hclaim unalignedMap ⟨by decide, by decide, by decide⟩ 0x100000 fun _ => 0
  have hvalue : (pmmInit unalignedMap 0x100000 fun _ => 0).map (fun p => (p.totalPages, p.used 2)) =
      some (3, false) := by
    decide +kernel
  rw [hrun] at hvalue
  obtain ⟨htotal, hused⟩ := Prod.mk.inj (Option.some.inj hvalue)
  have hfree := (hp.free 2 (by rw [htotal]; decide)).mp hused
  obtain ⟨r, hr, hlow, _⟩ := hfree.2 (pageStart 2) (Nat.le_refl _) (by decide)
  obtain rfl := List.mem_singleton.mp hr
  exact absurd hlow (by decide)

end Pmm

end Kumo
