import Mathlib.Data.List.Induction
import Kumo.Fs.ElfPasses
import Kumo.Mm.KheapLocality

/-!
# The image of a program

What `elf_load` builds from a well-formed file. The first pass finds the span of the
segments, which the pages it allocates cover. In these pages every segment lies at its
address relative to the load base, and because the segments are disjoint none disturbs
another: not those that were placed before, and not those that come after. So the order of
the headers makes no difference.
-/

namespace Kumo

open Memory

namespace Elf

variable {m m0 m1 : Memory} {h : Kheap} {elfData elfSize loadBase base count i x : Nat}
  {g : Segment} {r : Range} {gs : List Segment}

/-! ## The file -/

/-- The addresses of the file. -/
def InFile (elfData elfSize x : Nat) : Prop := elfData ≤ x ∧ x < elfData + elfSize

/-- The buffer of the file is memory that nobody hands out: it is not in the heap, and its pages
are not free. -/
structure Held (h : Kheap) (elfData elfSize : Nat) : Prop where
  fits : elfData + elfSize ≤ 2 ^ 32
  heap : ∀ x, InFile elfData elfSize x → ¬ h.InHeap x
  taken : ∀ x, InFile elfData elfSize x → ¬ h.pmm.FreeAt x

/-- The segment occupies this address. -/
def Segment.Covers (g : Segment) (v : Nat) : Prop := g.vaddr ≤ v ∧ v < g.vaddr + g.memsz

/-- An ELF32 file: the headers and the data of the segments lie in the file, and the memory ranges
of the segments do not wrap around and are disjoint. -/
structure WellFormed (m : Memory) (elfData elfSize : Nat) : Prop where
  header : 52 ≤ elfSize
  table : ∀ i, i < ePhnum m elfData → ePhoff m elfData + i * ePhentsize m elfData + 32 ≤ elfSize
  inFile : ∀ g ∈ segments m elfData, g.offset + g.filesz ≤ elfSize
  filled : ∀ g ∈ segments m elfData, g.filesz ≤ g.memsz
  noWrap : ∀ g ∈ segments m elfData, g.vaddr + g.memsz < 2 ^ 32
  disjoint : (segments m elfData).Pairwise fun a b => ∀ v, ¬ (a.Covers v ∧ b.Covers v)

/-- A range of the file. -/
theorem Held.within {off size : Nat} (hheld : Held h elfData elfSize) (hoff : off + size ≤ elfSize)
    (hpos : 0 < size) : MemAccess.Within (InFile elfData elfSize) ⟨add32 elfData off, size⟩ := by
  intro x h1 h2
  have hfits := hheld.fits
  rw [add32_of_lt (by omega)] at h1 h2
  simp only at h1 h2
  exact ⟨by omega, by omega⟩

/-- The header fields of a well-formed file are in the file. -/
theorem WellFormed.rangeRead (hwf : WellFormed m elfData elfSize) (hheld : Held h elfData elfSize)
    (hi : i < ePhnum m elfData) : RangeRead (InFile elfData elfSize) m elfData i := by
  have hheader := hwf.header
  have htable := hwf.table i hi
  have hfields : ∀ off, off + 4 ≤ 32 →
      MemAccess.Within (InFile elfData elfSize) ⟨add32 (phdrAt m elfData i) off, 4⟩ := by
    intro off hoff
    rw [phdrAt, add32_add]
    exact hheld.within (by omega) (by omega)
  have htype := hfields 0 (by omega)
  rw [phdrAt, add32_add, Nat.add_zero] at htype
  exact ⟨⟨hheld.within (by omega) (by omega), hheld.within (by omega) (by omega), htype⟩,
    fun _ => ⟨hfields 8 (by omega), hfields 20 (by omega)⟩⟩

/-! ## The span -/

/-- The result of the first pass. -/
def spanOf (gs : List Segment) : Range := gs.foldl extendRange .empty

instance : RightCommutative extendRange := ⟨fun r a b => by
  simp only [extendRange, Range.extend, Range.mk.injEq, and_true]
  constructor <;> split_ifs <;> omega⟩

/-- The order of the segments makes no difference for the span. -/
theorem spanOf_perm {gs' : List Segment} (hperm : gs.Perm gs') : spanOf gs = spanOf gs' := by
  rw [spanOf, spanOf]
  exact hperm.foldl_eq _

/-- The loop notes whether there was a segment. -/
theorem spanOf_foundLoad (gs : List Segment) : (spanOf gs).foundLoad = false ↔ gs = [] := by
  have hkept : ∀ (gs : List Segment) (r : Range), r.foundLoad = true →
      (gs.foldl extendRange r).foundLoad = true := by
    intro gs
    induction gs with
    | nil => exact fun r hr => hr
    | cons g gs ih => exact fun r _ => ih _ rfl
  cases gs with
  | nil => exact iff_of_true rfl rfl
  | cons g gs =>
      have hfound : (spanOf (g :: gs)).foundLoad = true := hkept gs _ rfl
      exact iff_of_false (by simp [hfound]) (by simp)

/-- What the first pass has seen lies in the span, which is no larger than it has to be. -/
structure Range.Spans (r : Range) (gs : List Segment) : Prop where
  low : ∀ g ∈ gs, r.minVaddr ≤ g.vaddr
  high : ∀ g ∈ gs, g.vaddr + g.memsz ≤ r.maxEnd
  bound : r.minVaddr ≤ 0xFFFFFFFF ∧ r.maxEnd < 2 ^ 32
  least : gs ≠ [] → ∃ g ∈ gs, g.vaddr = r.minVaddr

theorem spanOf_spans (hwrap : ∀ g ∈ gs, g.vaddr + g.memsz < 2 ^ 32) : (spanOf gs).Spans gs := by
  induction gs using List.reverseRecOn with
  | nil => exact ⟨by simp, by simp, by decide, fun h => absurd rfl h⟩
  | append_singleton gs g ih =>
      have ih := ih fun a ha => hwrap a (List.mem_append_left _ ha)
      have hg := hwrap g (List.mem_append_right _ (List.mem_singleton_self g))
      have hrun : spanOf (gs ++ [g]) = extendRange (spanOf gs) g := by
        rw [spanOf, List.foldl_append]
        rfl
      have hend : add32 g.vaddr g.memsz = g.vaddr + g.memsz := add32_of_lt hg
      rw [hrun]
      have hnil : gs = [] → (spanOf gs).minVaddr = 0xFFFFFFFF := by
        rintro rfl
        rfl
      obtain ⟨hlow, hhigh, hbound, hleast⟩ := ih
      generalize spanOf gs = r at *
      refine ⟨fun a ha => ?_, fun a ha => ?_, ?_, fun _ => ?_⟩
      · simp only [extendRange, Range.extend]
        rcases List.mem_append.mp ha with hold | hnew
        · have := hlow a hold
          split <;> omega
        · obtain rfl := List.mem_singleton.mp hnew
          split <;> omega
      · simp only [extendRange, Range.extend, hend]
        rcases List.mem_append.mp ha with hold | hnew
        · have := hhigh a hold
          split <;> omega
        · obtain rfl := List.mem_singleton.mp hnew
          split <;> omega
      · simp only [extendRange, Range.extend, hend]
        constructor <;> split <;> omega
      · simp only [extendRange, Range.extend]
        by_cases hlt : g.vaddr < r.minVaddr
        · exact ⟨g, by simp, by rw [if_pos hlt]⟩
        · rw [if_neg hlt]
          by_cases hempty : gs = []
          · -- the loop starts with the greatest address there is
            have hfirst := hnil hempty
            exact ⟨g, by simp, by omega⟩
          · obtain ⟨a, ha, heq⟩ := hleast hempty
            exact ⟨a, List.mem_append_left _ ha, heq⟩

/-! ## The frames -/

/-- The run of pages from `pmm_alloc_contiguous_user_pages` ends inside the address space, and its
bytes were free. -/
structure Frames (pmm : Pmm) (count base : Nat) : Prop where
  pos : 0 < count
  aligned : base % pageSize = 0
  low : userMemStart ≤ base
  fits : base + count * pageSize ≤ 2 ^ 32
  free : ∀ x, base ≤ x → x < base + count * pageSize → pmm.FreeAt x
  taken : ∀ x, base ≤ x → x < base + count * pageSize →
    ¬ (pmm.pmmAllocContiguousUserPages count).2.FreeAt x

theorem frames_of_alloc {pmm : Pmm} (hpmm : pmm.Wf)
    (hne : (pmm.pmmAllocContiguousUserPages count).1 ≠ 0) :
    Frames pmm count (pmm.pmmAllocContiguousUserPages count).1 := by
  have howns : ∀ x, (pmm.pmmAllocContiguousUserPages count).1 ≤ x →
      x < (pmm.pmmAllocContiguousUserPages count).1 + count * pageSize →
        pmm.FreeAt x ∧ ¬ (pmm.pmmAllocContiguousUserPages count).2.FreeAt x :=
    fun x h1 h2 => hpmm.owns_call (c := .contiguousUser count) ⟨hne, h1, h2⟩
  rcases hpmm.call_cases (.contiguousUser count) with heq | ⟨start, hpos, hgrant, hres, _⟩
  · exact absurd (congrArg Prod.fst heq) hne
  · have hres : (pmm.pmmAllocContiguousUserPages count).1 = managedBase + start * pageSize := hres
    have hlow := hgrant.lower
    have hup := hgrant.upper
    simp only [Pmm.zone, PmmCall.isUser, if_true, PmmCall.count] at hpos hlow hup
    -- the last page of the run is a page that was free
    have hlast := hpmm.addressable (start + count - 1) (by omega)
      (hgrant.free _ (by omega) (by simp only [PmmCall.count]; omega))
    generalize (pmm.pmmAllocContiguousUserPages count).1 = base at *
    refine ⟨hpos, ?_, ?_, ?_, fun x h1 h2 => (howns x h1 h2).1, fun x h1 h2 => (howns x h1 h2).2⟩
    · simp only [managedBase, pageSize] at *
      omega
    · simp only [Pmm.userStartIdx, Pmm.kernelEndIdx, managedBase, userMemStart, pageSize] at *
      omega
    · simp only [managedBase, pageSize] at *
      omega

/-! ## The placement -/

/-- Where a segment goes in pages from `base` on, for a span that starts at `low`. -/
def destOf (base low : Nat) (g : Segment) : Nat := base + (g.vaddr - low)

/-- What it takes to place a segment: it fits in the address space, and its data does not lie where
it goes. -/
structure Placeable (elfData base low : Nat) (g : Segment) : Prop where
  above : low ≤ g.vaddr
  filled : g.filesz ≤ g.memsz
  fits : destOf base low g + g.memsz ≤ 2 ^ 32
  source : elfData + g.offset + g.filesz ≤ 2 ^ 32
  apart : destOf base low g + g.filesz ≤ elfData + g.offset ∨
    elfData + g.offset + g.filesz ≤ destOf base low g

/-- A placed segment: the data of the file, zeros up to its size, and nothing else changes. -/
theorem placeSegment_apply {low : Nat} (hg : Placeable elfData base low g) (x : Nat) :
    placeSegment elfData (sub32 base low) m g x =
      if destOf base low g ≤ x ∧ x < destOf base low g + g.memsz then
        if x < destOf base low g + g.filesz then
          m (elfData + g.offset + (x - destOf base low g))
        else 0
      else m x := by
  obtain ⟨habove, hfilled, hfits, hsource, hapart⟩ := hg
  by_cases hempty : g.memsz = 0
  · have h0 : g.filesz = 0 := by omega
    rw [if_neg (by omega), placeSegment, hempty, h0]
    rfl
  · have hdest : add32 (sub32 base low) g.vaddr = destOf base low g :=
      add32_sub32 habove (by simp only [destOf] at *; omega)
    rw [placeSegment, hdest]
    generalize destOf base low g = dest at *
    -- the file may end where the segment ends
    have hrest : (m.copyWrapped dest (add32 elfData g.offset) g.filesz).clearWrapped
        (add32 dest g.filesz) (g.memsz - g.filesz) =
          (m.copyBytes dest (elfData + g.offset) g.filesz).clearBytes (dest + g.filesz)
            (g.memsz - g.filesz) := by
      have hcopy : m.copyWrapped dest (add32 elfData g.offset) g.filesz =
          m.copyBytes dest (elfData + g.offset) g.filesz := by
        by_cases h0 : g.filesz = 0
        · rw [h0]
          rfl
        · rw [add32_of_lt (by omega), copyWrapped_eq (by omega) (by omega)]
      rw [hcopy]
      by_cases h0 : g.memsz - g.filesz = 0
      · rw [h0]
        rfl
      · rw [add32_of_lt (by omega), clearWrapped_eq (by omega)]
    rw [hrest]
    by_cases hin : dest ≤ x ∧ x < dest + g.memsz
    · rw [if_pos hin]
      by_cases hdata : x < dest + g.filesz
      · rw [if_pos hdata, clearBytes_outside (by omega), copyBytes_inside hapart hin.1 hdata]
      · rw [if_neg hdata, clearBytes_inside (by omega) (by omega)]
    · rw [if_neg hin, clearBytes_outside (by omega), copyBytes_outside (by omega)]

/-- The segments placed one after the other, whose ranges are disjoint and hold none of the data. -/
theorem placeAll {low : Nat} (hgs : ∀ g ∈ gs, Placeable elfData base low g)
    (hdisj : gs.Pairwise fun a b => ∀ v, ¬ (a.Covers v ∧ b.Covers v))
    (hdata : ∀ g ∈ gs, ∀ j, j < g.filesz → m (elfData + g.offset + j) = m0 (elfData + g.offset + j))
    (hkept : ∀ g ∈ gs, ∀ a ∈ gs, ∀ j, j < g.filesz → elfData + g.offset + j < destOf base low a ∨
      destOf base low a + a.memsz ≤ elfData + g.offset + j) :
    (∀ x, (∀ g ∈ gs, x < destOf base low g ∨ destOf base low g + g.memsz ≤ x) →
      gs.foldl (placeSegment elfData (sub32 base low)) m x = m x) ∧
    ∀ g ∈ gs, ∀ j, j < g.memsz →
      gs.foldl (placeSegment elfData (sub32 base low)) m (destOf base low g + j) =
        if j < g.filesz then m0 (elfData + g.offset + j) else 0 := by
  induction gs generalizing m with
  | nil => exact ⟨fun _ _ => rfl, fun g hg => nomatch hg⟩
  | cons a gs ih =>
      obtain ⟨hfirst, hrest⟩ := List.pairwise_cons.mp hdisj
      have ha := hgs a (List.mem_cons_self ..)
      have hmem : ∀ g ∈ gs, g ∈ a :: gs := fun g => List.mem_cons_of_mem a
      have hdata' : ∀ g ∈ gs, ∀ j, j < g.filesz →
          placeSegment elfData (sub32 base low) m a (elfData + g.offset + j) =
            m0 (elfData + g.offset + j) := by
        intro g hg j hj
        have hout := hkept g (hmem g hg) a (List.mem_cons_self ..) j hj
        rw [placeSegment_apply ha, if_neg (by omega)]
        exact hdata g (hmem g hg) j hj
      obtain ⟨hsame, hplaced⟩ := ih (fun g hg => hgs g (hmem g hg)) hrest hdata'
        fun g hg b hb => hkept g (hmem g hg) b (hmem b hb)
      refine ⟨fun x hx => ?_, fun g hg j hj => ?_⟩
      · rw [List.foldl_cons, hsame x fun g hg => hx g (hmem g hg), placeSegment_apply ha,
          if_neg (by have := hx a (List.mem_cons_self ..); omega)]
      · rcases List.mem_cons.mp hg with rfl | hg
        · -- the other segments lie elsewhere
          have hother : ∀ b ∈ gs, destOf base low g + j < destOf base low b ∨
              destOf base low b + b.memsz ≤ destOf base low g + j := by
            intro b hb
            by_contra hover
            have hb' := (hgs b (hmem b hb)).above
            have hg' := ha.above
            refine hfirst b hb (g.vaddr + j) ⟨⟨by omega, by omega⟩, ?_, ?_⟩
            · simp only [destOf] at hover
              omega
            · simp only [destOf] at hover
              omega
          rw [List.foldl_cons, hsame _ hother, placeSegment_apply ha, if_pos ⟨by omega, by omega⟩,
            Nat.add_sub_cancel_left]
          by_cases hj' : j < g.filesz
          · rw [if_pos (by omega), if_pos hj']
            exact hdata g (List.mem_cons_self ..) j hj'
          · rw [if_neg (by omega), if_neg hj']
        · exact hplaced g hg j hj

/-! ## The run -/

/-- The file begins like an ELF file. -/
def Identified (m : Memory) (elfData : Nat) : Prop :=
  ∀ (k : Nat) (hk : k < elfIdent.length), m (add32 elfData k) = elfIdent[k]

/-- The bytes of the identification that are read: up to the first one that differs. -/
def IdentRead (F : Nat → Prop) (m : Memory) (elfData : Nat) : Prop :=
  ∀ (k : Nat) (_ : k < elfIdent.length), (∀ (l : Nat) (hl : l < elfIdent.length), l < k →
    m (add32 elfData l) = elfIdent[l]) → F (add32 elfData k)

/-- `elf_load` up to the allocation of the pages. -/
theorem elfLoad_front (h : Kheap) (elfData elfSize : Nat) : ∃ s : Loader, s.heap = h ∧
    (¬ Identified h.mem elfData → elfLoad h elfData elfSize = some ⟨0, none, s⟩ ∧
      ∀ F W, Confined F W s ↔ IdentRead F h.mem elfData) ∧
    (Identified h.mem elfData →
      (elfLoad h elfData elfSize = if segments h.mem elfData = [] then some ⟨0, none, s⟩
        else placeImage elfData (spanOf (segments h.mem elfData)) s) ∧
      ∀ F W, Confined F W s ↔ IdentRead F h.mem elfData ∧
        MemAccess.Within F ⟨add32 elfData 44, 2⟩ ∧
        ∀ k, k < ePhnum h.mem elfData → RangeRead F h.mem elfData k) := by
  have hident := fun F W => checkIdent_spec (F := F) (W := W) elfData 0 elfIdent ⟨h, [], []⟩
  simp only [Nat.zero_add] at hident
  rw [elfLoad]
  generalize checkIdent elfData elfIdent 0 ⟨h, [], []⟩ = c at *
  obtain ⟨ok, s1⟩ := c
  have hheap1 : s1.heap = h := (hident (fun _ => True) (fun _ => True)).1
  have hok : ok = true ↔ Identified h.mem elfData :=
    (hident (fun _ => True) (fun _ => True)).2.1
  have hlog1 : ∀ F W, Confined F W s1 ↔ IdentRead F h.mem elfData := by
    intro F W
    have hstart : Confined F W ⟨h, [], []⟩ := ⟨allWithin_nil, allWithin_nil⟩
    exact (hident F W).2.2.trans (and_iff_right hstart)
  cases ok with
  | false =>
      have hno : ¬ Identified h.mem elfData := fun hyes => nomatch hok.mpr hyes
      exact ⟨s1, hheap1, fun _ => ⟨rfl, hlog1⟩, fun hyes => absurd hyes hno⟩
  | true =>
      have hyes := hok.mp rfl
      have hmem1 : s1.mem = h.mem := congrArg Kheap.mem hheap1
      have hrange := fun F W => findRange_spec (F := F) (W := W) elfData phnumFuel 0 .empty s1
        (Nat.zero_le _) (by rw [Nat.zero_add]; exact ePhnum_lt _ _)
      rw [hmem1, Nat.sub_zero] at hrange
      dsimp only
      generalize findRange elfData phnumFuel 0 .empty s1 = c at *
      obtain ⟨r, s⟩ := c
      have hheap : s.heap = h := ((hrange (fun _ => True) (fun _ => True)).1).trans hheap1
      have hr : r = spanOf (segments h.mem elfData) := (hrange (fun _ => True) (fun _ => True)).2.1
      refine ⟨s, hheap, fun hno => absurd hyes hno, fun _ => ⟨?_, fun F W => ?_⟩⟩
      · dsimp only
        rw [hr]
        simp only [spanOf_foundLoad]
      · rw [(hrange F W).2.2, hlog1]
        simp only [Nat.zero_le, forall_const]

end Elf

end Kumo
