import Kumo.Fs.ElfImage
import Kumo.Mm.KernelZone
import Kumo.Mm.KheapOwners

/-!
# Loading a program

`elf_load` on a well-formed file. The memory that it may write is the frames it took and
its page list. Both were free or in the heap, so they are apart from the file, and from
each other. `elf_load_image` says what a load leaves there, for any order of the headers.
-/

namespace Kumo

open Memory

namespace Elf

variable {m : Memory} {h g : Kheap} {elfData elfSize base count outPages : Nat}

/-- What `elf_load` may write: the frames and the page list. -/
def Writable (base count outPages x : Nat) : Prop :=
  (base ≤ x ∧ x < base + count * pageSize) ∨ (outPages ≤ x ∧ x < outPages + 4 * count)

/-- The state when the page list is allocated: the frames were taken from the page allocator, and
the list from the heap. -/
structure Prepared (h : Kheap) (elfData elfSize count base outPages : Nat) (g : Kheap) :
    Prop where
  frames : Frames h.pmm count base
  /-- The list lies in the kernel zone. -/
  list : managedBase < outPages ∧ outPages + 4 * count ≤ userMemStart
  /-- Nothing that may be written belongs to the file. -/
  apart : ∀ x, InFile elfData elfSize x → ¬ Writable base count outPages x
  /-- The file was not touched. -/
  kept : SameOn (InFile elfData elfSize) h.mem g.mem

/-- What `elf_load` may look at in a heap beside which a file is held. -/
theorem Held.visible (hheld : Held h elfData elfSize) (count : Nat) :
    Kheap.Visible { h with pmm := (h.pmm.pmmAllocContiguousUserPages count).2 }
      (fun x => ¬ InFile elfData elfSize x) :=
  ⟨fun x hx hin => hheld.heap x hin hx, fun x hx hin =>
    hheld.taken x hin (Pmm.FreeAt.of_call (c := .contiguousUser count) hx)⟩

theorem wf_afterFrames (hwf : h.Wf) (count : Nat) :
    Kheap.Wf { h with pmm := (h.pmm.pmmAllocContiguousUserPages count).2 } := by
  obtain ⟨tiles, fl, hl⟩ := hwf
  exact ⟨tiles, fl, hl.of_pmm (hl.pmm.call (.contiguousUser count))
    fun i hi => Pmm.used_call (.contiguousUser count) hi⟩

theorem Frames.count_le {pmm : Pmm} (hfr : Frames pmm count base) : count < 2 ^ 20 := by
  have hlow := hfr.low
  have hfits := hfr.fits
  simp only [userMemStart, pageSize] at *
  omega

/-- The page list, when the heap has room for it. -/
theorem prepared_of_kmalloc (hwf : h.Wf) (hheld : Held h elfData elfSize)
    (hbase : (h.pmm.pmmAllocContiguousUserPages count).1 ≠ 0)
    (hrun : Kheap.kmalloc { h with pmm := (h.pmm.pmmAllocContiguousUserPages count).2 }
      (count * 4 % 2 ^ 32) = some (outPages, g)) (hlist : outPages ≠ 0) :
    Prepared h elfData elfSize count (h.pmm.pmmAllocContiguousUserPages count).1 outPages g := by
  have hpmm : h.pmm.Wf := by
    obtain ⟨_, _, hl⟩ := hwf
    exact hl.pmm
  have hfr := frames_of_alloc hpmm hbase
  have hcount := hfr.count_le
  obtain ⟨tiles, fl, hl⟩ := wf_afterFrames hwf count
  have hown : Owned { h with pmm := (h.pmm.pmmAllocContiguousUserPages count).2 }
      (fun _ _ => False) := ⟨tiles, fl, hl, fun _ _ hp => hp.elim⟩
  obtain ⟨-, hgrows, -, hnew⟩ := hown.kmalloc (by omega) hrun
  have howns := (hnew hlist).1
  have hsize : count * 4 % 2 ^ 32 = 4 * count := by omega
  have hbounds := howns.bounds (p := outPages) (.inr ⟨rfl, rfl⟩)
  rw [hsize] at hbounds
  have hvis := (wf_afterFrames hwf count).kmalloc_visible (hheld.visible count) hrun
  refine ⟨hfr, hbounds.2, fun x hin hw => ?_, fun x hin => ?_⟩
  · rcases hw with ⟨h1, h2⟩ | ⟨h1, h2⟩
    · exact hheld.taken x hin (hfr.free x h1 h2)
    · refine hvis.heap x (howns.inHeap (.inr ⟨rfl, rfl⟩) h1 ?_) hin
      rw [hsize]
      exact h2
  · exact hgrows.outside x fun hx => hvis.heap x hx hin

/-! ## Well-formed files -/

/-- The number of pages that is asked for. -/
def pageCount (r : Range) : Nat := add32 (sub32 r.maxEnd r.minVaddr) 4095 / 4096

/-- Pages that were granted cover the span. -/
theorem Range.Spans.covered {r : Range} {gs : List Segment} (hr : r.Spans gs) (hgs : gs ≠ [])
    (hpos : 0 < pageCount r) : r.minVaddr ≤ r.maxEnd ∧
      r.maxEnd - r.minVaddr ≤ pageCount r * pageSize := by
  obtain ⟨a, ha, hleast⟩ := hr.least hgs
  have hhigh := hr.high a ha
  have hbound := hr.bound
  simp only [pageCount, add32, sub32, pageSize] at *
  omega

section Image

variable {gs : List Segment} {a : Segment}

/-- Every segment of a well-formed file can be placed in its frames. -/
theorem Prepared.placeable (hp : Prepared h elfData elfSize count base outPages g)
    (hheld : Held h elfData elfSize) (hfile : WellFormed m elfData elfSize)
    (hcount : count = pageCount (spanOf (segments m elfData))) (ha : a ∈ segments m elfData) :
    Placeable elfData base (spanOf (segments m elfData)).minVaddr a ∧
      base ≤ destOf base (spanOf (segments m elfData)).minVaddr a ∧
      destOf base (spanOf (segments m elfData)).minVaddr a + a.memsz ≤ base + count * pageSize := by
  have hspan := spanOf_spans hfile.noWrap
  have hcov := hspan.covered (List.ne_nil_of_mem ha) (hcount ▸ hp.frames.pos)
  rw [← hcount] at hcov
  have hlow := hspan.low a ha
  have hhigh := hspan.high a ha
  have hfits := hp.frames.fits
  have hdata := hfile.inFile a ha
  have hfilled := hfile.filled a ha
  have hend := hheld.fits
  generalize spanOf (segments m elfData) = r at *
  have hdest : destOf base r.minVaddr a + a.memsz ≤ base + count * pageSize := by
    simp only [destOf]
    omega
  refine ⟨⟨hlow, hfilled, by omega, by omega, ?_⟩, by simp only [destOf]; omega, hdest⟩
  -- the data is in the file, and the frames are not
  by_contra hover
  have hbase : base ≤ destOf base r.minVaddr a := by
    simp only [destOf]
    omega
  have hin : InFile elfData elfSize (max (elfData + a.offset) (destOf base r.minVaddr a)) :=
    ⟨by omega, by omega⟩
  exact hp.apart _ hin (.inl ⟨by omega, by omega⟩)

/-- So the second pass keeps to the file and to what may be written. -/
theorem Prepared.loadWithin (hp : Prepared h elfData elfSize count base outPages g)
    (hheld : Held h elfData elfSize) (hfile : WellFormed m elfData elfSize)
    (hcount : count = pageCount (spanOf (segments m elfData))) {i : Nat}
    (hi : i < ePhnum m elfData) :
    LoadWithin (InFile elfData elfSize) (Writable base count outPages) m elfData
      (sub32 base (spanOf (segments m elfData)).minVaddr) i := by
  intro hload
  have hmem : segmentAt m (phdrAt m elfData i) ∈ segments m elfData :=
    segmentAt_mem (Nat.zero_le i) (by omega) hload
  have htable := hfile.table i hi
  have hheader := hfile.header
  have hfields : ∀ off, off + 4 ≤ 32 →
      MemAccess.Within (InFile elfData elfSize) ⟨add32 (phdrAt m elfData i) off, 4⟩ := by
    intro off hoff
    rw [phdrAt, add32_add]
    exact hheld.within (by omega) (by omega)
  obtain ⟨⟨habove, hfilled, hfits, hsource, -⟩, hlow, hhigh⟩ := hp.placeable hheld hfile hcount hmem
  have hdata := hfile.inFile _ hmem
  generalize segmentAt m (phdrAt m elfData i) = a at *
  generalize (spanOf (segments m elfData)).minVaddr = low at *
  have hdest : ∀ k, k < a.memsz →
      add32 (add32 (sub32 base low) a.vaddr) k = destOf base low a + k := by
    intro k hk
    rw [add32_add, add32_sub32 (by omega) (by simp only [destOf] at *; omega)]
    simp only [destOf]
    omega
  have hwrite : ∀ k, k < a.memsz →
      Writable base count outPages (add32 (add32 (sub32 base low) a.vaddr) k) := by
    intro k hk
    rw [hdest k hk]
    exact .inl ⟨by omega, by omega⟩
  refine ⟨hfields 4 (by omega), hfields 16 (by omega), fun k hk => ?_,
    fun k hk => hwrite k (by omega), fun k hk => ?_⟩
  · rw [add32_add, add32_of_lt (by omega)]
    exact ⟨by omega, by omega⟩
  · rw [add32_add]
    exact hwrite _ (by omega)

end Image

/-! ## The two outcomes -/

/-- The file is accepted: it begins like an ELF file, has a segment, and there are pages for it. -/
def Accepted (h : Kheap) (elfData : Nat) : Prop :=
  Identified h.mem elfData ∧ segments h.mem elfData ≠ [] ∧
    (h.pmm.pmmAllocContiguousUserPages (pageCount (spanOf (segments h.mem elfData)))).1 ≠ 0

/-- What the loader reads before it allocates pages. -/
def FrontRead (F : Nat → Prop) (m : Memory) (elfData : Nat) : Prop :=
  IdentRead F m elfData ∧ (Identified m elfData → MemAccess.Within F ⟨add32 elfData 44, 2⟩ ∧
    ∀ k, k < ePhnum m elfData → RangeRead F m elfData k)

/-- A file that is not accepted leaves everything as it was. -/
theorem elfLoad_refused (hpmm : h.pmm.Wf) (elfSize : Nat) (hno : ¬ Accepted h elfData) :
    ∃ s, elfLoad h elfData elfSize = some ⟨0, none, s⟩ ∧ s.heap = h ∧
      ∀ F W, Confined F W s ↔ FrontRead F h.mem elfData := by
  obtain ⟨s, hheap, hbad, hgood⟩ := elfLoad_front h elfData elfSize
  by_cases hident : Identified h.mem elfData
  · obtain ⟨hrun, hlog⟩ := hgood hident
    have hlog : ∀ F W, Confined F W s ↔ FrontRead F h.mem elfData := fun F W =>
      (hlog F W).trans (and_congr_right fun _ => (imp_iff_right hident).symm)
    by_cases hempty : segments h.mem elfData = []
    · exact ⟨s, by rw [hrun, if_pos hempty], hheap, hlog⟩
    · have hzero : (h.pmm.pmmAllocContiguousUserPages
          (pageCount (spanOf (segments h.mem elfData)))).1 = 0 :=
        by_contra fun hne => hno ⟨hident, hempty, hne⟩
      have hsame : (h.pmm.pmmAllocContiguousUserPages
          (pageCount (spanOf (segments h.mem elfData)))).2 = h.pmm :=
        Pmm.call_refused (c := .contiguousUser _) hpmm hzero
      refine ⟨s, ?_, hheap, hlog⟩
      rw [hrun, if_neg hempty, placeImage]
      rw [pageCount] at hzero hsame
      dsimp only
      rw [hheap, hzero, hsame, if_pos rfl]
      obtain ⟨heap, reads, writes⟩ := s
      obtain rfl : heap = h := hheap
      rfl
  · exact ⟨s, (hbad hident).1, hheap, fun F W => ((hbad hident).2 F W).trans
      (and_iff_left fun hyes => absurd hyes hident).symm⟩

/-- The state when the second pass begins. -/
def afterList (s : Loader) (g : Kheap) (outPages base count : Nat) : Loader :=
  fillPages outPages base count 0 { s with heap := g }

/-- An accepted file, given the page list that `kmalloc` returns. -/
theorem elfLoad_accepted (elfSize : Nat) (hacc : Accepted h elfData)
    (hcount : count = pageCount (spanOf (segments h.mem elfData)))
    (hbase : base = (h.pmm.pmmAllocContiguousUserPages count).1)
    (hrun : Kheap.kmalloc { h with pmm := (h.pmm.pmmAllocContiguousUserPages count).2 }
      (count * 4 % 2 ^ 32) = some (outPages, g)) :
    ∃ s : Loader, (∀ F W, Confined F W s ↔ FrontRead F h.mem elfData) ∧
      ∀ s', s' = loadSegments elfData (sub32 base (spanOf (segments h.mem elfData)).minVaddr)
          phnumFuel 0 (afterList s g outPages base count) →
        elfLoad h elfData elfSize = some
          ⟨add32 (sub32 base (spanOf (segments h.mem elfData)).minVaddr) (eEntry s'.mem elfData),
            some (outPages, count), s'.reading (add32 elfData 24) 4⟩ := by
  obtain ⟨s, hheap, -, hgood⟩ := elfLoad_front h elfData elfSize
  obtain ⟨hident, hne, hpages⟩ := hacc
  obtain ⟨hload, hlog⟩ := hgood hident
  refine ⟨s, fun F W => (hlog F W).trans (and_congr_right fun _ =>
    (imp_iff_right hident).symm), ?_⟩
  rintro s' rfl
  rw [← hcount, ← hbase] at hpages
  rw [hload, if_neg hne, placeImage]
  rw [pageCount] at hcount
  dsimp only
  rw [hheap, ← hcount, ← hbase, if_neg hpages, hrun]
  rfl

/-! ## The image -/

/-- The memory of a loaded program, from the memory in which the page list was allocated. -/
def imageMem (m mem : Memory) (elfData base count outPages : Nat) : Memory :=
  (segments m elfData).foldl (placeSegment elfData (sub32 base (spanOf (segments m elfData)).minVaddr))
    (mem.fillTable outPages (fun k => add32 base (k * pageSize)) count)

/-- The list is not written over the file. -/
theorem Prepared.keptList (hp : Prepared h elfData elfSize count base outPages g)
    (value : Nat → Nat) :
    SameOn (InFile elfData elfSize) h.mem (g.mem.fillTable outPages value count) := by
  intro x hin
  have hout : x < outPages ∨ outPages + 4 * count ≤ x := by
    by_contra hover
    exact hp.apart x hin (.inr ⟨by omega, by omega⟩)
  rw [fillTable_outside hout]
  exact hp.kept x hin

/-- What the second pass leaves. -/
theorem Prepared.imageMem (hp : Prepared h elfData elfSize count base outPages g)
    (hheld : Held h elfData elfSize) (hfile : WellFormed h.mem elfData elfSize)
    (hcount : count = pageCount (spanOf (segments h.mem elfData))) :
    (∀ x, (∀ a ∈ segments h.mem elfData,
        x < destOf base (spanOf (segments h.mem elfData)).minVaddr a ∨
          destOf base (spanOf (segments h.mem elfData)).minVaddr a + a.memsz ≤ x) →
        imageMem h.mem g.mem elfData base count outPages x =
          g.mem.fillTable outPages (fun k => add32 base (k * pageSize)) count x) ∧
      ∀ a ∈ segments h.mem elfData, ∀ j, j < a.memsz →
        imageMem h.mem g.mem elfData base count outPages
            (destOf base (spanOf (segments h.mem elfData)).minVaddr a + j) =
          if j < a.filesz then h.mem (elfData + a.offset + j) else 0 := by
  have hin : ∀ a ∈ segments h.mem elfData, ∀ j, j < a.filesz →
      InFile elfData elfSize (elfData + a.offset + j) := by
    intro a ha j hj
    have := hfile.inFile a ha
    exact ⟨by omega, by omega⟩
  refine placeAll (fun a ha => (hp.placeable hheld hfile hcount ha).1) hfile.disjoint
    (fun a ha j hj => hp.keptList _ _ (hin a ha j hj)) fun a ha b hb j hj => ?_
  by_contra hover
  obtain ⟨-, hlow, hhigh⟩ := hp.placeable hheld hfile hcount hb
  exact hp.apart _ (hin a ha j hj) (.inl ⟨by omega, by omega⟩)

/-- The run on a well-formed file that is accepted. -/
theorem Prepared.run (hp : Prepared h elfData elfSize count base outPages g)
    (hheld : Held h elfData elfSize) (hfile : WellFormed h.mem elfData elfSize)
    (hacc : Accepted h elfData) (hcount : count = pageCount (spanOf (segments h.mem elfData)))
    (hbase : base = (h.pmm.pmmAllocContiguousUserPages count).1)
    (hrun : Kheap.kmalloc { h with pmm := (h.pmm.pmmAllocContiguousUserPages count).2 }
      (count * 4 % 2 ^ 32) = some (outPages, g)) :
    ∃ s, elfLoad h elfData elfSize = some
        ⟨add32 (sub32 base (spanOf (segments h.mem elfData)).minVaddr) (eEntry h.mem elfData),
          some (outPages, count), s⟩ ∧
      s.heap = { g with mem := Elf.imageMem h.mem g.mem elfData base count outPages } := by
  obtain ⟨s, -, hload⟩ := elfLoad_accepted elfSize hacc hcount hbase hrun
  have hlist := hp.list.2
  have hframes := hp.frames.fits
  have hheap0 : (afterList s g outPages base count).heap = { g with
      mem := g.mem.fillTable outPages (fun k => add32 base (k * pageSize)) count } := by
    have hfill := heap_fillPages (m := g.mem) (s := { s with heap := g }) (i := 0) outPages base
      (show outPages + 4 * (0 + count) ≤ 2 ^ 32 by simp only [userMemStart] at hlist; omega) rfl
    rw [Nat.zero_add] at hfill
    exact hfill
  have hheader := hfile.header
  have hkept0 : SameOn (InFile elfData elfSize) h.mem (afterList s g outPages base count).mem := by
    rw [Loader.mem, hheap0]
    exact hp.keptList _
  have hpass := (loadSegments_spec elfData
    (sub32 base (spanOf (segments h.mem elfData)).minVaddr) phnumFuel 0 hp.apart hkept0 (hheld.within (by omega) (by omega))
    (fun k _ hk => hfile.rangeRead hheld hk) (Nat.zero_le _)
    (by rw [Nat.zero_add]; exact ePhnum_lt _ _)).2 fun k _ hk => hp.loadWithin hheld hfile hcount hk
  generalize loadSegments elfData (sub32 base (spanOf (segments h.mem elfData)).minVaddr) phnumFuel 0
    (afterList s g outPages base count) = s' at *
  have hheap : s'.heap = { g with
      mem := Elf.imageMem h.mem g.mem elfData base count outPages } := by
    rw [hpass, Loader.mem, hheap0]
    rfl
  have hentry : eEntry s'.mem elfData = eEntry h.mem elfData := by
    refine SameOn.load32 (S := InFile elfData elfSize) (fun x hin => ?_)
      (hheld.within (by omega) (by omega))
    rw [Loader.mem, hheap]
    refine ((hp.imageMem hheld hfile hcount).1 x fun a ha => ?_).trans (hp.keptList _ x hin)
    obtain ⟨-, hlow, hhigh⟩ := hp.placeable hheld hfile hcount ha
    by_contra hover
    exact hp.apart x hin (.inl ⟨by omega, by omega⟩)
  refine ⟨s'.reading (add32 elfData 24) 4, ?_, hheap⟩
  rw [← hentry]
  exact hload s' rfl

/-! ## The theorem -/

/-- A loaded program: the page list, and the segments relative to the load base. -/
structure ImageLoaded (m : Memory) (elfData base count outPages loadBase : Nat) (l : Loaded) :
    Prop where
  /-- The page list is the frames of the allocation, one after the other. -/
  list : ∀ i, i < count → l.state.mem.load32 (outPages + 4 * i) = base + i * pageSize
  /-- The lowest segment goes to the first frame. -/
  first : ∃ a ∈ segments m elfData, (∀ b ∈ segments m elfData, a.vaddr ≤ b.vaddr) ∧
    add32 loadBase a.vaddr = base
  /-- All bytes of the segments lie in the frames. -/
  inside : ∀ a ∈ segments m elfData, ∀ j, j < a.memsz →
    base ≤ add32 loadBase (a.vaddr + j) ∧ add32 loadBase (a.vaddr + j) < base + count * pageSize
  /-- They are the data of the file, and zeros after it. -/
  bytes : ∀ a ∈ segments m elfData, ∀ j, j < a.memsz →
    l.state.mem (add32 loadBase (a.vaddr + j)) =
      if j < a.filesz then m (elfData + a.offset + j) else 0
  entry : l.entry = add32 loadBase (eEntry m elfData)

/-- Two files that differ in the order of their program headers: the same identification and
entry, the same `PT_LOAD` headers in any order, and the same data for each. -/
structure Reordered (m m' : Memory) (elfData : Nat) : Prop where
  ident : ∀ k, k < elfIdent.length → m' (add32 elfData k) = m (add32 elfData k)
  entry : eEntry m' elfData = eEntry m elfData
  segments : (segments m elfData).Perm (segments m' elfData)
  data : ∀ a ∈ Elf.segments m elfData, ∀ j, j < a.filesz →
    m' (elfData + a.offset + j) = m (elfData + a.offset + j)

/-- Two loads with the same result: all is equal but the bytes of the file. -/
structure SameResult (elfData elfSize : Nat) (l l' : Loaded) : Prop where
  entry : l'.entry = l.entry
  out : l'.out = l.out
  heap : l'.state.heap = { l.state.heap with mem := l'.state.mem }
  mem : SameOn (fun x => ¬ InFile elfData elfSize x) l.state.mem l'.state.mem

theorem Reordered.accepted (hre : Reordered h.mem m elfData) :
    Accepted { h with mem := m } elfData ↔ Accepted h elfData := by
  have hident : Identified m elfData ↔ Identified h.mem elfData :=
    forall_congr' fun k => forall_congr' fun hk => by rw [hre.ident k hk]
  have hempty : Elf.segments m elfData ≠ [] ↔ Elf.segments h.mem elfData ≠ [] := by
    rw [not_iff_not]
    exact ⟨fun h0 => List.Perm.eq_nil (h0 ▸ hre.segments),
      fun h0 => List.Perm.eq_nil (h0 ▸ hre.segments.symm)⟩
  rw [Accepted, Accepted, ← spanOf_perm hre.segments]
  exact and_congr hident (and_congr hempty Iff.rfl)

/-- What is in the memory of a loaded program. -/
theorem Prepared.image (hp : Prepared h elfData elfSize count base outPages g)
    (hheld : Held h elfData elfSize) (hfile : WellFormed h.mem elfData elfSize)
    (hcount : count = pageCount (spanOf (segments h.mem elfData)))
    (hne : segments h.mem elfData ≠ []) {l : Loaded}
    (hmem : l.state.mem = Elf.imageMem h.mem g.mem elfData base count outPages)
    (hentry : l.entry = add32 (sub32 base (spanOf (segments h.mem elfData)).minVaddr)
      (eEntry h.mem elfData)) :
    ImageLoaded h.mem elfData base count outPages
      (sub32 base (spanOf (segments h.mem elfData)).minVaddr) l := by
  have hspan := spanOf_spans hfile.noWrap
  obtain ⟨hout, hbytes⟩ := hp.imageMem hheld hfile hcount
  have hplace := fun a ha => hp.placeable hheld hfile hcount (a := a) ha
  have hlow := hp.frames.low
  have hfits := hp.frames.fits
  have hlist := hp.list.2
  have hfirst : ∃ a ∈ segments h.mem elfData,
      (∀ b ∈ segments h.mem elfData, a.vaddr ≤ b.vaddr) ∧
        a.vaddr = (spanOf (segments h.mem elfData)).minVaddr := by
    obtain ⟨a, ha, heq⟩ := hspan.least hne
    exact ⟨a, ha, fun b hb => heq ▸ hspan.low b hb, heq⟩
  rw [← hmem] at hout hbytes
  generalize (spanOf (segments h.mem elfData)).minVaddr = low at *
  have hat : ∀ a ∈ segments h.mem elfData, ∀ j, j < a.memsz →
      add32 (sub32 base low) (a.vaddr + j) = destOf base low a + j := by
    intro a ha j hj
    obtain ⟨hpl, h1, h2⟩ := hplace a ha
    have habove := hpl.above
    rw [add32_sub32 (by omega) (by simp only [destOf] at *; omega)]
    simp only [destOf]
    omega
  refine ⟨fun i hi => ?_, ?_, fun a ha j hj => ?_, fun a ha j hj => ?_, hentry⟩
  · -- the list lies below the frames
    have hword : l.state.mem.load32 (outPages + 4 * i) =
        (g.mem.fillTable outPages (fun k => add32 base (k * pageSize)) count).load32
          (outPages + 4 * i) := by
      refine load32_congr fun x h1 h2 => hout x fun a ha => ?_
      obtain ⟨-, hdest, -⟩ := hplace a ha
      omega
    have hentry : (g.mem.fillTable outPages (fun k => add32 base (k * pageSize)) count).entry
        outPages i = add32 base (i * pageSize) := entry_fillTable hi (add32_lt _ _)
    refine (hword.trans hentry).trans (add32_of_lt ?_)
    have hmul : (i + 1) * pageSize ≤ count * pageSize := Nat.mul_le_mul_right _ hi
    simp only [pageSize] at *
    omega
  · obtain ⟨a, ha, hleast, rfl⟩ := hfirst
    have hbase : base + count * pageSize ≤ 2 ^ 32 ∧ 0 < count := ⟨hfits, hp.frames.pos⟩
    refine ⟨a, ha, hleast, ?_⟩
    rw [add32_sub32 (Nat.le_refl _) (by simp only [pageSize] at *; omega), Nat.sub_self, Nat.add_zero]
  · obtain ⟨-, h1, h2⟩ := hplace a ha
    rw [hat a ha j hj]
    omega
  · rw [hat a ha j hj]
    exact hbytes a ha j hj

/-- Two images of the same segments, in memories that agree outside the file. -/
theorem Prepared.image_sameOn {g' : Kheap}
    (hp : Prepared h elfData elfSize count base outPages g)
    (hp' : Prepared { h with mem := m } elfData elfSize count base outPages g')
    (hheld : Held h elfData elfSize) (hheld' : Held { h with mem := m } elfData elfSize)
    (hfile : WellFormed h.mem elfData elfSize) (hfile' : WellFormed m elfData elfSize)
    (hre : Reordered h.mem m elfData)
    (hcount : count = pageCount (spanOf (segments h.mem elfData)))
    (hsame : SameOn (fun x => ¬ InFile elfData elfSize x) g.mem g'.mem) :
    SameOn (fun x => ¬ InFile elfData elfSize x)
      (Elf.imageMem h.mem g.mem elfData base count outPages)
      (Elf.imageMem m g'.mem elfData base count outPages) := by
  have hspan := spanOf_perm hre.segments
  obtain ⟨hout, hbytes⟩ := hp.imageMem hheld hfile hcount
  obtain ⟨hout', hbytes'⟩ := hp'.imageMem hheld' hfile' (hspan ▸ hcount)
  simp only [← hspan] at hout' hbytes'
  generalize (spanOf (segments h.mem elfData)).minVaddr = low at *
  intro x hx
  by_cases hin : ∃ a ∈ segments h.mem elfData,
      destOf base low a ≤ x ∧ x < destOf base low a + a.memsz
  · obtain ⟨a, ha, h1, h2⟩ := hin
    have hj := hbytes a ha (x - destOf base low a) (by omega)
    have hj' := hbytes' a (hre.segments.mem_iff.mp ha) (x - destOf base low a) (by omega)
    rw [Nat.add_sub_cancel' h1] at hj hj'
    rw [hj, hj']
    split
    · next hlt => exact hre.data a ha _ hlt
    · rfl
  · have hno : ∀ a ∈ segments h.mem elfData, x < destOf base low a ∨
        destOf base low a + a.memsz ≤ x := by
      intro a ha
      by_contra hover
      exact hin ⟨a, ha, by omega, by omega⟩
    rw [hout x hno, hout' x fun a ha => hno a (hre.segments.mem_iff.mpr ha)]
    exact hsame.fillTable _ _ _ x hx

/-- For every well-formed file, `elf_load` either refuses it or loads it, and the order of the
program headers makes no difference for what it leaves. -/
theorem elf_load_image (h : Kheap) (hwf : h.Wf) (elfData elfSize : Nat)
    (hheld : Held h elfData elfSize) (hfile : WellFormed h.mem elfData elfSize)
    (hlist : ∀ l outPages count, elfLoad h elfData elfSize = some l →
      l.out = some (outPages, count) → outPages ≠ 0) :
    ∃ l, elfLoad h elfData elfSize = some l ∧
      (l.entry ≠ 0 → ∃ outPages count loadBase, l.out = some (outPages, count) ∧
        (h.pmm.pmmAllocContiguousUserPages count).1 ≠ 0 ∧
        ImageLoaded h.mem elfData (h.pmm.pmmAllocContiguousUserPages count).1 count outPages
          loadBase l) ∧
      ∀ m, SameOn (fun x => ¬ InFile elfData elfSize x) h.mem m → WellFormed m elfData elfSize →
        Reordered h.mem m elfData →
        ∃ l', elfLoad { h with mem := m } elfData elfSize = some l' ∧
          SameResult elfData elfSize l l' := by
  have hpmm : h.pmm.Wf := by
    obtain ⟨_, _, hl⟩ := hwf
    exact hl.pmm
  by_cases hacc : Accepted h elfData
  · obtain ⟨count, hcount⟩ : ∃ count, count = pageCount (spanOf (segments h.mem elfData)) := ⟨_, rfl⟩
    have hbase : (h.pmm.pmmAllocContiguousUserPages count).1 ≠ 0 := hcount ▸ hacc.2.2
    have hframes := frames_of_alloc hpmm hbase
    have hsize := hframes.count_le
    obtain ⟨tiles, fl, hl⟩ := wf_afterFrames hwf count
    obtain ⟨outPages, g, _, _, hk, _⟩ := hl.kmalloc (show count * 4 % 2 ^ 32 + 15 < 2 ^ 32 by omega)
    obtain ⟨_, _, hload⟩ := elfLoad_accepted elfSize hacc hcount rfl hk
    have hne := hlist _ outPages count (hload _ rfl) rfl
    have hp := prepared_of_kmalloc hwf hheld hbase hk hne
    obtain ⟨s, hrun, hheap⟩ := hp.run hheld hfile hacc hcount rfl hk
    refine ⟨_, hrun, fun _ => ⟨outPages, count, _, rfl, hbase, hp.image hheld hfile hcount hacc.2.1
      (congrArg Kheap.mem hheap) rfl⟩, fun m hm hfile' hre => ?_⟩
    -- the same allocations succeed beside the other file
    have hheld' : Held { h with mem := m } elfData elfSize := ⟨hheld.fits, hheld.heap, hheld.taken⟩
    have hwf' : Kheap.Wf { h with mem := m } := by
      obtain ⟨tiles, fl, hl⟩ := hwf
      exact ⟨tiles, fl, hl.of_same fun x hx => hm x fun hin => hheld.heap x hin hx⟩
    obtain ⟨m', hk', hsame⟩ := (wf_afterFrames hwf count).kmalloc_local (hheld.visible count) hm hk
    have hspan := spanOf_perm hre.segments
    have hp' : Prepared { h with mem := m } elfData elfSize count
        (h.pmm.pmmAllocContiguousUserPages count).1 outPages { g with mem := m' } :=
      prepared_of_kmalloc hwf' hheld' hbase hk' hne
    obtain ⟨s', hrun', hheap'⟩ := hp'.run hheld' hfile' (hre.accepted.mpr hacc) (hspan ▸ hcount) rfl hk'
    refine ⟨_, hrun', ?_, rfl, ?_, ?_⟩
    · rw [hre.entry, ← hspan]
    · simp only [Loader.mem, hheap, hheap']
    · simp only [Loader.mem, hheap, hheap']
      exact hp.image_sameOn hp' hheld hheld' hfile hfile' hre hcount hsame
  · obtain ⟨s, hrun, hheap, -⟩ := elfLoad_refused hpmm elfSize hacc
    refine ⟨_, hrun, fun hne => absurd rfl hne, fun m hm _ hre => ?_⟩
    obtain ⟨s', hrun', hheap', -⟩ := elfLoad_refused (h := { h with mem := m }) hpmm elfSize
      fun hacc' => hacc (hre.accepted.mp hacc')
    refine ⟨_, hrun', rfl, rfl, ?_, ?_⟩
    · simp only [Loader.mem, hheap, hheap']
    · simp only [Loader.mem, hheap, hheap']
      exact hm

/-- A file below the memory that the page allocator manages is held. -/
theorem held_of_low (hwf : h.Wf) (hend : elfData + elfSize ≤ managedBase) :
    Held h elfData elfSize := by
  obtain ⟨_, _, hl⟩ := hwf
  refine ⟨by simp only [managedBase] at hend; omega, fun x hin hx => ?_, fun x hin hx => ?_⟩
  · have hlow := (hl.pages _ hx).lower
    have hup := hin.2
    simp only [pageOf, pageSize] at hlow
    omega
  · have hlow := hx.1
    have hup := hin.2
    omega

/-- A file of two segments at `0x20000`: two bytes of data and two zeros at `0x1000`, one byte at
`0x1008`. -/
def sampleFile : List (BitVec 8) :=
  [0x7F#8, 0x45#8, 0x4C#8, 0x46#8, 1#8, 1#8] ++ List.replicate 18 0#8 ++
  -- `e_entry` and `e_phoff`
  [0x00#8, 0x10#8, 0#8, 0#8, 52#8, 0#8, 0#8, 0#8] ++ List.replicate 10 0#8 ++
  -- `e_phentsize` and `e_phnum`
  [32#8, 0#8, 2#8, 0#8] ++ List.replicate 6 0#8 ++
  [1#8, 0#8, 0#8, 0#8, 116#8, 0#8, 0#8, 0#8, 0x00#8, 0x10#8, 0#8, 0#8, 0#8, 0#8, 0#8, 0#8,
    2#8, 0#8, 0#8, 0#8, 4#8, 0#8, 0#8, 0#8] ++ List.replicate 8 0#8 ++
  [1#8, 0#8, 0#8, 0#8, 118#8, 0#8, 0#8, 0#8, 0x08#8, 0x10#8, 0#8, 0#8, 0#8, 0#8, 0#8, 0#8,
    1#8, 0#8, 0#8, 0#8, 1#8, 0#8, 0#8, 0#8] ++ List.replicate 8 0#8 ++
  [0xAA#8, 0xBB#8, 0xCC#8]

/-- Sixteen free pages of the kernel zone, and two of the user zone. -/
def samplePmm : Pmm where
  bitmap := fun n => if n < 2 then 0#8 else if n = 224 then 0b11111100#8 else 0xFF#8
  totalPages := 1800
  freePages := 18

theorem samplePmm_wf : samplePmm.Wf := by
  refine ⟨by decide +kernel, fun i hi _ => ?_⟩
  simp only [samplePmm, managedBase, pageSize] at *
  omega

/-- The heap, with a file at `0x20000`. -/
def heapWith (file : List (BitVec 8)) : Kheap :=
  Kheap.kheapInit (fun x => if x < 0x20000 then 0 else file.getD (x - 0x20000) 0) samplePmm

theorem heapWith_wf (file : List (BitVec 8)) : (heapWith file).Wf := kheapInit_wf _ samplePmm_wf

theorem sampleFile_wellFormed : WellFormed (heapWith sampleFile).mem 0x20000 119 := by
  have hsegments : segments (heapWith sampleFile).mem 0x20000 =
      [⟨116, 0x1000, 2, 4⟩, ⟨118, 0x1008, 1, 1⟩] := by
    decide +kernel
  refine ⟨by decide, by decide +kernel, ?_, ?_, ?_, ?_⟩
  · rw [hsegments]
    decide
  · rw [hsegments]
    decide
  · rw [hsegments]
    decide
  · rw [hsegments]
    simp only [List.pairwise_cons, List.mem_singleton, forall_eq, List.not_mem_nil, false_implies,
      implies_true, List.Pairwise.nil, and_true, Segment.Covers]
    omega

/-- The file with two segments is loaded. -/
theorem elf_load_image_sample :
    ∃ l, elfLoad (heapWith sampleFile) 0x20000 119 = some l ∧
      (l.entry ≠ 0 → ∃ outPages count loadBase, l.out = some (outPages, count) ∧
        ((heapWith sampleFile).pmm.pmmAllocContiguousUserPages count).1 ≠ 0 ∧
        ImageLoaded (heapWith sampleFile).mem 0x20000
          ((heapWith sampleFile).pmm.pmmAllocContiguousUserPages count).1 count outPages
          loadBase l) ∧
      ∀ m, SameOn (fun x => ¬ InFile 0x20000 119 x) (heapWith sampleFile).mem m →
        WellFormed m 0x20000 119 → Reordered (heapWith sampleFile).mem m 0x20000 →
        ∃ l', elfLoad { heapWith sampleFile with mem := m } 0x20000 119 = some l' ∧
          SameResult 0x20000 119 l l' := by
  refine elf_load_image (heapWith sampleFile) (heapWith_wf _) 0x20000 119
    (held_of_low (heapWith_wf _) (by decide)) sampleFile_wellFormed fun l outPages count hrun hout => ?_
  have hvalue : (elfLoad (heapWith sampleFile) 0x20000 119).map (fun l => l.out) =
      some (some (0x100008, 1)) := by
    decide +kernel
  rw [hrun, Option.map_some, hout] at hvalue
  obtain ⟨rfl, -⟩ := Prod.mk.inj (Option.some.inj (Option.some.inj hvalue))
  decide

end Elf

end Kumo
