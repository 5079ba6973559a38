import Kumo.Mm.KheapInvariant

/-!
# What the heap operations do to a layout

One specification for each function of the allocator, over the layouts of
`KheapInvariant`. `Laid.kmalloc` needs nothing but the layout. `Laid.kfree` needs the
page of the freed block to begin with a block header: this is where the backward
walk starts, and a block that spans the page start has its payload there.
-/

namespace Kumo

open Memory LinkedList

section Ops

variable {h : Kheap} {L : Layout} {tiles : Tiles} {fl : List Nat} {a b c n m : Nat}

/-! ## Pages -/

/-- The heap does not depend on pages that others take from the page allocator. -/
theorem Laid.of_pmm {p : Pmm} (hl : Laid h L) (hp : p.Wf)
    (hused : ∀ i, h.pmm.used i = true → p.used i = true) : Laid { h with pmm := p } L :=
  { hl with
    pages := fun page hpage =>
      have hpg := hl.pages page hpage
      ⟨hpg.aligned, hpg.lower, hpg.upper, hused _ hpg.taken⟩
    pmm := hp }

/-- The heap only looks at its own pages. -/
theorem Laid.of_same {m : Memory} (hl : Laid h L)
    (hsame : ∀ x, h.InHeap x → m x = h.mem x) : Laid { h with mem := m } L := by
  have hf : ∀ a n, L.tiles a = some n → fields m a = fields h.mem a := by
    intro a n ha
    refine fields_congr fun x hx => hsame x ?_
    exact hl.covers.inside a x (hl.mem_fields ha hx)
  have hlisted : ∀ a ∈ L.listed, fields m a = fields h.mem a := by
    intro a ha
    obtain ⟨n, hn⟩ := hl.listed_tile ha
    exact hf a n hn
  exact { hl with
    size := fun a n ha => (congrArg Fields.size (hf a n ha)).trans (hl.size a n ha)
    flag := fun a n ha hT => (congrArg Fields.free (hf a n ha)).trans (hl.flag a n ha hT)
    chain := hl.chain.congr (fun a ha => congrArg Fields.next (hlisted a ha))
      (fun a ha => congrArg Fields.prev (hlisted a ha)) }

/-- A write into the payloads of busy blocks disturbs no header and no link of a listed block. -/
theorem Laid.of_payload {mem : Memory} (hl : Laid h L)
    (hmem : ∀ x, mem x = h.mem x ∨ ∃ a n, L.Busy a n ∧ a + headerSize ≤ x ∧ x < a + n) :
    Laid { h with mem := mem } L := by
  have hheader : ∀ d n, L.tiles d = some n → ∀ x, d ≤ x → x < d + 8 → mem x = h.mem x := by
    intro d n hd x h1 h2
    refine (hmem x).resolve_right ?_
    rintro ⟨a, k, hbusy, hax, hxk⟩
    have hd16 := (hl.shape d n hd).2.2
    have heq := hl.covers.unique (x := x) ⟨n, hd, by omega, by omega⟩
      ⟨k, hbusy.1, by omega, by omega⟩
    simp only [headerSize] at hax
    omega
  have hlinks : ∀ d ∈ L.listed, ∀ x, d ≤ x → x < d + 16 → mem x = h.mem x := by
    intro d hd x h1 h2
    refine (hmem x).resolve_right ?_
    rintro ⟨a, k, hbusy, hax, hxk⟩
    obtain ⟨n, hn⟩ := hl.listed_tile hd
    have hd16 := (hl.shape d n hn).2.2
    have heq := hl.covers.unique (x := x) ⟨n, hn, by omega, by omega⟩
      ⟨k, hbusy.1, by omega, by omega⟩
    exact hbusy.2.1 (heq ▸ hd)
  refine ⟨hl.pages, hl.pmm, hl.covers, hl.shape, ?_, ?_, ?_, hl.nodup, hl.tile, hl.apart⟩
  · intro d n hd
    refine (load32_congr fun x h1 h2 => ?_).trans (hl.size d n hd)
    exact hheader d n hd x h1 (by omega)
  · intro d n hd hT
    refine (load32_congr fun x h1 h2 => ?_).trans (hl.flag d n hd hT)
    exact hheader d n hd x (by omega) (by omega)
  · refine hl.chain.congr (fun d hd => ?_) (fun d hd => ?_)
    · exact load32_congr fun x h1 h2 => hlinks d hd x (by omega) (by omega)
    · exact load32_congr fun x h1 h2 => hlinks d hd x (by omega) (by omega)

theorem mem_pageList {base count page : Nat} :
    page ∈ Kheap.pageList base count ↔ ∃ i, i < count ∧ base + i * pageSize = page := by
  simp [Kheap.pageList]

/-- Pages that were free become one free block, and no other block changes. -/
theorem Laid.addRegion {base count : Nat} {p : Pmm} (hl : Laid h ⟨tiles, fl, []⟩) (hp : p.Wf)
    (hused : ∀ i, h.pmm.used i = true → p.used i = true)
    (htotal : p.totalPages = h.pmm.totalPages) (hcount : 0 < count)
    (hpages : ∀ i, i < count → p.KernelPage (base + i * pageSize))
    (hfree : ∀ i, i < count → h.pmm.used (Pmm.pageIndex (base + i * pageSize)) = false) :
    Laid ({ h with pmm := p }.addRegion base count)
        ⟨tiles.add base (count * pageSize), base :: fl, []⟩ ∧
      Keeps c h ⟨tiles, fl, []⟩ ({ h with pmm := p }.addRegion base count)
        ⟨tiles.add base (count * pageSize), base :: fl, []⟩ := by
  have hfresh : ∀ i, i < count → base + i * pageSize ∉ h.heapPages := by
    intro i hi hmem
    have htaken := (hl.pages _ hmem).taken
    rw [hfree i hi] at htaken
    cases htaken
  have hbase := (hpages 0 hcount).aligned
  have hlow := (hpages 0 hcount).lower
  have hup := (hpages (count - 1) (by omega)).upper
  simp only [pageSize, managedBase, userMemStart] at hbase hlow hup
  have hnew : ∀ x, (∃ i, i < count ∧ base + i * pageSize = pageOf x) ↔
      base ≤ x ∧ x < base + count * pageSize := by
    intro x
    simp only [pageOf, pageSize]
    constructor
    · rintro ⟨i, hi, heq⟩
      omega
    · rintro ⟨h1, h2⟩
      exact ⟨(x - base) / 4096, by omega, by omega⟩
  have hout : ∀ x, base ≤ x → x < base + count * pageSize → ¬ h.InHeap x := by
    intro x h1 h2 hin
    obtain ⟨i, hi, heq⟩ := (hnew x).mpr ⟨h1, h2⟩
    exact hfresh i hi (heq ▸ hin)
  have hfar : ∀ d k x, tiles d = some k → d ≤ x → x < d + k →
      x < base ∨ base + count * pageSize ≤ x := by
    intro d k x hd h1 h2
    have hin := hl.covers.inside d x ⟨k, hd, h1, h2⟩
    by_contra hx
    exact hout x (by omega) (by omega) hin
  have hsame : ∀ d k x, tiles d = some k → d ≤ x → x < d + k →
      h.mem.store32 base (count * pageSize) x = h.mem x := by
    intro d k x hd h1 h2
    have := hfar d k x hd h1 h2
    simp only [pageSize] at this
    exact store32_outside (by omega)
  have hf : ∀ d k, tiles d = some k →
      fields (h.mem.store32 base (count * pageSize)) d = fields h.mem d := by
    intro d k hd
    have := (hl.shape d k hd).2.2
    exact fields_congr fun x hx => hsame d k x hd hx.1 (by have := hx.2; omega)
  have hlinks : ∀ d ∈ fl, fields (h.mem.store32 base (count * pageSize)) d = fields h.mem d := by
    intro d hd
    obtain ⟨k, hk⟩ := hl.listed_tile hd
    exact hf d k hk
  have hnone : tiles base = none := by
    cases ht : tiles base with
    | none => rfl
    | some k =>
        have := hl.covers.pos base k ht
        have := hfar base k base ht (Nat.le_refl _) (by omega)
        simp only [pageSize] at this
        omega
  have hbusy : ∀ d k, Layout.Busy ⟨tiles.add base (count * pageSize), fl, [base]⟩ d k ↔
      Layout.Busy ⟨tiles, fl, []⟩ d k := by
    intro d k
    simp only [Layout.Busy, Tiles.add_apply, List.mem_singleton, List.not_mem_nil,
      not_false_eq_true, and_true]
    by_cases hd : d = base
    · simp [hd, hnone]
    · simp [hd]
  set h1 : Kheap := { h with
    mem := h.mem.store32 base (count * pageSize)
    heapPages := h.heapPages ++ Kheap.pageList base count
    pmm := p } with hh1
  have hl1 : Laid h1 ⟨tiles.add base (count * pageSize), fl, [base]⟩ := by
    refine ⟨?_, hp, ?_, ?_, ?_, ?_, ?_, hl.nodup, ?_, ?_⟩
    · intro page hpage
      rcases List.mem_append.mp hpage with hold | hnew
      · exact (hl.of_pmm hp hused).pages page hold
      · obtain ⟨i, hi, rfl⟩ := mem_pageList.mp hnew
        exact hpages i hi
    · refine (hl.covers.add (a := base) (n := count * pageSize) ?_ hout).congr fun x => ?_
      · simp only [pageSize]
        omega
      · show _ ↔ pageOf x ∈ h.heapPages ++ Kheap.pageList base count
        rw [List.mem_append, mem_pageList, hnew]
        rfl
    · intro d k hd
      simp only [Tiles.add_apply] at hd
      split at hd
      · next heq =>
          obtain rfl := Option.some.inj hd
          simp only [pageSize]
          omega
      · exact hl.shape d k hd
    · intro d k hd
      simp only [Tiles.add_apply] at hd
      split at hd
      · next heq =>
          obtain rfl := Option.some.inj hd
          rw [heq]
          refine (load32_store32 _ _ _).trans (Nat.mod_eq_of_lt ?_)
          simp only [pageSize]
          omega
      · exact (congrArg Fields.size (hf d k hd)).trans (hl.size d k hd)
    · intro d k hd hdT
      simp only [List.mem_singleton] at hdT
      simp only [Tiles.add_apply, if_neg hdT] at hd
      exact (congrArg Fields.free (hf d k hd)).trans (hl.flag d k hd (by simp))
    · exact hl.chain.congr (fun d hd => congrArg Fields.next (hlinks d hd))
        (fun d hd => congrArg Fields.prev (hlinks d hd))
    · intro d hd
      simp only [Tiles.add_apply]
      split
      · rfl
      · exact hl.tile d hd
    · intro d hd
      simp only [List.mem_singleton]
      rintro rfl
      have hsome : (tiles d).isSome = true := hl.tile d hd
      rw [hnone] at hsome
      cases hsome
  have hgrows : Grows h h1 := by
    refine ⟨fun page hpage => List.mem_append_left _ hpage, fun page hpage => ?_, hused, htotal,
      fun x hx => ?_⟩
    · rcases List.mem_append.mp hpage with hold | hnew
      · exact .inl hold
      · obtain ⟨i, hi, rfl⟩ := mem_pageList.mp hnew
        exact .inr (hfree i hi)
    · have hnot : ¬ (base ≤ x ∧ x < base + count * pageSize) := fun hin =>
        hx (List.mem_append_right _ (mem_pageList.mpr ((hnew x).mpr hin)))
      simp only [pageSize] at hnot
      exact store32_outside (by omega)
  have hk1 : Keeps c h ⟨tiles, fl, []⟩ h1 ⟨tiles.add base (count * pageSize), fl, [base]⟩ :=
    ⟨fun d k _ => hbusy d k, fun d k x _ hd hx hxk => hsame d k x hd.1 hx hxk, hgrows⟩
  have htile : tiles.add base (count * pageSize) base = some (count * pageSize) := by
    rw [Tiles.add_apply, if_pos rfl]
  have hins := hl1.flInsert (c := c) htile (by simp)
  exact ⟨hins.1, hk1.trans hins.2⟩

/-- A run of pages from the page allocator is usable as a heap region. -/
theorem Laid.granted_region {count : Nat} (hl : Laid h ⟨tiles, fl, []⟩)
    (hbase : (h.pmm.pmmAllocContiguousPages count).1 ≠ 0) :
    Laid ({ h with pmm := (h.pmm.pmmAllocContiguousPages count).2 }.addRegion
        (h.pmm.pmmAllocContiguousPages count).1 count)
      ⟨tiles.add (h.pmm.pmmAllocContiguousPages count).1 (count * pageSize),
        (h.pmm.pmmAllocContiguousPages count).1 :: fl, []⟩ ∧
    Keeps c h ⟨tiles, fl, []⟩
      ({ h with pmm := (h.pmm.pmmAllocContiguousPages count).2 }.addRegion
        (h.pmm.pmmAllocContiguousPages count).1 count)
      ⟨tiles.add (h.pmm.pmmAllocContiguousPages count).1 (count * pageSize),
        (h.pmm.pmmAllocContiguousPages count).1 :: fl, []⟩ := by
  have hpages := fun i => hl.pmm.kernel_pages (c := .contiguous count) (i := i) rfl hbase
  have hpos : 0 < count := by
    rcases hl.pmm.call_cases (.contiguous count) with heq | ⟨_, hpos, _⟩
    · exact absurd (congrArg Prod.fst heq) hbase
    · exact hpos
  exact hl.addRegion (hl.pmm.call (.contiguous count))
    (fun i hi => Pmm.used_call (.contiguous count) hi)
    (h.pmm.totalPages_call (.contiguous count)) hpos (fun i hi => (hpages i hi).1)
    (fun i hi => (hpages i hi).2)

/-- A heap without pages. -/
theorem Laid.empty (mem : Memory) {p : Pmm} (hp : p.Wf) :
    Laid ⟨mem, 0, [], p⟩ ⟨fun _ => none, [], []⟩ := by
  refine ⟨by simp, hp, ⟨by simp, by simp, ?_, ?_⟩, by simp, by simp, by simp, rfl, .nil, by simp,
    by simp⟩
  · rintro a x ⟨n, hn, _⟩
    cases hn
  · intro x hx
    simp [Kheap.InHeap] at hx

/-- `kheap_init` lays out a heap without busy blocks, with or without a first region. -/
theorem laid_kheapInit (mem : Memory) {p : Pmm} (hp : p.Wf) :
    ∃ tiles fl, Laid (Kheap.kheapInit mem p) ⟨tiles, fl, []⟩ ∧
      Keeps 0 ⟨mem, 0, [], p⟩ ⟨fun _ => none, [], []⟩ (Kheap.kheapInit mem p) ⟨tiles, fl, []⟩ := by
  by_cases hbase : (p.pmmAllocContiguousPages heapInitPages).1 = 0
  · simp only [Kheap.kheapInit, hbase, if_true]
    refine ⟨_, _, .empty mem (hp.call (.contiguous heapInitPages)), fun _ _ _ => Iff.rfl,
      fun _ _ _ _ _ _ _ => rfl, fun _ h => h, fun _ h => .inl h,
      fun i => Pmm.used_call (.contiguous heapInitPages),
      p.totalPages_call (.contiguous heapInitPages), fun _ _ => rfl⟩
  · simp only [Kheap.kheapInit, hbase, if_false]
    exact ⟨_, _, (Laid.empty mem hp).granted_region hbase⟩

/-- What an expansion does: nothing to the layout when it fails, a new free block when it
succeeds. -/
theorem Laid.heapExpand (hl : Laid h ⟨tiles, fl, []⟩) :
    ∃ tiles' fl', Laid h.heapExpand.2 ⟨tiles', fl', []⟩ ∧ tiles.StartsKept tiles' ∧
      (∀ c, Keeps c h ⟨tiles, fl, []⟩ h.heapExpand.2 ⟨tiles', fl', []⟩) ∧
      (h.heapExpand.1 = true → h.heapPages.length < maxHeapPages ∧
        h.heapPages.length < h.heapExpand.2.heapPages.length) := by
  unfold Kheap.heapExpand
  split
  · exact ⟨tiles, fl, hl, .refl _, fun c => Keeps.refl c _ _, by simp⟩
  · next hroom =>
      by_cases hbase : (h.pmm.pmmAllocContiguousPages expandPages).1 = 0
      · have hl' := hl.of_pmm (hl.pmm.call (.contiguous expandPages))
          (fun i hi => Pmm.used_call (.contiguous expandPages) hi)
        simp only [hbase, if_true]
        have hgrows : Grows h { h with pmm := (h.pmm.pmmAllocContiguousPages expandPages).2 } :=
          ⟨fun _ hpage => hpage, fun _ hpage => .inl hpage,
            fun i hi => Pmm.used_call (.contiguous expandPages) hi,
            h.pmm.totalPages_call (.contiguous expandPages), fun _ _ => rfl⟩
        exact ⟨tiles, fl, hl', .refl _,
          fun c => ⟨fun _ _ _ => Iff.rfl, fun _ _ _ _ _ _ _ => rfl, hgrows⟩, by simp⟩
      · simp only [hbase, if_false]
        have hreg := fun c => hl.granted_region (c := c) hbase
        refine ⟨_, _, (hreg 0).1, Tiles.startsKept_add _ _ _, fun c => (hreg c).2, fun _ => ?_⟩
        have hlen : ∀ g : Kheap, ∀ base, (g.addRegion base expandPages).heapPages.length =
            g.heapPages.length + expandPages := by
          intro g base
          simp [Kheap.addRegion, Kheap.flInsert, Kheap.pageList]
        rw [hlen]
        simp only [expandPages, maxHeapPages] at *
        omega

/-! ## Allocation -/

/-- The free list is shorter than any walk along it may take. -/
theorem Laid.listed_length (hl : Laid h L) : L.listed.length < walkFuel := by
  have hsub : L.listed ⊆ List.range userMemStart := by
    intro a ha
    obtain ⟨n, hn⟩ := hl.listed_tile ha
    have := (hl.bounds hn).2
    have := hl.covers.pos a n hn
    exact List.mem_range.mpr (by omega)
  have hle := (List.subperm_of_subset hl.nodup hsub).length_le
  rw [List.length_range] at hle
  simp only [userMemStart, walkFuel] at *
  omega

/-- The first-fit walk ends. What it finds is on the list and large enough, and it finds nothing
only if no block is. -/
theorem firstFit_chain {mem : Memory} {fuel p head : Nat} {l : List Nat} (needed : Nat)
    (hc : Chain (nextPtr mem) (prevPtr mem) p head l) (hfuel : l.length < fuel) :
    (Kheap.firstFit mem needed fuel head = some none ∧ ∀ b ∈ l, blockSize mem b < needed) ∨
      ∃ b ∈ l, Kheap.firstFit mem needed fuel head = some (some b) ∧ needed ≤ blockSize mem b := by
  induction l generalizing p head fuel with
  | nil =>
      obtain ⟨fuel, rfl⟩ := Nat.exists_eq_succ_of_ne_zero (by omega : fuel ≠ 0)
      obtain rfl := hc
      exact .inl ⟨by rw [Kheap.firstFit, if_pos rfl], by simp⟩
  | cons b l ih =>
      obtain ⟨rfl, hb, _, hrest⟩ := hc
      obtain ⟨fuel, rfl⟩ := Nat.exists_eq_succ_of_ne_zero (by omega : fuel ≠ 0)
      rw [Kheap.firstFit, if_neg hb]
      by_cases hfit : needed ≤ blockSize mem head
      · exact .inr ⟨head, by simp, by rw [if_pos hfit], hfit⟩
      · rw [if_neg hfit]
        rcases ih hrest (by simpa using hfuel) with ⟨hnone, hsmall⟩ | ⟨d, hd, hsome, hle⟩
        · exact .inl ⟨hnone, List.forall_mem_cons.mpr ⟨by omega, hsmall⟩⟩
        · exact .inr ⟨d, List.mem_cons_of_mem _ hd, hsome, hle⟩

/-- Following `next` from the head lists the free blocks. -/
def Kheap.freeListFrom (mem : Memory) : Nat → Nat → List Nat
  | 0, _ => []
  | fuel + 1, b => if b = 0 then [] else b :: freeListFrom mem fuel (nextPtr mem b)

/-- The free blocks, as they are linked in memory. -/
def Kheap.freeList (h : Kheap) : List Nat := Kheap.freeListFrom h.mem walkFuel h.freeHead

theorem freeListFrom_chain {mem : Memory} {fuel p head : Nat} {l : List Nat}
    (hc : Chain (nextPtr mem) (prevPtr mem) p head l) (hfuel : l.length ≤ fuel) :
    Kheap.freeListFrom mem fuel head = l := by
  induction l generalizing p head fuel with
  | nil =>
      obtain rfl := hc
      cases fuel <;> simp [Kheap.freeListFrom]
  | cons b l ih =>
      obtain ⟨rfl, hb, _, hrest⟩ := hc
      obtain ⟨fuel, rfl⟩ :=
        Nat.exists_eq_succ_of_ne_zero (by rw [List.length_cons] at hfuel; omega : fuel ≠ 0)
      rw [Kheap.freeListFrom, if_neg hb, ih hrest (by simpa using hfuel)]

/-- The list in memory is the list of the layout. -/
theorem Laid.freeList_eq (hl : Laid h L) : h.freeList = L.listed :=
  freeListFrom_chain hl.chain (Nat.le_of_lt hl.listed_length)

/-- The block size for a request that does not wrap. -/
theorem neededSize_spec {size : Nat} (hsize : size + 15 < 2 ^ 32) :
    Kheap.neededSize size % 8 = 0 ∧ 16 ≤ Kheap.neededSize size ∧
      size + 8 ≤ Kheap.neededSize size := by
  have heq : Kheap.neededSize size = max 16 ((size + 7) / 8 * 8 + 8) := by
    have haligned : ((size + 7) % 2 ^ 32 / 8 * 8 + 8) % 2 ^ 32 = (size + 7) / 8 * 8 + 8 := by
      omega
    simp only [Kheap.neededSize, headerSize, minBlockSize, haligned]
    split <;> omega
  omega

/-- What serving a request from the listed block `b` makes of a layout: the block is cut, or it is
taken whole because the rest could not stand as a block. -/
inductive Layout.Takes (b needed : Nat) : Layout → Layout → Prop where
  | cut {tiles : Tiles} {fl : List Nat} {n : Nat} : b ∈ fl → tiles b = some n → needed + 16 ≤ n →
      Takes b needed ⟨tiles, fl, []⟩ ⟨tiles.split b n needed, put fl b (b + needed), []⟩
  | whole {tiles : Tiles} {fl : List Nat} : b ∈ fl →
      Takes b needed ⟨tiles, fl, []⟩ ⟨tiles, fl.erase b, []⟩

/-- Serving a request cuts blocks only. -/
theorem Layout.Takes.startsKept {needed : Nat} {L' : Layout} (ht : Layout.Takes b needed L L') :
    L.tiles.StartsKept L'.tiles := by
  cases ht with
  | cut _ _ _ => exact Tiles.startsKept_split _ _ _ _
  | whole _ => exact .refl _

/-- Taking a listed block that is large enough makes it busy. -/
theorem Laid.takeBlock {needed : Nat} (hl : Laid h ⟨tiles, fl, []⟩) (hb : b ∈ fl)
    (h8 : needed % 8 = 0) (hneeded : 16 ≤ needed) (hfit : needed ≤ blockSize h.mem b) :
    ∃ tiles' fl' n, Laid (h.takeBlock b needed) ⟨tiles', fl', []⟩ ∧
      Layout.Takes b needed ⟨tiles, fl, []⟩ ⟨tiles', fl', []⟩ ∧
      Keeps b h ⟨tiles, fl, []⟩ (h.takeBlock b needed) ⟨tiles', fl', []⟩ ∧
      Layout.Busy ⟨tiles', fl', []⟩ b n ∧ needed ≤ n := by
  obtain ⟨n, hn⟩ := hl.listed_tile hb
  have hsize := hl.size b n hn
  rw [hsize] at hfit
  unfold Kheap.takeBlock
  rw [hsize]
  by_cases hcut : minBlockSize ≤ n - needed
  · rw [if_pos hcut]
    simp only [minBlockSize] at hcut
    obtain ⟨hl1, hk1⟩ := hl.splitBlock (c := b) hb hn h8 hneeded (by omega) (by simp)
    have htile : tiles.split b n needed b = some needed := by
      rw [Tiles.split_apply, if_pos rfl]
    obtain ⟨hl2, hk2, hbusy⟩ := hl1.claim htile (by simp)
    exact ⟨_, _, needed, hl2, .cut hb hn (by omega), hk1.trans hk2, hbusy, Nat.le_refl _⟩
  · rw [if_neg hcut]
    obtain ⟨hl1, hk1⟩ := hl.flRemove (c := b) hb
    obtain ⟨hl2, hk2, hbusy⟩ := hl1.claim hn (by simp)
    exact ⟨_, _, n, hl2, .whole hb, hk1.trans hk2, hbusy, hfit⟩

/-- How an allocation ends: refused, or with a block that was not busy before. -/
inductive Allocated (h : Kheap) (L : Layout) (size : Nat) : Nat → Kheap → Layout → Prop where
  | refused (h' : Kheap) (L' : Layout) : (∀ c, Keeps c h L h' L') → Allocated h L size 0 h' L'
  | granted (b n : Nat) (h' : Kheap) (L' : Layout) : Keeps b h L h' L' → L'.Busy b n →
      (∀ k, ¬ L.Busy b k) → size + 8 ≤ n → Allocated h L size (b + headerSize) h' L'

theorem Laid.kmallocLoop {size needed fuel : Nat} (hl : Laid h ⟨tiles, fl, []⟩)
    (h8 : needed % 8 = 0) (hneeded : 16 ≤ needed) (hsize : size + 8 ≤ needed)
    (hfuel : maxHeapPages < fuel + h.heapPages.length) (hfuel0 : 0 < fuel) :
    ∃ p h' tiles' fl', Kheap.kmallocLoop needed fuel h = some (p, h') ∧
      Laid h' ⟨tiles', fl', []⟩ ∧ tiles.StartsKept tiles' ∧
      Allocated h ⟨tiles, fl, []⟩ size p h' ⟨tiles', fl', []⟩ := by
  induction fuel generalizing h tiles fl with
  | zero => omega
  | succ fuel ih =>
      rw [Kheap.kmallocLoop]
      rcases firstFit_chain _ hl.chain hl.listed_length with
        ⟨hnone, _⟩ | ⟨b, hb, hsome, hfit⟩
      · rw [hnone]
        obtain ⟨tiles1, fl1, hl1, hs1, hk1, hgrow⟩ := hl.heapExpand
        cases hexp : h.heapExpand with
        | mk ok h1 =>
            rw [hexp] at hl1 hk1 hgrow
            cases ok with
            | false => exact ⟨0, h1, tiles1, fl1, rfl, hl1, hs1, .refused _ _ hk1⟩
            | true =>
                obtain ⟨hroom, hlen⟩ := hgrow rfl
                have hlen : h.heapPages.length < h1.heapPages.length := hlen
                obtain ⟨p, h2, tiles2, fl2, hrun, hl2, hs2, halloc⟩ :=
                  ih hl1 (by omega) (by omega)
                refine ⟨p, h2, tiles2, fl2, hrun, hl2, hs1.trans hs2, ?_⟩
                cases halloc with
                | refused _ _ hk2 => exact .refused _ _ fun c => (hk1 c).trans (hk2 c)
                | granted b n _ _ hk2 hbusy hnew hn =>
                    refine .granted b n _ _ ((hk1 b).trans hk2) hbusy (fun k hold => ?_) hn
                    have hb0 := hl.ne_zero hold.1
                    exact hnew k (((hk1 0).busy b k hb0).mpr hold)
      · rw [hsome]
        obtain ⟨tiles1, fl1, n, hl1, ht1, hk1, hbusy, hn⟩ := hl.takeBlock hb h8 hneeded hfit
        refine ⟨_, _, tiles1, fl1, rfl, hl1, ht1.startsKept, .granted b n _ _ hk1 hbusy ?_ (by omega)⟩
        exact fun k hold => hold.2.1 hb

/-- `kmalloc` returns, keeps the layout, cuts blocks only, and touches no busy block. -/
theorem Laid.kmalloc_starts {size : Nat} (hl : Laid h ⟨tiles, fl, []⟩)
    (hsize : size + 15 < 2 ^ 32) :
    ∃ p h' tiles' fl', h.kmalloc size = some (p, h') ∧ Laid h' ⟨tiles', fl', []⟩ ∧
      tiles.StartsKept tiles' ∧
      Allocated h ⟨tiles, fl, []⟩ size p h' ⟨tiles', fl', []⟩ := by
  obtain ⟨h8, h16, hle⟩ := neededSize_spec hsize
  exact hl.kmallocLoop h8 h16 hle (by omega) (by omega)

/-- `kmalloc` returns, keeps the layout and touches no busy block. -/
theorem Laid.kmalloc {size : Nat} (hl : Laid h ⟨tiles, fl, []⟩) (hsize : size + 15 < 2 ^ 32) :
    ∃ p h' tiles' fl', h.kmalloc size = some (p, h') ∧ Laid h' ⟨tiles', fl', []⟩ ∧
      Allocated h ⟨tiles, fl, []⟩ size p h' ⟨tiles', fl', []⟩ := by
  obtain ⟨p, h', tiles', fl', hrun, hl', _, halloc⟩ := hl.kmalloc_starts hsize
  exact ⟨p, h', tiles', fl', hrun, hl', halloc⟩

/-- Whatever the outcome, the heap takes free pages only and writes in its own. -/
theorem Allocated.grows {size p : Nat} {h' : Kheap} {L' : Layout}
    (ha : Allocated h L size p h' L') : Grows h h' := by
  cases ha with
  | refused _ _ hk => exact (hk 0).grows
  | granted _ _ _ _ hk _ _ _ => exact hk.grows

/-! ## Release -/

/-- The page of a heap byte is wholly in the heap. -/
theorem inHeap_of_page {x y : Nat} (hx : h.InHeap x) (hpage : pageOf y = pageOf x) :
    h.InHeap y := by
  unfold Kheap.InHeap
  rw [hpage]
  exact hx

/-- What `coalesce_forward(b)` makes of a layout in which `b` is in transit: nothing, or the next
block of the page, which was listed, is absorbed. -/
inductive Layout.Forward (b : Nat) : Layout → Layout → Prop where
  | alone {tiles : Tiles} {fl : List Nat} {n : Nat} : tiles b = some n →
      pageOf b + pageSize ≤ b + n ∨ b + n ∉ fl → Forward b ⟨tiles, fl, [b]⟩ ⟨tiles, fl, [b]⟩
  | absorbs {tiles : Tiles} {fl : List Nat} {n m : Nat} : tiles b = some n → 0 < n →
      tiles (b + n) = some m → b + n < pageOf b + pageSize → b + n ∈ fl →
      Forward b ⟨tiles, fl, [b]⟩ ⟨tiles.merge b (b + n) (n + m), fl.erase (b + n), [b]⟩

/-- What `coalesce_backward(b)` and the insertion that may follow it make of a layout: `b` is put
on the list, or the block before it in the page, which is listed, absorbs it. -/
inductive Layout.Backward (b : Nat) : Layout → Layout → Prop where
  | inserted {tiles : Tiles} {fl : List Nat} {n : Nat} : tiles b = some n →
      b = pageOf b ∨ (∃ d k, tiles d = some k ∧ d + k = b ∧ d ∉ fl) →
      Backward b ⟨tiles, fl, [b]⟩ ⟨tiles, b :: fl, []⟩
  | absorbed {tiles : Tiles} {fl : List Nat} {d k n : Nat} : tiles d = some k → d + k = b →
      b ≠ pageOf b → tiles b = some n → d ∈ fl →
      Backward b ⟨tiles, fl, [b]⟩ ⟨tiles.merge d b (k + n), fl, []⟩

/-- What `kfree` of the block at `b` makes of a layout. -/
def Layout.Freed (b : Nat) (L L' : Layout) : Prop :=
  ∃ M, Layout.Forward b { L with transit := [b] } M ∧ Layout.Backward b M L'

/-- A block that begins a page is absorbed by none. -/
theorem Layout.Forward.pageStart {L' : Layout} (hf : Layout.Forward b L L') (ha : a % pageSize = 0)
    (hsome : (L.tiles a).isSome) : (L'.tiles a).isSome := by
  cases hf with
  | alone _ _ => exact hsome
  | absorbs _ hpos _ hin _ =>
      refine Tiles.isSome_merge ?_ hsome
      rintro rfl
      simp only [pageOf, pageSize] at *
      omega

theorem Layout.Backward.pageStart {L' : Layout} (hf : Layout.Backward b L L')
    (ha : a % pageSize = 0) (hsome : (L.tiles a).isSome) : (L'.tiles a).isSome := by
  cases hf with
  | inserted _ _ => exact hsome
  | absorbed _ _ hin _ _ =>
      refine Tiles.isSome_merge ?_ hsome
      rintro rfl
      simp only [pageOf, pageSize] at *
      omega

theorem Layout.Freed.pageStart {L' : Layout} (hf : Layout.Freed b L L') (ha : a % pageSize = 0)
    (hsome : (L.tiles a).isSome) : (L'.tiles a).isSome := by
  obtain ⟨M, hforward, hbackward⟩ := hf
  exact hbackward.pageStart ha (hforward.pageStart ha hsome)

/-- What `coalesce_forward(b)` does. -/
theorem Laid.coalesceForward_cases (hl : Laid h ⟨tiles, fl, [b]⟩) (hb : tiles b = some n) :
    (h.coalesceForward b = h ∧ (pageOf b + pageSize ≤ b + n ∨ b + n ∉ fl)) ∨
    ∃ m, tiles (b + n) = some m ∧ b + n < pageOf b + pageSize ∧ b + n ∈ fl ∧
      h.coalesceForward b =
        { h.flRemove (b + n) with mem := (h.flRemove (b + n)).mem.store32 b (n + m) } := by
  have h32 := hl.lt_word hb
  have hup := (hl.bounds hb).2
  have hpos := hl.covers.pos b n hb
  have hnext : blockAfter h.mem b = b + n := by
    rw [blockAfter, hl.size b n hb, Nat.mod_eq_of_lt h32]
  have hpend : (pageOf b + pageSize) % 2 ^ 32 = pageOf b + pageSize := by
    simp only [pageOf, pageSize, userMemStart] at *
    omega
  unfold Kheap.coalesceForward
  simp only [hnext, hpend]
  by_cases hcross : pageOf b + pageSize ≤ b + n
  · rw [if_pos hcross]
    exact .inl ⟨rfl, .inl hcross⟩
  · rw [if_neg hcross]
    -- the next block starts in the same page, so it is a block of the heap
    have hin : h.InHeap (b + n) := by
      refine inHeap_of_page (hl.covers.inside b b (hl.covers.start_mem hb)) ?_
      simp only [pageOf, pageSize] at *
      omega
    obtain ⟨m, hm⟩ := hl.covers.next_start hb hin
    have hflag := hl.flag (b + n) m hm (by simp; omega)
    by_cases hmem : b + n ∈ fl
    · rw [if_pos hmem] at hflag
      obtain ⟨hl1, -⟩ := hl.flRemove (c := 0) hmem
      have hs1 : blockSize (h.flRemove (b + n)).mem b = n := hl1.size b n hb
      have hs2 : blockSize (h.flRemove (b + n)).mem (b + n) = m := hl1.size (b + n) m hm
      rw [if_neg (by omega), hs1, hs2]
      exact .inr ⟨m, hm, by omega, hmem, rfl⟩
    · rw [if_neg hmem] at hflag
      rw [if_pos hflag]
      exact .inl ⟨rfl, .inr hmem⟩

/-- `coalesce_forward` keeps the layout and touches no busy block. -/
theorem Laid.coalesceForward (hl : Laid h ⟨tiles, fl, [b]⟩) (hb : tiles b = some n) :
    ∃ tiles' fl' n', Laid (h.coalesceForward b) ⟨tiles', fl', [b]⟩ ∧ tiles' b = some n' ∧
      (∀ c, Keeps c h ⟨tiles, fl, [b]⟩ (h.coalesceForward b) ⟨tiles', fl', [b]⟩) ∧
      Layout.Forward b ⟨tiles, fl, [b]⟩ ⟨tiles', fl', [b]⟩ := by
  rcases hl.coalesceForward_cases hb with ⟨hrun, hnext⟩ | ⟨m, hm, hin, hmem, hrun⟩
  · rw [hrun]
    exact ⟨tiles, fl, n, hl, hb, fun c => Keeps.refl c _ _, .alone hb hnext⟩
  · rw [hrun]
    have habs := fun c => (hl.flRemove (c := 0) hmem).1.absorb (c := c) hb hm (.inl (by simp))
    exact ⟨_, _, n + m, (habs 0).1, Tiles.merge_self ..,
      fun c => (hl.flRemove (c := c) hmem).2.trans (habs c).2,
      .absorbs hb (hl.covers.pos b n hb) hm hin hmem⟩

/-- The backward walk from a block in the page of `b` ends at the block just before `b`. -/
theorem Laid.walkBack {fuel curr : Nat} (prev : Nat) (hl : Laid h L) (hb : L.tiles b = some n)
    (hcurr : (L.tiles curr).isSome) (hpage : pageOf b ≤ curr) (hle : curr ≤ b)
    (hfuel : b - curr < fuel)
    (hprev : curr = b → ∃ k, L.tiles prev = some k ∧ prev + k = b) :
    ∃ d k, Kheap.walkBack h.mem b fuel prev curr = some d ∧ L.tiles d = some k ∧ d + k = b := by
  induction fuel generalizing curr prev with
  | zero => omega
  | succ fuel ih =>
      rw [Kheap.walkBack]
      by_cases hlt : curr < b
      · rw [if_pos hlt]
        obtain ⟨k, hk⟩ := Option.isSome_iff_exists.mp hcurr
        have hend := hl.covers.end_le hk (Option.isSome_iff_exists.mpr ⟨n, hb⟩) hlt
        have hpos := hl.covers.pos curr k hk
        have hafter : blockAfter h.mem curr = curr + k := by
          rw [blockAfter, hl.size curr k hk, Nat.mod_eq_of_lt (hl.lt_word hk)]
        rw [hafter]
        have hnext : (L.tiles (curr + k)).isSome := by
          by_cases heq : curr + k = b
          · rw [heq, hb]
            rfl
          · have hin : h.InHeap (curr + k) := by
              refine inHeap_of_page (hl.covers.inside b b (hl.covers.start_mem hb)) ?_
              simp only [pageOf, pageSize] at *
              omega
            exact Option.isSome_iff_exists.mpr (hl.covers.next_start hk hin)
        exact ih curr hnext (by omega) hend (by omega) (fun heq => ⟨k, hk, heq⟩)
      · rw [if_neg hlt]
        obtain ⟨k, hk, hkb⟩ := hprev (by omega)
        exact ⟨prev, k, rfl, hk, hkb⟩

/-- What `coalesce_backward(b)` does when the page of `b` begins with a block. -/
theorem Laid.coalesceBackward_cases (hl : Laid h ⟨tiles, fl, [b]⟩) (hb : tiles b = some n)
    (hstart : b ≠ pageOf b → (tiles (pageOf b)).isSome) :
    (h.coalesceBackward b = some (false, h) ∧
      (b = pageOf b ∨ ∃ d k, tiles d = some k ∧ d + k = b ∧ d ∉ fl)) ∨
    ∃ d k, tiles d = some k ∧ d + k = b ∧ b ≠ pageOf b ∧ d ∈ fl ∧
      h.coalesceBackward b = some (true, { h with mem := h.mem.store32 d (k + n) }) := by
  unfold Kheap.coalesceBackward
  by_cases hfirst : b = pageOf b
  · rw [if_pos hfirst]
    exact .inl ⟨rfl, .inl hfirst⟩
  · rw [if_neg hfirst]
    have hbound := (hl.bounds hb).2
    have hfuel : b - pageOf b < walkFuel := by
      simp only [walkFuel, userMemStart, pageOf, pageSize] at *
      omega
    have hpage : pageOf b ≤ b := by
      simp only [pageOf, pageSize]
      omega
    obtain ⟨d, k, hwalk, hd, hdb⟩ := hl.walkBack 0 hb (hstart hfirst) (Nat.le_refl _)
      hpage hfuel (fun heq => absurd heq.symm hfirst)
    have hd0 := hl.ne_zero hd
    have hkpos := hl.covers.pos d k hd
    have hflag := hl.flag d k hd (by simp; omega)
    simp only [hwalk, hd0, false_or]
    by_cases hmem : d ∈ fl
    · rw [if_pos hmem] at hflag
      rw [if_neg (by omega), hl.size d k hd, hl.size b n hb]
      exact .inr ⟨d, k, hd, hdb, hfirst, hmem, rfl⟩
    · rw [if_neg hmem] at hflag
      rw [if_pos hflag]
      exact .inl ⟨rfl, .inr ⟨d, k, hd, hdb, hmem⟩⟩

/-- `coalesce_backward` followed by the insertion that `kfree` makes when it finds nothing to merge
with. The page of `b` must begin with a block. -/
theorem Laid.coalesceBackward (hl : Laid h ⟨tiles, fl, [b]⟩) (hb : tiles b = some n)
    (hstart : b ≠ pageOf b → (tiles (pageOf b)).isSome) :
    ∃ merged h' tiles' fl', h.coalesceBackward b = some (merged, h') ∧
      Laid (if merged then h' else h'.flInsert b) ⟨tiles', fl', []⟩ ∧
      (∀ c, Keeps c h ⟨tiles, fl, [b]⟩ (if merged then h' else h'.flInsert b)
        ⟨tiles', fl', []⟩) ∧
      Layout.Backward b ⟨tiles, fl, [b]⟩ ⟨tiles', fl', []⟩ := by
  rcases hl.coalesceBackward_cases hb hstart with
    ⟨hrun, hprev⟩ | ⟨d, k, hd, rfl, hin, hmem, hrun⟩
  · have hins := fun c => hl.flInsert (c := c) hb (by simp)
    exact ⟨false, h, tiles, b :: fl, hrun, (hins 0).1, fun c => (hins c).2, .inserted hb hprev⟩
  · have habs := fun c => hl.absorb (c := c) hd hb (.inr hmem)
    exact ⟨true, _, _, _, hrun, (habs 0).1, fun c => (habs c).2, .absorbed hd rfl hin hb hmem⟩

/-- `kfree` of a block whose flag is clear: mark it, then merge it with its neighbours. -/
theorem Kheap.kfree_run (hflag : blockFree h.mem b = 0) :
    h.kfree (b + headerSize) =
      (Kheap.coalesceBackward (Kheap.coalesceForward { h with mem := h.mem.store32 (b + 4) 1 } b)
        b).map fun r => if r.1 then r.2 else r.2.flInsert b := by
  unfold Kheap.kfree
  rw [if_neg (by simp only [headerSize]; omega), Nat.add_sub_cancel]
  simp only [hflag, ne_eq, not_true_eq_false, if_false]
  cases Kheap.coalesceBackward _ b with
  | none => rfl
  | some r =>
      obtain ⟨merged, g⟩ := r
      cases merged <;> rfl

/-- `kfree` of a busy block returns, frees it and touches no other busy block, provided that the
page of the block begins with a block. -/
theorem Laid.kfree (hl : Laid h ⟨tiles, fl, []⟩) (hb : Layout.Busy ⟨tiles, fl, []⟩ b n)
    (hstart : b ≠ pageOf b → (tiles (pageOf b)).isSome) :
    ∃ h' tiles' fl', h.kfree (b + headerSize) = some h' ∧ Laid h' ⟨tiles', fl', []⟩ ∧
      Keeps b h ⟨tiles, fl, []⟩ h' ⟨tiles', fl', []⟩ ∧
      (∀ k, ¬ Layout.Busy ⟨tiles', fl', []⟩ b k) ∧
      Layout.Freed b ⟨tiles, fl, []⟩ ⟨tiles', fl', []⟩ := by
  obtain ⟨htile, hbfl, _⟩ := hb
  have hflag := hl.flag b n htile (by simp)
  rw [if_neg hbfl] at hflag
  obtain ⟨hl1, hk1⟩ := hl.mark htile hbfl
  obtain ⟨tiles2, fl2, n2, hl2, hb2, hk2, hforward⟩ := hl1.coalesceForward htile
  have hstart2 : b ≠ pageOf b → (tiles2 (pageOf b)).isSome := fun hne =>
    hforward.pageStart (Nat.mul_mod_left _ _) (hstart hne)
  obtain ⟨merged, h3, tiles3, fl3, hback, hl3, hk3, hbackward⟩ :=
    hl2.coalesceBackward hb2 hstart2
  have hrun : h.kfree (b + headerSize) = some (if merged then h3 else h3.flInsert b) := by
    rw [Kheap.kfree_run hflag, hback]
    rfl
  refine ⟨_, tiles3, fl3, hrun, hl3, hk1.trans ((hk2 b).trans (hk3 b)), fun k hbusy => ?_,
    ⟨_, hforward, hbackward⟩⟩
  -- the last step that could make `b` busy again started with `b` in transit
  have := ((hk3 0).busy b k (hl.ne_zero htile)).mp hbusy
  exact this.2.2 (by simp)

end Ops

end Kumo
