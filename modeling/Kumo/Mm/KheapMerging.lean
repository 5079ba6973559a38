import Kumo.Mm.KheapCapacity

/-!
# Heaps without neighbouring free blocks

`kheap.h` promises that every heap page starts with a block header. In such a heap no block
leaves its page, and the two merges of `kfree` find every free neighbour of the block they
free: if no two neighbours in a page are free, this stays so. `Tidy` puts that together with
the tiling of the pages and the exactness of the free list. It is kept by every call except
an expansion, which adds a block of four pages.
-/

namespace Kumo

open Memory LinkedList Transition

/-- Every page of the heap begins with a block, and no two blocks that follow each other in a page
are both listed. -/
structure Layout.Merged (h : Kheap) (L : Layout) : Prop where
  starts : ∀ page ∈ h.heapPages, (L.tiles page).isSome
  apart : ∀ a n, a ∈ L.listed → L.tiles a = some n → pageOf (a + n) = pageOf a → a + n ∉ L.listed

section Layouts

variable {h : Kheap} {L L' : Layout} {a b n needed : Nat}

/-- An address between two addresses of one page lies in that page. -/
theorem pageOf_between {x : Nat} (hax : a ≤ x) (hxb : x ≤ b) (hpage : pageOf b = pageOf a) :
    pageOf x = pageOf a := by
  have hlow : a / pageSize ≤ x / pageSize := Nat.div_le_div_right hax
  have hhigh : x / pageSize ≤ b / pageSize := Nat.div_le_div_right hxb
  have heq : b / pageSize = a / pageSize :=
    Nat.eq_of_mul_eq_mul_right (show 0 < pageSize by decide) hpage
  rw [pageOf, pageOf, Nat.le_antisymm (heq ▸ hhigh) hlow]

theorem lt_pageEnd (x : Nat) : x < pageOf x + pageSize := by
  simp only [pageOf, pageSize]
  omega

/-- An address before the end of its page lies in the page. -/
theorem pageOf_of_lt {x : Nat} (hax : a ≤ x) (hx : x < pageOf a + pageSize) :
    pageOf x = pageOf a := by
  simp only [pageOf, pageSize] at *
  omega

/-- Where pages begin with blocks, no block leaves its page. -/
theorem Layout.in_page (hc : L.tiles.Covers h.InHeap)
    (hstarts : ∀ page ∈ h.heapPages, (L.tiles page).isSome) (ha : L.tiles a = some n) : a + n ≤ pageOf a + pageSize := by
  by_contra hlong
  have hmem : L.tiles.Mem a (pageOf a + pageSize) := by
    refine ⟨n, ha, ?_, by omega⟩
    simp only [pageOf, pageSize]
    omega
  have hpage : pageOf (pageOf a + pageSize) = pageOf a + pageSize := by
    simp only [pageOf, pageSize]
    omega
  have hin := hc.inside a _ hmem
  rw [Kheap.InHeap, hpage] at hin
  -- the next page begins with a block, which would meet this one
  obtain ⟨m, hm⟩ := Option.isSome_iff_exists.mp (hstarts _ hin)
  have heq := hc.unique hmem (hc.start_mem hm)
  simp only [pageOf, pageSize] at heq
  omega

/-- Serving a request leaves no free neighbours behind: the rest of a block that is cut ends where
the block ended. -/
theorem Layout.Takes.apart (ht : Layout.Takes b needed L L') (hl : Laid h L) (hm : L.Merged h)
    (hneeded : 0 < needed) :
    ∀ a n, a ∈ L'.listed → L'.tiles a = some n → pageOf (a + n) = pageOf a →
      a + n ∉ L'.listed := by
  cases ht with
  | @cut tiles fl k hb htile hrest =>
      have hpage := Layout.in_page hl.covers hm.starts htile
      have hsame : pageOf (b + needed) = pageOf b := pageOf_of_lt (by omega) (by omega)
      intro a n ha hn hend hmem
      rcases (mem_put hb).mp ha with rfl | ⟨hafl, hab⟩
      · have hnk : n = k - needed := by
          have heq := (Tiles.split_apply tiles b k needed (b + needed)).symm.trans hn
          rw [if_neg (by omega), if_pos rfl] at heq
          exact (Option.some.inj heq).symm
        have hnext : b + needed + n = b + k := by omega
        rw [hnext] at hmem hend
        rcases (mem_put hb).mp hmem with heq | ⟨hlisted, -⟩
        · omega
        · exact hm.apart b k hb htile (hend.trans hsame) hlisted
      · obtain ⟨m, hma⟩ := hl.listed_tile hafl
        have hma : tiles a = some m := hma
        have hmpos := hl.covers.pos a m hma
        have hinside : ¬ (b ≤ a ∧ a < b + k) := fun hin =>
          hab (hl.covers.unique (hl.covers.start_mem hma) ⟨k, htile, hin⟩)
        have hnm : n = m := by
          have heq := (Tiles.split_apply tiles b k needed a).symm.trans hn
          rw [if_neg hab, if_neg (by omega), hma] at heq
          exact (Option.some.inj heq).symm
        subst hnm
        rcases (mem_put hb).mp hmem with heq | ⟨hlisted, -⟩
        · exact hab (hl.covers.unique (x := a + n - 1) ⟨n, hma, by omega, by omega⟩
            ⟨k, htile, by omega, by omega⟩)
        · exact hm.apart a n hafl hma hend hlisted
  | @whole tiles fl hb =>
      intro a n ha hn hend hmem
      exact hm.apart a n (List.mem_of_mem_erase ha) hn hend (List.mem_of_mem_erase hmem)

/-- After the forward merge the block that follows `b` in its page is not listed, and no other
neighbours have become free. -/
theorem Layout.Forward.apart {M : Layout} (hf : Layout.Forward b L M) (hnodup : L.listed.Nodup)
    (hbfl : b ∉ L.listed) (hm : L.Merged h) : (∀ a n, a ∈ M.listed → M.tiles a = some n → pageOf (a + n) = pageOf a →
      a + n ∉ M.listed) ∧
    ∀ n, M.tiles b = some n → pageOf (b + n) = pageOf b → b + n ∉ M.listed := by
  cases hf with
  | @alone tiles fl n hb hnext =>
      refine ⟨hm.apart, fun n' hn' hend => ?_⟩
      obtain rfl : n' = n := Option.some.inj (hn'.symm.trans hb)
      refine hnext.resolve_left fun hcross => ?_
      have hin := lt_pageEnd (b + n')
      rw [hend] at hin
      omega
  | @absorbs tiles fl n m hb hpos hnext hin hlisted =>
      constructor
      · intro a k ha hk hend hmem
        have hak := hnodup.mem_erase_iff.mp ha
        have hab : a ≠ b := fun heq => hbfl (heq ▸ hak.2)
        have htile : tiles a = some k := (Tiles.merge_other hab hak.1).symm.trans hk
        exact hm.apart a k hak.2 htile hend (List.mem_of_mem_erase hmem)
      · intro k hk hend hmem
        obtain rfl : n + m = k := Option.some.inj ((Tiles.merge_self ..).symm.trans hk)
        rw [← Nat.add_assoc] at hend hmem
        refine hm.apart (b + n) m hlisted hnext ?_ (List.mem_of_mem_erase hmem)
        exact hend.trans (pageOf_between (by omega) (by omega) hend).symm

/-- After the backward merge, or the insertion, no two neighbours are free. -/
theorem Layout.Backward.apart {S : Nat → Prop} (hf : Layout.Backward b L L')
    (hc : L.tiles.Covers S) (hbfl : b ∉ L.listed)
    (hpages : ∀ a n, L.tiles a = some n → a + n ≤ pageOf a + pageSize)
    (hother : ∀ a n, a ∈ L.listed → L.tiles a = some n → pageOf (a + n) = pageOf a →
      a + n ∉ L.listed)
    (hnext : ∀ n, L.tiles b = some n → pageOf (b + n) = pageOf b → b + n ∉ L.listed) :
    ∀ a n, a ∈ L'.listed → L'.tiles a = some n → pageOf (a + n) = pageOf a →
      a + n ∉ L'.listed := by
  cases hf with
  | @inserted tiles fl n hb hprev =>
      have hbpos := hc.pos b n hb
      intro a k ha hk hend hmem
      have hkpos := hc.pos a k hk
      rcases List.mem_cons.mp ha with rfl | hafl
      · rcases List.mem_cons.mp hmem with heq | hlisted
        · omega
        · exact hnext k hk hend hlisted
      · rcases List.mem_cons.mp hmem with heq | hlisted
        · rcases hprev with hfirst | ⟨d, l, hd, hdb, hdfl⟩
          · simp only [pageOf, pageSize] at *
            omega
          · have hlpos := hc.pos d l hd
            have hda := hc.unique (x := b - 1) ⟨l, hd, by omega, by omega⟩
              ⟨k, hk, by omega, by omega⟩
            exact hdfl (hda ▸ hafl)
        · exact hother a k hafl hk hend hlisted
  | @absorbed tiles fl d k n hd hdb hin hb hdfl =>
      have hdk := hpages d k hd
      have hkpos := hc.pos d k hd
      intro a l ha hla hend hmem
      have hab : a ≠ b := fun heq => hbfl (heq ▸ ha)
      by_cases had : a = d
      · subst had
        obtain rfl : k + n = l := Option.some.inj ((Tiles.merge_self ..).symm.trans hla)
        rw [← Nat.add_assoc, hdb] at hend hmem
        refine hnext n hb ?_ hmem
        exact hend.trans (pageOf_between (by omega) (by omega) hend).symm
      · exact hother a l ha ((Tiles.merge_other had hab).symm.trans hla) hend hmem

/-- Serving a request without an expansion keeps a layout without free neighbours. -/
theorem Layout.Takes.merged {h' : Kheap} (ht : Layout.Takes b needed L L') (hl : Laid h L)
    (hm : L.Merged h) (hneeded : 0 < needed) (hpages : h'.heapPages = h.heapPages) :
    L'.Merged h' := by
  refine ⟨fun page hpage => ht.startsKept page (hm.starts page ?_), ht.apart hl hm hneeded⟩
  rwa [hpages] at hpage

/-- The forward merge keeps the tiling of the heap, and leaves `b` in transit. -/
theorem Layout.Forward.covers {S : Nat → Prop} {M : Layout} (hf : Layout.Forward b L M)
    (hc : L.tiles.Covers S) (hbfl : b ∉ L.listed) : M.tiles.Covers S ∧ b ∉ M.listed := by
  cases hf with
  | alone _ _ => exact ⟨hc, hbfl⟩
  | absorbs hb _ hnext _ _ =>
      exact ⟨hc.merge hb hnext, fun hmem => hbfl (List.mem_of_mem_erase hmem)⟩

/-- `kfree` keeps a layout without free neighbours. -/
theorem Layout.Freed.merged {h' : Kheap} (hf : L.Freed b L') (hl : Laid h L) (hbfl : b ∉ L.listed)
    (hm : L.Merged h) (hpages : h'.heapPages = h.heapPages) : L'.Merged h' := by
  refine ⟨fun page hpage => ?_, ?_⟩
  · rw [hpages] at hpage
    exact hf.pageStart (hl.pages page hpage).aligned (hm.starts page hpage)
  · obtain ⟨M, hforward, hbackward⟩ := hf
    have hm1 : Layout.Merged h { L with transit := [b] } := ⟨hm.starts, hm.apart⟩
    obtain ⟨hother, hnext⟩ := hforward.apart hl.nodup hbfl hm1
    obtain ⟨hc, hbM⟩ := hforward.covers hl.covers hbfl
    refine hbackward.apart hc hbM (fun a n ha => Layout.in_page hc (fun page hpage => ?_) ha)
      hother hnext
    exact hforward.pageStart (hl.pages page hpage).aligned (hm.starts page hpage)

end Layouts

/-- Serving a request from the free list adds no page. -/
theorem Kheap.takeBlock_heapPages (h : Kheap) (b needed : Nat) :
    (h.takeBlock b needed).heapPages = h.heapPages := by
  unfold takeBlock
  dsimp only
  split <;> rfl

/-- Neither does `kfree`. -/
theorem Kheap.kfree_heapPages {h h' : Kheap} {ptr : Nat} (hrun : h.kfree ptr = some h') :
    h'.heapPages = h.heapPages := by
  have hforward : ∀ (g : Kheap) (b : Nat), (g.coalesceForward b).heapPages = g.heapPages := by
    intro g b
    unfold coalesceForward
    dsimp only
    split
    · rfl
    · split <;> rfl
  have hbackward : ∀ (g : Kheap) (b : Nat) r, g.coalesceBackward b = some r →
      r.2.heapPages = g.heapPages := by
    intro g b r hr
    unfold coalesceBackward at hr
    split at hr
    · obtain rfl := Option.some.inj hr
      rfl
    · split at hr
      · cases hr
      · split at hr <;> obtain rfl := Option.some.inj hr <;> rfl
  unfold kfree at hrun
  split at hrun
  · obtain rfl := Option.some.inj hrun
    rfl
  · dsimp only at hrun
    split at hrun
    · obtain rfl := Option.some.inj hrun
      rfl
    · split at hrun
      · cases hrun
      · next hback =>
          obtain rfl := Option.some.inj hrun
          exact (hbackward _ _ _ hback).trans (hforward _ _)
      · next hback =>
          obtain rfl := Option.some.inj hrun
          exact (hbackward _ _ _ hback).trans (hforward _ _)

namespace HeapState

/-- What `kheap.h` promises of the heap. -/
structure Documented (s : HeapState) : Prop where
  /-- Every heap page starts with a block header. -/
  starts : ∀ page ∈ s.heap.heapPages, s.Block page
  /-- The blocks of a page tile it. -/
  tiled : ∀ x, s.heap.InHeap x → ∃! a, s.InBlock a x
  /-- No block leaves its page. -/
  inPage : ∀ a x, s.InBlock a x → s.heap.InHeap x ∧ pageOf x = pageOf a
  /-- The free list holds no block twice. -/
  listedOnce : s.heap.freeList.Nodup
  /-- The free list holds the free blocks. -/
  listed : ∀ a, s.Block a → blockFree s.heap.mem a = if a ∈ s.heap.freeList then 1 else 0

/-- A heap as documented without neighbouring free blocks. -/
structure Tidy (s : HeapState) : Prop extends s.Documented where
  /-- Of two blocks that follow each other in a page one is in use. -/
  apart : ∀ a ∈ s.heap.freeList, pageOf (blockAfter s.heap.mem a) = pageOf a →
    blockAfter s.heap.mem a ∉ s.heap.freeList

/-- A request that a free block is large enough for. -/
def InRoom (s : HeapState) : HeapEvent → Prop
  | .kmalloc size =>
      ∃ b ∈ s.heap.freeList, Kheap.neededSize size ≤ blockSize s.heap.mem b
  | _ => True

instance (s : HeapState) : (e : HeapEvent) → Decidable (s.InRoom e)
  | .kmalloc _ => List.decidableBEx _ _
  | .kfree _ => isTrue trivial
  | .write .. => isTrue trivial
  | .pages _ => isTrue trivial

section Invariant

variable {s : HeapState} {L : Layout}

/-- The block after a block, without the wrapping. -/
theorem Holds.blockAfter (h : s.Holds L) {a n : Nat} (ha : L.tiles a = some n) :
    blockAfter s.heap.mem a = a + n := by
  rw [Kumo.blockAfter, h.laid.size a n ha, Nat.mod_eq_of_lt (h.laid.lt_word ha)]

/-- A tidy heap has a layout without free neighbours. -/
theorem Holds.merged (h : s.Holds L) (ht : s.Tidy) : L.Merged s.heap := by
  refine ⟨fun page hpage => (h.block_iff page).mp (ht.starts page hpage), fun a n ha hn hend => ?_⟩
  have hlist := h.laid.freeList_eq
  have hapart := ht.apart a (hlist ▸ ha)
  rw [h.blockAfter hn, hlist] at hapart
  exact hapart hend

/-- A layout without free neighbours describes a tidy heap. -/
theorem Holds.tidy (h : s.Holds L) (hm : L.Merged s.heap) : s.Tidy := by
  have hlist := h.laid.freeList_eq
  refine ⟨⟨fun page hpage => (h.block_iff page).mpr (hm.starts page hpage), h.safe.partition,
    fun a x hx => ⟨h.safe.within a x hx, ?_⟩, h.safe.listedOnce, fun a ha => ?_⟩, fun a ha => ?_⟩
  · obtain ⟨n, hn, hax, hxn⟩ := (h.inBlock_iff a x).mp hx
    have hpage := Layout.in_page h.laid.covers hm.starts hn
    exact pageOf_of_lt hax (by omega)
  · obtain ⟨n, hn⟩ := Option.isSome_iff_exists.mp ((h.block_iff a).mp ha)
    rw [hlist]
    exact h.laid.flag a n hn (by simp [h.settled])
  · rw [hlist] at ha ⊢
    obtain ⟨n, hn⟩ := h.laid.listed_tile ha
    rw [h.blockAfter hn]
    exact hm.apart a n ha hn

/-- A state whose layout has no free neighbours. -/
def Merged (s : HeapState) : Prop := ∃ L, s.Holds L ∧ L.Merged s.heap

theorem merged_iff : s.Merged ↔ s.Inv ∧ s.Tidy := by
  constructor
  · rintro ⟨L, h, hm⟩
    exact ⟨⟨L, h⟩, h.tidy hm⟩
  · rintro ⟨⟨L, h⟩, ht⟩
    exact ⟨L, h, h.merged ht⟩

/-- `kmalloc` from the free list: the block that is taken leaves no free neighbours. -/
theorem Holds.kmalloc_merged (h : s.Holds L) (hm : L.Merged s.heap) {size : Nat}
    (hsize : size + 15 < 2 ^ 32) (hroom : s.InRoom (.kmalloc size)) :
    ∃ s', s.step (.kmalloc size) = some s' ∧ s'.Merged ∧ s.Untouched (.kmalloc size) s' := by
  obtain ⟨h8, h16, hle⟩ := neededSize_spec hsize
  obtain ⟨tiles, fl, T⟩ := L
  obtain rfl : T = [] := h.settled
  obtain ⟨d, hd, hfits⟩ := hroom
  rw [h.laid.freeList_eq] at hd
  rcases firstFit_chain (Kheap.neededSize size) h.laid.chain h.laid.listed_length with
    ⟨_, hsmall⟩ | ⟨b, hb, hfound, hfit⟩
  · have := hsmall d hd
    omega
  · obtain ⟨tiles', fl', n, hl', htakes, hk, hbusy, hn⟩ := h.laid.takeBlock hb h8 h16 hfit
    have hrun : s.heap.kmalloc size = some (b + headerSize,
        s.heap.takeBlock b (Kheap.neededSize size)) := by
      rw [Kheap.kmalloc, Kheap.kmallocLoop, hfound]
    obtain ⟨hholds, -, hkept⟩ := h.granted hl' rfl
      (.granted b n _ _ hk hbusy (fun k hold => hold.2.1 hb) (by omega : size + 8 ≤ n))
    refine ⟨_, by rw [step, hrun]; rfl, ⟨_, hholds, ?_⟩, hkept⟩
    exact htakes.merged h.laid hm (by omega) (Kheap.takeBlock_heapPages ..)

/-- `kfree` of a live pointer: the merges leave no free neighbours. -/
theorem Holds.kfree_merged (h : s.Holds L) (hm : L.Merged s.heap) {ptr : Nat}
    (hlive : (s.live ptr).isSome) :
    ∃ s', s.step (.kfree ptr) = some s' ∧ s'.Merged ∧ s.Untouched (.kfree ptr) s' := by
  obtain ⟨size, hsize⟩ := Option.isSome_iff_exists.mp hlive
  obtain ⟨b, n, rfl, hbusy, _⟩ := h.busy ptr size hsize
  have hin := h.laid.covers.inside b b (h.laid.covers.start_mem hbusy.1)
  have hpage : s.Block (pageOf (b + headerSize - headerSize)) :=
    (h.block_iff _).mpr (hm.starts _ hin)
  obtain ⟨s', L', hrun, hholds, hkept, -, hfreed⟩ := h.kfree hlive hpage
  refine ⟨s', hrun, ⟨L', hholds, ?_⟩, hkept⟩
  obtain ⟨g, hg, rfl⟩ := Option.map_eq_some_iff.mp hrun
  exact hfreed.merged h.laid hbusy.2.1 hm (Kheap.kfree_heapPages hg)

/-- One event of a client in a heap without free neighbours. -/
theorem Merged.step {e : HeapEvent} (h : s.Merged) (hclient : s.Client e) (hroom : s.InRoom e) :
    ∃ s', s.step e = some s' ∧ s'.Merged ∧ s.Untouched e s' := by
  obtain ⟨L, h, hm⟩ := h
  cases e with
  | kmalloc size => exact h.kmalloc_merged hm hclient hroom
  | kfree ptr => exact h.kfree_merged hm hclient
  | write ptr offset byte =>
      obtain ⟨s', hrun, hholds, hkept⟩ := h.write byte hclient
      obtain rfl := Option.some.inj hrun
      exact ⟨_, rfl, ⟨L, hholds, ⟨hm.starts, hm.apart⟩⟩, hkept⟩
  | pages call =>
      obtain ⟨s', hrun, hholds, hkept⟩ := h.pages call
      obtain rfl := Option.some.inj hrun
      exact ⟨_, rfl, ⟨L, hholds, ⟨hm.starts, hm.apart⟩⟩, hkept⟩

end Invariant

/-- From every heap state in which every page starts with a block header, the blocks tile their
pages, the free list holds the free blocks once each and no two of them are neighbours, every run
of `kfree` calls, of `kmalloc` calls that need no expansion and of writes into live payloads leads
to such states only, and no call touches a live payload. -/
theorem coalescing_maximal (s : HeapState) (hinv : s.Inv) (htidy : s.Tidy)
    (events : List HeapEvent) (hclient : Meets step Client s events)
    (hroom : Meets step InRoom s events) :
    (run step s events).isSome ∧
      Along step (fun s e s' => s'.Inv ∧ s'.Tidy ∧ s.Untouched e s') s events := by
  obtain ⟨halong, final, hrun, _⟩ := along_of_invariant (I := Merged)
    (Q := fun s e s' => s'.Inv ∧ s'.Tidy ∧ s.Untouched e s')
    (fun s e hmerged hcond => by
      obtain ⟨s', hstep, hmerged', hkept⟩ := hmerged.step hcond.1 hcond.2
      exact ⟨s', hstep, hmerged', (merged_iff.mp hmerged').1, (merged_iff.mp hmerged').2, hkept⟩)
    (merged_iff.mpr ⟨hinv, htidy⟩) (hclient.and hroom)
  exact ⟨by rw [hrun]; rfl, halong⟩

/-! ## A heap whose pages begin with blocks -/

/-- The first region, used up by blocks that do not cross pages: four in its first page, and one
for each other page. -/
def pagedEvents : List HeapEvent :=
  [.kmalloc 100, .kmalloc 24, .kmalloc 40, .kmalloc 3896] ++ List.replicate 15 (.kmalloc 4088)

/-- The heap after these requests. -/
def pagedState : HeapState :=
  (run step (init (fun _ => 0) samplePmm) pagedEvents).getD (init (fun _ => 0) samplePmm)

theorem pagedState_holds : ∃ L, pagedState.Holds L ∧ L.Merged pagedState.heap := by
  obtain ⟨-, final, hrun, L, h⟩ := along_of_invariant (I := Inv) (Q := fun _ _ _ => True)
    (fun s e hinv hcond => by
      obtain ⟨s', hstep, hinv', -⟩ := hinv.step hcond.1 hcond.2
      exact ⟨s', hstep, hinv', trivial⟩)
    (init_inv (fun _ => 0) samplePmm_wf)
    (Meets.and (show Meets step Client (init (fun _ => 0) samplePmm) pagedEvents by decide +kernel)
      (show Meets step PageStart (init (fun _ => 0) samplePmm) pagedEvents by decide +kernel))
  have hstate : pagedState = final := by rw [pagedState, hrun, Option.getD_some]
  have hblocks : ∀ page ∈ pagedState.heap.heapPages, pagedState.Block page := by decide +kernel
  have hlist : pagedState.heap.freeList = [] := by decide +kernel
  rw [← hstate] at h
  refine ⟨L, h, fun page hpage => (h.block_iff page).mp (hblocks page hpage), fun a n ha => ?_⟩
  rw [← h.laid.freeList_eq, hlist] at ha
  cases ha

/-- Blocks of its first page are freed, merged in both directions and cut. -/
def mergingEvents : List HeapEvent :=
  [.kfree 0x100078, .kfree 0x100008, .kmalloc 40, .write 0x100008 39 0xAB, .kfree 0x1000C8,
    .kfree 0x100098]

/-- The run statement applied to that run. -/
theorem coalescing_maximal_sample :
    (run step pagedState mergingEvents).isSome ∧
      Along step (fun s e s' => s'.Inv ∧ s'.Tidy ∧ s.Untouched e s') pagedState mergingEvents :=
  coalescing_maximal pagedState (merged_iff.mp pagedState_holds).1 (merged_iff.mp pagedState_holds).2
    mergingEvents (by decide +kernel) (by decide +kernel)

end HeapState

end Kumo
