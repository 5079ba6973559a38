import Kumo.Lib.Access
import Kumo.Mm.KheapCapacity

/-!
# What `kmalloc` looks at

`kmalloc` follows the free list and reads headers: two memories that agree on the pages of
the heap and on the free pages, which it may add to the heap, give the same block, and
agree there afterwards as well. Bytes of other owners play no part.
-/

namespace Kumo

open Memory LinkedList

variable {S : Nat → Prop} {h g : Kheap} {m : Memory} {tiles : Tiles} {fl : List Nat}
  {needed fuel size p x : Nat}

/-- The addresses of `S` include what `kmalloc` may look at. -/
structure Kheap.Visible (h : Kheap) (S : Nat → Prop) : Prop where
  heap : ∀ x, h.InHeap x → S x
  free : ∀ x, h.pmm.FreeAt x → S x

/-- A page that an expansion adds to the heap was free. -/
theorem heapExpand_inHeap (hpmm : h.pmm.Wf) (hx : h.heapExpand.2.InHeap x) :
    h.InHeap x ∨ h.pmm.FreeAt x := by
  unfold Kheap.heapExpand at hx
  split at hx
  · exact .inl hx
  · by_cases hbase : (h.pmm.pmmAllocContiguousPages expandPages).1 = 0
    · simp only [hbase, if_true] at hx
      exact .inl hx
    · simp only [hbase, if_false] at hx
      rcases List.mem_append.mp hx with hold | hnew
      · exact .inl hold
      · obtain ⟨i, hi, hpage⟩ := mem_pageList.mp hnew
        have halign := (hpmm.kernel_pages (c := .contiguous expandPages) rfl hbase hi).1.aligned
        have hown : Pmm.Served.Owns ⟨.contiguous expandPages,
            (h.pmm.call (.contiguous expandPages)).1, h.pmm,
            (h.pmm.call (.contiguous expandPages)).2⟩ x := by
          refine ⟨hbase, ?_, ?_⟩
          · show (h.pmm.pmmAllocContiguousPages expandPages).1 ≤ x
            simp only [pageOf, pageSize] at hpage
            omega
          · show x < (h.pmm.pmmAllocContiguousPages expandPages).1 + expandPages * pageSize
            simp only [pageOf, pageSize, expandPages] at *
            omega
        exact .inr (hpmm.owns_call hown).1

/-- A page that is free after an expansion was free before it. -/
theorem heapExpand_freeAt (hx : h.heapExpand.2.pmm.FreeAt x) : h.pmm.FreeAt x := by
  unfold Kheap.heapExpand at hx
  split at hx
  · exact hx
  · by_cases hbase : (h.pmm.pmmAllocContiguousPages expandPages).1 = 0
    · simp only [hbase, if_true] at hx
      exact Pmm.FreeAt.of_call (c := .contiguous expandPages) hx
    · simp only [hbase, if_false] at hx
      exact Pmm.FreeAt.of_call (c := .contiguous expandPages) hx

theorem Kheap.Visible.heapExpand (hv : h.Visible S) (hpmm : h.pmm.Wf) :
    h.heapExpand.2.Visible S :=
  ⟨fun x hx => (heapExpand_inHeap hpmm hx).elim (hv.heap x) (hv.free x),
    fun x hx => hv.free x (heapExpand_freeAt hx)⟩

/-- The header and the links of a block are visible. -/
theorem Laid.visible_block {b k : Nat} (hl : Laid h ⟨tiles, fl, []⟩) (hv : h.Visible S)
    (hb : b ∈ fl) (hk : k + 4 ≤ 16) : MemAccess.Within S ⟨b + k, 4⟩ := by
  intro x h1 h2
  simp only at h1 h2
  obtain ⟨n, hn⟩ := hl.listed_tile hb
  have h16 := (hl.shape b n hn).2.2
  exact hv.heap x (hl.covers.inside b x ⟨n, hn, by omega, by omega⟩)

/-- The expansion of two heaps with the same pages. -/
theorem heapExpand_local (hsame : SameOn S h.mem m) :
    ∃ m', Kheap.heapExpand { h with mem := m } =
        (h.heapExpand.1, { h.heapExpand.2 with mem := m' }) ∧
      SameOn S h.heapExpand.2.mem m' := by
  unfold Kheap.heapExpand
  dsimp only
  split
  · exact ⟨m, rfl, hsame⟩
  · split
    · exact ⟨m, rfl, hsame⟩
    · refine ⟨_, rfl, ?_⟩
      simp only [Kheap.addRegion, Kheap.flInsert]
      split
      · exact ((((hsame.store32 _ _).store32 _ _).store32 _ _).store32 _ _).store32 _ _
      · exact (((hsame.store32 _ _).store32 _ _).store32 _ _).store32 _ _

/-- The walk along the free list. -/
theorem firstFit_local {head prev : Nat} {l : List Nat} {m0 : Memory}
    (hc : Chain (nextPtr m0) (prevPtr m0) prev head l)
    (hsize : ∀ b ∈ l, blockSize m b = blockSize m0 b ∧ nextPtr m b = nextPtr m0 b) :
    Kheap.firstFit m needed fuel head = Kheap.firstFit m0 needed fuel head := by
  induction l generalizing head prev fuel with
  | nil =>
      obtain rfl := hc
      cases fuel with
      | zero => rfl
      | succ fuel => rw [Kheap.firstFit, Kheap.firstFit, if_pos rfl, if_pos rfl]
  | cons b l ih =>
      obtain ⟨rfl, hb, _, hrest⟩ := hc
      obtain ⟨h1, h2⟩ := hsize head (List.mem_cons_self ..)
      cases fuel with
      | zero => rfl
      | succ fuel =>
          rw [Kheap.firstFit, Kheap.firstFit, h1, h2,
            ih hrest fun b hb => hsize b (List.mem_cons_of_mem _ hb)]

/-- Taking a block from the free list. -/
theorem Laid.takeBlock_local (needed : Nat) {b : Nat} (hl : Laid h ⟨tiles, fl, []⟩) (hv : h.Visible S)
    (hsame : SameOn S h.mem m) (hb : b ∈ fl) :
    ∃ m', Kheap.takeBlock { h with mem := m } b needed =
        { h.takeBlock b needed with mem := m' } ∧ SameOn S (h.takeBlock b needed).mem m' := by
  have e1 : ∀ m', SameOn S h.mem m' → blockSize m' b = blockSize h.mem b :=
    fun m' hs => hs.load32 (hl.visible_block (k := 0) hv hb (by omega))
  have e2 : ∀ m1 m2, SameOn S m1 m2 → nextPtr m2 b = nextPtr m1 b :=
    fun m1 m2 hs => hs.load32 (hl.visible_block hv hb (by omega))
  have e3 : ∀ m1 m2, SameOn S m1 m2 → prevPtr m2 b = prevPtr m1 b :=
    fun m1 m2 hs => hs.load32 (hl.visible_block hv hb (by omega))
  rw [Kheap.takeBlock, Kheap.takeBlock]
  dsimp only
  rw [e1 m hsame]
  split
  · -- the block is split
    have hs : SameOn S
        ((h.mem.store32 (b + needed) (blockSize h.mem b - needed)).store32 (b + needed + 4) 1)
        ((m.store32 (b + needed) (blockSize h.mem b - needed)).store32 (b + needed + 4) 1) :=
      (hsame.store32 _ _).store32 _ _
    simp only [Kheap.splitBlock, e1 m hsame, e2 _ _ hs, e3 _ _ hs]
    refine ⟨_, rfl, SameOn.store32 (SameOn.store32 ?_ _ _) _ _⟩
    split <;> split <;> first
      | exact (((hs.store32 _ _).store32 _ _).store32 _ _).store32 _ _
      | exact ((hs.store32 _ _).store32 _ _).store32 _ _
      | exact (hs.store32 _ _).store32 _ _
  · simp only [Kheap.flRemove, e2 _ _ hsame, e3 _ _ hsame]
    refine ⟨_, rfl, SameOn.store32 ?_ _ _⟩
    split <;> split <;> first
      | exact (hsame.store32 _ _).store32 _ _
      | exact hsame.store32 _ _
      | exact hsame

/-- The rounds of `kmalloc`. -/
theorem Laid.kmallocLoop_local (hl : Laid h ⟨tiles, fl, []⟩) (hv : h.Visible S)
    (hsame : SameOn S h.mem m) (hrun : Kheap.kmallocLoop needed fuel h = some (p, g)) :
    ∃ m', Kheap.kmallocLoop needed fuel { h with mem := m } = some (p, { g with mem := m' }) ∧
      SameOn S g.mem m' := by
  induction fuel generalizing h m tiles fl with
  | zero => exact nomatch hrun
  | succ fuel ih =>
      have hwalk : Kheap.firstFit m needed walkFuel h.freeHead =
          Kheap.firstFit h.mem needed walkFuel h.freeHead :=
        firstFit_local hl.chain fun b hb =>
          ⟨hsame.load32 (hl.visible_block (k := 0) hv hb (by omega)),
            hsame.load32 (hl.visible_block hv hb (by omega))⟩
      rw [Kheap.kmallocLoop] at hrun ⊢
      rw [hwalk]
      rcases firstFit_chain needed hl.chain hl.listed_length with
        ⟨hnone, _⟩ | ⟨b, hb, hsome, _⟩
      · rw [hnone] at hrun ⊢
        obtain ⟨tiles1, fl1, hl1, _⟩ := hl.heapExpand
        have hv1 := hv.heapExpand hl.pmm
        obtain ⟨m1, hexp1, hsame1⟩ := heapExpand_local hsame
        dsimp only at hrun ⊢
        rw [hexp1]
        cases hexp : h.heapExpand with
        | mk ok h1 =>
            rw [hexp] at hrun hl1 hv1 hsame1
            cases ok with
            | false =>
                obtain ⟨rfl, rfl⟩ := Prod.mk.inj (Option.some.inj hrun)
                exact ⟨m1, rfl, hsame1⟩
            | true => exact ih hl1 hv1 hsame1 hrun
      · rw [hsome] at hrun ⊢
        obtain ⟨rfl, rfl⟩ := Prod.mk.inj (Option.some.inj hrun)
        obtain ⟨m', htake, hsame'⟩ := hl.takeBlock_local needed hv hsame hb
        exact ⟨m', by rw [← htake], hsame'⟩

/-- Nothing else comes into view. -/
theorem Laid.kmallocLoop_visible (hl : Laid h ⟨tiles, fl, []⟩) (hv : h.Visible S)
    (hrun : Kheap.kmallocLoop needed fuel h = some (p, g)) : g.Visible S := by
  induction fuel generalizing h tiles fl with
  | zero => exact nomatch hrun
  | succ fuel ih =>
      rw [Kheap.kmallocLoop] at hrun
      cases hwalk : Kheap.firstFit h.mem needed walkFuel h.freeHead with
      | none => rw [hwalk] at hrun; cases hrun
      | some found =>
          rw [hwalk] at hrun
          cases found with
          | none =>
              obtain ⟨tiles1, fl1, hl1, _⟩ := hl.heapExpand
              have hv1 := hv.heapExpand hl.pmm
              cases hexp : h.heapExpand with
              | mk ok h1 =>
                  rw [hexp] at hl1 hv1
                  simp only [hexp] at hrun
                  cases ok with
                  | false =>
                      obtain ⟨rfl, rfl⟩ := Prod.mk.inj (Option.some.inj hrun)
                      exact hv1
                  | true => exact ih hl1 hv1 hrun
          | some b =>
              obtain ⟨rfl, rfl⟩ := Prod.mk.inj (Option.some.inj hrun)
              have hsame : (h.takeBlock b needed).heapPages = h.heapPages ∧
                  (h.takeBlock b needed).pmm = h.pmm := by
                unfold Kheap.takeBlock
                dsimp only
                split <;> exact ⟨rfl, rfl⟩
              refine ⟨fun x hx => hv.heap x ?_, fun x hx => hv.free x ?_⟩
              · rwa [Kheap.InHeap, hsame.1] at hx
              · rwa [hsame.2] at hx

theorem Kheap.Wf.kmalloc_visible (hwf : h.Wf) (hv : h.Visible S)
    (hrun : h.kmalloc size = some (p, g)) : g.Visible S := by
  obtain ⟨tiles, fl, hl⟩ := hwf
  exact hl.kmallocLoop_visible hv hrun

/-- `kmalloc` gives the same block in two memories that agree on what it looks at. -/
theorem Kheap.Wf.kmalloc_local (hwf : h.Wf) (hv : h.Visible S) (hsame : SameOn S h.mem m)
    (hrun : h.kmalloc size = some (p, g)) :
    ∃ m', Kheap.kmalloc { h with mem := m } size = some (p, { g with mem := m' }) ∧
      SameOn S g.mem m' := by
  obtain ⟨tiles, fl, hl⟩ := hwf
  exact hl.kmallocLoop_local hv hsame hrun

end Kumo
