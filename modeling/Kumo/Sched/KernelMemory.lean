import Kumo.Arch.KernelDirectory
import Kumo.Mm.KheapOps
import Kumo.Sched.Task

/-!
# The kernel's memory as a whole

The heap and the page tables share physical memory and the page allocator. `Sound` is
the invariant of both: the heap is laid out, and the kernel directory maps the memory
below the top to itself, in pages the heap does not own. `Keeps` says what no function
changes: the pages that were reserved stay reserved, with the same bytes.
-/

namespace Kumo

open Memory

/-- The taken pages that are not the heap's. -/
def Kheap.reserved (h : Kheap) : PageSet := h.pmm.outside h.heapPages

/-- The heap's bytes are the same when its pages are. -/
theorem Laid.of_same_pages {h : Kheap} {L : Layout} {m : Memory} {R : PageSet} (hl : Laid h L)
    (hR : ∀ page ∈ h.heapPages, R.has page) (hsame : R.Same h.mem m) :
    Laid { h with mem := m } L :=
  hl.of_same fun x hx => hsame (pageOf x) x (hR _ hx)
    (by simp only [pageOf, pageSize]; omega) (by simp only [pageOf, pageSize]; omega)

/-- What the heap takes and writes leaves the reserved pages alone. -/
theorem Grows.reserved {h h' : Kheap} (hg : Grows h h') :
    (∀ q, h.reserved.has q → h'.reserved.has q) ∧ h.reserved.Same h.mem h'.mem := by
  have hout : ∀ q, h.reserved.has q → q ∉ h'.heapPages := by
    intro q hq hmem
    rcases hg.fresh q hmem with hold | hfree
    · exact hq.2 hold
    · have htaken := hq.1.taken
      rw [hfree] at htaken
      cases htaken
  refine ⟨fun q hq => ⟨hq.1.mono hg.used, hout q hq⟩, fun page x hp h1 h2 => hg.outside x ?_⟩
  have hpage : pageOf x = page := by
    have haligned := hp.1.aligned
    simp only [pageOf, pageSize] at *
    omega
  unfold Kheap.InHeap
  rw [hpage]
  exact hout page hp

namespace Kernel

/-- A page of the user region: aligned, from 8 MB up, managed by the page allocator. -/
structure UserRegion (k : Kernel) (a : Nat) : Prop where
  aligned : a % pageSize = 0
  lower : userMemStart ≤ a
  upper : a + pageSize ≤ managedBase + k.heap.pmm.totalPages * pageSize

/-- The invariant of the kernel's memory. -/
structure Sound (k : Kernel) : Prop where
  heap : ∃ tiles fl, Laid k.heap ⟨tiles, fl, []⟩
  dir : KernelDir k.heap.reserved k.mem k.pdPhys
  region : managedBase + k.heap.pmm.totalPages * pageSize ≤ k.topOfMemory
  top : k.topOfMemory < 2 ^ 32
  below : ∀ v, v < 2 ^ 32 → frameOf v < k.topOfMemory → frameOf v ≠ 0 →
    view k.mem k.pdPhys v = some (frameOf v, false)

/-- What every function of the kernel leaves as it was. -/
structure Keeps (k k' : Kernel) : Prop where
  reserved : ∀ q, k.heap.reserved.has q → k'.heap.reserved.has q
  same : k.heap.reserved.Same k.mem k'.mem
  used : ∀ i, k.heap.pmm.used i = true → k'.heap.pmm.used i = true
  totalPages : k'.heap.pmm.totalPages = k.heap.pmm.totalPages
  pdPhys : k'.pdPhys = k.pdPhys
  topOfMemory : k'.topOfMemory = k.topOfMemory

variable {k k' k'' : Kernel}

theorem Keeps.refl (k : Kernel) : Keeps k k :=
  ⟨fun _ h => h, .refl _ _, fun _ h => h, rfl, rfl, rfl⟩

theorem Keeps.trans (h1 : Keeps k k') (h2 : Keeps k' k'') : Keeps k k'' :=
  ⟨fun q hq => h2.reserved q (h1.reserved q hq), h1.same.trans (h2.same.mono h1.reserved),
    fun i hi => h2.used i (h1.used i hi), h2.totalPages.trans h1.totalPages,
    h2.pdPhys.trans h1.pdPhys, h2.topOfMemory.trans h1.topOfMemory⟩

/-- A function that keeps what it must only has to keep the heap laid out. -/
theorem Sound.of_keeps (hs : k.Sound) (hk : Keeps k k')
    (hheap : ∃ tiles fl, Laid k'.heap ⟨tiles, fl, []⟩) : k'.Sound := by
  refine ⟨hheap, ?_, ?_, ?_, fun v hv hlt hne => ?_⟩
  · rw [hk.pdPhys]
    exact hs.dir.transfer hk.reserved hk.same
  · rw [hk.totalPages, hk.topOfMemory]
    exact hs.region
  · rw [hk.topOfMemory]
    exact hs.top
  · rw [hk.topOfMemory] at hlt
    rw [hk.pdPhys, hs.dir.view_same hk.same hv]
    exact hs.below v hv hlt hne

theorem Sound.heap_pages (hs : k.Sound) : ∀ page ∈ k.heap.heapPages, k.heap.pmm.KernelPage page := by
  obtain ⟨tiles, fl, hl⟩ := hs.heap
  exact hl.pages

theorem Sound.pmm (hs : k.Sound) : k.heap.pmm.Wf := by
  obtain ⟨tiles, fl, hl⟩ := hs.heap
  exact hl.pmm

/-- A page of the user region lies in a window that the kernel maps. -/
theorem Sound.window (hs : k.Sound) {a : Nat} (ha : k.UserRegion a) :
    a < 2 ^ 32 ∧ k.mem.entry k.pdPhys (pdIndex a) ≠ 0 := by
  have hregion := hs.region
  have htop := hs.top
  have hup := ha.upper
  have hpage : frameOf a = a := by
    have := ha.aligned
    simp only [frameOf, pageSize] at *
    omega
  have ha32 : a < 2 ^ 32 := by
    simp only [pageSize] at *
    omega
  have hview := hs.below a ha32 (by simp only [pageSize] at *; omega)
    (by have := ha.lower; simp only [userMemStart] at this; omega)
  refine ⟨ha32, fun h0 => ?_⟩
  have hpde : pdeOf k.mem k.pdPhys a = 0 := h0
  simp [view, hpde, present_zero] at hview

/-- Pages taken from the page allocator disturb nothing. -/
theorem Keeps.call (k : Kernel) (c : PmmCall) : Keeps k (k.setPmm (k.heap.pmm.call c).2) :=
  ⟨fun _ hq => ⟨hq.1.mono fun _ => Pmm.used_call c, hq.2⟩, .refl _ _, fun _ => Pmm.used_call c,
    Pmm.totalPages_call _ c, rfl, rfl⟩

theorem Sound.call (hs : k.Sound) (c : PmmCall) : (k.setPmm (k.heap.pmm.call c).2).Sound := by
  refine hs.of_keeps (.call k c) ?_
  obtain ⟨tiles, fl, hl⟩ := hs.heap
  exact ⟨tiles, fl, hl.of_pmm (hl.pmm.call c) fun _ => Pmm.used_call c⟩

/-- `kmalloc` disturbs nothing but the heap. -/
theorem Sound.kmalloc (hs : k.Sound) {size p : Nat} {h' : Kheap} (hsize : size + 15 < 2 ^ 32)
    (hrun : k.heap.kmalloc size = some (p, h')) :
    Keeps k { k with heap := h' } ∧ { k with heap := h' }.Sound := by
  obtain ⟨tiles, fl, hl⟩ := hs.heap
  obtain ⟨p', g, tiles', fl', hrun', hl', halloc⟩ := hl.kmalloc hsize
  obtain ⟨rfl, rfl⟩ := Prod.mk.inj (Option.some.inj (hrun.symm.trans hrun'))
  have hg := halloc.grows
  have hkeeps : Keeps k { k with heap := h' } :=
    ⟨hg.reserved.1, hg.reserved.2, hg.used, hg.totalPages, rfl, rfl⟩
  exact ⟨hkeeps, hs.of_keeps hkeeps ⟨tiles', fl', hl'⟩⟩

end Kernel

end Kumo
