import Kumo.Sched.KernelMemory

/-!
# What the boot sequence establishes

`boot` runs `paging_init`, `paging_unmap_null_page`, `kheap_init`, the mapping of the
framebuffer and `task_init`. Whenever it gets through, the kernel's memory is sound.
Without a framebuffer page 0 is not mapped.
-/

namespace Kumo

open Memory

/-- `total_pages` as `pmm_init` computes it. -/
def pmmTotalPages (topOfMemory : Nat) : Nat :=
  (topOfMemory + 2 ^ 32 - managedBase) % 2 ^ 32 / pageSize

/-- Above the kernel's own code nothing wraps: every managed page lies below the top. -/
theorem pmmTotalPages_le {top : Nat} (htext : kernelText < top) (htop : top < 2 ^ 32) :
    managedBase + pmmTotalPages top * pageSize ≤ top := by
  simp only [pmmTotalPages, managedBase, pageSize, kernelText] at *
  omega

namespace Kernel

/-- Page 0 is not mapped. -/
def NullGuard (k : Kernel) : Prop := ∀ v, frameOf v = 0 → view k.mem k.pdPhys v = none

theorem NullGuard.of_keeps {k k' : Kernel} (hn : k.NullGuard) (hs : k.Sound) (hk : Keeps k k') :
    k'.NullGuard := by
  intro v hv
  have hv32 : v < 2 ^ 32 := by
    simp only [frameOf, pageSize] at hv
    omega
  rw [hk.pdPhys, hs.dir.view_same hk.same hv32]
  exact hn v hv

/-- The kernel between `kheap_init` and `task_init`, without the framebuffer. -/
def bareKernel (p : Paging) (topOfMemory : Nat) : Kernel :=
  { heap := Kheap.kheapInit p.mem p.pmm, pdPhys := p.pdPhys, topOfMemory := topOfMemory,
    ring := [], nextId := 1 }

/-- The heap takes its first pages from those that the directory does not use. -/
theorem bareKernel_sound {p : Paging} (hp : Paging.Mapped p)
    (htotal : p.pmm.totalPages = pmmTotalPages p.topOfMemory) :
    (bareKernel p.pagingUnmapNullPage p.topOfMemory).Sound ∧
      (bareKernel p.pagingUnmapNullPage p.topOfMemory).NullGuard ∧
      (bareKernel p.pagingUnmapNullPage p.topOfMemory).heap.pmm.totalPages = p.pmm.totalPages := by
  obtain ⟨hk, hview⟩ := Paging.unmap_view hp.kernel
  have hpmm : p.pagingUnmapNullPage.pmm = p.pmm := by
    unfold Paging.pagingUnmapNullPage
    dsimp only
    split <;> rfl
  have hpd : p.pagingUnmapNullPage.pdPhys = p.pdPhys := by
    unfold Paging.pagingUnmapNullPage
    dsimp only
    split <;> rfl
  unfold bareKernel
  rw [hpmm, hpd]
  obtain ⟨tiles, fl, hl, hkeeps⟩ := laid_kheapInit p.pagingUnmapNullPage.mem hp.wf
  obtain ⟨hsub, hsame⟩ := hkeeps.grows.reserved
  -- nothing belongs to the heap before `kheap_init`
  have hk0 : KernelDir (Kheap.reserved ⟨p.pagingUnmapNullPage.mem, 0, [], p.pmm⟩)
      p.pagingUnmapNullPage.mem p.pdPhys := hk.transfer (fun q hq => ⟨hq, by simp⟩) (.refl _ _)
  refine ⟨⟨⟨tiles, fl, hl⟩, hk0.transfer hsub hsame, ?_, hp.top, fun v hv hlt hne => ?_⟩,
    fun v hv0 => ?_, hkeeps.grows.totalPages⟩
  · show managedBase + (Kheap.kheapInit p.pagingUnmapNullPage.mem p.pmm).pmm.totalPages * pageSize
      ≤ p.topOfMemory
    rw [hkeeps.grows.totalPages, htotal]
    exact pmmTotalPages_le hp.text hp.top
  · refine (hk0.view_same hsame hv).trans ?_
    rw [hview v hv, if_neg hne, hp.views v hv, if_pos hlt]
  · have hv : v < 2 ^ 32 := by
      simp only [frameOf, pageSize] at hv0
      omega
    refine (hk0.view_same hsame hv).trans ?_
    rw [hview v hv, if_pos hv0]

/-- Mapping a range of physical addresses keeps the kernel's memory sound. -/
theorem Sound.mapPhysRange {k : Kernel} {addr bytes : Nat} {p : Paging} (hs : k.Sound)
    (haddr : addr < 2 ^ 32) (hrun : k.paging.pagingMapPhysRange addr bytes = some p) :
    (k.setPaging p).Sound ∧ p.pmm.totalPages = k.heap.pmm.totalPages := by
  obtain ⟨tiles, fl, hl⟩ := hs.heap
  obtain ⟨addrs, hmaps⟩ := Paging.mapPhysRange_maps (p := k.paging) hl.pmm hl.pages hs.dir
    haddr hrun
  refine ⟨⟨⟨tiles, fl, ?_⟩, hmaps.kernel, ?_, hs.top, fun v hv hlt hne => ?_⟩, hmaps.totalPages⟩
  · exact (hl.of_same_pages (R := k.heap.pmm.inside k.heap.heapPages)
      (fun page hpage => ⟨hl.pages page hpage, hpage⟩) hmaps.others).of_pmm hmaps.wf hmaps.used
  · have htotal : p.pmm.totalPages = k.heap.pmm.totalPages := hmaps.totalPages
    show managedBase + p.pmm.totalPages * pageSize ≤ k.topOfMemory
    rw [htotal]
    exact hs.region
  · by_cases hin : addrs (frameOf v)
    · exact hmaps.mapped v hv hin
    · exact (hmaps.rest v hv hin).trans (hs.below v hv hlt hne)

/-- `kmain` before `task_init`. -/
def bootMemory (mem : Memory) (pmm : Pmm) (topOfMemory : Nat) (framebuffer : Option (Nat × Nat)) :
    Option Kernel :=
  (Paging.pagingInit { mem := mem, pmm := pmm, pdPhys := 0, topOfMemory := topOfMemory }).bind
    fun p =>
      let k := bareKernel p.pagingUnmapNullPage topOfMemory
      let mapped :=
        match framebuffer with
        | none => some k.paging
        | some (addr, bytes) => k.paging.pagingMapPhysRange addr bytes
      mapped.map k.setPaging

theorem boot_eq (mem : Memory) (pmm : Pmm) (top : Nat) (framebuffer : Option (Nat × Nat)) :
    boot mem pmm top framebuffer = (bootMemory mem pmm top framebuffer).bind taskInit := by
  rw [bootMemory, Option.bind_assoc]
  refine Option.bind_congr fun p _ => ?_
  rw [Option.bind_map]
  rfl

/-- The memory that `kmain` has set up before `task_init` is sound. -/
theorem bootMemory_sound {mem : Memory} {pmm : Pmm} {top : Nat} {framebuffer : Option (Nat × Nat)}
    {k : Kernel} (hwf : pmm.Wf) (htotal : pmm.totalPages = pmmTotalPages top) (htop : top < 2 ^ 32)
    (hfb : ∀ fb ∈ framebuffer, fb.1 < 2 ^ 32) (hrun : bootMemory mem pmm top framebuffer = some k) :
    k.Sound ∧ k.topOfMemory = top ∧ k.heap.pmm.totalPages = pmmTotalPages top ∧
      (framebuffer = none → k.NullGuard) := by
  obtain ⟨p, hinit, hrest⟩ := Option.bind_eq_some_iff.mp hrun
  obtain ⟨hmapped, htopeq, htotaleq⟩ := Paging.pagingInit_mapped
    (p := { mem := mem, pmm := pmm, pdPhys := 0, topOfMemory := top }) hwf htop hinit
  dsimp only at htopeq htotaleq
  obtain ⟨hs0, hn0, ht0⟩ := bareKernel_sound hmapped (by rw [htotaleq, htopeq]; exact htotal)
  rw [htopeq] at hs0 hn0 ht0
  rw [htotaleq, htotal] at ht0
  obtain ⟨p1, hmap, rfl⟩ := Option.map_eq_some_iff.mp hrest
  cases framebuffer with
  | none =>
      obtain rfl := Option.some.inj hmap
      exact ⟨hs0, rfl, ht0, fun _ => hn0⟩
  | some fb =>
      obtain ⟨hs1, ht1⟩ := Sound.mapPhysRange (k := bareKernel p.pagingUnmapNullPage top) hs0
        (hfb fb rfl) hmap
      exact ⟨hs1, rfl, ht1.trans ht0, fun h => by cases h⟩

/-- `task_init` adds the idle task, in the heap. -/
theorem Sound.taskInit {k k' : Kernel} (hs : k.Sound) (hrun : k.taskInit = some k') :
    k'.Sound ∧ Keeps k k' := by
  unfold Kernel.taskInit at hrun
  cases halloc : k.heap.kmalloc taskSize with
  | none => rw [halloc] at hrun; cases hrun
  | some r =>
      obtain ⟨addr, heap⟩ := r
      rw [halloc] at hrun
      dsimp only at hrun
      by_cases h0 : addr = 0
      · rw [if_pos h0] at hrun
        cases hrun
      · rw [if_neg h0] at hrun
        obtain rfl := Option.some.inj hrun
        obtain ⟨hkeeps, hsound⟩ := hs.kmalloc (by decide) halloc
        exact ⟨⟨hsound.heap, hsound.dir, hsound.region, hsound.top, hsound.below⟩,
          ⟨hkeeps.reserved, hkeeps.same, hkeeps.used, hkeeps.totalPages, rfl, rfl⟩⟩

/-- The kernel that `kmain` starts its tasks in is sound. -/
theorem boot_sound {mem : Memory} {pmm : Pmm} {top : Nat} {framebuffer : Option (Nat × Nat)}
    {k : Kernel} (hwf : pmm.Wf) (htotal : pmm.totalPages = pmmTotalPages top) (htop : top < 2 ^ 32)
    (hfb : ∀ fb ∈ framebuffer, fb.1 < 2 ^ 32) (hrun : boot mem pmm top framebuffer = some k) :
    k.Sound ∧ k.topOfMemory = top ∧ k.heap.pmm.totalPages = pmmTotalPages top ∧
      (framebuffer = none → k.NullGuard) := by
  rw [boot_eq] at hrun
  obtain ⟨k0, hboot, htask⟩ := Option.bind_eq_some_iff.mp hrun
  obtain ⟨hs0, htop0, htotal0, hnull⟩ := bootMemory_sound hwf htotal htop hfb hboot
  obtain ⟨hs, hk⟩ := hs0.taskInit htask
  exact ⟨hs, hk.topOfMemory.trans htop0, hk.totalPages.trans htotal0,
    fun hnone => (hnull hnone).of_keeps hs0 hk⟩

/-! ## A concrete machine -/

/-- 64 free kernel pages and two free user pages, below 8 MB + 8 KB. -/
def samplePmm : Pmm where
  bitmap := fun n => if n < 8 then 0#8 else if n = 224 then 0xFC#8 else 0xFF#8
  totalPages := pmmTotalPages 0x802000
  freePages := 66

theorem samplePmm_wf : samplePmm.Wf := by
  refine ⟨by decide +kernel, fun i hi _ => ?_⟩
  have htotal : samplePmm.totalPages = 0x702 := by decide
  simp only [managedBase, pageSize] at *
  omega

theorem boot_sample : (boot (fun _ => 0) samplePmm 0x802000 none).isSome = true := by
  decide +kernel

end Kernel

end Kumo
