import Kumo.Arch.KernelDirectory
import Kumo.Mm.KernelZone

/-!
# The boot identity map

`walk` is the walk of the processor with both permission bits. After `paging_init` and
`paging_unmap_null_page` the kernel directory is described for every virtual address:
a page below `top_of_memory` other than page 0 is mapped to itself, writable and closed to
user mode, and nothing else is mapped. `paging_init` returns when the kernel zone has a
page for the directory and one for each page table.
-/

namespace Kumo

open Memory

/-- The read/write bit, `0x2`. -/
def pageWritable : Nat := 2

/-- `e & 0x2`. -/
def writable (e : Nat) : Bool := e &&& pageWritable != 0

/-- What the processor makes of a directory entry and a table entry: the frame, and whether the
page may be written and whether user mode may access it, which both entries have to allow. -/
def walkEntries (pde pte : Nat) : Option (Nat × Bool × Bool) :=
  if present pde && present pte then
    some (frameOf pte, writable pde && writable pte, user pde && user pte)
  else none

/-- The walk of the processor for a virtual address. -/
def walk (m : Memory) (pd vaddr : Nat) : Option (Nat × Bool × Bool) :=
  walkEntries (pdeOf m pd vaddr) (pteOf m pd vaddr)

section Entries

variable {q pde pte : Nat}

theorem writable_iff (e : Nat) : writable e = true ↔ e / 2 % 2 = 1 := by
  have hbit : e &&& 2 = (e.testBit 1).toNat * 2 := Nat.and_two_pow e 1
  rw [writable, pageWritable, hbit, Nat.testBit_eq_decide_div_mod_eq]
  by_cases h : e / 2 ^ 1 % 2 = 1 <;> simp_all

theorem writable_default (hq : q % pageSize = 0) : writable (q + pageDefault) = true := by
  rw [writable_iff]
  simp only [pageDefault, pageSize] at *
  omega

/-- Nothing is mapped through a directory entry that is not present. -/
theorem walkEntries_of_not_present (h : present pde = false) : walkEntries pde pte = none := by
  rw [walkEntries, h, Bool.false_and]
  rfl

theorem walkEntries_zero : walkEntries pde 0 = none := by
  rw [walkEntries, present_zero, Bool.and_false]
  rfl

/-- A `PAGE_DEFAULT` entry below a writable directory entry maps its frame for the kernel. -/
theorem walkEntries_default (hpres : present pde = true) (hwr : writable pde = true)
    (hq : q % pageSize = 0) : walkEntries pde (q + pageDefault) = some (q, true, false) := by
  rw [walkEntries, hpres, present_default hq, hwr, writable_default hq, user_default hq,
    frameOf_add hq (by decide), Bool.and_false]
  rfl

end Entries

/-- The walk finds the frame and the user bit of the view. -/
theorem view_eq_walk (m : Memory) (pd v : Nat) :
    view m pd v = (walk m pd v).map fun r => (r.1, r.2.2) := by
  unfold view walk walkEntries
  split <;> rfl

/-- The walk translates an address that it maps. -/
theorem translate_eq_walk (m : Memory) (pd v : Nat) :
    translate m pd v = (walk m pd v).map fun r => r.1 + v % pageSize := by
  rw [translate_eq_view, view_eq_walk, Option.map_map]
  rfl

/-- Every page that the kernel directory maps is writable. -/
theorem KernelDir.walk_eq {R : PageSet} {m : Memory} {K v : Nat} (hk : KernelDir R m K)
    (hv : v < 2 ^ 32) : walk m K v = (view m K v).map fun r => (r.1, true, r.2) := by
  by_cases hne : m.entry K (pdIndex v) = 0
  · have hpde : present (pdeOf m K v) = false := by
      rw [pdeOf, hne]
      rfl
    rw [view_eq_walk, walk, walkEntries_of_not_present hpde]
    rfl
  · obtain ⟨htable, heq⟩ := hk.frame (pdIndex_lt hv) hne
    by_cases hpte : present (pteOf m K v) = true
    · have hid := hk.identity _ _ (pdIndex_lt hv) (ptIndex_lt v) hne hpte
      have hpde : pdeOf m K v = frameOf (pdeOf m K v) + pageDefault := heq
      have haligned := R.aligned _ htable
      have hwalk : walk m K v = some (pageAt (pdIndex v) (ptIndex v), true, false) := by
        rw [walk, show pteOf m K v = _ from hid, hpde]
        exact walkEntries_default (present_default haligned) (writable_default haligned)
          (pageAt_aligned _ _)
      rw [view_eq_walk, hwalk]
      rfl
    · have hnone : walk m K v = none := by
        have hpte : present (pteOf m K v) = false := by simpa using hpte
        rw [walk, walkEntries, hpte, Bool.and_false]
        rfl
      rw [view_eq_walk, hnone]
      rfl

namespace Paging

variable {p p' : Paging}

/-! ## The pages `paging_init` needs -/

/-- The number of page tables for the memory below the top. -/
def tableCount (p : Paging) : Nat := (p.topOfMemory + (ptCoverage - 1)) % 2 ^ 32 / ptCoverage

/-- The loop of `paging_init` gets all of its tables if the kernel zone has as many free pages. -/
theorem initTables_isSome {steps n : Nat} (hwf : p.pmm.Wf) (hfree : steps ≤ p.pmm.kernelFree) :
    (p.initTables steps n).isSome := by
  induction steps generalizing p n with
  | zero => rfl
  | succ steps ih =>
      rw [initTables]
      cases halloc : p.pmm.pmmAllocPage with
      | mk q u =>
          have hne : p.pmm.pmmAllocPage.1 ≠ 0 := by
            rw [Ne, Pmm.pmmAllocPage_eq_zero]
            omega
          have hq : q ≠ 0 := by
            rw [halloc] at hne
            exact hne
          have htaken := Pmm.kernelFree_call (p := p.pmm) (c := .page) rfl hne
          have hu : (p.pmm.call .page).2 = u := congrArg Prod.snd halloc
          rw [hu] at htaken
          simp only [PmmCall.count] at htaken
          have hwfu : u.Wf := hu ▸ hwf.call .page
          dsimp only
          rw [if_neg hq]
          exact ih hwfu (by dsimp only; omega)

/-- `paging_init` returns when there are pages for the directory and the tables, and the kernel's
code is memory that it maps. -/
theorem pagingInit_isSome (hwf : p.pmm.Wf) (htop : p.topOfMemory ≤ 0xFFC00000)
    (hfree : 1 + p.tableCount ≤ p.pmm.kernelFree) (htext : kernelText < p.topOfMemory) :
    p.pagingInit.isSome := by
  have hcall := Pmm.kernelFree_call (p := p.pmm) (c := .page) rfl
  have hwfu := hwf.call .page
  have hne : p.pmm.pmmAllocPage.1 ≠ 0 := by
    rw [Ne, Pmm.pmmAllocPage_eq_zero]
    omega
  have htaken : p.pmm.pmmAllocPage.2.kernelFree + 1 = p.pmm.kernelFree := hcall hne
  obtain ⟨pd, u, halloc⟩ : ∃ pd u, p.pmm.pmmAllocPage = (pd, u) := ⟨_, _, rfl⟩
  rw [halloc] at hne htaken
  have htaken : u.kernelFree + 1 = p.pmm.kernelFree := htaken
  rw [show p.pmm.call .page = (pd, u) from halloc] at hwfu
  rw [pagingInit, halloc]
  dsimp only
  rw [if_neg hne]
  have hfill0 := filled_zero hwf halloc hne rfl
  generalize p.mem.fillTable pd (fun _ => 0) tableEntries = m at hfill0
  have hcount : 0 < p.tableCount ∧ 0 + p.tableCount ≤ tableEntries := by
    simp only [tableCount, ptCoverage, tableEntries, kernelText] at *
    omega
  have hsome : (Paging.initTables { p with mem := m, pmm := u, pdPhys := pd } p.tableCount 0).isSome :=
    initTables_isSome hwfu (show p.tableCount ≤ u.kernelFree by omega)
  rw [show (p.topOfMemory + (ptCoverage - 1)) % 2 ^ 32 / ptCoverage = p.tableCount from rfl]
  obtain ⟨p1, hrun⟩ := Option.isSome_iff_exists.mp hsome
  obtain ⟨hfill, htopeq, _⟩ := hfill0.initTables hcount.2 hrun
  rw [hrun]
  -- the jump finds its code mapped
  have htext1 : (translate p1.mem p1.pdPhys kernelText).isSome := by
    have hcond : frameOf kernelText < p1.topOfMemory ∧ pdIndex kernelText < 0 + p.tableCount := by
      refine ⟨?_, ?_⟩
      · rw [htopeq]
        exact htext
      · have hzero : pdIndex kernelText = 0 := by decide
        omega
    rw [translate_eq_view, Option.isSome_map, hfill.views _ (by decide), if_pos hcond]
    rfl
  dsimp only
  rw [if_pos htext1]
  rfl

/-- Everything the kernel directory maps after boot: the pages below the top of memory other than
page 0, to themselves, writable and for the supervisor only. -/
structure BootMap (p : Paging) (top : Nat) : Prop where
  walk_eq : ∀ v, v < 2 ^ 32 → walk p.mem p.pdPhys v =
    if frameOf v ≠ 0 ∧ frameOf v < top then some (frameOf v, true, false) else none
  translate_eq : ∀ v, v < 2 ^ 32 → translate p.mem p.pdPhys v =
    if frameOf v ≠ 0 ∧ frameOf v < top then some v else none

/-- The address is the frame and the offset in it. -/
theorem frameOf_add_mod (v : Nat) : frameOf v + v % pageSize = v := by
  simp only [frameOf, pageSize]
  omega

/-- Without page 0 the identity map is the boot map. -/
theorem Mapped.bootMap (h : Mapped p) : BootMap p.pagingUnmapNullPage p.topOfMemory := by
  have hpd : p.pagingUnmapNullPage.pdPhys = p.pdPhys := by
    unfold pagingUnmapNullPage
    dsimp only
    split <;> rfl
  obtain ⟨hk, hview⟩ := unmap_view h.kernel
  have hwalk : ∀ v, v < 2 ^ 32 → walk p.pagingUnmapNullPage.mem p.pdPhys v =
      if frameOf v ≠ 0 ∧ frameOf v < p.topOfMemory then some (frameOf v, true, false) else none := by
    intro v hv
    rw [hk.walk_eq hv, hview v hv, h.views v hv]
    by_cases h0 : frameOf v = 0
    · rw [if_pos h0, if_neg fun hcond => hcond.1 h0]
      rfl
    · rw [if_neg h0]
      by_cases hlt : frameOf v < p.topOfMemory
      · rw [if_pos hlt, if_pos ⟨h0, hlt⟩]
        rfl
      · rw [if_neg hlt, if_neg fun hcond => hlt hcond.2]
        rfl
  refine ⟨fun v hv => by rw [hpd, hwalk v hv], fun v hv => ?_⟩
  rw [hpd, translate_eq_walk, hwalk v hv]
  split
  · exact congrArg some (frameOf_add_mod v)
  · rfl

/-- With enough free pages in the kernel zone `paging_init` builds the boot map, for every top of
memory that 32-bit arithmetic can round up to 4 MB. -/
theorem boot_identity_map (p : Paging) (hwf : p.pmm.Wf) (htop : p.topOfMemory ≤ 0xFFC00000)
    (hfree : 1 + p.tableCount ≤ p.pmm.kernelFree) :
    (kernelText < p.topOfMemory → p.pagingInit.isSome) ∧
      ∀ p', p.pagingInit = some p' → BootMap p'.pagingUnmapNullPage p.topOfMemory := by
  refine ⟨pagingInit_isSome hwf htop hfree, fun p' hrun => ?_⟩
  obtain ⟨hmapped, htopeq, _⟩ := pagingInit_mapped hwf (by omega) hrun
  rw [← htopeq]
  exact hmapped.bootMap

/-- A machine with 2 MB of memory. -/
theorem boot_identity_map_sample :
    (kernelText < 0x200000 → (Paging.pagingInit ⟨fun _ => 0, Pmm.sample, 0, 0x200000⟩).isSome) ∧
      ∀ p', Paging.pagingInit ⟨fun _ => 0, Pmm.sample, 0, 0x200000⟩ = some p' →
        BootMap p'.pagingUnmapNullPage 0x200000 :=
  boot_identity_map ⟨fun _ => 0, Pmm.sample, 0, 0x200000⟩ Pmm.sample_wf (by decide)
    (by decide +kernel)

end Paging

end Kumo
