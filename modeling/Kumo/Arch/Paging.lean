import Mathlib.Data.Nat.Bitwise
import Kumo.Lib.WordTable
import Kumo.Mm.Pmm

/-!
# Page directories and page tables

The functions of `arch/x86/paging.c` over physical memory. Kernel code reaches its
tables through the identity mapping, so addresses are physical here. A table is 1024
words; `frameOf` clears the low 12 bits of an entry.

A function that goes on with page 0, after a failed allocation or for a window
without a table, uses an address that is not mapped, and the page-fault handler halts
for good. `none` stands for that, and for `paging_init` when it runs out of pages or
maps no code to return to.
-/

namespace Kumo

open Memory

/-- `PDE_COUNT` and `PTE_COUNT`. -/
def tableEntries : Nat := 1024

/-- `PT_COVERAGE`: one page table covers 4 MB. -/
def ptCoverage : Nat := 0x400000

/-- `PAGE_P`. -/
def pageP : Nat := 1

/-- `PAGE_DEFAULT`: present, read/write, supervisor. -/
def pageDefault : Nat := 3

/-- The user bit, `0x4`. -/
def pageUser : Nat := 4

/-- Where the kernel is linked. -/
def kernelText : Nat := 0x100000

/-- The state `paging.c` works on: memory, the page allocator, `pd_phys` and
`g_memory_map.top_of_memory`. -/
structure Paging where
  mem : Memory
  pmm : Pmm
  pdPhys : Nat
  topOfMemory : Nat

/-- `e & ~0xFFF`. -/
def frameOf (e : Nat) : Nat := e / pageSize * pageSize

/-- `vaddr >> 22`. -/
def pdIndex (vaddr : Nat) : Nat := vaddr / ptCoverage

/-- `(vaddr >> 12) & 0x3FF`. -/
def ptIndex (vaddr : Nat) : Nat := vaddr / pageSize % tableEntries

/-- `e & PAGE_P`. -/
def present (e : Nat) : Bool := e &&& pageP != 0

/-- `e & 0x4`. -/
def user (e : Nat) : Bool := e &&& pageUser != 0

/-- The directory entry for a virtual address. -/
def pdeOf (m : Memory) (pd vaddr : Nat) : Nat := m.entry pd (pdIndex vaddr)

/-- The table entry for a virtual address. -/
def pteOf (m : Memory) (pd vaddr : Nat) : Nat := m.entry (frameOf (pdeOf m pd vaddr)) (ptIndex vaddr)

/-- The processor's walk in supervisor mode: the physical address of `vaddr`, if it is mapped. -/
def translate (m : Memory) (pd vaddr : Nat) : Option Nat :=
  if present (pdeOf m pd vaddr) && present (pteOf m pd vaddr) then
    some (frameOf (pteOf m pd vaddr) + vaddr % pageSize)
  else none

namespace Paging

/-! ## Building the kernel directory -/

/-- The entry `paging_init` writes at index `pteIdx` of table `ptIdx`. -/
def identityEntry (top ptIdx pteIdx : Nat) : Nat :=
  let phys := (ptIdx * ptCoverage + pteIdx * pageSize) % 2 ^ 32
  if phys < top then phys ||| pageDefault else 0

/-- The loop of `paging_init` over the page tables, with `pt_idx` and the iterations left. -/
def initTables (p : Paging) : Nat → Nat → Option Paging
  | 0, _ => some p
  | steps + 1, ptIdx =>
      let (ptPhys, pmm) := p.pmm.pmmAllocPage
      if ptPhys = 0 then none
      else
        let m := p.mem.setEntry p.pdPhys ptIdx (ptPhys ||| pageDefault)
        let m := m.fillTable ptPhys (identityEntry p.topOfMemory ptIdx) tableEntries
        initTables { p with mem := m, pmm := pmm } steps (ptIdx + 1)

/-- `paging_init`. The jump after `CR0.PG` is set needs its own code to be mapped. -/
def pagingInit (p : Paging) : Option Paging :=
  let numPt := (p.topOfMemory + (ptCoverage - 1)) % 2 ^ 32 / ptCoverage
  let (pd, pmm) := p.pmm.pmmAllocPage
  if pd = 0 then none
  else
    let m := p.mem.fillTable pd (fun _ => 0) tableEntries
    match initTables { p with mem := m, pmm := pmm, pdPhys := pd } numPt 0 with
    | none => none
    | some p => if (translate p.mem p.pdPhys kernelText).isSome then some p else none

/-- `paging_unmap_null_page`: clear the present bit of the entry of page 0. -/
def pagingUnmapNullPage (p : Paging) : Paging :=
  let e := p.mem.entry p.pdPhys 0
  if !present e then p
  else { p with mem := p.mem.setEntry (frameOf e) 0 (p.mem.entry (frameOf e) 0 / 2 * 2) }

/-- One page of `paging_map_phys_range`. -/
def mapPage (p : Paging) (addr : Nat) : Option Paging :=
  let pdIdx := pdIndex addr
  let withTable :=
    if !present (p.mem.entry p.pdPhys pdIdx) then
      let (ptPhys, pmm) := p.pmm.pmmAllocPage
      if ptPhys = 0 then none
      else
        let m := p.mem.fillTable ptPhys (fun _ => 0) tableEntries
        some { p with mem := m.setEntry p.pdPhys pdIdx (ptPhys ||| pageDefault), pmm := pmm }
    else some p
  withTable.map fun p =>
    let pt := frameOf (p.mem.entry p.pdPhys pdIdx)
    { p with mem := p.mem.setEntry pt (ptIndex addr) (addr ||| pageDefault) }

/-- The loop of `paging_map_phys_range`. -/
def mapPages : Nat → Paging → Nat → Option Paging
  | 0, p, _ => some p
  | steps + 1, p, addr => (p.mapPage addr).bind fun p => mapPages steps p (addr + pageSize)

/-- `paging_map_phys_range`. -/
def pagingMapPhysRange (p : Paging) (physAddr size : Nat) : Option Paging :=
  let start := frameOf physAddr
  let stop := frameOf ((physAddr + size + (pageSize - 1)) % 2 ^ 32)
  mapPages ((stop - start) / pageSize) p start

/-! ## Task directories -/

/-- `page_is_user_accessible`, for the directory `cr3` of the current task (0 without one). -/
def pageIsUserAccessible (p : Paging) (cr3 vaddr : Nat) : Bool :=
  let pd := if cr3 ≠ 0 then cr3 else p.pdPhys
  present (pdeOf p.mem pd vaddr) && user (pdeOf p.mem pd vaddr) &&
    present (pteOf p.mem pd vaddr) && user (pteOf p.mem pd vaddr)

/-- `paging_clone_kernel_pd`. Returns the new directory, or 0. -/
def pagingCloneKernelPd (p : Paging) : Nat × Paging :=
  let (newPd, pmm) := p.pmm.pmmAllocPage
  if newPd = 0 then (0, { p with pmm := pmm })
  else (newPd, { p with mem := p.mem.copyTable newPd p.pdPhys tableEntries, pmm := pmm })

/-- The first half of `paging_set_user_accessible_for_task`: give the task a private copy of the
page table if it still shares the kernel's. Where the kernel has no table, page 0 is read. -/
def privatePt (p : Paging) (taskPd pdIdx : Nat) : Option Paging :=
  let sharedPt := frameOf (p.mem.entry p.pdPhys pdIdx)
  if frameOf (p.mem.entry taskPd pdIdx) = sharedPt then
    let (newPt, pmm) := p.pmm.pmmAllocPage
    if newPt = 0 ∨ sharedPt = 0 then none
    else
      let m := p.mem.copyTable newPt sharedPt tableEntries
      some { p with mem := m.setEntry taskPd pdIdx (newPt ||| pageDefault), pmm := pmm }
  else some p

/-- `paging_set_user_accessible_for_task`. -/
def pagingSetUserAccessibleForTask (p : Paging) (taskPd physAddr : Nat) : Option Paging :=
  let pdIdx := pdIndex physAddr
  (p.privatePt taskPd pdIdx).map fun p =>
    let pt := frameOf (p.mem.entry taskPd pdIdx)
    let m := p.mem.setEntry pt (ptIndex physAddr) (physAddr ||| pageDefault ||| pageUser)
    { p with mem := m.setEntry taskPd pdIdx (m.entry taskPd pdIdx ||| pageUser) }

/-- What the first half of `paging_set_user_accessible_for_task` did if it returned: it made a
copy in a new page, or there was a private table already. -/
theorem privatePt_cases {p p' : Paging} {taskPd i : Nat} (hrun : p.privatePt taskPd i = some p') :
    (frameOf (p.mem.entry taskPd i) = frameOf (p.mem.entry p.pdPhys i) ∧
      ∃ newPt pmm, p.pmm.pmmAllocPage = (newPt, pmm) ∧ newPt ≠ 0 ∧
        p' = { p with
          mem := (p.mem.copyTable newPt (frameOf (p.mem.entry p.pdPhys i)) tableEntries).setEntry
            taskPd i (newPt ||| pageDefault)
          pmm := pmm }) ∨
    (frameOf (p.mem.entry taskPd i) ≠ frameOf (p.mem.entry p.pdPhys i) ∧ p' = p) := by
  unfold privatePt at hrun
  dsimp only at hrun
  by_cases hshared : frameOf (p.mem.entry taskPd i) = frameOf (p.mem.entry p.pdPhys i)
  · rw [if_pos hshared] at hrun
    by_cases h0 : p.pmm.pmmAllocPage.1 = 0 ∨ frameOf (p.mem.entry p.pdPhys i) = 0
    · rw [if_pos h0] at hrun
      cases hrun
    · rw [if_neg h0] at hrun
      exact .inl ⟨hshared, _, _, rfl, fun h => h0 (.inl h), (Option.some.inj hrun).symm⟩
  · rw [if_neg hshared] at hrun
    exact .inr ⟨hshared, (Option.some.inj hrun).symm⟩

end Paging

/-! ## Bits of an entry -/

theorem present_iff (e : Nat) : present e = true ↔ e % 2 = 1 := by
  simp [present, pageP, Nat.and_one_is_mod]

theorem user_iff (e : Nat) : user e = true ↔ e / 4 % 2 = 1 := by
  have hbit : e &&& 4 = (e.testBit 2).toNat * 4 := Nat.and_two_pow e 2
  rw [user, pageUser, hbit, Nat.testBit_eq_decide_div_mod_eq]
  by_cases h : e / 2 ^ 2 % 2 = 1 <;> simp_all

/-- Flags below the page size do not disturb an aligned address. -/
theorem or_flags {a k : Nat} (ha : a % pageSize = 0) (hk : k < pageSize) : a ||| k = a + k := by
  simp only [pageSize] at *
  have h := Nat.two_pow_add_eq_or_of_lt (i := 12) hk (a / 4096)
  have ha' : 2 ^ 12 * (a / 4096) = a := by omega
  rw [ha'] at h
  exact h.symm

end Kumo
