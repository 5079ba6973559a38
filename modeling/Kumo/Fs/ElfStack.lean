import Kumo.Lib.Wrapped
import Kumo.Mm.Kheap
import Kumo.Mm.PmmRuns

/-!
# The initial stack of a program

`elf_setup_user_stack` of `fs/elf.c` takes one page of the user zone and builds the stack
of a program in it from the top down: the name, at the next multiple of 4 below it two
null words, the pointer to the name, and the argument count. With a name of at most 4076
bytes all of this fits in the page, and `user_stack_layout` says where it lies.
-/

namespace Kumo

open Memory

namespace Elf

/-- What `elf_setup_user_stack` leaves: its result, `*out_page` if it was written, the memory and
the page allocator. -/
structure StackSetup where
  esp : Nat
  outPage : Option Nat
  mem : Memory
  pmm : Pmm

/-- `elf_setup_user_stack`. There is no result when the name has no NUL. -/
def elfSetupUserStack (mem : Memory) (pmm : Pmm) (progName : Nat) : Option StackSetup :=
  match mem.strLen progName walkFuel with
  | none => none
  | some nameLen =>
      let nameBytes := nameLen + 1
      let (ustackPage, pmm) := pmm.pmmAllocUserPage
      if ustackPage = 0 then some ⟨0, none, mem, pmm⟩
      else
        let sp := (ustackPage + pageSize) % 2 ^ 32
        -- the string goes to the top of the page
        let strAddr := sub32 sp nameBytes
        let mem := mem.copyWrapped strAddr progName nameBytes
        -- the pointers go below the next multiple of 4
        let sp := strAddr / 4 * 4
        let sp := sub32 sp 4
        let mem := mem.store32 sp 0
        let sp := sub32 sp 4
        let mem := mem.store32 sp 0
        let sp := sub32 sp 4
        let mem := mem.store32 sp strAddr
        let sp := sub32 sp 4
        let mem := mem.store32 sp 1
        some ⟨sp, some ustackPage, mem, pmm⟩

/-- The stack for a program name in a page, with the name at `str`. -/
structure StackLayout (mem : Memory) (page : Nat) (name : List (BitVec 8)) (str esp : Nat)
    (mem' : Memory) : Prop where
  aligned : esp % 4 = 0
  /-- The four words lie in the page, below the name. -/
  words : page ≤ esp ∧ esp + 16 ≤ str
  /-- The name and its NUL end with the page. -/
  top : str + name.length + 1 = page + pageSize
  argc : mem'.load32 esp = 1
  argv0 : mem'.load32 (esp + 4) = str
  argvEnd : mem'.load32 (esp + 8) = 0
  envpEnd : mem'.load32 (esp + 12) = 0
  string : mem'.bytesAt str (name.length + 1) = name ++ [0]
  /-- Nothing outside the page is written. -/
  outside : ∀ x, x < page ∨ page + pageSize ≤ x → mem' x = mem x

variable {mem : Memory} {page str esp : Nat} {name : List (BitVec 8)}

/-- The four words of the stack, stored one below the other. -/
def storeFrame (mem : Memory) (esp str : Nat) : Memory :=
  (((mem.store32 (esp + 12) 0).store32 (esp + 8) 0).store32 (esp + 4) str).store32 esp 1

/-- The words do not touch what lies outside them. -/
theorem storeFrame_outside {x : Nat} (h : x < esp ∨ esp + 16 ≤ x) :
    storeFrame mem esp str x = mem x := by
  unfold storeFrame
  rw [store32_outside (by omega), store32_outside (by omega), store32_outside (by omega),
    store32_outside (by omega)]

/-- A page holds the layout when the words lie in it below the name. -/
theorem stackLayout_of {progName : Nat} (halign : esp % 4 = 0) (hlow : page ≤ esp)
    (hwords : esp + 16 ≤ str) (htop : str + name.length + 1 = page + pageSize)
    (hpage : page + pageSize ≤ 2 ^ 32) (hname : CString mem progName name)
    (hapart : progName + name.length < page ∨ page + pageSize ≤ progName) :
    StackLayout mem page name str esp
      (storeFrame (mem.copyBytes str progName (name.length + 1)) esp str) where
  aligned := halign
  words := ⟨hlow, hwords⟩
  top := htop
  argc := by
    rw [storeFrame]
    exact load32_store32 _ _ 1
  argv0 := by
    rw [storeFrame, load32_store32_disjoint (by omega), load32_store32, Nat.mod_eq_of_lt (by omega)]
  argvEnd := by
    rw [storeFrame, load32_store32_disjoint (by omega), load32_store32_disjoint (by omega)]
    exact load32_store32 _ _ 0
  envpEnd := by
    rw [storeFrame, load32_store32_disjoint (by omega), load32_store32_disjoint (by omega),
      load32_store32_disjoint (by omega)]
    exact load32_store32 _ _ 0
  string := by
    have hcopy := bytesAt_copyBytes (m := mem) (p := str) (q := progName) (n := name.length + 1)
      (by omega)
    rw [bytesAt_congr fun x h1 _ => storeFrame_outside (by omega), hcopy, hname.bytes]
  outside := by
    intro x hx
    rw [storeFrame_outside (by omega), copyBytes_outside (by omega)]

/-! ## The page -/

/-- The page from `pmm_alloc_user_page` ends inside the address space, and its bytes were free. -/
theorem userPage_free {pmm : Pmm} (hpmm : pmm.Wf) (hne : pmm.pmmAllocUserPage.1 ≠ 0) :
    pmm.pmmAllocUserPage.1 % pageSize = 0 ∧ pmm.pmmAllocUserPage.1 + pageSize ≤ 2 ^ 32 ∧
      ∀ x, pmm.pmmAllocUserPage.1 ≤ x → x < pmm.pmmAllocUserPage.1 + pageSize → pmm.FreeAt x := by
  obtain ⟨halign, hlow, hup, hfree, _⟩ := hpmm.user_page hne
  generalize pmm.pmmAllocUserPage.1 = page at *
  have hindex : Pmm.pageIndex page < pmm.totalPages := by
    simp only [Pmm.pageIndex, pageSize, managedBase, userMemStart] at *
    omega
  have htop := hpmm.addressable _ hindex hfree
  refine ⟨halign, ?_, fun x h1 h2 => ?_⟩
  · simp only [Pmm.pageIndex, pageSize, managedBase, userMemStart] at *
    omega
  · have hsame : Pmm.pageIndex x = Pmm.pageIndex page := by
      simp only [Pmm.pageIndex, pageSize, managedBase, userMemStart] at *
      omega
    have hbase : managedBase ≤ x := by
      simp only [managedBase, userMemStart] at *
      omega
    rw [Pmm.FreeAt, hsame]
    exact ⟨hbase, hindex, hfree⟩

/-- A name that lies in no free page lies outside the page that is handed out. -/
theorem name_apart {pmm : Pmm} {progName len : Nat}
    (hfree : ∀ x, page ≤ x → x < page + pageSize → pmm.FreeAt x)
    (hname : ∀ x, progName ≤ x → x ≤ progName + len → ¬ pmm.FreeAt x) :
    progName + len < page ∨ page + pageSize ≤ progName := by
  by_contra hover
  have hpage : 0 < pageSize := by decide
  have hboth := hfree (max progName page) (by omega) (by omega)
  exact hname (max progName page) (by omega) (by omega) hboth

/-- For every program name of at most 4076 bytes, `elf_setup_user_stack` returns the stack pointer
of a complete layout in the page it took, or 0 when there is no page. -/
theorem user_stack_layout (mem : Memory) (pmm : Pmm) (hpmm : pmm.Wf) (progName : Nat)
    (name : List (BitVec 8)) (hname : CString mem progName name) (hlen : name.length ≤ 4076)
    (hout : ∀ x, progName ≤ x → x ≤ progName + name.length → ¬ pmm.FreeAt x) :
    (pmm.pmmAllocUserPage.1 = 0 ∧
      elfSetupUserStack mem pmm progName = some ⟨0, none, mem, pmm.pmmAllocUserPage.2⟩) ∨
    (pmm.pmmAllocUserPage.1 ≠ 0 ∧ ∃ str esp mem',
      elfSetupUserStack mem pmm progName =
        some ⟨esp, some pmm.pmmAllocUserPage.1, mem', pmm.pmmAllocUserPage.2⟩ ∧
      StackLayout mem pmm.pmmAllocUserPage.1 name str esp mem') := by
  have hstrLen : mem.strLen progName walkFuel = some name.length := by
    have hfuel : name.length < walkFuel := by
      simp only [walkFuel]
      omega
    exact hname.strLen hfuel
  rw [elfSetupUserStack, hstrLen]
  dsimp only
  by_cases hpage : pmm.pmmAllocUserPage.1 = 0
  · exact .inl ⟨hpage, by rw [if_pos hpage]⟩
  · refine .inr ⟨hpage, ?_⟩
    rw [if_neg hpage]
    obtain ⟨halign, htop, hfree⟩ := userPage_free hpmm hpage
    have hapart := name_apart hfree hout
    have hfits := hname.fits
    generalize pmm.pmmAllocUserPage.1 = page at *
    simp only [pageSize] at *
    have hstr : sub32 ((page + 4096) % 2 ^ 32) (name.length + 1) = page + 4096 - (name.length + 1) :=
      sub32_of_le (by omega) htop (by omega)
    rw [hstr]
    set str := page + 4096 - (name.length + 1) with hstrdef
    have hcopy := copyWrapped_eq (m := mem) (show str + (name.length + 1) ≤ 2 ^ 32 by omega)
      (show progName + (name.length + 1) ≤ 2 ^ 32 by omega)
    -- four steps down from the aligned address below the name
    have hstep : ∀ a, 4 ≤ a → a < 2 ^ 32 → sub32 a 4 = a - 4 := by
      intro a h1 h2
      unfold sub32
      omega
    have hwords : 16 ≤ str / 4 * 4 ∧ str / 4 * 4 < 2 ^ 32 ∧ page + 16 ≤ str / 4 * 4 := by omega
    rw [hcopy, hstep (str / 4 * 4) (by omega) (by omega), hstep (str / 4 * 4 - 4) (by omega) (by omega),
      hstep (str / 4 * 4 - 4 - 4) (by omega) (by omega),
      hstep (str / 4 * 4 - 4 - 4 - 4) (by omega) (by omega)]
    set esp := str / 4 * 4 - 4 - 4 - 4 - 4 with hesp
    have h4 : str / 4 * 4 - 4 - 4 - 4 = esp + 4 := by omega
    have h8 : str / 4 * 4 - 4 - 4 = esp + 8 := by omega
    have h12 : str / 4 * 4 - 4 = esp + 12 := by omega
    rw [h4, h8, h12]
    exact ⟨str, esp, _, rfl, stackLayout_of (by omega) (by omega) (by omega)
      (by simp only [pageSize]; omega) (by simp only [pageSize]; omega) hname
      (by simp only [pageSize]; omega)⟩

/-- Memory that holds the name `"a"` at address `0x5000`. -/
def namedMem : Memory := fun x => if x = 0x5000 then 0x61#8 else 0

theorem namedMem_name : CString namedMem 0x5000 [0x61#8] where
  nonzero := by decide
  bytes := by decide
  fits := by decide

/-- The stack for a name of one byte. -/
theorem user_stack_layout_sample :
    (Pmm.sample.pmmAllocUserPage.1 = 0 ∧
      elfSetupUserStack namedMem Pmm.sample 0x5000 =
        some ⟨0, none, namedMem, Pmm.sample.pmmAllocUserPage.2⟩) ∨
    (Pmm.sample.pmmAllocUserPage.1 ≠ 0 ∧ ∃ str esp mem',
      elfSetupUserStack namedMem Pmm.sample 0x5000 =
        some ⟨esp, some Pmm.sample.pmmAllocUserPage.1, mem', Pmm.sample.pmmAllocUserPage.2⟩ ∧
      StackLayout namedMem Pmm.sample.pmmAllocUserPage.1 [0x61#8] str esp mem') :=
  user_stack_layout namedMem Pmm.sample Pmm.sample_wf 0x5000 [0x61#8] namedMem_name (by decide)
    fun x _ h2 hfree => by
      have hbase := hfree.1
      simp only [managedBase, List.length_singleton] at hbase h2
      omega

end Elf

end Kumo
