import Kumo.Mm.KheapCapacity
import Kumo.Sched.RingRuns
import Kumo.Sched.TableCopies

/-!
# Creating a task when memory runs out

`task_create_user_with_pages` makes up to five kinds of requests and never gives a page
back. It leaves no trace if the first request fails, and only then: from the kernel
stack on it must find everything it asks for. After a later failure it returns NULL with
pages lost, or goes on with page 0.
-/

namespace Kumo

open Memory Paging

namespace Pmm

/-- The page that a task's user stack gets, or 0 when the caller has one. -/
def stackPage (p : Pmm) (userEsp : Nat) : Nat := if userEsp = 0 then p.pmmAllocUserPage.1 else 0

/-- The pages that are marked for a task. -/
def pagesToMark (p : Pmm) (userEsp : Nat) (userPages : List Nat) : List Nat :=
  userPages ++ if p.stackPage userEsp ≠ 0 then [p.stackPage userEsp] else []

/-- What is left after a kernel stack, a directory, a user stack and a number of page tables. -/
def afterRequests (p : Pmm) (userEsp tables : Nat) : Pmm :=
  let p := (p.pmmAllocContiguousPages 2).2
  let p := p.pmmAllocPage.2
  let p := if userEsp = 0 then p.pmmAllocUserPage.2 else p
  p.takePages tables

end Pmm

namespace Sched

variable {s s' : Sched} {tasks : List Nat} {t r entryAddr userEsp : Nat} {userPages : List Nat}

/-- What a creation rests on: the blocks of the tasks, and the ring's pointer into them. -/
structure Stable (s : Sched) (tasks : List Nat) : Prop where
  backed : s.Backed tasks
  current : s.current ∈ tasks

/-- A frame of the kernel zone that was free before and is taken now. -/
structure NewFrame (s s' : Sched) (page : Nat) : Prop where
  taken : s'.heap.pmm.KernelPage page
  wasFree : s.heap.pmm.used (Pmm.pageIndex page) = false

/-- The bitmap, the ring and the next task id are what they were. -/
structure Undone (s s' : Sched) (tasks : List Nat) : Prop where
  pmm : s'.heap.pmm = s.heap.pmm
  ring : ∀ u ∈ tasks, ∀ off, IsField off → s'.field u off = s.field u off
  current : s'.current = s.current
  nextId : s'.nextId = s.nextId

/-- The directory of the task, and every table in it that is not the kernel's, are new frames. -/
structure OwnFrames (s s' : Sched) (t : Nat) : Prop where
  directory : NewFrame s s' (s'.field t cr3Off)
  tables : ∀ i, i < tableEntries →
    frameOf (s'.mem.entry (s'.field t cr3Off) i) = frameOf (s'.mem.entry s'.pdPhys i) ∨
      NewFrame s s' (frameOf (s'.mem.entry (s'.field t cr3Off) i))

/-- A creation returns: NULL without a trace, or a task in frames of its own. -/
def AllOrNothing (s : Sched) (tasks : List Nat) (result : Option (Nat × Sched)) : Prop :=
  ∃ t s', result = some (t, s') ∧ (t = 0 ∧ Undone s s' tasks ∨ t ≠ 0 ∧ OwnFrames s s' t)

/-- Every request of a creation can be met. -/
structure Affordable (s : Sched) (userEsp : Nat) (userPages : List Nat) : Prop where
  kernelStack : (s.heap.pmm.pmmAllocContiguousPages 2).1 ≠ 0
  userStack : userEsp = 0 → s.heap.pmm.pmmAllocUserPage.1 ≠ 0
  tables : ∀ i ∈ windows (s.heap.pmm.pagesToMark userEsp userPages), s.paging.HasTable i
  free : 3 + (windows (s.heap.pmm.pagesToMark userEsp userPages)).card ≤ s.heap.pmm.kernelFree
  block : Kheap.Serves
    { s.heap with
      pmm := s.heap.pmm.afterRequests userEsp
        (windows (s.heap.pmm.pagesToMark userEsp userPages)).card }
    (Kheap.neededSize taskSize)

/-! ## The requests before the tables -/

theorem afterClone_pmm (s : Sched) :
    s.afterClone.pmm = s.afterStack.heap.pmm.pmmAllocPage.2 := by
  unfold afterClone Paging.pagingCloneKernelPd
  dsimp only
  split <;> rfl

theorem newDirectory_eq_zero (s : Sched) :
    s.newDirectory = 0 ↔ s.afterStack.heap.pmm.kernelFree = 0 := by
  rw [← Pmm.pmmAllocPage_eq_zero]
  unfold newDirectory Paging.pagingCloneKernelPd
  dsimp only
  split
  · next h => exact iff_of_true rfl h
  · exact Iff.rfl

theorem newUserStack_eq (s : Sched) (userEsp : Nat) :
    s.newUserStack userEsp = s.heap.pmm.stackPage userEsp := by
  have h1 : s.afterClone.pmm.pmmAllocUserPage.1 = s.afterStack.heap.pmm.pmmAllocUserPage.1 := by
    rw [afterClone_pmm]
    exact Pmm.pmmAllocUserPage_kernel (c := .page) rfl
  have h2 : s.afterStack.heap.pmm.pmmAllocUserPage.1 = s.heap.pmm.pmmAllocUserPage.1 :=
    Pmm.pmmAllocUserPage_kernel (c := .contiguous 2) rfl
  rw [newUserStack, Pmm.stackPage, h1, h2]

theorem markedPages_eq (s : Sched) (userEsp : Nat) (userPages : List Nat) :
    s.markedPages userEsp userPages = s.heap.pmm.pagesToMark userEsp userPages := by
  rw [markedPages, Pmm.pagesToMark, newUserStack_eq]

/-- The kernel stack costs two pages, the directory one, and the user stack none of the zone. -/
theorem kernelFree_stack (h0 : (s.heap.pmm.pmmAllocContiguousPages 2).1 ≠ 0) :
    s.afterStack.heap.pmm.kernelFree + 2 = s.heap.pmm.kernelFree :=
  Pmm.kernelFree_call (c := .contiguous 2) rfl h0

theorem Backed.kernelFree_clone (hb : s.Backed tasks) :
    s.afterClone.pmm.kernelFree = s.afterStack.heap.pmm.kernelFree - 1 := by
  rw [afterClone_pmm, Pmm.kernelFree_pmmAllocPage hb.afterStack.1]

theorem kernelFree_userStack (s : Sched) (userEsp : Nat) :
    (s.afterUserStack userEsp).pmm.kernelFree = s.afterClone.pmm.kernelFree := by
  unfold afterUserStack
  dsimp only
  split
  · exact Pmm.kernelFree_user (c := .userPage) rfl
  · rfl

/-- A creation that took its kernel stack is not undone. -/
theorem Undone.not_of_lt (hlt : s'.heap.pmm.kernelFree < s.heap.pmm.kernelFree) :
    ¬ Undone s s' tasks := by
  intro h
  rw [h.pmm] at hlt
  exact absurd hlt (Nat.lt_irrefl _)

/-! ## The tables -/

theorem Stable.shared (hs : s.Stable tasks) {i : Nat} (hi : i < tableEntries)
    (htable : s.paging.HasTable i) : s.afterStack.heap.pmm.taken.has
      (frameOf (s.mem.entry s.pdPhys i)) := by
  have hpresent : present (s.mem.entry s.pdPhys i) = true := by
    by_contra hno
    exact htable (hs.backed.tables.absent i hi (Bool.eq_false_iff.mpr hno))
  exact (hs.backed.tables.table i hi hpresent).1.mono hs.backed.afterStack.2.1.used

/-- The directory before the first page is marked. -/
theorem Stable.building (hs : s.Stable tasks) (userEsp : Nat) (hD : s.newDirectory ≠ 0) :
    Building s.afterStack.heap.pmm.taken (s.afterUserStack userEsp) s.newDirectory ∅ := by
  have hb := hs.backed
  have hclone : Building s.afterStack.heap.pmm.taken s.afterClone s.newDirectory ∅ :=
    Building.clone _ (p := s.afterStack.paging) hb.afterStack.1 (fun _ h => h)
      (hb.tables.dir.1.mono hb.afterStack.2.1.used) (fun i hi htable => hs.shared hi htable) rfl hD
  obtain ⟨hwf, _, hused, _⟩ := hb.afterUserStack userEsp
  exact hclone.pmm hwf hused

/-- The tables can be had just if there are enough pages for the whole creation. -/
theorem Stable.enough_iff (hs : s.Stable tasks) (hpages : ∀ a ∈ userPages, a < 2 ^ 32)
    (h0 : (s.heap.pmm.pmmAllocContiguousPages 2).1 ≠ 0) (hD : s.newDirectory ≠ 0) :
    (s.afterUserStack userEsp).Enough ∅ (s.markedPages userEsp userPages) ↔
      (∀ i ∈ windows (s.heap.pmm.pagesToMark userEsp userPages), s.paging.HasTable i) ∧
      3 + (windows (s.heap.pmm.pagesToMark userEsp userPages)).card ≤ s.heap.pmm.kernelFree := by
  have hb := hs.backed
  have hstack := kernelFree_stack h0
  have hclone := hb.kernelFree_clone
  have hdir : s.afterStack.heap.pmm.kernelFree ≠ 0 := fun h => hD ((newDirectory_eq_zero s).mpr h)
  have hmarked := hb.markedPages_lt userEsp hpages
  have hkeeps := (hb.afterUserStack userEsp).2.1
  have hK := (hs.building userEsp hD).tables.kernel
  rw [markedPages_eq] at hmarked ⊢
  have htable : ∀ i ∈ windows (s.heap.pmm.pagesToMark userEsp userPages),
      ((s.afterUserStack userEsp).HasTable i ↔ s.paging.HasTable i) := by
    intro i hi
    rw [hkeeps.pdPhys] at hK
    exact hkeeps.hasTable hK (windows_lt hmarked hi)
  have hfree := kernelFree_userStack s userEsp
  constructor
  · rintro ⟨h1, h2⟩
    rw [Finset.sdiff_empty] at h1 h2
    exact ⟨fun i hi => (htable i hi).mp (h1 i hi), by omega⟩
  · rintro ⟨h1, h2⟩
    constructor
    · rw [Finset.sdiff_empty]
      exact fun i hi => (htable i hi).mpr (h1 i hi)
    · rw [Finset.sdiff_empty]
      omega

/-! ## The control block -/

/-- The request for the control block, when everything else was met. -/
theorem Stable.block_iff (r entryAddr userEsp : Nat) (hs : s.Stable tasks) {p : Paging}
    (h0 : (s.heap.pmm.pmmAllocContiguousPages 2).1 ≠ 0) (hwf : p.pmm.Wf)
    (hkeeps : Paging.Keeps s.afterStack.heap.pmm.taken s.afterStack.paging p) :
    ∃ t heap, (s.setPaging (Sched.withFrame r entryAddr userEsp s p)).heap.kmalloc taskSize =
        some (t, heap) ∧
      (t ≠ 0 ↔ Kheap.Serves { s.heap with pmm := p.pmm } (Kheap.neededSize taskSize)) := by
  have hb := hs.backed
  obtain ⟨hk5, _⟩ := hb.withFrame r entryAddr userEsp h0 hkeeps.used
  have hprep : s.Prepares (Sched.withFrame r entryAddr userEsp s p) :=
    hb.prepares.keeps hwf ((hb.keeps_of_afterStack hkeeps).trans hk5)
  obtain ⟨hb5, _⟩ := hprep.backed hb
  obtain ⟨tiles, fl, hl, _⟩ := hb5.heap
  have hregion : Kheap.neededSize taskSize ≤ expandPages * pageSize := by decide
  obtain ⟨t, heap, hrun, hiff⟩ := Kheap.Wf.kmalloc_served ⟨tiles, fl, hl⟩ hregion
  refine ⟨t, heap, hrun, hiff.trans ?_⟩
  obtain ⟨tiles0, fl0, hl0, _⟩ := hb.heap.of_pmm hwf hprep.used
  refine Kheap.Wf.serves_of_same (h := { s.heap with pmm := p.pmm }) ⟨tiles0, fl0, hl0⟩
    fun x hx => ?_
  exact hprep.same (pageOf x) x ⟨hb.heap.pages _ hx, hx⟩ (by simp only [pageOf, pageSize]; omega)
    (by simp only [pageOf, pageSize]; omega)

/-! ## The result -/

/-- A page that was not taken with the kernel stack was free before the call. -/
theorem Stable.newFrame (hs : s.Stable tasks) {p : Paging} {page : Nat}
    (hpage : p.pmm.KernelPage page) (hnew : ¬ s.afterStack.heap.pmm.taken.has page)
    (hused : ∀ i, p.pmm.used i = true → s'.heap.pmm.used i = true) : NewFrame s s' page := by
  refine ⟨hpage.mono hused, ?_⟩
  by_contra htaken
  refine hnew ⟨hpage.aligned, hpage.lower, hpage.upper, ?_⟩
  exact hs.backed.afterStack.2.1.used _ (Bool.not_eq_false _ ▸ htaken)

/-- The finished task has its directory and its tables in new frames. -/
theorem Stable.ownFrames (hs : s.Stable tasks) {p : Paging}
    (h0 : (s.heap.pmm.pmmAllocContiguousPages 2).1 ≠ 0) (hwf : p.pmm.Wf)
    (hkeeps : Paging.Keeps s.afterStack.heap.pmm.taken s.afterStack.paging p)
    (hpriv : Private s.afterStack.heap.pmm.taken p.pmm.taken p.mem p.pdPhys s.newDirectory)
    (hrun : (s.setPaging (Sched.withFrame r entryAddr userEsp s p)).addTask (s.newKernelTop - 40)
      (some s.newKernelTop) s.newDirectory = some (t, s')) : t ≠ 0 ∧ OwnFrames s s' t := by
  have hb := hs.backed
  obtain ⟨hk5, _⟩ := hb.withFrame r entryAddr userEsp h0 hkeeps.used
  have hprep : s.Prepares (Sched.withFrame r entryAddr userEsp s p) :=
    hb.prepares.keeps hwf ((hb.keeps_of_afterStack hkeeps).trans hk5)
  obtain ⟨hb5, _⟩ := hprep.backed hb
  obtain ⟨hadded, hblock⟩ := hb5.addTask hs.current hrun
  -- the kernel stack is neither the kernel's directory nor the task's
  set stackPage := (s.heap.pmm.pmmAllocContiguousPages 2).1 + pageSize with hstack
  obtain ⟨hpage, hfree⟩ := hb.afterStack.2.2 h0 1 (by decide)
  rw [Nat.one_mul] at hpage hfree
  obtain ⟨hbase, _⟩ := hb.afterStack.2.2 h0 0 (by decide)
  rw [Nat.zero_mul, Nat.add_zero] at hbase
  have hK := hb.tables.dir
  have hKstack : s.pdPhys ≠ stackPage := by
    intro heq
    have htaken := hK.1.taken
    rw [heq, hfree] at htaken
    cases htaken
  have hDstack : s.newDirectory ≠ stackPage := fun heq => hpriv.dirNew (heq ▸ hpage)
  have hDheap : s.newDirectory ∉ s.heap.heapPages := fun hmem =>
    hpriv.dirNew ((hb.heap.pages _ hmem).mono hb.afterStack.2.1.used)
  set words := Kernel.initialFrame r entryAddr (s.newUserTop userEsp) with hwords
  have hnot : ¬ (p.pmm.outside [stackPage]).has
      ((s.heap.pmm.pmmAllocContiguousPages 2).1 + pageSize) := fun h =>
    h.2 (List.mem_singleton.mpr rfl)
  have hlen : 4 * words.length ≤ pageSize := by simp [hwords, Kernel.initialFrame, pageSize]
  have hkept : (p.pmm.outside [stackPage]).Same p.mem
      (Sched.withFrame r entryAddr userEsp s p).mem := storeStack_same hbase.aligned hnot hlen
  have hentry : ∀ T, p.pmm.KernelPage T → T ∉ s.heap.heapPages → T ≠ stackPage →
      ∀ i, i < tableEntries → s'.mem.entry T i = p.mem.entry T i := by
    intro T hT hTheap hTstack i hi
    have h1 := hkept.entry (q := T) (i := i) ⟨hT, by simpa using hTstack⟩ hi
    have h2 := hadded.same.entry (q := T) (i := i) ⟨hT, hTheap⟩ hi
    exact h2.trans h1
  have hpd : p.pdPhys = s.pdPhys := hkeeps.pdPhys
  have hKentry : ∀ i, i < tableEntries → s'.mem.entry s'.pdPhys i = p.mem.entry p.pdPhys i := by
    intro i hi
    have hpd' : s'.pdPhys = s.pdPhys := hadded.pdPhys.trans hpd
    rw [hpd', hpd]
    exact hentry _ (hK.1.mono hprep.used) hK.2 hKstack i hi
  have hDentry := hentry _ hpriv.dir hDheap hDstack
  have hcr3 : s'.field t cr3Off = s.newDirectory := by
    rw [hblock.cr3]
    refine Nat.mod_eq_of_lt ?_
    have := hpriv.dir.upper
    simp only [userMemStart, pageSize] at this
    omega
  refine ⟨hadded.nonzero, ⟨?_, fun i hi => ?_⟩⟩
  · rw [hcr3]
    exact hs.newFrame hpriv.dir hpriv.dirNew hadded.used
  · rw [hcr3, hDentry i hi, hKentry i hi]
    refine (hpriv.table i hi).imp id ?_
    rintro ⟨h1, h2, -⟩
    exact hs.newFrame h1 h2 hadded.used

/-- If the first request is refused, nothing happened. -/
theorem Backed.undone (hb : s.Backed tasks) (h0 : (s.heap.pmm.pmmAllocContiguousPages 2).1 = 0) :
    Undone s s.afterStack tasks :=
  ⟨Pmm.call_refused (c := .contiguous 2) hb.heap.pmm_wf h0, fun _ _ _ _ => rfl, rfl, rfl⟩

theorem afterUserStack_takePages (s : Sched) (userEsp n : Nat) :
    (s.afterUserStack userEsp).pmm.takePages n = s.heap.pmm.afterRequests userEsp n := by
  unfold afterUserStack Pmm.afterRequests
  rw [afterClone_pmm]
  rfl

/-- The pages are marked when there are enough. -/
theorem Stable.marked (hs : s.Stable tasks) (hpages : ∀ a ∈ userPages, a < 2 ^ 32)
    (hD : s.newDirectory ≠ 0)
    (henough : (s.afterUserStack userEsp).Enough ∅ (s.markedPages userEsp userPages)) :
    ∃ p, Kernel.markPages (s.afterUserStack userEsp) s.newDirectory
        (s.markedPages userEsp userPages) = some p ∧
      p.pmm = s.heap.pmm.afterRequests userEsp
        (windows (s.heap.pmm.pagesToMark userEsp userPages)).card ∧ p.pmm.Wf ∧
      Paging.Keeps s.afterStack.heap.pmm.taken s.afterStack.paging p ∧
      Private s.afterStack.heap.pmm.taken p.pmm.taken p.mem p.pdPhys s.newDirectory := by
  obtain ⟨p, hrun, hpmm, hkeeps, hwf, hpriv⟩ := (hs.building userEsp hD).markPages
    (hs.backed.markedPages_lt userEsp hpages) henough
  refine ⟨p, hrun, ?_, hwf, (hs.backed.afterUserStack userEsp).2.1.trans hkeeps, hpriv⟩
  rw [hpmm, Finset.sdiff_empty, markedPages_eq, afterUserStack_takePages]

/-- A creation for which there is not enough fails with pages lost, or goes on with page 0. -/
theorem Stable.affordable_of (hs : s.Stable tasks) (hpages : ∀ a ∈ userPages, a < 2 ^ 32)
    (h0 : (s.heap.pmm.pmmAllocContiguousPages 2).1 ≠ 0)
    (hall : AllOrNothing s tasks (taskCreateUserWithPages r s entryAddr userEsp userPages)) :
    s.Affordable userEsp userPages := by
  have hb := hs.backed
  obtain ⟨t, s', hrun, hend⟩ := hall
  have hstack := kernelFree_stack h0
  have hclone := hb.kernelFree_clone
  have huser := kernelFree_userStack s userEsp
  -- NULL after the first request is NULL with pages lost
  have hlost : ∀ p : Paging, p.pmm.kernelFree < s.heap.pmm.kernelFree →
      some (0, s.setPaging p) ≠ some (t, s') := by
    intro p hlt heq
    obtain ⟨rfl, rfl⟩ := Prod.mk.inj (Option.some.inj heq)
    rcases hend with ⟨_, hundone⟩ | ⟨hne, _⟩
    · have hlt' : (s.setPaging p).heap.pmm.kernelFree < s.heap.pmm.kernelFree := hlt
      exact Undone.not_of_lt hlt' hundone
    · exact hne rfl
  rw [taskCreateUserWithPages_eq, if_neg h0] at hrun
  by_cases hD : s.newDirectory = 0
  · rw [if_pos hD] at hrun
    exact absurd hrun (hlost _ (by omega))
  rw [if_neg hD] at hrun
  by_cases hfail : userEsp = 0 ∧ s.newUserStack userEsp = 0
  · rw [if_pos hfail] at hrun
    exact absurd hrun (hlost _ (by omega))
  rw [if_neg hfail] at hrun
  cases hmark : Kernel.markPages (s.afterUserStack userEsp) s.newDirectory
      (s.markedPages userEsp userPages) with
  | none => rw [hmark] at hrun; cases hrun
  | some p =>
      have henough := (hs.building userEsp hD).enough_of_markPages
        (hb.markedPages_lt userEsp hpages) hmark
      obtain ⟨p', hmark', hpmm, hwf, hkeeps, _⟩ := hs.marked hpages hD henough
      obtain rfl := Option.some.inj (hmark.symm.trans hmark')
      obtain ⟨htables, hfree⟩ := (hs.enough_iff hpages h0 hD).mp henough
      obtain ⟨u, heap, halloc, hserves⟩ := hs.block_iff r entryAddr userEsp h0 hwf hkeeps
      refine ⟨h0, fun hesp h => hfail ⟨hesp, ?_⟩, htables, hfree, ?_⟩
      · rw [newUserStack_eq, Pmm.stackPage, if_pos hesp]
        exact h
      · rw [← hpmm]
        refine hserves.mp fun hu => ?_
        rw [hmark] at hrun
        dsimp only at hrun
        rw [addTask, halloc] at hrun
        dsimp only at hrun
        rw [if_pos hu] at hrun
        cases hrun

/-- A creation for which there is enough gives a task in frames of its own. -/
theorem Stable.granted (r entryAddr : Nat) (hs : s.Stable tasks) (hpages : ∀ a ∈ userPages, a < 2 ^ 32)
    (haff : s.Affordable userEsp userPages) :
    ∃ t s', taskCreateUserWithPages r s entryAddr userEsp userPages = some (t, s') ∧ t ≠ 0 ∧
      OwnFrames s s' t := by
  have h0 := haff.kernelStack
  have hstack := kernelFree_stack h0
  have hfree := haff.free
  have hD : s.newDirectory ≠ 0 := by
    rw [Ne, newDirectory_eq_zero]
    omega
  have hok : ¬ (userEsp = 0 ∧ s.newUserStack userEsp = 0) := by
    rintro ⟨hesp, h⟩
    rw [newUserStack_eq, Pmm.stackPage, if_pos hesp] at h
    exact haff.userStack hesp h
  obtain ⟨p, hmark, hpmm, hwf, hkeeps, hpriv⟩ :=
    hs.marked hpages hD ((hs.enough_iff hpages h0 hD).mpr ⟨haff.tables, haff.free⟩)
  obtain ⟨u, heap, halloc, hserves⟩ := hs.block_iff r entryAddr userEsp h0 hwf hkeeps
  have hu : u ≠ 0 := hserves.mpr (hpmm ▸ haff.block)
  obtain ⟨⟨t, s'⟩, hadd⟩ : ∃ result, (s.setPaging (Sched.withFrame r entryAddr userEsp s p)).addTask
      (s.newKernelTop - 40) (some s.newKernelTop) s.newDirectory = some result := by
    rw [addTask, halloc]
    dsimp only
    rw [if_neg hu]
    exact ⟨_, rfl⟩
  refine ⟨t, s', ?_, hs.ownFrames h0 hwf hkeeps hpriv hadd⟩
  rw [taskCreateUserWithPages_eq, if_neg h0, if_neg hD, if_neg hok, hmark]
  exact hadd

/-- A creation is all or nothing exactly when the request for the kernel stack is refused, or every
request can be met. -/
theorem create_all_or_nothing_iff (r : Nat) (s : Sched) (tasks : List Nat)
    (entryAddr userEsp : Nat) (userPages : List Nat) (hs : s.Stable tasks)
    (hpages : ∀ a ∈ userPages, a < 2 ^ 32) :
    AllOrNothing s tasks (taskCreateUserWithPages r s entryAddr userEsp userPages) ↔
      (s.heap.pmm.pmmAllocContiguousPages 2).1 = 0 ∨ s.Affordable userEsp userPages := by
  by_cases h0 : (s.heap.pmm.pmmAllocContiguousPages 2).1 = 0
  · refine iff_of_true ⟨0, s.afterStack, ?_, .inl ⟨rfl, hs.backed.undone h0⟩⟩ (.inl h0)
    rw [taskCreateUserWithPages_eq, if_pos h0]
  · rw [or_iff_right h0]
    constructor
    · exact hs.affordable_of hpages h0
    · intro haff
      obtain ⟨t, s', hrun, hne, hown⟩ := hs.granted r entryAddr hpages haff
      exact ⟨t, s', hrun, .inr ⟨hne, hown⟩⟩

/-- Every state that creations and yields reach is one that creations can start in. -/
theorem stable_of_inv {run : SchedRun} (h : run.Inv) : run.sched.Stable run.tasks :=
  ⟨h.backed, h.current_mem⟩

/-- The first creation after boot, on the concrete machine. -/
theorem create_all_or_nothing_iff_sample : ∃ s,
    boot (fun _ => 0) Kernel.samplePmm 0x802000 none = some s ∧
      (AllOrNothing s [s.current]
          (taskCreateUserWithPages 0x100000 s 0x800000 0 [0x800000]) ↔
        (s.heap.pmm.pmmAllocContiguousPages 2).1 = 0 ∨ s.Affordable 0 [0x800000]) := by
  obtain ⟨s, hboot⟩ := Option.isSome_iff_exists.mp boot_sample
  have hinv := SchedRun.boot_inv Kernel.samplePmm_wf rfl (by decide) (by simp) hboot
  exact ⟨s, hboot, create_all_or_nothing_iff 0x100000 s [s.current] 0x800000 0 [0x800000]
    (stable_of_inv hinv) (by decide)⟩

/-- A machine whose kernel zone has two free pages left after boot. -/
def scarcePmm : Pmm where
  bitmap := fun n =>
    if n < 2 then 0#8 else if n = 2 then 0xC0#8 else if n = 224 then 0xFC#8 else 0xFF#8
  totalPages := pmmTotalPages 0x802000
  freePages := 24

theorem scarcePmm_wf : scarcePmm.Wf := by
  refine ⟨by decide +kernel, fun i hi _ => ?_⟩
  have htotal : scarcePmm.totalPages = 0x702 := by decide
  simp only [managedBase, pageSize] at *
  omega

/-- There the kernel stack takes both pages, the directory is refused, and NULL is returned with
the pages still marked. -/
theorem create_loses_pages : ¬ ∀ (r : Nat) (s : Sched) (tasks : List Nat)
    (entryAddr userEsp : Nat) (userPages : List Nat), s.Stable tasks →
    (∀ a ∈ userPages, a < 2 ^ 32) →
    AllOrNothing s tasks (taskCreateUserWithPages r s entryAddr userEsp userPages) := by
  intro hclaim
  have hvalue : (boot (fun _ => 0) scarcePmm 0x802000 none).bind (fun s =>
      (taskCreateUserWithPages 0x100000 s 0x800000 0 [0x800000]).map fun result =>
        (s.heap.pmm.freePages, result.1, result.2.heap.pmm.freePages)) = some (4, 0, 2) := by
    decide +kernel
  obtain ⟨s, hboot, hcreate⟩ := Option.bind_eq_some_iff.mp hvalue
  obtain ⟨⟨t, s'⟩, hrun, heq⟩ := Option.map_eq_some_iff.mp hcreate
  obtain ⟨hbefore, rest⟩ := Prod.mk.inj heq
  obtain ⟨ht, hafter⟩ := Prod.mk.inj rest
  have hinv := SchedRun.boot_inv scarcePmm_wf rfl (by decide) (by simp) hboot
  obtain ⟨t', s'', hrun', hend⟩ := hclaim 0x100000 s [s.current] 0x800000 0 [0x800000]
    (stable_of_inv hinv) (by decide)
  obtain ⟨rfl, rfl⟩ := Prod.mk.inj (Option.some.inj (hrun.symm.trans hrun'))
  rcases hend with ⟨_, hundone⟩ | ⟨hne, _⟩
  · rw [hundone.pmm, hbefore] at hafter
    cases hafter
  · exact hne ht

end Sched

end Kumo
