import Kumo.Sched.RingRuns

/-!
# Launching tasks

Between `task_init` and `sti`, `kmain` creates user tasks, and nothing is scheduled. The kernel's
own image, with its variables and the stack it was booted on, lies in pages that were taken before
the page allocator gave out any. The invariant of this part of a run is that these pages stay
reserved, and that each task launched so far still has its kernel stack, in pages of its own,
with the frame that its creation has built.
-/

namespace Kumo

open Memory Transition

/-! ## The pages that the boot finds taken -/

namespace Paging

theorem initTables_used {steps n : Nat} {p p' : Paging} (hrun : p.initTables steps n = some p')
    {i : Nat} (hi : p.pmm.used i = true) : p'.pmm.used i = true := by
  induction steps generalizing p n with
  | zero =>
      obtain rfl := Option.some.inj hrun
      exact hi
  | succ steps ih =>
      obtain ⟨q, u, halloc⟩ : ∃ q u, p.pmm.pmmAllocPage = (q, u) := ⟨_, _, rfl⟩
      rw [initTables, halloc] at hrun
      dsimp only at hrun
      by_cases hq : q = 0
      · rw [if_pos hq] at hrun
        cases hrun
      · rw [if_neg hq] at hrun
        have hu : (p.pmm.call .page).2 = u := congrArg Prod.snd halloc
        refine ih hrun ?_
        show u.used i = true
        rw [← hu]
        exact Pmm.used_call .page hi

/-- `paging_init` takes pages and gives none back. -/
theorem pagingInit_used {p p' : Paging} (hrun : p.pagingInit = some p') {i : Nat}
    (hi : p.pmm.used i = true) : p'.pmm.used i = true := by
  obtain ⟨pd, u, halloc⟩ : ∃ pd u, p.pmm.pmmAllocPage = (pd, u) := ⟨_, _, rfl⟩
  have hu : (p.pmm.call .page).2 = u := congrArg Prod.snd halloc
  rw [pagingInit, halloc] at hrun
  dsimp only at hrun
  by_cases hpd : pd = 0
  · rw [if_pos hpd] at hrun
    cases hrun
  rw [if_neg hpd] at hrun
  generalize hinit : initTables _ _ _ = tables at hrun
  cases tables with
  | none => cases hrun
  | some p1 =>
      dsimp only at hrun
      split at hrun
      · obtain rfl := Option.some.inj hrun
        refine initTables_used hinit ?_
        show u.used i = true
        rw [← hu]
        exact Pmm.used_call .page hi
      · cases hrun

@[simp] theorem pagingUnmapNullPage_pmm (p : Paging) : p.pagingUnmapNullPage.pmm = p.pmm := by
  unfold pagingUnmapNullPage
  dsimp only
  split <;> rfl

end Paging

/-- The pages that were taken before the boot are never the heap's. -/
theorem Kernel.bootMemory_reserved {mem : Memory} {pmm : Pmm} {top : Nat}
    {framebuffer : Option (Nat × Nat)} {k : Kernel} (hwf : pmm.Wf)
    (htotal : pmm.totalPages = pmmTotalPages top) (htop : top < 2 ^ 32)
    (hfb : ∀ fb ∈ framebuffer, fb.1 < 2 ^ 32) (hrun : bootMemory mem pmm top framebuffer = some k)
    {q : Nat} (hq : pmm.taken.has q) : k.heap.reserved.has q := by
  obtain ⟨p, hinit, hrest⟩ := Option.bind_eq_some_iff.mp hrun
  obtain ⟨hmapped, htopeq, htotaleq⟩ := Paging.pagingInit_mapped
    (p := { mem := mem, pmm := pmm, pdPhys := 0, topOfMemory := top }) hwf htop hinit
  dsimp only at htopeq htotaleq
  obtain ⟨hs0, -, -⟩ := bareKernel_sound hmapped (by rw [htotaleq, htopeq]; exact htotal)
  rw [htopeq] at hs0
  have hq1 : p.pmm.taken.has q := hq.mono fun i => Paging.pagingInit_used hinit
  have hq2 : (bareKernel p.pagingUnmapNullPage top).heap.reserved.has q := by
    show (Kheap.kheapInit p.pagingUnmapNullPage.mem p.pagingUnmapNullPage.pmm).reserved.has q
    rw [Paging.pagingUnmapNullPage_pmm]
    obtain ⟨_, _, -, hkeeps⟩ := laid_kheapInit p.pagingUnmapNullPage.mem hmapped.wf
    exact hkeeps.grows.reserved.1 q ⟨hq1, List.not_mem_nil⟩
  obtain ⟨p1, hmap, rfl⟩ := Option.map_eq_some_iff.mp hrest
  cases framebuffer with
  | none =>
      obtain rfl := Option.some.inj hmap
      exact hq2
  | some fb =>
      obtain ⟨tiles, fl, hl⟩ := hs0.heap
      obtain ⟨addrs, hmaps⟩ := Paging.mapPhysRange_maps
        (p := (bareKernel p.pagingUnmapNullPage top).paging) hl.pmm hl.pages hs0.dir (hfb fb rfl) hmap
      exact ⟨hq2.1.mono hmaps.used, hq2.2⟩

/-- So it is after `task_init`. -/
theorem Sched.boot_reserved {mem : Memory} {pmm : Pmm} {top : Nat}
    {framebuffer : Option (Nat × Nat)} {s : Sched} (hwf : pmm.Wf)
    (htotal : pmm.totalPages = pmmTotalPages top) (htop : top < 2 ^ 32)
    (hfb : ∀ fb ∈ framebuffer, fb.1 < 2 ^ 32) (hboot : Sched.boot mem pmm top framebuffer = some s)
    {q : Nat} (hq : pmm.taken.has q) : s.heap.reserved.has q := by
  obtain ⟨k, hk, hinit⟩ := Option.bind_eq_some_iff.mp hboot
  obtain ⟨hs, -⟩ := Kernel.bootMemory_sound hwf htotal htop hfb hk
  have hqk := Kernel.bootMemory_reserved hwf htotal htop hfb hk hq
  unfold Sched.taskInit at hinit
  cases halloc : (Sched.ofKernel k).heap.kmalloc taskSize with
  | none => rw [halloc] at hinit; cases hinit
  | some r =>
      obtain ⟨idle, heap⟩ := r
      rw [halloc] at hinit
      dsimp only at hinit
      split at hinit
      · cases hinit
      · obtain rfl := Option.some.inj hinit
        exact (hs.kmalloc (by decide) halloc).1.reserved q hqk

/-! ## Launches -/

/-- A task that has been created, the top of its kernel stack, and the registers it starts with. -/
structure Launch where
  task : Nat
  kernelTop : Nat
  entry : Nat
  userEsp : Nat

/-- The scheduler, and the tasks created by `task_create_user_with_pages`. -/
structure LaunchRun where
  run : SchedRun
  launched : List Launch

namespace LaunchRun

/-- What an event between the states `s` and `s'` has launched. -/
def launches (s s' : SchedRun) : SchedEvent → List Launch
  | .createUserWithPages entryAddr userEsp _ =>
      (s'.tasks.drop s.tasks.length).map fun t =>
        { task := t, kernelTop := s.sched.newKernelTop, entry := entryAddr,
          userEsp := s.sched.newUserTop userEsp % 2 ^ 32 }
  | _ => []

/-- One event. -/
def step (returnToRing3 : Nat) (s : LaunchRun) (e : SchedEvent) : Option LaunchRun :=
  (s.run.step returnToRing3 e).map fun run =>
    { run := run, launched := s.launched ++ launches s.run run e }

/-- What `kmain` does between `task_init` and `sti`: it creates user tasks, takes pages and memory,
and writes to user pages. -/
def Launches : SchedEvent → Prop
  | .createUserWithPages entryAddr _ userPages =>
      entryAddr < 2 ^ 32 ∧ ∀ page ∈ userPages, page < 2 ^ 32
  | .create _ | .createUser _ _ | .yield _ => False
  | e => SchedRun.Valid e

instance : DecidablePred Launches
  | .create _ => isFalse id
  | .createUser _ _ => isFalse id
  | .createUserWithPages _ _ _ => inferInstanceAs (Decidable (_ < _ ∧ ∀ _ ∈ _, _))
  | .yield _ => isFalse id
  | .pages _ => isTrue trivial
  | .kmalloc _ => inferInstanceAs (Decidable (_ < _))
  | .store _ _ => inferInstanceAs (Decidable (_ ≤ _))

/-! ## The invariant -/

/-- A launched task is as its creation has left it: its kernel stack is its own, with the first
frame at the top. -/
structure Stands (r : Nat) (s : Sched) (l : Launch) : Prop where
  stack : ∃ base, l.kernelTop = base + 2 * pageSize ∧
    ∀ i, i < 2 → s.heap.reserved.has (base + i * pageSize)
  top : s.field l.task kernelStackTopOff = l.kernelTop
  esp : s.field l.task espOff + 40 = l.kernelTop
  frame : ∀ i (hi : i < 10),
    s.mem.load32 (l.kernelTop - 40 + 4 * i) = (Kernel.initialFrame r l.entry l.userEsp)[i]

/-- The kernel stacks of two tasks do not overlap. -/
def Apart (l l' : Launch) : Prop :=
  l.kernelTop + 2 * pageSize ≤ l'.kernelTop ∨ l'.kernelTop + 2 * pageSize ≤ l.kernelTop

instance : Std.Symm Apart := ⟨fun _ _ h => h.symm⟩

/-- Where a launch has been, as seen from the pages `image` of the kernel. -/
structure Inv (r : Nat) (image : PageSet) (s : LaunchRun) : Prop where
  run : s.run.Inv
  tasks : s.run.tasks = s.run.sched.current :: s.launched.map Launch.task
  kept : ∀ q, image.has q → s.run.sched.heap.reserved.has q
  stands : ∀ l ∈ s.launched, Stands r s.run.sched l
  apart : s.launched.Pairwise Apart
  outside : ∀ l ∈ s.launched, ∀ q, image.has q →
    q + pageSize + 2 * pageSize ≤ l.kernelTop ∨ l.kernelTop ≤ q

variable {r : Nat} {image : PageSet} {s s' : LaunchRun} {sched sched' : Sched} {l : Launch}
  {t entryAddr userEsp : Nat} {userPages : List Nat} {e : SchedEvent}

/-- The address of a kernel stack. -/
theorem Stands.bounds (h : Stands r sched l) :
    2 * pageSize ≤ l.kernelTop ∧ l.kernelTop % pageSize = 0 ∧ l.kernelTop ≤ userMemStart := by
  obtain ⟨base, htop, hpages⟩ := h.stack
  have hupper := (hpages 1 (by omega)).1.upper
  have haligned := (hpages 1 (by omega)).1.aligned
  simp only [pageSize] at *
  omega

/-- What keeps the reserved pages and the words of a block keeps the task. -/
theorem Stands.keep (h : Stands r sched l)
    (htop : sched'.field l.task kernelStackTopOff = sched.field l.task kernelStackTopOff)
    (hesp : sched'.field l.task espOff = sched.field l.task espOff)
    (hreserved : ∀ q, sched.heap.reserved.has q → sched'.heap.reserved.has q)
    (hsame : sched.heap.reserved.Same sched.mem sched'.mem) : Stands r sched' l := by
  obtain ⟨base, heq, hpages⟩ := h.stack
  refine ⟨⟨base, heq, fun i hi => hreserved _ (hpages i hi)⟩, htop.trans h.top,
    (congrArg (· + 40) hesp).trans h.esp, fun i hi => ?_⟩
  rw [← h.frame i hi]
  have hpage := hpages 1 (by omega)
  simp only [pageSize] at heq hpage
  refine load32_congr fun x hx hx' => hsame _ x hpage ?_ ?_
  · omega
  · simp only [pageSize]
    omega

/-- A call that changes no block leaves everything as it is. -/
theorem Inv.quiet (h : s.Inv r image) (hrun : SchedRun.Inv { s.run with sched := sched })
    (hsame : SameOwned (blocksOf s.run.tasks) s.run.sched.mem sched.mem)
    (hcur : sched.current = s.run.sched.current)
    (hreserved : ∀ q, s.run.sched.heap.reserved.has q → sched.heap.reserved.has q)
    (hpages : s.run.sched.heap.reserved.Same s.run.sched.mem sched.mem) :
    Inv r image ⟨{ s.run with sched := sched }, s.launched⟩ := by
  refine ⟨hrun, ?_, fun q hq => hreserved q (h.kept q hq), fun l hl => ?_, h.apart, h.outside⟩
  · show s.run.tasks = sched.current :: _
    rw [hcur]
    exact h.tasks
  · have hmem : l.task ∈ s.run.tasks := by
      rw [h.tasks]
      exact List.mem_cons_of_mem _ (List.mem_map_of_mem hl)
    have hfield : ∀ off, IsField off → sched.field l.task off = s.run.sched.field l.task off :=
      fun off hoff => hsame.load32 ⟨hmem, rfl⟩ hoff.2
    exact (h.stands l hl).keep (hfield _ (by decide)) (hfield _ (by decide)) hreserved hpages

end LaunchRun

/-! ## A new task -/

namespace Sched

variable {s s' : Sched} {tasks : List Nat} {t r entryAddr userEsp : Nat} {userPages : List Nat}

/-- What a call that returns a task has done before the control block. -/
theorem Backed.taskCreateUserWithPages_some (hb : s.Backed tasks)
    (hpages : ∀ a ∈ userPages, a < 2 ^ 32) (h0 : t ≠ 0)
    (hrun : Sched.taskCreateUserWithPages r s entryAddr userEsp userPages = some (t, s')) :
    ∃ p, p.pmm.Wf ∧ Paging.Keeps s.heap.pmm.taken s.paging p ∧
      s.NewStack p (Kernel.initialFrame r entryAddr (s.newUserTop userEsp)) (s.newKernelTop - 40)
        s.newKernelTop ∧
      (s.setPaging p).addTask (s.newKernelTop - 40) (some s.newKernelTop) s.newDirectory =
        some (t, s') := by
  obtain ⟨-, -, hpriv2⟩ := hb.afterClone
  obtain ⟨hwf3, hk3, hused3, -⟩ := hb.afterUserStack userEsp
  have hnull : ∀ s1 : Sched, some (0, s1) ≠ some (t, s') := fun s1 heq =>
    h0 (Prod.mk.inj (Option.some.inj heq)).1.symm
  rw [taskCreateUserWithPages_eq] at hrun
  by_cases hstack : (s.heap.pmm.pmmAllocContiguousPages 2).1 = 0
  · rw [if_pos hstack] at hrun
    exact absurd hrun (hnull _)
  rw [if_neg hstack] at hrun
  by_cases hD : s.newDirectory = 0
  · rw [if_pos hD] at hrun
    exact absurd hrun (hnull _)
  rw [if_neg hD] at hrun
  by_cases hfail : userEsp = 0 ∧ s.newUserStack userEsp = 0
  · rw [if_pos hfail] at hrun
    exact absurd hrun (hnull _)
  rw [if_neg hfail] at hrun
  cases hmark : Kernel.markPages (s.afterUserStack userEsp) s.newDirectory
      (s.markedPages userEsp userPages) with
  | none => rw [hmark] at hrun; cases hrun
  | some p =>
      rw [hmark] at hrun
      dsimp only at hrun
      obtain ⟨hwf, hk, -⟩ := markPages_private s.afterStack.heap.pmm.taken hwf3
        (fun q hq => hq.mono hk3.used) ((hpriv2 hD).mono fun q hq => hq.mono hused3)
        (hb.markedPages_lt userEsp hpages) hmark
      obtain ⟨hframe, hnew⟩ := hb.withFrame r entryAddr userEsp hstack fun i hi =>
        hk.used i (hk3.used i hi)
      exact ⟨Sched.withFrame r entryAddr userEsp s p, hwf,
        (hb.keeps_of_afterStack (hk3.trans hk)).trans hframe, hnew, hrun⟩

end Sched

namespace LaunchRun

variable {r : Nat} {image : PageSet} {s s' : LaunchRun} {sched : Sched} {l : Launch}
  {t entryAddr userEsp : Nat} {userPages : List Nat} {e : SchedEvent}

/-- The words of a frame, as memory has them. -/
theorem initialFrame_mod (hr : r < 2 ^ 32) (hentry : entryAddr < 2 ^ 32) (ustackTop : Nat) :
    Kernel.initialFrame r entryAddr (ustackTop % 2 ^ 32) =
      (Kernel.initialFrame r entryAddr ustackTop).map (· % 2 ^ 32) := by
  simp only [Kernel.initialFrame, List.map_cons, List.map_nil, Nat.mod_eq_of_lt hr,
    Nat.mod_eq_of_lt hentry]
  rfl

/-- A new task stands. -/
theorem stands_new (h : s.Inv r image) (hr : r < 2 ^ 32) (hentry : entryAddr < 2 ^ 32)
    {p : Paging}
    (hnew : s.run.sched.NewStack p
      (Kernel.initialFrame r entryAddr (s.run.sched.newUserTop userEsp))
      (s.run.sched.newKernelTop - 40) s.run.sched.newKernelTop)
    (hadd : Sched.Added (s.run.sched.setPaging p) sched s.run.tasks t)
    (hblock : sched.NewBlock t (s.run.sched.newKernelTop - 40) taskReady
      (some s.run.sched.newKernelTop) s.run.sched.newDirectory) :
    Stands r sched ⟨t, s.run.sched.newKernelTop, entryAddr,
      s.run.sched.newUserTop userEsp % 2 ^ 32⟩ := by
  obtain ⟨base, htop, hpages⟩ := hnew.pages
  -- the pages of the stack were free, so they are not the heap's
  have hreserved : ∀ i, i < 2 → (s.run.sched.setPaging p).heap.reserved.has (base + i * pageSize) := by
    intro i hi
    obtain ⟨hpage, hfree⟩ := hpages i hi
    refine ⟨hpage, fun hmem => ?_⟩
    have htaken := (h.run.backed.heap.pages _ hmem).taken
    rw [hfree] at htaken
    cases htaken
  have hpage := hreserved 1 (by omega)
  have hupper := hpage.1.upper
  have hlower := hpage.1.lower
  have hlt : s.run.sched.newKernelTop < 2 ^ 32 ∧ 40 ≤ s.run.sched.newKernelTop := by
    simp only [pageSize, userMemStart] at *
    omega
  refine ⟨⟨base, htop, fun i hi => hadd.reserved _ (hreserved i hi)⟩, ?_, ?_, fun i hi => ?_⟩
  · rw [hblock.kernelStackTop _ rfl, Nat.mod_eq_of_lt hlt.1]
  · rw [hblock.esp, Nat.mod_eq_of_lt (Nat.lt_of_le_of_lt (Nat.sub_le ..) hlt.1)]
    exact Nat.sub_add_cancel hlt.2
  · have hload : sched.mem.load32 (s.run.sched.newKernelTop - 40 + 4 * i) =
        p.mem.load32 (s.run.sched.newKernelTop - 40 + 4 * i) := by
      simp only [pageSize] at htop hpage
      refine load32_congr fun x hx hx' => hadd.same _ x hpage ?_ ?_
      · omega
      · simp only [pageSize]
        omega
    refine hload.trans ((hnew.words i hi).trans ?_)
    simp only [initialFrame_mod hr hentry, List.getElem_map]
    rfl

/-- A page that was taken before is not in the new kernel stack. -/
theorem newStack_apart {s : Sched} {p : Paging} {frame : List Nat} {sp top q : Nat}
    (hnew : s.NewStack p frame sp top) (hq : s.heap.pmm.taken.has q) :
    q + pageSize + 2 * pageSize ≤ top ∨ top ≤ q := by
  obtain ⟨base, htop, hpages⟩ := hnew.pages
  have hne : ∀ i, i < 2 → q ≠ base + i * pageSize := by
    intro i hi heq
    have htaken := hq.taken
    rw [heq, (hpages i hi).2] at htaken
    cases htaken
  have h0 := hne 0 (by omega)
  have h1 := hne 1 (by omega)
  have haligned := hq.aligned
  have hbase := (hpages 0 (by omega)).1.aligned
  simp only [pageSize] at *
  omega

/-- `task_create_user_with_pages` has returned a task. -/
theorem Inv.created (h : s.Inv r image) (hr : r < 2 ^ 32) (hentry : entryAddr < 2 ^ 32)
    {p : Paging} (hwf : p.pmm.Wf)
    (hkeeps : Paging.Keeps s.run.sched.heap.pmm.taken s.run.sched.paging p)
    (hnew : s.run.sched.NewStack p
      (Kernel.initialFrame r entryAddr (s.run.sched.newUserTop userEsp))
      (s.run.sched.newKernelTop - 40) s.run.sched.newKernelTop)
    (hadd : Sched.Added (s.run.sched.setPaging p) sched s.run.tasks t)
    (hblock : sched.NewBlock t (s.run.sched.newKernelTop - 40) taskReady
      (some s.run.sched.newKernelTop) s.run.sched.newDirectory) :
    Inv r image ⟨s.run.created (t, sched), s.launched ++ [⟨t, s.run.sched.newKernelTop, entryAddr,
      s.run.sched.newUserTop userEsp % 2 ^ 32⟩]⟩ := by
  have hp := h.run.backed.prepares.keeps hwf hkeeps
  obtain ⟨hb, hsame⟩ := hp.backed h.run.backed
  have hprep : SchedRun.Inv { s.run with sched := s.run.sched.setPaging p } :=
    h.run.of_same hb hsame rfl
  have hsub : ∀ q, s.run.sched.heap.reserved.has q →
      (s.run.sched.setPaging p).heap.reserved.has q := fun q hq => ⟨hq.1.mono hp.used, hq.2⟩
  have hreserved : ∀ q, s.run.sched.heap.reserved.has q → sched.heap.reserved.has q :=
    fun q hq => hadd.reserved q (hsub q hq)
  have hfirst : s.run.sched.heap.reserved.Same s.run.sched.mem p.mem :=
    hkeeps.same.mono fun q hq => hq.1
  have hpages : s.run.sched.heap.reserved.Same s.run.sched.mem sched.mem :=
    hfirst.trans (hadd.same.mono hsub)
  have htasks : (s.run.created (t, sched)).tasks = s.run.tasks ++ [t] := if_neg hadd.nonzero
  refine ⟨hprep.added hadd hblock, ?_, fun q hq => hreserved q (h.kept q hq), fun l hl => ?_, ?_,
    fun l hl q hq => ?_⟩
  · have hcur : sched.current = s.run.sched.current := hadd.current
    show (s.run.created (t, sched)).tasks = sched.current :: _
    rw [htasks, hcur, h.tasks, List.map_append]
    rfl
  · rcases List.mem_append.mp hl with hl | hl
    · have hmem : l.task ∈ s.run.tasks := by
        rw [h.tasks]
        exact List.mem_cons_of_mem _ (List.mem_map_of_mem hl)
      have hfield : ∀ off, IsField off → off ≠ nextOff →
          sched.field l.task off = s.run.sched.field l.task off := by
        intro off hoff hne
        refine (hadd.fields l.task hmem off hoff).trans ((if_neg fun h => hne h.2).trans ?_)
        exact hsame.load32 ⟨hmem, rfl⟩ hoff.2
      exact (h.stands l hl).keep (hfield _ (by decide) (by decide)) (hfield _ (by decide) (by decide))
        hreserved hpages
    · obtain rfl := List.mem_singleton.mp hl
      exact stands_new h hr hentry hnew hadd hblock
  · refine List.pairwise_append.mpr ⟨h.apart, List.pairwise_singleton _ _, fun l hl l' hl' => ?_⟩
    obtain rfl := List.mem_singleton.mp hl'
    -- neither page of the older stack is in the new one
    obtain ⟨base, htop, hstack⟩ := (h.stands l hl).stack
    have hfirst := newStack_apart hnew (hstack 0 (by omega)).1
    have hsecond := newStack_apart hnew (hstack 1 (by omega)).1
    simp only [Apart, pageSize] at *
    omega
  · rcases List.mem_append.mp hl with hl | hl
    · exact h.outside l hl q hq
    · obtain rfl := List.mem_singleton.mp hl
      exact newStack_apart hnew (h.kept q hq).1

/-! ## Events -/

theorem launches_created {s : SchedRun} {sched : Sched} {t entryAddr userEsp : Nat}
    {userPages : List Nat} :
    launches s (s.created (t, sched)) (.createUserWithPages entryAddr userEsp userPages) =
      if t = 0 then [] else
        [⟨t, s.sched.newKernelTop, entryAddr, s.sched.newUserTop userEsp % 2 ^ 32⟩] := by
  by_cases h0 : t = 0
  · simp only [launches, SchedRun.created, if_pos h0, List.drop_length, List.map_nil]
  · simp only [launches, SchedRun.created, if_neg h0, List.drop_left, List.map_cons, List.map_nil]

/-- One event keeps the invariant. -/
theorem Inv.step (h : s.Inv r image) (hr : r < 2 ^ 32) (hvalid : Launches e)
    (hstep : s.step r e = some s') : s'.Inv r image ∧ s'.run.sched.current = s.run.sched.current := by
  obtain ⟨run, hrun, rfl⟩ := Option.map_eq_some_iff.mp hstep
  cases e with
  | create | createUser | yield => exact hvalid.elim
  | createUserWithPages entryAddr userEsp userPages =>
      have hinv := h.run.step (e := .createUserWithPages entryAddr userEsp userPages) hvalid.2 hrun
      obtain ⟨⟨t, sched⟩, hcreate, rfl⟩ := Option.map_eq_some_iff.mp hrun
      rw [launches_created]
      by_cases h0 : t = 0
      · subst h0
        obtain ⟨p, hwf, hkeeps, hcases⟩ := h.run.backed.taskCreateUserWithPages hvalid.2 hcreate
        rw [if_pos rfl, List.append_nil]
        rcases hcases with ⟨-, rfl⟩ | ⟨sp, top, taskPd, -, hadd⟩
        · have hp := h.run.backed.prepares.keeps hwf hkeeps
          refine ⟨h.quiet hinv (hp.backed h.run.backed).2 rfl (fun q hq => ⟨hq.1.mono hp.used, hq.2⟩)
            (hkeeps.same.mono fun q hq => hq.1), rfl⟩
        · have hp := h.run.backed.prepares.keeps hwf hkeeps
          obtain ⟨hb, hsame⟩ := hp.backed h.run.backed
          have hprep : SchedRun.Inv { s.run with sched := s.run.sched.setPaging p } :=
            h.run.of_same hb hsame rfl
          exact absurd rfl (hb.addTask hprep.current_mem hadd).1.nonzero
      · rw [if_neg h0]
        obtain ⟨p, hwf, hkeeps, hnew, hrun⟩ :=
          h.run.backed.taskCreateUserWithPages_some hvalid.2 h0 hcreate
        have hp := h.run.backed.prepares.keeps hwf hkeeps
        obtain ⟨hb, hsame⟩ := hp.backed h.run.backed
        have hprep : SchedRun.Inv { s.run with sched := s.run.sched.setPaging p } :=
          h.run.of_same hb hsame rfl
        obtain ⟨hadd, hblock⟩ := hb.addTask hprep.current_mem hrun
        exact ⟨h.created hr hvalid.1 hwf hkeeps hnew hadd hblock, hadd.current⟩
  | pages call =>
      have hinv := h.run.step (e := .pages call) trivial hrun
      obtain rfl := Option.some.inj hrun
      show Inv r image ⟨_, s.launched ++ []⟩ ∧ _
      rw [List.append_nil]
      exact ⟨h.quiet hinv (fun _ _ _ _ _ _ => rfl) rfl
        (fun q hq => ⟨hq.1.mono fun i => Pmm.used_call call, hq.2⟩) (.refl _ _), rfl⟩
  | kmalloc size =>
      have hinv := h.run.step (e := .kmalloc size) hvalid hrun
      obtain ⟨⟨q, heap⟩, halloc, rfl⟩ := Option.map_eq_some_iff.mp hrun
      obtain ⟨hsame, hgrows, -, -⟩ := h.run.backed.heap.kmalloc hvalid halloc
      show Inv r image ⟨_, s.launched ++ []⟩ ∧ _
      rw [List.append_nil]
      exact ⟨h.quiet hinv hsame rfl hgrows.reserved.1 hgrows.reserved.2, rfl⟩
  | store address byte =>
      have hinv := h.run.step (e := .store address byte) hvalid hrun
      obtain rfl := Option.some.inj hrun
      have hvalid : userMemStart ≤ address := hvalid
      have hout : s.run.sched.heap.pmm.taken.Same s.run.sched.mem
          (s.run.sched.mem.store8 address byte) := by
        intro page x hp h1 h2
        have hupper := hp.upper
        exact store8_other (by omega)
      have hp : s.run.sched.Prepares
          { s.run.sched.paging with mem := s.run.sched.mem.store8 address byte } :=
        h.run.backed.prepares.keeps h.run.backed.heap.pmm_wf ⟨hout, fun _ h => h, rfl, rfl, rfl⟩
      show Inv r image ⟨_, s.launched ++ []⟩ ∧ _
      rw [List.append_nil]
      exact ⟨h.quiet hinv (hp.backed h.run.backed).2 rfl (fun _ hq => hq)
        (hout.mono fun q hq => hq.1), rfl⟩

end LaunchRun

end Kumo
