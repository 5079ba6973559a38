import Kumo.Sched.BlockFields

/-!
# What the creation functions prepare

Each of the three creation functions takes pages and builds a stack before it asks for a
control block. `Prepares` covers all of it. `task_create_user_with_pages` moreover leaves
every page that was taken before as it was, so that no earlier task notices.
-/

namespace Kumo

open Memory

namespace Sched

variable {s s' : Sched} {tasks : List Nat} {t : Nat}

/-- A new kernel stack: two pages that were free, with the initial words at the top. -/
structure NewStack (s : Sched) (p : Paging) (frame : List Nat) (sp top : Nat) : Prop where
  size : sp + 4 * frame.length = top
  pages : ∃ base, top = base + 2 * pageSize ∧ ∀ i, i < 2 →
    p.pmm.KernelPage (base + i * pageSize) ∧
      s.heap.pmm.used (Pmm.pageIndex (base + i * pageSize)) = false
  words : ∀ i (hi : i < frame.length), p.mem.load32 (sp + 4 * i) = frame[i] % 2 ^ 32

/-- Reading back a stored word. -/
theorem load32_storeWords_mod {m : Memory} {sp : Nat} {words : List Nat} {i : Nat}
    (hi : i < words.length) :
    (Kernel.storeWords m sp words).load32 (sp + 4 * i) = words[i] % 2 ^ 32 := by
  induction words generalizing m sp i with
  | nil => exact absurd hi (Nat.not_lt_zero i)
  | cons word words ih =>
      rw [Kernel.storeWords]
      cases i with
      | zero =>
          have hfirst : (Kernel.storeWords (m.store32 sp word) (sp + 4) words).load32 sp =
              (m.store32 sp word).load32 sp :=
            load32_congr fun x _ _ => Kernel.storeWords_outside (by omega)
          exact hfirst.trans (load32_store32 _ _ _)
      | succ i =>
          rw [List.length_cons] at hi
          rw [show sp + 4 * (i + 1) = sp + 4 + 4 * i by omega, ih (by omega)]
          rfl

/-- Two pages for a kernel stack. -/
theorem alloc_stack {u u' : Pmm} {base : Nat} (h : u.Wf)
    (halloc : u.pmmAllocContiguousPages 2 = (base, u')) :
    u'.Wf ∧ (∀ i, u.used i = true → u'.used i = true) ∧ u'.totalPages = u.totalPages ∧
      (base ≠ 0 → ∀ i, i < 2 → u'.KernelPage (base + i * pageSize) ∧
        u.used (Pmm.pageIndex (base + i * pageSize)) = false) := by
  have hcall : u.call (.contiguous 2) = (base, u') := halloc
  have hwf := h.call (.contiguous 2)
  have hused : ∀ i, u.used i = true → (u.call (.contiguous 2)).2.used i = true :=
    fun i => Pmm.used_call _
  have htotal := u.totalPages_call (.contiguous 2)
  have hpages := fun hne i hi => h.kernel_pages (c := .contiguous 2) rfl hne (i := i) hi
  rw [hcall] at hwf hused htotal hpages
  exact ⟨hwf, hused, htotal, hpages⟩

/-- Writing the initial words of a stack changes nothing that was taken before. -/
theorem storeStack_same {R : PageSet} {m : Memory} {base : Nat} {words : List Nat}
    (hbase : base % pageSize = 0) (hnot : ¬ R.has (base + pageSize))
    (hlen : 4 * words.length ≤ pageSize) :
    R.Same m (Kernel.storeWords m (base + 2 * pageSize - 4 * words.length) words) := by
  intro page x hp h1 h2
  have hpa := R.aligned page hp
  have hne : page ≠ base + pageSize := fun heq => hnot (heq ▸ hp)
  refine Kernel.storeWords_outside ?_
  simp only [pageSize] at *
  omega

/-- The last step before the control block: the words at the top of the new stack. -/
theorem newStack {p : Paging} {base : Nat} (words : List Nat)
    (hpages : ∀ i, i < 2 → p.pmm.KernelPage (base + i * pageSize) ∧
      s.heap.pmm.used (Pmm.pageIndex (base + i * pageSize)) = false)
    (hlen : 4 * words.length ≤ pageSize) :
    Paging.Keeps s.heap.pmm.taken p { p with
        mem := Kernel.storeWords p.mem (base + 2 * pageSize - 4 * words.length) words } ∧
      s.NewStack { p with
          mem := Kernel.storeWords p.mem (base + 2 * pageSize - 4 * words.length) words } words
        (base + 2 * pageSize - 4 * words.length) (base + 2 * pageSize) := by
  obtain ⟨hpage, hfree⟩ := hpages 1 (by decide)
  rw [Nat.one_mul] at hpage hfree
  have hnot : ¬ s.heap.pmm.taken.has (base + pageSize) := by
    intro h
    have := h.taken
    rw [hfree] at this
    cases this
  have hbase : base % pageSize = 0 := by
    have := hpage.aligned
    simp only [pageSize] at *
    omega
  refine ⟨⟨storeStack_same hbase hnot hlen, fun _ h => h, rfl, rfl, rfl⟩,
    ⟨?_, ⟨base, rfl, hpages⟩, fun i hi => load32_storeWords_mod hi⟩⟩
  simp only [pageSize] at *
  omega

/-! ## The kernel tasks and the legacy user tasks -/

/-- What `task_create` does before the control block. -/
theorem Backed.taskCreate {entry : Nat} (hb : s.Backed tasks)
    (hrun : s.taskCreate entry = some (t, s')) : ∃ p, s.Prepares p ∧ p.pdPhys = s.pdPhys ∧
      ((t = 0 ∧ s' = s.setPaging p) ∨ ∃ sp, (s.setPaging p).addTask sp none 0 = some (t, s')) := by
  obtain ⟨base, u, halloc⟩ : ∃ b u, s.heap.pmm.pmmAllocContiguousPages 2 = (b, u) := ⟨_, _, rfl⟩
  obtain ⟨hwf, hused, htotal, hpages⟩ := alloc_stack hb.heap.pmm_wf halloc
  have hprep : s.Prepares { s.paging with pmm := u } := hb.prepares.pmm hwf hused
  rw [Sched.taskCreate, halloc] at hrun
  dsimp only at hrun
  by_cases h0 : base = 0
  · rw [if_pos h0] at hrun
    obtain ⟨rfl, rfl⟩ := Prod.mk.inj (Option.some.inj hrun)
    exact ⟨_, hprep, rfl, .inl ⟨rfl, rfl⟩⟩
  · rw [if_neg h0] at hrun
    obtain ⟨hkeeps, _⟩ := newStack (s := s) (p := { s.paging with pmm := u }) [0, 0, 0, 0, entry]
      (hpages h0) (by simp [pageSize])
    exact ⟨_, hprep.keeps hwf hkeeps, rfl, .inr ⟨_, hrun⟩⟩

/-- What `task_create_user` does before the control block. It may open a page of the kernel
directory. -/
theorem Backed.taskCreateUser {r entryAddr userEsp : Nat} (hb : s.Backed tasks)
    (hrun : taskCreateUser r s entryAddr userEsp = some (t, s')) : ∃ p, s.Prepares p ∧
      p.pdPhys = s.pdPhys ∧ ((t = 0 ∧ s' = s.setPaging p) ∨
        ∃ sp top, (s.setPaging p).addTask sp (some top) 0 = some (t, s')) := by
  obtain ⟨base, u, halloc⟩ : ∃ b u, s.heap.pmm.pmmAllocContiguousPages 2 = (b, u) := ⟨_, _, rfl⟩
  obtain ⟨hwf, hused, htotal, hpages⟩ := alloc_stack hb.heap.pmm_wf halloc
  have hprep : s.Prepares { s.paging with pmm := u } := hb.prepares.pmm hwf hused
  rw [Sched.taskCreateUser, halloc] at hrun
  dsimp only at hrun
  by_cases h0 : base = 0
  · rw [if_pos h0] at hrun
    obtain ⟨rfl, rfl⟩ := Prod.mk.inj (Option.some.inj hrun)
    exact ⟨_, hprep, rfl, .inl ⟨rfl, rfl⟩⟩
  rw [if_neg h0] at hrun
  by_cases hesp : userEsp = 0
  · -- a page for the user stack, opened in the kernel directory
    obtain ⟨q, u2, hpage⟩ : ∃ q u2, (s.setPmm u).heap.pmm.pmmAllocPage = (q, u2) := ⟨_, _, rfl⟩
    have hu2 : (u.call .page).2 = u2 := congrArg Prod.snd hpage
    have hwf2 : u2.Wf := hu2 ▸ hwf.call .page
    have hused2 : ∀ i, u.used i = true → u2.used i = true := hu2 ▸ fun i => Pmm.used_call _
    have hprep2 : s.Prepares { s.paging with pmm := u2 } := hprep.pmm hwf2 hused2
    simp only [hesp, if_true, true_and, hpage] at hrun
    by_cases hq : q = 0
    · rw [if_pos hq] at hrun
      obtain ⟨rfl, rfl⟩ := Prod.mk.inj (Option.some.inj hrun)
      exact ⟨_, hprep2, rfl, .inl ⟨rfl, rfl⟩⟩
    rw [if_neg hq] at hrun
    have hq32 : q < 2 ^ 32 := by
      have := (hwf.takes hpage hq).page.upper
      simp only [userMemStart] at this
      omega
    obtain ⟨hprep3, hpmm, hpd⟩ := hprep2.userAccessible hq32
    obtain ⟨hkeeps, _⟩ := newStack (s := s)
      (p := Paging.pagingSetUserAccessible { s.paging with pmm := u2 } q)
      (Kernel.initialFrame r entryAddr (q + pageSize)) (fun i hi => by
        rw [hpmm]
        exact ⟨(hpages h0 i hi).1.mono hused2, (hpages h0 i hi).2⟩) (by simp [Kernel.initialFrame, pageSize])
    exact ⟨_, hprep3.keeps (by rw [show Paging.pmm _ = _ from hpmm]; exact hwf2) hkeeps, hpd,
      .inr ⟨_, _, hrun⟩⟩
  · simp only [hesp, if_false, false_and] at hrun
    obtain ⟨hkeeps, _⟩ := newStack (s := s) (p := { s.paging with pmm := u })
      (Kernel.initialFrame r entryAddr userEsp) (hpages h0)
      (by simp [Kernel.initialFrame, pageSize])
    exact ⟨_, hprep.keeps hwf hkeeps, rfl, .inr ⟨_, _, hrun⟩⟩

/-! ## User tasks with a directory of their own -/

/-- Marking a list of pages leaves every old page alone. -/
theorem markPages_private (R0 : PageSet) {p p' : Paging} {D : Nat} {pages : List Nat}
    (hwf : p.pmm.Wf) (hR0 : ∀ q, R0.has q → p.pmm.taken.has q)
    (hp : Private R0 p.pmm.taken p.mem p.pdPhys D) (hpages : ∀ a ∈ pages, a < 2 ^ 32)
    (hrun : Kernel.markPages p D pages = some p') :
    p'.pmm.Wf ∧ Paging.Keeps R0 p p' ∧ p'.pmm.taken.has D := by
  induction pages generalizing p with
  | nil =>
      obtain rfl := Option.some.inj hrun
      exact ⟨hwf, .refl R0 p, hp.dir⟩
  | cons a pages ih =>
      obtain ⟨p1, hmark, hrest⟩ := Option.bind_eq_some_iff.mp hrun
      obtain ⟨hwf1, hk1, hp1⟩ := Paging.mark_private hwf hR0 hp (hpages a (by simp)) hmark
      obtain ⟨hwf2, hk2, hdir⟩ := ih hwf1 (fun q hq => (hR0 q hq).mono hk1.used) hp1
        (fun b hb => hpages b (List.mem_cons_of_mem _ hb)) hrest
      exact ⟨hwf2, hk1.trans hk2, hdir⟩

/-- The stack pointer a user task starts with: the caller's, or the end of a page of its own. -/
def UserStack (userEsp ustackTop : Nat) : Prop :=
  if userEsp = 0 then ∃ page, ustackTop = page + pageSize ∧ page ≠ 0 ∧ page < 2 ^ 32
  else ustackTop = userEsp

/-- What `task_create_user_with_pages` has ready when it asks for the control block. -/
structure UserReady (r entryAddr userEsp : Nat) (s : Sched) (p : Paging) (sp top taskPd : Nat) :
    Prop where
  stack : ∃ ustackTop, UserStack userEsp ustackTop ∧
    s.NewStack p (Kernel.initialFrame r entryAddr ustackTop) sp top
  directory : p.pmm.KernelPage taskPd
  directoryNew : ¬ s.heap.pmm.taken.has taskPd

theorem pmmAllocUserPage_lt (u : Pmm) : (u.call .userPage).1 < 2 ^ 32 := by
  have hout := u.call_outcome .userPage
  generalize u.call .userPage = r at hout
  cases hout with
  | refused => exact Nat.two_pow_pos 32
  | granted start _ _ => exact Nat.mod_lt _ (Nat.two_pow_pos 32)

/-! ### The requests, one after the other -/

/-- After the kernel stack. -/
def afterStack (s : Sched) : Sched := s.setPmm (s.heap.pmm.pmmAllocContiguousPages 2).2

/-- After the directory. -/
def afterClone (s : Sched) : Paging := s.afterStack.paging.pagingCloneKernelPd.2

/-- The directory of the new task, or 0. -/
def newDirectory (s : Sched) : Nat := s.afterStack.paging.pagingCloneKernelPd.1

/-- The page of the user stack, or 0 if the caller has one or no page is free. -/
def newUserStack (s : Sched) (userEsp : Nat) : Nat :=
  if userEsp = 0 then s.afterClone.pmm.pmmAllocUserPage.1 else 0

/-- After the user stack. -/
def afterUserStack (s : Sched) (userEsp : Nat) : Paging :=
  { s.afterClone with
    pmm := if userEsp = 0 then s.afterClone.pmm.pmmAllocUserPage.2 else s.afterClone.pmm }

/-- The pages to mark: those of the caller, and the user stack's. -/
def markedPages (s : Sched) (userEsp : Nat) (userPages : List Nat) : List Nat :=
  userPages ++ if s.newUserStack userEsp ≠ 0 then [s.newUserStack userEsp] else []

/-- The top of the user stack. -/
def newUserTop (s : Sched) (userEsp : Nat) : Nat :=
  if userEsp = 0 then s.newUserStack userEsp + pageSize else userEsp

/-- The top of the kernel stack. -/
def newKernelTop (s : Sched) : Nat := (s.heap.pmm.pmmAllocContiguousPages 2).1 + 2 * pageSize

/-- After the initial words of the kernel stack. -/
def withFrame (r entryAddr userEsp : Nat) (s : Sched) (p : Paging) : Paging :=
  { p with
    mem := Kernel.storeWords p.mem (s.newKernelTop - 40)
      (Kernel.initialFrame r entryAddr (s.newUserTop userEsp)) }

theorem afterClone_topOfMemory (s : Sched) : s.afterClone.topOfMemory = s.topOfMemory := by
  unfold afterClone Paging.pagingCloneKernelPd
  dsimp only
  split <;> rfl

/-- `task_create_user_with_pages`, request by request. -/
theorem taskCreateUserWithPages_eq (r : Nat) (s : Sched) (entryAddr userEsp : Nat)
    (userPages : List Nat) : taskCreateUserWithPages r s entryAddr userEsp userPages =
      if (s.heap.pmm.pmmAllocContiguousPages 2).1 = 0 then some (0, s.afterStack)
      else if s.newDirectory = 0 then some (0, s.setPaging s.afterClone)
      else if userEsp = 0 ∧ s.newUserStack userEsp = 0 then
        some (0, s.setPaging (s.afterUserStack userEsp))
      else
        match Kernel.markPages (s.afterUserStack userEsp) s.newDirectory
            (s.markedPages userEsp userPages) with
        | none => none
        | some p => (s.setPaging (withFrame r entryAddr userEsp s p)).addTask (s.newKernelTop - 40)
            (some s.newKernelTop) s.newDirectory := by
  obtain ⟨base, u, halloc⟩ : ∃ b u, s.heap.pmm.pmmAllocContiguousPages 2 = (b, u) := ⟨_, _, rfl⟩
  obtain ⟨D, p2, hclone⟩ : ∃ d p, s.afterStack.paging.pagingCloneKernelPd = (d, p) := ⟨_, _, rfl⟩
  have hstack : s.setPmm u = s.afterStack := by rw [afterStack, halloc]
  have hset : s.afterStack.setPaging p2 = s.setPaging p2 := rfl
  have htop : s.newKernelTop = base + 2 * pageSize := by rw [newKernelTop, halloc]
  have hclone2 : s.afterClone = p2 := by rw [afterClone, hclone]
  have hmem : p2.topOfMemory = s.topOfMemory := hclone2 ▸ s.afterClone_topOfMemory
  rw [taskCreateUserWithPages, newDirectory, halloc, hclone2, htop]
  dsimp only
  rw [hstack, hclone]
  dsimp only
  rw [hset]
  refine if_congr Iff.rfl rfl (if_congr Iff.rfl rfl ?_)
  obtain ⟨q, u3, hpair⟩ : ∃ q u, (if userEsp = 0 then (s.setPaging p2).heap.pmm.pmmAllocUserPage
      else (0, (s.setPaging p2).heap.pmm)) = (q, u) := ⟨_, _, rfl⟩
  have huser : s.newUserStack userEsp = q ∧ s.afterUserStack userEsp = { p2 with pmm := u3 } := by
    rw [newUserStack, afterUserStack, hclone2]
    by_cases hesp : userEsp = 0
    · rw [if_pos hesp] at hpair
      have hpage : p2.pmm.pmmAllocUserPage = (q, u3) := hpair
      rw [if_pos hesp, if_pos hesp, hpage]
      exact ⟨rfl, rfl⟩
    · rw [if_neg hesp] at hpair
      obtain ⟨rfl, rfl⟩ := Prod.mk.inj hpair
      rw [if_neg hesp, if_neg hesp]
      exact ⟨rfl, rfl⟩
  have hpaging : ((s.setPaging p2).setPmm u3).paging = { p2 with pmm := u3 } := by
    show ({ mem := p2.mem, pmm := u3, pdPhys := p2.pdPhys, topOfMemory := s.topOfMemory } : Paging)
      = _
    rw [← hmem]
  rw [hpair, markedPages, huser.1, huser.2]
  dsimp only
  rw [hpaging]
  refine if_congr Iff.rfl rfl ?_
  cases Kernel.markPages { p2 with pmm := u3 } D (userPages ++ if q ≠ 0 then [q] else []) with
  | none => rfl
  | some p =>
      dsimp only
      rw [withFrame, htop, newUserTop, huser.1]
      rfl

theorem Backed.afterStack (hb : s.Backed tasks) : s.afterStack.heap.pmm.Wf ∧
    Paging.Keeps s.heap.pmm.taken s.paging s.afterStack.paging ∧
      ((s.heap.pmm.pmmAllocContiguousPages 2).1 ≠ 0 → ∀ i, i < 2 →
        s.afterStack.heap.pmm.KernelPage ((s.heap.pmm.pmmAllocContiguousPages 2).1 + i * pageSize) ∧
        s.heap.pmm.used
          (Pmm.pageIndex ((s.heap.pmm.pmmAllocContiguousPages 2).1 + i * pageSize)) = false) := by
  obtain ⟨hwf, hused, htotal, hpages⟩ := alloc_stack hb.heap.pmm_wf rfl
  exact ⟨hwf, ⟨.refl _ _, hused, htotal, rfl, rfl⟩, hpages⟩

/-- Cloning keeps the pages taken so far, the kernel stack among them. -/
theorem Backed.afterClone (hb : s.Backed tasks) : s.afterClone.pmm.Wf ∧
    Paging.Keeps s.afterStack.heap.pmm.taken s.afterStack.paging s.afterClone ∧
      (s.newDirectory ≠ 0 → Private s.afterStack.heap.pmm.taken s.afterClone.pmm.taken
        s.afterClone.mem s.afterClone.pdPhys s.newDirectory) :=
  Paging.clone_private s.afterStack.heap.pmm.taken (p := s.afterStack.paging) hb.afterStack.1
    (fun _ h => h) (hb.tables.dir.1.mono hb.afterStack.2.1.used) rfl

/-- So does the request for a user stack. -/
theorem Backed.afterUserStack (hb : s.Backed tasks) (userEsp : Nat) :
    (s.afterUserStack userEsp).pmm.Wf ∧
      Paging.Keeps s.afterStack.heap.pmm.taken s.afterStack.paging (s.afterUserStack userEsp) ∧
      (∀ i, s.afterClone.pmm.used i = true → (s.afterUserStack userEsp).pmm.used i = true) ∧
      s.newUserStack userEsp < 2 ^ 32 := by
  obtain ⟨hwf, hkeeps, _⟩ := hb.afterClone
  unfold Sched.afterUserStack newUserStack
  by_cases hesp : userEsp = 0
  · rw [if_pos hesp, if_pos hesp]
    generalize s.afterClone = p at *
    have hcall : p.pmm.pmmAllocUserPage = p.pmm.call .userPage := rfl
    rw [hcall]
    have hwf' := hwf.call .userPage
    have hused : ∀ i, p.pmm.used i = true → (p.pmm.call .userPage).2.used i = true :=
      fun i => Pmm.used_call _
    have htotal := p.pmm.totalPages_call .userPage
    have hlt := pmmAllocUserPage_lt p.pmm
    generalize p.pmm.call .userPage = r at *
    exact ⟨hwf', hkeeps.trans ⟨.refl _ _, hused, htotal, rfl, rfl⟩, hused, hlt⟩
  · rw [if_neg hesp, if_neg hesp]
    exact ⟨hwf, hkeeps, fun _ h => h, by decide⟩

theorem Backed.markedPages_lt (userEsp : Nat) {userPages : List Nat} (hb : s.Backed tasks)
    (hpages : ∀ a ∈ userPages, a < 2 ^ 32) : ∀ a ∈ s.markedPages userEsp userPages, a < 2 ^ 32 := by
  intro a ha
  rcases List.mem_append.mp ha with ha | ha
  · exact hpages a ha
  · split at ha
    · rw [List.mem_singleton.mp ha]
      exact (hb.afterUserStack userEsp).2.2.2
    · cases ha

/-- What was taken before the call is kept as long as what was taken after the first request is. -/
theorem Backed.keeps_of_afterStack {p : Paging} (hb : s.Backed tasks)
    (hk : Paging.Keeps s.afterStack.heap.pmm.taken s.afterStack.paging p) :
    Paging.Keeps s.heap.pmm.taken s.paging p :=
  hb.afterStack.2.1.trans ⟨hk.same.mono fun _ hq => hq.mono hb.afterStack.2.1.used, hk.used,
    hk.totalPages, hk.pdPhys, hk.topOfMemory⟩

/-- The initial words go to the top of the new kernel stack. -/
theorem Backed.withFrame (r entryAddr userEsp : Nat) {p : Paging} (hb : s.Backed tasks)
    (h0 : (s.heap.pmm.pmmAllocContiguousPages 2).1 ≠ 0)
    (hused : ∀ i, s.afterStack.heap.pmm.used i = true → p.pmm.used i = true) :
    Paging.Keeps s.heap.pmm.taken p (Sched.withFrame r entryAddr userEsp s p) ∧
      s.NewStack (Sched.withFrame r entryAddr userEsp s p)
        (Kernel.initialFrame r entryAddr (s.newUserTop userEsp)) (s.newKernelTop - 40)
        s.newKernelTop :=
  newStack (Kernel.initialFrame r entryAddr (s.newUserTop userEsp))
    (fun i hi => ⟨(hb.afterStack.2.2 h0 i hi).1.mono hused, (hb.afterStack.2.2 h0 i hi).2⟩)
    (by simp [Kernel.initialFrame, pageSize])

/-- What `task_create_user_with_pages` does before the control block. -/
theorem Backed.taskCreateUserWithPages {r entryAddr userEsp : Nat} {userPages : List Nat}
    (hb : s.Backed tasks) (hpages : ∀ a ∈ userPages, a < 2 ^ 32)
    (hrun : taskCreateUserWithPages r s entryAddr userEsp userPages = some (t, s')) :
    ∃ p, p.pmm.Wf ∧ Paging.Keeps s.heap.pmm.taken s.paging p ∧
      ((t = 0 ∧ s' = s.setPaging p) ∨ ∃ sp top taskPd,
        UserReady r entryAddr userEsp s p sp top taskPd ∧
        (s.setPaging p).addTask sp (some top) taskPd = some (t, s')) := by
  obtain ⟨hwf1, hk1, _⟩ := hb.afterStack
  obtain ⟨hwf2, hk2, hpriv2⟩ := hb.afterClone
  obtain ⟨hwf3, hk3, hused3, hustack⟩ := hb.afterUserStack userEsp
  rw [taskCreateUserWithPages_eq] at hrun
  by_cases h0 : (s.heap.pmm.pmmAllocContiguousPages 2).1 = 0
  · rw [if_pos h0] at hrun
    obtain ⟨rfl, rfl⟩ := Prod.mk.inj (Option.some.inj hrun)
    exact ⟨s.afterStack.paging, hwf1, hk1, .inl ⟨rfl, rfl⟩⟩
  rw [if_neg h0] at hrun
  by_cases hD : s.newDirectory = 0
  · rw [if_pos hD] at hrun
    obtain ⟨rfl, rfl⟩ := Prod.mk.inj (Option.some.inj hrun)
    exact ⟨s.afterClone, hwf2, hb.keeps_of_afterStack hk2, .inl ⟨rfl, rfl⟩⟩
  rw [if_neg hD] at hrun
  by_cases hfail : userEsp = 0 ∧ s.newUserStack userEsp = 0
  · rw [if_pos hfail] at hrun
    obtain ⟨rfl, rfl⟩ := Prod.mk.inj (Option.some.inj hrun)
    exact ⟨s.afterUserStack userEsp, hwf3, hb.keeps_of_afterStack hk3, .inl ⟨rfl, rfl⟩⟩
  rw [if_neg hfail] at hrun
  cases hmark : Kernel.markPages (s.afterUserStack userEsp) s.newDirectory
      (s.markedPages userEsp userPages) with
  | none => rw [hmark] at hrun; cases hrun
  | some p4 =>
      rw [hmark] at hrun
      dsimp only at hrun
      -- everything so far stays out of the pages taken before the directory
      obtain ⟨hwf4, hk4, hdir⟩ := markPages_private s.afterStack.heap.pmm.taken hwf3
        (fun q hq => hq.mono hk3.used) ((hpriv2 hD).mono fun q hq => hq.mono hused3)
        (hb.markedPages_lt userEsp hpages) hmark
      obtain ⟨hsame5, hnew⟩ := hb.withFrame r entryAddr userEsp h0 fun i hi =>
        hk4.used i (hk3.used i hi)
      refine ⟨Sched.withFrame r entryAddr userEsp s p4, hwf4,
        (hb.keeps_of_afterStack (hk3.trans hk4)).trans hsame5,
        .inr ⟨_, _, s.newDirectory, ⟨⟨_, ?_, hnew⟩, hdir, fun h => ?_⟩, hrun⟩⟩
      · unfold UserStack newUserTop
        by_cases hesp : userEsp = 0
        · rw [if_pos hesp, if_pos hesp]
          exact ⟨_, rfl, fun h => hfail ⟨hesp, h⟩, hustack⟩
        · rw [if_neg hesp, if_neg hesp]
      · exact (hpriv2 hD).dirNew (h.mono hk1.used)

end Sched

end Kumo
