import Kumo.Sched.KernelMemory

/-!
# What task creation does

The specification of `task_create_user_with_pages`: whatever its outcome, it keeps the
kernel's memory sound and changes nothing that was reserved before. A task it returns
has a directory that opens its pages and its stack page to user mode and no other, a
fresh kernel stack, and the frame that starts it in ring 3.
-/

namespace Kumo

open Memory

namespace Kernel

/-! ## The initial frame -/

theorem storeWords_outside {m : Memory} {sp x : Nat} {words : List Nat}
    (h : x < sp ∨ sp + 4 * words.length ≤ x) : storeWords m sp words x = m x := by
  induction words generalizing m sp with
  | nil => rfl
  | cons word words ih =>
      rw [List.length_cons] at h
      rw [storeWords, ih (by omega), store32_outside (by omega)]

/-- Reading back a stored word. -/
theorem load32_storeWords {m : Memory} {sp : Nat} {words : List Nat} {i : Nat}
    (hi : i < words.length) (hwords : ∀ word ∈ words, word < 2 ^ 32) :
    (storeWords m sp words).load32 (sp + 4 * i) = words[i] := by
  induction words generalizing m sp i with
  | nil => exact absurd hi (Nat.not_lt_zero i)
  | cons word words ih =>
      rw [storeWords]
      cases i with
      | zero =>
          have hfirst : (storeWords (m.store32 sp word) (sp + 4) words).load32 sp =
              (m.store32 sp word).load32 sp :=
            load32_congr fun x _ _ => storeWords_outside (by omega)
          exact hfirst.trans ((load32_store32 _ _ _).trans
            (Nat.mod_eq_of_lt (hwords word (by simp))))
      | succ i =>
          rw [List.length_cons] at hi
          rw [show sp + 4 * (i + 1) = sp + 4 + 4 * i by omega,
            ih (by omega) fun w hw => hwords w (List.mem_cons_of_mem _ hw)]
          rfl

/-! ## The directory -/

/-- The draft does not depend on pages that others take. -/
theorem drafting_of_pmm {R0 : PageSet} {p : Paging} {D : Nat} {A : List Nat} {u : Pmm}
    (hd : Drafting R0 p D A) (hu : u.Wf) (hused : ∀ i, p.pmm.used i = true → u.used i = true) :
    Drafting R0 { p with pmm := u } D A := by
  obtain ⟨_, priv, hdraft⟩ := hd
  refine ⟨hu, priv, ?_, hdraft.kernel, fun q hq => (hdraft.sub q hq).mono hused, hdraft.dirNew,
    hdraft.ptNew⟩
  have ht := hdraft.task
  refine ⟨ht.dir.mono hused, ht.pages, ht.shared, fun i q hi hp => ?_, ht.entries, ht.fresh,
    ht.inj⟩
  obtain ⟨h1, h2, h3⟩ := ht.own i q hi hp
  exact ⟨h1.mono hused, h2, h3⟩

/-- Marking a list of pages adds them all. -/
theorem markPages_drafting {R0 : PageSet} {p p' : Paging} {D : Nat} {A pages : List Nat}
    (hd : Drafting R0 p D A) (hK : R0.has p.pdPhys)
    (hpages : ∀ a ∈ pages, a % pageSize = 0 ∧ a < 2 ^ 32 ∧
      p.mem.entry p.pdPhys (pdIndex a) ≠ 0)
    (hrun : markPages p D pages = some p') :
    Drafting R0 p' D (A ++ pages) ∧ Paging.Keeps R0 p p' := by
  induction pages generalizing p A with
  | nil =>
      obtain rfl := Option.some.inj hrun
      rw [List.append_nil]
      exact ⟨hd, .refl R0 p⟩
  | cons a pages ih =>
      obtain ⟨p1, hmark, hrest⟩ := Option.bind_eq_some_iff.mp hrun
      obtain ⟨ha, ha32, hwin⟩ := hpages a (by simp)
      obtain ⟨hd1, hk1⟩ := Paging.mark_drafting hd ha ha32 hwin hmark
      obtain ⟨hd2, hk2⟩ := ih hd1 (hk1.pdPhys ▸ hK) (fun b hb => by
        obtain ⟨h1, h2, h3⟩ := hpages b (List.mem_cons_of_mem _ hb)
        rw [hk1.pdPhys, hk1.same.entry hK (pdIndex_lt h2)]
        exact ⟨h1, h2, h3⟩) hrest
      rw [List.append_assoc, List.singleton_append] at hd2
      exact ⟨hd2, hk1.trans hk2⟩

/-- The tables of a task may be named by any set that has them. -/
theorem taskDir_restrict {R R' : PageSet} {m : Memory} {K D : Nat} {A : List Nat}
    {priv : Nat → Option Nat} (ht : TaskDir R m K D A priv) (hD : R'.has D)
    (hq : ∀ i q, i < tableEntries → priv i = some q → R'.has q) : TaskDir R' m K D A priv :=
  ⟨hD, ht.pages, ht.shared, fun i q hi hp => ⟨hq i q hi hp, (ht.own i q hi hp).2⟩, ht.entries,
    ht.fresh, ht.inj⟩

/-! ## The whole function -/

@[simp] theorem insertTask_heap (k : Kernel) (t : Task) : (k.insertTask t).heap = k.heap := by
  unfold insertTask
  split <;> rfl

@[simp] theorem insertTask_pdPhys (k : Kernel) (t : Task) :
    (k.insertTask t).pdPhys = k.pdPhys := by
  unfold insertTask
  split <;> rfl

@[simp] theorem insertTask_topOfMemory (k : Kernel) (t : Task) :
    (k.insertTask t).topOfMemory = k.topOfMemory := by
  unfold insertTask
  split <;> rfl

/-- What a new task has. `stack` is the stack page allocated for it, if any. -/
structure NewTask (returnToRing3 entryAddr userEsp : Nat) (userPages : List Nat) (k k' : Kernel)
    (t : Task) (stack : Option Nat) : Prop where
  /-- A stack page is allocated exactly when the caller brings none; it was free. -/
  allocated : stack.isSome ↔ userEsp = 0
  stackPage : ∀ page, stack = some page → k.UserRegion page ∧
    k.heap.pmm.used (Pmm.pageIndex page) = false ∧ k'.heap.pmm.used (Pmm.pageIndex page) = true
  directory : ∃ priv, TaskDir k'.heap.reserved k'.mem k'.pdPhys t.cr3
    (userPages ++ stack.toList) priv
  /-- The two pages of the kernel stack were free. -/
  kernelStack : ∃ base, t.kernelStackTop = base + 2 * pageSize ∧
    ∀ i, i < 2 → k'.heap.reserved.has (base + i * pageSize) ∧
      k.heap.pmm.used (Pmm.pageIndex (base + i * pageSize)) = false
  esp : t.esp + 40 = t.kernelStackTop
  frame : ∀ i (hi : i < 10), k'.mem.load32 (t.esp + 4 * i) =
    (initialFrame returnToRing3 entryAddr
      ((stack.map fun page => page + pageSize).getD userEsp))[i]

/-- `addTask` adds a control block in the heap and leaves the rest alone. -/
theorem addTask_spec {k k' : Kernel} {sp top pd : Nat} {res : Option Task} (hs : k.Sound)
    (hrun : k.addTask sp top pd = some (res, k')) :
    k'.Sound ∧ Keeps k k' ∧ ∃ t, res = some t ∧ t.esp = sp ∧ t.kernelStackTop = top ∧ t.cr3 = pd := by
  unfold addTask at hrun
  cases halloc : k.heap.kmalloc taskSize with
  | none => rw [halloc] at hrun; cases hrun
  | some r =>
      obtain ⟨addr, heap⟩ := r
      rw [halloc] at hrun
      dsimp only at hrun
      by_cases h0 : addr = 0
      · rw [if_pos h0] at hrun
        cases hrun
      · rw [if_neg h0] at hrun
        obtain ⟨rfl, rfl⟩ := Prod.mk.inj (Option.some.inj hrun)
        obtain ⟨hkeeps, hsound⟩ := hs.kmalloc (by decide) halloc
        refine ⟨⟨?_, ?_, ?_, ?_, ?_⟩, ⟨?_, ?_, ?_, ?_, ?_, ?_⟩, _, rfl, rfl, rfl, rfl⟩
        all_goals simp only [insertTask_heap, insertTask_pdPhys, insertTask_topOfMemory, mem]
        · exact hsound.heap
        · exact hsound.dir
        · exact hsound.region
        · exact hsound.top
        · exact hsound.below
        · exact hkeeps.reserved
        · exact hkeeps.same
        · exact hkeeps.used
        · exact hkeeps.totalPages

/-- The kernel after functions of `paging.c` that touch no page taken before. -/
theorem Sound.of_paging {k : Kernel} {p : Paging} (hs : k.Sound) (hwf : p.pmm.Wf)
    (hp : Paging.Keeps k.heap.pmm.taken k.paging p) :
    Keeps k (k.setPaging p) ∧ (k.setPaging p).Sound := by
  have hkeeps : Keeps k (k.setPaging p) :=
    ⟨fun q hq => ⟨hq.1.mono hp.used, hq.2⟩, hp.same.mono fun q hq => hq.1, hp.used, hp.totalPages,
      hp.pdPhys, rfl⟩
  obtain ⟨tiles, fl, hl⟩ := hs.heap
  exact ⟨hkeeps, hs.of_keeps hkeeps
    ⟨tiles, fl, (hl.of_same_pages hl.pages hp.same).of_pmm hwf hp.used⟩⟩

/-- The state before the frame is stored: a stack of two pages, a directory, and nothing else. -/
structure Prepared (k : Kernel) (base D : Nat) (A : List Nat) (p : Paging) : Prop where
  keeps : Paging.Keeps k.heap.pmm.taken k.paging p
  wf : p.pmm.Wf
  /-- The pages of the kernel stack, which were free. -/
  stack : ∀ i, i < 2 → p.pmm.KernelPage (base + i * pageSize) ∧
    k.heap.pmm.used (Pmm.pageIndex (base + i * pageSize)) = false
  /-- The directory, in pages other than those of the stack and the heap. -/
  directory : ∃ priv, TaskDir (p.pmm.outside ((base + pageSize) :: k.heap.heapPages)) p.mem k.pdPhys
    D A priv

/-- Storing the frame and adding the control block completes the task. -/
theorem Prepared.finish {k k' : Kernel} {base D r entryAddr ustackTop : Nat} {A : List Nat}
    {p : Paging} {res : Option Task} (hs : k.Sound) (hp : Prepared k base D A p)
    (hwords : ∀ word ∈ initialFrame r entryAddr ustackTop, word < 2 ^ 32)
    (hrun : addTask (k.setPaging { p with
        mem := storeWords p.mem (base + 2 * pageSize - 40) (initialFrame r entryAddr ustackTop) })
      (base + 2 * pageSize - 40) (base + 2 * pageSize) D = some (res, k')) :
    k'.Sound ∧ Keeps k k' ∧ (∀ i, p.pmm.used i = true → k'.heap.pmm.used i = true) ∧
      ∃ t, res = some t ∧ t.kernelStackTop = base + 2 * pageSize ∧
      t.esp + 40 = t.kernelStackTop ∧
      (∀ i (hi : i < 10), k'.mem.load32 (t.esp + 4 * i) =
        (initialFrame r entryAddr ustackTop)[i]) ∧
      (∃ priv, TaskDir k'.heap.reserved k'.mem k'.pdPhys t.cr3 A priv) ∧
      ∀ i, i < 2 → k'.heap.reserved.has (base + i * pageSize) := by
  obtain ⟨tiles, fl, hl⟩ := hs.heap
  obtain ⟨priv, hdir⟩ := hp.directory
  -- the frame lies in the second page of the stack
  obtain ⟨hpage, hfree⟩ := hp.stack 1 (by decide)
  rw [Nat.one_mul] at hpage hfree
  have hpa := hpage.aligned
  set sp := base + 2 * pageSize - 40 with hsp
  set m := storeWords p.mem sp (initialFrame r entryAddr ustackTop) with hm
  have hlen : (initialFrame r entryAddr ustackTop).length = 10 := rfl
  have hsame : ∀ R : PageSet, ¬ R.has (base + pageSize) → R.Same p.mem m := by
    intro R hnot page x hR h1 h2
    have hRa := R.aligned page hR
    have hne : page ≠ base + pageSize := fun heq => hnot (heq ▸ hR)
    refine storeWords_outside ?_
    rw [hlen, hsp]
    simp only [pageSize] at *
    omega
  have hnot_taken : ¬ k.heap.pmm.taken.has (base + pageSize) := by
    intro htaken
    have := htaken.taken
    rw [hfree] at this
    cases this
  have hold : k.heap.pmm.taken.Same k.mem m := hp.keeps.same.trans (hsame _ hnot_taken)
  have hused : ∀ i, k.heap.pmm.used i = true → p.pmm.used i = true := hp.keeps.used
  obtain ⟨hkeeps1, hsound1⟩ := hs.of_paging (p := { p with mem := m }) hp.wf
    ⟨hold, hused, hp.keeps.totalPages, hp.keeps.pdPhys, hp.keeps.topOfMemory⟩
  set k1 := k.setPaging { p with mem := m } with hk1
  have hpd : k1.pdPhys = k.pdPhys := hkeeps1.pdPhys
  have hsub : ∀ q, (p.pmm.outside ((base + pageSize) :: k.heap.heapPages)).has q →
      k1.heap.reserved.has q := fun q hq => ⟨hq.1, fun hmem => hq.2 (List.mem_cons_of_mem _ hmem)⟩
  have hkdir : KernelDir (p.pmm.outside ((base + pageSize) :: k.heap.heapPages)) p.mem k.pdPhys := by
    refine hs.dir.transfer (fun q hq => ⟨hq.1.mono hused, ?_⟩) (hp.keeps.same.mono fun q hq => hq.1)
    rw [List.mem_cons, not_or]
    exact ⟨fun heq => hnot_taken (heq ▸ hq.1), hq.2⟩
  have hdir1 : TaskDir k1.heap.reserved k1.mem k1.pdPhys D A priv := by
    rw [hpd]
    exact hdir.transfer hkdir hsub (hsame _ fun h => h.2 (by simp))
  obtain ⟨hsound, hkeeps, t, hres, htesp, httop, htcr3⟩ := addTask_spec hsound1 hrun
  have hstack1 : ∀ i, i < 2 → k1.heap.reserved.has (base + i * pageSize) := by
    intro i hi
    obtain ⟨hpg, hfr⟩ := hp.stack i hi
    refine ⟨hpg, fun hmem => ?_⟩
    have := (hl.pages _ hmem).taken
    rw [hfr] at this
    cases this
  refine ⟨hsound, hkeeps1.trans hkeeps, hkeeps.used, t, hres, httop, ?_, fun i hi => ?_, ⟨priv, ?_⟩,
    fun i hi => hkeeps.reserved _ (hstack1 i hi)⟩
  · rw [htesp, httop, hsp]
    simp only [pageSize]
    omega
  · have hword : k1.mem.load32 (sp + 4 * i) = (initialFrame r entryAddr ustackTop)[i] :=
      load32_storeWords (by rw [hlen]; exact hi) hwords
    rw [htesp, ← hword]
    have hres1 := hstack1 1 (by decide)
    rw [Nat.one_mul] at hres1
    refine load32_congr fun x h1 h2 => hkeeps.same (base + pageSize) x hres1 ?_ ?_
    · rw [hsp] at h1
      simp only [pageSize] at *
      omega
    · rw [hsp] at h2
      simp only [pageSize] at *
      omega
  · rw [htcr3, hkeeps.pdPhys]
    exact hdir1.transfer hsound1.dir hkeeps.reserved hkeeps.same

/-- A finished draft, made after the kernel stack was taken, is ready for the frame. -/
theorem Sound.prepared {k : Kernel} {u : Pmm} {base D : Nat} {A : List Nat} {p : Paging}
    (hs : k.Sound) (hu : Keeps k (k.setPmm u))
    (hstack : ∀ i, i < 2 → u.KernelPage (base + i * pageSize) ∧
      k.heap.pmm.used (Pmm.pageIndex (base + i * pageSize)) = false)
    (hd : Drafting u.taken p D A) (hp : Paging.Keeps u.taken (k.setPmm u).paging p) :
    Prepared k base D A p := by
  obtain ⟨hwf, priv, hdraft⟩ := hd
  have hpd : p.pdPhys = k.pdPhys := hp.pdPhys
  have hsub : ∀ q, k.heap.pmm.taken.has q → u.taken.has q := fun q hq => hq.mono hu.used
  -- the tables are newer than the stack and the heap pages
  have hout : ∀ q, ¬ u.taken.has q → q ∉ (base + pageSize) :: k.heap.heapPages := by
    intro q hq
    rw [List.mem_cons, not_or]
    refine ⟨fun heq => hq ?_, fun hmem => hq ((hs.heap_pages q hmem).mono hu.used)⟩
    have := (hstack 1 (by decide)).1
    rw [Nat.one_mul] at this
    rw [heq]
    exact this
  refine ⟨⟨hp.same.mono hsub, fun i hi => hp.used i (hu.used i hi),
    hp.totalPages.trans hu.totalPages, hpd, hp.topOfMemory⟩, hwf,
    fun i hi => ⟨(hstack i hi).1.mono hp.used, (hstack i hi).2⟩, priv, ?_⟩
  rw [← hpd]
  exact taskDir_restrict hdraft.task ⟨hdraft.task.dir, hout D hdraft.dirNew⟩ fun i q hi hq =>
    ⟨(hdraft.task.own i q hi hq).1, hout q (hdraft.ptNew i q hi hq)⟩

/-- `task_create_user_with_pages` keeps the kernel's memory sound, keeps everything that was
reserved, and a task it returns is complete. -/
theorem Sound.taskCreate {r entryAddr userEsp : Nat} {userPages : List Nat} {k k' : Kernel}
    {res : Option Task} (hs : k.Sound) (hpages : ∀ a ∈ userPages, k.UserRegion a)
    (hr : r < 2 ^ 32) (hentry : entryAddr < 2 ^ 32) (hesp : userEsp < 2 ^ 32)
    (hrun : taskCreateUserWithPages r k entryAddr userEsp userPages = some (res, k')) :
    k'.Sound ∧ Keeps k k' ∧ ∀ t, res = some t → ∃ stack,
      NewTask r entryAddr userEsp userPages k k' t stack := by
  obtain ⟨base, u1, hkstack⟩ : ∃ b u, k.heap.pmm.pmmAllocContiguousPages 2 = (b, u) :=
    ⟨_, _, rfl⟩
  have hcall1 : k.heap.pmm.call (.contiguous 2) = (base, u1) := hkstack
  have hkeeps1 := Keeps.call k (.contiguous 2)
  have hs1 := hs.call (.contiguous 2)
  rw [hcall1] at hkeeps1 hs1
  rw [taskCreateUserWithPages, hkstack] at hrun
  dsimp only at hrun hkeeps1 hs1
  by_cases hbase : base = 0
  · rw [if_pos hbase] at hrun
    obtain ⟨rfl, rfl⟩ := Prod.mk.inj (Option.some.inj hrun)
    exact ⟨hs1, hkeeps1, by simp⟩
  rw [if_neg hbase] at hrun
  have hgrant : ∀ i, i < 2 → u1.KernelPage (base + i * pageSize) ∧
      k.heap.pmm.used (Pmm.pageIndex (base + i * pageSize)) = false := by
    intro i hi
    have := hs.pmm.kernel_pages (c := .contiguous 2) rfl (by rw [hcall1]; exact hbase) hi
    rw [hcall1] at this
    exact this
  have hwf1 : u1.Wf := hs1.pmm
  have hused1 : ∀ i, k.heap.pmm.used i = true → u1.used i = true := hkeeps1.used
  obtain ⟨D, p2, hclone⟩ : ∃ d p, (k.setPmm u1).paging.pagingCloneKernelPd = (d, p) := ⟨_, _, rfl⟩
  rw [hclone] at hrun
  dsimp only at hrun
  by_cases hD : D = 0
  · -- no page for the directory
    rw [if_pos hD] at hrun
    obtain ⟨rfl, rfl⟩ := Prod.mk.inj (Option.some.inj hrun)
    have hp2 : p2 = { (k.setPmm u1).paging with pmm := (u1.call .page).2 } := by
      rw [Paging.pagingCloneKernelPd] at hclone
      obtain ⟨q, u, halloc⟩ : ∃ q u, u1.pmmAllocPage = (q, u) := ⟨_, _, rfl⟩
      have hq : (k.setPmm u1).paging.pmm.pmmAllocPage = (q, u) := halloc
      rw [hq] at hclone
      dsimp only at hclone
      by_cases h0 : q = 0
      · rw [if_pos h0] at hclone
        rw [← (Prod.mk.inj hclone).2, Pmm.call, halloc]
      · rw [if_neg h0] at hclone
        exact absurd ((Prod.mk.inj hclone).1.trans hD) h0
    rw [hp2]
    exact ⟨hs1.call .page, hkeeps1.trans (Keeps.call _ .page), by simp⟩
  rw [if_neg hD] at hrun
  have hkdir1 : KernelDir u1.taken k.mem k.pdPhys :=
    hs.dir.transfer (fun q hq => hq.1.mono hused1) (.refl _ _)
  have hclone' := Paging.clone_drafting (p := (k.setPmm u1).paging) hwf1
    (fun _ hq => hq) hkdir1 (by rw [hclone]; exact hD)
  rw [hclone] at hclone'
  obtain ⟨hdraft2, hpk2⟩ := hclone'
  dsimp only at hdraft2 hpk2
  obtain ⟨ustack, u3, hust⟩ : ∃ q u, (if userEsp = 0 then p2.pmm.pmmAllocUserPage
      else (0, p2.pmm)) = (q, u) := ⟨_, _, rfl⟩
  have hust' : (if userEsp = 0 then
      ((k.setPmm u1).setPaging p2).heap.pmm.pmmAllocUserPage else
      (0, ((k.setPmm u1).setPaging p2).heap.pmm)) = (ustack, u3) := hust
  rw [hust'] at hrun
  dsimp only at hrun
  -- the pages that the stack may have taken
  have hu3 : u3.Wf ∧ (∀ i, p2.pmm.used i = true → u3.used i = true) ∧
      u3.totalPages = p2.pmm.totalPages := by
    by_cases h0 : userEsp = 0
    · rw [if_pos h0] at hust
      have hcall : p2.pmm.call .userPage = (ustack, u3) := hust
      have h1 := hdraft2.wf.call .userPage
      have h2 : ∀ i, p2.pmm.used i = true → (p2.pmm.call .userPage).2.used i = true :=
        fun i => Pmm.used_call .userPage
      have h3 := p2.pmm.totalPages_call .userPage
      rw [hcall] at h1 h2 h3
      exact ⟨h1, h2, h3⟩
    · rw [if_neg h0] at hust
      obtain ⟨_, rfl⟩ := Prod.mk.inj hust
      exact ⟨hdraft2.wf, fun _ h => h, rfl⟩
  have hdraft3 := drafting_of_pmm hdraft2 hu3.1 hu3.2.1
  have hpk3 : Paging.Keeps u1.taken (k.setPmm u1).paging { p2 with pmm := u3 } :=
    hpk2.trans ⟨.refl _ _, hu3.2.1, hu3.2.2, rfl, rfl⟩
  have hprep3 := hs.prepared hkeeps1 hgrant hdraft3 hpk3
  by_cases hfail : userEsp = 0 ∧ ustack = 0
  · rw [if_pos hfail] at hrun
    obtain ⟨rfl, rfl⟩ := Prod.mk.inj (Option.some.inj hrun)
    obtain ⟨h1, h2⟩ := hs.of_paging hprep3.wf hprep3.keeps
    exact ⟨h2, h1, by simp⟩
  rw [if_neg hfail] at hrun
  set stack : Option Nat := if userEsp = 0 then some ustack else none with hstack
  have hmarked : (if ustack ≠ 0 then [ustack] else []) = stack.toList := by
    by_cases h0 : userEsp = 0
    · have hne : ustack ≠ 0 := fun h => hfail ⟨h0, h⟩
      rw [hstack, if_pos h0, if_pos hne]
      rfl
    · rw [if_neg h0] at hust
      rw [hstack, if_neg h0, ← (Prod.mk.inj hust).1]
      rfl
  have htop : (if userEsp = 0 then ustack + pageSize else userEsp) =
      (stack.map fun page => page + pageSize).getD userEsp := by
    by_cases h0 : userEsp = 0
    · rw [hstack, if_pos h0, if_pos h0]
      rfl
    · rw [hstack, if_neg h0, if_neg h0]
      rfl
  rw [hmarked, htop] at hrun
  have hstackPage : ∀ page, stack = some page → k.UserRegion page ∧
      p2.pmm.used (Pmm.pageIndex page) = false ∧ u3.used (Pmm.pageIndex page) = true := by
    intro page hpage
    by_cases h0 : userEsp = 0
    · rw [hstack, if_pos h0] at hpage
      obtain rfl := Option.some.inj hpage
      rw [if_pos h0] at hust
      have hne : ustack ≠ 0 := fun h => hfail ⟨h0, h⟩
      have hgot := hdraft2.wf.user_page (by rw [hust]; exact hne)
      rw [hust] at hgot
      obtain ⟨h1, h2, h3, h4, h5⟩ := hgot
      have htotal : p2.pmm.totalPages = k.heap.pmm.totalPages :=
        hpk2.totalPages.trans hkeeps1.totalPages
      rw [htotal] at h3
      exact ⟨⟨h1, h2, h3⟩, h4, h5⟩
    · rw [hstack, if_neg h0] at hpage
      cases hpage
  -- every marked page lies in a window of the kernel directory
  have hwindow : ∀ a ∈ userPages ++ stack.toList, a % pageSize = 0 ∧ a < 2 ^ 32 ∧
      p2.mem.entry p2.pdPhys (pdIndex a) ≠ 0 := by
    intro a ha
    have hregion : k.UserRegion a := by
      rcases List.mem_append.mp ha with ha | ha
      · exact hpages a ha
      · exact (hstackPage a (Option.mem_toList.mp ha)).1
    obtain ⟨ha32, hwin⟩ := hs.window hregion
    refine ⟨hregion.aligned, ha32, ?_⟩
    have hK : u1.taken.has k.pdPhys := hkdir1.dir
    have hpd2 : p2.pdPhys = k.pdPhys := hpk2.pdPhys
    rw [hpd2, hpk2.same.entry hK (pdIndex_lt ha32)]
    exact hwin
  have hK2 : u1.taken.has p2.pdPhys := by
    have hpd2 : p2.pdPhys = k.pdPhys := hpk2.pdPhys
    rw [hpd2]
    exact hkdir1.dir
  have htopw : (((k.setPmm u1).setPaging p2).setPmm u3).paging = { p2 with pmm := u3 } := by
    have : p2.topOfMemory = k.topOfMemory := hpk2.topOfMemory
    show ({ mem := p2.mem, pmm := u3, pdPhys := p2.pdPhys, topOfMemory := k.topOfMemory } : Paging)
      = _
    rw [← this]
  rw [htopw] at hrun
  cases hmark : markPages { p2 with pmm := u3 } D (userPages ++ stack.toList) with
  | none => rw [hmark] at hrun; cases hrun
  | some p4 =>
      rw [hmark] at hrun
      obtain ⟨hdraft4, hpk4⟩ := markPages_drafting hdraft3 hK2 hwindow hmark
      have hprep := hs.prepared hkeeps1 hgrant hdraft4 (hpk3.trans hpk4)
      rw [List.nil_append] at hprep
      have hwords : ∀ word ∈ initialFrame r entryAddr
          ((stack.map fun page => page + pageSize).getD userEsp), word < 2 ^ 32 := by
        have htop32 : (stack.map fun page => page + pageSize).getD userEsp < 2 ^ 32 := by
          cases hst : stack with
          | none => exact hesp
          | some page =>
              have h1 := (hstackPage page hst).1.upper
              have h2 := hs.region
              have h3 := hs.top
              show page + pageSize < 2 ^ 32
              omega
        simp only [initialFrame, List.mem_cons, List.not_mem_nil, or_false, userCs, userDs]
        omega
      obtain ⟨hsound, hkeeps, hused, t, hres, htstack, htesp, hframe, hdir, hkst⟩ :=
        hprep.finish hs hwords hrun
      refine ⟨hsound, hkeeps, fun t' ht' => ?_⟩
      obtain rfl := Option.some.inj (hres.symm.trans ht')
      refine ⟨stack, ⟨?_, fun page hpage => ?_, hdir, ⟨base, htstack, fun i hi =>
        ⟨hkst i hi, (hgrant i hi).2⟩⟩, htesp, hframe⟩⟩
      · rw [hstack]
        split
        · next h0 => simp [h0]
        · next h0 => simp [h0]
      · obtain ⟨h1, h2, h3⟩ := hstackPage page hpage
        refine ⟨h1, ?_, hused _ (hpk4.used _ h3)⟩
        cases hu : k.heap.pmm.used (Pmm.pageIndex page) with
        | false => rfl
        | true =>
            have := hpk2.used _ (hused1 _ hu)
            rw [h2] at this
            cases this

end Kernel

end Kumo
