import Kumo.Arch.TaskDirectory

/-!
# Where marking user pages writes

`paging_set_user_accessible` opens a page in the kernel directory itself. After it the
kernel directory is no longer the plain identity mapping of `KernelDir`, but it still
keeps its tables where they were: `KernelTables` is that weaker invariant. A task
directory is built from it in pages that were free before, whatever the pages to be
marked are: `Private` says which tables such a directory can point to.
-/

namespace Kumo

open Memory

namespace Paging

/-- `paging_set_user_accessible`. -/
def pagingSetUserAccessible (p : Paging) (physAddr : Nat) : Paging :=
  let e := p.mem.entry p.pdPhys (pdIndex physAddr)
  if !present e then p
  else
    let m := p.mem.setEntry p.pdPhys (pdIndex physAddr) (e ||| pageUser)
    let pt := frameOf (m.entry p.pdPhys (pdIndex physAddr))
    { p with mem := m.setEntry pt (ptIndex physAddr) (m.entry pt (ptIndex physAddr) ||| pageUser) }

end Paging

/-- The kernel directory and the tables its present entries point to lie in the set. An absent entry
points to no table. -/
structure KernelTables (R : PageSet) (m : Memory) (K : Nat) : Prop where
  dir : R.has K
  table : ∀ i, i < tableEntries → present (m.entry K i) = true → R.has (frameOf (m.entry K i))
  absent : ∀ i, i < tableEntries → present (m.entry K i) = false → frameOf (m.entry K i) = 0

/-- A task directory under construction: each table is the kernel's, or a page taken since the
construction started, when the pages of `R0` were taken. -/
structure Private (R0 R : PageSet) (m : Memory) (K D : Nat) : Prop where
  kernel : R0.has K
  dir : R.has D
  dirNew : ¬ R0.has D
  table : ∀ i, i < tableEntries → frameOf (m.entry D i) = frameOf (m.entry K i) ∨
    (R.has (frameOf (m.entry D i)) ∧ ¬ R0.has (frameOf (m.entry D i)) ∧ frameOf (m.entry D i) ≠ D)

/-! ## Setting the user bit -/

theorem frameOf_or_user (e : Nat) : frameOf (e ||| pageUser) = frameOf e := by
  have h : (e ||| 4) >>> 12 = e >>> 12 := by
    rw [Nat.shiftRight_or_distrib]
    exact Nat.or_zero _
  rw [Nat.shiftRight_eq_div_pow, Nat.shiftRight_eq_div_pow] at h
  simp only [frameOf, pageUser, pageSize]
  rw [show 4096 = 2 ^ 12 from rfl, h]

theorem present_or_user (e : Nat) : present (e ||| pageUser) = present e := by
  have h : (e ||| 4) &&& 1 = e &&& 1 := by
    rw [Nat.and_or_distrib_right]
    exact Nat.or_zero _
  simp only [present, pageUser, pageP]
  rw [h]

theorem or_user_lt {e : Nat} (he : e < 2 ^ 32) : e ||| pageUser < 2 ^ 32 :=
  Nat.or_lt_two_pow he (by decide)

section Tables

variable {R R' S : PageSet} {m m' : Memory} {K t j : Nat}

theorem KernelDir.tables (hk : KernelDir R m K) : KernelTables R m K := by
  refine ⟨hk.dir, fun i hi hp => (hk.frame hi fun h0 => ?_).1, fun i hi hp => ?_⟩
  · rw [h0, present_zero] at hp
    cases hp
  · rcases hk.table i hi with h0 | ⟨q, hq, heq⟩
    · rw [h0]
      exact Nat.zero_mul _
    · have hpresent : present (m.entry K i) = true := by
        have := R.aligned q hq
        rw [present_iff, heq]
        simp only [pageDefault, pageSize] at *
        omega
      rw [hp] at hpresent
      cases hpresent

/-- The tables are where they were in a memory with the same pages. -/
theorem KernelTables.transfer (hk : KernelTables R m K) (hsub : ∀ q, R.has q → R'.has q)
    (hsame : R.Same m m') : KernelTables R' m' K := by
  refine ⟨hsub _ hk.dir, fun i hi hp => ?_, fun i hi hp => ?_⟩
  · rw [hsame.entry hk.dir hi] at hp ⊢
    exact hsub _ (hk.table i hi hp)
  · rw [hsame.entry hk.dir hi] at hp ⊢
    exact hk.absent i hi hp

/-- Setting the user bit of any entry moves no table. -/
theorem KernelTables.setUser (hk : KernelTables R m K) (ht : t % pageSize = 0)
    (hj : j < tableEntries) : KernelTables R (m.setEntry t j (m.entry t j ||| pageUser)) K := by
  have hentry : ∀ i, i < tableEntries →
      (m.setEntry t j (m.entry t j ||| pageUser)).entry K i = m.entry K i ∨
      (m.setEntry t j (m.entry t j ||| pageUser)).entry K i = m.entry K i ||| pageUser := by
    intro i hi
    by_cases hK : t = K
    · subst hK
      by_cases hij : j = i
      · subst hij
        exact .inr (entry_setEntry (or_user_lt (entry_lt m t j)))
      · exact .inl (entry_setEntry_index hij)
    · exact .inl (entry_setEntry_page ht (R.aligned K hk.dir) hK hj hi)
  have hkept : ∀ i, i < tableEntries →
      present ((m.setEntry t j (m.entry t j ||| pageUser)).entry K i) = present (m.entry K i) ∧
      frameOf ((m.setEntry t j (m.entry t j ||| pageUser)).entry K i) = frameOf (m.entry K i) := by
    intro i hi
    rcases hentry i hi with heq | heq
    · rw [heq]
      exact ⟨rfl, rfl⟩
    · rw [heq]
      exact ⟨present_or_user _, frameOf_or_user _⟩
  refine ⟨hk.dir, fun i hi hp => ?_, fun i hi hp => ?_⟩
  · rw [(hkept i hi).1] at hp
    rw [(hkept i hi).2]
    exact hk.table i hi hp
  · rw [(hkept i hi).1] at hp
    rw [(hkept i hi).2]
    exact hk.absent i hi hp

/-- `paging_set_user_accessible` writes in the kernel's tables only, and moves none of them. -/
theorem KernelTables.setUserAccessible {p : Paging} {a : Nat}
    (hk : KernelTables R p.mem p.pdPhys) (ha : a < 2 ^ 32) (hS : ∀ q, S.has q → ¬ R.has q) :
    KernelTables R (p.pagingSetUserAccessible a).mem (p.pagingSetUserAccessible a).pdPhys ∧
      S.Same p.mem (p.pagingSetUserAccessible a).mem := by
  have hi := pdIndex_lt ha
  have hj := ptIndex_lt a
  unfold Paging.pagingSetUserAccessible
  by_cases hp : present (p.mem.entry p.pdPhys (pdIndex a)) = true
  · simp only [hp, Bool.not_true, Bool.false_eq_true, if_false]
    set m := p.mem.setEntry p.pdPhys (pdIndex a) (p.mem.entry p.pdPhys (pdIndex a) ||| pageUser)
      with hm
    have hKa := R.aligned _ hk.dir
    have hk1 : KernelTables R m p.pdPhys := hk.setUser hKa hi
    have hent : m.entry p.pdPhys (pdIndex a) = p.mem.entry p.pdPhys (pdIndex a) ||| pageUser :=
      entry_setEntry (or_user_lt (entry_lt _ _ _))
    have hpt : R.has (frameOf (m.entry p.pdPhys (pdIndex a))) := by
      rw [hent, frameOf_or_user]
      exact hk.table _ hi hp
    have hpta := R.aligned _ hpt
    refine ⟨hk1.setUser hpta hj, ?_⟩
    exact (PageSet.same_setEntry hKa hi fun h => hS _ h hk.dir).trans
      (PageSet.same_setEntry hpta hj fun h => hS _ h hpt)
  · simp only [hp, Bool.not_false, if_true]
    exact ⟨hk, .refl _ _⟩

end Tables

/-! ## Building a task directory -/

section Building

variable {R0 R S : PageSet} {m : Memory} {K D i j t v : Nat}

/-- Pages taken later do no harm. -/
theorem Private.mono (hp : Private R0 R m K D) (hsub : ∀ q, R.has q → S.has q) :
    Private R0 S m K D := by
  refine ⟨hp.kernel, hsub _ hp.dir, hp.dirNew, fun i hi => ?_⟩
  exact (hp.table i hi).imp id fun ⟨h1, h2, h3⟩ => ⟨hsub _ h1, h2, h3⟩

/-- A write into a page that is neither old nor the directory. -/
theorem Private.of_same {m' : Memory} (hp : Private R0 R m K D) (hold : R0.Same m m')
    (hdir : ∀ i, i < tableEntries → m'.entry D i = m.entry D i) : Private R0 R m' K D := by
  refine ⟨hp.kernel, hp.dir, hp.dirNew, fun i hi => ?_⟩
  rw [hdir i hi, hold.entry hp.kernel hi]
  exact hp.table i hi

/-- A write into an entry of the directory. -/
theorem Private.setDir (hp : Private R0 R m K D) (hi : i < tableEntries) (hv : v < 2 ^ 32)
    (hframe : frameOf v = frameOf (m.entry K i) ∨
      (R.has (frameOf v) ∧ ¬ R0.has (frameOf v) ∧ frameOf v ≠ D)) :
    Private R0 R (m.setEntry D i v) K D ∧ R0.Same m (m.setEntry D i v) := by
  have hsame : R0.Same m (m.setEntry D i v) :=
    PageSet.same_setEntry (R.aligned D hp.dir) hi hp.dirNew
  refine ⟨⟨hp.kernel, hp.dir, hp.dirNew, fun i' hi' => ?_⟩, hsame⟩
  rw [hsame.entry hp.kernel hi']
  by_cases heq : i = i'
  · subst heq
    rw [entry_setEntry hv]
    exact hframe
  · rw [entry_setEntry_index heq]
    exact hp.table i' hi'

end Building

namespace Paging

variable {R0 : PageSet} {p p' : Paging} {D a : Nat}

/-- `paging_clone_kernel_pd` starts a private directory, or changes nothing but the allocator. -/
theorem clone_private (R0 : PageSet) (hwf : p.pmm.Wf) (hR0 : ∀ q, R0.has q → p.pmm.taken.has q)
    (hK : R0.has p.pdPhys) {D : Nat} (hrun : p.pagingCloneKernelPd = (D, p')) :
    p'.pmm.Wf ∧ Keeps R0 p p' ∧ (D ≠ 0 → Private R0 p'.pmm.taken p'.mem p'.pdPhys D) := by
  obtain ⟨q, u, halloc⟩ : ∃ q u, p.pmm.pmmAllocPage = (q, u) := ⟨_, _, rfl⟩
  simp only [pagingCloneKernelPd, halloc] at hrun
  by_cases h0 : q = 0
  · rw [if_pos h0] at hrun
    obtain ⟨rfl, rfl⟩ := Prod.mk.inj hrun
    have hu : (p.pmm.call .page).2 = u := congrArg Prod.snd halloc
    have hwf' := hwf.call .page
    have hused : ∀ i, p.pmm.used i = true → (p.pmm.call .page).2.used i = true :=
      fun i => Pmm.used_call .page
    have htotal := p.pmm.totalPages_call .page
    rw [hu] at hwf' hused htotal
    exact ⟨hwf', ⟨.refl _ _, hused, htotal, rfl, rfl⟩, fun h => absurd rfl h⟩
  · rw [if_neg h0] at hrun
    obtain ⟨rfl, rfl⟩ := Prod.mk.inj hrun
    have htakes := hwf.takes halloc h0
    have hqa := htakes.page.aligned
    have hnew : ¬ R0.has q := fun h => htakes.not_taken (hR0 _ h)
    have hsame : R0.Same p.mem (p.mem.copyTable q p.pdPhys tableEntries) :=
      PageSet.same_copyTable hqa hnew
    refine ⟨htakes.wf, ⟨hsame, htakes.used, htakes.totalPages, rfl, rfl⟩, fun _ =>
      ⟨hK, htakes.page, hnew, fun i hi => .inl ?_⟩⟩
    have hne : q ≠ p.pdPhys := fun heq => hnew (heq ▸ hK)
    dsimp only
    rw [entry_copyTable hi (table_apart hqa (R0.aligned _ hK) hne), hsame.entry hK hi]

/-- The first half of `paging_set_user_accessible_for_task`. Afterwards the table of the window is
no old page. -/
theorem privatePt_private {i : Nat} (hwf : p.pmm.Wf) (hR0 : ∀ q, R0.has q → p.pmm.taken.has q)
    (hp : Private R0 p.pmm.taken p.mem p.pdPhys D) (hi : i < tableEntries)
    (hrun : p.privatePt D i = some p') :
    p'.pmm.Wf ∧ Keeps R0 p p' ∧ Private R0 p'.pmm.taken p'.mem p'.pdPhys D ∧
      p'.pmm.taken.has (frameOf (p'.mem.entry D i)) ∧ ¬ R0.has (frameOf (p'.mem.entry D i)) ∧
      frameOf (p'.mem.entry D i) ≠ D := by
  rcases privatePt_cases hrun with ⟨hshared, q, u, halloc, h0, rfl⟩ | ⟨hshared, rfl⟩
  · have htakes := hwf.takes halloc h0
    have hqa := htakes.page.aligned
    have hqw := u.taken.word q htakes.page
    have hq0 : ¬ R0.has q := fun h => htakes.not_taken (hR0 _ h)
    have hqD : q ≠ D := fun heq => htakes.not_taken (heq ▸ hp.dir)
    set m := p.mem.copyTable q (frameOf (p.mem.entry p.pdPhys i)) tableEntries with hm
    have hsame : p.pmm.taken.Same p.mem m := PageSet.same_copyTable hqa htakes.not_taken
    have hp1 : Private R0 u.taken m p.pdPhys D :=
      (hp.of_same (hsame.mono hR0) fun i hi => hsame.entry hp.dir hi).mono
        fun q hq => hq.mono htakes.used
    rw [or_flags hqa (by decide)]
    have hv : q + pageDefault < 2 ^ 32 := by
      simp only [pageDefault, pageSize] at *
      omega
    have hframe : frameOf (q + pageDefault) = q := frameOf_add hqa (by decide)
    obtain ⟨hp2, hsame2⟩ := hp1.setDir hi hv (by rw [hframe]; exact .inr ⟨htakes.page, hq0, hqD⟩)
    dsimp only
    rw [entry_setEntry hv, hframe]
    exact ⟨htakes.wf, ⟨(hsame.mono hR0).trans hsame2, htakes.used, htakes.totalPages, rfl, rfl⟩,
      hp2, htakes.page, hq0, hqD⟩
  · exact ⟨hwf, .refl R0 p', hp, (hp.table i hi).resolve_left hshared⟩

/-- The second half of `paging_set_user_accessible_for_task`: the entry of the page, and the user
bit of the window. -/
def markEntry (p : Paging) (taskPd a : Nat) : Paging :=
  let pt := frameOf (p.mem.entry taskPd (pdIndex a))
  let m := p.mem.setEntry pt (ptIndex a) (a ||| pageDefault ||| pageUser)
  { p with mem := m.setEntry taskPd (pdIndex a) (m.entry taskPd (pdIndex a) ||| pageUser) }

theorem pagingSetUserAccessibleForTask_eq (p : Paging) (taskPd a : Nat) :
    p.pagingSetUserAccessibleForTask taskPd a =
      (p.privatePt taskPd (pdIndex a)).map (markEntry · taskPd a) := rfl

/-- The second half writes in a table of the task, and moves no table. -/
theorem markEntry_private (hp : Private R0 p.pmm.taken p.mem p.pdPhys D) (ha : a < 2 ^ 32)
    (htaken : p.pmm.taken.has (frameOf (p.mem.entry D (pdIndex a))))
    (hnew : ¬ R0.has (frameOf (p.mem.entry D (pdIndex a))))
    (hne : frameOf (p.mem.entry D (pdIndex a)) ≠ D) :
    Keeps R0 p (p.markEntry D a) ∧ Private R0 p.pmm.taken (p.markEntry D a).mem p.pdPhys D ∧
      ∀ j, j < tableEntries →
        frameOf ((p.markEntry D a).mem.entry D j) = frameOf (p.mem.entry D j) := by
  have hi := pdIndex_lt ha
  have hj := ptIndex_lt a
  unfold markEntry
  dsimp only
  set pt := frameOf (p.mem.entry D (pdIndex a)) with hpt
  set m := p.mem.setEntry pt (ptIndex a) (a ||| pageDefault ||| pageUser) with hm
  have hpta := htaken.aligned
  have hDa := hp.dir.aligned
  have hsame : R0.Same p.mem m := PageSet.same_setEntry hpta hj hnew
  have hdir : ∀ i, i < tableEntries → m.entry D i = p.mem.entry D i := fun i hi' =>
    entry_setEntry_page hpta hDa hne hj hi'
  have hp2 : Private R0 p.pmm.taken m p.pdPhys D := hp.of_same hsame hdir
  obtain ⟨hp3, hsame3⟩ := hp2.setDir (v := m.entry D (pdIndex a) ||| pageUser) hi
    (or_user_lt (entry_lt _ _ _)) (by
      rw [frameOf_or_user, hdir _ hi]
      exact .inr ⟨htaken, hnew, hne⟩)
  refine ⟨⟨hsame.trans hsame3, fun _ h => h, rfl, rfl, rfl⟩, hp3, fun j hj => ?_⟩
  by_cases hij : pdIndex a = j
  · subst hij
    rw [entry_setEntry (or_user_lt (entry_lt _ _ _)), frameOf_or_user, hdir _ hj]
  · rw [entry_setEntry_index hij, hdir j hj]

/-- `paging_set_user_accessible_for_task` leaves every old page alone. -/
theorem mark_private (hwf : p.pmm.Wf) (hR0 : ∀ q, R0.has q → p.pmm.taken.has q)
    (hp : Private R0 p.pmm.taken p.mem p.pdPhys D) (ha : a < 2 ^ 32)
    (hrun : p.pagingSetUserAccessibleForTask D a = some p') :
    p'.pmm.Wf ∧ Keeps R0 p p' ∧ Private R0 p'.pmm.taken p'.mem p'.pdPhys D := by
  obtain ⟨p1, hshare, rfl⟩ := Option.map_eq_some_iff.mp hrun
  obtain ⟨hwf1, hkeeps, hp1, htaken, hnew, hne⟩ :=
    privatePt_private hwf hR0 hp (pdIndex_lt ha) hshare
  obtain ⟨hkeeps2, hp2, _⟩ := markEntry_private hp1 ha htaken hnew hne
  exact ⟨hwf1, hkeeps.trans hkeeps2, hp2⟩

end Paging

end Kumo
