import Mathlib.Data.Finset.Card
import Mathlib.Data.Finset.Dedup
import Kumo.Arch.UserMarking
import Kumo.Mm.KernelZone
import Kumo.Sched.Task

/-!
# How many page tables a task needs

Marking a page gives the task a table of its own for the window of 4 MB that the page is
in, unless it has one. Marking a list of pages takes as many kernel pages as there are
different windows, and returns just if there are that many, and the kernel has a table
for each window.
-/

namespace Kumo

open Memory

namespace Paging

variable {R0 : PageSet} {p p' : Paging} {D a i : Nat} {W : Finset Nat} {pages : List Nat}

/-- The windows in which the task has a table of its own. -/
def Copied (p : Paging) (D : Nat) (W : Finset Nat) : Prop :=
  ∀ i, i < tableEntries →
    (i ∈ W ↔ frameOf (p.mem.entry D i) ≠ frameOf (p.mem.entry p.pdPhys i))

/-- The windows of a list of pages. -/
def windows (pages : List Nat) : Finset Nat := (pages.map pdIndex).toFinset

/-- The kernel has a table for the window. -/
def HasTable (p : Paging) (i : Nat) : Prop := frameOf (p.mem.entry p.pdPhys i) ≠ 0

instance (p : Paging) (i : Nat) : Decidable (p.HasTable i) := inferInstanceAs (Decidable (_ ≠ _))

/-- What a task directory under construction rests on: the pages `R0` were taken before, among them
the kernel's tables. -/
structure Building (R0 : PageSet) (p : Paging) (D : Nat) (W : Finset Nat) : Prop where
  wf : p.pmm.Wf
  old : ∀ q, R0.has q → p.pmm.taken.has q
  shared : ∀ i, i < tableEntries → p.HasTable i → R0.has (frameOf (p.mem.entry p.pdPhys i))
  tables : Private R0 p.pmm.taken p.mem p.pdPhys D
  copied : p.Copied D W

/-- The kernel's entries stay what they were while pages of `R0` do. -/
theorem Keeps.kernelEntry (hk : Keeps R0 p p') (hK : R0.has p.pdPhys) (hi : i < tableEntries) :
    p'.mem.entry p'.pdPhys i = p.mem.entry p.pdPhys i := by
  rw [hk.pdPhys, hk.same.entry hK hi]

theorem Keeps.hasTable (hk : Keeps R0 p p') (hK : R0.has p.pdPhys) (hi : i < tableEntries) :
    p'.HasTable i ↔ p.HasTable i := by
  rw [HasTable, HasTable, hk.kernelEntry hK hi]

theorem Building.shared_of_keeps (hb : Building R0 p D W) (hk : Keeps R0 p p') :
    ∀ i, i < tableEntries → p'.HasTable i → R0.has (frameOf (p'.mem.entry p'.pdPhys i)) := by
  intro i hi htable
  rw [hk.kernelEntry hb.tables.kernel hi]
  exact hb.shared i hi ((hk.hasTable hb.tables.kernel hi).mp htable)

/-- After cloning, the task has no table of its own. -/
theorem Building.clone (R0 : PageSet) (hwf : p.pmm.Wf) (hR0 : ∀ q, R0.has q → p.pmm.taken.has q)
    (hK : R0.has p.pdPhys)
    (hshared : ∀ i, i < tableEntries → p.HasTable i → R0.has (frameOf (p.mem.entry p.pdPhys i)))
    (hrun : p.pagingCloneKernelPd = (D, p')) (hD : D ≠ 0) : Building R0 p' D ∅ := by
  obtain ⟨hwf', hkeeps, hpriv⟩ := clone_private R0 hwf hR0 hK hrun
  refine ⟨hwf', fun q hq => (hR0 q hq).mono hkeeps.used, fun i hi htable => ?_, hpriv hD,
    fun i hi => ?_⟩
  · rw [hkeeps.kernelEntry hK hi]
    exact hshared i hi ((hkeeps.hasTable hK hi).mp htable)
  obtain ⟨q, u, halloc⟩ : ∃ q u, p.pmm.pmmAllocPage = (q, u) := ⟨_, _, rfl⟩
  simp only [pagingCloneKernelPd, halloc] at hrun
  by_cases h0 : q = 0
  · rw [if_pos h0] at hrun
    exact absurd (Prod.mk.inj hrun).1.symm hD
  · rw [if_neg h0] at hrun
    obtain ⟨rfl, rfl⟩ := Prod.mk.inj hrun
    have hqa := (hwf.takes halloc h0).page.aligned
    have hne : q ≠ p.pdPhys := fun heq => (hpriv h0).dirNew (heq ▸ hK)
    dsimp only
    rw [entry_copyTable hi (table_apart hqa (R0.aligned _ hK) hne),
      entry_copyTable_page hqa (R0.aligned _ hK) hne hi]
    simp

/-- Pages that others take do no harm. -/
theorem Building.pmm {u : Pmm} (hb : Building R0 p D W) (hwf : u.Wf)
    (hused : ∀ i, p.pmm.used i = true → u.used i = true) : Building R0 { p with pmm := u } D W :=
  ⟨hwf, fun q hq => (hb.old q hq).mono hused, hb.shared, hb.tables.mono fun _ hq => hq.mono hused,
    hb.copied⟩

/-! ## One window -/

/-- A window with a table of its own costs nothing. -/
theorem Building.privatePt_own (hb : Building R0 p D W) (hi : i < tableEntries) (hW : i ∈ W) :
    p.privatePt D i = some p :=
  if_neg ((hb.copied i hi).mp hW)

theorem Building.frame_shared (hb : Building R0 p D W) (hi : i < tableEntries) (hW : i ∉ W) :
    frameOf (p.mem.entry D i) = frameOf (p.mem.entry p.pdPhys i) := by
  by_contra hne
  exact hW ((hb.copied i hi).mpr hne)

/-- A window without one needs a free page and a table of the kernel. -/
theorem Building.privatePt_none (hb : Building R0 p D W) (hi : i < tableEntries) (hW : i ∉ W)
    (hno : ¬ (p.pmm.kernelFree ≠ 0 ∧ p.HasTable i)) : p.privatePt D i = none := by
  have hfails : p.pmm.pmmAllocPage.1 = 0 ∨ frameOf (p.mem.entry p.pdPhys i) = 0 := by
    rw [Pmm.pmmAllocPage_eq_zero]
    rw [HasTable] at hno
    tauto
  unfold privatePt
  dsimp only
  rw [if_pos (hb.frame_shared hi hW), if_pos hfails]

/-- With both it gets its table, for one page. -/
theorem Building.privatePt_copy (hb : Building R0 p D W) (hi : i < tableEntries) (hW : i ∉ W)
    (hfree : p.pmm.kernelFree ≠ 0) (htable : p.HasTable i) :
    ∃ p', p.privatePt D i = some p' ∧ p'.pmm = p.pmm.pmmAllocPage.2 ∧ Keeps R0 p p' ∧
      Building R0 p' D (insert i W) := by
  have h0 : p.pmm.pmmAllocPage.1 ≠ 0 := fun h => hfree ((Pmm.pmmAllocPage_eq_zero _).mp h)
  have hok : ¬ (p.pmm.pmmAllocPage.1 = 0 ∨ frameOf (p.mem.entry p.pdPhys i) = 0) := by
    rintro (h | h)
    · exact h0 h
    · exact htable h
  obtain ⟨p', hrun⟩ : ∃ p', p.privatePt D i = some p' := by
    unfold privatePt
    dsimp only
    rw [if_pos (hb.frame_shared hi hW), if_neg hok]
    exact ⟨_, rfl⟩
  obtain ⟨hwf', hkeeps, hpriv, _, hnew, _⟩ := privatePt_private hb.wf hb.old hb.tables hi hrun
  have hshared := hb.shared_of_keeps hkeeps
  rcases privatePt_cases hrun with ⟨_, q, u, halloc, hq0, hp'⟩ | ⟨hdiff, _⟩
  · refine ⟨p', hrun, by rw [hp', halloc], hkeeps, hwf',
      fun q hq => (hb.old q hq).mono hkeeps.used, hshared, hpriv, fun j hj => ?_⟩
    by_cases hji : j = i
    · -- the kernel's table was there before, the new one was not
      subst hji
      refine iff_of_true (Finset.mem_insert_self _ _) fun heq => hnew ?_
      rw [heq]
      exact hshared j hj ((hkeeps.hasTable hb.tables.kernel hj).mpr htable)
    · have htakes := hb.wf.takes halloc hq0
      have hqD : q ≠ D := fun heq => htakes.not_taken (heq ▸ hb.tables.dir)
      have hD : p'.mem.entry D j = p.mem.entry D j := by
        rw [hp']
        dsimp only
        rw [entry_setEntry_index (Ne.symm hji),
          entry_copyTable_page htakes.page.aligned hb.tables.dir.aligned hqD hj]
      rw [hkeeps.kernelEntry hb.tables.kernel hj, hD, Finset.mem_insert, or_iff_right hji]
      exact hb.copied j hj
  · exact absurd (hb.frame_shared hi hW) hdiff

/-! ## One page -/

/-- Marking a page of a window with a table of its own takes no page. -/
theorem Building.mark_own (hb : Building R0 p D W) (ha : a < 2 ^ 32) (hW : pdIndex a ∈ W) :
    p.pagingSetUserAccessibleForTask D a = some (p.markEntry D a) ∧
      Keeps R0 p (p.markEntry D a) ∧ Building R0 (p.markEntry D a) D W := by
  have hi := pdIndex_lt ha
  have hown := hb.privatePt_own hi hW
  obtain ⟨_, _, _, htaken, hnew, hne⟩ := privatePt_private hb.wf hb.old hb.tables hi hown
  obtain ⟨hkeeps, hpriv, hframe⟩ := markEntry_private hb.tables ha htaken hnew hne
  refine ⟨by rw [pagingSetUserAccessibleForTask_eq, hown]; rfl, hkeeps, hb.wf, hb.old,
    hb.shared_of_keeps hkeeps, hpriv, fun j hj => ?_⟩
  rw [hframe j hj, hkeeps.kernelEntry hb.tables.kernel hj]
  exact hb.copied j hj

/-- Marking a page of another window takes one. -/
theorem Building.mark_copy (hb : Building R0 p D W) (ha : a < 2 ^ 32) (hW : pdIndex a ∉ W)
    (hfree : p.pmm.kernelFree ≠ 0) (htable : p.HasTable (pdIndex a)) :
    ∃ p', p.pagingSetUserAccessibleForTask D a = some p' ∧ p'.pmm = p.pmm.pmmAllocPage.2 ∧
      Keeps R0 p p' ∧ Building R0 p' D (insert (pdIndex a) W) := by
  have hi := pdIndex_lt ha
  obtain ⟨p1, hshare, hpmm, hk1, hb1⟩ := hb.privatePt_copy hi hW hfree htable
  obtain ⟨_, hk2, hb2⟩ := hb1.mark_own ha (Finset.mem_insert_self _ _)
  exact ⟨p1.markEntry D a, by rw [pagingSetUserAccessibleForTask_eq, hshare]; rfl, hpmm,
    hk1.trans hk2, hb2⟩

/-- Without a free page, or without a table of the kernel, it does not return. -/
theorem Building.mark_none (hb : Building R0 p D W) (ha : a < 2 ^ 32) (hW : pdIndex a ∉ W)
    (hno : ¬ (p.pmm.kernelFree ≠ 0 ∧ p.HasTable (pdIndex a))) :
    p.pagingSetUserAccessibleForTask D a = none := by
  rw [pagingSetUserAccessibleForTask_eq, hb.privatePt_none (pdIndex_lt ha) hW hno]
  rfl

/-! ## A list of pages -/

theorem windows_cons (a : Nat) (pages : List Nat) :
    windows (a :: pages) = insert (pdIndex a) (windows pages) := by
  simp only [windows, List.map_cons, List.toFinset_cons]

theorem windows_cons_sdiff_of_mem (pages : List Nat) (hW : pdIndex a ∈ W) :
    windows (a :: pages) \ W = windows pages \ W := by
  rw [windows_cons, Finset.insert_sdiff_of_mem _ hW]

theorem windows_cons_sdiff_of_notMem (pages : List Nat) (hW : pdIndex a ∉ W) :
    windows (a :: pages) \ W = insert (pdIndex a) (windows pages \ insert (pdIndex a) W) ∧
      (windows (a :: pages) \ W).card = (windows pages \ insert (pdIndex a) W).card + 1 := by
  have heq : windows (a :: pages) \ W =
      insert (pdIndex a) (windows pages \ insert (pdIndex a) W) := by
    ext i
    simp only [windows_cons, Finset.mem_sdiff, Finset.mem_insert]
    by_cases hi : i = pdIndex a
    · simp [hi, hW]
    · simp [hi]
  refine ⟨heq, ?_⟩
  rw [heq, Finset.card_insert_of_notMem (by simp)]

/-- There is a free page for each window without a table, and a table of the kernel to copy. -/
structure Enough (p : Paging) (W : Finset Nat) (pages : List Nat) : Prop where
  tables : ∀ i ∈ windows pages \ W, p.HasTable i
  free : (windows pages \ W).card ≤ p.pmm.kernelFree

theorem windows_lt (hpages : ∀ a ∈ pages, a < 2 ^ 32) (hi : i ∈ windows pages) :
    i < tableEntries := by
  rw [windows, List.mem_toFinset, List.mem_map] at hi
  obtain ⟨a, ha, rfl⟩ := hi
  exact pdIndex_lt (hpages a ha)

/-- A page of a window with a table makes no difference. -/
theorem Building.enough_own (hb : Building R0 p D W) (hk : Keeps R0 p p') (hpmm : p'.pmm = p.pmm)
    (hpages : ∀ a ∈ pages, a < 2 ^ 32) (hW : pdIndex a ∈ W) :
    p'.Enough W pages ↔ p.Enough W (a :: pages) := by
  have hsame := windows_cons_sdiff_of_mem pages hW
  have htable : ∀ i ∈ windows pages \ W, (p'.HasTable i ↔ p.HasTable i) := fun i hi =>
    hk.hasTable hb.tables.kernel (windows_lt hpages (Finset.mem_sdiff.mp hi).1)
  constructor
  · intro h
    refine ⟨fun i hi => ?_, ?_⟩
    · rw [hsame] at hi
      exact (htable i hi).mp (h.tables i hi)
    · rw [hsame, ← hpmm]
      exact h.free
  · intro h
    refine ⟨fun i hi => (htable i hi).mpr (h.tables i (hsame ▸ hi)), ?_⟩
    rw [hpmm, ← hsame]
    exact h.free

/-- The first page of another window takes one of the free pages. -/
theorem Building.enough_copy (hb : Building R0 p D W) (hk : Keeps R0 p p')
    (hpmm : p'.pmm = p.pmm.pmmAllocPage.2) (hpages : ∀ a ∈ pages, a < 2 ^ 32)
    (hW : pdIndex a ∉ W) (hfree : p.pmm.kernelFree ≠ 0) (hfirst : p.HasTable (pdIndex a)) :
    p'.Enough (insert (pdIndex a) W) pages ↔ p.Enough W (a :: pages) := by
  obtain ⟨hset, hcard⟩ := windows_cons_sdiff_of_notMem pages hW
  have hkernel : p'.pmm.kernelFree = p.pmm.kernelFree - 1 := by
    rw [hpmm, Pmm.kernelFree_pmmAllocPage hb.wf]
  have htable : ∀ i ∈ windows pages \ insert (pdIndex a) W, (p'.HasTable i ↔ p.HasTable i) :=
    fun i hi => hk.hasTable hb.tables.kernel (windows_lt hpages (Finset.mem_sdiff.mp hi).1)
  constructor
  · intro h
    refine ⟨fun i hi => ?_, ?_⟩
    · rw [hset, Finset.mem_insert] at hi
      rcases hi with rfl | hi
      · exact hfirst
      · exact (htable i hi).mp (h.tables i hi)
    · have := h.free
      omega
  · intro h
    refine ⟨fun i hi => (htable i hi).mpr (h.tables i ?_), ?_⟩
    · rw [hset]
      exact Finset.mem_insert_of_mem hi
    · have := h.free
      omega

/-- The first page of another window needs a free page and a table. -/
theorem Enough.first (h : p.Enough W (a :: pages)) (hW : pdIndex a ∉ W) :
    p.pmm.kernelFree ≠ 0 ∧ p.HasTable (pdIndex a) := by
  obtain ⟨hset, hcard⟩ := windows_cons_sdiff_of_notMem pages hW
  refine ⟨?_, h.tables _ (by rw [hset]; exact Finset.mem_insert_self _ _)⟩
  have := h.free
  omega

/-- With enough free pages the whole list is marked, for one page each window. -/
theorem Building.markPages (hb : Building R0 p D W) (hpages : ∀ a ∈ pages, a < 2 ^ 32)
    (henough : p.Enough W pages) :
    ∃ p', Kernel.markPages p D pages = some p' ∧
      p'.pmm = p.pmm.takePages (windows pages \ W).card ∧ Keeps R0 p p' ∧
      p'.pmm.Wf ∧ Private R0 p'.pmm.taken p'.mem p'.pdPhys D := by
  induction pages generalizing p W with
  | nil => exact ⟨p, rfl, by simp [windows, Pmm.takePages], .refl R0 p, hb.wf, hb.tables⟩
  | cons a pages ih =>
      obtain ⟨ha, hrest⟩ := List.forall_mem_cons.mp hpages
      rw [Kernel.markPages]
      by_cases hW : pdIndex a ∈ W
      · obtain ⟨hrun1, hk1, hb1⟩ := hb.mark_own ha hW
        obtain ⟨p', hrun, hpmm, hk, hpriv⟩ :=
          ih hb1 hrest ((hb.enough_own hk1 rfl hrest hW).mpr henough)
        rw [hrun1, windows_cons_sdiff_of_mem pages hW]
        exact ⟨p', hrun, hpmm, hk1.trans hk, hpriv⟩
      · obtain ⟨hfree, htable⟩ := henough.first hW
        obtain ⟨p1, hrun1, hpmm1, hk1, hb1⟩ := hb.mark_copy ha hW hfree htable
        obtain ⟨p', hrun, hpmm, hk, hpriv⟩ :=
          ih hb1 hrest ((hb.enough_copy hk1 hpmm1 hrest hW hfree htable).mpr henough)
        rw [hrun1, (windows_cons_sdiff_of_notMem pages hW).2]
        exact ⟨p', hrun, by rw [hpmm, hpmm1, Pmm.takePages], hk1.trans hk, hpriv⟩

/-- If the whole list was marked, there were enough. -/
theorem Building.enough_of_markPages (hb : Building R0 p D W) (hpages : ∀ a ∈ pages, a < 2 ^ 32)
    (hrun : Kernel.markPages p D pages = some p') : p.Enough W pages := by
  induction pages generalizing p W with
  | nil => exact ⟨by simp [windows], by simp [windows]⟩
  | cons a pages ih =>
      obtain ⟨ha, hrest⟩ := List.forall_mem_cons.mp hpages
      rw [Kernel.markPages] at hrun
      by_cases hW : pdIndex a ∈ W
      · obtain ⟨hrun1, hk1, hb1⟩ := hb.mark_own ha hW
        rw [hrun1] at hrun
        exact (hb.enough_own hk1 rfl hrest hW).mp (ih hb1 hrest hrun)
      · by_cases hok : p.pmm.kernelFree ≠ 0 ∧ p.HasTable (pdIndex a)
        · obtain ⟨p1, hrun1, hpmm1, hk1, hb1⟩ := hb.mark_copy ha hW hok.1 hok.2
          rw [hrun1] at hrun
          exact (hb.enough_copy hk1 hpmm1 hrest hW hok.1 hok.2).mp (ih hb1 hrest hrun)
        · rw [hb.mark_none ha hW hok] at hrun
          cases hrun

end Paging

end Kumo
