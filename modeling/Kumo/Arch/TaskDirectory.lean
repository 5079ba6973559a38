import Kumo.Arch.AddressSpace
import Kumo.Mm.PmmRuns

/-!
# Building the directory of a task

`paging_clone_kernel_pd` and `paging_set_user_accessible_for_task` build the directory
of a task page by page. `Draft` is the invariant: the directory so far is a `TaskDir`,
and all of its own tables are pages that were free when the construction started, so
that nothing built before can change.
-/

namespace Kumo

open Memory

theorem Pmm.KernelPage.word {p : Pmm} {page : Nat} (h : p.KernelPage page) :
    page + pageSize ≤ 2 ^ 32 := by
  have := h.upper
  simp only [userMemStart] at this
  omega

/-- The kernel pages that somebody took. -/
def Pmm.taken (p : Pmm) : PageSet where
  has page := p.KernelPage page
  aligned _ h := h.aligned
  word _ h := h.word

/-- The taken pages outside a list, such as the heap's. -/
def Pmm.outside (p : Pmm) (pages : List Nat) : PageSet where
  has page := p.KernelPage page ∧ page ∉ pages
  aligned _ h := h.1.aligned
  word page h := p.taken.word page h.1

/-- The taken pages of a list. -/
def Pmm.inside (p : Pmm) (pages : List Nat) : PageSet where
  has page := p.KernelPage page ∧ page ∈ pages
  aligned _ h := h.1.aligned
  word page h := p.taken.word page h.1

/-- A directory under construction: `R0` is the set of pages taken before, `R` now. -/
structure Draft (R0 R : PageSet) (m : Memory) (K D : Nat) (A : List Nat) (priv : Nat → Option Nat) :
    Prop where
  task : TaskDir R m K D A priv
  kernel : KernelDir R0 m K
  sub : ∀ q, R0.has q → R.has q
  dirNew : ¬ R0.has D
  ptNew : ∀ i q, i < tableEntries → priv i = some q → ¬ R0.has q

/-! ## Writes to one page -/

section Pages

variable {R : PageSet} {m : Memory} {t t' i i' v src : Nat}

/-- Two page-aligned tables are the same or do not overlap. -/
theorem table_apart (ht : t % pageSize = 0) (ht' : t' % pageSize = 0) (hne : t ≠ t') :
    t + 4 * tableEntries ≤ t' ∨ t' + 4 * tableEntries ≤ t := by
  simp only [pageSize, tableEntries] at *
  omega

theorem entry_setEntry_page (ht : t % pageSize = 0) (ht' : t' % pageSize = 0) (hne : t ≠ t')
    (hi : i < tableEntries) (hi' : i' < tableEntries) :
    (m.setEntry t i v).entry t' i' = m.entry t' i' :=
  entry_setEntry_other (by have := table_apart ht ht' hne; omega)

theorem entry_setEntry_index (hne : i ≠ i') : (m.setEntry t i v).entry t i' = m.entry t i' :=
  entry_setEntry_other (by omega)

theorem entry_copyTable_page (ht : t % pageSize = 0) (ht' : t' % pageSize = 0) (hne : t ≠ t')
    (hi' : i' < tableEntries) : (m.copyTable t src tableEntries).entry t' i' = m.entry t' i' :=
  entry_congr fun x _ _ => copyTable_outside (by have := table_apart ht ht' hne; omega)

theorem entry_fillTable_page {f : Nat → Nat} (ht : t % pageSize = 0) (ht' : t' % pageSize = 0)
    (hne : t ≠ t') (hi' : i' < tableEntries) :
    (m.fillTable t f tableEntries).entry t' i' = m.entry t' i' :=
  entry_congr fun x _ _ => fillTable_outside (by have := table_apart ht ht' hne; omega)

/-- A write to one entry of a page outside the set leaves the set alone. -/
theorem PageSet.same_setEntry (ht : t % pageSize = 0) (hi : i < tableEntries)
    (hnot : ¬ R.has t) : R.Same m (m.setEntry t i v) := by
  intro page x hp h1 h2
  have hpa := R.aligned page hp
  have hne : page ≠ t := fun heq => hnot (heq ▸ hp)
  simp only [pageSize, tableEntries] at *
  exact setEntry_outside (by omega)

theorem PageSet.same_copyTable (ht : t % pageSize = 0) (hnot : ¬ R.has t) :
    R.Same m (m.copyTable t src tableEntries) := by
  intro page x hp h1 h2
  have hpa := R.aligned page hp
  have hne : page ≠ t := fun heq => hnot (heq ▸ hp)
  simp only [pageSize, tableEntries] at *
  exact copyTable_outside (by omega)

theorem PageSet.same_fillTable {f : Nat → Nat} (ht : t % pageSize = 0) (hnot : ¬ R.has t) :
    R.Same m (m.fillTable t f tableEntries) := by
  intro page x hp h1 h2
  have hpa := R.aligned page hp
  have hne : page ≠ t := fun heq => hnot (heq ▸ hp)
  simp only [pageSize, tableEntries] at *
  exact fillTable_outside (by omega)

theorem PageSet.Same.refl (R : PageSet) (m : Memory) : R.Same m m := fun _ _ _ _ _ => rfl

theorem PageSet.Same.trans {m' m'' : Memory} (h1 : R.Same m m') (h2 : R.Same m' m'') :
    R.Same m m'' :=
  fun page x hp hx hx' => (h2 page x hp hx hx').trans (h1 page x hp hx hx')

/-- A smaller set is the same where a larger one is. -/
theorem PageSet.Same.mono {R0 : PageSet} {m' : Memory} (h : R.Same m m')
    (hsub : ∀ q, R0.has q → R.has q) : R0.Same m m' :=
  fun page x hp h1 h2 => h page x (hsub page hp) h1 h2

end Pages

/-! ## The three steps -/

section Steps

variable {R0 R S : PageSet} {m : Memory} {K D i q a : Nat} {A : List Nat}
variable {priv : Nat → Option Nat}

/-- Setting the user bit of an entry that has the flags of `PAGE_DEFAULT`, or has them all. -/
theorem or_pageUser (hq : q % pageSize = 0) :
    (q + pageDefault) ||| pageUser = q + (pageDefault + pageUser) ∧
      (q + (pageDefault + pageUser)) ||| pageUser = q + (pageDefault + pageUser) := by
  have h3 : q + pageDefault = q ||| pageDefault := (or_flags hq (by decide)).symm
  have h7 : q + (pageDefault + pageUser) = q ||| (pageDefault + pageUser) :=
    (or_flags hq (by decide)).symm
  constructor
  · rw [h3, h7, Nat.or_assoc]
    rfl
  · rw [h7, Nat.or_assoc]
    rfl

/-- A fresh copy of the kernel directory shares every table. -/
theorem Draft.clone (hk : KernelDir R0 m K) (hsub : ∀ q, R0.has q → R.has q) (hD : R.has D)
    (hnew : ¬ R0.has D) :
    Draft R0 R (m.copyTable D K tableEntries) K D [] (fun _ => none) ∧
      R0.Same m (m.copyTable D K tableEntries) := by
  have hDa := R.aligned D hD
  have hKa := R0.aligned K hk.dir
  have hne : D ≠ K := fun heq => hnew (heq ▸ hk.dir)
  have hsame : R0.Same m (m.copyTable D K tableEntries) := PageSet.same_copyTable hDa hnew
  refine ⟨⟨⟨hD, by simp, fun i hi _ => ⟨?_, by simp⟩, by simp, by simp, by simp, by simp⟩,
    hk.transfer (fun _ h => h) hsame, hsub, hnew, by simp⟩, hsame⟩
  rw [entry_copyTable hi (table_apart hDa hKa hne), hsame.entry hk.dir hi]

/-- The table of a window becomes private: a fresh page takes a copy of the kernel's table. -/
theorem Draft.share (hd : Draft R0 R m K D A priv) (hsub : ∀ q, R.has q → S.has q)
    (hi : i < tableEntries) (hp : priv i = none) (hwin : m.entry K i ≠ 0) (hq : S.has q)
    (hnew : ¬ R.has q) :
    Draft R0 S ((m.copyTable q (frameOf (m.entry K i)) tableEntries).setEntry D i
        (q ||| pageDefault)) K D A (Function.update priv i (some q)) ∧
      R0.Same m ((m.copyTable q (frameOf (m.entry K i)) tableEntries).setEntry D i
        (q ||| pageDefault)) := by
  have hqa := S.aligned q hq
  have hqw := S.word q hq
  have hDa := R.aligned D hd.task.dir
  have hkf := (hd.kernel.frame hi hwin).1
  have hfa := R0.aligned _ hkf
  have hqD : q ≠ D := fun heq => hnew (heq ▸ hd.task.dir)
  have hqf : q ≠ frameOf (m.entry K i) := fun heq => hnew (heq ▸ hd.sub _ hkf)
  have hq0 : ¬ R0.has q := fun h => hnew (hd.sub q h)
  have hKa := R0.aligned K hd.kernel.dir
  have hKD : K ≠ D := fun heq => hd.dirNew (heq ▸ hd.kernel.dir)
  rw [or_flags hqa (by decide)]
  have hv : q + pageDefault < 2 ^ 32 := by
    simp only [pageDefault, pageSize] at *
    omega
  set m1 := m.copyTable q (frameOf (m.entry K i)) tableEntries with hm1
  have hsame1 : R.Same m m1 := PageSet.same_copyTable hqa hnew
  have hsame : R0.Same m (m1.setEntry D i (q + pageDefault)) :=
    (hsame1.mono hd.sub).trans (PageSet.same_setEntry hDa hi hd.dirNew)
  have hDent : ∀ i', i' < tableEntries → (m1.setEntry D i (q + pageDefault)).entry D i' =
      if i' = i then q + pageDefault else m.entry D i' := by
    intro i' hi'
    split
    · next heq => rw [heq, entry_setEntry hv]
    · next hne => rw [entry_setEntry_index (Ne.symm hne), hsame1.entry hd.task.dir hi']
  have hKent : ∀ i', i' < tableEntries →
      (m1.setEntry D i (q + pageDefault)).entry K i' = m.entry K i' := fun i' hi' =>
    hsame.entry hd.kernel.dir hi'
  have hTent : ∀ t j, R.has t → t ≠ D → j < tableEntries →
      (m1.setEntry D i (q + pageDefault)).entry t j = m.entry t j := by
    intro t j ht htD hj
    rw [entry_setEntry_page hDa (R.aligned t ht) (Ne.symm htD) hi hj, hsame1.entry ht hj]
  have hpriv : ∀ i' q', i' < tableEntries → Function.update priv i (some q) i' = some q' →
      (i' = i ∧ q' = q) ∨ (i' ≠ i ∧ priv i' = some q') := by
    intro i' q' _ hp'
    rw [Function.update_apply] at hp'
    split at hp'
    · next heq => exact .inl ⟨heq, (Option.some.inj hp').symm⟩
    · next hne => exact .inr ⟨hne, hp'⟩
  have hnotA : ∀ a ∈ A, pdIndex a ≠ i := (hd.task.shared i hi hp).2
  have hptable : ∀ i' q', i' < tableEntries → priv i' = some q' → q' ≠ q := by
    rintro i' q' hi' hp' rfl
    exact hnew (hd.task.own i' q' hi' hp').1
  refine ⟨⟨⟨hsub _ hd.task.dir, hd.task.pages, ?_, ?_, ?_, ?_, ?_⟩,
    hd.kernel.transfer (fun _ h => h) hsame, fun q' h => hsub q' (hd.sub q' h), hd.dirNew, ?_⟩,
    hsame⟩
  · intro i' hi' hp'
    rw [Function.update_apply] at hp'
    split at hp'
    · cases hp'
    · next hne =>
        rw [hDent i' hi', hKent i' hi', if_neg hne]
        exact hd.task.shared i' hi' hp'
  · intro i' q' hi' hp'
    rw [hDent i' hi', hKent i' hi']
    rcases hpriv i' q' hi' hp' with ⟨rfl, rfl⟩ | ⟨hne, hp'⟩
    · exact ⟨hq, hwin, .inr ⟨if_pos rfl, hnotA⟩⟩
    · rw [if_neg hne]
      obtain ⟨h1, h2, h3⟩ := hd.task.own i' q' hi' hp'
      exact ⟨hsub q' h1, h2, h3⟩
  · intro i' q' j hi' hp' hj
    rw [hKent i' hi']
    rcases hpriv i' q' hi' hp' with ⟨rfl, rfl⟩ | ⟨hne, hp'⟩
    · have hout : pageAt i' j ∉ A := by
        intro hmem
        refine hnotA _ hmem ?_
        simp only [pageAt, pdIndex, ptCoverage, pageSize, tableEntries] at *
        omega
      rw [if_neg hout, entry_setEntry_page hDa hqa (Ne.symm hqD) hi' hj,
        entry_copyTable hj (table_apart hqa hfa hqf), hTent _ j (hd.sub _ hkf) ?_ hj]
      rintro heq
      exact hd.dirNew (heq ▸ hkf)
    · obtain ⟨h1, h2, _⟩ := hd.task.own i' q' hi' hp'
      have hkf' := (hd.kernel.frame hi' h2).1
      rw [hTent q' j h1 (hd.task.fresh i' q' hi' hp').1 hj, hTent _ j (hd.sub _ hkf') ?_ hj]
      · exact hd.task.entries i' q' j hi' hp' hj
      · rintro heq
        exact hd.dirNew (heq ▸ hkf')
  · intro i' q' hi' hp'
    rw [hKent i' hi']
    rcases hpriv i' q' hi' hp' with ⟨rfl, rfl⟩ | ⟨hne, hp'⟩
    · exact ⟨hqD, hqf⟩
    · exact hd.task.fresh i' q' hi' hp'
  · intro i1 i2 q' hi1 hi2 hp1 hp2
    rcases hpriv i1 q' hi1 hp1 with ⟨h1, heq⟩ | ⟨_, hold1⟩
    · rcases hpriv i2 q' hi2 hp2 with ⟨h2, _⟩ | ⟨_, hold2⟩
      · exact h1.trans h2.symm
      · exact absurd heq (hptable i2 q' hi2 hold2)
    · rcases hpriv i2 q' hi2 hp2 with ⟨_, heq⟩ | ⟨_, hold2⟩
      · exact absurd heq (hptable i1 q' hi1 hold1)
      · exact hd.task.inj i1 i2 q' hi1 hi2 hold1 hold2
  · intro i' q' hi' hp'
    rcases hpriv i' q' hi' hp' with ⟨_, rfl⟩ | ⟨_, hp'⟩
    · exact hq0
    · exact hd.ptNew i' q' hi' hp'

/-- A page in a private window is opened to user mode. -/
theorem Draft.grant (hd : Draft R0 R m K D A priv) (ha : a % pageSize = 0) (ha32 : a < 2 ^ 32)
    (hp : priv (pdIndex a) = some q) :
    ∃ m', m' = ((m.setEntry q (ptIndex a) (a ||| pageDefault ||| pageUser)).setEntry D (pdIndex a)
        ((m.setEntry q (ptIndex a) (a ||| pageDefault ||| pageUser)).entry D (pdIndex a) |||
          pageUser)) ∧
      Draft R0 R m' K D (A ++ [a]) priv ∧ R0.Same m m' := by
  have hi := pdIndex_lt ha32
  have hj := ptIndex_lt a
  obtain ⟨hq, hwin, hent⟩ := hd.task.own _ q hi hp
  have hqa := R.aligned q hq
  have hqw := R.word q hq
  have hDa := R.aligned D hd.task.dir
  have hqD := (hd.task.fresh _ q hi hp).1
  have hq0 := hd.ptNew _ q hi hp
  have hflags : a ||| pageDefault ||| pageUser = a + (pageDefault + pageUser) := by
    rw [or_flags ha (by decide)]
    exact (or_pageUser ha).1
  rw [hflags]
  have hva : a + (pageDefault + pageUser) < 2 ^ 32 := by
    simp only [pageDefault, pageUser, pageSize] at *
    omega
  have hvq : q + (pageDefault + pageUser) < 2 ^ 32 := by
    simp only [pageDefault, pageUser, pageSize] at *
    omega
  set m1 := m.setEntry q (ptIndex a) (a + (pageDefault + pageUser)) with hm1
  have hpde : m1.entry D (pdIndex a) ||| pageUser = q + (pageDefault + pageUser) := by
    rw [hm1, entry_setEntry_page hqa hDa hqD hj hi]
    rcases hent with hent | ⟨hent, _⟩
    · rw [hent]
      exact (or_pageUser hqa).2
    · rw [hent]
      exact (or_pageUser hqa).1
  refine ⟨_, rfl, ?_⟩
  rw [hpde]
  set m2 := m1.setEntry D (pdIndex a) (q + (pageDefault + pageUser)) with hm2
  have hsame : R0.Same m m2 :=
    (PageSet.same_setEntry hqa hj hq0).trans (PageSet.same_setEntry hDa hi hd.dirNew)
  have hKent : ∀ i', i' < tableEntries → m2.entry K i' = m.entry K i' := fun i' hi' =>
    hsame.entry hd.kernel.dir hi'
  have hDent : ∀ i', i' < tableEntries → m2.entry D i' =
      if i' = pdIndex a then q + (pageDefault + pageUser) else m.entry D i' := by
    intro i' hi'
    rw [hm2]
    split
    · next heq => rw [heq, entry_setEntry hvq]
    · next hne =>
        rw [entry_setEntry_index (Ne.symm hne), hm1, entry_setEntry_page hqa hDa hqD hj hi']
  have hTent : ∀ t j, t % pageSize = 0 → t ≠ D → t ≠ q → j < tableEntries →
      m2.entry t j = m.entry t j := by
    intro t j hta htD htq hj'
    rw [hm2, entry_setEntry_page hDa hta (Ne.symm htD) hi hj', hm1,
      entry_setEntry_page hqa hta (Ne.symm htq) hj hj']
  have hqent : ∀ j, j < tableEntries → m2.entry q j =
      if j = ptIndex a then a + (pageDefault + pageUser) else m.entry q j := by
    intro j hj'
    rw [hm2, entry_setEntry_page hDa hqa (Ne.symm hqD) hi hj', hm1]
    split
    · next heq => rw [heq, entry_setEntry hva]
    · next hne => rw [entry_setEntry_index (Ne.symm hne)]
  -- the kernel's own tables are none of the task's
  have hktable : ∀ i' j, i' < tableEntries → m.entry K i' ≠ 0 → j < tableEntries →
      m2.entry (frameOf (m.entry K i')) j = m.entry (frameOf (m.entry K i')) j := by
    intro i' j hi' hne hj'
    have hkf := (hd.kernel.frame hi' hne).1
    exact hTent _ j (R0.aligned _ hkf) (fun heq => hd.dirNew (heq ▸ hkf))
      (fun heq => hq0 (heq ▸ hkf)) hj'
  refine ⟨⟨⟨hd.task.dir, ?_, ?_, ?_, ?_, ?_, hd.task.inj⟩,
    hd.kernel.transfer (fun _ h => h) hsame, hd.sub, hd.dirNew, hd.ptNew⟩, hsame⟩
  · intro b hb
    rcases List.mem_append.mp hb with hb | hb
    · exact hd.task.pages b hb
    · obtain rfl := List.mem_singleton.mp hb
      exact ⟨ha, ha32⟩
  · intro i' hi' hp'
    have hne : i' ≠ pdIndex a := by
      rintro rfl
      rw [hp] at hp'
      cases hp'
    rw [hDent i' hi', hKent i' hi', if_neg hne]
    obtain ⟨h1, h2⟩ := hd.task.shared i' hi' hp'
    refine ⟨h1, fun b hb => ?_⟩
    rcases List.mem_append.mp hb with hb | hb
    · exact h2 b hb
    · obtain rfl := List.mem_singleton.mp hb
      exact Ne.symm hne
  · intro i' q' hi' hp'
    rw [hDent i' hi', hKent i' hi']
    obtain ⟨h1, h2, h3⟩ := hd.task.own i' q' hi' hp'
    refine ⟨h1, h2, ?_⟩
    by_cases heq : i' = pdIndex a
    · subst heq
      obtain rfl := Option.some.inj (hp.symm.trans hp')
      exact .inl (if_pos rfl)
    · rw [if_neg heq]
      refine h3.imp id ?_
      rintro ⟨h4, h5⟩
      refine ⟨h4, fun b hb => ?_⟩
      rcases List.mem_append.mp hb with hb | hb
      · exact h5 b hb
      · obtain rfl := List.mem_singleton.mp hb
        exact Ne.symm heq
  · intro i' q' j hi' hp' hj'
    obtain ⟨h1, h2, _⟩ := hd.task.own i' q' hi' hp'
    have hold := hd.task.entries i' q' j hi' hp' hj'
    rw [hKent i' hi', hktable i' j hi' h2 hj']
    have hiff : pageAt i' j ∈ A ++ [a] ↔ pageAt i' j ∈ A ∨ (i' = pdIndex a ∧ j = ptIndex a) := by
      rw [List.mem_append, List.mem_singleton, pageAt_eq ha hj']
    by_cases heq : i' = pdIndex a
    · subst heq
      obtain rfl := Option.some.inj (hp.symm.trans hp')
      rw [hqent j hj']
      by_cases hja : j = ptIndex a
      · subst hja
        rw [if_pos rfl, if_pos (hiff.mpr (.inr ⟨rfl, rfl⟩)),
          (pageAt_eq ha hj).mpr ⟨rfl, rfl⟩]
      · rw [if_neg hja, hold]
        simp only [hiff, hja, and_false, or_false]
    · have hqq : q' ≠ q := by
        rintro rfl
        exact heq (hd.task.inj i' (pdIndex a) q' hi' hi hp' hp)
      rw [hTent q' j (R.aligned q' h1) (hd.task.fresh i' q' hi' hp').1 hqq hj', hold]
      simp only [hiff, heq, false_and, or_false]
  · intro i' q' hi' hp'
    rw [hKent i' hi']
    exact hd.task.fresh i' q' hi' hp'

end Steps

/-! ## The functions of the source -/

/-- A page was free, and its owner took it. -/
structure Pmm.Takes (u u' : Pmm) (q : Nat) : Prop where
  wf : u'.Wf
  used : ∀ i, u.used i = true → u'.used i = true
  totalPages : u'.totalPages = u.totalPages
  page : u'.KernelPage q
  free : u.used (pageIndex q) = false

theorem Pmm.Takes.not_taken {u u' : Pmm} {q : Nat} (h : u.Takes u' q) : ¬ u.taken.has q := by
  intro htaken
  have := htaken.taken
  rw [h.free] at this
  cases this

/-- A page that was free is not one of a list of taken pages. -/
theorem Pmm.Takes.not_mem {u u' : Pmm} {q : Nat} (h : u.Takes u' q) {pages : List Nat}
    (hpages : ∀ page ∈ pages, u.KernelPage page) : q ∉ pages :=
  fun hmem => h.not_taken (hpages q hmem)

/-- A successful `pmm_alloc_page`. -/
theorem Pmm.Wf.takes {u u' : Pmm} {q : Nat} (h : u.Wf) (halloc : u.pmmAllocPage = (q, u'))
    (hne : q ≠ 0) : u.Takes u' q := by
  have hcall : u.call .page = (q, u') := halloc
  have hgrant := h.kernel_pages (c := .page) rfl (by rw [hcall]; exact hne) (i := 0) Nat.one_pos
  have hwf := h.call .page
  have htotal := u.totalPages_call .page
  have hused : ∀ i, u.used i = true → (u.call .page).2.used i = true := fun i => used_call .page
  simp only [hcall, Nat.zero_mul, Nat.add_zero] at hgrant hwf htotal hused
  exact ⟨hwf, hused, htotal, hgrant.1, hgrant.2⟩

/-- What the construction of a directory leaves alone: the pages of `R0`, and what was taken. -/
structure Paging.Keeps (R0 : PageSet) (p p' : Paging) : Prop where
  same : R0.Same p.mem p'.mem
  used : ∀ i, p.pmm.used i = true → p'.pmm.used i = true
  totalPages : p'.pmm.totalPages = p.pmm.totalPages
  pdPhys : p'.pdPhys = p.pdPhys
  topOfMemory : p'.topOfMemory = p.topOfMemory

/-- The invariant of a directory under construction, with the allocator its tables come from. -/
structure Drafting (R0 : PageSet) (p : Paging) (D : Nat) (A : List Nat) : Prop where
  wf : p.pmm.Wf
  draft : ∃ priv, Draft R0 p.pmm.taken p.mem p.pdPhys D A priv

namespace Paging

variable {R0 : PageSet} {p p' : Paging} {D a : Nat} {A : List Nat}

theorem Keeps.refl (R0 : PageSet) (p : Paging) : Keeps R0 p p :=
  ⟨.refl _ _, fun _ h => h, rfl, rfl, rfl⟩

theorem Keeps.trans {p'' : Paging} (h1 : Keeps R0 p p') (h2 : Keeps R0 p' p'') :
    Keeps R0 p p'' :=
  ⟨h1.same.trans h2.same, fun i hi => h2.used i (h1.used i hi),
    h2.totalPages.trans h1.totalPages, h2.pdPhys.trans h1.pdPhys,
    h2.topOfMemory.trans h1.topOfMemory⟩

/-- `paging_clone_kernel_pd` starts a draft without user pages. -/
theorem clone_drafting (hwf : p.pmm.Wf) (hR0 : ∀ q, R0.has q → p.pmm.taken.has q)
    (hk : KernelDir R0 p.mem p.pdPhys) (hne : p.pagingCloneKernelPd.1 ≠ 0) :
    Drafting R0 p.pagingCloneKernelPd.2 p.pagingCloneKernelPd.1 [] ∧
      Keeps R0 p p.pagingCloneKernelPd.2 := by
  unfold pagingCloneKernelPd at *
  cases halloc : p.pmm.pmmAllocPage with
  | mk newPd pmm =>
      simp only [halloc] at hne ⊢
      by_cases h0 : newPd = 0
      · simp [h0] at hne
      · simp only [if_neg h0]
        have htakes := hwf.takes halloc h0
        obtain ⟨hdraft, hsame⟩ := Draft.clone (R := pmm.taken) hk
          (fun q hq => (hR0 q hq).mono htakes.used) htakes.page (fun h => htakes.not_taken (hR0 _ h))
        exact ⟨⟨htakes.wf, _, hdraft⟩, hsame, htakes.used, htakes.totalPages, rfl, rfl⟩

/-- After the first half of `paging_set_user_accessible_for_task` the window is private. -/
theorem privatePt_drafting {i : Nat} (hwf : p.pmm.Wf) {priv : Nat → Option Nat}
    (hd : Draft R0 p.pmm.taken p.mem p.pdPhys D A priv) (hi : i < tableEntries)
    (hwin : p.mem.entry p.pdPhys i ≠ 0) (hrun : p.privatePt D i = some p') :
    p'.pmm.Wf ∧ (∃ priv' q, Draft R0 p'.pmm.taken p'.mem p'.pdPhys D A priv' ∧ priv' i = some q) ∧
      Keeps R0 p p' := by
  cases hp : priv i with
  | none =>
      rcases privatePt_cases hrun with ⟨_, newPt, pmm, halloc, h0, rfl⟩ | ⟨hne, _⟩
      · have htakes := hwf.takes halloc h0
        obtain ⟨hdraft, hsame⟩ := hd.share (S := pmm.taken) (fun q hq => hq.mono htakes.used)
          hi hp hwin htakes.page htakes.not_taken
        exact ⟨htakes.wf, ⟨_, newPt, hdraft, by rw [Function.update_self]⟩, hsame, htakes.used,
          htakes.totalPages, rfl, rfl⟩
      · exact absurd (congrArg frameOf (hd.task.shared i hi hp).1) hne
  | some q =>
      -- a private table is not the kernel's, so nothing is copied
      obtain ⟨hq, _, hent⟩ := hd.task.own i q hi hp
      have hframe : frameOf (p.mem.entry D i) = q := by
        rcases hent with hent | ⟨hent, _⟩
        · rw [hent, frameOf_add hq.aligned (by decide)]
        · rw [hent, frameOf_add hq.aligned (by decide)]
      rcases privatePt_cases hrun with ⟨heq, _⟩ | ⟨_, rfl⟩
      · exact absurd (hframe.symm.trans heq) (hd.task.fresh i q hi hp).2
      · exact ⟨hwf, ⟨priv, q, hd, hp⟩, .refl R0 p'⟩

/-- `paging_set_user_accessible_for_task` adds one user page. -/
theorem mark_drafting (hd : Drafting R0 p D A) (ha : a % pageSize = 0) (ha32 : a < 2 ^ 32)
    (hwin : p.mem.entry p.pdPhys (pdIndex a) ≠ 0)
    (hrun : p.pagingSetUserAccessibleForTask D a = some p') :
    Drafting R0 p' D (A ++ [a]) ∧ Keeps R0 p p' := by
  obtain ⟨hwf, priv, hdraft⟩ := hd
  obtain ⟨p1, hshare, rfl⟩ := Option.map_eq_some_iff.mp hrun
  obtain ⟨hwf1, ⟨priv1, q, hdraft1, hq⟩, hkeeps⟩ :=
    privatePt_drafting hwf hdraft (pdIndex_lt ha32) hwin hshare
  obtain ⟨hqr, _, hent⟩ := hdraft1.task.own _ q (pdIndex_lt ha32) hq
  have hframe : frameOf (p1.mem.entry D (pdIndex a)) = q := by
    rcases hent with hent | ⟨hent, _⟩
    · rw [hent, frameOf_add hqr.aligned (by decide)]
    · rw [hent, frameOf_add hqr.aligned (by decide)]
  obtain ⟨m', rfl, hdraft2, hsame⟩ := hdraft1.grant ha ha32 hq
  simp only [hframe]
  exact ⟨⟨hwf1, priv1, hdraft2⟩, hkeeps.trans ⟨hsame, fun _ h => h, rfl, rfl, rfl⟩⟩

end Paging

end Kumo
