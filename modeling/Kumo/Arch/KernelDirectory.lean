import Kumo.Arch.TaskDirectory

/-!
# The kernel directory

What `paging_init`, `paging_unmap_null_page` and `paging_map_phys_range` make of the
kernel directory. Both edits they perform are described by their effect on `view`: a
new page table decides one window of 4 MB, and a new entry decides one page.
-/

namespace Kumo

open Memory

section Edits

variable {R S : PageSet} {m : Memory} {K i j q : Nat}

/-- The walk through a kernel directory, window by window. -/
theorem KernelDir.view_window (hk : KernelDir R m K) {v : Nat} (hv : v < 2 ^ 32) :
    view m K v = if m.entry K (pdIndex v) ≠ 0 ∧
        present (m.entry (frameOf (m.entry K (pdIndex v))) (ptIndex v)) = true
      then some (frameOf v, false) else none := by
  have hi := pdIndex_lt hv
  by_cases hne : m.entry K (pdIndex v) = 0
  · have h0 : pdeOf m K v = 0 := hne
    simp [view, h0, hne, present_zero]
  · rcases hk.view_cases hv with hnone | hsome
    · rw [hnone]
      refine (if_neg fun hpres => ?_).symm
      have hpde : present (pdeOf m K v) = true := by
        have heq := (hk.frame hi hne).2
        change pdeOf m K v = frameOf (pdeOf m K v) + pageDefault at heq
        rw [heq]
        exact present_default (R.aligned _ (hk.frame hi hne).1)
      have hpte : present (pteOf m K v) = true := hpres.2
      simp [view, hpde, hpte] at hnone
    · rw [hsome]
      refine (if_pos ⟨hne, ?_⟩).symm
      by_contra hpte
      have hpte : present (pteOf m K v) = false := by
        simpa [pteOf, pdeOf] using hpte
      simp [view, hpte] at hsome

/-- A window without a table gets the fresh page `q` with entries `f`. -/
theorem KernelDir.newTable {w : Memory} (hk : KernelDir R m K) (hi : i < tableEntries)
    (h0 : m.entry K i = 0) (hsub : ∀ t, R.has t → S.has t) (hq : S.has q) (hnew : ¬ R.has q)
    {f : Nat → Nat}
    (hf : ∀ j, j < tableEntries → present (f j) = true → f j = pageAt i j + pageDefault)
    (hK : ∀ i', i' < tableEntries →
      w.entry K i' = if i' = i then q + pageDefault else m.entry K i')
    (hQ : ∀ j, j < tableEntries → w.entry q j = f j)
    (hT : ∀ t j, R.has t → t ≠ K → j < tableEntries → w.entry t j = m.entry t j) :
    KernelDir S w K ∧ ∀ v, v < 2 ^ 32 → view w K v =
      if pdIndex v = i then (if present (f (ptIndex v)) = true then some (frameOf v, false) else none)
      else view m K v := by
  have hqa := S.aligned q hq
  have hqi : w.entry K i = q + pageDefault := by
    rw [hK i hi, if_pos rfl]
  have hframe : frameOf (w.entry K i) = q := by
    rw [hqi]
    exact frameOf_add hqa (by decide)
  have hqK : q ≠ K := fun heq => hnew (heq ▸ hk.dir)
  have hold : ∀ i', i' < tableEntries → i' ≠ i → w.entry K i' = m.entry K i' := by
    intro i' hi' hne
    rw [hK i' hi', if_neg hne]
  have hk' : KernelDir S w K := by
    refine ⟨hsub _ hk.dir, fun i' hi' => ?_, fun i' j' hi' hj' hne hpres => ?_,
      fun i' hi' hne => ?_, fun i1 i2 h1 h2 hne1 hne2 heq => ?_⟩
    · by_cases hii : i' = i
      · rw [hii]
        exact .inr ⟨q, hq, hqi⟩
      · rw [hold i' hi' hii]
        rcases hk.table i' hi' with hz | ⟨t, ht, heq⟩
        · exact .inl hz
        · exact .inr ⟨t, hsub t ht, heq⟩
    · by_cases hii : i' = i
      · subst hii
        rw [hframe, hQ j' hj'] at hpres ⊢
        exact hf j' hj' hpres
      · rw [hold i' hi' hii] at hne hpres ⊢
        have ht := (hk.frame hi' hne).1
        rw [hT _ j' ht (hk.apart i' hi' hne) hj'] at hpres ⊢
        exact hk.identity i' j' hi' hj' hne hpres
    · by_cases hii : i' = i
      · rw [hii, hframe]
        exact hqK
      · rw [hold i' hi' hii] at hne ⊢
        exact hk.apart i' hi' hne
    · by_cases h1i : i1 = i <;> by_cases h2i : i2 = i
      · rw [h1i, h2i]
      · rw [hold i2 h2 h2i] at hne2 heq
        rw [h1i, hframe] at heq
        exact absurd (heq ▸ (hk.frame h2 hne2).1) hnew
      · rw [hold i1 h1 h1i] at hne1 heq
        rw [h2i, hframe] at heq
        exact absurd (heq ▸ (hk.frame h1 hne1).1) hnew
      · rw [hold i1 h1 h1i] at hne1 heq
        rw [hold i2 h2 h2i] at hne2 heq
        exact hk.inj i1 i2 h1 h2 hne1 hne2 heq
  refine ⟨hk', fun v hv => ?_⟩
  have hvi := pdIndex_lt hv
  have hvj := ptIndex_lt v
  rw [hk'.view_window hv, hk.view_window hv]
  by_cases hii : pdIndex v = i
  · have hne : w.entry K i ≠ 0 := by
      rw [hqi]
      simp only [pageDefault]
      omega
    rw [if_pos hii, hii, hframe, hQ _ hvj]
    simp only [hne, ne_eq, not_false_eq_true, true_and]
  · rw [if_neg hii, hold _ hvi hii]
    by_cases hne : m.entry K (pdIndex v) = 0
    · simp [hne]
    · rw [hT _ _ (hk.frame hvi hne).1 (hk.apart _ hvi hne) hvj]

/-- One entry of a page table is replaced. -/
theorem KernelDir.setPte {w : Nat} (hk : KernelDir R m K) (hi : i < tableEntries) (hj : j < tableEntries)
    (hne : m.entry K i ≠ 0) (hw : w < 2 ^ 32)
    (hid : present w = true → w = pageAt i j + pageDefault) :
    KernelDir R (m.setEntry (frameOf (m.entry K i)) j w) K ∧
      ∀ v, v < 2 ^ 32 → view (m.setEntry (frameOf (m.entry K i)) j w) K v =
        if frameOf v = pageAt i j then (if present w = true then some (frameOf v, false) else none)
        else view m K v := by
  have ht := (hk.frame hi hne).1
  have hta := R.aligned _ ht
  have hKa := R.aligned K hk.dir
  set t := frameOf (m.entry K i) with htdef
  have hK : ∀ i', i' < tableEntries → (m.setEntry t j w).entry K i' = m.entry K i' := fun i' hi' =>
    entry_setEntry_page hta hKa (hk.apart i hi hne) hj hi'
  have hT : ∀ i' j', i' < tableEntries → j' < tableEntries → m.entry K i' ≠ 0 →
      (m.setEntry t j w).entry (frameOf (m.entry K i')) j' =
        if i' = i ∧ j' = j then w else m.entry (frameOf (m.entry K i')) j' := by
    intro i' j' hi' hj' hne'
    by_cases hii : i' = i
    · rw [hii, ← htdef]
      by_cases hjj : j' = j
      · rw [hjj, entry_setEntry hw]
        simp
      · rw [entry_setEntry_index (Ne.symm hjj), if_neg (fun h => hjj h.2)]
    · have htt : t ≠ frameOf (m.entry K i') := fun heq => hii (hk.inj i' i hi' hi hne' hne heq.symm)
      rw [entry_setEntry_page hta (R.aligned _ (hk.frame hi' hne').1) htt hj hj',
        if_neg (fun h => hii h.1)]
  have hk' : KernelDir R (m.setEntry t j w) K := by
    refine ⟨hk.dir, fun i' hi' => ?_, fun i' j' hi' hj' => ?_, fun i' hi' => ?_,
      fun i1 i2 h1 h2 => ?_⟩
    · rw [hK i' hi']
      exact hk.table i' hi'
    · rw [hK i' hi']
      intro hne'
      rw [hT i' j' hi' hj' hne']
      split
      · next heq =>
          rw [heq.1, heq.2]
          exact hid
      · exact hk.identity i' j' hi' hj' hne'
    · rw [hK i' hi']
      exact hk.apart i' hi'
    · rw [hK i1 h1, hK i2 h2]
      exact hk.inj i1 i2 h1 h2
  refine ⟨hk', fun v hv => ?_⟩
  have hvi := pdIndex_lt hv
  have hvj := ptIndex_lt v
  have hiff : frameOf v = pageAt i j ↔ pdIndex v = i ∧ ptIndex v = j := by
    simp only [frameOf, pageAt, pdIndex, ptIndex, ptCoverage, pageSize, tableEntries] at *
    omega
  rw [hk'.view_window hv, hk.view_window hv, hK _ hvi]
  by_cases hvne : m.entry K (pdIndex v) = 0
  · have hnot : ¬ frameOf v = pageAt i j := by
      rw [hiff]
      rintro ⟨rfl, _⟩
      exact hne hvne
    simp [hvne, hnot]
  · rw [hT _ _ hvi hvj hvne]
    by_cases hpage : frameOf v = pageAt i j
    · rw [if_pos hpage, if_pos (hiff.mp hpage)]
      simp [hvne]
    · rw [if_neg hpage, if_neg (fun h => hpage (hiff.mpr h))]

end Edits

namespace Paging

variable {p p' : Paging}

/-! ## `paging_init` -/

/-- The identity map of the first `n` windows, below `top`. -/
structure Filled (p : Paging) (n : Nat) : Prop where
  wf : p.pmm.Wf
  kernel : KernelDir p.pmm.taken p.mem p.pdPhys
  above : ∀ i, n ≤ i → i < tableEntries → p.mem.entry p.pdPhys i = 0
  views : ∀ v, v < 2 ^ 32 → view p.mem p.pdPhys v =
    if frameOf v < p.topOfMemory ∧ pdIndex v < n then some (frameOf v, false) else none

/-- One page table of the loop in `paging_init`. -/
theorem Filled.step {n q : Nat} {u : Pmm} (hf : Filled p n) (hn : n < tableEntries)
    (halloc : p.pmm.pmmAllocPage = (q, u)) (hq : q ≠ 0) :
    Filled { p with
      mem := (p.mem.setEntry p.pdPhys n (q ||| pageDefault)).fillTable q
        (identityEntry p.topOfMemory n) tableEntries
      pmm := u } (n + 1) := by
  have htakes := hf.wf.takes halloc hq
  have hqa := htakes.page.aligned
  have hqw := u.taken.word q htakes.page
  have hKa := p.pmm.taken.aligned _ hf.kernel.dir
  have hnot := htakes.not_taken
  have hqK : q ≠ p.pdPhys := fun heq => hnot (heq ▸ hf.kernel.dir)
  have hentry : ∀ j, j < tableEntries → identityEntry p.topOfMemory n j =
      if pageAt n j < p.topOfMemory then pageAt n j + pageDefault else 0 := by
    intro j hj
    have hphys : (n * ptCoverage + j * pageSize) % 2 ^ 32 = pageAt n j := by
      simp only [pageAt, ptCoverage, pageSize, tableEntries] at *
      omega
    simp only [identityEntry, hphys]
    rw [or_flags (pageAt_aligned n j) (by decide)]
  have hbound : ∀ j, j < tableEntries → identityEntry p.topOfMemory n j < 2 ^ 32 := by
    intro j hj
    rw [hentry j hj]
    have hpage : pageAt n j + pageDefault < 2 ^ 32 := by
      simp only [pageAt, ptCoverage, pageSize, tableEntries, pageDefault] at *
      omega
    split
    · exact hpage
    · decide
  rw [or_flags hqa (by decide)]
  have hv : q + pageDefault < 2 ^ 32 := by
    simp only [pageDefault, pageSize] at *
    omega
  have hpres : ∀ j, j < tableEntries →
      (present (identityEntry p.topOfMemory n j) = true ↔ pageAt n j < p.topOfMemory) := by
    intro j hj
    rw [hentry j hj]
    split
    · next hlt => simp [hlt, present_default (pageAt_aligned n j)]
    · next hge => simp [hge, present_zero]
  obtain ⟨hk, hview⟩ := hf.kernel.newTable (S := u.taken) (q := q)
    (w := (p.mem.setEntry p.pdPhys n (q + pageDefault)).fillTable q
        (identityEntry p.topOfMemory n) tableEntries)
    (f := identityEntry p.topOfMemory n) hn
    (hf.above n (Nat.le_refl _) hn) (fun t ht => ht.mono htakes.used) htakes.page hnot
    (fun j hj hp => by rw [hentry j hj, if_pos ((hpres j hj).mp hp)])
    (fun i' hi' => by
      rw [entry_fillTable_page hqa hKa hqK hi']
      split
      · next heq => rw [heq, entry_setEntry hv]
      · next hne => rw [entry_setEntry_index (Ne.symm hne)])
    (fun j hj => entry_fillTable hj (hbound j hj))
    (fun t j ht htK hj => by
      have htq : q ≠ t := fun heq => hnot (heq ▸ ht)
      rw [entry_fillTable_page hqa (p.pmm.taken.aligned t ht) htq hj,
        entry_setEntry_page hKa (p.pmm.taken.aligned t ht) (Ne.symm htK) hn hj])
  refine ⟨htakes.wf, hk, fun i hi hi' => ?_, fun v hvv => ?_⟩
  · show ((p.mem.setEntry p.pdPhys n (q + pageDefault)).fillTable q _ tableEntries).entry
      p.pdPhys i = 0
    rw [entry_fillTable_page hqa hKa hqK hi', entry_setEntry_index (by omega)]
    exact hf.above i (by omega) hi'
  · rw [hview v hvv]
    by_cases hii : pdIndex v = n
    · have hpage : pageAt n (ptIndex v) = frameOf v := by
        rw [← hii]
        exact pageAt_index v
      rw [if_pos hii]
      simp only [hpres _ (ptIndex_lt v), hpage, hii, Nat.lt_succ_self, and_true]
    · rw [if_neg hii, hf.views v hvv]
      have hiff : pdIndex v < n ↔ pdIndex v < n + 1 := by omega
      simp only [hiff]

theorem Filled.initTables {steps n : Nat} (hf : Filled p n) (hn : n + steps ≤ tableEntries)
    (hrun : p.initTables steps n = some p') :
    Filled p' (n + steps) ∧ p'.topOfMemory = p.topOfMemory ∧
      p'.pmm.totalPages = p.pmm.totalPages := by
  induction steps generalizing p n with
  | zero =>
      obtain rfl := Option.some.inj hrun
      exact ⟨hf, rfl, rfl⟩
  | succ steps ih =>
      rw [Paging.initTables] at hrun
      cases halloc : p.pmm.pmmAllocPage with
      | mk q u =>
          simp only [halloc] at hrun
          by_cases hq : q = 0
          · simp [hq] at hrun
          · rw [if_neg hq] at hrun
            have hstep := hf.step (by omega) halloc hq
            obtain ⟨h1, h2, h3⟩ := ih hstep (by omega) hrun
            rw [show n + 1 + steps = n + (steps + 1) by omega] at h1
            exact ⟨h1, h2, h3.trans (hf.wf.takes halloc hq).totalPages⟩

/-- What `paging_init` leaves: the identity map of `[0, top_of_memory)`, closed to user mode. -/
structure Mapped (p : Paging) : Prop where
  wf : p.pmm.Wf
  kernel : KernelDir p.pmm.taken p.mem p.pdPhys
  text : kernelText < p.topOfMemory
  top : p.topOfMemory < 2 ^ 32
  views : ∀ v, v < 2 ^ 32 → view p.mem p.pdPhys v =
    if frameOf v < p.topOfMemory then some (frameOf v, false) else none

/-- The cleared directory maps nothing. -/
theorem filled_zero {pd : Nat} {u : Pmm} (hwf : p.pmm.Wf)
    (halloc : p.pmm.pmmAllocPage = (pd, u)) (hpd : pd ≠ 0) {m : Memory}
    (hm : m = p.mem.fillTable pd (fun _ => 0) tableEntries) :
    Filled { p with mem := m, pmm := u, pdPhys := pd } 0 := by
  have htakes := hwf.takes halloc hpd
  have hzero : ∀ i, i < tableEntries → m.entry pd i = 0 := by
    intro i hi
    rw [hm]
    exact entry_fillTable (f := fun _ => 0) hi (Nat.two_pow_pos 32)
  have hk0 : KernelDir u.taken m pd :=
    ⟨htakes.page, fun i hi => .inl (hzero i hi), fun i _ hi _ hne => absurd (hzero i hi) hne,
      fun i hi hne => absurd (hzero i hi) hne, fun i _ hi _ hne => absurd (hzero i hi) hne⟩
  refine ⟨htakes.wf, hk0, fun i _ hi => hzero i hi, fun v hv => ?_⟩
  refine (hk0.view_window hv).trans ?_
  simp [hzero _ (pdIndex_lt hv)]

theorem pagingInit_mapped (hwf : p.pmm.Wf) (htop : p.topOfMemory < 2 ^ 32)
    (hrun : p.pagingInit = some p') :
    Mapped p' ∧ p'.topOfMemory = p.topOfMemory ∧ p'.pmm.totalPages = p.pmm.totalPages := by
  obtain ⟨pd, u, halloc⟩ : ∃ pd u, p.pmm.pmmAllocPage = (pd, u) := ⟨_, _, rfl⟩
  rw [pagingInit, halloc] at hrun
  dsimp only at hrun
  by_cases hpd : pd = 0
  · simp [hpd] at hrun
  · rw [if_neg hpd] at hrun
    generalize hm : p.mem.fillTable pd (fun _ => 0) tableEntries = m at hrun
    have hfill0 := filled_zero hwf halloc hpd hm.symm
    generalize hnum : (p.topOfMemory + (ptCoverage - 1)) % 2 ^ 32 / ptCoverage = numPt at hrun
    have hle : 0 + numPt ≤ tableEntries := by
      simp only [← hnum, ptCoverage, tableEntries]
      omega
    cases hinit : Paging.initTables { p with mem := m, pmm := u, pdPhys := pd } numPt 0 with
    | none => rw [hinit] at hrun; cases hrun
    | some p1 =>
        rw [hinit] at hrun
        obtain ⟨hfill, htopeq, htotal1⟩ := hfill0.initTables hle hinit
        simp only at hrun htopeq htotal1
        split at hrun
        case isFalse => cases hrun
        case isTrue htext =>
          obtain rfl := Option.some.inj hrun
          -- the code after `CR0.PG` is mapped, so the number of tables did not wrap
          have hcode : kernelText < p.topOfMemory ∧ pdIndex kernelText < 0 + numPt := by
            rw [translate_eq_view, Option.isSome_map, hfill.views _ (by decide), htopeq] at htext
            have hframe : frameOf kernelText = kernelText := by decide
            rw [hframe] at htext
            by_contra hno
            rw [if_neg hno] at htext
            cases htext
          refine ⟨⟨hfill.wf, hfill.kernel, by rw [htopeq]; exact hcode.1,
            by rw [htopeq]; exact htop, fun v hv => ?_⟩, htopeq,
            htotal1.trans (hwf.takes halloc hpd).totalPages⟩
          rw [hfill.views v hv, htopeq]
          have hiff : (frameOf v < p.topOfMemory ∧ pdIndex v < 0 + numPt) ↔
              frameOf v < p.topOfMemory := by
            simp only [← hnum, frameOf, pdIndex, kernelText, ptCoverage, pageSize] at *
            omega
          simp only [hiff]

/-! ## The other edits of the kernel directory -/

/-- `paging_unmap_null_page` unmaps page 0 and nothing else. -/
theorem unmap_view {R : PageSet} (hk : KernelDir R p.mem p.pdPhys) :
    KernelDir R p.pagingUnmapNullPage.mem p.pdPhys ∧
      ∀ v, v < 2 ^ 32 → view p.pagingUnmapNullPage.mem p.pdPhys v =
        if frameOf v = 0 then none else view p.mem p.pdPhys v := by
  have h0 : (0 : Nat) < tableEntries := by decide
  unfold pagingUnmapNullPage
  by_cases hpres : present (p.mem.entry p.pdPhys 0) = true
  · have hne : p.mem.entry p.pdPhys 0 ≠ 0 := by
      intro heq
      rw [heq, present_zero] at hpres
      cases hpres
    have hlt := entry_lt p.mem (frameOf (p.mem.entry p.pdPhys 0)) 0
    have hclear : present (p.mem.entry (frameOf (p.mem.entry p.pdPhys 0)) 0 / 2 * 2) = false := by
      rw [← Bool.not_eq_true, present_iff]
      omega
    obtain ⟨hk', hview⟩ := hk.setPte (w := p.mem.entry (frameOf (p.mem.entry p.pdPhys 0)) 0 / 2 * 2)
      h0 h0 hne (by omega) (fun hp => by rw [hclear] at hp; cases hp)
    simp only [hpres, Bool.not_true, Bool.false_eq_true, if_false]
    refine ⟨hk', fun v hv => ?_⟩
    rw [hview v hv, hclear]
    simp [pageAt]
  · have hnot : present (p.mem.entry p.pdPhys 0) = false := by simpa using hpres
    simp only [hnot, Bool.not_false, if_true]
    refine ⟨hk, fun v hv => ?_⟩
    split
    · next hv0 =>
        have hidx : pdIndex v = 0 := by
          simp only [frameOf, pdIndex, pageSize, ptCoverage] at *
          omega
        have hpde : pdeOf p.mem p.pdPhys v = p.mem.entry p.pdPhys 0 := by
          rw [pdeOf, hidx]
        simp [view, hpde, hnot]
    · rfl

/-- What mapping pages does: the listed addresses are mapped to themselves, and neither the bytes
of the pages in `others` nor anything else in the kernel's view changes. -/
structure Maps (others : List Nat) (addrs : Nat → Prop) (p p' : Paging) : Prop where
  wf : p'.pmm.Wf
  used : ∀ i, p.pmm.used i = true → p'.pmm.used i = true
  totalPages : p'.pmm.totalPages = p.pmm.totalPages
  pdPhys : p'.pdPhys = p.pdPhys
  topOfMemory : p'.topOfMemory = p.topOfMemory
  kernel : KernelDir (p'.pmm.outside others) p'.mem p'.pdPhys
  mapped : ∀ v, v < 2 ^ 32 → addrs (frameOf v) →
    view p'.mem p'.pdPhys v = some (frameOf v, false)
  rest : ∀ v, v < 2 ^ 32 → ¬ addrs (frameOf v) →
    view p'.mem p'.pdPhys v = view p.mem p.pdPhys v
  others : (p.pmm.inside others).Same p.mem p'.mem

theorem mapPage_maps {others : List Nat} {addr : Nat} (hwf : p.pmm.Wf)
    (hothers : ∀ page ∈ others, p.pmm.KernelPage page)
    (hk : KernelDir (p.pmm.outside others) p.mem p.pdPhys) (ha : addr % pageSize = 0)
    (ha32 : addr < 2 ^ 32) (hrun : p.mapPage addr = some p') :
    Maps others (fun page => page = addr) p p' := by
  have hi := pdIndex_lt ha32
  have hj := ptIndex_lt addr
  have hpage : pageAt (pdIndex addr) (ptIndex addr) = addr := (pageAt_eq ha hj).mpr ⟨rfl, rfl⟩
  have hv : addr + pageDefault < 2 ^ 32 := by
    simp only [pageDefault, pageSize] at *
    omega
  -- the second half, given a window with a table
  have hset : ∀ p1 : Paging, p1.pmm.Wf → KernelDir (p1.pmm.outside others) p1.mem p1.pdPhys →
      p1.mem.entry p1.pdPhys (pdIndex addr) ≠ 0 →
      Maps others (fun page => page = addr) p1 { p1 with
        mem := p1.mem.setEntry (frameOf (p1.mem.entry p1.pdPhys (pdIndex addr))) (ptIndex addr)
          (addr ||| pageDefault) } := by
    intro p1 hwf1 hk1 hne
    rw [or_flags ha (by decide)]
    obtain ⟨hk2, hview⟩ := hk1.setPte hi hj hne hv (fun _ => by rw [hpage])
    have ht := (hk1.frame hi hne).1
    refine ⟨hwf1, fun _ h => h, rfl, rfl, rfl, hk2, fun v hv' hmem => ?_, fun v hv' hmem => ?_,
      PageSet.same_setEntry ht.1.aligned hj (fun hin => ht.2 hin.2)⟩
    · exact (hview v hv').trans (by rw [hpage, if_pos hmem, present_default ha, if_pos rfl])
    · exact (hview v hv').trans (by rw [hpage, if_neg hmem])
  by_cases hpres : present (p.mem.entry p.pdPhys (pdIndex addr)) = true
  · have hne : p.mem.entry p.pdPhys (pdIndex addr) ≠ 0 := by
      intro heq
      rw [heq, present_zero] at hpres
      cases hpres
    simp only [mapPage, hpres, Bool.not_true, Bool.false_eq_true, if_false, Option.map_some] at hrun
    obtain rfl := Option.some.inj hrun
    exact hset p hwf hk hne
  · have hzero : p.mem.entry p.pdPhys (pdIndex addr) = 0 := by
      rcases hk.table _ hi with h0 | ⟨q, hq, heq⟩
      · exact h0
      · rw [heq, present_default hq.1.aligned] at hpres
        exact absurd rfl hpres
    have hnot : present (p.mem.entry p.pdPhys (pdIndex addr)) = false := by simpa using hpres
    obtain ⟨q, u, halloc⟩ : ∃ q u, p.pmm.pmmAllocPage = (q, u) := ⟨_, _, rfl⟩
    rw [mapPage, halloc] at hrun
    dsimp only at hrun
    rw [hnot] at hrun
    by_cases hq : q = 0
    · rw [if_pos Bool.not_false, if_pos hq] at hrun
      cases hrun
    · rw [if_pos Bool.not_false, if_neg hq, Option.map_some] at hrun
      have htakes := hwf.takes halloc hq
      have hqa := htakes.page.aligned
      have hqw := u.taken.word q htakes.page
      have hKa := hk.dir.1.aligned
      have hqK : q ≠ p.pdPhys := fun heq => htakes.not_taken (heq ▸ hk.dir.1)
      have hq32 : q + pageDefault < 2 ^ 32 := by
        simp only [pageDefault, pageSize] at *
        omega
      rw [or_flags hqa (by decide)] at hrun
      generalize hm1 : (p.mem.fillTable q (fun _ => 0) tableEntries).setEntry p.pdPhys
        (pdIndex addr) (q + pageDefault) = m1 at hrun
      have hsub : ∀ t, (p.pmm.outside others).has t → (u.outside others).has t := fun t ht =>
        ⟨ht.1.mono htakes.used, ht.2⟩
      obtain ⟨hk1, hview1⟩ := hk.newTable (w := m1) (f := fun _ => 0) hi hzero hsub
        (q := q) ⟨htakes.page, htakes.not_mem hothers⟩ (fun h => htakes.not_taken h.1)
        (fun _ _ hp => by rw [present_zero] at hp; cases hp)
        (fun i' hi' => by
          rw [← hm1]
          split
          · next heq => rw [heq, entry_setEntry hq32]
          · next hne =>
              rw [entry_setEntry_index (Ne.symm hne), entry_fillTable_page hqa hKa hqK hi'])
        (fun j hj' => by
          rw [← hm1, entry_setEntry_page hKa hqa (Ne.symm hqK) hi hj']
          exact entry_fillTable (f := fun _ => 0) hj' (Nat.two_pow_pos 32))
        (fun t j ht htK hj' => by
          have htq : q ≠ t := fun heq => htakes.not_taken (heq ▸ ht.1)
          rw [← hm1, entry_setEntry_page hKa ht.1.aligned (Ne.symm htK) hi hj',
            entry_fillTable_page hqa ht.1.aligned htq hj'])
      have hne1 : m1.entry p.pdPhys (pdIndex addr) ≠ 0 := by
        rw [← hm1, entry_setEntry hq32]
        simp only [pageDefault]
        omega
      have hothers1 : (p.pmm.inside others).Same p.mem m1 := by
        rw [← hm1]
        have hq_out : ¬ (p.pmm.inside others).has q := fun h => htakes.not_taken h.1
        have hK_out : ¬ (p.pmm.inside others).has p.pdPhys := fun h => hk.dir.2 h.2
        exact (PageSet.same_fillTable hqa hq_out).trans (PageSet.same_setEntry hKa hi hK_out)
      have hmaps := hset { p with mem := m1, pmm := u } htakes.wf hk1 hne1
      obtain rfl := Option.some.inj hrun
      refine ⟨hmaps.wf, htakes.used, htakes.totalPages, rfl, rfl, hmaps.kernel, hmaps.mapped,
        fun v hv' hmem => ?_, hothers1.trans fun page x hp => hmaps.others page x
          ⟨hp.1.mono htakes.used, hp.2⟩⟩
      rw [hmaps.rest v hv' hmem]
      refine (hview1 v hv').trans ?_
      split
      · next heq =>
          rw [hk.view_window hv', heq, hzero]
          simp [present_zero]
      · rfl

/-- The loop maps each of its pages. -/
theorem mapPages_maps {others : List Nat} {steps addr : Nat} (hwf : p.pmm.Wf)
    (hothers : ∀ page ∈ others, p.pmm.KernelPage page)
    (hk : KernelDir (p.pmm.outside others) p.mem p.pdPhys) (ha : addr % pageSize = 0)
    (ha32 : addr + steps * pageSize ≤ 2 ^ 32) (hrun : mapPages steps p addr = some p') :
    Maps others (fun page => addr ≤ page ∧ page < addr + steps * pageSize) p p' := by
  induction steps generalizing p addr with
  | zero =>
      obtain rfl := Option.some.inj hrun
      refine ⟨hwf, fun _ h => h, rfl, rfl, rfl, hk, fun v _ hmem => ?_, fun _ _ _ => rfl,
        .refl _ _⟩
      omega
  | succ steps ih =>
      obtain ⟨p1, hstep, hrest⟩ := Option.bind_eq_some_iff.mp hrun
      have hsucc : (steps + 1) * pageSize = steps * pageSize + pageSize := Nat.succ_mul _ _
      have hpos : 0 < pageSize := by decide
      have hnext : (addr + pageSize) % pageSize = 0 := by rw [Nat.add_mod_right, ha]
      have hfirst := mapPage_maps hwf hothers hk ha (by omega) hstep
      have hrec := ih hfirst.wf (fun page hp => (hothers page hp).mono hfirst.used) hfirst.kernel
        hnext (by omega) hrest
      refine ⟨hrec.wf, fun i hi => hrec.used i (hfirst.used i hi),
        hrec.totalPages.trans hfirst.totalPages, hrec.pdPhys.trans hfirst.pdPhys,
        hrec.topOfMemory.trans hfirst.topOfMemory, hrec.kernel, fun v hv hmem => ?_,
        fun v hv hmem => ?_, hfirst.others.trans fun page x hp => hrec.others page x
          ⟨hp.1.mono hfirst.used, hp.2⟩⟩
      · by_cases hin : addr + pageSize ≤ frameOf v ∧
            frameOf v < addr + pageSize + steps * pageSize
        · exact hrec.mapped v hv hin
        · rw [hrec.rest v hv hin]
          have haligned : frameOf v % pageSize = 0 := Nat.mul_mod_left _ _
          refine hfirst.mapped v hv ?_
          simp only [pageSize] at haligned ha hin hmem
          omega
      · exact (hrec.rest v hv (by omega)).trans (hfirst.rest v hv (by omega))

/-- `paging_map_phys_range` keeps what was mapped and opens nothing to user mode. -/
theorem mapPhysRange_maps {others : List Nat} {physAddr size : Nat} (hwf : p.pmm.Wf)
    (hothers : ∀ page ∈ others, p.pmm.KernelPage page)
    (hk : KernelDir (p.pmm.outside others) p.mem p.pdPhys) (hphys : physAddr < 2 ^ 32)
    (hrun : p.pagingMapPhysRange physAddr size = some p') :
    ∃ addrs, Maps others addrs p p' := by
  refine ⟨_, mapPages_maps hwf hothers hk ?_ ?_ hrun⟩
  · simp only [frameOf, pageSize]
    omega
  · simp only [frameOf, pageSize]
    omega

end Paging

end Kumo
