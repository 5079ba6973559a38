import Kumo.Arch.Translation

/-!
# Mapping a physical range

`paging_map_phys_range` on any kernel directory: the tables may hold any entries. One page
of the loop decides the translation of that page and of no other, whether its table was
there or is added. The end of the range is rounded up in 32-bit arithmetic, and for a
range that reaches into the last page of the address space it becomes 0: the loop then
does nothing.
-/

namespace Kumo

open Memory

/-- A kernel directory in general. A present entry is writable and points to a table in a page of
`R`; no table is the directory or shared between two entries. -/
structure Tables (R : PageSet) (m : Memory) (K : Nat) : Prop where
  dir : R.has K
  table : ∀ i, i < tableEntries → present (m.entry K i) = true →
    R.has (frameOf (m.entry K i)) ∧ frameOf (m.entry K i) ≠ K ∧ writable (m.entry K i) = true
  inj : ∀ i i', i < tableEntries → i' < tableEntries → present (m.entry K i) = true →
    present (m.entry K i') = true → frameOf (m.entry K i) = frameOf (m.entry K i') → i = i'

/-- The directories that boot and mapping build are of this kind. -/
theorem KernelDir.mappable {R : PageSet} {m : Memory} {K : Nat} (hk : KernelDir R m K) :
    Tables R m K := by
  have hne : ∀ i, present (m.entry K i) = true → m.entry K i ≠ 0 := by
    intro i hpres hzero
    rw [hzero, present_zero] at hpres
    cases hpres
  refine ⟨hk.dir, fun i hi hpres => ?_, fun i i' hi hi' h1 h2 => ?_⟩
  · obtain ⟨htable, heq⟩ := hk.frame hi (hne i hpres)
    refine ⟨htable, hk.apart i hi (hne i hpres), ?_⟩
    rw [heq]
    exact writable_default (R.aligned _ htable)
  · exact hk.inj i i' hi hi' (hne i h1) (hne i' h2)

section Edits

variable {R S : PageSet} {m : Memory} {K i j q w : Nat}

/-- The walk of an address whose window has no table. -/
theorem walk_eq_none {v : Nat} (h : present (m.entry K (pdIndex v)) = false) :
    walk m K v = none :=
  walkEntries_of_not_present h

/-- A table that is added maps nothing by itself. -/
theorem Tables.newTable (ht : Tables R m K) (m' : Memory) (hi : i < tableEntries)
    (h0 : present (m.entry K i) = false) (hsub : ∀ t, R.has t → S.has t) (hq : S.has q)
    (hnew : ¬ R.has q)
    (hK : ∀ i', i' < tableEntries →
      m'.entry K i' = if i' = i then q + pageDefault else m.entry K i')
    (hQ : ∀ j, j < tableEntries → m'.entry q j = 0)
    (hT : ∀ t j, R.has t → t ≠ K → j < tableEntries → m'.entry t j = m.entry t j) :
    Tables S m' K ∧ ∀ v, v < 2 ^ 32 → walk m' K v = walk m K v := by
  have hqa := S.aligned q hq
  have hqi : m'.entry K i = q + pageDefault := by
    rw [hK i hi, if_pos rfl]
  have hframe : frameOf (m'.entry K i) = q := by
    rw [hqi]
    exact frameOf_add hqa (by decide)
  have hold : ∀ i', i' < tableEntries → i' ≠ i → m'.entry K i' = m.entry K i' := by
    intro i' hi' hne
    rw [hK i' hi', if_neg hne]
  have hqK : q ≠ K := fun heq => hnew (heq ▸ ht.dir)
  refine ⟨⟨hsub _ ht.dir, fun i' hi' => ?_, fun i1 i2 h1 h2 hp1 hp2 heq => ?_⟩, fun v hv => ?_⟩
  · by_cases hii : i' = i
    · rw [hii, hframe, hqi]
      exact fun _ => ⟨hq, hqK, writable_default hqa⟩
    · rw [hold i' hi' hii]
      intro hpres
      obtain ⟨h1, h2, h3⟩ := ht.table i' hi' hpres
      exact ⟨hsub _ h1, h2, h3⟩
  · by_cases h1i : i1 = i <;> by_cases h2i : i2 = i
    · rw [h1i, h2i]
    · rw [hold i2 h2 h2i] at hp2 heq
      rw [h1i, hframe] at heq
      exact absurd (heq ▸ (ht.table i2 h2 hp2).1) hnew
    · rw [hold i1 h1 h1i] at hp1 heq
      rw [h2i, hframe] at heq
      exact absurd (heq ▸ (ht.table i1 h1 hp1).1) hnew
    · rw [hold i1 h1 h1i] at hp1 heq
      rw [hold i2 h2 h2i] at hp2 heq
      exact ht.inj i1 i2 h1 h2 hp1 hp2 heq
  · have hvi := pdIndex_lt hv
    by_cases hii : pdIndex v = i
    · -- before there was no table, now its entries are 0
      rw [walk_eq_none (m := m) (by rw [hii]; exact h0), walk, pteOf, pdeOf, hii, hframe,
        hQ _ (ptIndex_lt v), walkEntries_zero]
    · have hpde : pdeOf m' K v = pdeOf m K v := hold _ hvi hii
      by_cases hpres : present (pdeOf m K v) = true
      · obtain ⟨htable, hne, _⟩ := ht.table _ hvi hpres
        have hpte : pteOf m' K v = pteOf m K v := by
          rw [pteOf, hpde]
          exact hT _ _ htable hne (ptIndex_lt v)
        rw [walk, walk, hpde, hpte]
      · have hnot : present (pdeOf m K v) = false := by simpa using hpres
        rw [walk, walk, hpde, walkEntries_of_not_present hnot, walkEntries_of_not_present hnot]

/-- A page and its indices. -/
theorem frameOf_eq_pageAt {v : Nat} (hj : j < tableEntries) :
    frameOf v = pageAt i j ↔ pdIndex v = i ∧ ptIndex v = j := by
  simp only [frameOf, pageAt, pdIndex, ptIndex, ptCoverage, pageSize, tableEntries] at *
  omega

/-- An entry that is replaced decides the translation of its page. -/
theorem Tables.setPte (ht : Tables R m K) (hi : i < tableEntries) (hj : j < tableEntries)
    (hpres : present (m.entry K i) = true) (hw : w < 2 ^ 32) :
    Tables R (m.setEntry (frameOf (m.entry K i)) j w) K ∧
      ∀ v, v < 2 ^ 32 → walk (m.setEntry (frameOf (m.entry K i)) j w) K v =
        if frameOf v = pageAt i j then walkEntries (m.entry K i) w else walk m K v := by
  obtain ⟨htable, hne, _⟩ := ht.table i hi hpres
  have hta := R.aligned _ htable
  set t := frameOf (m.entry K i) with htdef
  have hK : ∀ i', i' < tableEntries → (m.setEntry t j w).entry K i' = m.entry K i' := fun i' hi' =>
    entry_setEntry_page hta (R.aligned K ht.dir) hne hj hi'
  refine ⟨⟨ht.dir, fun i' hi' => ?_, fun i1 i2 h1 h2 => ?_⟩, fun v hv => ?_⟩
  · rw [hK i' hi']
    exact ht.table i' hi'
  · rw [hK i1 h1, hK i2 h2]
    exact ht.inj i1 i2 h1 h2
  · have hvi := pdIndex_lt hv
    have hvj := ptIndex_lt v
    have hpde : pdeOf (m.setEntry t j w) K v = pdeOf m K v := hK _ hvi
    have hiff := frameOf_eq_pageAt (i := i) (v := v) hj
    simp only [hiff]
    rw [walk, walk, pteOf, pteOf, hpde]
    by_cases hii : pdIndex v = i
    · have hentry : pdeOf m K v = m.entry K i := by rw [pdeOf, hii]
      rw [hentry, ← htdef]
      by_cases hjj : ptIndex v = j
      · rw [if_pos ⟨hii, hjj⟩, hjj, entry_setEntry hw]
      · rw [if_neg fun h => hjj h.2, entry_setEntry_index (Ne.symm hjj)]
    · rw [if_neg fun h => hii h.1]
      by_cases hvpres : present (pdeOf m K v) = true
      · -- another window has another table
        have hother : t ≠ frameOf (pdeOf m K v) := fun heq =>
          hii (ht.inj _ _ hvi hi hvpres hpres heq.symm)
        have hpte : (m.setEntry t j w).entry (frameOf (pdeOf m K v)) (ptIndex v) =
            m.entry (frameOf (pdeOf m K v)) (ptIndex v) :=
          entry_setEntry_page hta (R.aligned _ (ht.table _ hvi hvpres).1) hother hj hvj
        rw [hpte]
      · have hnot : present (pdeOf m K v) = false := by simpa using hvpres
        rw [walkEntries_of_not_present hnot, walkEntries_of_not_present hnot]

end Edits

namespace Paging

variable {p p' : Paging}

/-- What mapping does: the addresses in `addrs` are mapped to themselves for the kernel, and the
translation of every other page is the same. -/
structure MapsRange (addrs : Nat → Prop) (p p' : Paging) : Prop where
  mapped : ∀ v, v < 2 ^ 32 → addrs (frameOf v) →
    walk p'.mem p'.pdPhys v = some (frameOf v, true, false)
  rest : ∀ v, v < 2 ^ 32 → ¬ addrs (frameOf v) →
    walk p'.mem p'.pdPhys v = walk p.mem p.pdPhys v

/-- A state whose kernel directory lies in taken pages. -/
structure Sound (p : Paging) : Prop where
  wf : p.pmm.Wf
  tables : Tables p.pmm.taken p.mem p.pdPhys

/-- The table for a page that is about to be mapped: the one there is, or a new one. -/
theorem Sound.mapPage {addr : Nat} (hs : Sound p) (ha : addr % pageSize = 0) (ha32 : addr < 2 ^ 32)
    (hrun : p.mapPage addr = some p') : Sound p' ∧ MapsRange (fun page => page = addr) p p' := by
  have hi := pdIndex_lt ha32
  have hj := ptIndex_lt addr
  have hpage : pageAt (pdIndex addr) (ptIndex addr) = addr := (pageAt_eq ha hj).mpr ⟨rfl, rfl⟩
  have hw : addr + pageDefault < 2 ^ 32 := by
    simp only [pageDefault, pageSize] at *
    omega
  -- the second half, given a window with a table
  have hset : ∀ p1 : Paging, Sound p1 → present (p1.mem.entry p1.pdPhys (pdIndex addr)) = true →
      ∀ p2 : Paging, p2 = { p1 with
        mem := p1.mem.setEntry (frameOf (p1.mem.entry p1.pdPhys (pdIndex addr))) (ptIndex addr)
          (addr ||| pageDefault) } → Sound p2 ∧ MapsRange (fun page => page = addr) p1 p2 := by
    rintro p1 hs1 hpres p2 rfl
    rw [or_flags ha (by decide)]
    obtain ⟨ht, hwalk⟩ := hs1.tables.setPte hi hj hpres hw
    rw [hpage] at hwalk
    refine ⟨⟨hs1.wf, ht⟩, fun v hv hmem => ?_, fun v hv hmem => ?_⟩
    · rw [hwalk v hv, if_pos hmem, hmem]
      exact walkEntries_default hpres (hs1.tables.table _ hi hpres).2.2 ha
    · rw [hwalk v hv, if_neg hmem]
  by_cases hpres : present (p.mem.entry p.pdPhys (pdIndex addr)) = true
  · simp only [Paging.mapPage, hpres, Bool.not_true, Bool.false_eq_true, if_false,
      Option.map_some] at hrun
    exact hset p hs hpres p' (Option.some.inj hrun).symm
  · have hnot : present (p.mem.entry p.pdPhys (pdIndex addr)) = false := by simpa using hpres
    obtain ⟨q, u, halloc⟩ : ∃ q u, p.pmm.pmmAllocPage = (q, u) := ⟨_, _, rfl⟩
    rw [Paging.mapPage, halloc] at hrun
    dsimp only at hrun
    rw [hnot] at hrun
    by_cases hq : q = 0
    · rw [if_pos Bool.not_false, if_pos hq] at hrun
      cases hrun
    · rw [if_pos Bool.not_false, if_neg hq, Option.map_some] at hrun
      have htakes := hs.wf.takes halloc hq
      have hqa := htakes.page.aligned
      have hqw := u.taken.word q htakes.page
      have hKa := p.pmm.taken.aligned _ hs.tables.dir
      have hqK : q ≠ p.pdPhys := fun heq => htakes.not_taken (heq ▸ hs.tables.dir)
      have hq32 : q + pageDefault < 2 ^ 32 := by
        simp only [pageDefault, pageSize] at *
        omega
      rw [or_flags hqa (by decide)] at hrun
      generalize hm1 : (p.mem.fillTable q (fun _ => 0) tableEntries).setEntry p.pdPhys
        (pdIndex addr) (q + pageDefault) = m1 at hrun
      obtain ⟨ht1, hwalk1⟩ := hs.tables.newTable (S := u.taken) m1 hi hnot
        (fun t ht => ht.mono htakes.used) htakes.page htakes.not_taken
        (fun i' hi' => by
          rw [← hm1]
          split
          · next heq => rw [heq, entry_setEntry hq32]
          · next hne =>
              rw [entry_setEntry_index (Ne.symm hne), entry_fillTable_page hqa hKa hqK hi'])
        (fun j hj' => by
          rw [← hm1, entry_setEntry_page hKa hqa (Ne.symm hqK) hi hj']
          exact entry_fillTable (f := fun _ => 0) hj' (Nat.two_pow_pos 32))
        (fun t j ht htK hj' => by
          have hta := p.pmm.taken.aligned t ht
          have htq : q ≠ t := fun heq => htakes.not_taken (heq ▸ ht)
          rw [← hm1, entry_setEntry_page hKa hta (Ne.symm htK) hi hj',
            entry_fillTable_page hqa hta htq hj'])
      have hpres1 : present (m1.entry p.pdPhys (pdIndex addr)) = true := by
        rw [← hm1, entry_setEntry hq32]
        exact present_default hqa
      obtain ⟨hs2, hmaps⟩ := hset { p with mem := m1, pmm := u } ⟨htakes.wf, ht1⟩ hpres1 p'
        (Option.some.inj hrun).symm
      exact ⟨hs2, hmaps.mapped, fun v hv hmem => (hmaps.rest v hv hmem).trans (hwalk1 v hv)⟩

/-- The loop maps each of its pages. -/
theorem Sound.mapPages {steps addr : Nat} (hs : Sound p) (ha : addr % pageSize = 0)
    (hend : addr + steps * pageSize ≤ 2 ^ 32) (hrun : mapPages steps p addr = some p') :
    MapsRange (fun page => addr ≤ page ∧ page < addr + steps * pageSize) p p' := by
  induction steps generalizing p addr with
  | zero =>
      obtain rfl := Option.some.inj hrun
      exact ⟨fun v _ hmem => by omega, fun _ _ _ => rfl⟩
  | succ steps ih =>
      obtain ⟨p1, hstep, hrest⟩ := Option.bind_eq_some_iff.mp hrun
      have hsucc : (steps + 1) * pageSize = steps * pageSize + pageSize := Nat.succ_mul _ _
      have hpos : 0 < pageSize := by decide
      have hnext : (addr + pageSize) % pageSize = 0 := by rw [Nat.add_mod_right, ha]
      obtain ⟨hs1, hfirst⟩ := hs.mapPage ha (by omega) hstep
      have hrec := ih hs1 hnext (by omega) hrest
      refine ⟨fun v hv hmem => ?_, fun v hv hmem => ?_⟩
      · by_cases hin : addr + pageSize ≤ frameOf v ∧
            frameOf v < addr + pageSize + steps * pageSize
        · exact hrec.mapped v hv hin
        · rw [hrec.rest v hv hin]
          have haligned : frameOf v % pageSize = 0 := Nat.mul_mod_left _ _
          refine hfirst.mapped v hv ?_
          simp only [pageSize] at haligned ha hin hmem
          omega
      · exact (hrec.rest v hv (by omega)).trans (hfirst.rest v hv (by omega))

/-- A page that meets the physical range `[physAddr, physAddr + size)`. -/
def Meets (physAddr size page : Nat) : Prop :=
  page < physAddr + size ∧ physAddr < page + pageSize

instance (physAddr size page : Nat) : Decidable (Meets physAddr size page) :=
  inferInstanceAs (Decidable (_ ∧ _))

/-- Below the last page of the address space the pages of the loop are those that meet the range. -/
theorem meets_iff {physAddr size v : Nat} (hsize : 0 < size)
    (hend : physAddr + size ≤ 2 ^ 32 - pageSize) :
    (frameOf physAddr ≤ frameOf v ∧ frameOf v < frameOf physAddr +
      (frameOf ((physAddr + size + (pageSize - 1)) % 2 ^ 32) - frameOf physAddr) / pageSize *
        pageSize) ↔ Meets physAddr size (frameOf v) := by
  simp only [Meets, frameOf, pageSize] at *
  omega

/-- For a range that reaches into the last page the rounded end is 0. -/
theorem steps_eq_zero {physAddr size : Nat} (hlast : 2 ^ 32 - pageSize < physAddr + size)
    (hend : physAddr + size ≤ 2 ^ 32) :
    (frameOf ((physAddr + size + (pageSize - 1)) % 2 ^ 32) - frameOf physAddr) / pageSize = 0 := by
  simp only [frameOf, pageSize] at *
  omega

/-- `paging_map_phys_range` maps exactly the pages of the range if and only if the range ends
below the last page of the address space, or its pages were mapped before. -/
theorem map_phys_range_iff (p p' : Paging) (hs : Sound p) (physAddr size : Nat) (hsize : 0 < size)
    (hend : physAddr + size ≤ 2 ^ 32) (hrun : p.pagingMapPhysRange physAddr size = some p') :
    MapsRange (Meets physAddr size) p p' ↔
      physAddr + size ≤ 2 ^ 32 - pageSize ∨
        ∀ v, v < 2 ^ 32 → Meets physAddr size (frameOf v) →
          walk p.mem p.pdPhys v = some (frameOf v, true, false) := by
  rw [pagingMapPhysRange] at hrun
  by_cases hlast : physAddr + size ≤ 2 ^ 32 - pageSize
  · have hmaps := hs.mapPages (Nat.mul_mod_left _ _) (by
      simp only [frameOf, pageSize] at *
      omega) hrun
    refine iff_of_true ⟨fun v hv hmem => ?_, fun v hv hmem => ?_⟩ (.inl hlast)
    · exact hmaps.mapped v hv ((meets_iff hsize hlast).mpr hmem)
    · exact hmaps.rest v hv fun hin => hmem ((meets_iff hsize hlast).mp hin)
  · rw [steps_eq_zero (by omega) hend] at hrun
    obtain rfl := Option.some.inj hrun
    rw [or_iff_right hlast]
    exact ⟨fun hmaps => hmaps.mapped, fun hmapped => ⟨hmapped, fun _ _ _ => rfl⟩⟩

/-- The kernel directory after boot on a machine with 2 MB of memory. -/
theorem sound_sample : ∃ p, pagingInit ⟨fun _ => 0, Pmm.sample, 0, 0x200000⟩ = some p ∧ Sound p ∧
    walk p.mem p.pdPhys 0xFFFFF000 = none := by
  have hsome : (pagingInit ⟨fun _ => 0, Pmm.sample, 0, 0x200000⟩).isSome :=
    pagingInit_isSome Pmm.sample_wf (by decide) (by decide +kernel) (by decide)
  obtain ⟨p, hrun⟩ := Option.isSome_iff_exists.mp hsome
  obtain ⟨hmapped, htop, _⟩ := pagingInit_mapped Pmm.sample_wf (by decide) hrun
  refine ⟨p, hrun, ⟨hmapped.wf, hmapped.kernel.mappable⟩, ?_⟩
  rw [hmapped.kernel.walk_eq (by decide), hmapped.views _ (by decide), htop]
  rfl

/-- A page of a device, mapped after boot. -/
theorem map_phys_range_iff_sample : ∃ p p',
    p.pagingMapPhysRange 0xE0000000 0x1000 = some p' ∧
      (MapsRange (Meets 0xE0000000 0x1000) p p' ↔
        0xE0000000 + 0x1000 ≤ 2 ^ 32 - pageSize ∨
          ∀ v, v < 2 ^ 32 → Meets 0xE0000000 0x1000 (frameOf v) →
            walk p.mem p.pdPhys v = some (frameOf v, true, false)) := by
  obtain ⟨p, hinit, hs, _⟩ := sound_sample
  have hsome : ((pagingInit ⟨fun _ => 0, Pmm.sample, 0, 0x200000⟩).bind fun p =>
      p.pagingMapPhysRange 0xE0000000 0x1000).isSome := by
    decide +kernel
  rw [hinit, Option.bind_some] at hsome
  obtain ⟨p', hrun⟩ := Option.isSome_iff_exists.mp hsome
  exact ⟨p, p', hrun, map_phys_range_iff p p' hs 0xE0000000 0x1000 (by decide) (by decide) hrun⟩

/-- The last page of the address space is not mapped when it is asked for. -/
theorem map_phys_range_skips : ¬ ∀ p p' : Paging, Sound p → ∀ physAddr size, 0 < size →
    physAddr + size ≤ 2 ^ 32 → p.pagingMapPhysRange physAddr size = some p' →
    MapsRange (Meets physAddr size) p p' := by
  intro hclaim
  obtain ⟨p, _, hs, hnone⟩ := sound_sample
  have hrun : p.pagingMapPhysRange 0xFFFFF000 0x1000 = some p := by
    rw [pagingMapPhysRange, steps_eq_zero (by decide) (by decide)]
    rfl
  have hmaps := hclaim p p hs 0xFFFFF000 0x1000 (by decide) (by decide) hrun
  have hmapped := hmaps.mapped 0xFFFFF000 (by decide) (by decide)
  rw [hnone] at hmapped
  cases hmapped

end Paging

end Kumo
