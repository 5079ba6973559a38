import Kumo.Fs.ElfLoading

/-!
# When the ELF loader stays inside its memory

`elf_load` checks the identification of a file and that there is a `PT_LOAD` header. It
does not look at the size of the file, it compares no offset with anything, and the number
of pages comes from `p_memsz` while `p_filesz` says how much is copied. So whether it keeps
to the file and to its own memory depends on the headers alone: `elf_load_confined_iff`.
-/

namespace Kumo

open Memory

namespace Elf

variable {h g : Kheap} {elfData elfSize base count outPages : Nat}

/-- The memory that belongs to a load: its frames, and its page list if it has one. -/
def Owns (h : Kheap) (l : Loaded) (x : Nat) : Prop :=
  ∃ outPages count, l.out = some (outPages, count) ∧
    (((h.pmm.pmmAllocContiguousUserPages count).1 ≤ x ∧
        x < (h.pmm.pmmAllocContiguousUserPages count).1 + count * pageSize) ∨
      (outPages ≠ 0 ∧ outPages ≤ x ∧ x < outPages + 4 * count))

/-- `elf_load` reads the file inside its bounds, and writes to memory that belongs to the load. -/
def LoadConfined (h : Kheap) (elfData elfSize : Nat) : Prop :=
  ∃ l, elfLoad h elfData elfSize = some l ∧
    AllWithin (InFile elfData elfSize) l.state.reads ∧ AllWithin (Owns h l) l.state.writes

/-- The headers that are looked at lie in the file. If the file is accepted, the page list can be
allocated, and for each segment the rest of its header and its data lie in the file, and the bytes
that are copied or cleared for it go to the frames or the list. -/
structure Confinable (h : Kheap) (elfData elfSize : Nat) : Prop where
  front : FrontRead (InFile elfData elfSize) h.mem elfData
  segments : ∀ count base, count = pageCount (spanOf (segments h.mem elfData)) →
    base = (h.pmm.pmmAllocContiguousUserPages count).1 → Accepted h elfData →
    ∃ outPages g, outPages ≠ 0 ∧
      Kheap.kmalloc { h with pmm := (h.pmm.pmmAllocContiguousUserPages count).2 }
        (count * 4 % 2 ^ 32) = some (outPages, g) ∧
      ∀ k, k < ePhnum h.mem elfData → LoadWithin (InFile elfData elfSize)
        (Writable base count outPages) h.mem elfData
        (sub32 base (spanOf (Elf.segments h.mem elfData)).minVaddr) k

/-- When `e_phnum` lies in the file, so does `e_entry`. -/
theorem entry_within (hheld : Held h elfData elfSize)
    (hphnum : MemAccess.Within (InFile elfData elfSize) ⟨add32 elfData 44, 2⟩) :
    MemAccess.Within (InFile elfData elfSize) ⟨add32 elfData 24, 4⟩ := by
  have hfits := hheld.fits
  have hfirst := hphnum (add32 elfData 44) (Nat.le_refl _) (by simp only; omega)
  have hlast := hphnum (add32 elfData 44 + 1) (by simp only; omega) (by simp only; omega)
  simp only [InFile, add32] at hfirst hlast
  refine hheld.within ?_ (by omega)
  omega

/-- A page list that was not allocated is written to address 0. -/
theorem not_confined_null {F W : Nat → Prop} {s : Loader} {loadBase : Nat} (hpos : 0 < count)
    (hzero : ¬ W 0) :
    ¬ Confined F W (loadSegments elfData loadBase phnumFuel 0 (afterList s g 0 base count)) := by
  intro hc
  have hlist := (confined_fillPages.mp hc.of_loadSegments).2 0 (Nat.le_refl 0) (by omega)
  exact hzero (hlist 0 (Nat.le_refl 0) (by simp [add32]))

/-- The page list is written where it may be. -/
theorem Prepared.list_within (hp : Prepared h elfData elfSize count base outPages g) {k : Nat}
    (hk : k < count) : MemAccess.Within (Writable base count outPages) ⟨add32 outPages (4 * k), 4⟩ := by
  have hlist := hp.list.2
  simp only [userMemStart] at hlist
  rw [add32_of_lt (by omega)]
  intro x h1 h2
  simp only at h1 h2
  exact .inr ⟨by omega, by omega⟩

/-- The memory of a load with a page list. -/
theorem owns_iff {l : Loaded} {x : Nat} (hout : l.out = some (outPages, count)) :
    Owns h l x ↔ ((h.pmm.pmmAllocContiguousUserPages count).1 ≤ x ∧
        x < (h.pmm.pmmAllocContiguousUserPages count).1 + count * pageSize) ∨
      (outPages ≠ 0 ∧ outPages ≤ x ∧ x < outPages + 4 * count) := by
  constructor
  · rintro ⟨p, n, hpn, hin⟩
    obtain ⟨rfl, rfl⟩ := Prod.mk.inj (Option.some.inj (hout.symm.trans hpn))
    exact hin
  · exact fun hin => ⟨outPages, count, hout, hin⟩

/-- An accepted file whose page list was allocated. -/
theorem Prepared.confined_iff {s : Loader} (hp : Prepared h elfData elfSize count base outPages g)
    (hheld : Held h elfData elfSize)
    (hlog : ∀ F W, Confined F W s ↔ FrontRead F h.mem elfData) (hident : Identified h.mem elfData)
    (loadBase : Nat) :
    (MemAccess.Within (InFile elfData elfSize) ⟨add32 elfData 24, 4⟩ ∧
      Confined (InFile elfData elfSize) (Writable base count outPages)
        (loadSegments elfData loadBase phnumFuel 0 (afterList s g outPages base count))) ↔
      FrontRead (InFile elfData elfSize) h.mem elfData ∧
        ∀ k, k < ePhnum h.mem elfData → LoadWithin (InFile elfData elfSize)
          (Writable base count outPages) h.mem elfData loadBase k := by
  have hstart : Confined (InFile elfData elfSize) (Writable base count outPages)
      (afterList s g outPages base count) ↔ FrontRead (InFile elfData elfSize) h.mem elfData := by
    rw [← hlog _ (Writable base count outPages)]
    refine confined_fillPages.trans (and_iff_left fun k _ hk => ?_)
    exact hp.list_within (by omega)
  by_cases hfront : FrontRead (InFile elfData elfSize) h.mem elfData
  · obtain ⟨hphnum, hread⟩ := hfront.2 hident
    have hkept : SameOn (InFile elfData elfSize) h.mem (afterList s g outPages base count).mem := by
      have hlist := hp.list.2
      have hfill := heap_fillPages (m := g.mem) (s := { s with heap := g }) (i := 0) outPages base
        (show outPages + 4 * (0 + count) ≤ 2 ^ 32 by simp only [userMemStart] at hlist; omega) rfl
      rw [Nat.zero_add] at hfill
      rw [Loader.mem, afterList, hfill]
      exact hp.keptList _
    have hpass := (loadSegments_spec elfData loadBase phnumFuel 0 hp.apart hkept hphnum
      (fun k _ hk => hread k hk) (Nat.zero_le _) (by rw [Nat.zero_add]; exact ePhnum_lt _ _)).1
    rw [hpass, hstart, and_iff_right (entry_within hheld hphnum)]
    simp only [Nat.zero_le, forall_const]
  · exact iff_of_false (fun hc => hfront (hstart.mp hc.2.of_loadSegments)) fun hc => hfront hc.1

/-- For every file of every length, `elf_load` reads the file inside its bounds and writes to its
frames and its page list just if the headers and the data of the segments lie in the file, and the
segments in the memory of the load. -/
theorem elf_load_confined_iff (h : Kheap) (hwf : h.Wf) (elfData elfSize : Nat)
    (hheld : Held h elfData elfSize) :
    LoadConfined h elfData elfSize ↔ Confinable h elfData elfSize := by
  have hpmm : h.pmm.Wf := by
    obtain ⟨_, _, hl⟩ := hwf
    exact hl.pmm
  by_cases hacc : Accepted h elfData
  · obtain ⟨count, hcount⟩ : ∃ count, count = pageCount (spanOf (segments h.mem elfData)) := ⟨_, rfl⟩
    have hbase : (h.pmm.pmmAllocContiguousUserPages count).1 ≠ 0 := hcount ▸ hacc.2.2
    have hframes := frames_of_alloc hpmm hbase
    have hsize := hframes.count_le
    have hlow := hframes.low
    obtain ⟨tiles, fl, hl⟩ := wf_afterFrames hwf count
    obtain ⟨outPages, g, _, _, hk, _⟩ := hl.kmalloc (show count * 4 % 2 ^ 32 + 15 < 2 ^ 32 by omega)
    obtain ⟨s, hlog, hload⟩ := elfLoad_accepted elfSize hacc hcount rfl hk
    have hrun := hload _ rfl
    have hconf : LoadConfined h elfData elfSize ↔
        MemAccess.Within (InFile elfData elfSize) ⟨add32 elfData 24, 4⟩ ∧
        Confined (InFile elfData elfSize) (fun x =>
            ((h.pmm.pmmAllocContiguousUserPages count).1 ≤ x ∧
              x < (h.pmm.pmmAllocContiguousUserPages count).1 + count * pageSize) ∨
            (outPages ≠ 0 ∧ outPages ≤ x ∧ x < outPages + 4 * count))
          (loadSegments elfData (sub32 (h.pmm.pmmAllocContiguousUserPages count).1
            (spanOf (segments h.mem elfData)).minVaddr) phnumFuel 0
            (afterList s g outPages (h.pmm.pmmAllocContiguousUserPages count).1 count)) := by
      rw [← confined_reading]
      constructor
      · rintro ⟨l, hl, hreads, hwrites⟩
        obtain rfl := Option.some.inj (hrun.symm.trans hl)
        exact ⟨hreads, hwrites.mono fun x hx => (owns_iff rfl).mp hx⟩
      · rintro ⟨hreads, hwrites⟩
        exact ⟨_, hrun, hreads, hwrites.mono fun x hx => (owns_iff rfl).mpr hx⟩
    rw [hconf]
    by_cases hlist : outPages = 0
    · subst hlist
      refine iff_of_false (fun hc => ?_) fun hc => ?_
      · refine not_confined_null hframes.pos (fun hzero => ?_) hc.2
        rcases hzero with hzero | hzero
        · simp only [userMemStart] at hlow
          omega
        · exact hzero.1 rfl
      · obtain ⟨p, g', hp, hk', -⟩ := hc.segments count _ hcount rfl hacc
        obtain ⟨rfl, -⟩ := Prod.mk.inj (Option.some.inj (hk.symm.trans hk'))
        exact hp rfl
    · have hp := prepared_of_kmalloc hwf hheld hbase hk hlist
      simp only [hlist, ne_eq, not_false_eq_true, true_and]
      refine (hp.confined_iff hheld hlog hacc.1 _).trans ⟨fun hc => ⟨hc.1, ?_⟩, fun hc => ⟨hc.front, ?_⟩⟩
      · rintro n base hn rfl -
        obtain rfl := hn.trans hcount.symm
        exact ⟨outPages, g, hlist, hk, hc.2⟩
      · obtain ⟨p, g', -, hk', hall⟩ := hc.segments count _ hcount rfl hacc
        obtain ⟨rfl, -⟩ := Prod.mk.inj (Option.some.inj (hk.symm.trans hk'))
        exact hall
  · obtain ⟨s, hrun, -, hlog⟩ := elfLoad_refused hpmm elfSize hacc
    refine Iff.trans ?_ ⟨fun hfront => ⟨hfront, fun _ _ _ _ hyes => absurd hyes hacc⟩,
      fun hc => hc.front⟩
    rw [← hlog _ (Owns h ⟨0, none, s⟩)]
    constructor
    · rintro ⟨l, hl, hc⟩
      obtain rfl := Option.some.inj (hrun.symm.trans hl)
      exact hc
    · exact fun hc => ⟨_, hrun, hc⟩

/-- The file with two segments. -/
theorem elf_load_confined_iff_sample :
    LoadConfined (heapWith sampleFile) 0x20000 119 ↔ Confinable (heapWith sampleFile) 0x20000 119 :=
  elf_load_confined_iff (heapWith sampleFile) (heapWith_wf _) 0x20000 119
    (held_of_low (heapWith_wf _) (by decide))

/-- Its second segment at `0x3000` instead, with a byte of data and no byte of memory. -/
def overrunFile : List (BitVec 8) :=
  ((sampleFile.set 92 0x00#8).set 93 0x30#8).set 104 0#8

/-- The span is the two pages from `0x1000` on, and the byte for `0x3000` is written after them. -/
theorem elf_load_overruns : ¬ ∀ (h : Kheap), h.Wf → ∀ elfData elfSize, Held h elfData elfSize →
    LoadConfined h elfData elfSize := by
  intro hclaim
  obtain ⟨l, hl, -, hwrites⟩ := hclaim (heapWith overrunFile) (heapWith_wf _) 0x20000 119
    (held_of_low (heapWith_wf _) (by decide))
  have hvalue : (elfLoad (heapWith overrunFile) 0x20000 119).map
      (fun l => (l.out, decide (⟨0x802000, 1⟩ ∈ l.state.writes))) =
        some (some (0x100008, 2), true) := by
    decide +kernel
  have hbase : ((heapWith overrunFile).pmm.pmmAllocContiguousUserPages 2).1 = 0x800000 := by
    decide +kernel
  rw [hl, Option.map_some] at hvalue
  obtain ⟨hout, hmem⟩ := Prod.mk.inj (Option.some.inj hvalue)
  have hown := hwrites _ (of_decide_eq_true hmem) 0x802000 (Nat.le_refl _) (by decide)
  rw [owns_iff hout, hbase] at hown
  simp only [pageSize] at hown
  omega

end Elf

end Kumo
