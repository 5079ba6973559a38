import Kumo.Fs.ElfConfined
import Kumo.Kernel.Exec

/-!
# The list of pages of a new program

`exec_elf_from_path` copies the page list of `elf_load` to an array of 32 places, behind
the stack page. `exec_page_list_iff` says that it stays inside the array just if the
segments of the file span at most 31 pages.
-/

namespace Kumo

open Memory

namespace Exec

variable {m : Memory} {h h' : Kheap} {path buf total pages stackPage count i : Nat} {a : AllPages}
  {p : NewProgram}

/-- The list is inside the array, and no page is lost. -/
structure NewProgram.Fits (p : NewProgram) (m : Memory) : Prop where
  inside : ∀ i ∈ p.allPages.assigned, i < allPagesLen
  passed : ∀ i, i < p.pageCount → m.load32 (add32 p.pages (4 * i)) ∈ p.passed

/-! ## The loop -/

/-- The places that the loop assigns to. -/
theorem copyPages_assigned (m : Memory) (pages count i : Nat) (a : AllPages) :
    (copyPages m pages count i a).assigned = a.assigned ++ List.range' (i + 1) count := by
  induction count generalizing i a with
  | zero => simp [copyPages]
  | succ count ih =>
      rw [copyPages, ih, AllPages.assign, List.range'_succ, List.append_assoc]
      rfl

/-- What the loop leaves in the array: the pages from place `i + 1` on, and the rest as it was. -/
theorem copyPages_page (m : Memory) (pages count i : Nat) (a : AllPages) (j : Nat) :
    (copyPages m pages count i a).page j =
      if i < j ∧ j ≤ i + count then m.load32 (add32 pages (4 * (j - 1))) else a.page j := by
  induction count generalizing i a with
  | zero => rw [copyPages, if_neg (by omega)]
  | succ count ih =>
      have hassign : ∀ v, (a.assign (i + 1) v).page j = Function.update a.page (i + 1) v j :=
        fun _ => rfl
      rw [copyPages, ih, hassign]
      by_cases hj : j = i + 1
      · subst hj
        rw [if_neg (by omega), if_pos (by omega), Function.update_self, Nat.add_sub_cancel]
      · rw [Function.update_of_ne hj]
        have hsame : (i + 1 < j ∧ j ≤ i + 1 + count) ↔ (i < j ∧ j ≤ i + (count + 1)) := by omega
        simp only [hsame]

/-- The array after the loop is inside its bounds just if there are at most 31 pages. -/
theorem buildPages_inside_iff (m : Memory) (stackPage pages count : Nat) :
    (∀ i ∈ (buildPages m stackPage pages count).assigned, i < allPagesLen) ↔ count ≤ 31 := by
  rw [buildPages, copyPages_assigned]
  simp only [AllPages.assign, List.nil_append, List.singleton_append, List.mem_cons,
    List.mem_range'_1, Nat.zero_add, allPagesLen]
  constructor
  · intro h
    by_contra hcount
    have := h 32 (.inr ⟨by omega, by omega⟩)
    omega
  · rintro h i (rfl | ⟨-, hi⟩)
    · omega
    · omega

/-- Page `i` of the list lies at place `i + 1`. -/
theorem buildPages_page (hi : i < count) :
    (buildPages m stackPage pages count).page (i + 1) = m.load32 (add32 pages (4 * i)) := by
  rw [buildPages, copyPages_page, if_pos (by omega), Nat.add_sub_cancel]

/-! ## The count -/

/-- The pages that `elf_load` reports are those of the span of the segments. -/
theorem elfLoad_pageCount {elfData elfSize : Nat} {l : Elf.Loaded}
    (hrun : Elf.elfLoad h elfData elfSize = some l) (hout : l.out = some (pages, count)) :
    count = Elf.pageCount (Elf.spanOf (Elf.segments h.mem elfData)) := by
  obtain ⟨s, -, hbad, hgood⟩ := Elf.elfLoad_front h elfData elfSize
  by_cases hident : Elf.Identified h.mem elfData
  · rw [(hgood hident).1] at hrun
    by_cases hempty : Elf.segments h.mem elfData = []
    · rw [if_pos hempty] at hrun
      obtain rfl := Option.some.inj hrun
      cases hout
    · rw [if_neg hempty] at hrun
      generalize Elf.spanOf (Elf.segments h.mem elfData) = r at *
      unfold Elf.placeImage at hrun
      dsimp only at hrun
      split at hrun
      · obtain rfl := Option.some.inj hrun
        cases hout
      · split at hrun
        · cases hrun
        · obtain rfl := Option.some.inj hrun
          exact (Prod.mk.inj (Option.some.inj hout)).2.symm
  · rw [(hbad hident).1] at hrun
    obtain rfl := Option.some.inj hrun
    cases hout

/-- There are fewer pages than addresses. -/
theorem pageCount_lt (r : Elf.Range) : Elf.pageCount r < 2 ^ 20 := by
  have h := add32_lt (sub32 r.maxEnd r.minVaddr) 4095
  rw [Elf.pageCount]
  omega

/-- What is prepared for a new task. -/
theorem prepare_spec (hrun : prepare h path buf total = some (some p, h')) :
    p.pageCount = Elf.pageCount (Elf.spanOf (Elf.segments h.mem buf)) ∧
      p.allCount = p.pageCount + 1 ∧
      ∃ stackPage, p.allPages = buildPages h'.mem stackPage p.pages p.pageCount := by
  unfold prepare at hrun
  split at hrun
  · cases hrun
  · next l hload =>
      split at hrun
      · cases hrun
      · next pages pageCount hout =>
          split at hrun
          · cases hrun
          · split at hrun
            · cases hrun
            · next u hstack =>
                dsimp only at hrun
                split at hrun
                · cases hrun
                · next stackPage hpage =>
                    split at hrun
                    · cases hrun
                    · obtain ⟨hp, rfl⟩ := Prod.mk.inj (Option.some.inj hrun)
                      obtain rfl := Option.some.inj hp
                      have hcount := elfLoad_pageCount hload hout
                      have hlt := pageCount_lt (Elf.spanOf (Elf.segments h.mem buf))
                      exact ⟨hcount, add32_of_lt (by omega), stackPage, rfl⟩

/-- For every file that `elf_load` accepts, the list of pages stays inside `all_pages` and no page
is lost just if the segments span at most 31 pages. -/
theorem exec_page_list_iff (h : Kheap) (path buf total : Nat) (p : NewProgram) (h' : Kheap)
    (hrun : prepare h path buf total = some (some p, h')) :
    p.Fits h'.mem ↔ Elf.pageCount (Elf.spanOf (Elf.segments h.mem buf)) ≤ allPagesLen - 1 := by
  obtain ⟨hcount, hall, stackPage, hlist⟩ := prepare_spec hrun
  have hinside := buildPages_inside_iff h'.mem stackPage p.pages p.pageCount
  rw [← hlist, hcount] at hinside
  refine ⟨fun hfits => hinside.mp hfits.inside, fun hle => ⟨hinside.mpr hle, fun i hi => ?_⟩⟩
  rw [NewProgram.passed, List.mem_map]
  refine ⟨i + 1, List.mem_range.mpr (by omega), ?_⟩
  rw [hlist]
  exact buildPages_page hi

/-! ## A file of two small segments -/

/-- Sixteen free pages of the kernel zone, and 64 of the user zone. -/
def widePmm : Pmm where
  bitmap := fun n => if n < 2 ∨ (224 ≤ n ∧ n < 232) then 0#8 else 0xFF#8
  totalPages := 1856
  freePages := 80

/-- The sample file, with its second segment at `vaddr`, and a path behind it. -/
def spreadFile (vaddr : Nat) : List (BitVec 8) :=
  ((Elf.sampleFile.set 92 0#8).set 93 (BitVec.ofNat 8 (vaddr / 2 ^ 8))).set 94
    (BitVec.ofNat 8 (vaddr / 2 ^ 16)) ++ [0x2F#8, 0x61#8, 0#8]

/-- A heap, with this file at `0x20000`. -/
def spreadHeap (vaddr : Nat) : Kheap :=
  Kheap.kheapInit (fun x => if x < 0x20000 then 0 else (spreadFile vaddr).getD (x - 0x20000) 0)
    widePmm

/-- With the second segment in the second page, the list has three places. -/
theorem exec_page_list_iff_sample : ∃ p h',
    prepare (spreadHeap 0x2000) 0x20077 0x20000 119 = some (some p, h') ∧
      (p.Fits h'.mem ↔ Elf.pageCount (Elf.spanOf (Elf.segments (spreadHeap 0x2000).mem 0x20000)) ≤
        allPagesLen - 1) := by
  have hvalue : ((prepare (spreadHeap 0x2000) 0x20077 0x20000 119).bind Prod.fst).isSome = true := by
    decide +kernel
  obtain ⟨p, hp⟩ := Option.isSome_iff_exists.mp hvalue
  obtain ⟨⟨q, h'⟩, hrun, hq⟩ := Option.bind_eq_some_iff.mp hp
  obtain rfl : q = some p := hq
  exact ⟨p, h', hrun, exec_page_list_iff _ _ _ _ p h' hrun⟩

/-- With the second segment in the page number 32, place 32 of the array is assigned to. -/
theorem exec_page_list_overflows : ¬ ∀ (h : Kheap) (path buf total : Nat) (p : NewProgram)
    (h' : Kheap), prepare h path buf total = some (some p, h') → p.Fits h'.mem := by
  intro hclaim
  have hvalue : ((prepare (spreadHeap 0x20000) 0x20077 0x20000 119).bind Prod.fst).map
      (fun p => decide (32 ∈ p.allPages.assigned)) = some true := by
    decide +kernel
  obtain ⟨p, hp, hmem⟩ := Option.map_eq_some_iff.mp hvalue
  obtain ⟨⟨q, h'⟩, hrun, hq⟩ := Option.bind_eq_some_iff.mp hp
  obtain rfl : q = some p := hq
  have hinside := (hclaim _ _ _ _ p h' hrun).inside 32 (of_decide_eq_true hmem)
  exact absurd hinside (by decide)

end Exec

end Kumo
