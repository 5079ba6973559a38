import Kumo.Mm.PmmRuns

/-!
# When the kernel zone runs out

`pmm_alloc_page` fails just when no page of the kernel zone is free, and takes one off
their number otherwise. The two zones do not touch each other: what is free in one does
not depend on calls for the other.
-/

namespace Kumo

namespace Pmm

variable {p p' : Pmm}

/-- The number of free pages in the kernel zone. -/
def kernelFree (p : Pmm) : Nat := Bitmap.clearBelow p.bitmap (min kernelEndIdx p.totalPages)

/-- `count` calls of `pmm_alloc_page`. -/
def takePages (p : Pmm) : Nat → Pmm
  | 0 => p
  | count + 1 => takePages p.pmmAllocPage.2 count

/-! ## The scan -/

theorem scanPage_eq_none (p : Pmm) (steps i : Nat) :
    scanPage p steps i = none ↔ ∀ j, i ≤ j → j < i + steps → p.used j = true := by
  induction steps generalizing i with
  | zero => exact iff_of_true rfl fun j h1 h2 => absurd h2 (by omega)
  | succ steps ih =>
      rw [scanPage]
      by_cases hused : p.used i = true
      · rw [if_pos hused, ih]
        constructor
        · intro h j h1 h2
          rcases Nat.eq_or_lt_of_le h1 with rfl | hlt
          · exact hused
          · exact h j hlt (by omega)
        · exact fun h j h1 h2 => h j (by omega) (by omega)
      · rw [if_neg hused]
        exact iff_of_false (by simp) fun h => hused (h i (Nat.le_refl i) (by omega))

/-- The scan reads the bits in its range only. -/
theorem scanPage_congr {steps i : Nat} (h : ∀ j, i ≤ j → j < i + steps → p'.used j = p.used j) :
    scanPage p' steps i = scanPage p steps i := by
  induction steps generalizing i with
  | zero => rfl
  | succ steps ih =>
      rw [scanPage, scanPage, h i (Nat.le_refl i) (by omega),
        ih fun j h1 h2 => h j (by omega) (by omega)]

/-! ## Pages of the kernel zone -/

/-- No page of the kernel zone has address 0. -/
theorem pageAddr_ne_zero {i : Nat} (hi : i < kernelEndIdx) : pageAddr i ≠ 0 := by
  simp only [pageAddr, kernelEndIdx, userMemStart, managedBase, pageSize] at *
  omega

/-- `pmm_alloc_page` fails when no page of the zone is free. -/
theorem pmmAllocPage_eq_zero (p : Pmm) : p.pmmAllocPage.1 = 0 ↔ p.kernelFree = 0 := by
  rw [kernelFree, Bitmap.clearBelow_eq_zero, pmmAllocPage, allocPageIn]
  have hscan := scanPage_eq_none p (min kernelEndIdx p.totalPages - 0) 0
  cases h : p.scanPage (min kernelEndIdx p.totalPages - 0) 0 with
  | none =>
      rw [h] at hscan
      exact iff_of_true rfl fun i hi => hscan.mp rfl i (Nat.zero_le i) (by omega)
  | some r =>
      obtain ⟨_, hr, hfree⟩ := scanPage_some h
      refine iff_of_false (pageAddr_ne_zero (by omega)) fun hall => ?_
      have hset : p.used r = true := hall r (by omega)
      rw [hfree] at hset
      cases hset

/-- Marking a run of free pages of the kernel zone. -/
theorem kernelFree_markRun {start count : Nat} (hend : start + count ≤ min kernelEndIdx p.totalPages)
    (hfree : ∀ j, start ≤ j → j < start + count → p.used j = false) :
    (p.markRun start count).kernelFree + count = p.kernelFree := by
  induction count generalizing p start with
  | zero => rfl
  | succ count ih =>
      have hlt : start < min kernelEndIdx p.totalPages := by omega
      have hfirst : (p.markUsed start).kernelFree + 1 = p.kernelFree :=
        Bitmap.clearBelow_mark hlt (hfree start (Nat.le_refl _) (by omega))
      have hnext : ∀ j, start + 1 ≤ j → j < start + 1 + count →
          (p.markUsed start).used j = false := by
        intro j h1 h2
        rw [used_markUsed, hfree j (by omega) (by omega)]
        simp [show j ≠ start by omega]
      have hupper : start + 1 + count ≤ min kernelEndIdx (p.markUsed start).totalPages := by
        rw [totalPages_markUsed]
        omega
      have hrest := ih hupper hnext
      rw [markRun]
      omega

/-- A call for kernel pages that is granted takes its pages off the free ones of the zone. -/
theorem kernelFree_call {c : PmmCall} (hkernel : c.isUser = false) (hne : (p.call c).1 ≠ 0) :
    (p.call c).2.kernelFree + c.count = p.kernelFree := by
  have hout := p.call_outcome c
  simp only [zone, hkernel, Bool.false_eq_true, if_false] at hout
  generalize hr : p.call c = r at hout hne
  cases hout with
  | refused => exact absurd rfl hne
  | granted start _ hgrant => exact kernelFree_markRun hgrant.upper hgrant.free

/-- A call that is refused changes nothing. -/
theorem call_refused {c : PmmCall} (hwf : p.Wf) (hzero : (p.call c).1 = 0) : (p.call c).2 = p := by
  rcases hwf.call_cases c with heq | ⟨start, _, _, hres, _⟩
  · rw [heq]
  · rw [hres] at hzero
    simp only [managedBase] at hzero
    omega

/-- `pmm_alloc_page` takes one free page of the kernel zone, if there is one. -/
theorem kernelFree_pmmAllocPage (hwf : p.Wf) : p.pmmAllocPage.2.kernelFree = p.kernelFree - 1 := by
  by_cases hzero : p.pmmAllocPage.1 = 0
  · have hsame : p.pmmAllocPage.2 = p := call_refused (c := .page) hwf hzero
    rw [hsame, (p.pmmAllocPage_eq_zero).mp hzero]
  · have hcount := kernelFree_call (c := .page) rfl hzero
    simp only [call, PmmCall.count] at hcount
    omega

/-- Calls for one zone leave the bits of the other alone. -/
theorem used_call_of_zone {c : PmmCall} {i : Nat} (hi : i < (p.zone c).1 ∨ (p.zone c).2 ≤ i) :
    (p.call c).2.used i = p.used i := by
  have hout := p.call_outcome c
  generalize p.call c = r at hout
  cases hout with
  | refused => rfl
  | granted start _ hgrant =>
      have hlo := hgrant.lower
      have hup := hgrant.upper
      rw [used_markRun, decide_eq_false (by omega), Bool.false_or]

/-- Calls for user pages leave the free pages of the kernel zone alone. -/
theorem kernelFree_user {c : PmmCall} (huser : c.isUser = true) :
    (p.call c).2.kernelFree = p.kernelFree := by
  rw [kernelFree, totalPages_call]
  refine Bitmap.clearBelow_congr fun i hi => used_call_of_zone (.inl ?_)
  simp only [zone, huser, if_true, userStartIdx]
  omega

/-- Calls for kernel pages do not change which user page is next. -/
theorem pmmAllocUserPage_kernel {c : PmmCall} (hkernel : c.isUser = false) :
    (p.call c).2.pmmAllocUserPage.1 = p.pmmAllocUserPage.1 := by
  have hscan : scanPage (p.call c).2 ((p.call c).2.totalPages - userStartIdx) userStartIdx =
      scanPage p (p.totalPages - userStartIdx) userStartIdx := by
    rw [totalPages_call]
    refine scanPage_congr fun j hj _ => used_call_of_zone (.inr ?_)
    simp only [zone, hkernel, Bool.false_eq_true, if_false]
    exact Nat.le_trans (Nat.min_le_left _ _) hj
  rw [pmmAllocUserPage, pmmAllocUserPage, allocPageIn, allocPageIn, hscan]
  cases scanPage p (p.totalPages - userStartIdx) userStartIdx <;> rfl

end Pmm

end Kumo
