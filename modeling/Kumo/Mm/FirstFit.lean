import Mathlib.Order.Bounds.Basic
import Kumo.Mm.PmmRuns

/-!
# First fit

Which run a contiguous allocation takes. `scanRun` keeps the length and the start
of the free run that ends before its loop variable, so a run it has not passed
starts no earlier than the open one: `scanRun_least` carries this along the loop.
The early exit compares the request with a counter over both zones. It is sound
because a run of free pages in one zone is counted there too.
-/

namespace Kumo

namespace Pmm

variable {p : Pmm} {lo hi count : Nat}

/-! ## Completeness of the scan -/

/-- A run of free pages that begins no earlier than the open run is not missed: the scan stops at
it or before it. -/
theorem scanRun_least {steps i consecutive startIdx s : Nat} (hopen : consecutive < count)
    (hstart : consecutive ≠ 0 → startIdx + consecutive = i) (hs : i ≤ s + consecutive)
    (hend : s + count ≤ i + steps)
    (hfree : ∀ j, s ≤ j → j < s + count → p.used j = false) :
    ∃ r, scanRun p count steps i consecutive startIdx = some r ∧ r ≤ s := by
  induction steps generalizing i consecutive startIdx with
  | zero => omega
  | succ steps ih =>
      rw [scanRun]
      by_cases hused : p.used i = true
      · -- the used page lies before the run, which is then still ahead
        have hafter : i < s := by
          by_contra hle
          have := hfree i (by omega) (by omega)
          rw [hused] at this
          cases this
        rw [if_pos hused]
        exact ih (by omega) (by simp) (by omega) (by omega)
      · rw [if_neg hused]
        have hnext : (if consecutive = 0 then i else startIdx) + (consecutive + 1) = i + 1 := by
          split
          · omega
          · next hc =>
              have := hstart hc
              omega
        by_cases hcount : consecutive + 1 = count
        · refine ⟨_, if_pos hcount, ?_⟩
          omega
        · have hrest := ih (show consecutive + 1 < count by omega) (fun _ => hnext) (by omega)
            (by omega)
          dsimp only
          rw [if_neg hcount]
          exact hrest

/-- The counter covers every run of free pages. -/
theorem Wf.count_le_freePages (h : p.Wf) {start : Nat} (hgrant : p.Grantable lo hi count start)
    (hhi : hi ≤ p.totalPages) : count ≤ p.freePages := by
  have hup := hgrant.upper
  have hdec := (h.markRun (by omega) hgrant.free).2
  omega

/-! ## What the two functions return -/

/-- The result of a first-fit request for `count` pages with indices in `[lo, hi)`: the lowest run
of free pages, of which exactly those are now used, or 0 when there is no such run. -/
inductive FirstFit (p : Pmm) (lo hi count : Nat) : Nat × Pmm → Prop where
  | refused : (∀ start, ¬ p.Grantable lo hi count start) → FirstFit p lo hi count (0, p)
  | granted (start : Nat) (after : Pmm) :
      IsLeast {s | p.Grantable lo hi count s} start →
      (∀ i, after.used i = true ↔ (start ≤ i ∧ i < start + count) ∨ p.used i = true) →
      after.totalPages = p.totalPages → after.freePages + count = p.freePages →
      FirstFit p lo hi count (managedBase + start * pageSize, after)

theorem Wf.allocRunIn_firstFit (h : p.Wf) (hpos : 0 < count) (hhi : hi ≤ p.totalPages) :
    p.FirstFit lo hi count (p.allocRunIn lo hi count) := by
  -- every run the zone has is one that the scan does not pass
  have hleast : ∀ s, p.Grantable lo hi count s →
      ∃ r, scanRun p count (hi - lo) lo 0 0 = some r ∧ r ≤ s := by
    intro s hs
    have hlo := hs.lower
    have hup := hs.upper
    exact scanRun_least hpos (by simp) (by omega) (by omega) hs.free
  rw [allocRunIn]
  by_cases hexit : count = 0 ∨ p.freePages < count
  · rw [if_pos hexit]
    refine .refused fun s hs => ?_
    have := h.count_le_freePages hs hhi
    omega
  · rw [if_neg hexit]
    cases hscan : p.scanRun count (hi - lo) lo 0 0 with
    | none =>
        refine .refused fun s hs => ?_
        obtain ⟨r, hr, _⟩ := hleast s hs
        rw [hscan] at hr
        cases hr
    | some start =>
        obtain ⟨hlo, hup, hfree⟩ := scanRun_some (Nat.le_refl lo) (by simp) (by simp) hscan
        have hgrant : p.Grantable lo hi count start := ⟨hlo, by omega, hfree⟩
        have hend : start + count ≤ p.totalPages := by
          have := hgrant.upper
          omega
        show p.FirstFit lo hi count (pageAddr start, p.markRun start count)
        rw [h.pageAddr_eq (by omega) (hfree start (Nat.le_refl _) (by omega))]
        refine .granted start _ ⟨hgrant, fun s hs => ?_⟩ (fun i => ?_)
          (totalPages_markRun p start count) (h.markRun hend hfree).2
        · obtain ⟨r, hr, hle⟩ := hleast s hs
          obtain rfl := Option.some.inj (hscan.symm.trans hr)
          exact hle
        · rw [used_markRun, Bool.or_eq_true, decide_eq_true_iff]

theorem Wf.contiguous_firstFit (h : p.Wf) (hpos : 0 < count) :
    p.FirstFit 0 (min kernelEndIdx p.totalPages) count (p.pmmAllocContiguousPages count) :=
  h.allocRunIn_firstFit hpos (Nat.min_le_right _ _)

/-- Both contiguous allocators return the lowest run of `count` free pages of their zone and mark
exactly its pages, and return 0 only when their zone has no such run. -/
theorem contiguous_first_fit (p : Pmm) (h : p.Wf) (count : Nat) (hpos : 0 < count) :
    p.FirstFit 0 (min kernelEndIdx p.totalPages) count (p.pmmAllocContiguousPages count) ∧
      p.FirstFit userStartIdx p.totalPages count (p.pmmAllocContiguousUserPages count) :=
  ⟨h.contiguous_firstFit hpos, h.allocRunIn_firstFit hpos (Nat.le_refl _)⟩

/-- Two adjacent pages of either zone, on the concrete state. -/
theorem contiguous_first_fit_sample :
    sample.FirstFit 0 (min kernelEndIdx sample.totalPages) 2 (sample.pmmAllocContiguousPages 2) ∧
      sample.FirstFit userStartIdx sample.totalPages 2 (sample.pmmAllocContiguousUserPages 2) :=
  contiguous_first_fit sample sample_wf 2 (by decide)

end Pmm

end Kumo
