import Kumo.Mm.Pmm

/-!
# Runs of the physical memory manager

Any sequence of allocation calls from a well-formed state. `serve` logs each call
with its result and the states around it, and `pmm_runs_safe` says what the log
of every sequence satisfies: the runs handed out never overlap, they were free at
the start, they stay inside their zone, a refused call changes nothing, and the
free counter stays exact.
-/

namespace Kumo

/-- A call of one of the four allocation functions. -/
inductive PmmCall where
  | page
  | contiguous (count : Nat)
  | userPage
  | contiguousUser (count : Nat)
  deriving DecidableEq, Repr

namespace PmmCall

/-- The number of pages the call asks for. -/
def count : PmmCall → Nat
  | page => 1
  | contiguous n => n
  | userPage => 1
  | contiguousUser n => n

/-- The call allocates from the user zone. -/
def isUser : PmmCall → Bool
  | page => false
  | contiguous _ => false
  | userPage => true
  | contiguousUser _ => true

end PmmCall

namespace Pmm

/-- Execute one call. -/
def call (p : Pmm) : PmmCall → Nat × Pmm
  | .page => p.pmmAllocPage
  | .contiguous n => p.pmmAllocContiguousPages n
  | .userPage => p.pmmAllocUserPage
  | .contiguousUser n => p.pmmAllocContiguousUserPages n

/-- One executed call, with its result and the states before and after it. -/
structure Served where
  call : PmmCall
  result : Nat
  before : Pmm
  after : Pmm

/-- Execute the calls in order and log each of them. -/
def serve : Pmm → List PmmCall → List Served
  | _, [] => []
  | p, c :: cs => ⟨c, (p.call c).1, p, (p.call c).2⟩ :: serve (p.call c).2 cs

/-- The index of a page in the bitmap. -/
def pageIndex (page : Nat) : Nat := (page - managedBase) / pageSize

/-- A page of the kernel zone that somebody took. -/
structure KernelPage (p : Pmm) (page : Nat) : Prop where
  aligned : page % pageSize = 0
  lower : managedBase ≤ page
  upper : page + pageSize ≤ userMemStart
  taken : p.used (pageIndex page) = true

theorem KernelPage.mono {p p' : Pmm} {page : Nat} (h : p.KernelPage page)
    (hused : ∀ i, p.used i = true → p'.used i = true) : p'.KernelPage page :=
  ⟨h.aligned, h.lower, h.upper, hused _ h.taken⟩

/-- Byte address `a` lies in a page that is free. -/
def FreeAt (p : Pmm) (a : Nat) : Prop :=
  managedBase ≤ a ∧ pageIndex a < p.totalPages ∧ p.used (pageIndex a) = false

/-- The call handed out the page that holds byte address `a`. -/
def Served.Owns (s : Served) (a : Nat) : Prop :=
  s.result ≠ 0 ∧ s.result ≤ a ∧ a < s.result + s.call.count * pageSize

/-- What the log of a run from state `p` satisfies. -/
structure RunSafe (p : Pmm) (log : List Served) : Prop where
  /-- No byte is handed out twice. -/
  disjoint : log.Pairwise fun s t => ∀ a, s.Owns a → ¬ t.Owns a
  /-- Only pages that were free in the starting state are handed out. -/
  fresh : ∀ s ∈ log, ∀ a, s.Owns a → p.FreeAt a
  /-- Kernel runs lie in `[0x100000, 0x800000)`. -/
  kernelZone : ∀ s ∈ log, s.call.isUser = false → s.result ≠ 0 →
    0x100000 ≤ s.result ∧ s.result + s.call.count * 4096 ≤ 0x800000
  /-- User runs lie in `[0x800000, 0x100000 + 4096 * total_pages)`. -/
  userZone : ∀ s ∈ log, s.call.isUser = true → s.result ≠ 0 →
    0x800000 ≤ s.result ∧ s.result + s.call.count * 4096 ≤ 0x100000 + 4096 * p.totalPages
  /-- A call that returns 0 changes nothing. -/
  refused : ∀ s ∈ log, s.result = 0 → s.after = s.before
  /-- The free counter is the number of clear bits after every call. -/
  exact : ∀ s ∈ log, s.after.freePages = Bitmap.clearBelow s.after.bitmap s.after.totalPages
  /-- A successful call takes exactly its pages off the counter, which never underflows. -/
  counted : ∀ s ∈ log, s.result ≠ 0 → s.after.freePages + s.call.count = s.before.freePages

/-- The index bounds of a call's zone. -/
def zone (p : Pmm) (c : PmmCall) : Nat × Nat :=
  if c.isUser then (userStartIdx, p.totalPages) else (0, min kernelEndIdx p.totalPages)

theorem call_outcome (p : Pmm) (c : PmmCall) :
    p.Outcome (p.zone c).1 (p.zone c).2 c.count (p.call c) := by
  cases c with
  | page => exact allocPageIn_outcome p 0 (min kernelEndIdx p.totalPages)
  | contiguous n => exact allocRunIn_outcome p 0 (min kernelEndIdx p.totalPages) n
  | userPage => exact allocPageIn_outcome p userStartIdx p.totalPages
  | contiguousUser n => exact allocRunIn_outcome p userStartIdx p.totalPages n

theorem zone_le_totalPages (p : Pmm) (c : PmmCall) : (p.zone c).2 ≤ p.totalPages := by
  unfold zone
  split
  · exact Nat.le_refl _
  · exact Nat.min_le_right _ _

/-- Everything one call does to a well-formed state. -/
theorem Wf.call_cases {p : Pmm} (h : p.Wf) (c : PmmCall) :
    p.call c = (0, p) ∨
    ∃ start, 0 < c.count ∧ p.Grantable (p.zone c).1 (p.zone c).2 c.count start ∧
      (p.call c).1 = managedBase + start * pageSize ∧ (p.call c).2 = p.markRun start c.count := by
  have hout := p.call_outcome c
  generalize hr : p.call c = r at hout
  cases hout with
  | refused => exact .inl rfl
  | granted start hpos hgrant =>
      have hle := p.zone_le_totalPages c
      have hup := hgrant.upper
      refine .inr ⟨start, hpos, hgrant, ?_, rfl⟩
      exact h.pageAddr_eq (by omega) (hgrant.free start (Nat.le_refl _) (by omega))

theorem Wf.call {p : Pmm} (h : p.Wf) (c : PmmCall) : (p.call c).2.Wf := by
  rcases h.call_cases c with heq | ⟨start, _, hgrant, _, hafter⟩
  · rw [heq]
    exact h
  · rw [hafter]
    have := p.zone_le_totalPages c
    exact (h.markRun (by have := hgrant.upper; omega) hgrant.free).1

@[simp] theorem totalPages_call (p : Pmm) (c : PmmCall) :
    (p.call c).2.totalPages = p.totalPages := by
  have hout := p.call_outcome c
  generalize p.call c = r at hout
  cases hout <;> simp

/-- No call frees a page. -/
theorem used_call {p : Pmm} (c : PmmCall) {i : Nat} (hi : p.used i = true) :
    (p.call c).2.used i = true := by
  have hout := p.call_outcome c
  generalize p.call c = r at hout
  cases hout with
  | refused => exact hi
  | granted => simp [hi]

/-- What a successful call for kernel pages hands out. -/
theorem Wf.kernel_pages {p : Pmm} (h : p.Wf) {c : PmmCall} (hkernel : c.isUser = false)
    (hne : (p.call c).1 ≠ 0) {i : Nat} (hi : i < c.count) :
    (p.call c).2.KernelPage ((p.call c).1 + i * pageSize) ∧
      p.used (pageIndex ((p.call c).1 + i * pageSize)) = false := by
  rcases h.call_cases c with heq | ⟨start, _, hgrant, hres, hafter⟩
  · exact absurd (congrArg Prod.fst heq) hne
  · have hup := hgrant.upper
    simp only [zone, hkernel, Bool.false_eq_true, if_false, kernelEndIdx] at hup
    have hindex : pageIndex (managedBase + start * pageSize + i * pageSize) = start + i := by
      simp only [pageIndex, managedBase, pageSize]
      omega
    rw [hres]
    refine ⟨⟨?_, ?_, ?_, ?_⟩, ?_⟩
    · simp only [managedBase, pageSize]
      omega
    · omega
    · simp only [managedBase, pageSize, userMemStart] at *
      omega
    · rw [hindex, hafter, used_markRun, decide_eq_true ⟨by omega, by omega⟩, Bool.true_or]
    · rw [hindex]
      exact hgrant.free _ (by omega) (by omega)

/-- What a successful `pmm_alloc_user_page` hands out: a free page of the user zone. -/
theorem Wf.user_page {p : Pmm} (h : p.Wf) (hne : p.pmmAllocUserPage.1 ≠ 0) :
    p.pmmAllocUserPage.1 % pageSize = 0 ∧ userMemStart ≤ p.pmmAllocUserPage.1 ∧
      p.pmmAllocUserPage.1 + pageSize ≤ managedBase + p.totalPages * pageSize ∧
      p.used (pageIndex p.pmmAllocUserPage.1) = false ∧
      p.pmmAllocUserPage.2.used (pageIndex p.pmmAllocUserPage.1) = true := by
  rcases h.call_cases .userPage with heq | ⟨start, _, hgrant, hres, hafter⟩
  · exact absurd (congrArg Prod.fst heq) hne
  · have hres : p.pmmAllocUserPage.1 = managedBase + start * pageSize := hres
    have hafter : p.pmmAllocUserPage.2 = p.markRun start 1 := hafter
    have hlow := hgrant.lower
    have hup := hgrant.upper
    simp only [zone, PmmCall.isUser, if_true, PmmCall.count, userStartIdx, kernelEndIdx] at hlow hup
    have hindex : pageIndex (managedBase + start * pageSize) = start := by
      simp only [pageIndex, managedBase, pageSize]
      omega
    rw [hres, hindex, hafter]
    refine ⟨?_, ?_, ?_, hgrant.free start (Nat.le_refl _) (by simp [PmmCall.count]), ?_⟩
    · simp only [managedBase, pageSize]
      omega
    · simp only [managedBase, pageSize, userMemStart] at *
      omega
    · simp only [managedBase, pageSize] at *
      omega
    · rw [used_markRun, decide_eq_true ⟨by omega, by omega⟩, Bool.true_or]

/-- The page of a byte in a granted run is one of the run's pages. -/
theorem page_of_granted {start count a : Nat} (hlo : managedBase + start * pageSize ≤ a)
    (hhi : a < managedBase + start * pageSize + count * pageSize) :
    managedBase ≤ a ∧ start ≤ pageIndex a ∧ pageIndex a < start + count := by
  simp only [pageIndex, managedBase, pageSize] at *
  omega

/-- One call owns only bytes of pages that were free before it and are used after it. -/
theorem Wf.owns_call {p : Pmm} (h : p.Wf) {c : PmmCall} {a : Nat}
    (hown : Served.Owns ⟨c, (p.call c).1, p, (p.call c).2⟩ a) :
    p.FreeAt a ∧ ¬ (p.call c).2.FreeAt a := by
  obtain ⟨hne, hlo, hhi⟩ := hown
  rcases h.call_cases c with heq | ⟨start, _, hgrant, hres, hafter⟩
  · exact absurd (congrArg Prod.fst heq) hne
  · simp only [hres] at hlo hhi
    obtain ⟨hbase, hge, hlt⟩ := page_of_granted hlo hhi
    have hle := p.zone_le_totalPages c
    have hup := hgrant.upper
    refine ⟨⟨hbase, by omega, hgrant.free _ hge hlt⟩, fun hfree => ?_⟩
    have hclear := hfree.2.2
    rw [hafter, used_markRun, decide_eq_true ⟨hge, hlt⟩] at hclear
    simp at hclear

/-- A page that is free after a call was free before it. -/
theorem FreeAt.of_call {p : Pmm} {c : PmmCall} {a : Nat} (h : (p.call c).2.FreeAt a) :
    p.FreeAt a := by
  obtain ⟨hbase, hlt, hfree⟩ := h
  rw [totalPages_call] at hlt
  refine ⟨hbase, hlt, ?_⟩
  cases hu : p.used (pageIndex a) with
  | false => rfl
  | true => rw [used_call c hu] at hfree; exact hfree

/-- Every sequence of allocation calls from a well-formed state hands out disjoint runs of
initially free pages, each inside its zone, and keeps the free counter exact. -/
theorem pmm_runs_safe (p : Pmm) (h : p.Wf) (calls : List PmmCall) :
    p.RunSafe (p.serve calls) := by
  induction calls generalizing p with
  | nil => exact ⟨.nil, by simp [serve], by simp [serve], by simp [serve], by simp [serve],
      by simp [serve], by simp [serve]⟩
  | cons c cs ih =>
      have hrest := ih (p.call c).2 (h.call c)
      have hcases := h.call_cases c
      have hle := p.zone_le_totalPages c
      constructor
      case disjoint =>
        refine .cons (fun t ht a hown hother => ?_) hrest.disjoint
        exact (h.owns_call hown).2 (hrest.fresh t ht a hother)
      case fresh =>
        rintro s hs a hown
        rcases List.mem_cons.mp hs with rfl | hs
        · exact (h.owns_call hown).1
        · exact (hrest.fresh s hs a hown).of_call
      case kernelZone =>
        rintro s hs hkernel hne
        rcases List.mem_cons.mp hs with rfl | hs
        · rcases hcases with heq | ⟨start, _, hgrant, hres, _⟩
          · exact absurd (congrArg Prod.fst heq) hne
          · have hup := hgrant.upper
            simp only [zone, hkernel, Bool.false_eq_true, if_false] at hup
            simp only [hres]
            simp only [managedBase, pageSize, kernelEndIdx, userMemStart] at *
            omega
        · exact hrest.kernelZone s hs hkernel hne
      case userZone =>
        rintro s hs huser hne
        rcases List.mem_cons.mp hs with rfl | hs
        · rcases hcases with heq | ⟨start, _, hgrant, hres, _⟩
          · exact absurd (congrArg Prod.fst heq) hne
          · have hlow := hgrant.lower
            have hup := hgrant.upper
            simp only [zone, huser, if_true] at hlow hup
            simp only [hres]
            simp only [managedBase, pageSize, userStartIdx, kernelEndIdx, userMemStart] at *
            omega
        · rw [← totalPages_call p c]
          exact hrest.userZone s hs huser hne
      case refused =>
        rintro s hs hzero
        rcases List.mem_cons.mp hs with rfl | hs
        · rcases hcases with heq | ⟨start, _, _, hres, _⟩
          · exact congrArg Prod.snd heq
          · simp only [hres, managedBase] at hzero
            omega
        · exact hrest.refused s hs hzero
      case exact =>
        rintro s hs
        rcases List.mem_cons.mp hs with rfl | hs
        · exact (h.call c).exact
        · exact hrest.exact s hs
      case counted =>
        rintro s hs hne
        rcases List.mem_cons.mp hs with rfl | hs
        · rcases hcases with heq | ⟨start, _, hgrant, _, hafter⟩
          · exact absurd (congrArg Prod.fst heq) hne
          · have hup := hgrant.upper
            simp only [hafter]
            exact (h.markRun (by omega) hgrant.free).2
        · exact hrest.counted s hs hne

/-- A state with 3 free kernel pages and 2 free user pages, used as a concrete start. -/
def sample : Pmm where
  bitmap := fun n => if n = 0 then 0b11010011#8 else if n = 224 then 0b11111100#8 else 0xFF#8
  totalPages := 1800
  freePages := 5

theorem sample_wf : sample.Wf := by
  refine ⟨by decide +kernel, ?_⟩
  intro i hi _
  simp only [sample, managedBase, pageSize] at *
  omega

/-- The run statement applied to a sequence that exhausts both zones. -/
theorem pmm_runs_safe_sample :
    sample.RunSafe (sample.serve [.contiguous 2, .userPage, .page, .contiguousUser 2, .page]) :=
  pmm_runs_safe sample sample_wf _

end Pmm

end Kumo
