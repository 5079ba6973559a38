import Kumo.Arch.Paging

/-!
# Address spaces

What a directory in memory means. `view` is the processor's walk: the physical page of
an address and whether user mode may touch it. `KernelDir` is an identity mapping
without user pages, and `TaskDir` a copy of it in which some page tables are private
and the pages of a list are open to user mode. `TaskDir.view_eq` says what that
amounts to: the kernel's view, with exactly those pages granted.

The tables of a directory lie in a set of pages. What a directory means does not
change while the bytes of those pages do not.
-/

namespace Kumo

open Memory

/-- A set of page addresses. -/
structure PageSet where
  has : Nat → Prop
  aligned : ∀ q, has q → q % pageSize = 0
  word : ∀ q, has q → q + pageSize ≤ 2 ^ 32

/-- The bytes of the pages of a set are the same in two memories. -/
def PageSet.Same (R : PageSet) (m m' : Memory) : Prop :=
  ∀ page x, R.has page → page ≤ x → x < page + pageSize → m' x = m x

/-- The address of page `j` in the window of table `i`. -/
def pageAt (i j : Nat) : Nat := i * ptCoverage + j * pageSize

/-- The physical page that holds a virtual address, and whether user mode may access it. -/
def view (m : Memory) (pd vaddr : Nat) : Option (Nat × Bool) :=
  if present (pdeOf m pd vaddr) && present (pteOf m pd vaddr) then
    some (frameOf (pteOf m pd vaddr), user (pdeOf m pd vaddr) && user (pteOf m pd vaddr))
  else none

/-- A page that is open to user mode. -/
def UserPage (m : Memory) (pd vaddr : Nat) : Prop :=
  ∃ frame, view m pd vaddr = some (frame, true)

/-- The kernel directory `K`: every table entry maps a page to itself, for the supervisor only. -/
structure KernelDir (R : PageSet) (m : Memory) (K : Nat) : Prop where
  dir : R.has K
  table : ∀ i, i < tableEntries → m.entry K i = 0 ∨ ∃ q, R.has q ∧ m.entry K i = q + pageDefault
  identity : ∀ i j, i < tableEntries → j < tableEntries → m.entry K i ≠ 0 →
    present (m.entry (frameOf (m.entry K i)) j) = true →
    m.entry (frameOf (m.entry K i)) j = pageAt i j + pageDefault
  apart : ∀ i, i < tableEntries → m.entry K i ≠ 0 → frameOf (m.entry K i) ≠ K
  inj : ∀ i i', i < tableEntries → i' < tableEntries → m.entry K i ≠ 0 → m.entry K i' ≠ 0 →
    frameOf (m.entry K i) = frameOf (m.entry K i') → i = i'

/-- The directory `D` of a task with user pages `A`. Table `i` is shared with the kernel, or the
private copy `priv i`. -/
structure TaskDir (R : PageSet) (m : Memory) (K D : Nat) (A : List Nat) (priv : Nat → Option Nat) :
    Prop where
  dir : R.has D
  pages : ∀ a ∈ A, a % pageSize = 0 ∧ a < 2 ^ 32
  shared : ∀ i, i < tableEntries → priv i = none →
    m.entry D i = m.entry K i ∧ ∀ a ∈ A, pdIndex a ≠ i
  own : ∀ i q, i < tableEntries → priv i = some q → R.has q ∧ m.entry K i ≠ 0 ∧
    (m.entry D i = q + (pageDefault + pageUser) ∨
      (m.entry D i = q + pageDefault ∧ ∀ a ∈ A, pdIndex a ≠ i))
  entries : ∀ i q j, i < tableEntries → priv i = some q → j < tableEntries →
    m.entry q j = if pageAt i j ∈ A then pageAt i j + (pageDefault + pageUser)
      else m.entry (frameOf (m.entry K i)) j
  fresh : ∀ i q, i < tableEntries → priv i = some q → q ≠ D ∧ q ≠ frameOf (m.entry K i)
  inj : ∀ i i' q, i < tableEntries → i' < tableEntries → priv i = some q → priv i' = some q → i = i'

/-! ## Addresses and entries -/

/-- The walk of the processor returns the page of the view. -/
theorem translate_eq_view (m : Memory) (pd v : Nat) :
    translate m pd v = (view m pd v).map fun r => r.1 + v % pageSize := by
  unfold translate view
  split <;> rfl

theorem pageAt_index (v : Nat) : pageAt (pdIndex v) (ptIndex v) = frameOf v := by
  simp only [pageAt, pdIndex, ptIndex, frameOf, ptCoverage, pageSize, tableEntries]
  omega

theorem pageAt_eq {v i j : Nat} (hv : v % pageSize = 0) (hj : j < tableEntries) :
    pageAt i j = v ↔ i = pdIndex v ∧ j = ptIndex v := by
  simp only [pageAt, pdIndex, ptIndex, ptCoverage, pageSize, tableEntries] at *
  omega

theorem pdIndex_lt {v : Nat} (hv : v < 2 ^ 32) : pdIndex v < tableEntries := by
  simp only [pdIndex, ptCoverage, tableEntries]
  omega

theorem ptIndex_lt (v : Nat) : ptIndex v < tableEntries := Nat.mod_lt _ (by decide)

/-- An entry that points to an aligned frame with some flags. -/
theorem frameOf_add {q k : Nat} (hq : q % pageSize = 0) (hk : k < pageSize) :
    frameOf (q + k) = q := by
  simp only [frameOf, pageSize] at *
  omega

theorem present_default {q : Nat} (hq : q % pageSize = 0) : present (q + pageDefault) = true := by
  rw [present_iff]
  simp only [pageDefault, pageSize] at *
  omega

theorem present_user {q : Nat} (hq : q % pageSize = 0) :
    present (q + (pageDefault + pageUser)) = true := by
  rw [present_iff]
  simp only [pageDefault, pageUser, pageSize] at *
  omega

theorem user_default {q : Nat} (hq : q % pageSize = 0) : user (q + pageDefault) = false := by
  rw [← Bool.not_eq_true, user_iff]
  simp only [pageDefault, pageSize] at *
  omega

theorem user_user {q : Nat} (hq : q % pageSize = 0) :
    user (q + (pageDefault + pageUser)) = true := by
  rw [user_iff]
  simp only [pageDefault, pageUser, pageSize] at *
  omega

theorem present_zero : present 0 = false := rfl

theorem pageAt_aligned (i j : Nat) : pageAt i j % pageSize = 0 := by
  simp only [pageAt, ptCoverage, pageSize]
  omega

/-- An entry of a table in the set is the same in two memories that agree on the set. -/
theorem PageSet.Same.entry {R : PageSet} {m m' : Memory} (h : R.Same m m') {q i : Nat}
    (hq : R.has q) (hi : i < tableEntries) : m'.entry q i = m.entry q i := by
  refine entry_congr fun x h1 h2 => h q x hq ?_ ?_
  · omega
  · simp only [tableEntries, pageSize] at *
    omega

theorem PageSet.Same.symm {R : PageSet} {m m' : Memory} (h : R.Same m m') : R.Same m' m :=
  fun page x hp h1 h2 => (h page x hp h1 h2).symm

section Directories

variable {R R' : PageSet} {m m' : Memory} {K D : Nat} {A : List Nat} {priv : Nat → Option Nat}

/-- A present entry of the kernel directory points to a table of the set. -/
theorem KernelDir.frame (hk : KernelDir R m K) {i : Nat} (hi : i < tableEntries)
    (hne : m.entry K i ≠ 0) : R.has (frameOf (m.entry K i)) ∧
      m.entry K i = frameOf (m.entry K i) + pageDefault := by
  rcases hk.table i hi with h0 | ⟨q, hq, heq⟩
  · exact absurd h0 hne
  · have hframe : frameOf (m.entry K i) = q := by
      rw [heq]
      exact frameOf_add (R.aligned q hq) (by decide)
    rw [hframe]
    exact ⟨hq, heq⟩

/-- The kernel directory means the same in a memory with the same tables. -/
theorem KernelDir.transfer (hk : KernelDir R m K) (hsub : ∀ q, R.has q → R'.has q)
    (hsame : R.Same m m') : KernelDir R' m' K := by
  refine ⟨hsub _ hk.dir, fun i hi => ?_, fun i j hi hj => ?_, fun i hi => ?_,
    fun i i' hi hi' => ?_⟩
  · rw [hsame.entry hk.dir hi]
    rcases hk.table i hi with h0 | ⟨q, hq, heq⟩
    · exact .inl h0
    · exact .inr ⟨q, hsub q hq, heq⟩
  · rw [hsame.entry hk.dir hi]
    intro hne
    rw [hsame.entry (hk.frame hi hne).1 hj]
    exact hk.identity i j hi hj hne
  · rw [hsame.entry hk.dir hi]
    exact hk.apart i hi
  · rw [hsame.entry hk.dir hi, hsame.entry hk.dir hi']
    exact hk.inj i i' hi hi'

theorem TaskDir.transfer (hk : KernelDir R m K) (ht : TaskDir R m K D A priv)
    (hsub : ∀ q, R.has q → R'.has q) (hsame : R.Same m m') : TaskDir R' m' K D A priv := by
  refine ⟨hsub _ ht.dir, ht.pages, fun i hi hp => ?_, fun i q hi hp => ?_, fun i q j hi hp hj => ?_,
    fun i q hi hp => ?_, ht.inj⟩
  · rw [hsame.entry ht.dir hi, hsame.entry hk.dir hi]
    exact ht.shared i hi hp
  · rw [hsame.entry ht.dir hi, hsame.entry hk.dir hi]
    obtain ⟨hq, hne, hd⟩ := ht.own i q hi hp
    exact ⟨hsub q hq, hne, hd⟩
  · obtain ⟨hq, hne, _⟩ := ht.own i q hi hp
    rw [hsame.entry hq hj, hsame.entry hk.dir hi, hsame.entry (hk.frame hi hne).1 hj]
    exact ht.entries i q j hi hp hj
  · rw [hsame.entry hk.dir hi]
    exact ht.fresh i q hi hp

/-! ## What the directories mean -/

/-- The walk through the kernel directory depends only on its tables. -/
theorem KernelDir.view_same (hk : KernelDir R m K) (hsame : R.Same m m') {v : Nat}
    (hv : v < 2 ^ 32) : view m' K v = view m K v := by
  have hi := pdIndex_lt hv
  have hpde : pdeOf m' K v = pdeOf m K v := hsame.entry hk.dir hi
  by_cases hne : m.entry K (pdIndex v) = 0
  · have h0 : pdeOf m K v = 0 := hne
    simp [view, hpde, h0, present_zero]
  · have hpte : pteOf m' K v = pteOf m K v := by
      unfold pteOf
      rw [hpde]
      exact hsame.entry (hk.frame hi hne).1 (ptIndex_lt v)
    unfold view
    rw [hpde, hpte]

/-- The kernel's walk: an address is unmapped, or its page is mapped to itself and closed to user
mode. -/
theorem KernelDir.view_cases (hk : KernelDir R m K) {v : Nat} (hv : v < 2 ^ 32) :
    view m K v = none ∨ view m K v = some (frameOf v, false) := by
  have hi := pdIndex_lt hv
  by_cases hne : m.entry K (pdIndex v) = 0
  · have h0 : pdeOf m K v = 0 := hne
    exact .inl (by simp [view, h0, present_zero])
  · obtain ⟨hq, hpde⟩ := hk.frame hi hne
    have haligned := R.aligned _ hq
    change R.has (frameOf (pdeOf m K v)) at hq
    change pdeOf m K v = frameOf (pdeOf m K v) + pageDefault at hpde
    change frameOf (pdeOf m K v) % pageSize = 0 at haligned
    unfold view
    by_cases hpte : present (pteOf m K v) = true
    · have hid : pteOf m K v = pageAt (pdIndex v) (ptIndex v) + pageDefault :=
        hk.identity _ _ hi (ptIndex_lt v) hne hpte
      have hframe : frameOf (pteOf m K v) = frameOf v := by
        rw [hid, frameOf_add (pageAt_aligned _ _) (by decide), pageAt_index]
      rw [hpde, user_default haligned, present_default haligned, hpte, hframe]
      exact .inr rfl
    · exact .inl (by simp [hpte])

/-- The walk through the directory of a task: the kernel's, with the user pages granted. -/
theorem TaskDir.view_eq (hk : KernelDir R m K) (ht : TaskDir R m K D A priv) {v : Nat}
    (hv : v < 2 ^ 32) :
    view m D v = if frameOf v ∈ A then some (frameOf v, true) else view m K v := by
  have hi := pdIndex_lt hv
  have hj := ptIndex_lt v
  have hindex : ∀ a ∈ A, frameOf v = a → pdIndex a = pdIndex v := by
    rintro a _ rfl
    simp only [pdIndex, frameOf, pageSize, ptCoverage]
    omega
  cases hp : priv (pdIndex v) with
  | none =>
      obtain ⟨heq, hnot⟩ := ht.shared _ hi hp
      have hout : frameOf v ∉ A := fun hmem => hnot _ hmem (hindex _ hmem rfl)
      have hpde : pdeOf m D v = pdeOf m K v := heq
      rw [if_neg hout]
      unfold view pteOf
      rw [hpde]
  | some q =>
      obtain ⟨hq, hne, hd⟩ := ht.own _ q hi hp
      have hqa := R.aligned q hq
      have hent := ht.entries _ q _ hi hp hj
      rw [pageAt_index] at hent
      have hframe : frameOf (pdeOf m D v) = q := by
        rcases hd with hd | ⟨hd, _⟩
        · rw [pdeOf, hd, frameOf_add hqa (by decide)]
        · rw [pdeOf, hd, frameOf_add hqa (by decide)]
      have hpte : pteOf m D v = m.entry q (ptIndex v) := by
        rw [pteOf, hframe]
      have hpres : present (pdeOf m D v) = true := by
        rcases hd with hd | ⟨hd, _⟩
        · rw [pdeOf, hd, present_user hqa]
        · rw [pdeOf, hd, present_default hqa]
      have hva : frameOf v % pageSize = 0 := by
        simp only [frameOf, pageSize]
        omega
      by_cases hmem : frameOf v ∈ A
      · rw [if_pos hmem] at hent ⊢
        have huser : user (pdeOf m D v) = true := by
          rcases hd with hd | ⟨_, hnot⟩
          · rw [pdeOf, hd, user_user hqa]
          · exact absurd (hindex _ hmem rfl) (hnot _ hmem)
        simp [view, hpres, huser, hpte, hent, present_user hva, user_user hva,
          frameOf_add hva (show pageDefault + pageUser < pageSize by decide)]
      · -- the copied entry is the kernel's own
        rw [if_neg hmem] at hent ⊢
        have hktable := (hk.frame hi hne).2
        have hkpte : pteOf m D v = pteOf m K v := hpte.trans hent
        have hkpres : present (pdeOf m K v) = true := by
          change pdeOf m K v = frameOf (pdeOf m K v) + pageDefault at hktable
          rw [hktable]
          exact present_default (R.aligned _ (hk.frame hi hne).1)
        unfold view
        rw [hpres, hkpres, hkpte]
        by_cases hpp : present (pteOf m K v) = true
        · have hid : pteOf m K v = pageAt (pdIndex v) (ptIndex v) + pageDefault :=
            hk.identity _ _ hi hj hne hpp
          have hnouser : user (pteOf m K v) = false := by
            rw [hid]
            exact user_default (pageAt_aligned _ _)
          simp [hpp, hnouser]
        · simp [hpp]

end Directories

end Kumo
