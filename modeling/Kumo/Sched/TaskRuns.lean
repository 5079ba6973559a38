import Kumo.Lib.Transition
import Kumo.Sched.Boot
import Kumo.Sched.TaskCreate

/-!
# Runs that create tasks

The kernel from the boot on, as it creates tasks one after another, in any order with
other calls of the page allocator and of `kmalloc`. The invariant is that the kernel's
memory is sound and that every created task still has its directory and its kernel
stack. From it follows what user mode can reach through each directory, in every
state of every run.
-/

namespace Kumo

open Memory Transition

/-- A created task, with the pages its creator gave it and the stack page allocated for it. -/
structure Created where
  task : Task
  userPages : List Nat
  stackPage : Option Nat

/-- The pages a task may use. -/
def Created.pages (c : Created) : List Nat := c.userPages ++ c.stackPage.toList

/-- The kernel and the tasks created so far. -/
structure Tasks where
  kernel : Kernel
  created : List Created

/-- What the kernel does after the boot. -/
inductive TaskEvent where
  | create (entryAddr userEsp : Nat) (userPages : List Nat)
  | pages (call : PmmCall)
  | kmalloc (size : Nat)

namespace Tasks

/-- The stack page of a new task: the page below the initial stack pointer in its frame. -/
def stackPageOf (m : Memory) (t : Task) (userEsp : Nat) : Option Nat :=
  if userEsp = 0 then some (m.load32 (t.esp + 4 * 8) - pageSize) else none

/-- One event. A fault ends the run; a call that returns no task only changes the kernel. -/
def step (returnToRing3 : Nat) (s : Tasks) : TaskEvent → Option Tasks
  | .create entryAddr userEsp userPages =>
      match s.kernel.taskCreateUserWithPages returnToRing3 entryAddr userEsp userPages with
      | none => none
      | some (none, k) => some { s with kernel := k }
      | some (some t, k) =>
          some { kernel := k,
                 created := s.created ++ [⟨t, userPages, stackPageOf k.mem t userEsp⟩] }
  | .pages call => some { s with kernel := s.kernel.setPmm (s.kernel.heap.pmm.call call).2 }
  | .kmalloc size =>
      (s.kernel.heap.kmalloc size).map fun r => { s with kernel := { s.kernel with heap := r.2 } }

/-- A page of the user region of a machine with memory up to `top`. -/
def InUserRegion (top page : Nat) : Prop :=
  page % pageSize = 0 ∧ userMemStart ≤ page ∧
    page + pageSize ≤ managedBase + pmmTotalPages top * pageSize

instance (top page : Nat) : Decidable (InUserRegion top page) :=
  inferInstanceAs (Decidable (_ ∧ _ ∧ _))

/-- What the callers promise: 32-bit arguments, pages of the user region, sizes that do not wrap. -/
def Valid (top : Nat) : TaskEvent → Prop
  | .create entryAddr userEsp userPages =>
      entryAddr < 2 ^ 32 ∧ userEsp < 2 ^ 32 ∧ ∀ page ∈ userPages, InUserRegion top page
  | .pages _ => True
  | .kmalloc size => size + 15 < 2 ^ 32

instance (top : Nat) : (e : TaskEvent) → Decidable (Valid top e)
  | .create _ _ _ => inferInstanceAs (Decidable (_ ∧ _ ∧ _))
  | .pages _ => isTrue trivial
  | .kmalloc _ => inferInstanceAs (Decidable (_ < _))

/-! ## What isolation means -/

/-- A page of the kernel: of a directory, a page table, a kernel stack or the heap. -/
inductive KernelOwned (s : Tasks) : Nat → Prop where
  | heap {page : Nat} : page ∈ s.kernel.heap.heapPages → KernelOwned s page
  | kernelDirectory : KernelOwned s s.kernel.pdPhys
  | kernelTable {i : Nat} : i < tableEntries → s.kernel.mem.entry s.kernel.pdPhys i ≠ 0 →
      KernelOwned s (frameOf (s.kernel.mem.entry s.kernel.pdPhys i))
  | directory {c : Created} : c ∈ s.created → KernelOwned s c.task.cr3
  | table {c : Created} {i : Nat} : c ∈ s.created → i < tableEntries →
      s.kernel.mem.entry c.task.cr3 i ≠ 0 →
      KernelOwned s (frameOf (s.kernel.mem.entry c.task.cr3 i))
  | stack {c : Created} {page : Nat} : c ∈ s.created →
      page + pageSize = c.task.kernelStackTop ∨ page + 2 * pageSize = c.task.kernelStackTop →
      KernelOwned s page

/-- What user mode reaches through the directories of the created tasks. -/
structure Isolated (s : Tasks) : Prop where
  user : ∀ c ∈ s.created, ∀ v, v < 2 ^ 32 →
    (UserPage s.kernel.mem c.task.cr3 v ↔ frameOf v ∈ c.userPages ∨ c.stackPage = some (frameOf v))
  identity : ∀ c ∈ s.created, ∀ v, v < 2 ^ 32 → frameOf v < s.kernel.topOfMemory →
    frameOf v ≠ 0 → translate s.kernel.mem c.task.cr3 v = some v
  null : ∀ c ∈ s.created, ∀ v, frameOf v = 0 → translate s.kernel.mem c.task.cr3 v = none
  low : ∀ c ∈ s.created, ∀ v, v < userMemStart → ¬ UserPage s.kernel.mem c.task.cr3 v
  owned : ∀ page, s.KernelOwned page → page < userMemStart

/-- The tasks of `s` are still there in `s'`, and see the same memory. -/
def Unchanged (s s' : Tasks) : Prop :=
  ∀ c ∈ s.created, c ∈ s'.created ∧
    ∀ v, v < 2 ^ 32 → view s'.kernel.mem c.task.cr3 v = view s.kernel.mem c.task.cr3 v

/-- The stack page of a task that `s'` adds was a free page of the user region, and is taken now. -/
def StackFresh (s s' : Tasks) : Prop :=
  ∀ c ∈ s'.created, c ∈ s.created ∨ ∀ page, c.stackPage = some page →
    s.kernel.UserRegion page ∧ s.kernel.heap.pmm.used (Pmm.pageIndex page) = false ∧
      s'.kernel.heap.pmm.used (Pmm.pageIndex page) = true

/-! ## The invariant -/

/-- What a created task keeps: its directory, its pages and its kernel stack. -/
structure Kept (k : Kernel) (c : Created) : Prop where
  directory : ∃ priv, TaskDir k.heap.reserved k.mem k.pdPhys c.task.cr3 c.pages priv
  pages : ∀ page ∈ c.pages, k.UserRegion page
  stack : ∃ base, c.task.kernelStackTop = base + 2 * pageSize ∧
    ∀ i, i < 2 → k.heap.reserved.has (base + i * pageSize)

/-- The kernel's memory is sound, and so is every created task. -/
structure Inv (s : Tasks) : Prop where
  kernel : s.kernel.Sound
  created : ∀ c ∈ s.created, Kept s.kernel c

theorem Kept.of_keeps {k k' : Kernel} {c : Created} (h : Kept k c) (hs : k.Sound)
    (hk : Kernel.Keeps k k') : Kept k' c := by
  obtain ⟨priv, hdir⟩ := h.directory
  obtain ⟨base, htop, hstack⟩ := h.stack
  refine ⟨⟨priv, ?_⟩, fun page hpage => ?_, base, htop, fun i hi => hk.reserved _ (hstack i hi)⟩
  · rw [hk.pdPhys]
    exact hdir.transfer hs.dir hk.reserved hk.same
  · obtain ⟨h1, h2, h3⟩ := h.pages page hpage
    exact ⟨h1, h2, by rw [hk.totalPages]; exact h3⟩

/-- The walk through the directory of a created task. -/
theorem Inv.view_eq {s : Tasks} (h : s.Inv) {c : Created} (hc : c ∈ s.created) {v : Nat}
    (hv : v < 2 ^ 32) : view s.kernel.mem c.task.cr3 v =
      if frameOf v ∈ c.pages then some (frameOf v, true)
      else view s.kernel.mem s.kernel.pdPhys v := by
  obtain ⟨priv, hdir⟩ := (h.created c hc).directory
  exact hdir.view_eq h.kernel.dir hv

/-- A function that keeps what it must keeps the invariant and every view. -/
theorem Inv.of_keeps {s : Tasks} {k : Kernel} (h : s.Inv) (hsound : k.Sound)
    (hk : Kernel.Keeps s.kernel k) :
    (∀ c ∈ s.created, Kept k c) ∧ ∀ c ∈ s.created, ∀ v, v < 2 ^ 32 →
      view k.mem c.task.cr3 v = view s.kernel.mem c.task.cr3 v := by
  have hkept : ∀ c ∈ s.created, Kept k c := fun c hc => (h.created c hc).of_keeps h.kernel hk
  have hinv : Inv ⟨k, s.created⟩ := ⟨hsound, hkept⟩
  refine ⟨hkept, fun c hc v hv => ?_⟩
  rw [h.view_eq hc hv, ← h.kernel.dir.view_same hk.same hv, ← hk.pdPhys]
  exact hinv.view_eq hc hv

/-- The frame of a new task records its stack page. -/
theorem stackPageOf_eq {r entryAddr userEsp : Nat} {userPages : List Nat} {k k' : Kernel} {t : Task}
    {stack : Option Nat} (ht : Kernel.NewTask r entryAddr userEsp userPages k k' t stack) :
    stackPageOf k'.mem t userEsp = stack := by
  have hframe : k'.mem.load32 (t.esp + 4 * 8) =
      (stack.map fun page => page + pageSize).getD userEsp := ht.frame 8 (by decide)
  rw [stackPageOf, hframe]
  by_cases h0 : userEsp = 0
  · obtain ⟨page, rfl⟩ := Option.isSome_iff_exists.mp (ht.allocated.mpr h0)
    simp [h0]
  · cases stack with
    | none => simp [h0]
    | some page => exact absurd (ht.allocated.mp rfl) h0

/-- One event keeps the invariant, what was reserved, and what the earlier tasks see. -/
theorem Inv.step {r top : Nat} {s s' : Tasks} {e : TaskEvent} (hr : r < 2 ^ 32) (h : s.Inv)
    (htotal : s.kernel.heap.pmm.totalPages = pmmTotalPages top) (hvalid : Valid top e)
    (hstep : s.step r e = some s') :
    s'.Inv ∧ Kernel.Keeps s.kernel s'.kernel ∧ s.Unchanged s' ∧ s.StackFresh s' := by
  cases e with
  | create entryAddr userEsp userPages =>
      obtain ⟨hentry, hesp, hpages⟩ := hvalid
      have hregion : ∀ a ∈ userPages, s.kernel.UserRegion a := by
        intro a ha
        obtain ⟨h1, h2, h3⟩ := hpages a ha
        exact ⟨h1, h2, by rw [htotal]; exact h3⟩
      rw [Tasks.step] at hstep
      cases hcreate : s.kernel.taskCreateUserWithPages r entryAddr userEsp userPages with
      | none => rw [hcreate] at hstep; cases hstep
      | some result =>
          obtain ⟨res, k⟩ := result
          obtain ⟨hsound, hkeeps, hnew⟩ := h.kernel.taskCreate hregion hr hentry hesp hcreate
          obtain ⟨hkept, hviews⟩ := h.of_keeps hsound hkeeps
          rw [hcreate] at hstep
          cases res with
          | none =>
              obtain rfl := Option.some.inj hstep
              exact ⟨⟨hsound, hkept⟩, hkeeps, fun c hc => ⟨hc, hviews c hc⟩, fun _ => .inl⟩
          | some t =>
              obtain rfl := Option.some.inj hstep
              obtain ⟨stack, ht⟩ := hnew t rfl
              rw [stackPageOf_eq ht]
              refine ⟨⟨hsound, fun c hc => ?_⟩, hkeeps, fun c hc =>
                ⟨List.mem_append_left _ hc, hviews c hc⟩, fun c hc => ?_⟩
              · rcases List.mem_append.mp hc with hc | hc
                · exact hkept c hc
                obtain rfl := List.mem_singleton.mp hc
                obtain ⟨base, htop, hbase⟩ := ht.kernelStack
                refine ⟨ht.directory, fun page hpage => ?_, base, htop, fun i hi => (hbase i hi).1⟩
                have hold : s.kernel.UserRegion page := by
                  rcases List.mem_append.mp hpage with hpage | hpage
                  · exact hregion page hpage
                  · exact (ht.stackPage page (Option.mem_toList.mp hpage)).1
                exact ⟨hold.aligned, hold.lower, by rw [hkeeps.totalPages]; exact hold.upper⟩
              · rcases List.mem_append.mp hc with hc | hc
                · exact .inl hc
                · obtain rfl := List.mem_singleton.mp hc
                  exact .inr ht.stackPage
  | pages call =>
      obtain rfl := Option.some.inj hstep
      have hkeeps := Kernel.Keeps.call s.kernel call
      have hsound := h.kernel.call call
      obtain ⟨hkept, hviews⟩ := h.of_keeps hsound hkeeps
      exact ⟨⟨hsound, hkept⟩, hkeeps, fun c hc => ⟨hc, hviews c hc⟩, fun _ => .inl⟩
  | kmalloc size =>
      obtain ⟨⟨p, heap⟩, halloc, rfl⟩ := Option.map_eq_some_iff.mp hstep
      obtain ⟨hkeeps, hsound⟩ := h.kernel.kmalloc hvalid halloc
      obtain ⟨hkept, hviews⟩ := h.of_keeps hsound hkeeps
      exact ⟨⟨hsound, hkept⟩, hkeeps, fun c hc => ⟨hc, hviews c hc⟩, fun _ => .inl⟩

/-! ## Isolation -/

/-- The table an entry of a task directory points to is reserved. -/
theorem Inv.table_reserved {s : Tasks} (h : s.Inv) {c : Created} (hc : c ∈ s.created) {i : Nat}
    (hi : i < tableEntries) (hne : s.kernel.mem.entry c.task.cr3 i ≠ 0) :
    s.kernel.heap.reserved.has (frameOf (s.kernel.mem.entry c.task.cr3 i)) := by
  obtain ⟨priv, hdir⟩ := (h.created c hc).directory
  cases hp : priv i with
  | none =>
      rw [(hdir.shared i hi hp).1] at hne ⊢
      exact (h.kernel.dir.frame hi hne).1
  | some q =>
      obtain ⟨hq, _, hentry⟩ := hdir.own i q hi hp
      have haligned := s.kernel.heap.reserved.aligned q hq
      rcases hentry with heq | ⟨heq, _⟩
      · rw [heq, frameOf_add haligned (by decide)]
        exact hq
      · rw [heq, frameOf_add haligned (by decide)]
        exact hq

/-- What belongs to the kernel lies in the kernel zone. -/
theorem Inv.owned {s : Tasks} (h : s.Inv) {page : Nat} (hpage : s.KernelOwned page) :
    page < userMemStart := by
  have hlow : ∀ q, s.kernel.heap.reserved.has q → q < userMemStart := by
    intro q hq
    have := hq.1.upper
    simp only [pageSize] at this
    omega
  cases hpage with
  | heap hmem =>
      have := (h.kernel.heap_pages _ hmem).upper
      simp only [pageSize] at this
      omega
  | kernelDirectory => exact hlow _ h.kernel.dir.dir
  | kernelTable hi hne => exact hlow _ (h.kernel.dir.frame hi hne).1
  | directory hc =>
      obtain ⟨priv, hdir⟩ := (h.created _ hc).directory
      exact hlow _ hdir.dir
  | table hc hi hne => exact hlow _ (h.table_reserved hc hi hne)
  | stack hc hend =>
      obtain ⟨base, htop, hstack⟩ := (h.created _ hc).stack
      rcases hend with hend | hend
      · have := hlow _ (hstack 1 (by decide))
        omega
      · have := hlow _ (hstack 0 (by decide))
        omega

/-- Whether user mode may access a page through the directory of a created task. -/
theorem Inv.userPage_iff {s : Tasks} (h : s.Inv) {c : Created} (hc : c ∈ s.created) {v : Nat}
    (hv : v < 2 ^ 32) : UserPage s.kernel.mem c.task.cr3 v ↔ frameOf v ∈ c.pages := by
  unfold UserPage
  rw [h.view_eq hc hv]
  split
  · next hmem => simp [hmem]
  · next hmem =>
      rcases h.kernel.dir.view_cases hv with heq | heq <;> simp [heq, hmem]

/-- Isolation in a state with the invariant, when page 0 is not mapped in the kernel directory. -/
theorem Inv.isolated {s : Tasks} (h : s.Inv) (hnull : s.kernel.NullGuard) : s.Isolated := by
  have hlower : ∀ c ∈ s.created, ∀ page ∈ c.pages, userMemStart ≤ page := fun c hc page hpage =>
    ((h.created c hc).pages page hpage).lower
  have hsplit : ∀ v, frameOf v + v % pageSize = v := fun v => by
    simp only [frameOf]
    exact Nat.div_add_mod' v pageSize
  constructor
  case user =>
    intro c hc v hv
    rw [h.userPage_iff hc hv, Created.pages, List.mem_append, Option.mem_toList]
  case identity =>
    intro c hc v hv hlt hne
    rw [translate_eq_view, h.view_eq hc hv]
    split
    · simp [hsplit]
    · rw [h.kernel.below v hv hlt hne]
      simp [hsplit]
  case null =>
    intro c hc v hv0
    have hv : v < 2 ^ 32 := by
      simp only [frameOf, pageSize] at hv0
      omega
    have hout : frameOf v ∉ c.pages := by
      intro hmem
      have := hlower c hc _ hmem
      rw [hv0, userMemStart] at this
      omega
    rw [translate_eq_view, h.view_eq hc hv, if_neg hout, hnull v hv0]
    rfl
  case low =>
    intro c hc v hlow huser
    have hv : v < 2 ^ 32 := by
      simp only [userMemStart] at hlow
      omega
    have hmem := hlower c hc _ ((h.userPage_iff hc hv).mp huser)
    have hle : frameOf v ≤ v := by
      have := hsplit v
      omega
    omega
  case owned => exact fun page => h.owned

/-- After the boot no task has been created. -/
theorem boot_inv {k : Kernel} (hs : k.Sound) : Inv ⟨k, []⟩ := ⟨hs, by simp⟩

/-- Every run from a sound kernel keeps the invariant and what was reserved at the start. -/
theorem run_keeps {r top : Nat} {k : Kernel} (hr : r < 2 ^ 32) (hs : k.Sound)
    (htotal : k.heap.pmm.totalPages = pmmTotalPages top) {events : List TaskEvent}
    (hvalid : ∀ e ∈ events, Valid top e) :
    Along (step r) (fun s _ s' => s'.Inv ∧ Kernel.Keeps k s'.kernel ∧ s.Unchanged s' ∧
        s.StackFresh s') ⟨k, []⟩ events ∧
      ∀ final, run (step r) ⟨k, []⟩ events = some final →
        final.Inv ∧ Kernel.Keeps k final.kernel := by
  refine along_of_step (I := fun s : Tasks => s.Inv ∧ Kernel.Keeps k s.kernel)
    (fun s e s' hinv hvalid hstep => ?_) ⟨boot_inv hs, .refl k⟩ (meets_of_forall hvalid _)
  obtain ⟨h, hk⟩ := hinv
  obtain ⟨h', hk', hpost⟩ := h.step hr (hk.totalPages.trans htotal) hvalid hstep
  exact ⟨⟨h', hk.trans hk'⟩, h', hk.trans hk', hpost⟩

/-- Isolation, from the boot on, in every state of every run. Later creations change nothing for
earlier tasks. -/
theorem tasks_isolated {r top : Nat} {mem : Memory} {pmm : Pmm} {k : Kernel} (hr : r < 2 ^ 32)
    (hwf : pmm.Wf) (htotal : pmm.totalPages = pmmTotalPages top) (htop : top < 2 ^ 32)
    (hboot : Kernel.boot mem pmm top none = some k) (events : List TaskEvent)
    (hvalid : ∀ e ∈ events, Valid top e) :
    k.topOfMemory = top ∧ Isolated ⟨k, []⟩ ∧
      Along (step r) (fun s _ s' => s'.kernel.topOfMemory = top ∧ s'.Isolated ∧ s.Unchanged s' ∧
        s.StackFresh s') ⟨k, []⟩ events := by
  obtain ⟨hs, htopeq, htotal', hnull⟩ := Kernel.boot_sound hwf htotal htop (by simp) hboot
  have hguard := hnull rfl
  refine ⟨htopeq, (boot_inv hs).isolated hguard, ?_⟩
  refine (run_keeps hr hs htotal' hvalid).1.mono fun s _ s' h => ?_
  obtain ⟨hinv, hk, hsame, hfresh⟩ := h
  exact ⟨hk.topOfMemory.trans htopeq, hinv.isolated (hguard.of_keeps hs hk), hsame, hfresh⟩

/-- Two tasks that are given the same user page, one of them with a stack page of its own. -/
def sampleEvents : List TaskEvent :=
  [.pages .userPage, .create 0x800000 0 [0x800000], .kmalloc 100,
    .create 0x800000 0x801000 [0x800000]]

theorem tasks_isolated_sample : ∃ k,
    Kernel.boot (fun _ => 0) Kernel.samplePmm 0x802000 none = some k ∧
      k.topOfMemory = 0x802000 ∧ Isolated ⟨k, []⟩ ∧
      Along (step 0x100000) (fun s _ s' => s'.kernel.topOfMemory = 0x802000 ∧ s'.Isolated ∧
        s.Unchanged s' ∧ s.StackFresh s') ⟨k, []⟩ sampleEvents := by
  obtain ⟨k, hboot⟩ := Option.isSome_iff_exists.mp Kernel.boot_sample
  exact ⟨k, hboot, tasks_isolated (by decide) Kernel.samplePmm_wf rfl (by decide) hboot
    sampleEvents (by decide)⟩

end Tasks

end Kumo
