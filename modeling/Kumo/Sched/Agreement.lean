import Kumo.Arch.UserCopy
import Kumo.Sched.RingRuns

/-!
# The address space and the kernel stack of the current task

`task_yield` sets `g_current` and the TSS, `switch_to` sets `CR3`, and both leave the
register alone when the new task is the idle task. So while the idle task runs the two
registers still belong to an earlier task. Whenever a user task executes they are its own:
then the directory that `page_is_user_accessible` walks is the one the processor uses.
-/

namespace Kumo

open Memory Transition

namespace Sched

/-- `task_current()->cr3`, or 0 before there is a task. -/
def currentCr3 (s : Sched) : Nat := if s.current ≠ 0 then s.field s.current cr3Off else 0

/-- `page_is_user_accessible`. -/
def pageIsUserAccessible (s : Sched) (vaddr : Nat) : Bool :=
  s.paging.pageIsUserAccessible s.currentCr3 vaddr

end Sched

/-- The program point: the current task executes, in user mode or in a system call, or
`task_yield` is about to call `switch_to` on the stack of the task it leaves. -/
inductive Control where
  | executing
  | switching (old : Nat)

/-- The scheduler with the program point of the processor. -/
structure Dispatch where
  run : SchedRun
  control : Control

/-- What happens after `task_init`. `preempt` is IRQ0, whose handler calls `task_yield`; `yield` is
the call of the idle loop or of `SYSCALL_YIELD`. -/
inductive DispatchEvent where
  | create (entryAddr userEsp : Nat) (userPages : List Nat)
  | preempt
  | yield
  | switch (esp : Nat)
  | pages (call : PmmCall)
  | kmalloc (size : Nat)
  | store (address : Nat) (byte : BitVec 8)

namespace Dispatch

/-- A function that the current task calls. -/
def call (returnToRing3 : Nat) (d : Dispatch) (e : SchedEvent) : Option Dispatch :=
  (d.run.step returnToRing3 e).map fun run => { d with run := run }

/-- `task_yield` up to `switch_to`. -/
def beginYield (d : Dispatch) : Dispatch :=
  if d.run.sched.current = d.run.sched.next d.run.sched.current then d
  else { run := { d.run with sched := d.run.sched.pickNext }
         control := .switching d.run.sched.current }

/-- One event. Interrupts are off in `task_yield`, so nothing comes before `switch_to`. -/
def step (returnToRing3 : Nat) (d : Dispatch) (e : DispatchEvent) : Option Dispatch :=
  match d.control, e with
  | .executing, .create entryAddr userEsp userPages =>
      d.call returnToRing3 (.createUserWithPages entryAddr userEsp userPages)
  | .executing, .preempt => some d.beginYield
  | .executing, .yield => some d.beginYield
  | .executing, .pages c => d.call returnToRing3 (.pages c)
  | .executing, .kmalloc size => d.call returnToRing3 (.kmalloc size)
  | .executing, .store address byte => d.call returnToRing3 (.store address byte)
  | .switching old, .switch esp =>
      some { run := { d.run with
                      sched := d.run.sched.switchTo old d.run.sched.current esp }
             control := .executing }
  | _, _ => none

/-- 32-bit page addresses, sizes that do not wrap, and user programs that write user pages. -/
def Valid : DispatchEvent → Prop
  | .create _ _ userPages => ∀ page ∈ userPages, page < 2 ^ 32
  | .kmalloc size => size + 15 < 2 ^ 32
  | .store address _ => userMemStart ≤ address
  | _ => True

instance : DecidablePred Valid
  | .create _ _ _ => inferInstanceAs (Decidable (∀ _ ∈ _, _))
  | .preempt => isTrue trivial
  | .yield => isTrue trivial
  | .switch _ => isTrue trivial
  | .pages _ => isTrue trivial
  | .kmalloc _ => inferInstanceAs (Decidable (_ < _))
  | .store _ _ => inferInstanceAs (Decidable (_ ≤ _))

/-- Task `t` is current and executes. -/
def Executes (d : Dispatch) (t : Nat) : Prop :=
  d.control = .executing ∧ d.run.sched.current = t

/-- The registers of the processor belong to user task `t`, and user pointers are checked in the
directory that the processor walks. -/
structure Agrees (d : Dispatch) (t : Nat) : Prop where
  cr3 : d.run.sched.cr3 = d.run.sched.field t cr3Off
  esp0 : d.run.sched.esp0 = d.run.sched.field t kernelStackTopOff
  walked : d.run.sched.paging.currentPd d.run.sched.currentCr3 = d.run.sched.cr3
  accessible : ∀ vaddr, d.run.sched.pageIsUserAccessible vaddr = true ↔
    UserPage d.run.sched.mem d.run.sched.cr3 vaddr

/-- Whenever a user task executes, the processor is in its address space and on its stack. -/
def UserAgrees (idle : Nat) (d : Dispatch) : Prop :=
  ∀ t ∈ d.run.tasks, t ≠ idle → d.Executes t → d.Agrees t

/-! ## The invariant -/

/-- The registers, as far as they are known at a program point. -/
def Registers (idle : Nat) (s : Sched) : Control → Prop
  | .executing => s.current ≠ idle →
      s.cr3 = s.field s.current cr3Off ∧ s.esp0 = s.field s.current kernelStackTopOff
  | .switching _ => s.current ≠ idle → s.esp0 = s.field s.current kernelStackTopOff

/-- The ring, the fields that only the idle task has empty, and the registers. -/
structure Inv (idle : Nat) (d : Dispatch) : Prop where
  ring : d.run.Inv
  users : ∀ t ∈ d.run.tasks, t ≠ idle →
    d.run.sched.field t cr3Off ≠ 0 ∧ d.run.sched.field t kernelStackTopOff ≠ 0
  old : ∀ old, d.control = .switching old → old ∈ d.run.tasks
  registers : Registers idle d.run.sched d.control

variable {idle : Nat} {d d' : Dispatch} {s s' : SchedRun}

/-- What a call of the current task leaves alone: `g_current`, the registers, and every field of
the tasks but their links. A new task has a directory and a stack. -/
structure Quiet (s s' : SchedRun) : Prop where
  current : s'.sched.current = s.sched.current
  cr3 : s'.sched.cr3 = s.sched.cr3
  esp0 : s'.sched.esp0 = s.sched.esp0
  kept : ∀ t ∈ s.tasks, t ∈ s'.tasks
  fields : ∀ t ∈ s.tasks, ∀ off, IsField off → off ≠ nextOff →
    s'.sched.field t off = s.sched.field t off
  created : ∀ t ∈ s'.tasks, t ∈ s.tasks ∨
    (s'.sched.field t cr3Off ≠ 0 ∧ s'.sched.field t kernelStackTopOff ≠ 0)

theorem Quiet.of_same {sched : Sched} (hcur : sched.current = s.sched.current)
    (hcr3 : sched.cr3 = s.sched.cr3) (hesp0 : sched.esp0 = s.sched.esp0)
    (hsame : SameOwned (blocksOf s.tasks) s.sched.mem sched.mem) :
    Quiet s { s with sched := sched } :=
  ⟨hcur, hcr3, hesp0, fun _ h => h, fun _ ht _ hoff _ => hsame.load32 ⟨ht, rfl⟩ hoff.2,
    fun _ h => .inl h⟩

theorem Quiet.trans {s'' : SchedRun} (h1 : Quiet s s') (h2 : Quiet s' s'') : Quiet s s'' := by
  refine ⟨h2.current.trans h1.current, h2.cr3.trans h1.cr3, h2.esp0.trans h1.esp0,
    fun t ht => h2.kept t (h1.kept t ht), fun t ht off hoff hne => ?_, fun t ht => ?_⟩
  · exact (h2.fields t (h1.kept t ht) off hoff hne).trans (h1.fields t ht off hoff hne)
  · rcases h2.created t ht with hmem | hnew
    · refine (h1.created t hmem).imp id fun hold => ?_
      rw [h2.fields t hmem cr3Off (by decide) (by decide),
        h2.fields t hmem kernelStackTopOff (by decide) (by decide)]
      exact hold
    · exact .inr hnew

/-- A new user task has the directory and the stack that were made for it. -/
theorem Quiet.added {sched s0 : Sched} {p : Paging} {r entryAddr userEsp sp top taskPd t : Nat}
    (hadd : s.sched.Added sched s.tasks t)
    (hnew : sched.NewBlock t sp taskReady (some top) taskPd)
    (hready : Sched.UserReady r entryAddr userEsp s0 p sp top taskPd) :
    Quiet s (s.created (t, sched)) := by
  have htasks : (s.created (t, sched)).tasks = s.tasks ++ [t] := if_neg hadd.nonzero
  refine ⟨hadd.current, hadd.cr3, hadd.esp0, fun u hu => ?_, fun u hu off hoff hne => ?_,
    fun u hu => ?_⟩
  · rw [htasks]
    exact List.mem_append_left _ hu
  · exact (hadd.fields u hu off hoff).trans (if_neg (by tauto))
  · rw [htasks, List.mem_append, List.mem_singleton] at hu
    refine hu.imp id ?_
    rintro rfl
    have hpd := hready.directory
    obtain ⟨ustackTop, _, hstack⟩ := hready.stack
    obtain ⟨base, htop, hpages⟩ := hstack.pages
    have hbase := (hpages 1 (by decide)).1
    have h1 := hpd.lower
    have h2 := hpd.upper
    have h3 := hbase.upper
    refine ⟨?_, ?_⟩
    · show sched.field u cr3Off ≠ 0
      rw [hnew.cr3]
      simp only [managedBase, pageSize, userMemStart] at *
      omega
    · show sched.field u kernelStackTopOff ≠ 0
      rw [hnew.kernelStackTop top rfl, htop]
      simp only [pageSize, userMemStart] at *
      omega

/-- The calls of the current task are quiet. -/
theorem quiet_call {r : Nat} {e : SchedEvent} (h : s.Inv) (hvalid : SchedRun.Valid e)
    (hkind : (∃ a u l, e = .createUserWithPages a u l) ∨ (∃ c, e = .pages c) ∨
      (∃ n, e = .kmalloc n) ∨ ∃ a b, e = .store a b)
    (hstep : s.step r e = some s') : Quiet s s' := by
  rcases hkind with ⟨entryAddr, userEsp, userPages, rfl⟩ | ⟨c, rfl⟩ | ⟨size, rfl⟩ | ⟨a, b, rfl⟩
  · obtain ⟨⟨t, sched⟩, hrun, rfl⟩ := Option.map_eq_some_iff.mp hstep
    obtain ⟨p, hwf, hkeeps, hcases⟩ := h.backed.taskCreateUserWithPages hvalid hrun
    have hp := h.backed.prepares.keeps hwf hkeeps
    obtain ⟨hb, hsame⟩ := hp.backed h.backed
    have hprep : Quiet s { s with sched := s.sched.setPaging p } :=
      .of_same rfl rfl rfl hsame
    rcases hcases with ⟨rfl, rfl⟩ | ⟨sp, top, pd, hready, hrun⟩
    · exact hprep
    · obtain ⟨hadd, hnew⟩ := hb.addTask h.current_mem hrun
      have hquiet := Quiet.added (s := { s with sched := s.sched.setPaging p }) hadd hnew hready
      exact hprep.trans hquiet
  · obtain rfl := Option.some.inj hstep
    exact .of_same rfl rfl rfl (.refl _ _)
  · obtain ⟨⟨q, heap⟩, hrun, rfl⟩ := Option.map_eq_some_iff.mp hstep
    obtain ⟨hsame, _⟩ := h.backed.heap.kmalloc hvalid hrun
    exact .of_same rfl rfl rfl hsame
  · obtain rfl := Option.some.inj hstep
    refine .of_same rfl rfl rfl fun t n ht x h1 h2 => store8_other ?_
    obtain ⟨_, _, hup⟩ := h.backed.heap.bounds ht
    simp only [SchedRun.Valid] at hvalid
    omega

/-- A quiet call keeps the invariant. -/
theorem Inv.call {r : Nat} {e : SchedEvent} (h : Inv idle d) (hcontrol : d.control = .executing)
    (hvalid : SchedRun.Valid e)
    (hkind : (∃ a u l, e = .createUserWithPages a u l) ∨ (∃ c, e = .pages c) ∨
      (∃ n, e = .kmalloc n) ∨ ∃ a b, e = .store a b)
    (hstep : d.call r e = some d') : Inv idle d' := by
  obtain ⟨run, hrun, rfl⟩ := Option.map_eq_some_iff.mp hstep
  have hquiet := quiet_call h.ring hvalid hkind hrun
  have hregs := h.registers
  rw [hcontrol] at hregs
  refine ⟨h.ring.step hvalid hrun, fun t ht hne => ?_, fun old hold => ?_, ?_⟩
  · rcases hquiet.created t ht with hmem | hnew
    · rw [hquiet.fields t hmem cr3Off (by decide) (by decide),
        hquiet.fields t hmem kernelStackTopOff (by decide) (by decide)]
      exact h.users t hmem hne
    · exact hnew
  · exact absurd (hcontrol.symm.trans hold) (by simp)
  · show Registers idle run.sched d.control
    rw [hcontrol]
    intro hne
    rw [hquiet.current] at hne ⊢
    rw [hquiet.cr3, hquiet.esp0, hquiet.fields _ h.ring.current_mem cr3Off (by decide) (by decide),
      hquiet.fields _ h.ring.current_mem kernelStackTopOff (by decide) (by decide)]
    exact hregs hne

/-- `task_yield` up to `switch_to` sets the stack of the new task, unless it is the idle task. -/
theorem Inv.beginYield (h : Inv idle d) : Inv idle d.beginYield := by
  unfold Dispatch.beginYield
  by_cases hself : d.run.sched.current = d.run.sched.next d.run.sched.current
  · rw [if_pos hself]
    exact h
  rw [if_neg hself]
  have hpick := h.ring.backed.pickNext h.ring.current_mem h.ring.next_mem
  refine ⟨(h.ring.picked hpick).1, fun t ht hne => ?_, fun old hold => ?_, fun hne => ?_⟩
  · show d.run.sched.pickNext.field t cr3Off ≠ 0 ∧
      d.run.sched.pickNext.field t kernelStackTopOff ≠ 0
    rw [hpick.others t ht cr3Off (by decide) (by decide),
      hpick.others t ht kernelStackTopOff (by decide) (by decide)]
    exact h.users t ht hne
  · cases hold
    exact h.ring.current_mem
  · have hmem : d.run.sched.pickNext.current ∈ d.run.tasks := by
      rw [hpick.current]
      exact h.ring.next_mem
    have hstack := (h.users _ hmem hne).2
    rw [← hpick.others _ hmem kernelStackTopOff (by decide) (by decide)] at hstack
    exact hpick.esp0.trans (if_pos hstack)

/-- `switch_to` loads the directory of the new task, unless it is the idle task. -/
theorem Inv.switch {old : Nat} (h : Inv idle d) (hcontrol : d.control = .switching old)
    (esp : Nat) : Inv idle { run := { d.run with
                                      sched := d.run.sched.switchTo old d.run.sched.current esp }
                             control := .executing } := by
  have hcur := h.ring.current_mem
  have hswitch := h.ring.backed.switchTo (h.old old hcontrol) hcur esp
  have hregs := h.registers
  rw [hcontrol] at hregs
  have hsame : ∀ t ∈ d.run.tasks, ∀ off, IsField off → off ≠ espOff →
      (d.run.sched.switchTo old d.run.sched.current esp).field t off = d.run.sched.field t off :=
    fun t ht off hoff hne => hswitch.others t ht off hoff (.inr hne)
  refine ⟨(h.ring.switched hswitch).1, fun t ht hne => ?_,
    fun old hold => (by cases hold), fun hne => ?_⟩
  · show (d.run.sched.switchTo old d.run.sched.current esp).field t cr3Off ≠ 0 ∧
      (d.run.sched.switchTo old d.run.sched.current esp).field t kernelStackTopOff ≠ 0
    rw [hsame t ht cr3Off (by decide) (by decide),
      hsame t ht kernelStackTopOff (by decide) (by decide)]
    exact h.users t ht hne
  · rw [hswitch.current] at hne ⊢
    rw [hsame _ hcur cr3Off (by decide) (by decide),
      hsame _ hcur kernelStackTopOff (by decide) (by decide), hswitch.cr3, hswitch.esp0,
      if_neg (h.users _ hcur hne).1]
    exact ⟨rfl, hregs hne⟩

/-- One event keeps the invariant. -/
theorem Inv.step {r : Nat} {e : DispatchEvent} (h : Inv idle d) (hvalid : Valid e)
    (hstep : d.step r e = some d') : Inv idle d' := by
  unfold Dispatch.step at hstep
  cases hcontrol : d.control with
  | executing =>
      rw [hcontrol] at hstep
      cases e with
      | create entryAddr userEsp userPages =>
          exact h.call (e := .createUserWithPages entryAddr userEsp userPages) hcontrol hvalid
            (.inl ⟨_, _, _, rfl⟩) hstep
      | preempt =>
          obtain rfl := Option.some.inj hstep
          exact h.beginYield
      | yield =>
          obtain rfl := Option.some.inj hstep
          exact h.beginYield
      | switch esp => cases hstep
      | pages c => exact h.call (e := .pages c) hcontrol trivial (.inr (.inl ⟨_, rfl⟩)) hstep
      | kmalloc size =>
          exact h.call (e := .kmalloc size) hcontrol hvalid (.inr (.inr (.inl ⟨_, rfl⟩))) hstep
      | store a b =>
          exact h.call (e := .store a b) hcontrol hvalid (.inr (.inr (.inr ⟨_, _, rfl⟩))) hstep
  | switching old =>
      rw [hcontrol] at hstep
      cases e with
      | switch esp =>
          obtain rfl := Option.some.inj hstep
          exact h.switch hcontrol esp
      | _ => cases hstep

theorem Inv.userAgrees (h : Inv idle d) : d.UserAgrees idle := by
  rintro t ht hne ⟨hcontrol, rfl⟩
  have hregs := h.registers
  rw [hcontrol] at hregs
  obtain ⟨hcr3, hesp0⟩ := hregs hne
  have hfield := (h.users _ ht hne).1
  have hcurrent : d.run.sched.currentCr3 = d.run.sched.field d.run.sched.current cr3Off :=
    if_pos (h.ring.backed.task_lt ht).1
  have hwalked : d.run.sched.paging.currentPd d.run.sched.currentCr3 = d.run.sched.cr3 := by
    rw [hcurrent, Paging.currentPd, if_pos hfield, hcr3]
  refine ⟨hcr3, hesp0, hwalked, fun vaddr => ?_⟩
  rw [← hwalked]
  exact Paging.pageIsUserAccessible_iff _ _ _

/-- From the boot on, in every state that creations, preemptions and yields reach: when a user task
executes, `CR3` and the TSS are its own, and user pointers are checked in the directory that the
processor walks. -/
theorem user_task_agrees {r top : Nat} {mem : Memory} {pmm : Pmm}
    {framebuffer : Option (Nat × Nat)} {s : Sched} (hwf : pmm.Wf)
    (htotal : pmm.totalPages = pmmTotalPages top) (htop : top < 2 ^ 32)
    (hfb : ∀ fb ∈ framebuffer, fb.1 < 2 ^ 32)
    (hboot : Sched.boot mem pmm top framebuffer = some s) (events : List DispatchEvent)
    (hvalid : ∀ e ∈ events, Valid e) :
    UserAgrees s.current ⟨⟨s, [s.current]⟩, .executing⟩ ∧
      Along (step r) (fun _ _ d => d.UserAgrees s.current) ⟨⟨s, [s.current]⟩, .executing⟩
        events := by
  have hring := SchedRun.boot_inv hwf htotal htop hfb hboot
  have hinv : Inv s.current ⟨⟨s, [s.current]⟩, .executing⟩ :=
    ⟨hring, fun t ht hne => absurd (List.mem_singleton.mp ht) hne, fun old hold => (by cases hold),
      fun hne => absurd rfl hne⟩
  refine ⟨hinv.userAgrees, (along_of_step (I := Inv s.current) (C := fun _ e => Valid e) ?_ hinv
    (meets_of_forall hvalid _)).1⟩
  intro d e d' h he hstep
  have h' := h.step he hstep
  exact ⟨h', h'.userAgrees⟩

/-- Two user tasks take turns with the idle task. -/
def sampleEvents : List DispatchEvent :=
  [.create 0x800000 0 [0x800000], .create 0x800000 0x801000 [0x800000], .yield, .switch 0x106000,
    .store 0x800000 7, .preempt, .switch 0x107000, .kmalloc 100, .preempt, .switch 0x108000, .yield,
    .switch 0x109000]

theorem user_task_agrees_sample : ∃ s,
    Sched.boot (fun _ => 0) Kernel.samplePmm 0x802000 none = some s ∧
      UserAgrees s.current ⟨⟨s, [s.current]⟩, .executing⟩ ∧
      Along (step 0x100000) (fun _ _ d => d.UserAgrees s.current) ⟨⟨s, [s.current]⟩, .executing⟩
        sampleEvents := by
  obtain ⟨s, hboot⟩ := Option.isSome_iff_exists.mp Sched.boot_sample
  exact ⟨s, hboot, user_task_agrees Kernel.samplePmm_wf rfl (by decide) (by simp) hboot
    sampleEvents (by decide)⟩

end Dispatch

end Kumo
