import Kumo.Sched.Launching
import Kumo.Sched.SwitchRuns
import Mathlib.Data.List.Pairwise

/-!
# From the boot to every switch

The tasks that `kmain` has launched are what the switching machine starts from: their stacks and
control blocks lie apart from each other and from the kernel's image, and each has its first
frame. So each task keeps its context in every run after `sti`, if programs write to user pages
and the idle loop to the image.
-/

namespace Kumo

open Memory Transition

/-- The image of the kernel: the stack that `boot.asm` has set up and the variables, in pages that
are taken before the boot. -/
structure BootImage (pmm : Pmm) (data : Nat → Prop) where
  low : Nat
  high : Nat
  lt : low < high
  stack : ∀ x, low ≤ x → x < high → pmm.taken.has (pageOf x)
  vars : ∀ x, data x → pmm.taken.has (pageOf x) ∧ (x < low ∨ high ≤ x)

namespace LaunchRun

/-- The launch of a task. -/
def find (s : LaunchRun) (t : Nat) : Option Launch := s.launched.find? fun l => l.task = t

/-- The tasks as the switching machine sees them. The idle task has the stack of the boot. -/
def taskStacks {pmm : Pmm} {data : Nat → Prop} (s : LaunchRun) (boot : BootImage pmm data) :
    TaskStacks where
  users := s.launched.map Launch.task
  idle := s.run.sched.current
  next := s.run.sched.next
  low t := ((s.find t).map fun l => l.kernelTop - 2 * pageSize).getD boot.low
  high t := ((s.find t).map Launch.kernelTop).getD boot.high
  entry t := ((s.find t).map Launch.entry).getD 0
  userEsp t := ((s.find t).map Launch.userEsp).getD 0

/-- The idle loop runs on the stack of the boot. Memory is as the launches have left it, but for the
image. -/
structure Idles {code : CodeLabels} {pmm : Pmm} (cc : CompiledC code) (boot : BootImage pmm cc.data)
    (s : Sched) (m : Machine) : Prop where
  current : m.current = s.current
  notes : m.notes = []
  registers : m.cpu.toContext.Words
  ring : ¬ m.cpu.InRing3
  low : boot.low + cc.depth + 128 ≤ m.cpu.esp
  high : m.cpu.esp ≤ boot.high
  mem : ∀ x, ¬ pmm.taken.has (pageOf x) → m.cpu.mem x = s.mem x

/-- What programs and the idle loop do between two entries into the kernel: a program writes to user
pages, which its directory confines it to, and the idle loop to the image. -/
def Confined {code : CodeLabels} {pmm : Pmm} (cc : CompiledC code) (boot : BootImage pmm cc.data)
    (L : TaskStacks) (m : Machine) : SwitchEvent cc.Choice → Prop
  | .run context stores =>
      context.Words ∧
      (m.current ∈ L.users → context.cs % 4 = 3 ∧ ∀ w ∈ stores, userMemStart ≤ w.1) ∧
      (m.current = L.idle → context.cs % 4 ≠ 3 ∧ boot.low + cc.depth + 128 ≤ context.esp ∧
        context.esp ≤ boot.high ∧ ∀ w ∈ stores, pmm.taken.has (pageOf w.1))
  | .irq _ => True
  | .syscall _ => m.current ∈ L.users ∧ m.cpu.eax = syscallYield
  | .idleYield _ => m.current = L.idle

variable {code : CodeLabels} {cc : CompiledC code} {pmm : Pmm} {data : Nat → Prop}
  (boot : BootImage pmm data) {s : LaunchRun} {l : Launch} {t u x r : Nat} {m : Machine}

/-! ## The tasks of a launch -/

theorem Inv.nodup (h : s.Inv r pmm.taken) :
    (s.run.sched.current :: s.launched.map Launch.task).Nodup := by
  obtain ⟨ring, hring, hperm⟩ := h.run.ring
  rw [← h.tasks]
  exact hperm.nodup_iff.mp hring.nodup

theorem Inv.find_launched (h : s.Inv r pmm.taken) (hl : l ∈ s.launched) :
    s.find l.task = some l := by
  have hnodup := (List.nodup_cons.mp h.nodup).2
  unfold find
  cases hfind : s.launched.find? fun l' => decide (l'.task = l.task) with
  | none => exact absurd (List.find?_eq_none.mp hfind l hl) (by simp)
  | some l' =>
      have htask : l'.task = l.task := by simpa using List.find?_some hfind
      exact congrArg some (List.inj_on_of_nodup_map hnodup (List.mem_of_find?_eq_some hfind) hl htask)

theorem Inv.find_idle (h : s.Inv r pmm.taken) : s.find s.run.sched.current = none := by
  refine List.find?_eq_none.mpr fun l hl heq => (List.nodup_cons.mp h.nodup).1 ?_
  rw [← of_decide_eq_true heq]
  exact List.mem_map_of_mem hl

@[simp] theorem taskStacks_tasks (h : s.Inv r pmm.taken) : (s.taskStacks boot).tasks = s.run.tasks :=
  h.tasks.symm

/-- The stack of a launched task. -/
theorem Inv.stack_launched (h : s.Inv r pmm.taken) (hl : l ∈ s.launched) :
    (s.taskStacks boot).low l.task = l.kernelTop - 2 * pageSize ∧
      (s.taskStacks boot).high l.task = l.kernelTop ∧ (s.taskStacks boot).entry l.task = l.entry ∧
      (s.taskStacks boot).userEsp l.task = l.userEsp := by
  have hlow : (s.taskStacks boot).low l.task =
      ((s.find l.task).map fun l => l.kernelTop - 2 * pageSize).getD boot.low := rfl
  have hhigh : (s.taskStacks boot).high l.task =
      ((s.find l.task).map Launch.kernelTop).getD boot.high := rfl
  have hentry : (s.taskStacks boot).entry l.task = ((s.find l.task).map Launch.entry).getD 0 := rfl
  have hesp : (s.taskStacks boot).userEsp l.task = ((s.find l.task).map Launch.userEsp).getD 0 := rfl
  rw [h.find_launched hl, Option.map_some, Option.getD_some] at hlow hhigh hentry hesp
  exact ⟨hlow, hhigh, hentry, hesp⟩

/-- The stack of the idle task. -/
theorem Inv.stack_idle (h : s.Inv r pmm.taken) :
    (s.taskStacks boot).low s.run.sched.current = boot.low ∧
      (s.taskStacks boot).high s.run.sched.current = boot.high := by
  simp only [taskStacks, h.find_idle, Option.map_none, Option.getD_none, and_self]

/-- A task is the idle task, or it was launched. -/
theorem Inv.task_cases (h : s.Inv r pmm.taken) (ht : t ∈ s.run.tasks) :
    t = s.run.sched.current ∨ ∃ l ∈ s.launched, l.task = t := by
  rw [h.tasks] at ht
  exact (List.mem_cons.mp ht).imp id List.mem_map.mp

/-- The pages of every stack are reserved. -/
theorem Inv.onStack_reserved (h : s.Inv r pmm.taken) (ht : t ∈ s.run.tasks)
    (hx : (s.taskStacks boot).OnStack t x) : s.run.sched.heap.reserved.has (pageOf x) := by
  obtain ⟨hlow, hhigh⟩ := hx
  rcases h.task_cases ht with rfl | ⟨l, hl, rfl⟩
  · rw [(h.stack_idle boot).1] at hlow
    rw [(h.stack_idle boot).2] at hhigh
    exact h.kept _ (boot.stack x hlow hhigh)
  · obtain ⟨heqlow, heqhigh, -⟩ := h.stack_launched boot hl
    rw [heqlow] at hlow
    rw [heqhigh] at hhigh
    obtain ⟨base, htop, hpages⟩ := (h.stands l hl).stack
    have hbase := (hpages 0 (by omega)).1.aligned
    have hpage : pageOf x = base + (x - base) / pageSize * pageSize := by
      simp only [pageOf, pageSize] at *
      omega
    rw [hpage]
    exact hpages _ (by simp only [pageSize] at *; omega)

/-- The image lies apart from the stacks of launched tasks. -/
theorem Inv.image_apart (h : s.Inv r pmm.taken) (hl : l ∈ s.launched)
    (hx : pmm.taken.has (pageOf x)) :
    ¬ (s.taskStacks boot).OnStack l.task x := by
  intro hon
  obtain ⟨hlow, hhigh, -⟩ := h.stack_launched boot hl
  simp only [TaskStacks.OnStack, hlow, hhigh] at hon
  have hout := h.outside l hl _ hx
  have haligned := (h.stands l hl).bounds.2.1
  simp only [pageOf, pageSize] at *
  omega

/-- The control blocks lie in the heap. -/
theorem Inv.block_inHeap (h : s.Inv r pmm.taken) (ht : t ∈ s.run.tasks) (hx : t ≤ x)
    (hx' : x < t + fdTableOff) : pageOf x ∈ s.run.sched.heap.heapPages :=
  h.run.backed.heap.inHeap (p := t) (n := taskSize) ⟨ht, rfl⟩ hx
    (Nat.lt_of_lt_of_le hx' (Nat.add_le_add_left (show fdTableOff ≤ taskSize by decide) t))

/-- A byte of a reserved page is in no control block. -/
theorem Inv.reserved_apart (h : s.Inv r pmm.taken) (ht : t ∈ s.run.tasks)
    (hx : s.run.sched.heap.reserved.has (pageOf x)) : x < t ∨ t + fdTableOff ≤ x := by
  by_contra hin
  rw [not_or, Nat.not_lt, Nat.not_le] at hin
  exact hx.2 (h.block_inHeap ht hin.1 hin.2)

theorem Inv.stack_word (h : s.Inv r pmm.taken) (ht : t ∈ s.run.tasks) :
    (s.taskStacks boot).low t < (s.taskStacks boot).high t ∧
      (s.taskStacks boot).high t ≤ userMemStart := by
  rcases h.task_cases ht with rfl | ⟨l, hl, rfl⟩
  · have hlt := boot.lt
    have hlast := (boot.stack (boot.high - 1) (by omega) (by omega)).upper
    rw [(h.stack_idle boot).1, (h.stack_idle boot).2]
    simp only [pageOf, pageSize] at *
    omega
  · obtain ⟨hlow, hhigh, -⟩ := h.stack_launched boot hl
    obtain ⟨hsize, -, hupper⟩ := (h.stands l hl).bounds
    rw [hlow, hhigh]
    simp only [pageSize] at *
    omega

/-- The stacks of two tasks do not overlap. -/
theorem Inv.stacks_apart (h : s.Inv r pmm.taken) (ht : t ∈ s.run.tasks) (hu : u ∈ s.run.tasks)
    (hne : t ≠ u) : (s.taskStacks boot).high t ≤ (s.taskStacks boot).low u ∨
      (s.taskStacks boot).high u ≤ (s.taskStacks boot).low t := by
  -- the stack of the boot and that of a launched task
  have hidle : ∀ l ∈ s.launched, boot.high ≤ (s.taskStacks boot).low l.task ∨
      (s.taskStacks boot).high l.task ≤ boot.low := by
    intro l hl
    by_contra hover
    rw [not_or, Nat.not_le, Nat.not_le] at hover
    obtain ⟨hlow, hhigh, -⟩ := h.stack_launched boot hl
    have hbounds := (h.stands l hl).bounds.1
    have hlt := boot.lt
    have hsize : (s.taskStacks boot).low l.task < (s.taskStacks boot).high l.task := by
      rw [hlow, hhigh]
      simp only [pageSize] at *
      omega
    exact h.image_apart boot hl
      (boot.stack (max boot.low ((s.taskStacks boot).low l.task)) (by omega) (by omega))
      ⟨by omega, by omega⟩
  rcases h.task_cases ht with rfl | ⟨l, hl, rfl⟩
  · rcases h.task_cases hu with rfl | ⟨l', hl', rfl⟩
    · exact absurd rfl hne
    · rw [(h.stack_idle boot).1, (h.stack_idle boot).2]
      exact hidle l' hl'
  · rcases h.task_cases hu with rfl | ⟨l', hl', rfl⟩
    · rw [(h.stack_idle boot).1, (h.stack_idle boot).2]
      exact (hidle l hl).symm
    · have happart : Apart l l' := h.apart.forall hl hl' fun heq => hne (congrArg Launch.task heq)
      obtain ⟨hlow, hhigh, -⟩ := h.stack_launched boot hl
      obtain ⟨hlow', hhigh', -⟩ := h.stack_launched boot hl'
      rw [hlow, hhigh, hlow', hhigh']
      exact happart.imp Nat.le_sub_of_add_le Nat.le_sub_of_add_le

/-- The stacks and the control blocks of the tasks lie apart. -/
theorem Inv.taskStacks_apart {boot : BootImage pmm cc.data} (h : s.Inv r pmm.taken) :
    (s.taskStacks boot).Apart cc.data := by
  have htasks := taskStacks_tasks boot h
  constructor
  case idle => exact (List.nodup_cons.mp h.nodup).1
  case next =>
    intro t ht
    rw [htasks] at ht ⊢
    obtain ⟨ring, hring, hperm⟩ := h.run.ring
    exact hperm.mem_iff.mp (hring.step_mem (hperm.mem_iff.mpr ht))
  case size =>
    intro t ht
    obtain ⟨l, hl, rfl⟩ := List.mem_map.mp ht
    obtain ⟨hlow, hhigh, -⟩ := h.stack_launched boot hl
    rw [hlow, hhigh]
    exact (Nat.sub_add_cancel (h.stands l hl).bounds.1).symm
  case word =>
    intro t ht
    rw [htasks] at ht
    obtain ⟨hlow, hhigh⟩ := h.stack_word boot ht
    have hlt := (h.run.backed.task_lt ht).2
    simp only [userMemStart] at hhigh
    exact ⟨by omega, Nat.le_of_lt hlow, by omega⟩
  case stack =>
    intro t ht u hu
    rw [htasks] at ht hu
    exact h.stacks_apart boot ht hu
  case block =>
    intro t ht u hu
    rw [htasks] at ht hu
    by_contra hover
    rw [not_or, Nat.not_le, Nat.not_le] at hover
    have hfd : 0 < fdTableOff := by decide
    obtain ⟨hlow, -⟩ := h.stack_word boot ht
    -- the later of the two starts would be in both
    have hx : s.run.sched.heap.reserved.has (pageOf (max u ((s.taskStacks boot).low t))) :=
      h.onStack_reserved boot ht ⟨by omega, by omega⟩
    rcases h.reserved_apart hu hx with hlt | hge <;> omega
  case blocks =>
    intro t ht u hu hne
    rw [htasks] at ht hu
    have hsize : fdTableOff ≤ taskSize := by decide
    have hdisjoint := h.run.backed.heap.disjoint (p := t) (n := taskSize) (q := u) (m := taskSize)
      ⟨ht, rfl⟩ ⟨hu, rfl⟩ hne
    omega
  case data =>
    intro t ht x hx
    rw [htasks] at ht
    obtain ⟨hpage, hout⟩ := boot.vars x hx
    refine ⟨?_, h.reserved_apart ht (h.kept _ hpage)⟩
    rcases h.task_cases ht with rfl | ⟨l, hl, rfl⟩
    · simp only [TaskStacks.OnStack, (h.stack_idle boot).1, (h.stack_idle boot).2]
      omega
    · exact h.image_apart boot hl hpage

/-! ## The start of the switching machine -/

/-- The words of a list, one by one. -/
theorem wordsAt_of_getElem {mem : Memory} {a : Nat} {ws : List Nat}
    (h : ∀ i (hi : i < ws.length), mem.load32 (a + 4 * i) = ws[i]) : WordsAt mem a ws := by
  induction ws generalizing a with
  | nil => trivial
  | cons w ws ih =>
      refine ⟨h 0 (Nat.succ_pos _), ih fun i hi => ?_⟩
      have hword := h (i + 1) (Nat.succ_lt_succ hi)
      rw [show a + 4 * (i + 1) = a + 4 + 4 * i by omega] at hword
      exact hword

/-- The idle loop finds the tasks as they were launched. -/
theorem Inv.started {boot : BootImage pmm cc.data} (h : s.Inv code.returnToRing3 pmm.taken)
    (hidle : Idles cc boot s.run.sched m) : Started cc (s.taskStacks boot) m := by
  -- the machine reads the words of the control blocks where the scheduler has them
  have hfield : ∀ t ∈ s.run.tasks, ∀ off, off + 4 ≤ fdTableOff →
      m.cpu.mem.load32 (t + off) = s.run.sched.field t off := by
    intro t ht off hoff
    refine load32_congr fun x hx hx' => hidle.mem x fun himage => ?_
    have hout := h.reserved_apart ht (h.kept _ himage)
    omega
  have hlaunched : ∀ l ∈ s.launched, l.task ∈ s.run.tasks := by
    intro l hl
    rw [h.tasks]
    exact List.mem_cons_of_mem _ (List.mem_map_of_mem hl)
  refine ⟨hidle.current, hidle.notes, hidle.registers, hidle.ring, ?_, ?_, fun t ht => ?_,
    fun t ht => ?_, fun t ht => ?_, fun t ht => ?_⟩
  · show (s.taskStacks boot).low s.run.sched.current + _ + _ ≤ _
    rw [(h.stack_idle boot).1]
    exact hidle.low
  · show _ ≤ (s.taskStacks boot).high s.run.sched.current
    rw [(h.stack_idle boot).2]
    exact hidle.high
  · rw [taskStacks_tasks boot h] at ht
    exact hfield t ht nextOff (by decide)
  all_goals
    obtain ⟨l, hl, rfl⟩ := List.mem_map.mp ht
    obtain ⟨-, hhigh, hentry, hesp⟩ := h.stack_launched boot hl
    have hstands := h.stands l hl
  · rw [hfield _ (hlaunched l hl) _ (by decide), hhigh]
    exact hstands.top
  · rw [hfield _ (hlaunched l hl) _ (by decide), hhigh]
    exact hstands.esp
  · rw [hfield _ (hlaunched l hl) _ (by decide), TaskStacks.firstFrame, hentry, hesp]
    have hsp : s.run.sched.field l.task espOff = l.kernelTop - 40 := by
      rw [← hstands.esp, Nat.add_sub_cancel]
    rw [hsp]
    refine wordsAt_of_getElem fun i hi => (load32_congr fun x hx hx' => ?_).trans
      (hstands.frame i hi)
    refine hidle.mem x fun himage => h.image_apart boot hl himage ?_
    have hsize := hstands.bounds.1
    have hi : i < 10 := hi
    obtain ⟨hlow, -⟩ := h.stack_launched boot hl
    simp only [TaskStacks.OnStack, hlow, hhigh, pageSize] at *
    omega

/-- What is confined to user pages and to the image leaves stacks and control blocks alone. -/
theorem Inv.valid {boot : BootImage pmm cc.data} {e : SwitchEvent cc.Choice}
    (h : s.Inv r pmm.taken) (hswitch : SwitchInv cc (s.taskStacks boot) m)
    (hconfined : Confined cc boot (s.taskStacks boot) m e) : Valid cc (s.taskStacks boot) m e := by
  cases e with
  | irq choice => trivial
  | syscall choice => exact hconfined
  | idleYield choice => exact hconfined
  | run context stores =>
      obtain ⟨hwords, huser, hidle⟩ := hconfined
      refine ⟨hwords, fun w hw t ht => ?_, fun hu => (huser hu).1, fun hi => ?_⟩
      · rw [taskStacks_tasks boot h] at ht
        rcases hswitch.cases with hu | hi
        · have hlow := (huser hu).2 w hw
          obtain ⟨-, hhigh⟩ := h.stack_word boot ht
          have hblock := (h.run.backed.heap.bounds (p := t) (n := taskSize) ⟨ht, rfl⟩).2.2
          have hsize : fdTableOff ≤ taskSize := by decide
          refine ⟨fun _ hon => ?_, by omega⟩
          have hlt := hon.2
          omega
        · have himage := (hidle hi).2.2.2 w hw
          refine ⟨fun hne => ?_, h.reserved_apart ht (h.kept _ himage)⟩
          rcases h.task_cases ht with rfl | ⟨l, hl, rfl⟩
          · exact absurd hi.symm hne
          · exact h.image_apart boot hl himage
      · obtain ⟨hring, hlow, hhigh, -⟩ := hidle hi
        refine ⟨hring, ?_, ?_⟩
        · show (s.taskStacks boot).low s.run.sched.current + _ + _ ≤ _
          rw [(h.stack_idle boot).1]
          exact hlow
        · show _ ≤ (s.taskStacks boot).high s.run.sched.current
          rw [(h.stack_idle boot).2]
          exact hhigh

/-- From the boot on: whatever tasks `kmain` launches, in every run after it each of them goes on
with the registers of its last entry into the kernel, or with those its creator has chosen. -/
theorem booted_contexts_kept {top : Nat} {mem : Memory} {framebuffer : Option (Nat × Nat)}
    {sched : Sched} (hwf : pmm.Wf) (htotal : pmm.totalPages = pmmTotalPages top)
    (htop : top < 2 ^ 32) (hfb : ∀ fb ∈ framebuffer, fb.1 < 2 ^ 32)
    (hboot : Sched.boot mem pmm top framebuffer = some sched) {launching : List SchedEvent}
    (hlaunching : ∀ e ∈ launching, Launches e)
    (hlaunched : Transition.run (step code.returnToRing3) ⟨⟨sched, [sched.current]⟩, []⟩ launching =
      some s)
    {boot : BootImage pmm cc.data} (hidle : Idles cc boot s.run.sched m)
    {events : List (SwitchEvent cc.Choice)}
    (hconfined : Meets (Machine.step cc) (Confined cc boot (s.taskStacks boot)) m events) :
    ∃ final, Transition.run (Machine.step cc) m events = some final ∧
      final.current ∈ s.run.tasks ∧ NotesSound (s.taskStacks boot) final.notes := by
  have hreturn : code.returnToRing3 < 2 ^ 32 := code.words _ (List.mem_cons_self ..)
  have hstart : Inv code.returnToRing3 pmm.taken ⟨⟨sched, [sched.current]⟩, []⟩ := by
    refine ⟨SchedRun.boot_inv hwf htotal htop hfb hboot, rfl, fun q hq => ?_, fun l hl => ?_,
      List.Pairwise.nil, fun l hl => ?_⟩
    · exact Sched.boot_reserved hwf htotal htop hfb hboot hq
    · cases hl
    · cases hl
  have hinv : Inv code.returnToRing3 pmm.taken s :=
    (along_of_step (Q := fun _ _ _ => True) (fun _ _ _ h he hstep =>
      ⟨(h.step hreturn he hstep).1, trivial⟩) hstart (meets_of_forall hlaunching _)).2 s hlaunched
  obtain ⟨-, final, hrun, hfinal⟩ := along_of_invariant (Q := fun _ _ _ => True)
    (fun state event h hevent => by
      obtain ⟨next, hstep, hnext, -⟩ :=
        SwitchInv.step h hinv.taskStacks_apart (hinv.valid h hevent)
      exact ⟨next, hstep, hnext, trivial⟩)
    ((hinv.started hidle).inv hinv.taskStacks_apart) hconfined
  have hcurrent := hfinal.current
  rw [taskStacks_tasks boot hinv] at hcurrent
  exact ⟨final, hrun, hcurrent, hfinal.sound⟩

/-! ### A sample -/

/-- The pages of the boot stack are not free. -/
theorem sampleBoot_stack (x : Nat) (hlow : 0x150000 ≤ x) (hhigh : x < 0x152000) :
    Kernel.samplePmm.taken.has (pageOf x) := by
  have hpage : pageOf x = 0x150000 ∨ pageOf x = 0x151000 := by
    simp only [pageOf, pageSize]
    omega
  rcases hpage with hpage | hpage
  · rw [hpage]
    exact ⟨by decide, by decide, by decide, by decide⟩
  · rw [hpage]
    exact ⟨by decide, by decide, by decide, by decide⟩

theorem sampleBoot_lt : 0x150000 < 0x152000 := by decide

/-- A stack of two pages. -/
def sampleBoot : BootImage Kernel.samplePmm sampleC.data where
  low := 0x150000
  high := 0x152000
  lt := sampleBoot_lt
  stack := sampleBoot_stack
  vars _ h := h.elim

/-- A program is copied to a page, and a task is created for it. -/
def sampleLaunching : List SchedEvent :=
  [.pages .userPage, .store 0x800000 0x90, .kmalloc 100, .createUserWithPages 0x800000 0 [0x800000]]

/-- The processor in the idle loop. -/
def sampleIdle (s : Sched) : Machine where
  cpu := {
    eax := 0, ebx := 0, ecx := 0, edx := 0, esi := 0, edi := 0, ebp := 0, esp := 0x152000,
    eip := 0x100000, eflags := 0x202, cs := kernelCs, ss := kernelDs
    segments := .all kernelDs
    cr3 := s.cr3
    mem := s.mem }
  current := s.current
  esp0 := s.esp0
  notes := []

theorem sampleLaunched : ((Sched.boot (fun _ => 0) Kernel.samplePmm 0x802000 none).bind fun s =>
    (Transition.run (step sampleLabels.returnToRing3) ⟨⟨s, [s.current]⟩, []⟩ sampleLaunching).map
      fun launched => launched.launched.length) = some 1 := by
  decide +kernel

theorem booted_contexts_kept_sample : ∃ s launched final,
    Sched.boot (fun _ => 0) Kernel.samplePmm 0x802000 none = some s ∧
      Transition.run (step sampleLabels.returnToRing3) ⟨⟨s, [s.current]⟩, []⟩ sampleLaunching =
        some launched ∧ launched.launched.length = 1 ∧
      Transition.run (Machine.step sampleC) (sampleIdle launched.run.sched)
        [.idleYield (), .irq (), .irq ()] = some final ∧
      final.current ∈ launched.run.tasks ∧
      NotesSound (launched.taskStacks sampleBoot) final.notes := by
  obtain ⟨s, hboot, hrest⟩ := Option.bind_eq_some_iff.mp sampleLaunched
  obtain ⟨launched, hlaunched, hlength⟩ := Option.map_eq_some_iff.mp hrest
  have hidle : Idles sampleC sampleBoot launched.run.sched (sampleIdle launched.run.sched) := by
    refine ⟨rfl, rfl, ?_, ?_, ?_, ?_, fun _ _ => rfl⟩
    · constructor <;> simp only [sampleIdle] <;> decide
    · simp only [Cpu.InRing3, sampleIdle]
      decide
    · show 0x150000 + 28 + 128 ≤ 0x152000
      decide
    · exact Nat.le_refl _
  have hlaunching : ∀ e ∈ sampleLaunching, Launches e := by decide
  have hconfined : Meets (Machine.step sampleC)
      (Confined sampleC sampleBoot (launched.taskStacks sampleBoot)) (sampleIdle launched.run.sched)
      [.idleYield (), .irq (), .irq ()] :=
    ⟨rfl, fun _ _ => ⟨trivial, fun _ _ => ⟨trivial, fun _ _ => trivial⟩⟩⟩
  obtain ⟨final, hrun, hcurrent, hsound⟩ := booted_contexts_kept Kernel.samplePmm_wf rfl (by decide)
    (by simp) hboot hlaunching hlaunched hidle hconfined
  exact ⟨s, launched, final, hboot, hlaunched, hlength, hrun, hcurrent, hsound⟩

end LaunchRun

end Kumo
