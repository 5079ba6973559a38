import Kumo.Lib.Transition
import Kumo.Sched.SwitchInvariant

/-!
# Runs of the switching machine

The timer and `SYSCALL_YIELD` switch between the tasks and the idle loop in any order. Every step of
the machine keeps the invariant of the stacks, so each task goes on in ring 3 with the
registers of its last entry into the kernel. The data segment registers are not saved: the
stub of IRQ0 leaves them as they are, and they are those of the task before.
-/

namespace Kumo

open Memory Transition

variable {code : CodeLabels} {cc : CompiledC code} {L : TaskStacks} {notes : List Note} {t : Nat}
  {f : Callee} {b c : Cpu} {ws args : List Nat} {s s' : Machine} {e : SwitchEvent cc.Choice}

/-- What a program and the idle loop may do between two entries into the kernel: a program stays in
ring 3, the idle loop keeps to its stack, and neither stores to a stack of another task or to a
control block. The data segment registers are left alone. -/
def Valid (cc : CompiledC code) (L : TaskStacks) (s : Machine) : SwitchEvent cc.Choice → Prop
  | .run context stores =>
      context.Words ∧ (∀ w ∈ stores, ∀ t ∈ L.tasks,
        (t ≠ s.current → ¬ L.OnStack t w.1) ∧ (w.1 < t ∨ t + fdTableOff ≤ w.1)) ∧
      (s.current ∈ L.users → context.cs % 4 = 3) ∧
      (s.current = L.idle → context.cs % 4 ≠ 3 ∧ L.low L.idle + cc.depth + 128 ≤ context.esp ∧
        context.esp ≤ L.high L.idle)
  | .irq _ => True
  | .syscall _ => s.current ∈ L.users ∧ s.cpu.eax = syscallYield
  | .idleYield _ => s.current = L.idle

/-- The frames of an entry into the kernel, up to a call of C code. -/
theorem Pushed.inCall (h : Pushed b c (f.returnAddress code :: (args ++ ws)))
    (hargs : 4 * args.length = f.argBytes) (habove : Above L notes t f ws b.esp)
    (hregisters : c.toContext.Words) (hlow : L.low t + cc.depth + 128 ≤ b.esp)
    (hhigh : b.esp ≤ L.high t) (hsmall : ws.length + args.length < 32) :
    InCall cc L notes t f c ws b.esp := by
  have hesp := h.esp
  obtain ⟨hret, hwords⟩ := h.words
  rw [List.length_cons, List.length_append] at hesp
  rw [WordsAt.append_iff, hargs] at hwords
  exact ⟨habove, hregisters, by omega, by omega, ⟨hlow, hhigh⟩, hret, hwords.2⟩

/-- What is pushed on the stack of a task leaves the rest of memory as it is. -/
theorem Pushed.ready {mem : Memory} (h : Pushed b c ws) (hready : Ready cc L mem notes t)
    (hL : L.Apart cc.data) (ht : t ∈ L.tasks) (hmem : b.mem = mem) (hlow : L.low t ≤ c.esp)
    (hhigh : b.esp ≤ L.high t) {notes' : List Note}
    (hentry : ∀ u ∈ L.tasks, u ≠ t → lastEntry notes' u = lastEntry notes u) :
    Ready cc L c.mem notes' t := by
  refine hready.congr hL ht hentry fun x hx _ => ?_
  simp only [TaskStacks.OnStack] at hx
  rw [h.outside x (by omega), hmem]

/-- The bytes that are not stored stay as they are. -/
theorem Machine.storeAll_outside {m : Memory} {stores : List (Nat × BitVec 8)} {x : Nat}
    (h : ∀ w ∈ stores, w.1 ≠ x) : storeAll m stores x = m x := by
  induction stores generalizing m with
  | nil => rfl
  | cons w stores ih =>
      have hrest := ih (m := m.store8 w.1 w.2) fun w' hw' => h w' (List.mem_cons_of_mem w hw')
      exact hrest.trans (store8_other (Ne.symm (h w (List.mem_cons_self ..))))

/-! ## One step -/

/-- The notes that a step makes when it enters the kernel. -/
def entryNotes {Choice : Type} (s : Machine) : SwitchEvent Choice → List Note
  | .run .. | .idleYield _ => []
  | .irq _ => if s.cpu.InRing3 then [.enter s.current s.cpu.toContext .irq] else []
  | .syscall _ =>
      [.dispatch [s.cpu.eax, s.cpu.ebx, s.cpu.ecx, s.cpu.edx, s.cpu.esi, s.cpu.edi],
        .enter s.current s.cpu.toContext .syscall]

/-- The data segment registers while C code runs. -/
def kernelSegments {Choice : Type} (s : Machine) : SwitchEvent Choice → DataSegments
  | .syscall _ => .all 0x10
  | _ => s.cpu.segments

/-- What a step does: the program or the idle loop has run, or the next task runs. -/
def Stepped {Choice : Type} (L : TaskStacks) (s : Machine) (e : SwitchEvent Choice) (s' : Machine) :
    Prop :=
  match e with
  | .run context _ => s'.current = s.current ∧ s'.notes = s.notes ∧
      s'.cpu.toContext = context ∧ s'.cpu.segments = s.cpu.segments
  | e => Switched L (entryNotes s e ++ s.notes) (kernelSegments s e) (L.next s.current) s'

/-- A task that runs is a user or the idle loop. -/
theorem SwitchInv.cases (h : SwitchInv cc L s) : s.current ∈ L.users ∨ s.current = L.idle :=
  (List.mem_cons.mp h.current).symm

/-- The program or the idle loop runs. -/
theorem SwitchInv.run (h : SwitchInv cc L s) (hL : L.Apart cc.data) {context : Context}
    {stores : List (Nat × BitVec 8)} (hvalid : Valid cc L s (.run context stores)) :
    SwitchInv cc L { s with cpu := { s.cpu with
      toContext := context, mem := Machine.storeAll s.cpu.mem stores } } := by
  obtain ⟨hwords, hstores, huser, hidle⟩ := hvalid
  have hoff : espOff = 0 ∧ nextOff = 12 ∧ cr3Off = 20 ∧ fdTableOff = 24 := ⟨rfl, rfl, rfl, rfl⟩
  have hblock : ∀ u ∈ L.tasks, ∀ x, u ≤ x → x < u + fdTableOff →
      Machine.storeAll s.cpu.mem stores x = s.cpu.mem x := by
    intro u hu x hx hx'
    refine Machine.storeAll_outside fun w hw heq => ?_
    have hout := (hstores w hw u hu).2
    omega
  have hready : Ready cc L (Machine.storeAll s.cpu.mem stores) s.notes s.current := by
    refine h.ready.of_same hL (fun _ _ _ => rfl)
      (fun u hu x hx hx' => hblock u hu x (by omega) (by omega))
      (fun u hu _ x hx hx' => hblock u hu x (by omega) (by omega)) fun u hu hne x hx => ?_
    refine Machine.storeAll_outside fun w hw heq => ?_
    exact (hstores w hw u hu).1 hne (heq ▸ hx)
  exact ⟨h.current, hwords, hready, fun hu => ⟨huser hu, (h.user hu).2⟩, hidle, h.sound⟩

/-- The last entry of a task that does not enter the kernel. -/
theorem lastEntry_enter {r : Context} {trap : Trap} {u : Nat} (hne : u ≠ t) :
    lastEntry (.enter t r trap :: notes) u = lastEntry notes u := by
  rw [lastEntry, if_neg (Ne.symm hne)]

/-- The registers after an interrupt. -/
theorem Context.Words.interrupt {r : Context} (h : r.Words) {esp ss : Nat} (hesp : esp < 2 ^ 32)
    (hss : ss < 2 ^ 32) : ({ r with
      esp := esp, cs := kernelCs, ss := ss, eflags := maskInterrupts r.eflags } : Context).Words :=
  { h with
    esp := hesp
    cs := (show kernelCs < 2 ^ 32 by decide)
    ss := hss
    eflags := Nat.lt_of_le_of_lt (maskInterrupts_le ..) h.eflags }

/-- The running task has called C code: it yields to the next task. -/
theorem SwitchInv.enter (h : SwitchInv cc L s) (hL : L.Apart cc.data) (f : Callee) (args : List Nat)
    (notes : List Note) (hpushed : Pushed b c (f.returnAddress code :: (args ++ ws)))
    (hmem : b.mem = s.cpu.mem) (hargs : 4 * args.length = f.argBytes)
    (habove : Above L notes s.current f ws b.esp) (hregisters : c.toContext.Words)
    (hlow : L.low s.current + cc.depth + 128 ≤ b.esp) (hhigh : b.esp ≤ L.high s.current)
    (hsmall : ws.length + args.length < 31) (hcs : c.cs % 4 ≠ 3) (hsound : NotesSound L notes)
    (hentry : ∀ u ∈ L.tasks, u ≠ s.current → lastEntry notes u = lastEntry s.notes u)
    (choice : cc.Choice) :
    ∃ s', (({ s with cpu := c, notes := notes } : Machine).yield cc f choice).finish cc = some s' ∧
      SwitchInv cc L s' ∧ Switched L notes c.segments (L.next s.current) s' := by
  have hesp := hpushed.esp
  rw [List.length_cons, List.length_append] at hesp
  have hcall := hpushed.inCall hargs habove hregisters hlow hhigh (by omega)
  have hready := hpushed.ready h.ready hL h.current hmem (by omega) hhigh hentry
  exact hcall.yield (s := ⟨c, s.current, s.esp0, notes⟩) hL h.current rfl rfl hready
    (fun hu => (h.user hu).2) hcs hsound choice

/-- The timer interrupts a program. -/
theorem SwitchInv.irq_user (h : SwitchInv cc L s) (hL : L.Apart cc.data) (hu : s.current ∈ L.users)
    (choice : cc.Choice) :
    ∃ s', s.step cc (.irq choice) = some s' ∧ SwitchInv cc L s' ∧ Stepped L s (.irq choice) s' := by
  obtain ⟨hring, hesp0⟩ := h.user hu
  have hsize := hL.size _ hu
  have hword := (hL.word _ h.current).2.2
  have hsmall := cc.small
  simp only [pageSize] at hsize hsmall
  obtain ⟨hpushed, hregs, hsegs⟩ := Cpu.interrupt_ring3 hring h.registers
    (show 20 ≤ s.esp0 by omega)
  have hstep : s.step cc (.irq choice) = (({ s with
      cpu := (s.cpu.interrupt s.esp0).irqEntry code
      notes := .enter s.current s.cpu.toContext .irq :: s.notes } : Machine).yield cc .irqHandler
        choice).finish cc := by
    rw [Machine.step, Machine.noteEnter, if_pos hring]
  have hnotes : entryNotes s (.irq choice) = [.enter s.current s.cpu.toContext .irq] := if_pos hring
  rw [hstep]
  generalize s.cpu.interrupt s.esp0 = k at hpushed hregs hsegs
  have hkesp : k.esp = s.esp0 - 20 := congrArg Context.esp hregs
  have hkcs : k.cs = kernelCs := by rw [hregs]
  have hkwords : k.toContext.Words := hregs ▸ h.registers.interrupt (by omega) (by decide)
  obtain ⟨x, y, hentry⟩ := hpushed.irqEntry code (by omega) hkwords
  obtain ⟨heregs, hesegs⟩ := k.irqEntry_registers code
  have hecs : (k.irqEntry code).cs = k.cs := by rw [heregs]
  have hsaved : savedRegisters k.toContext x = savedRegisters s.cpu.toContext x := by
    rw [hregs]
    rfl
  rw [hsaved] at hentry
  have habove : Above L (.enter s.current s.cpu.toContext .irq :: s.notes) s.current .irqHandler
      (savedRegisters s.cpu.toContext x ++ (vectorWords ++ iretFrame s.cpu.toContext)) s.esp0 :=
    hesp0 ▸ .preempted hu (if_pos rfl) h.registers hring
  obtain ⟨s', hfinish, hinv, hswitched⟩ := h.enter hL .irqHandler [y] _ hentry rfl rfl habove
    (heregs ▸ hkwords.push 48) (by show _ ≤ s.esp0; omega) (Nat.le_of_eq hesp0)
    (show 15 + 1 < 31 by decide) (by rw [hecs, hkcs]; decide) ⟨trivial, h.sound⟩
    (fun u _ hne => lastEntry_enter hne) choice
  rw [hesegs, hsegs] at hswitched
  refine ⟨s', hfinish, hinv, ?_⟩
  show Switched L (entryNotes s (.irq choice) ++ s.notes) s.cpu.segments _ s'
  rw [hnotes]
  exact hswitched

/-- The timer interrupts the idle loop. -/
theorem SwitchInv.irq_idle (h : SwitchInv cc L s) (hL : L.Apart cc.data) (hidle : s.current = L.idle)
    (choice : cc.Choice) :
    ∃ s', s.step cc (.irq choice) = some s' ∧ SwitchInv cc L s' ∧ Stepped L s (.irq choice) s' := by
  obtain ⟨hring, hlow, hhigh⟩ := h.idle hidle
  have hword := (hL.word L.idle (List.mem_cons_self ..)).2.2
  obtain ⟨hpushed, hregs, hsegs⟩ := Cpu.interrupt_ring0 hring h.registers (by omega) s.esp0
  have hstep : s.step cc (.irq choice) = (({ s with
      cpu := (s.cpu.interrupt s.esp0).irqEntry code
      notes := s.notes } : Machine).yield cc .irqHandler choice).finish cc := by
    rw [Machine.step, Machine.noteEnter, if_neg hring]
  have hnotes : entryNotes s (.irq choice) = [] := if_neg hring
  rw [hstep]
  generalize s.cpu.interrupt s.esp0 = k at hpushed hregs hsegs
  have hkesp : k.esp = s.cpu.esp - 12 := congrArg Context.esp hregs
  have hkcs : k.cs = kernelCs := by rw [hregs]
  have hkwords : k.toContext.Words := hregs ▸ h.registers.interrupt (by omega) h.registers.ss
  obtain ⟨x, y, hentry⟩ := hpushed.irqEntry code (by omega) hkwords
  obtain ⟨heregs, hesegs⟩ := k.irqEntry_registers code
  have hecs : (k.irqEntry code).cs = k.cs := by rw [heregs]
  have hsaved : savedRegisters k.toContext x = savedRegisters s.cpu.toContext x := by
    rw [hregs]
    rfl
  rw [hsaved] at hentry
  have habove : Above L s.notes s.current .irqHandler
      (savedRegisters s.cpu.toContext x ++ (vectorWords ++ kernelFrame s.cpu.toContext)) s.cpu.esp :=
    .idlePreempted hidle h.registers hring
  obtain ⟨s', hfinish, hinv, hswitched⟩ := h.enter hL .irqHandler [y] _ hentry rfl rfl habove
    (heregs ▸ hkwords.push 48) (hidle ▸ hlow) (hidle ▸ hhigh)
    (show 13 + 1 < 31 by decide) (by rw [hecs, hkcs]; decide) h.sound
    (fun _ _ _ => rfl) choice
  rw [hesegs, hsegs] at hswitched
  refine ⟨s', hfinish, hinv, ?_⟩
  show Switched L (entryNotes s (.irq choice) ++ s.notes) s.cpu.segments _ s'
  rw [hnotes]
  exact hswitched

/-- The words that a C function finds as its arguments. -/
theorem WordsAt.args_eq (args : List Nat) (h : WordsAt c.mem (c.esp + 4) (args ++ ws)) :
    Machine.args c args.length = args := by
  refine List.ext_getElem (by simp [Machine.args]) fun i hi hi' => ?_
  have hget := (WordsAt.append_iff.mp h).1.get hi'
  simpa [Machine.args] using hget

/-- A program makes the system call. -/
theorem SwitchInv.syscall (h : SwitchInv cc L s) (hL : L.Apart cc.data) (hu : s.current ∈ L.users)
    (heax : s.cpu.eax = syscallYield) (choice : cc.Choice) :
    ∃ s', s.step cc (.syscall choice) = some s' ∧ SwitchInv cc L s' ∧
      Stepped L s (.syscall choice) s' := by
  obtain ⟨hring, hesp0⟩ := h.user hu
  have hsize := hL.size _ hu
  have hword := (hL.word _ h.current).2.2
  have hsmall := cc.small
  simp only [pageSize] at hsize hsmall
  obtain ⟨hpushed, hregs, hsegs⟩ := Cpu.interrupt_ring3 hring h.registers
    (show 20 ≤ s.esp0 by omega)
  have hstep : s.step cc (.syscall choice) = (({ s with
      cpu := (s.cpu.interrupt s.esp0).syscallEntry code
      notes := .dispatch (Machine.args ((s.cpu.interrupt s.esp0).syscallEntry code) 6) ::
        .enter s.current s.cpu.toContext .syscall :: s.notes } : Machine).yield cc .syscallDispatch
        choice).finish cc := by
    rw [Machine.step, if_neg (not_not_intro heax), Machine.noteEnter, if_pos hring]
  rw [hstep]
  generalize s.cpu.interrupt s.esp0 = k at hpushed hregs hsegs
  have hkesp : k.esp = s.esp0 - 20 := congrArg Context.esp hregs
  have hkcs : k.cs = kernelCs := by rw [hregs]
  have hkwords : k.toContext.Words := hregs ▸ h.registers.interrupt (by omega) (by decide)
  obtain ⟨x, hentry⟩ := hpushed.syscallEntry code (by omega) hkwords
  obtain ⟨heregs, hesegs⟩ := k.syscallEntry_registers code
  have hecs : (k.syscallEntry code).cs = k.cs := by rw [heregs]
  have hwords : (k.syscallEntry code).toContext.Words := by
    have heax' : setLow16 k.eax 0x10 < 2 ^ 32 := by
      have hlt := hkwords.eax
      simp only [setLow16]
      omega
    rw [heregs]
    exact { hkwords.push 60 with eax := heax' }
  have hsaved : savedRegisters k.toContext x = savedRegisters s.cpu.toContext x := by
    rw [hregs]
    rfl
  rw [hsaved] at hentry
  have hargs : Machine.args (k.syscallEntry code) 6 =
      [s.cpu.eax, s.cpu.ebx, s.cpu.ecx, s.cpu.edx, s.cpu.esi, s.cpu.edi] := by
    have hfound := WordsAt.args_eq [k.eax, k.ebx, k.ecx, k.edx, k.esi, k.edi] hentry.words.2
    rw [hregs] at hfound
    exact hfound
  rw [hargs]
  have habove : Above L (.dispatch
        [s.cpu.eax, s.cpu.ebx, s.cpu.ecx, s.cpu.edx, s.cpu.esi, s.cpu.edi] ::
      .enter s.current s.cpu.toContext .syscall :: s.notes) s.current .syscallDispatch
      (savedRegisters s.cpu.toContext x ++ iretFrame s.cpu.toContext) s.esp0 :=
    hesp0 ▸ .yielded hu (if_pos rfl) h.registers hring
  obtain ⟨s', hfinish, hinv, hswitched⟩ := h.enter hL .syscallDispatch
    [k.eax, k.ebx, k.ecx, k.edx, k.esi, k.edi] _ hentry rfl rfl habove hwords
    (by show _ ≤ s.esp0; omega) (Nat.le_of_eq hesp0) (show 13 + 6 < 31 by decide)
    (by rw [hecs, hkcs]; decide) ⟨⟨_, _, _, rfl, rfl⟩, trivial, h.sound⟩
    (fun u _ hne => lastEntry_enter hne) choice
  rw [hesegs] at hswitched
  exact ⟨s', hfinish, hinv, hswitched⟩

/-- The idle loop yields. -/
theorem SwitchInv.idleYield (h : SwitchInv cc L s) (hL : L.Apart cc.data)
    (hidle : s.current = L.idle) (choice : cc.Choice) :
    ∃ s', s.step cc (.idleYield choice) = some s' ∧ SwitchInv cc L s' ∧
      Stepped L s (.idleYield choice) s' := by
  obtain ⟨hring, hlow, hhigh⟩ := h.idle hidle
  have hreturn : code.idleReturn < 2 ^ 32 := code.words _ (by simp)
  have hpushed := (Pushed.nil s.cpu).push (by omega) hreturn
  exact h.enter hL .taskYield [] s.notes hpushed rfl rfl (.idleYielded hidle) (h.registers.push 4)
    (hidle ▸ hlow) (hidle ▸ hhigh) (by decide) hring h.sound (fun _ _ _ => rfl) choice

/-- A step keeps the invariant. -/
theorem SwitchInv.step (h : SwitchInv cc L s) (hL : L.Apart cc.data) (hvalid : Valid cc L s e) :
    ∃ s', s.step cc e = some s' ∧ SwitchInv cc L s' ∧ Stepped L s e s' := by
  cases e with
  | run context stores => exact ⟨_, rfl, h.run hL hvalid, rfl, rfl, rfl, rfl⟩
  | irq choice =>
      rcases h.cases with hu | hidle
      · exact h.irq_user hL hu choice
      · exact h.irq_idle hL hidle choice
  | syscall choice => exact h.syscall hL hvalid.1 hvalid.2 choice
  | idleYield choice => exact h.idleYield hL hvalid choice

/-! ## Runs -/

/-- The idle loop runs, and no user task has run yet: each has the frame that its creation has
built. -/
structure Started (cc : CompiledC code) (L : TaskStacks) (s : Machine) : Prop where
  current : s.current = L.idle
  notes : s.notes = []
  registers : s.cpu.toContext.Words
  ring : ¬ s.cpu.InRing3
  low : L.low L.idle + cc.depth + 128 ≤ s.cpu.esp
  high : s.cpu.esp ≤ L.high L.idle
  next : ∀ t ∈ L.tasks, s.cpu.mem.load32 (t + nextOff) = L.next t
  top : ∀ t ∈ L.users, s.cpu.mem.load32 (t + kernelStackTopOff) = L.high t
  esp : ∀ t ∈ L.users, s.cpu.mem.load32 (t + espOff) + 40 = L.high t
  frame : ∀ t ∈ L.users,
    WordsAt s.cpu.mem (s.cpu.mem.load32 (t + espOff)) (L.firstFrame code t)

theorem Started.inv (h : Started cc L s) (hL : L.Apart cc.data) : SwitchInv cc L s := by
  refine ⟨?_, h.registers, ⟨h.next, h.top, fun u hu hne => ?_⟩, fun hu => ?_,
    fun _ => ⟨h.ring, h.low, h.high⟩, ?_⟩
  · rw [h.current]
    exact List.mem_cons_self ..
  · rw [h.current] at hne
    have hu := List.mem_of_ne_of_mem hne hu
    exact .first hu (by rw [h.notes]; rfl) (h.esp u hu) (h.frame u hu)
  · rw [h.current] at hu
    exact absurd hu hL.idle
  · rw [h.notes]
    trivial

/-- In every run each task goes on with the registers of its last entry into the kernel. -/
theorem contexts_kept (hL : L.Apart cc.data) (hstart : Started cc L s)
    {events : List (SwitchEvent cc.Choice)} (hvalid : Meets (Machine.step cc) (Valid cc L) s events) :
    ∃ final, run (Machine.step cc) s events = some final ∧ NotesSound L final.notes ∧
      ∀ t ∈ L.users, final.cpu.mem.load32 (t + kernelStackTopOff) = L.high t := by
  obtain ⟨-, final, hrun, hfinal⟩ := along_of_invariant (Q := fun _ _ _ => True)
    (fun state event h hevent => by
      obtain ⟨next, hstep, hnext, -⟩ := SwitchInv.step h hL hevent
      exact ⟨next, hstep, hnext, trivial⟩) (hstart.inv hL) hvalid
  exact ⟨final, hrun, hfinal.sound, hfinal.ready.top⟩

/-! ### A sample -/

/-- Some addresses. -/
def sampleLabels : CodeLabels where
  returnToRing3 := 0x100100
  yieldReturn := 0x100200
  irqReturn := 0x100300
  syscallReturn := 0x100400
  idleReturn := 0x100500
  distinct := by decide
  words := by decide

/-- C code that does nothing but call `task_yield`, which pushes the arguments of `switch_to`. -/
def sampleC : CompiledC sampleLabels where
  Choice := Unit
  depth := 28
  data := fun _ => False
  toSwitch := fun _ _ old new c => ((c.push new).push old).push sampleLabels.yieldReturn
  fromSwitch := fun t =>
    { t with eip := t.mem.load32 (t.esp + 8), esp := t.esp + 12, eax := yieldResult }
  direct := fun _ _ c =>
    { c with eip := c.mem.load32 c.esp, esp := c.esp + 4, eax := yieldResult }
  small := by decide
  atSwitch := by
    intro f _ old new c hroom hwords hold hnew
    have h1 := (Pushed.nil c).push (by omega) hnew
    have h2 := h1.push (by simp only [Cpu.push_esp]; omega) hold
    have h3 := h2.push (by simp only [Cpu.push_esp]; omega)
      (show sampleLabels.yieldReturn < 2 ^ 32 by decide)
    refine ⟨?_, ?_, h3.words, ((hwords.push 4).push 4).push 4, rfl, rfl, fun x _ hx => ?_⟩
    · simp only [Cpu.push_esp]
      omega
    · simp only [Cpu.push_esp]
      omega
    · refine h3.outside x ?_
      simp only [Cpu.push_esp]
      omega
  resumed := by
    intro f _ old new c t hroom hhigh hwords ht hold hnew h
    have hesp : t.esp + 8 = c.esp := by
      have hesp := h.esp
      simp only [Cpu.push_esp] at hesp
      omega
    have hsame : ∀ x, c.esp ≤ x → x < c.esp + 4 → t.mem x = c.mem x := by
      intro x hx hx'
      have hmem := h.mem x (by simp only [Cpu.push_esp]; omega) (by omega)
      simp only [Cpu.push_mem, Cpu.push_esp] at hmem
      rw [hmem, store32_outside (by omega), store32_outside (by omega), store32_outside (by omega)]
    have hret := load32_lt t.mem (t.esp + 8)
    have heax : yieldResult < 2 ^ 32 := by decide
    have hlt : t.esp + 12 < 2 ^ 32 := by omega
    refine ⟨?_, ?_, fun _ => rfl, { ht with eax := heax, esp := hlt, eip := hret }, rfl, rfl,
      fun _ _ _ => rfl⟩
    · show t.esp + 12 = c.esp + 4
      omega
    · show t.mem.load32 (t.esp + 8) = _
      rw [hesp]
      exact load32_congr hsame
  returned := by
    intro f _ c _ hhigh hwords
    have heax : yieldResult < 2 ^ 32 := by decide
    have hret := load32_lt c.mem c.esp
    exact ⟨rfl, rfl, fun _ => rfl, { hwords with eax := heax, esp := hhigh, eip := hret }, rfl, rfl,
      fun _ _ _ => rfl⟩

/-- Two user tasks and the idle loop. -/
def sampleTasks : TaskStacks where
  users := [0x200, 0x300]
  idle := 0x100
  next := fun t => if t = 0x100 then 0x200 else if t = 0x200 then 0x300 else 0x100
  low := fun t => if t = 0x100 then 0x1000 else if t = 0x200 then 0x2000 else 0x4000
  high := fun t => if t = 0x100 then 0x2000 else if t = 0x200 then 0x4000 else 0x6000
  entry := fun t => 0x400000 + t
  userEsp := fun t => 0x500000 + t

/-- The words of their control blocks. -/
def sampleBlocks : Memory :=
  [(0x10C, 0x200), (0x200, 0x3FD8), (0x20C, 0x300), (0x210, 0x4000), (0x300, 0x5FD8),
    (0x30C, 0x100), (0x310, 0x6000)].foldl (fun m w => m.store32 w.1 w.2) fun _ => 0

/-- The idle loop runs, and the user tasks are there. -/
def sampleStart : Machine where
  cpu := {
    eax := 0, ebx := 0, ecx := 0, edx := 0, esi := 0, edi := 0, ebp := 0, esp := 0x2000,
    eip := 0x100000, eflags := 0x002, cs := kernelCs, ss := kernelDs
    segments := .all kernelDs
    cr3 := 0
    mem := Kernel.storeWords
      (Kernel.storeWords sampleBlocks 0x3FD8 (sampleTasks.firstFrame sampleLabels 0x200)) 0x5FD8
      (sampleTasks.firstFrame sampleLabels 0x300) }
  current := 0x100
  esp0 := 0
  notes := []

theorem sampleTasks_apart : sampleTasks.Apart sampleC.data where
  idle := by decide
  next := by decide
  size := by decide
  word := by decide
  stack := by decide
  block := by decide
  blocks := by decide
  data := fun _ _ _ h => h.elim

theorem sampleStart_started : Started sampleC sampleTasks sampleStart where
  current := rfl
  notes := rfl
  registers := by constructor <;> decide
  ring := by decide
  low := by decide
  high := by decide
  next := by decide +kernel
  top := by decide +kernel
  esp := by decide +kernel
  frame := by decide +kernel

/-- The registers of the second task when it makes the system call. -/
def sampleProgram : Context where
  eax := syscallYield
  ebx := 1
  ecx := 2
  edx := 3
  esi := 4
  edi := 5
  ebp := 6
  esp := 0x500300
  eip := 0x400310
  eflags := 0x202
  cs := 0x1B
  ss := 0x23

/-- The timer interrupts the first task, and the second task yields: the idle loop goes on with the
first one. -/
def sampleRun : List (SwitchEvent Unit) :=
  [.idleYield (), .irq (), .run sampleProgram [], .syscall (), .idleYield ()]

/-- A run from its first step. -/
theorem SwitchInv.run_cons {P : Machine → Prop} {events : List (SwitchEvent cc.Choice)}
    (h : SwitchInv cc L s) (hL : L.Apart cc.data) (hvalid : Valid cc L s e)
    (hrest : ∀ s', SwitchInv cc L s' → Stepped L s e s' →
      Meets (Machine.step cc) (Valid cc L) s' events ∧
        ∃ final, Transition.run (Machine.step cc) s' events = some final ∧ P final) :
    Meets (Machine.step cc) (Valid cc L) s (e :: events) ∧
      ∃ final, Transition.run (Machine.step cc) s (e :: events) = some final ∧ P final := by
  obtain ⟨s', hstep, hinv, hstepped⟩ := h.step hL hvalid
  obtain ⟨hmeets, final, hrun, hfinal⟩ := hrest s' hinv hstepped
  refine ⟨⟨hvalid, fun next hnext => ?_⟩, final, ?_, hfinal⟩
  · obtain rfl := Option.some.inj (hstep.symm.trans hnext)
    exact hmeets
  · rw [Transition.run, hstep]
    exact hrun

/-- The first task comes to `iret` with the selector of the kernel in the data segment registers, and
runs with null selectors. -/
theorem sampleRun_spec :
    Meets (Machine.step sampleC) (Valid sampleC sampleTasks) sampleStart sampleRun ∧
      ∃ final, Transition.run (Machine.step sampleC) sampleStart sampleRun = some final ∧
        (∃ r kernelEsp, .ring3 0x200 r kernelEsp (.all kernelDs) ∈ final.notes) ∧
        final.current = 0x200 ∧ final.cpu.segments = .all 0 := by
  have hL := sampleTasks_apart
  have huser1 : 0x200 ∈ sampleTasks.users := by decide
  have huser2 : 0x300 ∈ sampleTasks.users := by decide
  refine (sampleStart_started.inv hL).run_cons hL rfl fun s1 hinv1 h1 => ?_
  have hcur1 : s1.current = 0x200 := h1.current
  have hring1 : s1.cpu.InRing3 := (hinv1.user (hcur1 ▸ huser1)).1
  refine hinv1.run_cons hL trivial fun s2 hinv2 h2 => ?_
  have h2 : Switched sampleTasks (entryNotes s1 (.irq ()) ++ s1.notes) s1.cpu.segments
    (sampleTasks.next s1.current) s2 := h2
  rw [hcur1, entryNotes, if_pos hring1, hcur1] at h2
  have hcur2 : s2.current = 0x300 := h2.current
  have hvalid : Valid sampleC sampleTasks s2 (.run sampleProgram []) := by
    refine ⟨by constructor <;> decide, by simp, fun _ => by decide, fun hidle => ?_⟩
    rw [hcur2] at hidle
    exact absurd hidle (by decide)
  refine hinv2.run_cons hL hvalid fun s3 hinv3 h3 => ?_
  obtain ⟨hcur3, hnotes3, hregs3, -⟩ := h3
  have heax3 : s3.cpu.eax = syscallYield := by rw [hregs3]; rfl
  have hcur3 : s3.current = 0x300 := hcur3.trans hcur2
  refine hinv3.run_cons hL ⟨hcur3 ▸ huser2, heax3⟩ fun s4 hinv4 h4 => ?_
  have h4 : Switched sampleTasks (entryNotes s3 (.syscall ()) ++ s3.notes) (.all kernelDs)
    (sampleTasks.next s3.current) s4 := h4
  rw [hcur3, hnotes3, (h2.user huser2).1] at h4
  obtain ⟨hcur4, -, hidle4⟩ := h4
  obtain ⟨hnotes4, hsegments4⟩ := hidle4 rfl
  refine hinv4.run_cons hL hcur4 fun s5 _ h5 => ?_
  have h5 : Switched sampleTasks s4.notes s4.cpu.segments (sampleTasks.next s4.current) s5 := h5
  rw [hcur4] at h5
  have hsegments5 : s5.cpu.segments = (heldBy s4.notes 0x200 s4.cpu.segments).cleared :=
    (h5.user huser1).2
  have hnotes5 : s5.notes = .ring3 0x200 s5.cpu.toContext (sampleTasks.high 0x200)
    (heldBy s4.notes 0x200 s4.cpu.segments) :: s4.notes := (h5.user huser1).1
  have hheld : heldBy s4.notes 0x200 s4.cpu.segments = .all kernelDs := by
    rw [hnotes4, hsegments4]
    simp [heldBy, lastEntry, entryNotes, hcur3]
  rw [hheld] at hnotes5 hsegments5
  refine ⟨trivial, s5, rfl, ⟨s5.cpu.toContext, sampleTasks.high 0x200, ?_⟩, h5.current, ?_⟩
  · rw [hnotes5]
    exact List.mem_cons_self ..
  · rw [hsegments5]
    rfl

theorem contexts_kept_sample : ∃ final,
    Transition.run (Machine.step sampleC) sampleStart sampleRun = some final ∧
      NotesSound sampleTasks final.notes ∧
      ∀ t ∈ sampleTasks.users, final.cpu.mem.load32 (t + kernelStackTopOff) = sampleTasks.high t :=
  contexts_kept sampleTasks_apart sampleStart_started sampleRun_spec.1

end Kumo
