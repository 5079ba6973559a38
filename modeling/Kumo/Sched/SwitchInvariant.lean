import Kumo.Sched.SwitchStacks

/-!
# What a switch keeps

Any number of tasks, and the idle loop. A task that does not run has left on its stack what it
needs to go on: the frame that its creation has built, or the frames of an entry into the
kernel, of C code and of `switch_to`. From that it follows what each task goes on with, and
that the stacks of the others stay as they are.
-/

namespace Kumo

open Memory

/-- The control blocks of the tasks, their ring, and where their kernel stacks begin and end. The
first registers of a task are those its creator has chosen. -/
structure TaskStacks where
  users : List Nat
  idle : Nat
  next : Nat → Nat
  low : Nat → Nat
  high : Nat → Nat
  entry : Nat → Nat
  userEsp : Nat → Nat

namespace TaskStacks

/-- All tasks. -/
def tasks (L : TaskStacks) : List Nat := L.idle :: L.users

/-- The address is in the stack of a task. -/
def OnStack (L : TaskStacks) (t x : Nat) : Prop := L.low t ≤ x ∧ x < L.high t

/-- The stacks and the control blocks are disjoint, and no variable of the kernel is among them. -/
structure Apart (L : TaskStacks) (data : Nat → Prop) : Prop where
  idle : L.idle ∉ L.users
  next : ∀ t ∈ L.tasks, L.next t ∈ L.tasks
  size : ∀ t ∈ L.users, L.high t = L.low t + 2 * pageSize
  word : ∀ t ∈ L.tasks, t < 2 ^ 32 ∧ L.low t ≤ L.high t ∧ L.high t < 2 ^ 32
  stack : ∀ t ∈ L.tasks, ∀ t' ∈ L.tasks, t ≠ t' → L.high t ≤ L.low t' ∨ L.high t' ≤ L.low t
  block : ∀ t ∈ L.tasks, ∀ t' ∈ L.tasks, t' + fdTableOff ≤ L.low t ∨ L.high t ≤ t'
  blocks : ∀ t ∈ L.tasks, ∀ t' ∈ L.tasks, t ≠ t' → t + fdTableOff ≤ t' ∨ t' + fdTableOff ≤ t
  data : ∀ t ∈ L.tasks, ∀ x, data x → ¬ L.OnStack t x ∧ (x < t ∨ t + fdTableOff ≤ x)

/-- What `task_create_user_with_pages` has put on the stack of a task. -/
def firstFrame (code : CodeLabels) (L : TaskStacks) (t : Nat) : List Nat :=
  Kernel.initialFrame code.returnToRing3 (L.entry t) (L.userEsp t)

end TaskStacks

/-! ## Notes -/

/-- How a task came to the kernel the last time. -/
def lastEntry : List Note → Nat → Option (Context × Trap)
  | [], _ => none
  | .enter t r trap :: notes, u => if t = u then some (r, trap) else lastEntry notes u
  | _ :: notes, u => lastEntry notes u

/-- What a task goes on with in ring 3. -/
def GoesOnWith (L : TaskStacks) (notes : List Note) (t : Nat) (r : Context) : Prop :=
  match lastEntry notes t with
  | none => r.eip = L.entry t ∧ r.cs = 0x1B ∧ r.eflags = 0x202 ∧ r.ss = 0x23 ∧ r.esp = L.userEsp t
  | some (r', .irq) => r = r'
  | some (r', .syscall) => r = { r' with eax := yieldResult }

/-- In a note about ring 3 the task goes on as it should, with an empty kernel stack; and the
arguments of `syscall_dispatch` are the registers at the entry before. -/
def Note.Sound (L : TaskStacks) (notes : List Note) : Note → Prop
  | .enter .. => True
  | .dispatch args => ∃ t r rest, notes = .enter t r .syscall :: rest ∧
      args = [r.eax, r.ebx, r.ecx, r.edx, r.esi, r.edi]
  | .ring3 t r kernelEsp _ => GoesOnWith L notes t r ∧ kernelEsp = L.high t

/-- All notes are sound. -/
def NotesSound (L : TaskStacks) : List Note → Prop
  | [] => True
  | note :: notes => note.Sound L notes ∧ NotesSound L notes

/-! ## Calls of C code -/

/-- The words above the arguments of a C function that a task has called, up to the address `top`. -/
inductive Above (L : TaskStacks) (notes : List Note) (t : Nat) : Callee → List Nat → Nat → Prop
  | preempted {r : Context} {x : Nat} : t ∈ L.users → lastEntry notes t = some (r, .irq) →
      r.Words → r.cs % 4 = 3 →
      Above L notes t .irqHandler (savedRegisters r x ++ (vectorWords ++ iretFrame r)) (L.high t)
  | yielded {r : Context} {x : Nat} : t ∈ L.users → lastEntry notes t = some (r, .syscall) →
      r.Words → r.cs % 4 = 3 →
      Above L notes t .syscallDispatch (savedRegisters r x ++ iretFrame r) (L.high t)
  | idlePreempted {r : Context} {x top : Nat} : t = L.idle → r.Words → r.cs % 4 ≠ 3 →
      Above L notes t .irqHandler (savedRegisters r x ++ (vectorWords ++ kernelFrame r)) top
  | idleYielded {top : Nat} : t = L.idle → Above L notes t .taskYield [] top

variable {code : CodeLabels} {cc : CompiledC code} {L : TaskStacks} {notes notes' : List Note}
  {mem mem' : Memory} {t old new top : Nat} {f : Callee} {c u v : Cpu} {ws : List Nat}
  {s s' : Machine}

/-- A task has called a C function in the state `c`. -/
structure InCall (cc : CompiledC code) (L : TaskStacks) (notes : List Note) (t : Nat) (f : Callee)
    (c : Cpu) (ws : List Nat) (top : Nat) : Prop where
  above : Above L notes t f ws top
  registers : c.toContext.Words
  deep : L.low t + cc.depth ≤ c.esp
  upTo : c.esp + 4 + f.argBytes + 4 * ws.length = top
  high : L.low t + cc.depth + 128 ≤ top ∧ top ≤ L.high t
  ret : c.mem.load32 c.esp = f.returnAddress code
  words : WordsAt c.mem (c.esp + 4 + f.argBytes) ws

/-- A task that does not run, and what lies on its stack: it has not run yet, or it has called a C
function that has come to `switch_to`. -/
inductive Waits (cc : CompiledC code) (L : TaskStacks) (mem : Memory) (notes : List Note) (t : Nat) :
    Prop
  | first : t ∈ L.users → lastEntry notes t = none → mem.load32 (t + espOff) + 40 = L.high t →
      WordsAt mem (mem.load32 (t + espOff)) (L.firstFrame code t) → Waits cc L mem notes t
  | inCall {f : Callee} {choice : cc.Choice} {old new : Nat} {c c' : Cpu} {ws : List Nat} {top : Nat} :
      InCall cc L notes t f c ws top → old < 2 ^ 32 → new < 2 ^ 32 →
      c' = cc.toSwitch f choice old new c → mem.load32 (t + espOff) + 16 = c'.esp →
      WordsAt mem (mem.load32 (t + espOff)) [c'.ebx, c'.esi, c'.edi, c'.ebp, code.yieldReturn] →
      (∀ x, c'.esp + 4 ≤ x → x < c.esp + 4 + f.argBytes → mem x = c'.mem x) →
      (∀ x, c.esp + 4 + f.argBytes ≤ x → x < top → mem x = c.mem x) → Waits cc L mem notes t

/-- What a call leads to depends on the last entry of the task. -/
theorem Above.congr (h : Above L notes t f ws top)
    (hentry : lastEntry notes' t = lastEntry notes t) : Above L notes' t f ws top := by
  cases h with
  | preempted ht hlast hr hcs => exact .preempted ht (hentry.trans hlast) hr hcs
  | yielded ht hlast hr hcs => exact .yielded ht (hentry.trans hlast) hr hcs
  | idlePreempted ht hr hcs => exact .idlePreempted ht hr hcs
  | idleYielded ht => exact .idleYielded ht

theorem InCall.congr (h : InCall cc L notes t f c ws top)
    (hentry : lastEntry notes' t = lastEntry notes t) : InCall cc L notes' t f c ws top :=
  { h with above := h.above.congr hentry }

/-- The C code comes to `switch_to` on the same stack. -/
theorem InCall.atSwitch (h : InCall cc L notes t f c ws top) (choice : cc.Choice)
    (hold : old < 2 ^ 32) (hnew : new < 2 ^ 32) :
    AtSwitch code cc.depth cc.data f old new c (cc.toSwitch f choice old new c) :=
  cc.atSwitch f choice old new c (Nat.le_trans (Nat.le_add_left ..) h.deep) h.registers hold hnew

/-- A task waits as long as its stack and its stack pointer are left alone. -/
theorem Waits.congr (h : Waits cc L mem notes t) (hentry : lastEntry notes' t = lastEntry notes t)
    (hesp : ∀ x, t + espOff ≤ x → x < t + espOff + 4 → mem' x = mem x)
    (hstack : ∀ x, L.OnStack t x → mem' x = mem x)
    (hsize : ∀ t ∈ L.users, L.high t = L.low t + 2 * pageSize) :
    Waits cc L mem' notes' t := by
  have hload : mem'.load32 (t + espOff) = mem.load32 (t + espOff) := load32_congr hesp
  cases h with
  | first ht hlast htop hwords =>
      have hfit := hsize t ht
      refine .first ht (hentry.trans hlast) (by rw [hload]; exact htop) ?_
      rw [hload]
      refine hwords.congr fun x hx hx' => hstack x ⟨?_, ?_⟩
      · simp only [pageSize] at hfit
        omega
      · have hlen : (L.firstFrame code t).length = 10 := rfl
        omega
  | @inCall f choice old new c c' ws top hcall hold hnew hc' hsaved hwords hbelow habove =>
      have hat := hcall.atSwitch choice hold hnew
      rw [← hc'] at hat
      have hdeep := hat.deep
      have hshallow := hat.shallow
      have hlow := hcall.deep
      have htop := hcall.upTo
      have hhigh := hcall.high.2
      refine .inCall (hcall.congr hentry) hold hnew hc' (by rw [hload]; exact hsaved) ?_
        (fun x hx hx' => ?_) fun x hx hx' => ?_
      · rw [hload]
        refine hwords.congr fun x hx hx' => hstack x ⟨by omega, ?_⟩
        have hlen : [c'.ebx, c'.esi, c'.edi, c'.ebp, code.yieldReturn].length = 5 := rfl
        omega
      · rw [hstack x ⟨by omega, by omega⟩]
        exact hbelow x hx hx'
      · rw [hstack x ⟨by omega, by omega⟩]
        exact habove x hx hx'

/-! ## Going on -/

/-- The code addresses are different. -/
theorem CodeLabels.ne (code : CodeLabels) : code.returnToRing3 ≠ code.irqReturn ∧
    code.returnToRing3 ≠ code.syscallReturn ∧ code.returnToRing3 ≠ code.yieldReturn ∧
    code.syscallReturn ≠ code.irqReturn ∧ code.idleReturn ≠ code.irqReturn ∧
    code.idleReturn ≠ code.syscallReturn ∧ code.idleReturn ≠ code.returnToRing3 := by
  have h := code.distinct
  simp only [List.nodup_cons, List.mem_cons, List.not_mem_nil, or_false, not_or] at h
  obtain ⟨⟨h1, h2, h3, h4⟩, ⟨h5, h6, h7⟩, ⟨h8, h9⟩, h10, -⟩ := h
  exact ⟨h2, h3, h1, Ne.symm h8, Ne.symm h9, Ne.symm h10, Ne.symm h4⟩

/-- What the data segment registers hold at the `iret` of a task to ring 3, if they held `segments`
when the C code was left. -/
def heldBy (notes : List Note) (t : Nat) (segments : DataSegments) : DataSegments :=
  match lastEntry notes t with
  | some (_, .irq) => segments
  | _ => .all 0x23

/-- A task has gone on, in ring 3 or in the idle loop, with these data segment registers. -/
structure GoneOn (cc : CompiledC code) (L : TaskStacks) (notes : List Note) (t : Nat)
    (segments : DataSegments) (s s' : Machine) : Prop where
  current : s'.current = s.current
  esp0 : s'.esp0 = s.esp0
  registers : s'.cpu.toContext.Words
  user : t ∈ L.users → s'.cpu.InRing3 ∧ GoesOnWith L notes t s'.cpu.toContext ∧
    s'.notes = .ring3 t s'.cpu.toContext (L.high t) (heldBy notes t segments) :: notes ∧
      s'.cpu.segments = (heldBy notes t segments).cleared
  idle : t = L.idle → ¬ s'.cpu.InRing3 ∧ s'.notes = notes ∧ s'.cpu.segments = segments ∧
    L.low t + cc.depth + 128 ≤ s'.cpu.esp ∧ s'.cpu.esp ≤ L.high t
  mem : ∀ x, ¬ L.OnStack t x → ¬ cc.data x → s'.cpu.mem x = s.cpu.mem x

/-- `iret` to ring 3 from the top of a kernel stack. -/
theorem Machine.leave_ring3 {r : Context} (h : WordsAt c.mem c.esp (iretFrame r)) (hcs : r.cs % 4 = 3) :
    s.leave c = { s with
      cpu := { c with eip := r.eip, cs := r.cs, eflags := r.eflags, esp := r.esp, ss := r.ss,
                      segments := c.segments.cleared }
      notes := .ring3 s.current { c.toContext with eip := r.eip, cs := r.cs, eflags := r.eflags,
                                                   esp := r.esp, ss := r.ss }
        (c.esp + 20) c.segments :: s.notes } := by
  have hring : Cpu.InRing3 { c with
      eip := r.eip, cs := r.cs, eflags := r.eflags, esp := r.esp, ss := r.ss,
      segments := c.segments.cleared } := hcs
  rw [leave, Cpu.iret_ring3 h hcs]
  dsimp only
  rw [if_pos hring]

/-- `iret` to ring 0. -/
theorem Machine.leave_ring0 {r : Context} (h : WordsAt c.mem c.esp (kernelFrame r))
    (hcs : r.cs % 4 ≠ 3) :
    s.leave c = { s with
      cpu := { c with eip := r.eip, cs := r.cs, eflags := r.eflags, esp := c.esp + 12 } } := by
  have hring : ¬ Cpu.InRing3 { c with
      eip := r.eip, cs := r.cs, eflags := r.eflags, esp := c.esp + 12 } := hcs
  rw [leave, Cpu.iret_ring0 h hcs]
  dsimp only
  rw [if_neg hring]

/-- The way on depends on the return address. -/
theorem Machine.goOn_eq (s : Machine) (code : CodeLabels) : (s.cpu.eip = code.irqReturn →
      s.goOn code = some (s.leave s.cpu.irqExit)) ∧
    (s.cpu.eip = code.syscallReturn → s.goOn code = some (s.leave s.cpu.syscallExit)) ∧
    (s.cpu.eip = code.returnToRing3 → s.goOn code = some (s.leave s.cpu.returnToRing3)) ∧
    (s.cpu.eip = code.idleReturn → s.goOn code = some s) := by
  obtain ⟨hring3, hring3', -, hsyscall, hidle, hidle', hidle''⟩ := code.ne
  unfold goOn
  refine ⟨fun h => if_pos h, fun h => ?_, fun h => ?_, fun h => ?_⟩
  · rw [if_neg (by rw [h]; exact hsyscall), if_pos h]
  · rw [if_neg (by rw [h]; exact hring3), if_neg (by rw [h]; exact hring3'), if_pos h]
  · rw [if_neg (by rw [h]; exact hidle), if_neg (by rw [h]; exact hidle'),
      if_neg (by rw [h]; exact hidle''), if_pos h]

/-- The code after the call of a C function. -/
theorem InCall.goOn (h : InCall cc L notes t f c ws top) (hL : L.Apart cc.data)
    (ht : s.current = t) (hnotes : s.notes = notes) (hesp : s.cpu.esp = c.esp + 4)
    (heip : s.cpu.eip = f.returnAddress code)
    (hresult : f = .syscallDispatch → s.cpu.eax = yieldResult)
    (hregisters : s.cpu.toContext.Words) (hcs : ¬ s.cpu.InRing3)
    (hwords : WordsAt s.cpu.mem (c.esp + 4 + f.argBytes) ws) :
    ∃ s', s.goOn code = some s' ∧ GoneOn cc L notes t s.cpu.segments s s' := by
  obtain ⟨hirq, hsyscall, -, hidle⟩ := s.goOn_eq code
  have htop := h.upTo
  have hhigh := h.high
  have hdeep := h.deep
  rw [← hesp] at htop hwords
  cases h.above with
  | @preempted r x huser hlast hr hring =>
      have hne : t ≠ L.idle := fun heq => hL.idle (heq ▸ huser)
      obtain ⟨hexit, hframe⟩ := Cpu.irqExit_eq hwords
      have hleave := Machine.leave_ring3 (s := s) (c := s.cpu.irqExit) (r := r)
        (by rw [hexit]; exact hframe) hring
      rw [hirq heip, hleave, hexit]
      have hlength : (savedRegisters r x ++ (vectorWords ++ iretFrame r)).length = 15 := rfl
      have hargs : Callee.irqHandler.argBytes = 4 := rfl
      have hkernelEsp : s.cpu.esp + 44 + 20 = L.high t := by omega
      have hheld : heldBy notes t s.cpu.segments = s.cpu.segments := by rw [heldBy, hlast]
      refine ⟨_, rfl, rfl, rfl, hr, fun _ => ⟨hring, ?_, ?_, ?_⟩, fun heq => absurd heq hne,
        fun _ _ _ => rfl⟩
      · rw [GoesOnWith, hlast]
      · rw [hnotes, ht, ← hkernelEsp, hheld]
      · rw [hheld]
  | @yielded r x huser hlast hr hring =>
      have hne : t ≠ L.idle := fun heq => hL.idle (heq ▸ huser)
      rw [show Callee.syscallDispatch.argBytes = 24 from rfl] at hwords htop
      obtain ⟨hexit, hframe⟩ := Cpu.syscallExit_eq hwords hregisters.eax
      have hleave := Machine.leave_ring3 (s := s) (c := s.cpu.syscallExit) (r := r)
        (by rw [hexit]; exact hframe) hring
      rw [hsyscall heip, hleave, hexit]
      have hlength : (savedRegisters r x ++ iretFrame r).length = 13 := rfl
      have hkernelEsp : s.cpu.esp + 56 + 20 = L.high t := by omega
      have hheld : heldBy notes t s.cpu.segments = .all 0x23 := by rw [heldBy, hlast]
      refine ⟨_, rfl, rfl, rfl, { hr with eax := hregisters.eax }, fun _ => ⟨hring, ?_, ?_, ?_⟩,
        fun heq => absurd heq hne, fun y hy _ => store32_outside ?_⟩
      · rw [GoesOnWith, hlast]
        dsimp only
        rw [hresult rfl]
      · rw [hnotes, ht, ← hkernelEsp, hheld]
      · rw [hheld]
      · simp only [TaskStacks.OnStack] at hy
        omega
  | @idlePreempted r x top heq hr hring =>
      have huser : t ∉ L.users := fun hmem => hL.idle (heq ▸ hmem)
      obtain ⟨hexit, hframe⟩ := Cpu.irqExit_eq hwords
      have hlength : (savedRegisters r x ++ (vectorWords ++ kernelFrame r)).length = 13 := rfl
      have hargs : Callee.irqHandler.argBytes = 4 := rfl
      have hout : s.cpu.esp + 44 + 12 = top := by omega
      have hleave := Machine.leave_ring0 (s := s) (c := s.cpu.irqExit) (r := r)
        (by rw [hexit]; exact hframe) hring
      rw [hirq heip, hleave, hexit]
      refine ⟨_, rfl, rfl, rfl, ?_, fun hmem => absurd hmem huser,
        fun _ => ⟨hring, hnotes, rfl, ?_, ?_⟩, fun _ _ _ => rfl⟩
      · have hword := (hL.word t (by rw [heq]; exact List.mem_cons_self ..)).2.2
        have hsmall : s.cpu.esp + 44 + 12 < 2 ^ 32 := by omega
        exact { hr with esp := hsmall, ss := hregisters.ss }
      · show _ ≤ s.cpu.esp + 44 + 12
        omega
      · show s.cpu.esp + 44 + 12 ≤ _
        omega
  | @idleYielded top heq =>
      have huser : t ∉ L.users := fun hmem => hL.idle (heq ▸ hmem)
      have hlength : ([] : List Nat).length = 0 := rfl
      have hargs : Callee.taskYield.argBytes = 0 := rfl
      have hout : s.cpu.esp = top := by omega
      refine ⟨s, hidle heip, rfl, rfl, hregisters, fun hmem => absurd hmem huser, fun _ => ?_,
        fun _ _ _ => rfl⟩
      exact ⟨hcs, hnotes, rfl, by omega, by omega⟩

/-- Memory below the addresses that the caller relies on does not matter. -/
theorem InCall.returned (h : InCall cc L notes t f c ws top) (hL : L.Apart cc.data)
    (htask : t ∈ L.tasks) (ht : s.current = t) (hnotes : s.notes = notes)
    (hu : Returned cc.depth cc.data f c v s.cpu) (hcs : v.cs % 4 ≠ 3)
    (hmem : ∀ x, c.esp + 4 + f.argBytes ≤ x → x < top → v.mem x = c.mem x) :
    ∃ s', s.goOn code = some s' ∧ GoneOn cc L notes t v.segments s s' := by
  have hupTo := h.upTo
  have hhigh := h.high
  have hdeep := h.deep
  rw [← hu.segments]
  refine h.goOn hL ht hnotes hu.esp (hu.eip.trans h.ret) hu.result hu.words ?_ ?_
  · rw [Cpu.InRing3, hu.cs]
    exact hcs
  · refine h.words.congr fun x hx hx' => ?_
    have hout : ¬ cc.data x := fun hdata => (hL.data t htask x hdata).1 ⟨by omega, by omega⟩
    rw [hu.outside x hout (.inr hx), hmem x hx (by omega)]

/-- The registers after `switch_to`. -/
theorem SwitchedIn.words {t : Cpu} {ebx esi edi ebp ret : Nat} (h : SwitchedIn v t ebx esi edi ebp ret)
    (hwords : WordsAt v.mem v.esp [ebx, esi, edi, ebp, ret]) (hregisters : v.toContext.Words)
    (hesp : v.esp + 20 < 2 ^ 32) : t.toContext.Words := by
  obtain ⟨h0, h1, h2, h3, h4, -⟩ := hwords
  obtain ⟨hecx, hedx, heflags, hcs, hss⟩ := h.others
  constructor
  case eax => exact h.eax
  case ebx => rw [h.ebx, ← h0]; exact load32_lt ..
  case ecx => rw [hecx]; exact hregisters.ecx
  case edx => rw [hedx]; exact hregisters.edx
  case esi => rw [h.esi, ← h1]; exact load32_lt ..
  case edi => rw [h.edi, ← h2]; exact load32_lt ..
  case ebp => rw [h.ebp, ← h3]; exact load32_lt ..
  case esp => rw [h.esp]; exact hesp
  case eip => rw [h.eip, ← h4]; exact load32_lt ..
  case eflags => rw [heflags]; exact hregisters.eflags
  case cs => rw [hcs]; exact hregisters.cs
  case ss => rw [hss]; exact hregisters.ss

/-- The first time that a task runs. -/
theorem goOn_first (ht : s.current = t) (hnotes : s.notes = notes)
    (hidle : t ≠ L.idle) (hlast : lastEntry notes t = none) (heip : s.cpu.eip = code.returnToRing3)
    (hregisters : s.cpu.toContext.Words) (htop : s.cpu.esp + 20 = L.high t)
    (hframe : WordsAt s.cpu.mem s.cpu.esp [L.entry t, 0x1B, 0x202, L.userEsp t, 0x23]) :
    ∃ s', s.goOn code = some s' ∧ GoneOn cc L notes t s.cpu.segments s s' := by
  obtain ⟨-, -, hring3, -⟩ := s.goOn_eq code
  obtain ⟨h0, -, -, h3, -⟩ := id hframe
  have hentry : L.entry t < 2 ^ 32 := h0 ▸ load32_lt ..
  have hstack : L.userEsp t < 2 ^ 32 := h3 ▸ load32_lt ..
  have hleave := Machine.leave_ring3 (s := s) (c := s.cpu.returnToRing3)
    (r := { s.cpu.toContext with
      eip := L.entry t, cs := 0x1B, eflags := 0x202, esp := L.userEsp t, ss := 0x23 }) hframe
    (show 0x1B % 4 = 3 by decide)
  have hheld : heldBy notes t s.cpu.segments = .all 0x23 := by rw [heldBy, hlast]
  have hedx := hregisters.edx
  have hset : setLow16 s.cpu.edx 0x23 < 2 ^ 32 := by
    simp only [setLow16]
    omega
  have hcs : 0x1B < 2 ^ 32 := by decide
  have heflags : 0x202 < 2 ^ 32 := by decide
  have hss : 0x23 < 2 ^ 32 := by decide
  rw [hring3 heip, hleave]
  refine ⟨_, rfl, rfl, rfl, ?_, fun _ => ⟨(show 0x1B % 4 = 3 by decide), ?_, ?_, ?_⟩,
    fun heq => absurd heq hidle, fun _ _ _ => rfl⟩
  · exact { hregisters with
      edx := hset, eip := hentry, cs := hcs, eflags := heflags, esp := hstack, ss := hss }
  · rw [GoesOnWith, hlast]
    exact ⟨rfl, rfl, rfl, rfl, rfl⟩
  · rw [hnotes, ht, ← htop, hheld]
    rfl
  · rw [hheld]
    rfl

/-- A task that waits goes on when `switch_to` has come to its stack. -/
theorem Waits.resume (h : Waits cc L v.mem notes t) (hL : L.Apart cc.data) (htask : t ∈ L.tasks)
    (hesp : v.esp = v.mem.load32 (t + espOff)) (hregisters : v.toContext.Words)
    (hcs : v.cs % 4 ≠ 3) (hs : s.cpu = v.switchIn) (ht : s.current = t) (hnotes : s.notes = notes) :
    ∃ s', s.finish cc = some s' ∧ GoneOn cc L notes t v.segments s s' := by
  obtain ⟨-, -, hreturn, -⟩ := code.ne
  have hhigh := (hL.word t htask).2.2
  cases h with
  | first huser hlast htop hwords =>
      have hidle : t ≠ L.idle := fun heq => hL.idle (heq ▸ huser)
      rw [← hesp] at htop hwords
      have hsplit : L.firstFrame code t = [0, 0, 0, 0, code.returnToRing3] ++
          [L.entry t, 0x1B, 0x202, L.userEsp t, 0x23] := rfl
      rw [hsplit] at hwords
      obtain ⟨hsaved, hframe⟩ := WordsAt.append_iff.mp hwords
      have hin := Cpu.switchIn_spec hsaved
      have hwords' := hin.words hsaved hregisters (by omega)
      rw [← hs] at hin hwords'
      rw [← hin.mem] at hframe
      have hfinish : s.finish cc = s.goOn code := by
        rw [Machine.finish, if_neg (by rw [hin.eip]; exact hreturn)]
      rw [hfinish, ← hin.segments]
      refine goOn_first ht hnotes hidle hlast hin.eip hwords' ?_ ?_
      · rw [hin.esp]
        omega
      · rw [hin.esp]
        exact hframe
  | @inCall f choice old new c c' ws top hcall hold hnew hc' hsaved hwords hbelow habove =>
      have hat := hcall.atSwitch choice hold hnew
      rw [← hc'] at hat
      have hshallow := hat.shallow
      have hdeep := hcall.deep
      have hupTo := hcall.upTo
      have hhigh' := hcall.high
      rw [← hesp] at hsaved hwords
      have hin := Cpu.switchIn_spec hwords
      have hwords' := hin.words hwords hregisters (by omega)
      rw [← hs] at hin hwords'
      have hresumes : Resumes f c c' s.cpu := by
        refine ⟨?_, hin.ebx, hin.esi, hin.edi, hin.ebp, fun x hx hx' => ?_⟩
        · rw [hin.esp]
          omega
        · rw [hin.mem]
          exact hbelow x hx hx'
      rw [hc'] at hresumes
      have hreturned := cc.resumed f choice old new c s.cpu (by omega) (by omega) hcall.registers
        hwords' hold hnew hresumes
      have hfinish : s.finish cc = ({ s with cpu := cc.fromSwitch s.cpu } : Machine).goOn code := by
        rw [Machine.finish, if_pos hin.eip]
      obtain ⟨s', hgoOn, hgone⟩ := hcall.returned (s := { s with cpu := cc.fromSwitch s.cpu }) hL htask
        ht hnotes hreturned (by rw [hin.others.2.2.2.1]; exact hcs) fun x hx hx' => by
          rw [hin.mem]
          exact habove x hx hx'
      refine ⟨s', hfinish.trans hgoOn, hgone.current, hgone.esp0, hgone.registers, ?_, ?_,
        fun x hx hdata => ?_⟩
      · rw [← hin.segments]
        exact hgone.user
      · rw [← hin.segments]
        exact hgone.idle
      · simp only [TaskStacks.OnStack, not_and, not_lt] at hx
        rw [hgone.mem x (by simpa only [TaskStacks.OnStack, not_and, not_lt] using hx) hdata]
        exact hreturned.outside x hdata (by
          by_cases hlow : L.low t ≤ x
          · have := hx hlow
            omega
          · omega)

/-! ## Leaving a stack -/

/-- The memory that the switches rely on, while one task runs. -/
structure Ready (cc : CompiledC code) (L : TaskStacks) (mem : Memory) (notes : List Note) (t : Nat) :
    Prop where
  next : ∀ u ∈ L.tasks, mem.load32 (u + nextOff) = L.next u
  top : ∀ u ∈ L.users, mem.load32 (u + kernelStackTopOff) = L.high u
  waits : ∀ u ∈ L.tasks, u ≠ t → Waits cc L mem notes u

/-- Other stacks, the stack pointers of the other tasks, and what does not change in control blocks. -/
theorem Ready.of_same (h : Ready cc L mem notes t) (hL : L.Apart cc.data)
    (hentry : ∀ u ∈ L.tasks, u ≠ t → lastEntry notes' u = lastEntry notes u)
    (hfields : ∀ u ∈ L.tasks, ∀ x, u + nextOff ≤ x → x < u + cr3Off → mem' x = mem x)
    (hesp : ∀ u ∈ L.tasks, u ≠ t → ∀ x, u + espOff ≤ x → x < u + espOff + 4 → mem' x = mem x)
    (hstack : ∀ u ∈ L.tasks, u ≠ t → ∀ x, L.OnStack u x → mem' x = mem x) :
    Ready cc L mem' notes' t := by
  have hoff : nextOff = 12 ∧ kernelStackTopOff = 16 ∧ cr3Off = 20 := ⟨rfl, rfl, rfl⟩
  refine ⟨fun u hu => ?_, fun u hu => ?_, fun u hu hne => ?_⟩
  · rw [load32_congr fun x hx hx' => hfields u hu x hx (by omega)]
    exact h.next u hu
  · rw [load32_congr fun x hx hx' =>
      hfields u (List.mem_cons_of_mem _ hu) x (by omega) (by omega)]
    exact h.top u hu
  · exact (h.waits u hu hne).congr (hentry u hu hne) (hesp u hu hne) (hstack u hu hne) hL.size

/-- Code that keeps to the stack of the running task and to the variables of the kernel. -/
theorem Ready.congr (h : Ready cc L mem notes t) (hL : L.Apart cc.data) (ht : t ∈ L.tasks)
    (hentry : ∀ u ∈ L.tasks, u ≠ t → lastEntry notes' u = lastEntry notes u)
    (hmem : ∀ x, ¬ L.OnStack t x → ¬ cc.data x → mem' x = mem x) : Ready cc L mem' notes' t := by
  have hoff : espOff = 0 ∧ nextOff = 12 ∧ cr3Off = 20 ∧ fdTableOff = 24 := ⟨rfl, rfl, rfl, rfl⟩
  have hblock : ∀ u ∈ L.tasks, ∀ x, u ≤ x → x < u + fdTableOff → mem' x = mem x := by
    intro u hu x hx hx'
    refine hmem x ?_ fun hdata => ?_
    · have hapart := hL.block t ht u hu
      simp only [TaskStacks.OnStack]
      omega
    · have hapart := (hL.data u hu x hdata).2
      omega
  refine h.of_same hL hentry (fun u hu x hx hx' => hblock u hu x (by omega) (by omega))
    (fun u hu _ x hx hx' => hblock u hu x (by omega) (by omega)) fun u hu hne x hx => ?_
  refine hmem x ?_ fun hdata => (hL.data u hu x hdata).1 hx
  have hapart := hL.stack u hu t ht hne
  simp only [TaskStacks.OnStack] at hx ⊢
  omega

/-- The state of a task is assigned to. -/
theorem Ready.setState (h : Ready cc L mem notes t) (hL : L.Apart cc.data) {u : Nat} (hu : u ∈ L.tasks)
    (w : Nat) : Ready cc L (mem.store32 (u + stateOff) w) notes t := by
  have hoff : espOff = 0 ∧ stateOff = 8 ∧ nextOff = 12 ∧ cr3Off = 20 ∧ fdTableOff = 24 :=
    ⟨rfl, rfl, rfl, rfl, rfl⟩
  refine h.of_same hL (fun _ _ _ => rfl) (fun u' hu' x hx hx' => store32_outside ?_)
    (fun u' hu' _ x hx hx' => store32_outside ?_) fun u' hu' _ x hx => store32_outside ?_
  · by_cases heq : u' = u
    · rw [heq] at hx hx'
      omega
    · have hapart := hL.blocks u' hu' u hu heq
      omega
  · by_cases heq : u' = u
    · rw [heq] at hx hx'
      omega
    · have hapart := hL.blocks u' hu' u hu heq
      omega
  · have hapart := hL.block u' hu' u hu
    simp only [TaskStacks.OnStack] at hx
    omega

/-- The call of a C function does not depend on control blocks. -/
theorem InCall.setState (h : InCall cc L notes t f c ws top) (hL : L.Apart cc.data)
    (ht : t ∈ L.tasks) {u : Nat} (hu : u ∈ L.tasks) (w : Nat) :
    InCall cc L notes t f { c with mem := c.mem.store32 (u + stateOff) w } ws top := by
  have hoff : stateOff = 8 ∧ fdTableOff = 24 := ⟨rfl, rfl⟩
  have hapart := hL.block t ht u hu
  have hdeep := h.deep
  have hupTo := h.upTo
  have hhigh := h.high
  refine { h with ret := ?_, words := ?_ }
  · show (c.mem.store32 (u + stateOff) w).load32 c.esp = _
    rw [load32_store32_disjoint (by omega)]
    exact h.ret
  · exact h.words.congr fun x hx hx' => store32_outside (by omega)

/-- A task has called C code, which comes to `switch_to`: every task waits. -/
theorem InCall.switchOut (h : InCall cc L notes old f c ws top) (hready : Ready cc L c.mem notes old)
    (hL : L.Apart cc.data) (hold : old ∈ L.tasks) (hnew : new ∈ L.tasks) (choice : cc.Choice) :
    ∃ v, (cc.toSwitch f choice old new c).saveRegisters.switchStacks = v ∧
      Ready cc L v.mem notes new ∧ Waits cc L v.mem notes new ∧
      v.esp = v.mem.load32 (new + espOff) ∧ v.toContext.Words ∧ v.cs = c.cs ∧
      v.segments = c.segments := by
  have hoff : espOff = 0 ∧ nextOff = 12 ∧ cr3Off = 20 ∧ fdTableOff = 24 := ⟨rfl, rfl, rfl, rfl⟩
  have hold32 := (hL.word old hold).1
  have hnew32 := (hL.word new hnew).1
  have hat := h.atSwitch choice hold32 hnew32
  set c' := cc.toSwitch f choice old new c with hc'
  have hdeep := hat.deep
  have hshallow := hat.shallow
  have hlow := h.deep
  have hupTo := h.upTo
  have hhigh := h.high
  have hapart := hL.block old hold old hold
  have hout := Cpu.switchOut_spec hat.top hat.words (by omega) (by omega)
  set v := c'.saveRegisters.switchStacks with hv
  -- what lies outside the stack of the old task, its stack pointer and the variables of the kernel
  have hsame : ∀ x, ¬ L.OnStack old x → ¬ cc.data x →
      x < old + espOff ∨ old + espOff + 4 ≤ x → v.mem x = c.mem x := by
    intro x hx hdata hesp
    simp only [TaskStacks.OnStack] at hx
    rw [hout.outside x (by omega) hesp, hat.outside x hdata (by omega)]
  have hblock : ∀ u ∈ L.tasks, ∀ x, u ≤ x → x < u + fdTableOff →
      x < old + espOff ∨ old + espOff + 4 ≤ x → v.mem x = c.mem x := by
    intro u hu x hx hx' hesp
    refine hsame x ?_ (fun hdata => ?_) hesp
    · have hapart' := hL.block old hold u hu
      simp only [TaskStacks.OnStack]
      omega
    · have hapart' := (hL.data u hu x hdata).2
      omega
  have hready' : Ready cc L v.mem notes old := by
    refine hready.of_same hL (fun _ _ _ => rfl) (fun u hu x hx hx' => ?_)
      (fun u hu hneu x hx hx' => ?_) fun u hu hneu x hx => ?_
    · refine hblock u hu x (by omega) (by omega) ?_
      by_cases heq : u = old
      · rw [heq] at hx
        omega
      · have hapart' := hL.blocks u hu old hold heq
        omega
    · have hapart' := hL.blocks u hu old hold hneu
      exact hblock u hu x (by omega) (by omega) (by omega)
    · have hapart' := hL.stack u hu old hold hneu
      have hapart'' := hL.block u hu old hold
      have hx'' := hx
      simp only [TaskStacks.OnStack] at hx''
      refine hsame x ?_ (fun hdata => (hL.data u hu x hdata).1 hx) (by omega)
      simp only [TaskStacks.OnStack]
      omega
  -- what lies on the stack of the old task
  have hstack : ∀ x, c'.esp ≤ x → x < L.high old → v.mem x = c'.mem x := fun x hx hx' =>
    hout.outside x (.inr hx) (by omega)
  have hwaits : Waits cc L v.mem notes old := by
    refine .inCall h hold32 hnew32 hc' ?_ ?_ (fun x hx hx' => hstack x (by omega) (by omega))
      fun x hx hx' => ?_
    · rw [hout.saved]
      omega
    · rw [hout.saved]
      have hreturn : WordsAt v.mem (c'.esp - 16 + 4 * 4) [code.yieldReturn] := by
        obtain ⟨hret, -⟩ := hat.top
        refine ⟨?_, trivial⟩
        rw [show c'.esp - 16 + 4 * 4 = c'.esp by omega, ← hret]
        exact load32_congr fun x hx hx' => hstack x hx (by omega)
      show WordsAt v.mem (c'.esp - 16) ([c'.ebx, c'.esi, c'.edi, c'.ebp] ++ [code.yieldReturn])
      exact WordsAt.append_iff.mpr ⟨hout.words, hreturn⟩
    · have hdata : ¬ cc.data x := fun hdata =>
        (hL.data old hold x hdata).1 ⟨by omega, by omega⟩
      rw [hstack x (by omega) (by omega), hat.outside x hdata (by omega)]
  have hall : ∀ u ∈ L.tasks, Waits cc L v.mem notes u := by
    intro u hu
    by_cases heq : u = old
    · rw [heq]
      exact hwaits
    · exact hready'.waits u hu heq
  exact ⟨v, rfl, ⟨hready'.next, hready'.top, fun u hu _ => hall u hu⟩, hall new hnew, hout.esp,
    hout.registers, hout.cs.trans hat.cs, hout.segments.trans hat.segments⟩

/-! ## The invariant -/

/-- What holds whenever a program or the idle loop runs. -/
structure SwitchInv (cc : CompiledC code) (L : TaskStacks) (s : Machine) : Prop where
  current : s.current ∈ L.tasks
  registers : s.cpu.toContext.Words
  ready : Ready cc L s.cpu.mem s.notes s.current
  user : s.current ∈ L.users → s.cpu.InRing3 ∧ s.esp0 = L.high s.current
  idle : s.current = L.idle → ¬ s.cpu.InRing3 ∧
    L.low L.idle + cc.depth + 128 ≤ s.cpu.esp ∧ s.cpu.esp ≤ L.high L.idle
  sound : NotesSound L s.notes

/-- A task has come to run, with these data segment registers before the `iret`. -/
structure Switched (L : TaskStacks) (notes : List Note) (segments : DataSegments) (t : Nat)
    (s : Machine) : Prop where
  current : s.current = t
  user : t ∈ L.users →
    s.notes = .ring3 t s.cpu.toContext (L.high t) (heldBy notes t segments) :: notes ∧
      s.cpu.segments = (heldBy notes t segments).cleared
  idle : t = L.idle → s.notes = notes ∧ s.cpu.segments = segments

/-- A task that has gone on runs. -/
theorem GoneOn.inv {segments : DataSegments} (h : GoneOn cc L notes t segments s s')
    (hL : L.Apart cc.data) (htask : t ∈ L.tasks) (ht : s.current = t)
    (hready : Ready cc L s.cpu.mem notes t) (hesp0 : t ∈ L.users → s.esp0 = L.high t)
    (hsound : NotesSound L notes) :
    SwitchInv cc L s' ∧ Switched L notes segments t s' := by
  have hcurrent : s'.current = t := h.current.trans ht
  have hswitched : Switched L notes segments t s' :=
    ⟨hcurrent, fun huser => (h.user huser).2.2, fun hidle => ⟨(h.idle hidle).2.1, (h.idle hidle).2.2.1⟩⟩
  refine ⟨?_, hswitched⟩
  rcases List.mem_cons.mp htask with hidle | huser
  · obtain ⟨hring, hnotes, -, hlow, hhigh⟩ := h.idle hidle
    refine ⟨hcurrent ▸ htask, h.registers, ?_, fun huser => ?_, fun _ => ⟨hring, ?_⟩, hnotes ▸ hsound⟩
    · rw [hcurrent, hnotes]
      exact hready.congr hL htask (fun _ _ _ => rfl) h.mem
    · rw [hcurrent, hidle] at huser
      exact absurd huser hL.idle
    · rw [← hidle]
      exact ⟨hlow, hhigh⟩
  · obtain ⟨hring, hgoes, hnotes, -⟩ := h.user huser
    refine ⟨hcurrent ▸ htask, h.registers, ?_, fun _ => ⟨hring, ?_⟩, fun hidle => ?_, ?_⟩
    · rw [hcurrent, hnotes]
      exact hready.congr hL htask (fun _ _ _ => rfl) h.mem
    · rw [h.esp0, hcurrent]
      exact hesp0 huser
    · rw [hcurrent] at hidle
      exact absurd (hidle ▸ huser) hL.idle
    · rw [hnotes]
      exact ⟨⟨hgoes, rfl⟩, hsound⟩

/-- No C function returns into `task_yield`. -/
theorem Callee.returnAddress_ne (f : Callee) : f.returnAddress code ≠ code.yieldReturn := by
  have h := code.distinct
  simp only [List.nodup_cons, List.mem_cons, List.not_mem_nil, or_false, not_or] at h
  obtain ⟨-, ⟨h1, h2, h3⟩, -⟩ := h
  cases f with
  | irqHandler => exact Ne.symm h1
  | syscallDispatch => exact Ne.symm h2
  | taskYield => exact Ne.symm h3

/-- A call of C code yields to the next task of the ring. -/
theorem InCall.yield (h : InCall cc L notes t f s.cpu ws top) (hL : L.Apart cc.data)
    (htask : t ∈ L.tasks) (ht : s.current = t) (hnotes : s.notes = notes)
    (hready : Ready cc L s.cpu.mem notes t) (hesp0 : t ∈ L.users → s.esp0 = L.high t)
    (hcs : s.cpu.cs % 4 ≠ 3) (hsound : NotesSound L notes) (choice : cc.Choice) :
    ∃ s', (s.yield cc f choice).finish cc = some s' ∧ SwitchInv cc L s' ∧
      Switched L notes s.cpu.segments (L.next t) s' := by
  subst ht
  have hnext := hL.next s.current htask
  unfold Machine.yield
  dsimp only
  rw [hready.next s.current htask]
  generalize L.next s.current = new at hnext
  by_cases hsame : s.current = new
  · -- no other task: the C function returns
    rw [if_pos hsame, ← hsame]
    have hdeep := h.deep
    have hhigh := h.high
    have hupTo := h.upTo
    have hbelow := (hL.word s.current htask).2.2
    have hreturned := cc.returned f choice s.cpu (by omega) (by omega) h.registers
    obtain ⟨s', hgoOn, hgone⟩ := h.returned (s := { s with cpu := cc.direct f choice s.cpu }) hL
      htask rfl hnotes hreturned hcs fun x _ _ => rfl
    have hfinish : ({ s with cpu := cc.direct f choice s.cpu } : Machine).finish cc = some s' := by
      rw [Machine.finish, if_neg, hgoOn]
      show (cc.direct f choice s.cpu).eip ≠ code.yieldReturn
      rw [hreturned.eip, h.ret]
      exact f.returnAddress_ne
    have hready' : Ready cc L (cc.direct f choice s.cpu).mem notes s.current :=
      hready.congr hL htask (fun _ _ _ => rfl) fun x hx hdata => hreturned.outside x hdata (by
        simp only [TaskStacks.OnStack] at hx
        omega)
    exact ⟨s', hfinish, hgone.inv hL htask rfl hready' hesp0 hsound⟩
  · rw [if_neg hsame]
    have hcall := (h.setState hL htask htask taskReady).setState hL htask hnext taskRunning
    have hready1 := (hready.setState hL htask taskReady).setState hL hnext taskRunning
    dsimp only at hcall
    generalize (s.cpu.mem.store32 (s.current + stateOff) taskReady).store32 (new + stateOff)
      taskRunning = mem at hready1 hcall
    obtain ⟨v, hv, hready2, hwaits, hesp, hregisters, hvcs, hvsegments⟩ :=
      hcall.switchOut hready1 hL htask hnext choice
    have hvcs : v.cs = s.cpu.cs := hvcs
    have hvsegments : v.segments = s.cpu.segments := hvsegments
    rw [Cpu.switchTo, hv]
    obtain ⟨s', hfinish, hgone⟩ := hwaits.resume (s := ⟨v.switchIn, new,
        if mem.load32 (new + kernelStackTopOff) ≠ 0 then mem.load32 (new + kernelStackTopOff)
        else s.esp0, s.notes⟩) hL hnext hesp hregisters (by rw [hvcs]; exact hcs) rfl rfl hnotes
    have hin : v.switchIn.mem = v.mem := by
      unfold Cpu.switchIn
      dsimp only
      split <;> rfl
    rw [hvsegments] at hgone
    refine ⟨s', hfinish, hgone.inv hL hnext rfl ?_ (fun huser => ?_) hsound⟩
    · show Ready cc L v.switchIn.mem notes new
      rw [hin]
      exact hready2
    · have htop := hready1.top new huser
      have hsize := hL.size new huser
      have hpos : L.high new ≠ 0 := by
        simp only [pageSize] at hsize
        omega
      show (if mem.load32 (new + kernelStackTopOff) ≠ 0 then _ else _) = L.high new
      rw [htop, if_pos hpos]

end Kumo
