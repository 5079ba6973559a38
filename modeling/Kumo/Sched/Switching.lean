import Kumo.Arch.Cpu
import Kumo.Sched.ControlBlock

/-!
# Switching between tasks

The way from one task to another: the stubs of `irq.asm` and `syscall.asm`, `switch_to` of
`switch.asm` and the trampoline of `ring3.asm`, instruction by instruction, and the C code
between the stubs and `switch_to`, of which nothing is known but the calling convention.
`finish` follows the return addresses that are found on the stack.

A step of the machine begins and ends where a program or the loop of the idle task runs.
The machine notes when a task enters the kernel, what `syscall_dispatch` is called with,
and with what a task goes on in ring 3.
-/

namespace Kumo

open Memory

/-! ## Code addresses -/

/-- The addresses that the code puts on a stack, to return to later. -/
structure CodeLabels where
  /-- `return_to_ring3`. -/
  returnToRing3 : Nat
  /-- After `call switch_to` in `task_yield`. -/
  yieldReturn : Nat
  /-- After `call irq_handler` in `irq_common_stub`. -/
  irqReturn : Nat
  /-- After `call syscall_dispatch` in `syscall_handler`. -/
  syscallReturn : Nat
  /-- After `call task_yield` in the loop of `kmain`. -/
  idleReturn : Nat
  distinct : [returnToRing3, yieldReturn, irqReturn, syscallReturn, idleReturn].Nodup
  words : ∀ a ∈ [returnToRing3, yieldReturn, irqReturn, syscallReturn, idleReturn], a < 2 ^ 32

/-! ## Assembly code -/

namespace Cpu

/-- `irq0_entry` and `irq_common_stub` up to the call of `irq_handler`. -/
def irqEntry (code : CodeLabels) (c : Cpu) : Cpu :=
  let c := c.push 0
  let c := c.push 32
  let c := c.pusha
  let c := c.push c.esp
  c.call code.irqReturn

/-- `irq_common_stub` after the call, up to `iret`. -/
def irqExit (c : Cpu) : Cpu :=
  let c := c.drop 4
  let c := c.popa
  c.drop 8

/-- `syscall_handler` up to the call of `syscall_dispatch`. -/
def syscallEntry (code : CodeLabels) (c : Cpu) : Cpu :=
  let c := c.pusha
  let c := { c with eax := setLow16 c.eax 0x10 }
  let c := c.loadSegments 0x10
  let c := c.push (c.stack 0x00)
  let c := c.push (c.stack 0x08)
  let c := c.push (c.stack 0x1C)
  let c := c.push (c.stack 0x24)
  let c := c.push (c.stack 0x20)
  let c := c.push (c.stack 0x30)
  c.call code.syscallReturn

/-- `syscall_handler` after the call, up to `iret`. -/
def syscallExit (c : Cpu) : Cpu :=
  let c := c.drop 24
  let c := { c with mem := c.mem.store32 (c.esp + 0x1C) c.eax }
  let c := { c with eax := setLow16 c.eax 0x23 }
  let c := c.loadSegments 0x23
  c.popa

/-- `return_to_ring3`, up to `iret`. -/
def returnToRing3 (c : Cpu) : Cpu :=
  let c := { c with edx := setLow16 c.edx 0x23 }
  c.loadSegments 0x23

/-- The part of `switch_to` that saves the registers. -/
def saveRegisters (c : Cpu) : Cpu :=
  let c := c.push c.ebp
  let c := c.push c.edi
  let c := c.push c.esi
  c.push c.ebx

/-- The part of `switch_to` that goes to the other stack. -/
def switchStacks (c : Cpu) : Cpu :=
  let c := { c with eax := c.stack 0x14 }
  let c := { c with mem := c.mem.store32 (c.eax + espOff) c.esp }
  let c := { c with eax := c.stack 0x18 }
  { c with esp := c.mem.load32 (c.eax + espOff) }

/-- The rest of `switch_to`. -/
def switchIn (c : Cpu) : Cpu :=
  let c := { c with eax := c.mem.load32 (c.eax + cr3Off) }
  let c := if c.eax = 0 then c else { c with cr3 := c.eax }
  let c := { c.drop 4 with ebx := c.stack 0 }
  let c := { c.drop 4 with esi := c.stack 0 }
  let c := { c.drop 4 with edi := c.stack 0 }
  let c := { c.drop 4 with ebp := c.stack 0 }
  c.ret

/-- `switch_to`. -/
def switchTo (c : Cpu) : Cpu := c.saveRegisters.switchStacks.switchIn

end Cpu

/-! ## Compiled C code -/

/-- The C functions that are called with a return address in a stub or in the idle loop. -/
inductive Callee where
  | irqHandler
  | syscallDispatch
  | taskYield
  deriving DecidableEq

/-- The number of bytes of their arguments. -/
def Callee.argBytes : Callee → Nat
  | .irqHandler => 4
  | .syscallDispatch => 24
  | .taskYield => 0

/-- What `syscall_dispatch` returns for `SYSCALL_YIELD`. -/
def yieldResult : Nat := 0

/-- The address that a stub or the idle loop pushes when it calls the function. -/
def Callee.returnAddress (code : CodeLabels) : Callee → Nat
  | .irqHandler => code.irqReturn
  | .syscallDispatch => code.syscallReturn
  | .taskYield => code.idleReturn

/-- A call of `f` in the state `c`, where the return address lies on top of the stack, has come to
the entry of `switch_to(old, new)` in the state `c'`. -/
structure AtSwitch (code : CodeLabels) (depth : Nat) (data : Nat → Prop) (f : Callee) (old new : Nat)
    (c c' : Cpu) : Prop where
  deep : c.esp - depth + 16 ≤ c'.esp
  shallow : c'.esp + 12 ≤ c.esp
  top : WordsAt c'.mem c'.esp [code.yieldReturn, old, new]
  words : c'.toContext.Words
  cs : c'.cs = c.cs
  segments : c'.segments = c.segments
  outside : ∀ x, ¬ data x →
    x < c.esp - depth ∨ c.esp ≤ x ∧ x < c.esp + 4 ∨ c.esp + 4 + f.argBytes ≤ x →
      c'.mem x = c.mem x

/-- `switch_to`, entered in the state `c'`, returns in the state `t`: what the C function that was
called in the state `c` relies on is as it was. -/
structure Resumes (f : Callee) (c c' t : Cpu) : Prop where
  esp : t.esp = c'.esp + 4
  ebx : t.ebx = c'.ebx
  esi : t.esi = c'.esi
  edi : t.edi = c'.edi
  ebp : t.ebp = c'.ebp
  mem : ∀ x, c'.esp + 4 ≤ x → x < c.esp + 4 + f.argBytes → t.mem x = c'.mem x

/-- The call of `f` in the state `c` has returned in the state `u`; its last part began in the
state `t`. -/
structure Returned (depth : Nat) (data : Nat → Prop) (f : Callee) (c t u : Cpu) : Prop where
  esp : u.esp = c.esp + 4
  eip : u.eip = c.mem.load32 c.esp
  result : f = .syscallDispatch → u.eax = yieldResult
  words : u.toContext.Words
  cs : u.cs = t.cs
  segments : u.segments = t.segments
  outside : ∀ x, ¬ data x → x < c.esp - depth ∨ c.esp + 4 + f.argBytes ≤ x → u.mem x = t.mem x

/-- The compiled C code between the stubs and `switch_to`. It obeys the calling convention: it keeps
to its variables, to its part of the stack, of `depth` bytes at most, and to its arguments, and it
returns with the stack pointer of the call, provided that `switch_to` gives back the stack pointer
and the registers that a caller relies on. What it does besides is up to a choice. -/
structure CompiledC (code : CodeLabels) where
  Choice : Type
  depth : Nat
  /-- The addresses of its variables. -/
  data : Nat → Prop
  /-- From the entry of a function to the entry of `switch_to(old, new)`. -/
  toSwitch : Callee → Choice → Nat → Nat → Cpu → Cpu
  /-- From the return of `switch_to` to the return of the function. -/
  fromSwitch : Cpu → Cpu
  /-- The whole function, when `task_yield` finds no other task. -/
  direct : Callee → Choice → Cpu → Cpu
  small : depth + 128 ≤ 2 * pageSize
  atSwitch : ∀ f choice old new c, depth ≤ c.esp → c.toContext.Words → old < 2 ^ 32 →
    new < 2 ^ 32 → AtSwitch code depth data f old new c (toSwitch f choice old new c)
  resumed : ∀ f choice old new c t, depth ≤ c.esp → c.esp + 4 < 2 ^ 32 → c.toContext.Words →
    t.toContext.Words → old < 2 ^ 32 → new < 2 ^ 32 →
      Resumes f c (toSwitch f choice old new c) t → Returned depth data f c t (fromSwitch t)
  returned : ∀ f choice c, depth ≤ c.esp → c.esp + 4 < 2 ^ 32 → c.toContext.Words →
    Returned depth data f c c (direct f choice c)

/-! ## The machine -/

/-- How a program comes to the kernel. -/
inductive Trap where
  | irq
  | syscall
  deriving DecidableEq

/-- What the machine notes. -/
inductive Note where
  /-- A task comes from ring 3. -/
  | enter (task : Nat) (context : Context) (trap : Trap)
  /-- The arguments that `syscall_dispatch` finds. -/
  | dispatch (args : List Nat)
  /-- A task goes on in ring 3: its registers after `iret`, and the data segment registers before
  and the stack pointer of the kernel after it. -/
  | ring3 (task : Nat) (context : Context) (kernelEsp : Nat) (segments : DataSegments)
  deriving DecidableEq

/-- The processor, `g_current`, `esp0` of the TSS, and the notes, the last one first. -/
structure Machine where
  cpu : Cpu
  current : Nat
  esp0 : Nat
  notes : List Note

/-- What happens. -/
inductive SwitchEvent (Choice : Type) where
  /-- The program or the idle loop runs: its registers then, and the bytes it has stored. -/
  | run (context : Context) (stores : List (Nat × BitVec 8))
  /-- The timer interrupts it. -/
  | irq (choice : Choice)
  /-- The program makes a system call. -/
  | syscall (choice : Choice)
  /-- The idle loop calls `task_yield`. -/
  | idleYield (choice : Choice)

/-- `SYSCALL_YIELD`. -/
def syscallYield : Nat := 2

namespace Machine

variable {code : CodeLabels}

/-- A function that calls `task_yield`, from its entry on, up to its return or the return of
`switch_to` on the stack of another task. -/
def yield (cc : CompiledC code) (f : Callee) (choice : cc.Choice) (s : Machine) : Machine :=
  let old := s.current
  let new := s.cpu.mem.load32 (old + nextOff)
  if old = new then { s with cpu := cc.direct f choice s.cpu }
  else
    let mem := (s.cpu.mem.store32 (old + stateOff) taskReady).store32 (new + stateOff) taskRunning
    let top := mem.load32 (new + kernelStackTopOff)
    { s with
      current := new
      esp0 := if top ≠ 0 then top else s.esp0
      cpu := (cc.toSwitch f choice old new { s.cpu with mem := mem }).switchTo }

/-- `iret`. -/
def leave (s : Machine) (c : Cpu) : Machine :=
  let (kernelEsp, cpu) := c.iret
  { s with
    cpu := cpu
    notes := if cpu.InRing3 then
      .ring3 s.current cpu.toContext kernelEsp c.segments :: s.notes else s.notes }

/-- The code at the return address runs, up to the program or the idle loop. -/
def goOn (code : CodeLabels) (s : Machine) : Option Machine :=
  if s.cpu.eip = code.irqReturn then some (s.leave s.cpu.irqExit)
  else if s.cpu.eip = code.syscallReturn then some (s.leave s.cpu.syscallExit)
  else if s.cpu.eip = code.returnToRing3 then some (s.leave s.cpu.returnToRing3)
  else if s.cpu.eip = code.idleReturn then some s
  else none

/-- The same after `switch_to`, which may return to C code. -/
def finish (cc : CompiledC code) (s : Machine) : Option Machine :=
  if s.cpu.eip = code.yieldReturn then goOn code { s with cpu := cc.fromSwitch s.cpu }
  else goOn code s

/-- A task that comes from ring 3 is noted. -/
def noteEnter (s : Machine) (trap : Trap) : Machine :=
  if s.cpu.InRing3 then { s with notes := .enter s.current s.cpu.toContext trap :: s.notes } else s

/-- The words that a C function finds as its arguments. -/
def args (c : Cpu) (count : Nat) : List Nat :=
  (List.range count).map fun i => c.mem.load32 (c.esp + 4 + 4 * i)

/-- Memory after some stores of bytes. -/
def storeAll (m : Memory) (stores : List (Nat × BitVec 8)) : Memory :=
  stores.foldl (fun m w => m.store8 w.1 w.2) m

/-- A step. -/
def step (cc : CompiledC code) (s : Machine) : SwitchEvent cc.Choice → Option Machine
  | .run context stores =>
      some { s with cpu := { s.cpu with
        toContext := context, mem := storeAll s.cpu.mem stores } }
  | .irq choice =>
      let cpu := (s.cpu.interrupt s.esp0).irqEntry code
      ({ s.noteEnter .irq with cpu := cpu }.yield cc .irqHandler choice).finish cc
  | .syscall choice =>
      if s.cpu.eax ≠ syscallYield then none
      else
        let cpu := (s.cpu.interrupt s.esp0).syscallEntry code
        let s := s.noteEnter .syscall
        let s := { s with cpu := cpu, notes := .dispatch (args cpu 6) :: s.notes }
        (s.yield cc .syscallDispatch choice).finish cc
  | .idleYield choice =>
      ({ s with cpu := s.cpu.call code.idleReturn }.yield cc .taskYield choice).finish cc

end Machine

end Kumo
