import Kumo.Arch.UserMarking
import Kumo.Sched.Boot

/-!
# Control blocks in memory

`sched/task.c` as it runs on memory: a task is the address of its `task_t`, the ring is
made of the `next` fields, and `g_current` is a pointer into it. This is where
`task_create`, `task_create_user` and `task_yield` live, besides `task_init` and
`task_create_user_with_pages`. Of the processor the state has `CR3` and the `esp0` of the
TSS. A null block from `kmalloc` is written through, which faults: `none` stands for that.
-/

namespace Kumo

open Memory

/-! ## The fields of `task_t` -/

def espOff : Nat := 0x00

def idOff : Nat := 0x04

def stateOff : Nat := 0x08

def nextOff : Nat := 0x0C

def kernelStackTopOff : Nat := 0x10

def cr3Off : Nat := 0x14

def fdTableOff : Nat := 0x18

/-- The scheduler with the memory it works on: `g_current` and `g_next_id`, the allocators, the
kernel directory, and the two registers that a switch of tasks sets. -/
structure Sched where
  heap : Kheap
  pdPhys : Nat
  topOfMemory : Nat
  current : Nat
  nextId : Nat
  cr3 : Nat
  esp0 : Nat

namespace Sched

/-- Physical memory. -/
def mem (s : Sched) : Memory := s.heap.mem

/-- The state `paging.c` works on. -/
def paging (s : Sched) : Paging :=
  { mem := s.heap.mem, pmm := s.heap.pmm, pdPhys := s.pdPhys, topOfMemory := s.topOfMemory }

/-- The scheduler after a function of `paging.c`. -/
def setPaging (s : Sched) (p : Paging) : Sched :=
  { s with heap := { s.heap with mem := p.mem, pmm := p.pmm }, pdPhys := p.pdPhys }

/-- The scheduler after a function of `pmm.c`. -/
def setPmm (s : Sched) (p : Pmm) : Sched := { s with heap := { s.heap with pmm := p } }

/-- The scheduler after a write to memory. -/
def setMem (s : Sched) (m : Memory) : Sched := { s with heap := { s.heap with mem := m } }

/-- The word at an offset of a control block. -/
def field (s : Sched) (t off : Nat) : Nat := s.mem.load32 (t + off)

/-- `t->next`. -/
def next (s : Sched) (t : Nat) : Nat := s.field t nextOff

/-- `t->state`. -/
def state (s : Sched) (t : Nat) : Nat := s.field t stateOff

/-! ## Creating tasks -/

/-- An assignment that `task_create` does not make. -/
def storeSome (m : Memory) (a : Nat) : Option Nat → Memory
  | none => m
  | some v => m.store32 a v

/-- The assignments to the fields of a new block, all but `next`. `task_create` does not set
`kernel_stack_top`. -/
def fillBlock (m : Memory) (t sp id state : Nat) (kstackTop : Option Nat) (cr3 : Nat) : Memory :=
  let m := m.store32 (t + espOff) sp
  let m := m.store32 (t + idOff) id
  let m := m.store32 (t + stateOff) state
  let m := storeSome m (t + kernelStackTopOff) kstackTop
  let m := m.store32 (t + cr3Off) cr3
  Kernel.storeWords m (t + fdTableOff) (List.replicate maxFdPerTask 0)

/-- `t->next = g_current->next; g_current->next = t`. -/
def linkBlock (m : Memory) (current t : Nat) : Memory :=
  let m := m.store32 (t + nextOff) (m.load32 (current + nextOff))
  m.store32 (current + nextOff) t

/-- The control block of a new task: `kmalloc`, fill in, insert after `g_current`. -/
def addTask (s : Sched) (sp : Nat) (kstackTop : Option Nat) (taskPd : Nat) :
    Option (Nat × Sched) :=
  match s.heap.kmalloc taskSize with
  | none => none
  | some (t, heap) =>
      if t = 0 then none
      else
        let m := fillBlock heap.mem t sp s.nextId taskReady kstackTop taskPd
        some (t, { s with heap := { heap with mem := linkBlock m s.current t }
                          nextId := (s.nextId + 1) % 2 ^ 32 })

/-- `task_init`. -/
def taskInit (s : Sched) : Option Sched :=
  match s.heap.kmalloc taskSize with
  | none => none
  | some (idle, heap) =>
      if idle = 0 then none
      else
        let m := fillBlock heap.mem idle 0 0 taskRunning (some 0) 0
        some { s with heap := { heap with mem := m.store32 (idle + nextOff) idle }
                      current := idle }

/-- `task_create`. The result is the address of the block, or 0. -/
def taskCreate (s : Sched) (entry : Nat) : Option (Nat × Sched) :=
  let (stackBase, pmm) := s.heap.pmm.pmmAllocContiguousPages 2
  let s := s.setPmm pmm
  if stackBase = 0 then some (0, s)
  else
    let sp := stackBase + 2 * pageSize - 20
    (s.setMem (Kernel.storeWords s.mem sp [0, 0, 0, 0, entry])).addTask sp none 0

/-- `task_create_user`, without the character that it only prints. -/
def taskCreateUser (returnToRing3 : Nat) (s : Sched) (entryAddr userEsp : Nat) :
    Option (Nat × Sched) :=
  let (kstackBase, pmm) := s.heap.pmm.pmmAllocContiguousPages 2
  let s := s.setPmm pmm
  if kstackBase = 0 then some (0, s)
  else
    let kstackTop := kstackBase + 2 * pageSize
    let (ustackBase, pmm) := if userEsp = 0 then s.heap.pmm.pmmAllocPage else (0, s.heap.pmm)
    let s := s.setPmm pmm
    if userEsp = 0 ∧ ustackBase = 0 then some (0, s)
    else
      let s :=
        if userEsp = 0 then s.setPaging (s.paging.pagingSetUserAccessible ustackBase) else s
      let ustackTop := if userEsp = 0 then ustackBase + pageSize else userEsp
      let sp := kstackTop - 40
      let m := Kernel.storeWords s.mem sp (Kernel.initialFrame returnToRing3 entryAddr ustackTop)
      (s.setMem m).addTask sp (some kstackTop) 0

/-- `task_create_user_with_pages`, without the character that it only prints. -/
def taskCreateUserWithPages (returnToRing3 : Nat) (s : Sched) (entryAddr userEsp : Nat)
    (userPages : List Nat) : Option (Nat × Sched) :=
  let (kstackBase, pmm) := s.heap.pmm.pmmAllocContiguousPages 2
  let s := s.setPmm pmm
  if kstackBase = 0 then some (0, s)
  else
    let kstackTop := kstackBase + 2 * pageSize
    let (taskPd, p) := s.paging.pagingCloneKernelPd
    let s := s.setPaging p
    if taskPd = 0 then some (0, s)
    else
      let (ustackPage, pmm) :=
        if userEsp = 0 then s.heap.pmm.pmmAllocUserPage else (0, s.heap.pmm)
      let s := s.setPmm pmm
      if userEsp = 0 ∧ ustackPage = 0 then some (0, s)
      else
        let ustackTop := if userEsp = 0 then ustackPage + pageSize else userEsp
        let marked := userPages ++ if ustackPage ≠ 0 then [ustackPage] else []
        match Kernel.markPages s.paging taskPd marked with
        | none => none
        | some p =>
            let s := s.setPaging p
            let sp := kstackTop - 40
            let m := Kernel.storeWords s.mem sp
              (Kernel.initialFrame returnToRing3 entryAddr ustackTop)
            (s.setMem m).addTask sp (some kstackTop) taskPd

/-! ## Switching tasks -/

/-- `switch_to(old, new)`, without the registers it pushes and pops: `esp` is the stack pointer
that it saves, and `CR3` is loaded unless the new task has none. -/
def switchTo (s : Sched) (old new esp : Nat) : Sched :=
  let s := s.setMem (s.mem.store32 (old + espOff) esp)
  if s.field new cr3Off = 0 then s else { s with cr3 := s.field new cr3Off }

/-- `task_yield` between its first return and `switch_to`: the states, `g_current` and the TSS. -/
def pickNext (s : Sched) : Sched :=
  let old := s.current
  let new := s.next old
  let m := (s.mem.store32 (old + stateOff) taskReady).store32 (new + stateOff) taskRunning
  let s : Sched := { s.setMem m with current := new }
  if s.field new kernelStackTopOff ≠ 0 then { s with esp0 := s.field new kernelStackTopOff } else s

/-- `task_yield`. -/
def taskYield (s : Sched) (esp : Nat) : Sched :=
  let old := s.current
  let new := s.next old
  if old = new then s else s.pickNext.switchTo old new esp

/-! ## Starting up -/

/-- The scheduler before `task_init`, with the kernel directory loaded. -/
def ofKernel (k : Kernel) : Sched :=
  { heap := k.heap, pdPhys := k.pdPhys, topOfMemory := k.topOfMemory, current := 0,
    nextId := k.nextId, cr3 := k.pdPhys, esp0 := 0 }

/-- `kmain` up to `task_init`. -/
def boot (mem : Memory) (pmm : Pmm) (topOfMemory : Nat) (framebuffer : Option (Nat × Nat)) :
    Option Sched :=
  (Kernel.bootMemory mem pmm topOfMemory framebuffer).bind fun k => (ofKernel k).taskInit

theorem boot_sample : (boot (fun _ => 0) Kernel.samplePmm 0x802000 none).isSome = true := by
  decide +kernel

end Sched

end Kumo
