import Kumo.Arch.Paging
import Kumo.Mm.Kheap

/-!
# Tasks

The task control blocks of `sched/task.c`, the boot order of `kmain` as far as it
sets up memory and the idle task, and `task_create_user_with_pages`. The ring of tasks
is a list that starts at `g_current`, each task followed by its `next`. A control
block is kept as a record, at the address `kmalloc` returned for it.
-/

namespace Kumo

open Memory

/-- `TASK_READY`. -/
def taskReady : Nat := 0

/-- `TASK_RUNNING`. -/
def taskRunning : Nat := 1

/-- `MAX_FD_PER_TASK`. -/
def maxFdPerTask : Nat := 16

/-- `sizeof(task_t)`. -/
def taskSize : Nat := 24 + 4 * maxFdPerTask

/-- `USER_CS`, the user code selector. -/
def userCs : Nat := 0x1B

/-- `USER_DS`, the user data selector. -/
def userDs : Nat := 0x23

/-- `task_t`, with its own address. -/
structure Task where
  addr : Nat
  esp : Nat
  id : Nat
  state : Nat
  kernelStackTop : Nat
  cr3 : Nat
  fdTable : List Nat
  deriving DecidableEq

/-- Memory, its allocators, the kernel directory and the task ring. -/
structure Kernel where
  heap : Kheap
  pdPhys : Nat
  topOfMemory : Nat
  ring : List Task
  nextId : Nat

namespace Kernel

/-- Physical memory. -/
def mem (k : Kernel) : Memory := k.heap.mem

/-- The state `paging.c` works on. -/
def paging (k : Kernel) : Paging :=
  { mem := k.heap.mem, pmm := k.heap.pmm, pdPhys := k.pdPhys, topOfMemory := k.topOfMemory }

/-- The kernel after a function of `paging.c`. -/
def setPaging (k : Kernel) (p : Paging) : Kernel :=
  { k with heap := { k.heap with mem := p.mem, pmm := p.pmm }, pdPhys := p.pdPhys }

/-- The kernel after a function of `pmm.c`. -/
def setPmm (k : Kernel) (p : Pmm) : Kernel := { k with heap := { k.heap with pmm := p } }

/-- The words of the initial stack of a user task, from low to high addresses: four registers and
the return address for `switch_to`, then the frame of `iret`. -/
def initialFrame (returnToRing3 entryAddr ustackTop : Nat) : List Nat :=
  [0, 0, 0, 0, returnToRing3, entryAddr, userCs, 0x202, ustackTop, userDs]

/-- `sp[0] = ..; sp[1] = ..; ...`. -/
def storeWords (m : Memory) (sp : Nat) : List Nat → Memory
  | [] => m
  | word :: words => storeWords (m.store32 sp word) (sp + 4) words

/-- The loop that marks the user pages in the directory of the task. -/
def markPages (p : Paging) (taskPd : Nat) : List Nat → Option Paging
  | [] => some p
  | page :: pages =>
      (p.pagingSetUserAccessibleForTask taskPd page).bind fun p => markPages p taskPd pages

/-- Insert a task after the current one. -/
def insertTask (k : Kernel) (t : Task) : Kernel :=
  match k.ring with
  | [] => k
  | current :: rest => { k with ring := current :: t :: rest }

/-- The control block: `kmalloc`, fill in, insert after `g_current`. A null block is a fault. -/
def addTask (k : Kernel) (sp kstackTop taskPd : Nat) : Option (Option Task × Kernel) :=
  match k.heap.kmalloc taskSize with
  | none => none
  | some (addr, heap) =>
      if addr = 0 then none
      else
        let t : Task :=
          { addr := addr, esp := sp, id := k.nextId, state := taskReady,
            kernelStackTop := kstackTop, cr3 := taskPd, fdTable := List.replicate maxFdPerTask 0 }
        some (some t,
          ({ k with heap := heap, nextId := (k.nextId + 1) % 2 ^ 32 } : Kernel).insertTask t)

/-- `task_create_user_with_pages`, without the character that it only prints. The inner option is
the returned pointer. -/
def taskCreateUserWithPages (returnToRing3 : Nat) (k : Kernel) (entryAddr userEsp : Nat)
    (userPages : List Nat) : Option (Option Task × Kernel) :=
  let (kstackBase, pmm) := k.heap.pmm.pmmAllocContiguousPages 2
  let k := k.setPmm pmm
  if kstackBase = 0 then some (none, k)
  else
    let kstackTop := kstackBase + 2 * pageSize
    let (taskPd, p) := k.paging.pagingCloneKernelPd
    let k := k.setPaging p
    if taskPd = 0 then some (none, k)
    else
      let (ustackPage, pmm) :=
        if userEsp = 0 then k.heap.pmm.pmmAllocUserPage else (0, k.heap.pmm)
      let k := k.setPmm pmm
      if userEsp = 0 ∧ ustackPage = 0 then some (none, k)
      else
        let ustackTop := if userEsp = 0 then ustackPage + pageSize else userEsp
        let marked := userPages ++ if ustackPage ≠ 0 then [ustackPage] else []
        match markPages k.paging taskPd marked with
        | none => none
        | some p =>
            let k := k.setPaging p
            let sp := kstackTop - 40
            let m := storeWords k.heap.mem sp (initialFrame returnToRing3 entryAddr ustackTop)
            let k := { k with heap := { k.heap with mem := m } }
            k.addTask sp kstackTop taskPd

/-- `task_init`: the idle task. A null block is a fault. -/
def taskInit (k : Kernel) : Option Kernel :=
  match k.heap.kmalloc taskSize with
  | none => none
  | some (addr, heap) =>
      if addr = 0 then none
      else
        let idle : Task :=
          { addr := addr, esp := 0, id := 0, state := taskRunning, kernelStackTop := 0, cr3 := 0,
            fdTable := List.replicate maxFdPerTask 0 }
        some { k with heap := heap, ring := [idle] }

/-- `kmain` up to `task_init`, given the state that `pmm_init` leaves: `paging_init`,
`paging_unmap_null_page`, `kheap_init`, the mapping of the framebuffer if there is one, and
`task_init`. -/
def boot (mem : Memory) (pmm : Pmm) (topOfMemory : Nat) (framebuffer : Option (Nat × Nat)) :
    Option Kernel :=
  (Paging.pagingInit { mem := mem, pmm := pmm, pdPhys := 0, topOfMemory := topOfMemory }).bind
    fun p =>
      let p := p.pagingUnmapNullPage
      let k : Kernel :=
        { heap := Kheap.kheapInit p.mem p.pmm, pdPhys := p.pdPhys, topOfMemory := topOfMemory,
          ring := [], nextId := 1 }
      let mapped :=
        match framebuffer with
        | none => some k.paging
        | some (addr, bytes) => k.paging.pagingMapPhysRange addr bytes
      mapped.bind fun p => (k.setPaging p).taskInit

end Kernel

end Kumo
