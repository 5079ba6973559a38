import Kumo.Fs.Elf
import Kumo.Fs.ElfStack
import Kumo.Fs.Vfs

/-!
# Running a program from the file system

`exec_elf_from_path` of `kernel/main.c`: the file is read into four pages of the kernel
zone, loaded, and given a stack; the stack page and the pages of the program are listed in
the array `all_pages` for `task_create_user_with_pages`. The array has 32 places, and
nothing compares the number of pages with it. The model notes the places that are assigned
to. None of the early returns gives back what was taken. The serial output is left out.
-/

namespace Kumo

open Memory

/-- The file system, and what the creation of tasks needs besides. -/
structure Executive where
  vfs : Vfs
  pdPhys : Nat
  topOfMemory : Nat
  nextId : Nat
  cr3 : Nat
  esp0 : Nat

namespace Executive

/-- Memory with its allocators. -/
def heap (k : Executive) : Kheap := k.vfs.heap.heap

/-- Memory. -/
def mem (k : Executive) : Memory := k.vfs.mem

/-- After a change of the heap. -/
def setHeap (k : Executive) (h : Kheap) : Executive :=
  { k with vfs := { k.vfs with heap := { k.vfs.heap with heap := h } } }

/-- The scheduler. -/
def sched (k : Executive) : Sched where
  heap := k.heap
  pdPhys := k.pdPhys
  topOfMemory := k.topOfMemory
  current := k.vfs.current
  nextId := k.nextId
  cr3 := k.cr3
  esp0 := k.esp0

/-- After a function of the scheduler. -/
def setSched (k : Executive) (s : Sched) : Executive where
  vfs := { k.vfs with heap := { k.vfs.heap with heap := s.heap }, current := s.current }
  pdPhys := s.pdPhys
  topOfMemory := s.topOfMemory
  nextId := s.nextId
  cr3 := s.cr3
  esp0 := s.esp0

end Executive

namespace Exec

/-- `ELF_LOAD_MAX`. -/
def elfLoadMax : Nat := 16 * 1024

/-- `ELF_BUF_PAGES`. -/
def elfBufPages : Nat := (elfLoadMax + pageSize - 1) / pageSize

/-- `O_RDONLY`. -/
def oRdonly : Nat := 0

/-- The number of places of `all_pages`. -/
def allPagesLen : Nat := 32

/-! ## Reading the file -/

/-- The loop that reads the file. Each of its rounds reads a byte at least. -/
def readLoop (fd : Int) (buf : Nat) : Nat → Nat → Vfs → Nat × Vfs
  | 0, total, s => (total, s)
  | fuel + 1, total, s =>
      if elfLoadMax ≤ total then (total, s)
      else
        let ((n, bytes), s) := s.vfsRead fd (elfLoadMax - total)
        let s := s.setMem (storeBytes s.mem (buf + total) bytes)
        if n ≤ 0 then (total, s) else readLoop fd buf fuel (total + n.toNat) s

/-- What the part of `exec_elf_from_path` that reads the file delivers: it has failed, or the file
is in the buffer. -/
inductive FileRead where
  | failed
  | loaded (buf total : Nat)

/-- `exec_elf_from_path` up to the check for an empty file. -/
def readFile (k : Executive) (path : List (BitVec 8)) : Except Vfs (FileRead × Executive) := do
  let (fd, vfs) ← k.vfs.vfsOpen path oRdonly
  let k := { k with vfs := vfs }
  if fd < 0 then return (.failed, k)
  else
    let (buf, pmm) := k.heap.pmm.pmmAllocContiguousPages elfBufPages
    let k := k.setHeap { k.heap with pmm := pmm }
    if buf = 0 then
      let (_, vfs) ← k.vfs.vfsClose fd
      return (.failed, { k with vfs := vfs })
    else
      let (total, vfs) := readLoop fd buf (elfLoadMax + 1) 0 k.vfs
      let (_, vfs) ← vfs.vfsClose fd
      let k := { k with vfs := vfs }
      if total = 0 then return (.failed, k) else return (.loaded buf total, k)

/-! ## The list of pages -/

/-- `all_pages` as it is filled: the places that are assigned to, and what they hold. -/
structure AllPages where
  assigned : List Nat
  page : Nat → Nat

/-- `all_pages[i] = page`. -/
def AllPages.assign (a : AllPages) (i page : Nat) : AllPages where
  assigned := a.assigned ++ [i]
  page := Function.update a.page i page

/-- The loop that copies `pages[i]`, `pages[i + 1]`, … to `all_pages`. -/
def copyPages (m : Memory) (pages : Nat) : Nat → Nat → AllPages → AllPages
  | 0, _, a => a
  | count + 1, i, a =>
      copyPages m pages count (i + 1) (a.assign (i + 1) (m.load32 (add32 pages (4 * i))))

/-- `all_pages` after the loop. -/
def buildPages (m : Memory) (stackPage pages pageCount : Nat) : AllPages :=
  copyPages m pages pageCount 0 (AllPages.assign ⟨[], fun _ => 0⟩ 0 stackPage)

/-! ## The new task -/

/-- What the call of `task_create_user_with_pages` gets: the list as the loop has filled it, and
the other arguments. -/
structure NewProgram where
  entry : Nat
  userEsp : Nat
  allPages : AllPages
  allCount : Nat
  pages : Nat
  pageCount : Nat

/-- The pages that are passed. -/
def NewProgram.passed (p : NewProgram) : List Nat := (List.range p.allCount).map p.allPages.page

/-- `exec_elf_from_path` from `elf_load` up to the new task. Nothing is prepared if the file is not
accepted or there is no page for its stack. -/
def prepare (h : Kheap) (path buf total : Nat) : Option (Option NewProgram × Kheap) :=
  match Elf.elfLoad h buf total with
  | none => none
  | some l =>
      match l.out with
      | none => some (none, l.state.heap)
      | some (pages, pageCount) =>
          if l.entry = 0 then some (none, l.state.heap)
          else
            match Elf.elfSetupUserStack l.state.mem l.state.heap.pmm path with
            | none => none
            | some u =>
                let h := { l.state.heap with mem := u.mem, pmm := u.pmm }
                match u.outPage with
                | none => some (none, h)
                | some stackPage =>
                    if u.esp = 0 then some (none, h)
                    else some (some ⟨l.entry, u.esp, buildPages h.mem stackPage pages pageCount,
                      add32 pageCount 1, pages, pageCount⟩, h)

/-- `exec_elf_from_path` from the call of `task_create_user_with_pages` on. -/
def launch (returnToRing3 : Nat) (k : Executive) (p : NewProgram) : Option (Int × Executive) :=
  match k.sched.taskCreateUserWithPages returnToRing3 p.entry p.userEsp p.passed with
  | none => none
  | some (t, s) =>
      let k := k.setSched s
      match k.heap.kfree p.pages with
      | none => none
      | some h =>
          let k := k.setHeap h
          if t = 0 then some (-1, k) else some (wrap32 (k.sched.field t idOff), k)

/-- `exec_elf_from_path`. There is no result when a call in it does not return. -/
def execElfFromPath (returnToRing3 : Nat) (k : Executive) (path : Nat) : Option (Int × Executive) :=
  match k.mem.strLen path walkFuel with
  | none => none
  | some len =>
      match readFile k (bytesAt k.mem path len) with
      | .error _ => none
      | .ok (.failed, k) => some (-1, k)
      | .ok (.loaded buf total, k) =>
          match prepare k.heap path buf total with
          | none => none
          | some (none, h) => some (-1, k.setHeap h)
          | some (some p, h) => launch returnToRing3 (k.setHeap h) p

end Exec

end Kumo
