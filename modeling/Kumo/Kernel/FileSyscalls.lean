import Kumo.Arch.UserCopy
import Kumo.Fs.FileRuns
import Kumo.Lib.Int32

/-!
# The system calls on files

`SYSCALL_READ`, `SYSCALL_WRITE` and `SYSCALL_READDIR` of `arch/x86/syscall_dispatch.c`. Each of
them moves bytes between the buffer of the caller and the file system, through a block from
`kmalloc` or through an array on the kernel stack. User memory is the same memory that
holds the heap, seen through the directory of the current task. A call that does not return, in
a page fault or in a loop without end, is `none`.
-/

namespace Kumo

open Memory

/-- The state of the calls: the file system with its memory, `pd_phys` and
`g_memory_map.top_of_memory`. -/
structure SyscallState where
  vfs : Vfs
  pdPhys : Nat
  topOfMemory : Nat

/-- The two local arrays of `SYSCALL_READDIR`, with what the stack held before. -/
structure ReaddirFrame where
  kpath : Memory
  kname : Memory

namespace SyscallState

/-- Memory. -/
def mem (k : SyscallState) : Memory := k.vfs.mem

/-- The state after a write to memory. -/
def setMem (k : SyscallState) (m : Memory) : SyscallState := { k with vfs := k.vfs.setMem m }

/-- `task_current()->cr3`, or 0 before there is a task. -/
def cr3 (k : SyscallState) : Nat :=
  if k.vfs.current ≠ 0 then k.vfs.field k.vfs.current cr3Off else 0

/-- What `paging.c` works on. -/
def paging (k : SyscallState) : Paging := ⟨k.mem, k.vfs.heap.heap.pmm, k.pdPhys, k.topOfMemory⟩

/-- The directory that is walked for the current task. -/
def pd (k : SyscallState) : Nat := k.paging.currentPd k.cr3

/-- A copy to or from the kernel's buffer. -/
def copy (k : SyscallState) (kbuf : Memory) : UserCopy := ⟨k.paging, kbuf, []⟩

/-- The byte at a user address. -/
def userByte (k : SyscallState) (vaddr : Nat) : Option (BitVec 8) :=
  (translate k.mem k.pd vaddr).map k.mem

/-- `copy_from_user`, with the bytes that arrive in the kernel's buffer. -/
def copyFromUser (k : SyscallState) (src size : Nat) : Option (Nat × List (BitVec 8)) :=
  ((k.copy fun _ => 0).copyFromUser k.cr3 src size).map fun r => (r.1, bytesAt r.2.kbuf 0 size)

/-- `copy_to_user` from an array of the kernel. -/
def copyToUser (k : SyscallState) (dst : Nat) (kbuf : Memory) (size : Nat) :
    Option (Nat × SyscallState) :=
  ((k.copy kbuf).copyToUser k.cr3 dst size).map fun r => (r.1, k.setMem r.2.paging.mem)

/-- `copy_from_user_string` into an array of the kernel, with the string that it then holds. -/
def copyFromUserString (k : SyscallState) (kbuf : Memory) (src maxLen : Nat) :
    Option (Nat × List (BitVec 8)) :=
  ((k.copy kbuf).copyFromUserString k.cr3 src maxLen).map fun r =>
    (r.1, loadName r.2.kbuf 0 maxLen)

/-- `kmalloc` a buffer, do the work of the call, and `kfree` the buffer on every way out. -/
def withBuffer (k : SyscallState) (size : Nat)
    (work : SyscallState → Nat → Option (Nat × SyscallState)) : Option (Nat × SyscallState) :=
  match k.vfs.kmalloc size with
  | .error _ => none
  | .ok (kbuf, vfs) =>
      if kbuf = 0 then some (UserCopy.failure, { k with vfs := vfs })
      else
        (work { k with vfs := vfs } kbuf).bind fun (ret, k) =>
          match k.vfs.kfree kbuf with
          | .error _ => none
          | .ok vfs => some (ret, { k with vfs := vfs })

/-- The work of `SYSCALL_READ`: the bytes of the file are put in the buffer, and copied from there
to the user. -/
def readWork (fd : Int) (buf size : Nat) (k : SyscallState) (kbuf : Nat) :
    Option (Nat × SyscallState) :=
  let ((n, bytes), vfs) := k.vfs.vfsRead fd size
  let k := { k with vfs := vfs.setMem (storeBytes vfs.mem kbuf bytes) }
  if 0 < n then
    (k.copyToUser buf (fun i => k.mem (kbuf + i)) n.toNat).map fun (ret, k) =>
      (if ret ≠ 0 then UserCopy.failure else word n, k)
  else some (word n, k)

/-- `SYSCALL_READ`. -/
def read (k : SyscallState) (fd : Int) (buf size : Nat) : Option (Nat × SyscallState) :=
  if size = 0 then some (0, k) else k.withBuffer size (readWork fd buf size)

/-- The work of `SYSCALL_WRITE`: the bytes of the user are put in the buffer, and written from there
to the file. -/
def writeWork (fd : Int) (buf size : Nat) (k : SyscallState) (kbuf : Nat) :
    Option (Nat × SyscallState) :=
  (k.copyFromUser buf size).bind fun (ret, bytes) =>
    if ret ≠ 0 then some (UserCopy.failure, k)
    else
      let k := k.setMem (storeBytes k.mem kbuf bytes)
      match k.vfs.vfsWrite fd (bytesAt k.mem kbuf size) with
      | .error _ => none
      | .ok (n, vfs) => some (word n, { k with vfs := vfs })

/-- `SYSCALL_WRITE`. -/
def write (k : SyscallState) (fd : Int) (buf size : Nat) : Option (Nat × SyscallState) :=
  if size = 0 then some (0, k) else k.withBuffer size (writeWork fd buf size)

/-- `SYSCALL_READDIR`. -/
def readdir (k : SyscallState) (frame : ReaddirFrame) (path index buf : Nat) :
    Option (Nat × SyscallState) :=
  (k.copyFromUserString frame.kpath path 256).bind fun (ret, kpath) =>
    if ret ≠ 0 then some (UserCopy.failure, k)
    else
      match k.vfs.vfsReaddir kpath index with
      | .error _ => none
      | .ok ((ret, name), vfs) =>
          let k := { k with vfs := vfs }
          if ret ≠ 0 then some (word ret, k)
          else
            -- the whole array is copied, also what lies behind the name
            (k.copyToUser buf (copyName frame.kname 0 name nameMax) 64).map fun (ret, k) =>
              (if ret ≠ 0 then UserCopy.failure else 0, k)

/-! ## The copies -/

/-- The C string at a user address, if it has fewer than `maxLen` characters. -/
def UserString (k : SyscallState) (ptr maxLen : Nat) (path : List (BitVec 8)) : Prop :=
  path.length < maxLen ∧ UserCopy.StringAt k.mem k.pd ptr 0 path.length ∧
    bytesAt k.mem ptr path.length = path

section Copies

variable {k : SyscallState} {kbuf : Memory} {ptr size maxLen : Nat} {path : List (BitVec 8)}

/-- `copy_from_user_string` copies the string that is there, if there is one. -/
theorem copyFromUserString_spec (hd : UserDir k.mem k.pd) (kbuf : Memory) (hptr : ptr < 2 ^ 32)
    (hmax : maxLen ≠ 0) :
    (∃ path, k.UserString ptr maxLen path ∧
      k.copyFromUserString kbuf ptr maxLen = some (0, path)) ∨
    ((∀ path, ¬ k.UserString ptr maxLen path) ∧
      ∃ left, k.copyFromUserString kbuf ptr maxLen = some (UserCopy.failure, left)) := by
  have hsentinel : ∀ v, v < 2 ^ 32 → frameOf v = 0xFFFFFFFF → UserPage k.mem k.pd v := by
    intro v _ hv
    simp only [frameOf, pageSize] at hv
    omega
  obtain ⟨ret, c, hrun, _, _, _, hres⟩ := UserCopy.stringLoop_spec (c := k.copy kbuf) ptr maxLen 0
    0xFFFFFFFF hd hptr hsentinel
  have hcopy : k.copyFromUserString kbuf ptr maxLen = some (ret, loadName c.kbuf 0 maxLen) := by
    rw [copyFromUserString, UserCopy.copyFromUserString, if_neg hmax, hrun]
    rfl
  rcases hres with ⟨rfl, n, _, hn, hs, hbuf⟩ | ⟨rfl, hnone⟩
  · have hchars : ∀ j, j < n → c.kbuf (0 + j) ≠ 0 := fun j hj => by
      rw [Nat.zero_add, hbuf j (Nat.zero_le j) (by omega)]
      exact hs.nonzero j (Nat.zero_le j) hj
    have hnul : c.kbuf (0 + n) = 0 := by
      rw [Nat.zero_add, hbuf n (Nat.zero_le n) (Nat.le_refl n)]
      exact hs.nul
    have hload : loadName c.kbuf 0 maxLen = bytesAt k.mem ptr n := by
      rw [loadName_eq_bytesAt hchars hnul (by omega)]
      refine List.ext_getElem (by simp) fun j h1 h2 => ?_
      rw [length_bytesAt] at h1
      rw [getElem_bytesAt, getElem_bytesAt, Nat.zero_add, hbuf j (Nat.zero_le j) (by omega)]
      rfl
    have hlen : (bytesAt k.mem ptr n).length = n := length_bytesAt _ _ _
    refine .inl ⟨bytesAt k.mem ptr n, ⟨by omega, ?_, by rw [hlen]⟩, by rw [hcopy, hload]⟩
    rw [hlen]
    exact hs
  · exact .inr ⟨fun path hpath => hnone path.length (Nat.zero_le _) (by have := hpath.1; omega)
      hpath.2.1, _, hcopy⟩

/-- At most one string starts at an address. -/
theorem UserString.unique {path' : List (BitVec 8)} (h : k.UserString ptr maxLen path)
    (h' : k.UserString ptr maxLen path') : path = path' := by
  have hlen : path.length = path'.length := by
    rcases Nat.lt_trichotomy path.length path'.length with hlt | heq | hgt
    · exact absurd h.2.1.nul (h'.2.1.nonzero _ (Nat.zero_le _) hlt)
    · exact heq
    · exact absurd h'.2.1.nul (h.2.1.nonzero _ (Nat.zero_le _) hgt)
  calc path = bytesAt k.mem ptr path.length := h.2.2.symm
    _ = bytesAt k.mem ptr path'.length := by rw [hlen]
    _ = path' := h'.2.2

/-- `copy_from_user` copies the bytes that are there, if the range is user memory. -/
theorem copyFromUser_spec (hd : UserDir k.mem k.pd) (hptr : ptr < 2 ^ 32) (hsize : size < 2 ^ 32) :
    (¬ (size = 0 ∨ UserRange k.mem k.pd ptr size) ∧
      ∃ left, k.copyFromUser ptr size = some (UserCopy.failure, left)) ∨
    ((size = 0 ∨ UserRange k.mem k.pd ptr size) ∧
      k.copyFromUser ptr size = some (0, bytesAt k.mem ptr size)) := by
  have hexact : (k.copy fun _ => 0).FromUserExact k.cr3 ptr size :=
    UserCopy.fromUser_exact hd hptr hsize
  obtain ⟨ret, c, hrun, hret, hzero, hfail⟩ := hexact
  have hcopy : k.copyFromUser ptr size = some (ret, bytesAt c.kbuf 0 size) := by
    rw [copyFromUser, hrun]
    rfl
  by_cases h0 : ret = 0
  · obtain ⟨_, hbytes, _⟩ := hzero h0
    refine .inr ⟨hret.mp h0, ?_⟩
    rw [hcopy, h0]
    refine congrArg (fun bytes => some (0, bytes)) (List.ext_getElem (by simp) fun i h1 h2 => ?_)
    rw [length_bytesAt] at h1
    have hrange := (hret.mp h0).resolve_left (by omega)
    have hbyte := hbytes i h1
    rw [UserCopy.userByte_user hd (by have := hrange.1; omega)
      (hrange.2 _ (by omega) (by omega))] at hbyte
    rw [getElem_bytesAt, getElem_bytesAt, Nat.zero_add]
    exact (Option.some.inj hbyte).symm
  · obtain ⟨rfl, _⟩ := hfail h0
    exact .inl ⟨fun h => h0 (hret.mpr h), _, hcopy⟩

/-- `copy_to_user` writes user memory only, and all of the range if it may. -/
theorem copyToUser_spec (hd : UserDir k.mem k.pd) (kbuf : Memory) (hptr : ptr < 2 ^ 32)
    (hsize : size < 2 ^ 32) :
    (¬ (size = 0 ∨ UserRange k.mem k.pd ptr size) ∧
      k.copyToUser ptr kbuf size = some (UserCopy.failure, k)) ∨
    ((size = 0 ∨ UserRange k.mem k.pd ptr size) ∧
      ∃ m, k.copyToUser ptr kbuf size = some (0, k.setMem m) ∧
        (∀ i, i < size → m (ptr + i) = kbuf i) ∧
        (∀ x, x < ptr ∨ ptr + size ≤ x → m x = k.mem x)) := by
  have hexact : (k.copy kbuf).ToUserExact k.cr3 ptr size := UserCopy.toUser_exact hd hptr hsize
  obtain ⟨ret, c, hrun, hret, hzero, hfail⟩ := hexact
  have hcopy : k.copyToUser ptr kbuf size = some (ret, k.setMem c.paging.mem) := by
    rw [copyToUser, hrun]
    rfl
  by_cases h0 : ret = 0
  · obtain ⟨_, _, hinside, houtside, _⟩ := hzero h0
    exact .inr ⟨hret.mp h0, c.paging.mem, by rw [hcopy, h0], hinside, houtside⟩
  · obtain ⟨rfl, rfl⟩ := hfail h0
    exact .inl ⟨fun h => h0 (hret.mpr h), hcopy⟩

end Copies

/-! ## A concrete state -/

theorem below_word {q : Nat} (hq : q % pageSize = 0 ∧ q + pageSize ≤ userMemStart) :
    q + pageSize ≤ 2 ^ 32 := by
  have := hq.2
  simp only [userMemStart] at this
  omega

/-- The pages below the user region. -/
def pagesBelow : PageSet where
  has q := q % pageSize = 0 ∧ q + pageSize ≤ userMemStart
  aligned _ hq := hq.1
  word _ hq := below_word hq

/-- A directory at `0x110000` that maps the page `0x800000`. -/
def sampleTables : Memory :=
  Memory.setEntry (Memory.setEntry (fun _ => 0#8) 0x110000 2 0x111007) 0x111000 0 0x800007

/-- The string `/` lies in that page. -/
def sampleUser : Memory := sampleTables.store8 0x800000 Vfs.slash

/-- A file system whose heap lies below that directory. -/
def sample (s : Vfs) : SyscallState where
  vfs := s.setMem fun x => if x < 0x110000 then s.mem x else sampleUser x
  pdPhys := 0x110000
  topOfMemory := 0x801000

/-- The file system is the same, if the heap has no pages above. -/
theorem sample_represents {tasks : List Nat} {s : Vfs} {a : FileStore} {objs : Objects} {rdir : Nat}
    {entries : List Entry} {fds : Nat → Nat → Nat} (h : Represents tasks s a objs rdir entries fds)
    (hheap : ∀ page ∈ s.heap.heap.heapPages, page + pageSize ≤ 0x110000) :
    Represents tasks (sample s).vfs a objs rdir entries fds := by
  refine ⟨h.toShape, h.stores.setMem_outside fun x hx => ?_⟩
  have hpage := hheap _ hx
  simp only [pageOf, pageSize] at hpage
  exact if_pos (by omega)

theorem sample_onePage (s : Vfs) : OnePage (sample s).mem 0x110000 0x111000 0x800000 := by
  have hentry : ∀ q i, 0x110000 ≤ q → q + 4 * i + 4 ≤ 0x800000 →
      (sample s).mem.entry q i = sampleTables.entry q i := by
    intro q i hq hi
    refine entry_congr fun x h1 h2 => ?_
    have hx : ¬ x < 0x110000 := by omega
    exact (if_neg hx).trans (store8_other (by omega))
  have hzero : ∀ q i, Memory.entry (fun _ => 0#8) q i = 0 := fun _ _ => rfl
  have hpd : pdIndex 0x800000 = 2 := by decide
  have hpt : ptIndex 0x800000 = 0 := by decide
  refine ⟨fun i hi => ?_, fun j hj => ?_, by decide, by decide, by decide, by decide⟩
  · simp only [tableEntries] at hi
    rw [hentry _ _ (by omega) (by omega), sampleTables, entry_setEntry_other (by omega), hpd]
    by_cases h2 : i = 2
    · rw [h2, entry_setEntry (by decide)]
      rfl
    · rw [entry_setEntry_other (by omega), hzero, if_neg h2]
  · simp only [tableEntries] at hj
    rw [hentry _ _ (by omega) (by omega), sampleTables, hpt]
    by_cases h0 : j = 0
    · rw [h0, entry_setEntry (by decide)]
      rfl
    · rw [entry_setEntry_other (by omega), entry_setEntry_other (by omega), hzero, if_neg h0]

end SyscallState

end Kumo
