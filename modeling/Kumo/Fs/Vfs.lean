import Kumo.Fs.Ramfs
import Kumo.Sched.ControlBlock

/-!
# The virtual file system

`fs/vfs.c`: the root directory, the walk along a path, and the calls that work on the
descriptor table of the current task. The flags of `vfs_open` are stored and never read.
-/

namespace Kumo

open Memory

/-! ## The fields of `vfs_file_t` -/

/-- `file->node`. -/
def fileNodeOff : Nat := 0

/-- `file->offset`. -/
def fileOffsetOff : Nat := 4

/-- `file->flags`. -/
def fileFlagsOff : Nat := 8

/-- `sizeof(vfs_file_t)`. -/
def vfsFileSize : Nat := 12

/-! ## Paths -/

/-- The inner loop of `path_next`: at most `limit` characters, up to a slash or the end. Returns
the name and the rest of the path. -/
def takeName : Nat → List (BitVec 8) → List (BitVec 8) × List (BitVec 8)
  | limit + 1, c :: p =>
      if c = Vfs.slash then ([], c :: p)
      else
        let (name, rest) := takeName limit p
        (c :: name, rest)
  | _, p => ([], p)

/-- `path_next`: the next component and the rest of the path. -/
def pathNext (p : List (BitVec 8)) : Option (List (BitVec 8) × List (BitVec 8)) :=
  match p.dropWhile fun c => c = Vfs.slash with
  | [] => none
  | p => some (takeName nameMax p)

/-- The loop of `vfs_open` that finds the last slash of a path. -/
def lastSlash : List (BitVec 8) → Nat → Option Nat → Option Nat
  | [], _, last => last
  | c :: q, i, last => lastSlash q (i + 1) (if c = Vfs.slash then some i else last)

namespace Vfs

/-- `vfs_mount`. -/
def vfsMount (s : Vfs) (path : List (BitVec 8)) (root : Nat) : Int × Vfs :=
  if path ≠ [slash] then (-1, s) else (0, { s with gRoot := root })

/-- The loop of `vfs_lookup`. Each round takes at least one character off the path. -/
def lookupFrom : Nat → Vfs → Nat → List (BitVec 8) → Except Vfs (Nat × Vfs)
  | 0, s, _, _ => .error s
  | fuel + 1, s, cur, p =>
      match pathNext p with
      | none => .ok (cur, s)
      | some (name, p) =>
          if s.field cur typeOff ≠ vfsTypeDir then .ok (0, s)
          else do
            let (cur, s) ← s.ramfsLookup cur name
            if cur = 0 then return (0, s) else lookupFrom fuel s cur p

/-- `vfs_lookup`. -/
def vfsLookup (s : Vfs) (path : List (BitVec 8)) : Except Vfs (Nat × Vfs) :=
  if s.gRoot = 0 then .ok (0, s) else lookupFrom (path.length + 1) s s.gRoot path

/-- `&t->fd_table[i]`, as an offset. -/
def fdOff (i : Nat) : Nat := fdTableOff + 4 * i

/-- The loop of `vfs_open` that finds a free slot. -/
def freeSlot (s : Vfs) (t : Nat) : Nat → Nat → Option Nat
  | 0, _ => none
  | steps + 1, i => if s.field t (fdOff i) = 0 then some i else freeSlot s t steps (i + 1)

/-- The part of `vfs_open` that creates a file that does not exist. Without a root directory the
null pointer is read, and the call does not return. -/
def openCreate (s : Vfs) (path : List (BitVec 8)) : Except Vfs (Nat × Vfs) :=
  match lastSlash path 0 none with
  | none => .ok (0, s)
  | some i =>
      let fname := path.drop (i + 1)
      if fname = [] then .ok (0, s)
      else if i ≠ 0 then .ok (0, s)
      else if s.gRoot = 0 then .error s
      else if s.field s.gRoot typeOff ≠ vfsTypeDir then .ok (0, s)
      else s.ramfsCreate s.gRoot fname vfsTypeFile

/-- The node of the path, which is created if it does not exist. -/
def openNode (s : Vfs) (path : List (BitVec 8)) : Except Vfs (Nat × Vfs) := do
  let (node, s) ← s.vfsLookup path
  if node = 0 then s.openCreate path else return (node, s)

/-- `vfs_open`. -/
def vfsOpen (s : Vfs) (path : List (BitVec 8)) (flags : Nat) : Except Vfs (Int × Vfs) :=
  if s.current = 0 then .ok (-1, s)
  else
    match s.freeSlot s.current maxFdPerTask 0 with
    | none => .ok (-1, s)
    | some fd => do
        let (node, s) ← s.openNode path
        if node = 0 then return (-1, s)
        else
          let (file, s) ← s.kmalloc vfsFileSize
          if file = 0 then return (-1, s)
          else
            let s := s.setMem (s.mem.store32 (file + fileNodeOff) node)
            let s := s.setMem (s.mem.store32 (file + fileOffsetOff) 0)
            let s := s.setMem (s.mem.store32 (file + fileFlagsOff) flags)
            return (fd, s.setMem (s.mem.store32 (s.current + fdOff fd) file))

/-- The check at the start of `vfs_read`, `vfs_write` and `vfs_close`: the slot of the descriptor,
if it is open. -/
def openSlot (s : Vfs) (fd : Int) : Option Nat :=
  if s.current = 0 ∨ fd < 0 ∨ (maxFdPerTask : Int) ≤ fd then none
  else if s.field s.current (fdOff fd.toNat) = 0 then none
  else some fd.toNat

/-- `if (n > 0) file->offset += n`. -/
def advance (s : Vfs) (file : Nat) (n : Int) : Vfs :=
  if 0 < n then
    s.setMem (s.mem.store32 (file + fileOffsetOff) (s.field file fileOffsetOff + n.toNat))
  else s

/-- `vfs_read`, with the bytes it puts in the caller's buffer. -/
def vfsRead (s : Vfs) (fd : Int) (size : Nat) : (Int × List (BitVec 8)) × Vfs :=
  match s.openSlot fd with
  | none => ((-1, []), s)
  | some i =>
      let file := s.field s.current (fdOff i)
      let r := s.ramfsRead (s.field file fileNodeOff) (s.field file fileOffsetOff) size
      (r, s.advance file r.1)

/-- `vfs_write`. -/
def vfsWrite (s : Vfs) (fd : Int) (buf : List (BitVec 8)) : Except Vfs (Int × Vfs) :=
  match s.openSlot fd with
  | none => .ok (-1, s)
  | some i => do
      let file := s.field s.current (fdOff i)
      let (n, s) ← s.ramfsWrite (s.field file fileNodeOff) (s.field file fileOffsetOff) buf
      return (n, s.advance file n)

/-- `vfs_close`. -/
def vfsClose (s : Vfs) (fd : Int) : Except Vfs (Int × Vfs) :=
  match s.openSlot fd with
  | none => .ok (-1, s)
  | some i => do
      let s ← s.kfree (s.field s.current (fdOff i))
      return (0, s.setMem (s.mem.store32 (s.current + fdOff i) 0))

/-- `vfs_readdir`, with the name it puts in the caller's buffer. -/
def vfsReaddir (s : Vfs) (path : List (BitVec 8)) (index : Nat) :
    Except Vfs ((Int × List (BitVec 8)) × Vfs) := do
  let (dir, s) ← s.vfsLookup path
  if dir = 0 then return ((-1, []), s)
  else if s.field dir typeOff ≠ vfsTypeDir then return ((-1, []), s)
  else s.ramfsReaddir dir index

end Vfs

end Kumo
