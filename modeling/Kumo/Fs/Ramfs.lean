import Kumo.Lib.Bytes
import Kumo.Lib.Int32
import Kumo.Mm.KheapObjects

/-!
# The RAM file system

`fs/ramfs.c` over the kernel heap. A node of the VFS (`vfs_node_t`) wraps a node of the file
system (`ramfs_node_t`), and every lookup allocates a wrapper of its own. All nodes have
the same table of operations, so a call through `node->ops` is a call of the function here,
and the `ops` word is left out. A C string is the list of its characters before the
terminator. A buffer of the caller is its own, so its bytes are passed by value. A
call that returns gives its result and the file system after it; one that does not return
gives, as an error, the file system in which it hangs.
-/

namespace Kumo

open Memory

/-! ## The fields of `vfs_node_t` and `ramfs_node_t` -/

/-- `VFS_TYPE_FILE`. -/
def vfsTypeFile : Nat := 0

/-- `VFS_TYPE_DIR`. -/
def vfsTypeDir : Nat := 1

/-- `node->name` and `rn->name`. -/
def nameOff : Nat := 0

/-- `node->type` and `rn->type`. -/
def typeOff : Nat := 64

/-- `node->size` and `rn->size`. -/
def sizeOff : Nat := 68

/-- `node->fs_data`. -/
def fsDataOff : Nat := 76

/-- `sizeof(vfs_node_t)`. -/
def vfsNodeSize : Nat := 80

/-- `rn->data`. -/
def dataOff : Nat := 72

/-- `rn->parent`. -/
def parentOff : Nat := 76

/-- `rn->children`. -/
def childrenOff : Nat := 80

/-- `rn->next`. -/
def siblingOff : Nat := 84

/-- `sizeof(ramfs_node_t)`. -/
def ramfsNodeSize : Nat := 88

/-- The characters of a name that are copied: one less than `char name[64]` holds. -/
def nameMax : Nat := 63

/-- The file system with the memory it works on: the heap, `g_root`, and the task that
`task_current` returns. `refused` records whether `kmalloc` has returned NULL. -/
structure Vfs where
  heap : HeapState
  gRoot : Nat
  current : Nat
  refused : Bool

/-! ## Strings -/

/-- `for (i = 0; name[i] && i < limit; i++) p[i] = name[i]; p[i] = 0`. -/
def copyName (m : Memory) (p : Nat) : List (BitVec 8) → Nat → Memory
  | c :: name, limit + 1 => copyName (m.store8 p c) (p + 1) name limit
  | _, _ => m.store8 p 0

/-- The characters that such a loop takes from memory. -/
def loadName (m : Memory) (p : Nat) : Nat → List (BitVec 8)
  | 0 => []
  | limit + 1 => if m p = 0 then [] else m p :: loadName m (p + 1) limit

/-- The comparison of `ramfs_lookup`: at most `limit` characters, until both strings end. -/
def sameName (m : Memory) (p : Nat) : List (BitVec 8) → Nat → Bool
  | _, 0 => true
  | [], _ + 1 => m p = 0
  | c :: name, limit + 1 => if m p ≠ c then false else sameName m (p + 1) name limit

namespace Vfs

/-- Memory. -/
def mem (s : Vfs) : Memory := s.heap.heap.mem

/-- The file system after a write to memory. -/
def setMem (s : Vfs) (m : Memory) : Vfs := { s with heap := s.heap.setMem m }

/-- The word at an offset of a structure. -/
def field (s : Vfs) (p off : Nat) : Nat := s.mem.load32 (p + off)

/-- `kmalloc`. -/
def kmalloc (s : Vfs) (size : Nat) : Except Vfs (Nat × Vfs) :=
  match s.heap.alloc size with
  | none => .error s
  | some (p, heap) => .ok (p, { s with heap := heap
                                       refused := s.refused || p == 0 })

/-- `kfree`. -/
def kfree (s : Vfs) (ptr : Nat) : Except Vfs Vfs :=
  match s.heap.step (.kfree ptr) with
  | none => .error s
  | some heap => .ok { s with heap := heap }

/-! ## Nodes -/

/-- The assignments to a new `vfs_node_t`. -/
def fillVfsNode (m : Memory) (vn : Nat) (name : List (BitVec 8)) (type size fsData : Nat) :
    Memory :=
  let m := copyName m (vn + nameOff) name nameMax
  let m := m.store32 (vn + typeOff) type
  let m := m.store32 (vn + sizeOff) size
  m.store32 (vn + fsDataOff) fsData

/-- The assignments to a new `ramfs_node_t`. -/
def fillRamfsNode (m : Memory) (rn : Nat) (name : List (BitVec 8)) (type parent : Nat) : Memory :=
  let m := copyName m (rn + nameOff) name nameMax
  let m := m.store32 (rn + typeOff) type
  let m := m.store32 (rn + sizeOff) 0
  let m := m.store32 (rn + dataOff) 0
  let m := m.store32 (rn + parentOff) parent
  let m := m.store32 (rn + childrenOff) 0
  m.store32 (rn + siblingOff) 0

/-- Allocate a `vfs_node_t` and assign to it. The result is its address, or 0. -/
def newVfsNode (s : Vfs) (fill : Memory → Nat → Memory) : Except Vfs (Nat × Vfs) := do
  let (vn, s) ← s.kmalloc vfsNodeSize
  if vn = 0 then return (0, s)
  else return (vn, s.setMem (fill s.mem vn))

/-- `ramfs_make_vfs_node`. -/
def ramfsMakeVfsNode (s : Vfs) (name : List (BitVec 8)) (type : Nat) : Except Vfs (Nat × Vfs) := do
  let (rn, s) ← s.kmalloc ramfsNodeSize
  if rn = 0 then return (0, s)
  else
    let s := s.setMem (fillRamfsNode s.mem rn name type 0)
    let (vn, s) ← s.newVfsNode fun m vn => fillVfsNode m vn name type 0 rn
    if vn = 0 then return (0, ← s.kfree rn)
    else return (vn, s)

/-- The character `'/'`. -/
def slash : BitVec 8 := 0x2F#8

/-- `ramfs_init`. The root is its own parent. -/
def ramfsInit (s : Vfs) : Except Vfs (Nat × Vfs) := do
  let (root, s) ← s.ramfsMakeVfsNode [slash] vfsTypeDir
  if root = 0 then return (0, s)
  else
    let rn := s.field root fsDataOff
    return (root, s.setMem (s.mem.store32 (rn + parentOff) rn))

/-! ## Files -/

/-- `ramfs_read`, with the bytes it puts in the caller's buffer. -/
def ramfsRead (s : Vfs) (node offset size : Nat) : Int × List (BitVec 8) :=
  let rn := s.field node fsDataOff
  if s.field rn typeOff ≠ vfsTypeFile then (-1, [])
  else if s.field rn dataOff = 0 ∨ s.field rn sizeOff ≤ offset then (0, [])
  else
    let toRead :=
      if s.field rn sizeOff < (offset + size) % 2 ^ 32 then s.field rn sizeOff - offset else size
    (wrap32 toRead,
      (List.range toRead).map fun i => s.mem (s.field rn dataOff + (offset + i) % 2 ^ 32))

/-- `for (i = 0; i < size; i++) rn->data[offset + i] = buf[i]`. -/
def writeData (m : Memory) (data offset : Nat) : List (BitVec 8) → Memory
  | [] => m
  | b :: buf => writeData (m.store8 (data + offset) b) data ((offset + 1) % 2 ^ 32) buf

/-- `if (rn->data) kfree(rn->data)`. -/
def freeData (s : Vfs) (data : Nat) : Except Vfs Vfs := if data ≠ 0 then s.kfree data else .ok s

/-- The part of `ramfs_write` that makes room: a larger buffer with the old content, and zeros
up to the offset. Returns whether there was memory for it. -/
def growData (s : Vfs) (node rn offset needed : Nat) : Except Vfs (Bool × Vfs) := do
  let (newData, s) ← s.kmalloc needed
  if newData = 0 then return (false, s)
  else
    let data := s.field rn dataOff
    let size := s.field rn sizeOff
    let s := s.setMem (copyBytes s.mem newData data size)
    let s := s.setMem (clearBytes s.mem (newData + size) (offset - size))
    let s ← s.freeData data
    let s := s.setMem (s.mem.store32 (rn + dataOff) newData)
    let s := s.setMem (s.mem.store32 (rn + sizeOff) needed)
    return (true, s.setMem (s.mem.store32 (node + sizeOff) needed))

/-- `if (needed > rn->size)` make room. -/
def makeRoom (s : Vfs) (node rn offset needed : Nat) : Except Vfs (Bool × Vfs) :=
  if s.field rn sizeOff < needed then s.growData node rn offset needed else .ok (true, s)

/-- `ramfs_write`. -/
def ramfsWrite (s : Vfs) (node offset : Nat) (buf : List (BitVec 8)) : Except Vfs (Int × Vfs) :=
  let rn := s.field node fsDataOff
  if s.field rn typeOff ≠ vfsTypeFile then .ok (-1, s)
  else if buf.length = 0 then .ok (0, s)
  else do
    let (fits, s) ← s.makeRoom node rn offset ((offset + buf.length) % 2 ^ 32)
    if fits then
      return (wrap32 buf.length, s.setMem (writeData s.mem (s.field rn dataOff) offset buf))
    else return (-1, s)

/-! ## Directories -/

/-- The walk of `ramfs_lookup` along the children: the child of that name, or 0. -/
def findChild (m : Memory) (name : List (BitVec 8)) : Nat → Nat → Option Nat
  | 0, _ => none
  | fuel + 1, child =>
      if child = 0 then some 0
      else if sameName m (child + nameOff) name 64 then some child
      else findChild m name fuel (m.load32 (child + siblingOff))

/-- `ramfs_lookup`. -/
def ramfsLookup (s : Vfs) (dir : Nat) (name : List (BitVec 8)) : Except Vfs (Nat × Vfs) :=
  if s.field dir typeOff ≠ vfsTypeDir then .ok (0, s)
  else
    let rdir := s.field dir fsDataOff
    match findChild s.mem name walkFuel (s.field rdir childrenOff) with
    | none => .error s
    | some child =>
        if child = 0 then .ok (0, s)
        else s.newVfsNode fun m vn =>
          fillVfsNode m vn (loadName m (child + nameOff) nameMax) (m.load32 (child + typeOff))
            (m.load32 (child + sizeOff)) child

/-- `ramfs_create`. -/
def ramfsCreate (s : Vfs) (dir : Nat) (name : List (BitVec 8)) (type : Nat) :
    Except Vfs (Nat × Vfs) :=
  if s.field dir typeOff ≠ vfsTypeDir then .ok (0, s)
  else do
    let rdir := s.field dir fsDataOff
    let (rn, s) ← s.kmalloc ramfsNodeSize
    if rn = 0 then return (0, s)
    else
      let s := s.setMem (fillRamfsNode s.mem rn name type rdir)
      let s := s.setMem (s.mem.store32 (rn + siblingOff) (s.field rdir childrenOff))
      let s := s.setMem (s.mem.store32 (rdir + childrenOff) rn)
      let (vn, s) ← s.newVfsNode fun m vn => fillVfsNode m vn name type 0 rn
      if vn = 0 then
        let s := s.setMem (s.mem.store32 (rdir + childrenOff) (s.field rn siblingOff))
        return (0, ← s.kfree rn)
      else return (vn, s)

/-- The walk of `ramfs_readdir`: the child at an index, or 0. -/
def childAt (m : Memory) (index : Nat) : Nat → Nat → Nat → Option Nat
  | 0, _, _ => none
  | fuel + 1, i, child =>
      if child = 0 then some 0
      else if i = index then some child
      else childAt m index fuel ((i + 1) % 2 ^ 32) (m.load32 (child + siblingOff))

/-- `ramfs_readdir`, with the name it puts in the caller's buffer. -/
def ramfsReaddir (s : Vfs) (dir index : Nat) : Except Vfs ((Int × List (BitVec 8)) × Vfs) :=
  if s.field dir typeOff ≠ vfsTypeDir then .ok ((-1, []), s)
  else
    let rdir := s.field dir fsDataOff
    match childAt s.mem index walkFuel 0 (s.field rdir childrenOff) with
    | none => .error s
    | some child =>
        if child = 0 then .ok ((-1, []), s)
        else .ok ((0, loadName s.mem (child + nameOff) nameMax), s)

end Vfs

end Kumo
