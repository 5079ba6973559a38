import Kumo.Lib.Content
import Kumo.Sched.Task

/-!
# A store of files

What the file system is for: files by name, and for each task a table of descriptors, each
the name of a file and an offset. Nothing here knows of nodes, blocks or paths. A call gives
its return value and the bytes it delivers.
-/

namespace Kumo

open Content

/-- The bytes of a name or of a file. -/
abbrev Bytes := List (BitVec 8)

/-- What a task asks of the file system. -/
inductive FsCall where
  | open (name : Bytes) (flags : Nat)
  | read (fd : Int) (size : Nat)
  | write (fd : Int) (buf : Bytes)
  | close (fd : Int)
  deriving DecidableEq

/-- The return value of a call, and the bytes it delivers. -/
abbrev FsReply := Int × Bytes

/-- Files by name, and the descriptors of every task. -/
structure FileStore where
  files : Bytes → Option Bytes
  slots : Nat → Nat → Option (Bytes × Nat)

namespace FileStore

/-- No files, and no descriptor open. -/
def empty : FileStore := ⟨fun _ => none, fun _ _ => none⟩

/-- The file store with one slot changed. -/
def setSlot (a : FileStore) (t i : Nat) (slot : Option (Bytes × Nat)) : FileStore :=
  { a with slots := Function.update a.slots t (Function.update (a.slots t) i slot) }

/-- The file store with the content of one file changed. -/
def setFile (a : FileStore) (name content : Bytes) : FileStore :=
  { a with files := Function.update a.files name (some content) }

/-- The file store in which a file exists, empty if it did not. -/
def create (a : FileStore) (name : Bytes) : FileStore :=
  if (a.files name).isNone then a.setFile name [] else a

/-- The lowest free slot of a task. -/
def lowestFree (a : FileStore) (t : Nat) : Option Nat :=
  (List.range' 0 maxFdPerTask).find? fun i => (a.slots t i).isNone

/-- The descriptor of a task, if it is open: its slot, the name of its file and its offset. -/
def descriptor (a : FileStore) (t : Nat) (fd : Int) : Option (Nat × Bytes × Nat) :=
  if fd < 0 ∨ (maxFdPerTask : Int) ≤ fd then none
  else (a.slots t fd.toNat).map fun slot => (fd.toNat, slot)

/-- The content of a file. -/
def content (a : FileStore) (name : Bytes) : Bytes := (a.files name).getD []

/-- What a call of task `t` replies, and what it leaves. -/
def call (a : FileStore) (t : Nat) : FsCall → FsReply × FileStore
  | .open name _ =>
      match a.lowestFree t with
      | none => ((-1, []), a)
      | some i => ((i, []), (a.create name).setSlot t i (some (name, 0)))
  | .read fd size =>
      match a.descriptor t fd with
      | none => ((-1, []), a)
      | some (i, name, offset) =>
          let bytes := slice (a.content name) offset size
          ((bytes.length, bytes), a.setSlot t i (some (name, offset + bytes.length)))
  | .write fd buf =>
      match a.descriptor t fd with
      | none => ((-1, []), a)
      | some (i, name, offset) =>
          let content :=
            if buf = [] then a.content name else overwrite 0 (a.content name) offset buf
          ((buf.length, []),
            (a.setFile name content).setSlot t i (some (name, offset + buf.length)))
  | .close fd =>
      match a.descriptor t fd with
      | none => ((-1, []), a)
      | some (i, _) => ((0, []), a.setSlot t i none)

/-- The replies to a sequence of calls. -/
def replies : FileStore → List (Nat × FsCall) → List FsReply
  | _, [] => []
  | a, (t, c) :: calls => (a.call t c).1 :: (a.call t c).2.replies calls

end FileStore

end Kumo
