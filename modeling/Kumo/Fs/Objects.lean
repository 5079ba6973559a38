import Kumo.Fs.Vfs

/-!
# The structures of the file system

What the file system keeps in its heap blocks, and how it lies there: nodes, wrappers, open
files, file data, and the descriptor tables in the control blocks of tasks. Of each structure
the object has the fields that are read. The assignments of the source are specified by the
object they leave.
-/

namespace Kumo

open Memory

/-! ## Names in memory -/

/-- A C string of at most 63 characters lies at `p`. -/
structure NameAt (m : Memory) (p : Nat) (name : List (BitVec 8)) : Prop where
  chars : bytesAt m p name.length = name
  stop : m (p + name.length) = 0
  noNul : (0 : BitVec 8) ∉ name
  short : name.length ≤ nameMax

variable {m m' : Memory} {p limit : Nat} {name other : List (BitVec 8)}

theorem NameAt.congr (h : NameAt m p name) (hm : ∀ x, p ≤ x → x < p + 64 → m' x = m x) :
    NameAt m' p name := by
  have hshort : name.length ≤ 63 := h.short
  refine ⟨?_, ?_, h.noNul, h.short⟩
  · rw [bytesAt_congr fun x h1 h2 => hm x h1 (by omega)]
    exact h.chars
  · rw [hm _ (by omega) (by omega)]
    exact h.stop

/-- The copied characters, and the terminator after them. -/
theorem copyName_eq (m : Memory) (p limit : Nat) (name : List (BitVec 8)) :
    copyName m p name limit =
      (storeBytes m p (name.take limit)).store8 (p + (name.take limit).length) 0 := by
  induction name generalizing m p limit with
  | nil => cases limit <;> simp [copyName, storeBytes]
  | cons c name ih =>
      cases limit with
      | zero => simp [copyName, storeBytes]
      | succ limit =>
          rw [copyName, ih, List.take_succ_cons, storeBytes, List.length_cons, Nat.add_assoc,
            Nat.add_comm 1]

/-- A copied name is cut at 63 characters. -/
theorem nameAt_copyName (m : Memory) (p : Nat) (h0 : (0 : BitVec 8) ∉ name) :
    NameAt (copyName m p name nameMax) p (name.take nameMax) := by
  rw [copyName_eq]
  refine ⟨?_, ?_, fun h => h0 (List.mem_of_mem_take h), List.length_take_le _ _⟩
  · rw [bytesAt_congr fun x _ h2 => store8_other (by omega)]
    exact bytesAt_storeBytes m p _
  · rw [store8, Function.update_self]

/-- Nothing is written behind the terminator. -/
theorem copyName_beyond {x : Nat} (hx : x < p ∨ p + (name.take limit).length < x) :
    copyName m p name limit x = m x := by
  rw [copyName_eq, store8_other (by omega), storeBytes_outside (by omega)]

theorem copyName_outside {x : Nat} (hx : x < p ∨ p + 64 ≤ x) :
    copyName m p name nameMax x = m x := by
  have hlen : (name.take nameMax).length ≤ 63 := List.length_take_le _ _
  exact copyName_beyond (by omega)

/-- A string that ends within the limit is taken up to its terminator. -/
theorem loadName_eq_bytesAt {k : Nat} (hchars : ∀ j, j < k → m (p + j) ≠ 0)
    (hstop : m (p + k) = 0) (hk : k ≤ limit) : loadName m p limit = bytesAt m p k := by
  induction k generalizing p limit with
  | zero =>
      cases limit with
      | zero => rfl
      | succ limit => rw [loadName, if_pos (by simpa using hstop), bytesAt]
  | succ k ih =>
      obtain ⟨limit, rfl⟩ := Nat.exists_eq_succ_of_ne_zero (by omega : limit ≠ 0)
      have hrest : loadName m (p + 1) limit = bytesAt m (p + 1) k :=
        ih (fun j hj => by rw [Nat.add_assoc, Nat.add_comm 1]; exact hchars (j + 1) (by omega))
          (by rw [Nat.add_assoc, Nat.add_comm 1]; exact hstop) (by omega)
      have hfirst : m p ≠ 0 := hchars 0 (by omega)
      rw [loadName, if_neg hfirst, bytesAt, hrest]

/-- Copying a name out of memory. -/
theorem NameAt.loadName_eq (h : NameAt m p name) (hlimit : name.length ≤ limit) :
    loadName m p limit = name := by
  rw [loadName_eq_bytesAt (fun j hj h0 => h.noNul ?_) h.stop hlimit, h.chars]
  have hmem : m (p + j) ∈ bytesAt m p name.length := by
    rw [← getElem_bytesAt m p (by rw [length_bytesAt]; exact hj)]
    exact List.getElem_mem _
  rw [h0, h.chars] at hmem
  exact hmem

/-- The comparison of `ramfs_lookup` is equality of names. -/
theorem NameAt.sameName_iff (h : NameAt m p name) (h0 : (0 : BitVec 8) ∉ other)
    (hlimit : other.length < limit) : sameName m p other limit = true ↔ name = other := by
  obtain ⟨hchars, hstop, hnul, -⟩ := h
  induction other generalizing p limit name with
  | nil =>
      obtain ⟨limit, rfl⟩ : ∃ k, limit = k + 1 := ⟨limit - 1, by omega⟩
      rw [sameName, decide_eq_true_eq]
      cases name with
      | nil => exact ⟨fun _ => rfl, fun _ => hstop⟩
      | cons c name =>
          obtain ⟨hc, _⟩ := List.cons_eq_cons.mp hchars
          rw [hc]
          exact ⟨fun h => absurd (by simp [h]) hnul, fun h => by cases h⟩
  | cons d other ih =>
      obtain ⟨limit, rfl⟩ : ∃ k, limit = k + 1 := ⟨limit - 1, by omega⟩
      simp only [List.mem_cons, not_or] at h0
      rw [sameName]
      cases name with
      | nil =>
          have hp : m p = 0 := hstop
          rw [hp, if_pos h0.1]
          simp
      | cons c name =>
          obtain ⟨hc, hrest⟩ := List.cons_eq_cons.mp hchars
          simp only [List.length_cons] at hlimit hstop hrest
          simp only [List.mem_cons, not_or] at hnul
          rw [hc]
          by_cases hcd : c = d
          · rw [if_neg (not_not.mpr hcd), ih h0.2 (by omega) hrest
              (by rw [show p + 1 + name.length = p + (name.length + 1) by omega]; exact hstop)
              hnul.2, hcd, List.cons_inj_right]
          · rw [if_pos hcd]
            simp [hcd]

/-! ## Objects -/

/-- A `ramfs_node_t`. -/
structure RamfsNode where
  name : List (BitVec 8)
  type : Nat
  size : Nat
  data : Nat
  children : Nat
  next : Nat

/-- A `vfs_node_t`. -/
structure VfsNode where
  type : Nat
  fsData : Nat

/-- A `vfs_file_t`. -/
structure VfsFile where
  node : Nat
  offset : Nat

/-- What the file system keeps in a heap block. -/
inductive FsObject where
  | ramfsNode (n : RamfsNode)
  | vfsNode (n : VfsNode)
  | vfsFile (f : VfsFile)
  | data (bytes : List (BitVec 8))
  | task (fds : Nat → Nat)

/-- The fields of a `ramfs_node_t` at `p`. -/
structure RamfsNode.At (m : Memory) (p : Nat) (n : RamfsNode) : Prop where
  name : NameAt m (p + nameOff) n.name
  type : m.load32 (p + typeOff) = n.type
  size : m.load32 (p + sizeOff) = n.size
  data : m.load32 (p + dataOff) = n.data
  children : m.load32 (p + childrenOff) = n.children
  next : m.load32 (p + siblingOff) = n.next

/-- The fields of a `vfs_node_t` at `p`. -/
structure VfsNode.At (m : Memory) (p : Nat) (n : VfsNode) : Prop where
  type : m.load32 (p + typeOff) = n.type
  fsData : m.load32 (p + fsDataOff) = n.fsData

/-- The fields of a `vfs_file_t` at `p`. -/
structure VfsFile.At (m : Memory) (p : Nat) (f : VfsFile) : Prop where
  node : m.load32 (p + fileNodeOff) = f.node
  offset : m.load32 (p + fileOffsetOff) = f.offset

namespace FsObject

/-- The bytes of an object. -/
def size : FsObject → Nat
  | ramfsNode _ => ramfsNodeSize
  | vfsNode _ => vfsNodeSize
  | vfsFile _ => vfsFileSize
  | data bytes => bytes.length
  | task _ => taskSize

/-- The object lies at `p`. -/
def Here (m : Memory) (p : Nat) : FsObject → Prop
  | ramfsNode n => n.At m p
  | vfsNode n => n.At m p
  | vfsFile f => f.At m p
  | data bytes => bytesAt m p bytes.length = bytes
  | task fds => ∀ i, i < maxFdPerTask → m.load32 (p + Vfs.fdOff i) = fds i

theorem Here.congr {o : FsObject} (hm : ∀ x, p ≤ x → x < p + o.size → m' x = m x)
    (h : Here m p o) : Here m' p o := by
  have hword : ∀ off, off + 4 ≤ o.size → m'.load32 (p + off) = m.load32 (p + off) :=
    fun off hoff => load32_congr fun x _ _ => hm x (by omega) (by omega)
  cases o with
  | ramfsNode n =>
      obtain ⟨hname, htype, hsize, hdata, hchildren, hnext⟩ := h
      refine ⟨hname.congr fun x h1 h2 => hm x (by omega) ?_, ?_, ?_, ?_, ?_, ?_⟩
      · simp only [nameOff, size, ramfsNodeSize] at *
        omega
      all_goals rw [hword _ (Nat.le_of_ble_eq_true rfl)]; assumption
  | vfsNode n =>
      obtain ⟨htype, hfs⟩ := h
      constructor <;> rw [hword _ (Nat.le_of_ble_eq_true rfl)] <;> assumption
  | vfsFile f =>
      obtain ⟨hnode, hoffset⟩ := h
      constructor <;> rw [hword _ (Nat.le_of_ble_eq_true rfl)] <;> assumption
  | data bytes =>
      have h : bytesAt m p bytes.length = bytes := h
      exact (bytesAt_congr hm).trans h
  | task fds =>
      intro i hi
      rw [hword _ (by simp only [Vfs.fdOff, fdTableOff, size, taskSize, maxFdPerTask] at *; omega)]
      exact h i hi

instance : Stored FsObject where
  size := size
  Here := Here
  congr := Here.congr

@[simp] theorem stored_size (o : FsObject) : Stored.size o = o.size := rfl

@[simp] theorem stored_here (o : FsObject) : Stored.Here m p o = Here m p o := rfl

end FsObject

/-! ## Assignments -/

/-- A node after an assignment to the word at an offset. -/
def RamfsNode.set (n : RamfsNode) (off v : Nat) : RamfsNode where
  name := n.name
  type := if off = typeOff then v else n.type
  size := if off = sizeOff then v else n.size
  data := if off = dataOff then v else n.data
  children := if off = childrenOff then v else n.children
  next := if off = siblingOff then v else n.next

/-- An assignment to a word behind the name. -/
theorem RamfsNode.At.store32 {n : RamfsNode} (h : n.At m p) (off v : Nat)
    (hoff : typeOff ≤ off) (h4 : off % 4 = 0) :
    (n.set off (v % 2 ^ 32)).At (m.store32 (p + off) v) p := by
  have hword : ∀ k, k % 4 = 0 → (m.store32 (p + off) v).load32 (p + k) =
      if off = k then v % 2 ^ 32 else m.load32 (p + k) := by
    intro k hk
    split
    · next heq => rw [heq, load32_store32]
    · next hne => exact load32_store32_disjoint (by omega)
  obtain ⟨hname, htype, hsize, hdata, hchildren, hnext⟩ := h
  constructor
  · refine hname.congr fun x _ h2 => store32_outside ?_
    simp only [nameOff, typeOff] at *
    omega
  · rw [hword _ (by decide), htype]
    rfl
  · rw [hword _ (by decide), hsize]
    rfl
  · rw [hword _ (by decide), hdata]
    rfl
  · rw [hword _ (by decide), hchildren]
    rfl
  · rw [hword _ (by decide), hnext]
    rfl

/-- The assignments to a new `ramfs_node_t`. -/
theorem fillRamfsNode_at (m : Memory) {type parent : Nat} (h0 : (0 : BitVec 8) ∉ name)
    (htype : type < 2 ^ 32) :
    RamfsNode.At (Vfs.fillRamfsNode m p name type parent) p
      ⟨name.take nameMax, type, 0, 0, 0, 0⟩ := by
  have hnode : RamfsNode.At (copyName m (p + nameOff) name nameMax) p
      ⟨name.take nameMax, _, _, _, _, _⟩ := ⟨nameAt_copyName m _ h0, rfl, rfl, rfl, rfl, rfl⟩
  have hset := hnode.store32 typeOff type (by decide) (by decide)
  have hset := hset.store32 sizeOff 0 (by decide) (by decide)
  have hset := hset.store32 dataOff 0 (by decide) (by decide)
  have hset := hset.store32 parentOff parent (by decide) (by decide)
  have hset := hset.store32 childrenOff 0 (by decide) (by decide)
  have hset := hset.store32 siblingOff 0 (by decide) (by decide)
  rw [Nat.mod_eq_of_lt htype] at hset
  exact hset

/-- They stay inside the block. -/
theorem fillRamfsNode_outside {type parent x : Nat} (hx : x < p ∨ p + ramfsNodeSize ≤ x) :
    Vfs.fillRamfsNode m p name type parent x = m x := by
  unfold Vfs.fillRamfsNode
  simp only [nameOff, typeOff, sizeOff, dataOff, parentOff, childrenOff, siblingOff,
    ramfsNodeSize] at *
  rw [store32_outside (by omega), store32_outside (by omega), store32_outside (by omega),
    store32_outside (by omega), store32_outside (by omega), store32_outside (by omega),
    copyName_outside (by omega)]

/-- The assignments to a new `vfs_node_t`. -/
theorem fillVfsNode_at (m : Memory) {type size fsData : Nat} (htype : type < 2 ^ 32)
    (hfs : fsData < 2 ^ 32) :
    VfsNode.At (Vfs.fillVfsNode m p name type size fsData) p ⟨type, fsData⟩ := by
  unfold Vfs.fillVfsNode
  constructor
  · simp only [typeOff, sizeOff, fsDataOff]
    rw [load32_store32_disjoint (by omega), load32_store32_disjoint (by omega), load32_store32,
      Nat.mod_eq_of_lt htype]
  · rw [load32_store32, Nat.mod_eq_of_lt hfs]

theorem fillVfsNode_outside {type size fsData x : Nat} (hx : x < p ∨ p + vfsNodeSize ≤ x) :
    Vfs.fillVfsNode m p name type size fsData x = m x := by
  unfold Vfs.fillVfsNode
  simp only [nameOff, typeOff, sizeOff, fsDataOff, vfsNodeSize] at *
  rw [store32_outside (by omega), store32_outside (by omega), store32_outside (by omega),
    copyName_outside (by omega)]

/-- The assignments of `vfs_open` to a new `vfs_file_t`. -/
theorem fillVfsFile_at (m : Memory) {node flags : Nat} (hnode : node < 2 ^ 32) :
    VfsFile.At (((m.store32 (p + fileNodeOff) node).store32 (p + fileOffsetOff) 0).store32
      (p + fileFlagsOff) flags) p ⟨node, 0⟩ := by
  simp only [fileNodeOff, fileOffsetOff, fileFlagsOff]
  constructor
  · simp only [fileNodeOff]
    rw [load32_store32_disjoint (by omega), load32_store32_disjoint (by omega), load32_store32,
      Nat.mod_eq_of_lt hnode]
  · simp only [fileOffsetOff]
    rw [load32_store32_disjoint (by omega), load32_store32, Nat.zero_mod]

theorem fillVfsFile_outside {node flags x : Nat} (hx : x < p ∨ p + vfsFileSize ≤ x) :
    ((m.store32 (p + fileNodeOff) node).store32 (p + fileOffsetOff) 0).store32
      (p + fileFlagsOff) flags x = m x := by
  simp only [fileNodeOff, fileOffsetOff, fileFlagsOff, vfsFileSize] at *
  rw [store32_outside (by omega), store32_outside (by omega), store32_outside (by omega)]

end Kumo
