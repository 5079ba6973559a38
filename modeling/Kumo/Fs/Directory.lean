import Kumo.Fs.Objects

/-!
# The root directory

The files of the root directory as a list of entries, each with its node, its name, its
content and the block that holds the content. `Directory` says that the objects of the heap
are that list. Lookup and creation are specified by it: what `ramfs_lookup` finds is the
entry of that name, and `ramfs_create` puts an entry in front.
-/

namespace Kumo

open Memory

/-- The objects of the heap. -/
abbrev Objects := Nat → Option FsObject

namespace Vfs

variable {s s' : Vfs} {objs objs' : Objects} {p size : Nat} {o : FsObject}

@[simp] theorem mem_setMem (s : Vfs) (m : Memory) : (s.setMem m).mem = m := rfl

@[simp] theorem gRoot_setMem (s : Vfs) (m : Memory) : (s.setMem m).gRoot = s.gRoot := rfl

@[simp] theorem current_setMem (s : Vfs) (m : Memory) : (s.setMem m).current = s.current := rfl

@[simp] theorem refused_setMem (s : Vfs) (m : Memory) : (s.setMem m).refused = s.refused := rfl

/-- What stays the same in every call, whether or not memory was had. -/
structure Same (s s' : Vfs) : Prop where
  gRoot : s'.gRoot = s.gRoot
  current : s'.current = s.current
  refused : s.refused = true → s'.refused = true

theorem Same.refl (s : Vfs) : Same s s := ⟨rfl, rfl, id⟩

theorem Same.trans {s1 s2 s3 : Vfs} (h1 : Same s1 s2) (h2 : Same s2 s3) : Same s1 s3 :=
  ⟨h2.gRoot.trans h1.gRoot, h2.current.trans h1.current, fun h => h2.refused (h1.refused h)⟩

theorem Same.setMem (h : Same s s') (m : Memory) : Same s (s'.setMem m) :=
  ⟨h.gRoot, h.current, h.refused⟩

/-- An object that a call made at `p`, or did not make for lack of memory. -/
structure Made (s : Vfs) (objs : Objects) (o : FsObject) (p : Nat) (s' : Vfs) : Prop where
  same : Same s s'
  refused : s'.refused = (s.refused || p == 0)
  fresh : p ≠ 0 → objs p = none
  unused : p ≠ 0 → s.heap.live p = none
  stores : Stores s'.heap (if p = 0 then objs else Function.update objs p (some o))
  live : s'.heap.live =
    if p = 0 then s.heap.live else Function.update s.heap.live p (some o.size)

/-- `kmalloc` returns, and keeps every object. -/
theorem kmalloc_spec (h : Stores s.heap objs) (hsize : size + 15 < 2 ^ 32) :
    ∃ p s', s.kmalloc size = .ok (p, s') ∧ Same s s' ∧ Stores s'.heap objs ∧
      s'.refused = (s.refused || p == 0) ∧
      s'.heap.live = (if p = 0 then s.heap.live else Function.update s.heap.live p (some size)) ∧
      (∀ a, s.heap.Block a → s'.heap.Block a) ∧
      (p ≠ 0 → objs p = none ∧ s'.heap.live p = some size) := by
  obtain ⟨p, heap, hrun, hstores, halloc, hnew⟩ := h.alloc hsize
  refine ⟨p, { s with heap := heap, refused := s.refused || p == 0 }, ?_, ⟨rfl, rfl, ?_⟩, hstores,
    rfl, halloc.live, halloc.block, hnew⟩
  · rw [kmalloc, hrun]
  · intro hr
    simp [hr]

/-- A block that `kmalloc` returns was not live. -/
theorem kmalloc_unused (h : Stores s.heap objs) (hsize : size + 15 < 2 ^ 32)
    (hrun : s.kmalloc size = .ok (p, s')) (hp : p ≠ 0) : s.heap.live p = none := by
  obtain ⟨q, heap, halloc, hnew⟩ := h.inv.alloc hsize
  rw [kmalloc, halloc] at hrun
  obtain ⟨rfl, _⟩ := Prod.mk.inj (Except.ok.inj hrun)
  exact hnew.fresh hp

/-- Allocating a block and assigning to it makes an object. -/
theorem kmalloc_fill (fill : Memory → Nat → Memory) (h : Stores s.heap objs)
    (hsize : o.size + 15 < 2 ^ 32)
    (hhere : ∀ s' : Vfs, ∀ p, Stores s'.heap objs → p + o.size < 2 ^ 32 →
      FsObject.Here (fill s'.mem p) p o)
    (hout : ∀ m p x, x < p ∨ p + o.size ≤ x → fill m p x = m x) :
    ∃ p s', s.kmalloc o.size = .ok (p, s') ∧
      Made s objs o p (if p = 0 then s' else s'.setMem (fill s'.mem p)) := by
  obtain ⟨p, s', hrun, hsame, hstores, href, hlive, _, hnew⟩ := kmalloc_spec h hsize
  refine ⟨p, s', hrun, ?_⟩
  by_cases hp : p = 0
  · simp only [if_pos hp]
    exact ⟨hsame, href, fun h0 => absurd hp h0, fun h0 => absurd hp h0,
      by simpa only [if_pos hp] using hstores, by simpa only [if_pos hp] using hlive⟩
  · obtain ⟨hfresh, hlivep⟩ := hnew hp
    simp only [if_neg hp]
    rw [if_neg hp] at hlive
    refine ⟨hsame.setMem _, href, fun _ => hfresh, kmalloc_unused h hsize hrun, ?_,
      by rw [if_neg hp]; exact hlive⟩
    rw [if_neg hp]
    have hbound := (hstores.inv.bounds hlivep).2.2
    simp only [userMemStart] at hbound
    exact hstores.write hlivep (hout _ _) (hhere s' p hstores (by omega))

/-- The file system that a call leaves, whether it returns or not. -/
def after {α : Type} : Except Vfs (α × Vfs) → Vfs
  | .ok (_, s) => s
  | .error s => s

/-- `kfree` asks for no memory. -/
theorem refused_kfree (s : Vfs) (ptr : Nat) {α : Type} (f : Vfs → α) :
    (after (s.kfree ptr >>= fun s => pure (f s, s))).refused = s.refused := by
  unfold kfree
  split <;> rfl

/-! ## Reading and assigning -/

theorem field_vfsNode {v : VfsNode} (h : Stores s.heap objs) (hp : objs p = some (.vfsNode v)) :
    s.field p typeOff = v.type ∧ s.field p fsDataOff = v.fsData :=
  have hat : v.At s.mem p := h.here p _ hp
  ⟨hat.type, hat.fsData⟩

theorem field_ramfsNode {n : RamfsNode} (h : Stores s.heap objs)
    (hp : objs p = some (.ramfsNode n)) : n.At s.mem p :=
  h.here p _ hp

/-- Assigning to an object. -/
theorem assign {m : Memory} (o' : FsObject) (h : Stores s.heap objs) (hp : objs p = some o)
    (hsize : o'.size = o.size) (hm : ∀ x, x < p ∨ p + o.size ≤ x → m x = s.mem x)
    (ho : FsObject.Here m p o') : Stores (s.setMem m).heap (Function.update objs p (some o')) := by
  have hlive : s.heap.live p = some (Stored.size o') := by
    rw [h.live p o hp]
    exact congrArg some hsize.symm
  refine h.write hlive (fun x hx => hm x ?_) ho
  rwa [FsObject.stored_size, hsize] at hx

/-- Assigning to a word of a `ramfs_node_t`. -/
theorem assign_ramfsNode {n : RamfsNode} (h : Stores s.heap objs)
    (hp : objs p = some (.ramfsNode n)) (off v : Nat) (hoff : typeOff ≤ off)
    (hin : off + 4 ≤ ramfsNodeSize) (h4 : off % 4 = 0) :
    Stores (s.setMem (s.mem.store32 (p + off) v)).heap
      (Function.update objs p (some (.ramfsNode (n.set off (v % 2 ^ 32))))) := by
  refine assign _ h hp rfl (fun x hx => store32_outside ?_)
    ((field_ramfsNode h hp).store32 off v hoff h4)
  have hsize : (FsObject.ramfsNode n).size = ramfsNodeSize := rfl
  rw [hsize] at hx
  omega

/-- The size that `ramfs_write` puts in a wrapper is not read. -/
theorem assign_vfsNode_size {v : VfsNode} (h : Stores s.heap objs)
    (hp : objs p = some (.vfsNode v)) (size : Nat) :
    Stores (s.setMem (s.mem.store32 (p + sizeOff) size)).heap objs := by
  have hat : v.At s.mem p := h.here p _ hp
  have hstores := assign (.vfsNode v) h hp rfl (m := s.mem.store32 (p + sizeOff) size)
    (fun x hx => store32_outside (by
      have hsize : (FsObject.vfsNode v).size = vfsNodeSize := rfl
      rw [hsize] at hx
      simp only [sizeOff, vfsNodeSize] at *
      omega))
    ⟨by rw [load32_store32_disjoint (by simp only [typeOff, sizeOff]; omega), hat.type],
      by rw [load32_store32_disjoint (by simp only [fsDataOff, sizeOff]; omega), hat.fsData]⟩
  rwa [← hp, Function.update_eq_self] at hstores

/-- Assigning to a word of a descriptor table. -/
theorem assign_task {fds : Nat → Nat} {i ptr : Nat} (h : Stores s.heap objs)
    (hp : objs p = some (.task fds)) (hi : i < maxFdPerTask) (hptr : ptr < 2 ^ 32) :
    Stores (s.setMem (s.mem.store32 (p + fdOff i) ptr)).heap
      (Function.update objs p (some (.task (Function.update fds i ptr)))) := by
  have hat : ∀ j, j < maxFdPerTask → s.mem.load32 (p + fdOff j) = fds j := h.here p _ hp
  refine assign _ h hp rfl (fun x hx => store32_outside ?_) fun j hj => ?_
  · have hsize : (FsObject.task fds).size = taskSize := rfl
    rw [hsize] at hx
    simp only [fdOff, fdTableOff, taskSize, maxFdPerTask] at *
    omega
  · by_cases hji : j = i
    · rw [hji, load32_store32, Function.update_self, Nat.mod_eq_of_lt hptr]
    · rw [load32_store32_disjoint (by simp only [fdOff]; omega), Function.update_of_ne hji,
        hat j hj]

/-- Assigning to the offset of an open file. -/
theorem assign_offset {f : VfsFile} {offset : Nat} (h : Stores s.heap objs)
    (hp : objs p = some (.vfsFile f)) (hoffset : offset < 2 ^ 32) :
    Stores (s.setMem (s.mem.store32 (p + fileOffsetOff) offset)).heap
      (Function.update objs p (some (.vfsFile ⟨f.node, offset⟩))) := by
  have hat : f.At s.mem p := h.here p _ hp
  refine assign _ h hp rfl (fun x hx => store32_outside ?_) ⟨?_, ?_⟩
  · have hsize : (FsObject.vfsFile f).size = vfsFileSize := rfl
    rw [hsize] at hx
    simp only [fileOffsetOff, vfsFileSize] at *
    omega
  · rw [load32_store32_disjoint (by simp only [fileNodeOff, fileOffsetOff]; omega), hat.node]
  · rw [load32_store32, Nat.mod_eq_of_lt hoffset]

/-- `kfree` of an object whose page begins with a block. -/
theorem kfree_spec (h : Stores s.heap objs) (hp : objs p = some o)
    (hpage : s.heap.Block (pageOf (p - headerSize))) :
    ∃ s', s.kfree p = .ok s' ∧ Same s s' ∧ s'.refused = s.refused ∧
      Stores s'.heap (Function.update objs p none) := by
  obtain ⟨heap, hrun, hstores, _⟩ := h.free (by rw [h.live p o hp]; rfl) hpage
  refine ⟨{ s with heap := heap }, ?_, ⟨rfl, rfl, id⟩, rfl, hstores⟩
  rw [kfree, hrun]

/-! ## The pages of the heap -/

theorem kmalloc_grows (h : Stores s.heap objs) (hsize : size + 15 < 2 ^ 32)
    (hrun : s.kmalloc size = .ok (p, s')) : s.heap.Grows s'.heap := by
  unfold kmalloc at hrun
  cases halloc : s.heap.alloc size with
  | none =>
      rw [halloc] at hrun
      cases hrun
  | some r =>
      rw [halloc] at hrun
      obtain ⟨rfl, rfl⟩ := Prod.mk.inj (Except.ok.inj hrun)
      exact h.inv.alloc_grows hsize halloc

theorem kfree_grows (h : Stores s.heap objs) (hp : objs p = some o)
    (hpage : s.heap.Block (pageOf (p - headerSize))) (hrun : s.kfree p = .ok s') :
    s.heap.Grows s'.heap := by
  unfold kfree at hrun
  cases hstep : s.heap.step (.kfree p) with
  | none =>
      rw [hstep] at hrun
      cases hrun
  | some heap =>
      rw [hstep] at hrun
      obtain rfl := Except.ok.inj hrun
      exact h.inv.kfree_grows (by rw [h.live p o hp]; rfl) hpage hstep

/-- Assigning to an object writes in the heap. -/
theorem assign_grows {m : Memory} (h : Stores s.heap objs) (hp : objs p = some o)
    (hm : ∀ x, x < p ∨ p + o.size ≤ x → m x = s.mem x) :
    s.heap.Grows (s.setMem m).heap :=
  h.inv.setMem_grows (h.live p o hp) hm

theorem store32_grows (h : Stores s.heap objs) (hp : objs p = some o) (off v : Nat)
    (hin : off + 4 ≤ o.size) :
    s.heap.Grows (s.setMem (s.mem.store32 (p + off) v)).heap :=
  assign_grows h hp fun _ hx => store32_outside (by omega)

/-! ## Wrappers -/

/-- Allocating a wrapper. -/
theorem newVfsNode_spec (fill : Memory → Nat → Memory) {v : VfsNode} (h : Stores s.heap objs)
    (hhere : ∀ s' : Vfs, ∀ p, Stores s'.heap objs → v.At (fill s'.mem p) p)
    (hout : ∀ m p x, x < p ∨ p + vfsNodeSize ≤ x → fill m p x = m x) :
    ∃ vn s', s.newVfsNode fill = .ok (vn, s') ∧ Made s objs (.vfsNode v) vn s' := by
  obtain ⟨vn, s', hrun, hmade⟩ := kmalloc_fill fill (o := .vfsNode v) h
    (show vfsNodeSize + 15 < 2 ^ 32 by decide) (fun s' p hs _ => hhere s' p hs) hout
  refine ⟨vn, _, ?_, hmade⟩
  have hrun : s.kmalloc vfsNodeSize = .ok (vn, s') := hrun
  rw [newVfsNode, hrun]
  by_cases hvn : vn = 0 <;> simp [bind, Except.bind, pure, Except.pure, hvn]

end Vfs

/-! ## Entries -/

/-- A file of the root directory. -/
structure Entry where
  node : Nat
  name : List (BitVec 8)
  content : List (BitVec 8)
  data : Nat

/-- The `ramfs_node_t` of a file. -/
def Entry.object (e : Entry) (next : Nat) : FsObject :=
  .ramfsNode ⟨e.name, vfsTypeFile, e.content.length, e.data, 0, next⟩

/-- The nodes of the entries are linked through `next`, starting at `head`. -/
def EntryList (objs : Objects) : Nat → List Entry → Prop
  | head, [] => head = 0
  | head, e :: entries => head = e.node ∧ ∃ next, objs e.node = some (e.object next) ∧
      EntryList objs next entries

variable {s s' : Vfs} {objs objs' : Objects} {head gRoot rdir fuel : Nat} {entries : List Entry}
  {e e' : Entry} {name : List (BitVec 8)}

/-- A list depends on its own nodes only. -/
theorem EntryList.congr (h : EntryList objs head entries)
    (hobjs : ∀ e ∈ entries, objs' e.node = objs e.node) : EntryList objs' head entries := by
  induction entries generalizing head with
  | nil => exact h
  | cons e entries ih =>
      obtain ⟨hhead, next, hnode, hrest⟩ := h
      refine ⟨hhead, next, ?_, ih hrest fun e' he' => hobjs e' (List.mem_cons_of_mem _ he')⟩
      rw [hobjs e List.mem_cons_self, hnode]

/-- The node of an entry. -/
theorem EntryList.node (h : EntryList objs head entries) (he : e ∈ entries) :
    ∃ next, objs e.node = some (e.object next) := by
  induction entries generalizing head with
  | nil => cases he
  | cons e' entries ih =>
      obtain ⟨_, next, hnode, hrest⟩ := h
      rcases List.mem_cons.mp he with rfl | he
      · exact ⟨next, hnode⟩
      · exact ih hrest he

/-- What the walk of `ramfs_lookup` finds is the node of the first entry of that name. -/
theorem EntryList.findChild (hl : EntryList objs head entries) (hs : Stores s.heap objs)
    (h0 : (0 : BitVec 8) ∉ name) (hshort : name.length ≤ nameMax) (hfuel : entries.length < fuel) :
    Vfs.findChild s.mem name fuel head =
      some (((entries.find? fun e => e.name = name).map Entry.node).getD 0) := by
  induction entries generalizing head fuel with
  | nil =>
      obtain ⟨fuel, rfl⟩ := Nat.exists_eq_succ_of_ne_zero (by omega : fuel ≠ 0)
      obtain rfl := hl
      rw [Vfs.findChild, if_pos rfl]
      rfl
  | cons e entries ih =>
      obtain ⟨fuel, rfl⟩ := Nat.exists_eq_succ_of_ne_zero (by omega : fuel ≠ 0)
      obtain ⟨rfl, next, hnode, hrest⟩ := hl
      have hat := Vfs.field_ramfsNode hs hnode
      have hsame : sameName s.mem (e.node + nameOff) name 64 = true ↔ e.name = name :=
        hat.name.sameName_iff h0 (by simp only [nameMax] at hshort; omega)
      have hnext : s.mem.load32 (e.node + siblingOff) = next := hat.next
      rw [Vfs.findChild, if_neg (hs.ne_zero hnode), hnext,
        ih hrest (by simpa using hfuel)]
      by_cases hname : e.name = name
      · rw [if_pos (hsame.mpr hname), List.find?_cons_of_pos (by simpa using hname)]
        rfl
      · rw [if_neg (fun h => hname (hsame.mp h)), List.find?_cons_of_neg (by simpa using hname)]

/-- The root directory and the list of its files, whatever their names are. -/
structure RootList (objs : Objects) (gRoot rdir : Nat) (entries : List Entry) : Prop where
  root : objs gRoot = some (.vfsNode ⟨vfsTypeDir, rdir⟩)
  children : ∃ n, objs rdir = some (.ramfsNode n) ∧ n.type = vfsTypeDir ∧
    EntryList objs n.children entries
  nodes : (entries.map Entry.node).Nodup

namespace RootList

theorem node (h : RootList objs gRoot rdir entries) (he : e ∈ entries) :
    ∃ next, objs e.node = some (e.object next) := by
  obtain ⟨n, _, _, hlist⟩ := h.children
  exact hlist.node he

/-- The list depends on the nodes of the file system only. -/
theorem congr (h : RootList objs gRoot rdir entries)
    (hold : ∀ p o, objs p = some o → (∀ fds, o ≠ .task fds) → (∀ f, o ≠ .vfsFile f) →
      objs' p = some o) : RootList objs' gRoot rdir entries := by
  obtain ⟨n, hn, htype, hlist⟩ := h.children
  refine ⟨hold _ _ h.root (by simp) (by simp),
    ⟨n, hold _ _ hn (by simp) (by simp), htype, hlist.congr fun e he => ?_⟩, h.nodes⟩
  obtain ⟨next, hnode⟩ := h.node he
  rw [hold _ _ hnode (by simp [Entry.object]) (by simp [Entry.object]), hnode]

/-- The directory has fewer entries than a walk may take steps. -/
theorem length_lt (h : RootList objs gRoot rdir entries) (hs : Stores s.heap objs) :
    entries.length < walkFuel := by
  have hsub : entries.map Entry.node ⊆ List.range userMemStart := by
    intro p hp
    obtain ⟨e, he, rfl⟩ := List.mem_map.mp hp
    obtain ⟨next, hnode⟩ := h.node he
    obtain ⟨_, _, hb⟩ := hs.bounds hnode
    have hsize : Stored.size (e.object next) = ramfsNodeSize := rfl
    rw [hsize] at hb
    exact List.mem_range.mpr (by simp only [ramfsNodeSize] at hb; omega)
  have hle := (List.subperm_of_subset h.nodes hsub).length_le
  rw [List.length_range, List.length_map] at hle
  simp only [userMemStart, walkFuel] at *
  omega

/-- `ramfs_lookup` of a name that no file has. -/
theorem lookup_none (hd : RootList objs s.gRoot rdir entries)
    (hs : Stores s.heap objs) (h0 : (0 : BitVec 8) ∉ name) (hshort : name.length ≤ nameMax)
    (hfind : (entries.find? fun e => e.name = name) = none) :
    s.ramfsLookup s.gRoot name = .ok (0, s) := by
  obtain ⟨n, hn, _, hlist⟩ := hd.children
  obtain ⟨htype, hfs⟩ := Vfs.field_vfsNode hs hd.root
  have hhead : s.field rdir childrenOff = n.children := (Vfs.field_ramfsNode hs hn).children
  unfold Vfs.ramfsLookup
  rw [if_neg (fun hne => hne htype)]
  simp only [hfs, hhead, hlist.findChild hs h0 hshort (hd.length_lt hs), hfind]
  rfl

/-- `ramfs_lookup` of the name of a file makes a wrapper of its node. -/
theorem lookup_some (hd : RootList objs s.gRoot rdir entries)
    (hs : Stores s.heap objs) (h0 : (0 : BitVec 8) ∉ name) (hshort : name.length ≤ nameMax)
    (hfind : (entries.find? fun e => e.name = name) = some e) :
    ∃ vn s', s.ramfsLookup s.gRoot name = .ok (vn, s') ∧
      Vfs.Made s objs (.vfsNode ⟨vfsTypeFile, e.node⟩) vn s' := by
  obtain ⟨n, hn, _, hlist⟩ := hd.children
  obtain ⟨htype, hfs⟩ := Vfs.field_vfsNode hs hd.root
  have hhead : s.field rdir childrenOff = n.children := (Vfs.field_ramfsNode hs hn).children
  obtain ⟨next, hnode⟩ := hd.node (List.mem_of_find?_eq_some hfind)
  have hne : e.node ≠ 0 := hs.ne_zero hnode
  have hlt : e.node < 2 ^ 32 := by
    have := (hs.bounds hnode).2.2
    simp only [userMemStart] at this
    omega
  obtain ⟨vn, s', hrun, hmade⟩ := Vfs.newVfsNode_spec (v := ⟨vfsTypeFile, e.node⟩)
    (fun m vn => Vfs.fillVfsNode m vn (loadName m (e.node + nameOff) nameMax)
      (m.load32 (e.node + typeOff)) (m.load32 (e.node + sizeOff)) e.node) hs
    (fun s' p hs' => by
      rw [(Vfs.field_ramfsNode hs' hnode).type]
      exact fillVfsNode_at _ (show vfsTypeFile < 2 ^ 32 by decide) hlt)
    (fun m p x hx => fillVfsNode_outside hx)
  refine ⟨vn, s', ?_, hmade⟩
  unfold Vfs.ramfsLookup
  rw [if_neg (fun hne => hne htype)]
  simp only [hfs, hhead, hlist.findChild hs h0 hshort (hd.length_lt hs), hfind, Option.map_some,
    Option.getD_some, if_neg hne]
  exact hrun

end RootList

/-- Where the content of a file lies: nowhere while it is empty. -/
def Entry.DataAt (objs : Objects) (e : Entry) : Prop :=
  (e.content = [] ∧ e.data = 0) ∨ (e.content ≠ [] ∧ objs e.data = some (.data e.content))

/-- The root directory in the heap. -/
structure Directory (objs : Objects) (gRoot rdir : Nat) (entries : List Entry) : Prop where
  root : objs gRoot = some (.vfsNode ⟨vfsTypeDir, rdir⟩)
  children : ∃ n, objs rdir = some (.ramfsNode n) ∧ n.type = vfsTypeDir ∧
    EntryList objs n.children entries
  data : ∀ e ∈ entries, e.DataAt objs
  nodes : (entries.map Entry.node).Nodup
  names : (entries.map Entry.name).Nodup
  owners : ∀ e ∈ entries, ∀ e' ∈ entries, e.data = e'.data → e.data ≠ 0 → e = e'

namespace Directory

/-- Open files, tables and more objects make no difference. -/
theorem congr (h : Directory objs gRoot rdir entries)
    (hsub : ∀ p o, objs p = some o → (∀ f, o ≠ .vfsFile f) → (∀ fds, o ≠ .task fds) →
      objs' p = some o) : Directory objs' gRoot rdir entries := by
  obtain ⟨n, hn, htype, hlist⟩ := h.children
  refine ⟨hsub _ _ h.root (by simp) (by simp), ⟨n, hsub _ _ hn (by simp) (by simp), htype,
    hlist.congr fun e he => ?_⟩, fun e he => ?_, h.nodes, h.names, h.owners⟩
  · obtain ⟨next, hnode⟩ := hlist.node he
    rw [hnode, hsub _ _ hnode (by simp [Entry.object]) (by simp [Entry.object])]
  · exact (h.data e he).imp id fun hd => ⟨hd.1, hsub _ _ hd.2 (by simp) (by simp)⟩

/-- Only the root and the list count for lookups. -/
theorem rootList (h : Directory objs gRoot rdir entries) : RootList objs gRoot rdir entries :=
  ⟨h.root, h.children, h.nodes⟩

theorem node (h : Directory objs gRoot rdir entries) (he : e ∈ entries) :
    ∃ next, objs e.node = some (e.object next) := h.rootList.node he

/-- No file has the node of the directory. -/
theorem node_ne (h : Directory objs gRoot rdir entries) (he : e ∈ entries) : e.node ≠ rdir := by
  obtain ⟨n, hn, htype, hlist⟩ := h.children
  obtain ⟨next, hnode⟩ := hlist.node he
  intro heq
  rw [heq, hn] at hnode
  cases hnode
  exact absurd htype (show vfsTypeFile ≠ vfsTypeDir by decide)

/-- The entry of a name. -/
theorem find_mem (hfind : (entries.find? fun e => e.name = name) = some e) :
    e ∈ entries ∧ e.name = name :=
  ⟨List.mem_of_find?_eq_some hfind, by simpa using List.find?_some hfind⟩

end Directory

/-! ## Creation -/

/-- The directory after a node was put in front of its children. -/
theorem Directory.cons {rn vn : Nat} {n : RamfsNode} (hd : Directory objs gRoot rdir entries)
    (hn : objs rdir = some (.ramfsNode n)) (hrn : objs rn = none)
    (hvn : objs vn = none) (hne : rn ≠ vn) (hname : ∀ e ∈ entries, e.name ≠ name) :
    Directory
      (Function.update (Function.update (Function.update objs rn
        (some (.ramfsNode ⟨name, vfsTypeFile, 0, 0, 0, n.children⟩)))
        rdir (some (.ramfsNode { n with children := rn })))
        vn (some (.vfsNode ⟨vfsTypeFile, rn⟩)))
      gRoot rdir (⟨rn, name, [], 0⟩ :: entries) := by
  obtain ⟨n', hn', htype, hlist⟩ := hd.children
  obtain rfl : n' = n := by
    rw [hn] at hn'
    cases hn'
    rfl
  have hrd : rdir ≠ rn := by
    rintro rfl
    rw [hrn] at hn
    cases hn
  have hvd : rdir ≠ vn := by
    rintro rfl
    rw [hvn] at hn
    cases hn
  set objs' := Function.update (Function.update (Function.update objs rn
    (some (.ramfsNode ⟨name, vfsTypeFile, 0, 0, 0, n'.children⟩)))
    rdir (some (.ramfsNode { n' with children := rn })))
    vn (some (.vfsNode ⟨vfsTypeFile, rn⟩)) with hobjs'
  -- every object but the directory itself is as before
  have hold : ∀ p o, objs p = some o → p ≠ rdir → objs' p = some o := by
    intro p o hp hpd
    have hpv : p ≠ vn := by
      rintro rfl
      rw [hvn] at hp
      cases hp
    have hpn : p ≠ rn := by
      rintro rfl
      rw [hrn] at hp
      cases hp
    rw [hobjs', Function.update_of_ne hpv, Function.update_of_ne hpd, Function.update_of_ne hpn, hp]
  have hnode : objs' rn = some (.ramfsNode ⟨name, vfsTypeFile, 0, 0, 0, n'.children⟩) := by
    rw [hobjs', Function.update_of_ne hne, Function.update_of_ne (Ne.symm hrd),
      Function.update_self]
  have hdir : objs' rdir = some (.ramfsNode { n' with children := rn }) := by
    rw [hobjs', Function.update_of_ne hvd, Function.update_self]
  have hnodes : ∀ e ∈ entries, objs' e.node = objs e.node := by
    intro e he
    obtain ⟨next, hobj⟩ := hlist.node he
    rw [hobj, hold _ _ hobj (hd.node_ne he)]
  constructor
  case root =>
    refine hold _ _ hd.root ?_
    rintro rfl
    rw [hd.root] at hn
    cases hn
  case children =>
    exact ⟨_, hdir, htype, rfl, _, hnode, hlist.congr hnodes⟩
  case data =>
    intro e he
    rcases List.mem_cons.mp he with rfl | he
    · exact .inl ⟨rfl, rfl⟩
    · refine (hd.data e he).imp id fun h => ⟨h.1, hold _ _ h.2 ?_⟩
      rintro rfl
      rw [h.2] at hn
      cases hn
  case nodes =>
    rw [List.map_cons, List.nodup_cons]
    refine ⟨fun hmem => ?_, hd.nodes⟩
    obtain ⟨e, he, heq⟩ := List.mem_map.mp hmem
    obtain ⟨next, hobj⟩ := hlist.node he
    have heq : e.node = rn := heq
    rw [heq, hrn] at hobj
    cases hobj
  case names =>
    rw [List.map_cons, List.nodup_cons]
    refine ⟨fun hmem => ?_, hd.names⟩
    obtain ⟨e, he, heq⟩ := List.mem_map.mp hmem
    exact hname e he heq
  case owners =>
    intro e he e' he' heq hdata
    rcases List.mem_cons.mp he with rfl | he
    · exact absurd rfl hdata
    · rcases List.mem_cons.mp he' with rfl | he'
      · exact absurd heq hdata
      · exact hd.owners e he e' he' heq hdata

/-- `ramfs_create`, when it gets the memory it asks for. -/
theorem Directory.create (hd : Directory objs s.gRoot rdir entries) (hs : Stores s.heap objs)
    (h0 : (0 : BitVec 8) ∉ name) (hname : ∀ e ∈ entries, e.name ≠ name.take nameMax)
    (hg : (Vfs.after (s.ramfsCreate s.gRoot name vfsTypeFile)).refused = false) :
    ∃ rn vn s' objs', s.ramfsCreate s.gRoot name vfsTypeFile = .ok (vn, s') ∧ Vfs.Same s s' ∧
      vn ≠ 0 ∧ Stores s'.heap objs' ∧
      Directory objs' s.gRoot rdir (⟨rn, name.take nameMax, [], 0⟩ :: entries) ∧
      objs' vn = some (.vfsNode ⟨vfsTypeFile, rn⟩) ∧
      ∀ p o, objs p = some o → p ≠ rdir → objs' p = some o := by
  obtain ⟨n, hn, htype, _⟩ := hd.children
  obtain ⟨hdir, hfs⟩ := Vfs.field_vfsNode hs hd.root
  have hfs : s.field s.gRoot fsDataOff = rdir := hfs
  obtain ⟨rn, s1, hrun1, hmade1⟩ := Vfs.kmalloc_fill
    (fun m rn => Vfs.fillRamfsNode m rn name vfsTypeFile rdir)
    (o := .ramfsNode ⟨name.take nameMax, vfsTypeFile, 0, 0, 0, 0⟩) hs
    (show ramfsNodeSize + 15 < 2 ^ 32 by decide)
    (fun s' p _ _ => fillRamfsNode_at _ h0 (by decide)) (fun m p x hx => fillRamfsNode_outside hx)
  have hrun1 : s.kmalloc ramfsNodeSize = .ok (rn, s1) := hrun1
  unfold Vfs.ramfsCreate at hg ⊢
  rw [if_neg (fun hne => hne hdir)] at hg ⊢
  simp only [hfs, hrun1, bind, Except.bind, pure, Except.pure] at hg ⊢
  by_cases hrn : rn = 0
  · have href := hmade1.refused
    rw [if_pos hrn] at hg href
    have hg : s1.refused = false := hg
    rw [hg, hrn] at href
    simp at href
  · simp only [if_neg hrn] at hg hmade1 ⊢
    have hfresh1 := hmade1.fresh hrn
    have hstores1 := hmade1.stores
    rw [if_neg hrn] at hstores1
    set s2 := s1.setMem (Vfs.fillRamfsNode s1.mem rn name vfsTypeFile rdir) with hs2
    have hrd : rdir ≠ rn := by
      rintro rfl
      rw [hfresh1] at hn
      cases hn
    -- the new node is linked in front of the children
    have hhead : s2.field rdir childrenOff = n.children :=
      (Vfs.field_ramfsNode hstores1 (by rw [Function.update_of_ne hrd, hn])).children
    have hlt : n.children < 2 ^ 32 := by
      rw [← hhead]
      exact load32_lt _ _
    have hrnlt : rn < 2 ^ 32 := by
      have := (hstores1.bounds (p := rn) (Function.update_self ..)).2.2
      simp only [userMemStart] at this
      omega
    have hstores2 := Vfs.assign_ramfsNode hstores1 (p := rn) (Function.update_self ..) siblingOff
      n.children (by decide) (by decide) (by decide)
    rw [Function.update_idem, Nat.mod_eq_of_lt hlt] at hstores2
    set s3 := s2.setMem (s2.mem.store32 (rn + siblingOff) n.children) with hs3
    have hstores3 := Vfs.assign_ramfsNode hstores2 (p := rdir) (n := n)
      (by rw [Function.update_of_ne hrd, hn]) childrenOff rn (by decide) (by decide) (by decide)
    rw [Nat.mod_eq_of_lt hrnlt] at hstores3
    set s4 := s3.setMem (s3.mem.store32 (rdir + childrenOff) rn) with hs4
    obtain ⟨vn, s5, hrun5, hmade5⟩ := Vfs.newVfsNode_spec (v := ⟨vfsTypeFile, rn⟩)
      (fun m vn => Vfs.fillVfsNode m vn name vfsTypeFile 0 rn) hstores3
      (fun s' p _ => fillVfsNode_at _ (by decide) hrnlt) (fun m p x hx => fillVfsNode_outside hx)
    rw [hhead] at hg ⊢
    rw [← hs3, ← hs4] at hg ⊢
    rw [hrun5] at hg ⊢
    simp only at hg ⊢
    by_cases hvn : vn = 0
    · -- the wrapper was refused, and giving the node back does not change that
      rw [if_pos hvn] at hg
      have href := hmade5.refused
      rw [hvn] at href
      have hkeep := Vfs.refused_kfree (s5.setMem (s5.mem.store32 (rdir + childrenOff)
        (s5.field rn siblingOff))) rn fun _ => 0
      rw [Vfs.refused_setMem, href] at hkeep
      have htrue := hkeep.symm.trans hg
      simp at htrue
    · rw [if_neg hvn]
      have hfresh5 := hmade5.fresh hvn
      have hstores5 := hmade5.stores
      rw [if_neg hvn] at hstores5
      have hne : rn ≠ vn := by
        rintro rfl
        rw [Function.update_of_ne (Ne.symm hrd), Function.update_self] at hfresh5
        cases hfresh5
      have hvd : rdir ≠ vn := by
        rintro rfl
        rw [Function.update_self] at hfresh5
        cases hfresh5
      rw [Function.update_of_ne (Ne.symm hvd), Function.update_of_ne (Ne.symm hne)] at hfresh5
      refine ⟨rn, vn, s5, _, rfl, ?_, hvn, hstores5,
        hd.cons hn hfresh1 hfresh5 hne hname, Function.update_self .., fun p o hp hpd => ?_⟩
      · exact (((hmade1.same.setMem _).setMem _).trans hmade5.same)
      · have hpv : p ≠ vn := by
          rintro rfl
          rw [hfresh5] at hp
          cases hp
        have hpn : p ≠ rn := by
          rintro rfl
          rw [hfresh1] at hp
          cases hp
        rw [Function.update_of_ne hpv, Function.update_of_ne hpd, Function.update_of_ne hpn, hp]

end Kumo
