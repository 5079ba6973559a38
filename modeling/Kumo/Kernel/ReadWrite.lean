import Kumo.Fs.FileIdentity
import Kumo.Fs.ReadExact
import Kumo.Kernel.FileSyscalls
import Kumo.Sched.KernelMemory

/-!
# What `SYSCALL_READ` and `SYSCALL_WRITE` change

Both calls move bytes through a block of the heap. A write checks the buffer of the user
before it touches the file, so it fails without an effect or writes everything. A read moves
the descriptor first: if the buffer of the user turns out not to be user memory, the call
fails, and the bytes are skipped.
-/

namespace Kumo

open Memory Content Transition

namespace Vfs

/-- The offset of a descriptor and the content of its file. What is no file has no content. -/
def descriptor (s : Vfs) (fd : Int) : Option (Nat × Bytes) :=
  (s.openSlot fd).map fun i =>
    let file := s.field s.current (fdOff i)
    let rn := s.field (s.field file fileNodeOff) fsDataOff
    (s.field file fileOffsetOff,
      if s.field rn typeOff = vfsTypeFile then
        bytesAt s.mem (s.field rn dataOff) (s.field rn sizeOff)
      else [])

/-- What an operation on the heap leaves alone. -/
structure Quiet (s s' : Vfs) : Prop where
  same : Same s s'
  grows : s.heap.Grows s'.heap

theorem Quiet.refl (s : Vfs) : Quiet s s := ⟨.refl s, .refl _⟩

theorem Quiet.trans {s s' s'' : Vfs} (h : Quiet s s') (h' : Quiet s' s'') : Quiet s s'' :=
  ⟨h.same.trans h'.same, h.grows.trans h'.grows⟩

/-- Where a descriptor leads: the block of its task, its open file, the wrapper, and the offset. -/
structure Leads (s : Vfs) (objs : Objects) (tcb : Bytes) (fd : Int) (file node offset : Nat)
    (v : VfsNode) : Prop where
  stores : Stores s.heap objs
  task : objs s.current = some (.data tcb)
  whole : tcb.length = taskSize
  slot : s.openSlot fd = some fd.toNat
  word : s.field s.current (fdOff fd.toNat) = file
  file : objs file = some (.vfsFile ⟨node, offset⟩)
  node : objs node = some (.vfsNode v)

section Leads

variable {s s' : Vfs} {objs objs' : Objects} {tcb : Bytes} {fd : Int} {file node offset : Nat}
  {v : VfsNode} {e : Entry} {p : Nat} {o : FsObject}

/-- Two states that store the same block for the task. -/
structure TaskKept (s s' : Vfs) : Prop where
  current : s'.current = s.current
  bytes : ∀ x, s.current ≤ x → x < s.current + taskSize → s'.mem x = s.mem x

theorem TaskKept.of_stores (hs : Stores s.heap objs) (hs' : Stores s'.heap objs')
    (hcur : s'.current = s.current) (htask : objs s.current = some (.data tcb))
    (htask' : objs' s.current = some (.data tcb)) (hwhole : tcb.length = taskSize) :
    TaskKept s s' := by
  have h1 : bytesAt s.mem s.current tcb.length = tcb := hs.here _ _ htask
  have h2 : bytesAt s'.mem s.current tcb.length = tcb := hs'.here _ _ htask'
  refine ⟨hcur, fun x hx hlt => ?_⟩
  have hget : ∀ m : Memory, bytesAt m s.current tcb.length = tcb →
      m x = tcb.getD (x - s.current) 0 := by
    intro m hm
    have hi : x - s.current < (bytesAt m s.current tcb.length).length := by
      rw [length_bytesAt, hwhole]
      omega
    calc m x = m (s.current + (x - s.current)) := by rw [Nat.add_sub_cancel' hx]
      _ = (bytesAt m s.current tcb.length)[x - s.current] := (getElem_bytesAt m _ hi).symm
      _ = (bytesAt m s.current tcb.length).getD (x - s.current) 0 :=
        (List.getD_eq_getElem _ _ hi).symm
      _ = tcb.getD (x - s.current) 0 := by rw [hm]
  rw [hget _ h1, hget _ h2]

theorem TaskKept.field (h : TaskKept s s') (off : Nat) (hoff : off + 4 ≤ taskSize) :
    s'.field s'.current off = s.field s.current off := by
  rw [h.current]
  exact load32_congr fun x h1 h2 => h.bytes x (by omega) (by omega)

/-- The check of a descriptor looks at the block of the task only. -/
theorem TaskKept.openSlot (h : TaskKept s s') (fd : Int) : s'.openSlot fd = s.openSlot fd := by
  unfold Vfs.openSlot
  rw [h.current]
  by_cases hfd : s.current = 0 ∨ fd < 0 ∨ (maxFdPerTask : Int) ≤ fd
  · rw [if_pos hfd, if_pos hfd]
  · have hfield := h.field (fdOff fd.toNat) (by
      simp only [fdOff, fdTableOff, taskSize, maxFdPerTask] at *
      omega)
    rw [h.current] at hfield
    rw [if_neg hfd, if_neg hfd, hfield]

/-- A descriptor leads to where it led as long as its blocks are kept. -/
theorem Leads.next {offset' : Nat} (h : Leads s objs tcb fd file node offset v)
    (hs' : Stores s'.heap objs') (hcur : s'.current = s.current)
    (htask : objs' s.current = some (.data tcb))
    (hfile : objs' file = some (.vfsFile ⟨node, offset'⟩))
    (hnode : objs' node = some (.vfsNode v)) : Leads s' objs' tcb fd file node offset' v := by
  have hkept := TaskKept.of_stores h.stores hs' hcur h.task htask h.whole
  have hi : fd.toNat < maxFdPerTask := by
    have hslot := h.slot
    unfold Vfs.openSlot at hslot
    split at hslot
    · cases hslot
    · next hfd => omega
  refine ⟨hs', by rw [hcur]; exact htask, h.whole, (hkept.openSlot fd).trans h.slot, ?_, hfile,
    hnode⟩
  rw [hkept.field _ (by
    simp only [fdOff, fdTableOff, taskSize, maxFdPerTask] at *
    omega), h.word]

/-- A descriptor of a file. -/
theorem Leads.descriptor (h : Leads s objs tcb fd file node offset v) (he : e.At objs)
    (hfs : v.fsData = e.node) : s.descriptor fd = some (offset, e.content) := by
  have hat : VfsFile.At s.mem file ⟨node, offset⟩ := h.stores.here _ _ h.file
  obtain ⟨hrn, htype, hsize, hdata⟩ := he.fields h.stores h.node hfs
  have hheld := (he.fileNode h.stores h.node hfs).held
  unfold Vfs.descriptor
  rw [h.slot, Option.map_some, h.word]
  simp only [show s.field file fileNodeOff = node from hat.node,
    show s.field file fileOffsetOff = offset from hat.offset, hrn, htype, hsize, hdata, if_true,
    hheld]

/-- A descriptor of something else. -/
theorem Leads.descriptor_other {n : RamfsNode} (h : Leads s objs tcb fd file node offset v)
    (hn : objs v.fsData = some (.ramfsNode n)) (htype : n.type ≠ vfsTypeFile) :
    s.descriptor fd = some (offset, []) := by
  have hat : VfsFile.At s.mem file ⟨node, offset⟩ := h.stores.here _ _ h.file
  have hfs := (field_vfsNode h.stores h.node).2
  have htypeF : s.field v.fsData typeOff = n.type := (field_ramfsNode h.stores hn).type
  unfold Vfs.descriptor
  rw [h.slot, Option.map_some, h.word]
  simp only [show s.field file fileNodeOff = node from hat.node,
    show s.field file fileOffsetOff = offset from hat.offset, hfs, htypeF, if_neg htype]

/-! ## A buffer of the kernel -/

/-- A block that is live but stores no object yet. -/
structure Buffer (s : Vfs) (objs : Objects) (kbuf size : Nat) : Prop where
  stores : Stores s.heap objs
  live : s.heap.live kbuf = some size
  fresh : objs kbuf = none

/-- Filling the buffer. -/
theorem Buffer.fill {kbuf size : Nat} (h : Buffer s objs kbuf size) (bytes : Bytes)
    (hle : bytes.length ≤ size) :
    Buffer (s.setMem (storeBytes s.mem kbuf bytes)) objs kbuf size ∧
      Quiet s (s.setMem (storeBytes s.mem kbuf bytes)) := by
  have hout : ∀ x, x < kbuf ∨ kbuf + size ≤ x → storeBytes s.mem kbuf bytes x = s.mem x :=
    fun x hx => storeBytes_outside (by omega)
  refine ⟨⟨⟨(h.stores.inv.setMem h.live hout).1, h.stores.live, fun q o hq => ?_⟩, h.live, h.fresh⟩,
    ⟨(Same.refl s).setMem _, h.stores.inv.setMem_grows h.live hout⟩⟩
  have hne : q ≠ kbuf := by
    rintro rfl
    rw [h.fresh] at hq
    cases hq
  have hdis := h.stores.inv.safe.disjoint q _ kbuf _ (h.stores.live q o hq) h.live hne
  exact Stored.congr (fun x h1 h2 => hout x (by omega)) (h.stores.here q o hq)

/-- Giving the buffer back. -/
theorem Buffer.free {kbuf size : Nat} (h : Buffer s objs kbuf size)
    (hfree : s.heap.Block (pageOf (kbuf - headerSize))) :
    ∃ s', s.kfree kbuf = .ok s' ∧ Stores s'.heap objs ∧ Quiet s s' := by
  have hlive : (s.heap.live kbuf).isSome := by
    rw [h.live]
    rfl
  obtain ⟨heap, hrun, hstores, _⟩ := h.stores.free hlive hfree
  rw [← h.fresh, Function.update_eq_self] at hstores
  exact ⟨{ s with heap := heap }, by rw [kfree, hrun], hstores, ⟨rfl, rfl, id⟩,
    h.stores.inv.kfree_grows hlive hfree hrun⟩

/-- The bytes of the buffer as an object. -/
theorem Buffer.hold {kbuf size : Nat} (h : Buffer s objs kbuf size) :
    Stores s.heap (Function.update objs kbuf (some (.data (bytesAt s.mem kbuf size)))) := by
  have hlen : Stored.size (FsObject.data (bytesAt s.mem kbuf size)) = size := length_bytesAt _ _ _
  have hlive : s.heap.live kbuf = some (Stored.size (FsObject.data (bytesAt s.mem kbuf size))) := by
    rw [hlen]
    exact h.live
  exact h.stores.write hlive (fun _ _ => rfl)
    (show bytesAt s.mem kbuf (bytesAt s.mem kbuf size).length = _ by rw [length_bytesAt])

/-- An object of that kind as a buffer. -/
theorem Buffer.of_data {kbuf : Nat} {held : Bytes} (hs : Stores s.heap objs)
    (h : objs kbuf = some (.data held)) :
    Buffer s (Function.update objs kbuf none) kbuf held.length := by
  refine ⟨hs.mono fun p o hp => ?_, hs.live _ _ h, Function.update_self ..⟩
  by_cases hpk : p = kbuf
  · rw [hpk, Function.update_self] at hp
    cases hp
  · rwa [Function.update_of_ne hpk] at hp

/-- The heap leaves user memory alone. -/
theorem Quiet.user (h : Quiet s s') (hs' : Stores s'.heap objs') {x : Nat}
    (hx : userMemStart ≤ x) : s'.mem x = s.mem x :=
  h.grows.heap.outside x fun hin => by
    have := hs'.inv.inHeap_lt hin
    omega

end Leads

end Vfs

namespace SyscallState

/-- The page tables and the block of the current task are as before, and a block that begins a page
leaves a block there. -/
structure Carries (k k' : SyscallState) : Prop where
  pdPhys : k'.pdPhys = k.pdPhys
  reserved : ∀ q, k.vfs.heap.heap.reserved.has q → k'.vfs.heap.heap.reserved.has q
  tables : k.vfs.heap.heap.reserved.Same k.mem k'.mem
  task : Vfs.TaskKept k.vfs k'.vfs
  starts : ∀ a, a % pageSize = 0 → k.vfs.heap.Block a → k'.vfs.heap.Block a

/-- An open file leads through a wrapper to a file, and not beyond its end, or to a directory. -/
def OpenAt (objs : Objects) (file : Nat) : Prop :=
  ∃ node offset v, objs file = some (.vfsFile ⟨node, offset⟩) ∧ objs node = some (.vfsNode v) ∧
    ((∃ e : Entry, e.At objs ∧ v.fsData = e.node ∧ offset ≤ e.content.length) ∨
      ∃ n, objs v.fsData = some (.ramfsNode n) ∧ n.type ≠ vfsTypeFile)

/-- The descriptors of the current task are in order, and its user pages are mapped through tables
that the heap cannot get. -/
structure Serves (k : SyscallState) (objs : Objects) (fds : Nat → Nat) : Prop where
  stores : Stores k.vfs.heap objs
  task : objs k.vfs.current = some (.task fds)
  slot : ∀ i, i < maxFdPerTask → fds i ≠ 0 → OpenAt objs (fds i)
  dir : UserDirIn k.vfs.heap.heap.reserved k.mem k.pd

/-- The call changed nothing that the user can see. -/
structure Unchanged (k k' : SyscallState) (fd : Int) : Prop where
  descriptor : k'.vfs.descriptor fd = k.vfs.descriptor fd
  user : ∀ x, userMemStart ≤ x → k'.mem x = k.mem x

/-- The next `n` bytes of the file are in the buffer of the user, and the offset moved past them. -/
structure ReadDone (k k' : SyscallState) (fd : Int) (buf n : Nat) : Prop where
  descriptor : k'.vfs.descriptor fd = (k.vfs.descriptor fd).map fun d => (d.1 + n, d.2)
  bytes : ∀ i, i < n → ∃ d byte, k.vfs.descriptor fd = some d ∧ d.2[d.1 + i]? = some byte ∧
    k'.userByte (buf + i) = some byte
  rest : ∀ x, userMemStart ≤ x → x < buf ∨ buf + n ≤ x → k'.mem x = k.mem x

/-- The `n` bytes in the buffer of the user are in the file at the old offset, and the offset moved
past them. -/
structure WriteDone (k k' : SyscallState) (fd : Int) (buf n : Nat) : Prop where
  descriptor : ∃ bytes : Bytes, bytes.length = n ∧
    (∀ i, i < n → k.userByte (buf + i) = bytes[i]?) ∧
    k'.vfs.descriptor fd =
      (k.vfs.descriptor fd).map fun d => (d.1 + n, if n = 0 then d.2 else overwrite 0 d.2 d.1 bytes)
  opened : 0 < n → (k.vfs.descriptor fd).isSome
  user : ∀ x, userMemStart ≤ x → k'.mem x = k.mem x

/-- `SYSCALL_READ` is all or nothing. -/
def ReadAtomic (k : SyscallState) (fd : Int) (buf size : Nat) : Prop :=
  ∃ ret k', k.read fd buf size = some (ret, k') ∧ (ret = UserCopy.failure → k.Unchanged k' fd) ∧
    (ret ≠ UserCopy.failure → k.ReadDone k' fd buf ret)

/-- `SYSCALL_WRITE` is all or nothing. -/
def WriteAtomic (k : SyscallState) (fd : Int) (buf size : Nat) : Prop :=
  ∃ ret k', k.write fd buf size = some (ret, k') ∧ (ret = UserCopy.failure → k.Unchanged k' fd) ∧
    (ret ≠ UserCopy.failure → k.WriteDone k' fd buf ret)

/-- The page of the buffer that a call gets begins with a block, so the buffer can be freed. -/
def GivesBack (k : SyscallState) (size : Nat) : Prop :=
  ∀ kbuf vfs, k.vfs.kmalloc size = .ok (kbuf, vfs) → kbuf ≠ 0 →
    vfs.heap.Block (pageOf (kbuf - headerSize))

section Calls

variable {k k' k'' : SyscallState} {objs : Objects} {tcb : Bytes} {fd : Int}
  {file node offset size : Nat} {v : VfsNode} {e : Entry} {m : Memory}

theorem Carries.trans (h : Carries k k') (h' : Carries k' k'') : Carries k k'' :=
  ⟨h'.pdPhys.trans h.pdPhys, fun q hq => h'.reserved q (h.reserved q hq),
    fun q x hq h1 h2 => (h'.tables q x (h.reserved q hq) h1 h2).trans (h.tables q x hq h1 h2),
    ⟨h'.task.current.trans h.task.current, fun x h1 h2 =>
      (h'.task.bytes x (by rw [h.task.current]; exact h1) (by rw [h.task.current]; exact h2)).trans
        (h.task.bytes x h1 h2)⟩, fun a ha hblock => h'.starts a ha (h.starts a ha hblock)⟩

theorem Carries.of_quiet {vfs : Vfs} (hq : Vfs.Quiet k.vfs vfs) (ht : Vfs.TaskKept k.vfs vfs) :
    Carries k { k with vfs := vfs } :=
  ⟨rfl, hq.grows.heap.reserved.1, hq.grows.heap.reserved.2, ht, hq.grows.starts⟩

/-- The walk through the directory of the task finds the same pages. -/
theorem Carries.dir (h : Carries k k') (hd : UserDirIn k.vfs.heap.heap.reserved k.mem k.pd) :
    UserDirIn k'.vfs.heap.heap.reserved k'.mem k'.pd ∧
      ∀ x, x < 2 ^ 32 → (UserPage k'.mem k'.pd x ↔ UserPage k.mem k.pd x) := by
  have hcr3 : k'.cr3 = k.cr3 := by
    have hfield := h.task.field cr3Off (by decide)
    rw [h.task.current] at hfield
    unfold cr3
    rw [h.task.current, hfield]
  have hpd : k'.pd = k.pd := by
    rw [pd, pd, hcr3, Paging.currentPd, Paging.currentPd]
    exact if_congr Iff.rfl rfl h.pdPhys
  obtain ⟨hd', hview⟩ := hd.transfer h.reserved h.tables
  rw [hpd]
  exact ⟨hd', fun x hx => by unfold UserPage; rw [hview x hx]⟩

/-- So writes to user memory do not touch it. -/
theorem userDir (hd : UserDirIn k.vfs.heap.heap.reserved k.mem k.pd) : UserDir k.mem k.pd :=
  hd.userDir fun _ hq => hq.1.upper

theorem Carries.range (h : Carries k k') (hd : UserDirIn k.vfs.heap.heap.reserved k.mem k.pd)
    (start n : Nat) : UserRange k'.mem k'.pd start n ↔ UserRange k.mem k.pd start n := by
  have hpage := (h.dir hd).2
  unfold UserRange
  constructor
  · rintro ⟨hend, hall⟩
    exact ⟨hend, fun x h1 h2 => (hpage x (by omega)).mp (hall x h1 h2)⟩
  · rintro ⟨hend, hall⟩
    exact ⟨hend, fun x h1 h2 => (hpage x (by omega)).mpr (hall x h1 h2)⟩

/-- A byte of user memory, where it lies. -/
theorem userByte_eq (hd : UserDir k.mem k.pd) {x : Nat} (hx : x < 2 ^ 32)
    (hu : UserPage k.mem k.pd x) : k.userByte x = some (k.mem x) := by
  have hsplit : frameOf x + x % pageSize = x := Nat.div_add_mod' _ pageSize
  rw [userByte, translate_eq_view, hd.identity x hx hu, Option.map_some, Option.map_some, hsplit]

/-- Writing to user memory. -/
theorem Carries.setMem (hs : Stores k.vfs.heap objs) (htask : objs k.vfs.current = some (.data tcb))
    (hwhole : tcb.length = taskSize) (hm : ∀ x, x < userMemStart → m x = k.mem x) :
    Stores (k.setMem m).vfs.heap objs ∧ Carries k (k.setMem m) := by
  have hheap : ∀ x, k.vfs.heap.heap.InHeap x → m x = k.mem x := fun x hx =>
    hm x (hs.inv.inHeap_lt hx)
  refine ⟨hs.setMem_outside hheap, ⟨rfl, fun _ hq => hq, fun q x hq h1 h2 => hm x ?_,
    ⟨rfl, fun x h1 h2 => hm x ?_⟩, fun a _ => ((hs.inv.setMem_outside hheap).2 a).mpr⟩⟩
  · have hupper := hq.1.upper
    omega
  · have hzone := (hs.bounds htask).2.2
    have hsize : Stored.size (FsObject.data tcb) = taskSize := hwhole
    omega

/-- A state in which a descriptor leads to a file, or to a directory. -/
structure Opened (k : SyscallState) (objs : Objects) (tcb : Bytes) (fd : Int)
    (file node offset : Nat) (v : VfsNode) : Prop extends
    Vfs.Leads k.vfs objs tcb fd file node offset v where
  target : (∃ e : Entry, e.At objs ∧ v.fsData = e.node ∧ offset ≤ e.content.length ∧
      e.data ≠ k.vfs.current) ∨
    ∃ n, objs v.fsData = some (.ramfsNode n) ∧ n.type ≠ vfsTypeFile

/-- The block of the task as bytes that no call on an open file touches. -/
theorem Serves.block {fds : Nat → Nat} (h : k.Serves objs fds) (fd : Int) :
    ∃ objs' tcb, Stores k.vfs.heap objs' ∧ objs' k.vfs.current = some (.data tcb) ∧
      tcb.length = taskSize ∧
      (k.vfs.openSlot fd = none ∨
        ∃ file node offset v, k.Opened objs' tcb fd file node offset v) := by
  set tcb := bytesAt k.mem k.vfs.current taskSize with htcb
  have hwhole : tcb.length = taskSize := length_bytesAt _ _ _
  have hlive : k.vfs.heap.live k.vfs.current = some (Stored.size (FsObject.data tcb)) := by
    rw [h.stores.live _ _ h.task]
    exact congrArg some hwhole.symm
  have hstores := h.stores.write hlive (fun _ _ => rfl)
    (show bytesAt k.mem k.vfs.current tcb.length = tcb by rw [hwhole])
  set objs' := Function.update objs k.vfs.current (some (FsObject.data tcb)) with hobjs'
  have hstores : Stores k.vfs.heap objs' := hstores
  have hself : objs' k.vfs.current = some (.data tcb) := Function.update_self ..
  have hother : ∀ p o, objs p = some o → (∀ fds, o ≠ .task fds) → objs' p = some o := by
    intro p o hp ho
    have hne : p ≠ k.vfs.current := by
      rintro rfl
      rw [h.task] at hp
      exact ho fds (Option.some.inj hp).symm
    rw [hobjs', Function.update_of_ne hne, hp]
  refine ⟨objs', tcb, hstores, hself, hwhole, ?_⟩
  cases hslot : k.vfs.openSlot fd with
  | none => exact .inl rfl
  | some i =>
      right
      have hi : i = fd.toNat ∧ i < maxFdPerTask ∧ k.vfs.field k.vfs.current (Vfs.fdOff i) ≠ 0 := by
        unfold Vfs.openSlot at hslot
        split at hslot
        · cases hslot
        · next hfd =>
            split at hslot
            · cases hslot
            · next hne =>
                obtain rfl := Option.some.inj hslot
                exact ⟨rfl, by omega, hne⟩
      obtain ⟨rfl, hlt, hne⟩ := hi
      have hword : k.vfs.field k.vfs.current (Vfs.fdOff fd.toNat) = fds fd.toNat :=
        h.stores.here _ _ h.task _ hlt
      rw [hword] at hne
      obtain ⟨node, offset, v, hfile, hnode, htarget⟩ := h.slot _ hlt hne
      refine ⟨fds fd.toNat, node, offset, v, ⟨hstores, hself, hwhole, hslot, hword,
        hother _ _ hfile (by simp), hother _ _ hnode (by simp)⟩, ?_⟩
      rcases htarget with ⟨e, he, hfs, hle⟩ | ⟨n, hn, htype⟩
      · obtain ⟨next, hobj⟩ := he.node
        refine .inl ⟨e, ⟨⟨next, hother _ _ hobj (by simp [Entry.object])⟩, ?_⟩, hfs, hle, ?_⟩
        · exact he.data.imp id fun hd => ⟨hd.1, hother _ _ hd.2 (by simp)⟩
        · exact (he.ne_data h.stores.zero h.task (by simp)).symm
      · exact .inr ⟨n, hother _ _ hn (by simp), htype⟩

/-- `kmalloc` of the buffer, and `kfree` of it at the end. -/
theorem withBuffer_spec (hs : Stores k.vfs.heap objs) (h32 : size + 15 < 2 ^ 32)
    (hback : k.GivesBack size) (work : SyscallState → Nat → Option (Nat × SyscallState)) :
    (∃ vfs, k.vfs.kmalloc size = .ok (0, vfs) ∧
      k.withBuffer size work = some (UserCopy.failure, { k with vfs := vfs }) ∧
      Stores vfs.heap objs ∧ Vfs.Quiet k.vfs vfs) ∨
    ∃ kbuf vfs, k.vfs.kmalloc size = .ok (kbuf, vfs) ∧ kbuf ≠ 0 ∧
      Vfs.Buffer vfs objs kbuf size ∧ Vfs.Quiet k.vfs vfs ∧
      (∀ a, k.vfs.heap.Block a → vfs.heap.Block a) ∧
      ∀ ret k' objs', work { k with vfs := vfs } kbuf = some (ret, k') →
        Vfs.Buffer k'.vfs objs' kbuf size →
        (∀ a, a % pageSize = 0 → vfs.heap.Block a → k'.vfs.heap.Block a) →
        ∃ vfs', k.withBuffer size work = some (ret, { k' with vfs := vfs' }) ∧
          Stores vfs'.heap objs' ∧ Vfs.Quiet k'.vfs vfs' := by
  obtain ⟨kbuf, vfs, hrun, hsame, hstores, _, _, hblock, hnew⟩ := Vfs.kmalloc_spec hs h32
  have hquiet : Vfs.Quiet k.vfs vfs := ⟨hsame, Vfs.kmalloc_grows hs h32 hrun⟩
  by_cases h0 : kbuf = 0
  · subst h0
    refine .inl ⟨vfs, hrun, ?_, hstores, hquiet⟩
    rw [withBuffer, hrun]
    exact if_pos rfl
  · obtain ⟨hfresh, hlive⟩ := hnew h0
    refine .inr ⟨kbuf, vfs, hrun, h0, ⟨hstores, hlive, hfresh⟩, hquiet, hblock,
      fun ret k' objs' hwork hbuffer hstarts => ?_⟩
    obtain ⟨vfs', hkfree, hstores', hquiet'⟩ := hbuffer.free
      (hstarts _ (Nat.mul_mod_left _ _) (hback _ _ hrun h0))
    refine ⟨vfs', ?_, hstores', hquiet'⟩
    rw [withBuffer, hrun]
    simp only [if_neg h0, hwork, Option.bind_some, hkfree]

/-! ## Reading -/

/-- A descriptor leads to where it led as long as its objects are kept. -/
theorem Opened.next {vfs : Vfs} (h : k.Opened objs tcb fd file node offset v)
    (hs : Stores vfs.heap objs) (hcur : vfs.current = k.vfs.current) :
    Opened { k with vfs := vfs } objs tcb fd file node offset v :=
  ⟨h.toLeads.next hs hcur h.task h.file h.node, by rw [hcur]; exact h.target⟩

/-- So it is the same. -/
theorem Opened.descriptor_kept {vfs : Vfs} (h : k.Opened objs tcb fd file node offset v)
    (hs : Stores vfs.heap objs) (hcur : vfs.current = k.vfs.current) :
    vfs.descriptor fd = k.vfs.descriptor fd := by
  have hnext := (h.next hs hcur).toLeads
  rcases h.target with ⟨e, he, hfs, _⟩ | ⟨n, hn, htype⟩
  · rw [hnext.descriptor he hfs, h.descriptor he hfs]
  · rw [hnext.descriptor_other hn htype, h.descriptor_other hn htype]

/-- While what is stored is kept, so is what a descriptor shows. -/
theorem descriptor_kept {vfs : Vfs} (hs : Stores k.vfs.heap objs)
    (htask : objs k.vfs.current = some (.data tcb)) (hwhole : tcb.length = taskSize)
    (hopen : k.vfs.openSlot fd = none ∨
      ∃ file node offset v, k.Opened objs tcb fd file node offset v)
    (hs' : Stores vfs.heap objs) (hcur : vfs.current = k.vfs.current) :
    vfs.descriptor fd = k.vfs.descriptor fd := by
  rcases hopen with hnone | ⟨file, node, offset, v, ho⟩
  · have ht := Vfs.TaskKept.of_stores hs hs' hcur htask htask hwhole
    rw [Vfs.descriptor, Vfs.descriptor, ht.openSlot fd, hnone]
    rfl
  · exact ho.descriptor_kept hs' hcur

/-- `vfs_read` of what is no file fails. -/
theorem Opened.vfsRead_other {n : RamfsNode} (h : k.Opened objs tcb fd file node offset v)
    (hn : objs v.fsData = some (.ramfsNode n)) (htype : n.type ≠ vfsTypeFile) (size : Nat) :
    k.vfs.vfsRead fd size = ((-1, []), k.vfs) := by
  have hat : VfsFile.At k.vfs.mem file ⟨node, offset⟩ := h.stores.here _ _ h.file
  have hfs := (Vfs.field_vfsNode h.stores h.node).2
  have htypeF : k.vfs.field v.fsData typeOff = n.type := (Vfs.field_ramfsNode h.stores hn).type
  unfold Vfs.vfsRead Vfs.ramfsRead
  simp only [h.slot, h.word, show k.vfs.field file fileNodeOff = node from hat.node, hfs, htypeF,
    if_pos htype]
  rfl

/-- `vfs_read` of a file delivers a slice of its content. -/
theorem Opened.vfsRead_file (h : k.Opened objs tcb fd file node offset v) (he : e.At objs)
    (hfs : v.fsData = e.node) (h32 : offset + size < 2 ^ 32) :
    k.vfs.vfsRead fd size =
      ((((slice e.content offset size).length : Int), slice e.content offset size),
        k.vfs.advance file (slice e.content offset size).length) := by
  have hat : VfsFile.At k.vfs.mem file ⟨node, offset⟩ := h.stores.here _ _ h.file
  unfold Vfs.vfsRead
  simp only [h.slot, h.word, show k.vfs.field file fileNodeOff = node from hat.node,
    show k.vfs.field file fileOffsetOff = offset from hat.offset, he.read h.stores h.node hfs h32]

/-- A read that delivers nothing copies nothing. -/
theorem readWork_nothing {n : Int} {buf kbuf : Nat} (hn : n ≤ 0)
    (hread : k.vfs.vfsRead fd size = ((n, []), k.vfs)) :
    readWork fd buf size k kbuf = some (word n, k) := by
  unfold readWork
  rw [hread]
  exact if_neg (by omega)

/-- What is left of the file, if it is not at its end. -/
def Remaining (k : SyscallState) (fd : Int) (size n : Nat) : Prop :=
  ∃ offset content, k.vfs.descriptor fd = some (offset, content) ∧ offset < content.length ∧
    n = min size (content.length - offset)

/-- The read gets its buffer, and finds bytes to deliver, but the buffer of the user is not user
memory. -/
def FailsLate (k : SyscallState) (fd : Int) (buf size : Nat) : Prop :=
  size ≠ 0 ∧ (∀ vfs, k.vfs.kmalloc size ≠ .ok (0, vfs)) ∧
    ∃ n, k.Remaining fd size n ∧ ¬ UserRange k.mem k.pd buf n

/-- A read that finds `n` bytes moves the descriptor, and then copies them if it may. -/
theorem readWork_something {kbuf n buf : Nat} (h : k.Opened objs tcb fd file node offset v)
    (hd : UserDirIn k.vfs.heap.heap.reserved k.mem k.pd)
    (hb : Vfs.Buffer k.vfs objs kbuf size) (he : e.At objs) (hfs : v.fsData = e.node)
    (hbuf : buf < 2 ^ 32) (hpos : 0 < n) (hn : (slice e.content offset size).length = n) :
    ∃ k' objs', Vfs.Buffer k'.vfs objs' kbuf size ∧ e.At objs' ∧ Carries k k' ∧
      Vfs.Leads k'.vfs objs' tcb fd file node (offset + n) v ∧
      ((UserRange k.mem k.pd buf n ∧ readWork fd buf size k kbuf = some (n, k') ∧
          (∀ i, i < n → k'.mem (buf + i) = (slice e.content offset size).getD i 0) ∧
          ∀ x, userMemStart ≤ x → x < buf ∨ buf + n ≤ x → k'.mem x = k.mem x) ∨
        (¬ UserRange k.mem k.pd buf n ∧
          readWork fd buf size k kbuf = some (UserCopy.failure, k'))) := by
  have hzone := (hb.stores.inv.bounds hb.live).2.2
  have hlen := hn
  rw [length_slice] at hlen
  have hle := he.content_le h.stores
  simp only [userMemStart] at hzone hle
  have hread := h.vfsRead_file he hfs (show offset + size < 2 ^ 32 by omega)
  rw [hn] at hread
  -- the offset moves
  have hat : VfsFile.At k.vfs.mem file ⟨node, offset⟩ := h.stores.here _ _ h.file
  have hoffset : k.vfs.mem.load32 (file + fileOffsetOff) = offset := hat.offset
  set m2 := k.vfs.mem.store32 (file + fileOffsetOff) (offset + n) with hm2
  have hadvance : k.vfs.advance file n = k.vfs.setMem m2 := by
    rw [Vfs.advance, if_pos (by omega), Vfs.field, hoffset, Int.toNat_natCast]
  have hstores2 := Vfs.assign_offset h.stores h.file (show offset + n < 2 ^ 32 by omega)
  have hgrows2 := Vfs.store32_grows h.stores h.file fileOffsetOff (offset + n)
    (show fileOffsetOff + 4 ≤ vfsFileSize by decide)
  set objs' := Function.update objs file (some (FsObject.vfsFile ⟨node, offset + n⟩)) with hobjs'
  have hkept : ∀ p o, objs p = some o → (∀ f, o ≠ .vfsFile f) → objs' p = some o := by
    intro p o hp ho
    have hne : p ≠ file := by
      rintro rfl
      rw [h.file] at hp
      exact ho _ (Option.some.inj hp).symm
    rw [hobjs', Function.update_of_ne hne, hp]
  have hkbuf : kbuf ≠ file := by
    rintro rfl
    have hfresh := hb.fresh
    rw [h.file] at hfresh
    cases hfresh
  have hb2 : Vfs.Buffer (k.vfs.setMem m2) objs' kbuf size :=
    ⟨hstores2, hb.live, by rw [hobjs', Function.update_of_ne hkbuf, hb.fresh]⟩
  -- the bytes go into the buffer
  obtain ⟨hb3, hquiet3⟩ := hb2.fill (slice e.content offset size) (by omega)
  set vfs3 := (k.vfs.setMem m2).setMem
    (storeBytes (k.vfs.setMem m2).mem kbuf (slice e.content offset size)) with hvfs3
  have hquiet : Vfs.Quiet k.vfs vfs3 := ⟨((Vfs.Same.refl k.vfs).setMem m2).trans hquiet3.same,
    hgrows2.trans hquiet3.grows⟩
  have htask := hkept _ _ h.task (by simp)
  have hleads3 : Vfs.Leads vfs3 objs' tcb fd file node (offset + n) v :=
    h.toLeads.next hb3.stores rfl htask (Function.update_self ..)
      (hkept _ _ h.node (by simp))
  have hcarries3 : Carries k { k with vfs := vfs3 } :=
    .of_quiet hquiet (.of_stores h.stores hb3.stores rfl h.task htask h.whole)
  have he' : e.At objs' := by
    obtain ⟨next, hobj⟩ := he.node
    exact ⟨⟨next, hkept _ _ hobj (by simp [Entry.object])⟩,
      he.data.imp id fun hdata => ⟨hdata.1, hkept _ _ hdata.2 (by simp)⟩⟩
  have huser3 : ∀ x, userMemStart ≤ x → vfs3.mem x = k.mem x := fun x hx =>
    hquiet.user hb3.stores hx
  set k3 : SyscallState := { k with vfs := vfs3 } with hk3
  have hwork : readWork fd buf size k kbuf =
      (k3.copyToUser buf (fun i => k3.mem (kbuf + i)) n).map fun r =>
        (if r.1 ≠ 0 then UserCopy.failure else n, r.2) := by
    have hword : word (n : Int) = n := word_ofNat (by omega)
    unfold readWork
    rw [hread, hadvance]
    simp only [if_pos (show (0 : Int) < n by omega), Int.toNat_natCast, hword]
    rfl
  have hd3 := userDir (hcarries3.dir hd).1
  rcases copyToUser_spec hd3 (fun i => k3.mem (kbuf + i)) hbuf (show n < 2 ^ 32 by omega) with
    ⟨hno, hcopy⟩ | ⟨hyes, m, hcopy, hinside, houtside⟩
  · refine ⟨k3, objs', hb3, he', hcarries3, hleads3, .inr ⟨fun hrange => hno (.inr ?_), ?_⟩⟩
    · exact (hcarries3.range hd buf n).mpr hrange
    · rw [hwork, hcopy]
      rfl
  · have hrange3 := hyes.resolve_left (by omega)
    have hlow : ∀ x, x < userMemStart → m x = k3.mem x := fun x hx => houtside x (by
      by_contra hin
      have hlower := hd3.lower x (by have := hrange3.1; omega) (hrange3.2 x (by omega) (by omega))
      have hframe := frameOf_le x
      omega)
    obtain ⟨hstores4, hcarries4⟩ := Carries.setMem (k := k3) hb3.stores htask h.whole hlow
    refine ⟨k3.setMem m, objs', ⟨hstores4, hb3.live, hb3.fresh⟩, he', hcarries3.trans hcarries4,
      hleads3.next hstores4 rfl htask (Function.update_self ..) (hkept _ _ h.node (by simp)),
      .inl ⟨(hcarries3.range hd buf n).mp hrange3, ?_, fun i hi => ?_, fun x hx hout => ?_⟩⟩
    · rw [hwork, hcopy]
      rfl
    · have hstored : bytesAt k3.mem kbuf n = slice e.content offset size := by
        rw [← hn]
        exact bytesAt_storeBytes _ _ _
      have hlt : i < (bytesAt k3.mem kbuf n).length := by
        rw [length_bytesAt]
        exact hi
      have hget := getElem_bytesAt k3.mem kbuf hlt
      calc (k3.setMem m).mem (buf + i) = k3.mem (kbuf + i) := hinside i hi
        _ = (bytesAt k3.mem kbuf n)[i] := hget.symm
        _ = (bytesAt k3.mem kbuf n).getD i 0 := (List.getD_eq_getElem _ _ hlt).symm
        _ = (slice e.content offset size).getD i 0 := by rw [hstored]
    · exact (houtside x hout).trans (huser3 x hx)

/-- A call that ends where it began, but for the heap, has changed nothing. -/
theorem unchanged_of_kept {vfs : Vfs} (hs : Stores vfs.heap objs) (hq : Vfs.Quiet k.vfs vfs)
    (hd : vfs.descriptor fd = k.vfs.descriptor fd) : k.Unchanged { k with vfs := vfs } fd :=
  ⟨hd, fun _ hx => hq.user hs hx⟩

/-- `SYSCALL_READ` is all or nothing just when it does not fail late. -/
theorem read_atomic_iff {fds : Nat → Nat} {buf : Nat} (h : k.Serves objs fds)
    (hbuf : buf < 2 ^ 32) (h32 : size + 15 < 2 ^ 32)
    (hback : k.GivesBack size) :
    k.ReadAtomic fd buf size ↔ ¬ k.FailsLate fd buf size := by
  by_cases hsize : size = 0
  · refine iff_of_true ⟨0, k, by rw [read, if_pos hsize], fun h0 => absurd h0 (by decide),
      fun _ => ⟨by simp, fun i hi => absurd hi (by omega), fun _ _ _ => rfl⟩⟩
      fun hlate => hlate.1 hsize
  have hreadeq : k.read fd buf size = k.withBuffer size (readWork fd buf size) := if_neg hsize
  obtain ⟨objs', tcb, hs, htask, hwhole, hopen⟩ := h.block fd
  have hkept : ∀ vfs : Vfs, Stores vfs.heap objs' → vfs.current = k.vfs.current →
      vfs.descriptor fd = k.vfs.descriptor fd := fun _ hs' hcur =>
    descriptor_kept hs htask hwhole hopen hs' hcur
  have hbuffer := withBuffer_spec (k := k) hs h32 hback
  rcases hbuffer (readWork fd buf size) with
    ⟨vfs, hmalloc, hrun, hstores, hquiet⟩ | ⟨kbuf, vfs, hmalloc, h0, hb, hquiet, hblock, hfinish⟩
  · exact iff_of_true ⟨_, _, hreadeq.trans hrun, fun _ =>
      unchanged_of_kept hstores hquiet (hkept _ hstores hquiet.same.current),
      fun hne => absurd rfl hne⟩ fun hlate => hlate.2.1 vfs hmalloc
  have hcarries : Carries k { k with vfs := vfs } := .of_quiet hquiet
    (.of_stores hs hb.stores hquiet.same.current htask htask hwhole)
  -- the cases in which nothing is delivered
  have hnothing : ∀ n : Int, (n = -1 ∨ n = 0) → vfs.vfsRead fd size = ((n, []), vfs) →
      k.ReadAtomic fd buf size := by
    intro n hn hread
    have hwork : readWork fd buf size { k with vfs := vfs } kbuf =
        some (word n, { k with vfs := vfs }) := readWork_nothing (by omega) hread
    obtain ⟨vfs', hrun, hstores', hquiet'⟩ := hfinish _ _ objs' hwork hb
      fun _ _ => id
    have hunchanged : k.Unchanged { k with vfs := vfs' } fd :=
      unchanged_of_kept hstores' (hquiet.trans hquiet')
        (hkept _ hstores' (hquiet.trans hquiet').same.current)
    refine ⟨_, _, hreadeq.trans hrun, fun _ => hunchanged, fun hne => ?_⟩
    rcases hn with rfl | rfl
    · exact absurd rfl hne
    · exact ⟨by rw [hunchanged.descriptor]; simp [word], fun i hi => absurd hi (by simp [word]),
        fun x hx _ => hunchanged.user x hx⟩
  have hslot1 : vfs.openSlot fd = k.vfs.openSlot fd := hcarries.task.openSlot fd
  rcases hopen with hnone | ⟨file, node, offset, v, ho⟩
  · have hread : vfs.vfsRead fd size = ((-1, []), vfs) := by
      rw [Vfs.vfsRead, hslot1, hnone]
    refine iff_of_true (hnothing _ (.inl rfl) hread) ?_
    rintro ⟨_, _, n, ⟨offset, content, hdesc, _⟩, _⟩
    rw [Vfs.descriptor, hnone] at hdesc
    cases hdesc
  have ho1 := ho.next hb.stores hquiet.same.current
  rcases ho.target with ⟨e, he, hfs, _⟩ | ⟨n, hn, htype⟩
  · have hdesc := ho.descriptor he hfs
    have hzone := (hb.stores.inv.bounds hb.live).2.2
    have hin := he.content_le hb.stores
    simp only [userMemStart] at hzone hin
    by_cases hend : e.content.length ≤ offset
    · -- the descriptor is at the end of the file
      have hread := ho1.vfsRead_file he hfs (show offset + size < 2 ^ 32 by omega)
      rw [slice_of_le _ _ hend] at hread
      refine iff_of_true (hnothing _ (.inr rfl) hread) ?_
      rintro ⟨_, _, n, ⟨offset', content, hdesc', hlt, _⟩, _⟩
      rw [hdesc] at hdesc'
      obtain ⟨rfl, rfl⟩ := Prod.mk.inj (Option.some.inj hdesc')
      omega
    · set n := (slice e.content offset size).length with hn
      have hlen := hn
      rw [length_slice] at hlen
      obtain ⟨k', objs2, hb2, he2, hcarries2, hleads2, hres⟩ :=
        readWork_something ho1 (hcarries.dir h.dir).1 hb he hfs hbuf (by omega) hn.symm
      rw [hcarries.range h.dir] at hres
      have hremaining : k.Remaining fd size n := ⟨offset, e.content, hdesc, by omega, hlen⟩
      have hfinal : ∀ vfs', Stores vfs'.heap objs2 → Vfs.Quiet k'.vfs vfs' →
          vfs'.descriptor fd = some (offset + n, e.content) := fun vfs' hs' hq' =>
        (hleads2.next hs' hq'.same.current hleads2.task hleads2.file hleads2.node).descriptor
          he2 hfs
      rcases hres with ⟨hrange, hwork, hbytes, hrest⟩ | ⟨hno, hwork⟩
      · obtain ⟨vfs', hrun, hstores', hquiet'⟩ := hfinish _ _ objs2 hwork hb2
          hcarries2.starts
        have hall : Carries k { k' with vfs := vfs' } := (hcarries.trans hcarries2).trans
          (.of_quiet hquiet' (.of_stores hleads2.stores hstores' hquiet'.same.current hleads2.task
            hleads2.task hwhole))
        obtain ⟨hd', hpages⟩ := hall.dir h.dir
        have huser : ∀ x, userMemStart ≤ x → vfs'.mem x = k'.mem x := fun x hx =>
          hquiet'.user hstores' hx
        refine iff_of_true ⟨n, _, hreadeq.trans hrun, fun hfail => ?_, fun _ => ⟨?_,
          fun i hi => ?_, fun x hx hout => ?_⟩⟩ ?_
        · simp only [UserCopy.failure] at hfail
          omega
        · rw [hdesc, Option.map_some]
          exact hfinal vfs' hstores' hquiet'
        · have hpage := hrange.2 (buf + i) (by omega) (by omega)
          have hv : buf + i < 2 ^ 32 := by
            have := hrange.1
            omega
          have hlow := (userDir h.dir).lower _ hv hpage
          have hframe := frameOf_le (buf + i)
          have hlt : offset + i < e.content.length := by omega
          have hi' : i < (slice e.content offset size).length := hi
          refine ⟨_, e.content[offset + i], hdesc, List.getElem?_eq_getElem hlt, ?_⟩
          rw [userByte_eq (userDir hd') hv ((hpages _ hv).mpr hpage)]
          have hmem : vfs'.mem (buf + i) = (slice e.content offset size).getD i 0 :=
            (huser _ (by omega)).trans (hbytes i hi)
          have hslice := getElem?_slice e.content offset size (show i < size by omega)
          rw [List.getElem?_eq_getElem hlt] at hslice
          exact congrArg some (hmem.trans (by rw [List.getD_eq_getElem?_getD, hslice]; rfl))
        · exact (huser x hx).trans ((hrest x hx hout).trans (hquiet.user hb.stores hx))
        · rintro ⟨_, _, n', ⟨offset', content, hdesc', hlt, hn'⟩, hno⟩
          rw [hdesc] at hdesc'
          obtain ⟨rfl, rfl⟩ := Prod.mk.inj (Option.some.inj hdesc')
          rw [hn', ← hlen] at hno
          exact hno hrange
      · obtain ⟨vfs', hrun, hstores', hquiet'⟩ := hfinish _ _ objs2 hwork hb2
          hcarries2.starts
        refine iff_of_false ?_ (not_not.mpr ⟨hsize, fun vfs' hzero => ?_, n, hremaining, hno⟩)
        · rintro ⟨ret, k'', hrun', hfail, _⟩
          obtain ⟨rfl, rfl⟩ := Prod.mk.inj (Option.some.inj
            ((hreadeq.trans hrun).symm.trans hrun'))
          have hsame := (hfail rfl).descriptor
          rw [hdesc] at hsame
          have hmoved := (hfinal vfs' hstores' hquiet').symm.trans hsame
          have := congrArg Prod.fst (Option.some.inj hmoved)
          simp only at this
          omega
        · rw [hmalloc] at hzero
          exact h0 (congrArg Prod.fst (Except.ok.inj hzero))
  · have hread := ho1.vfsRead_other hn htype size
    refine iff_of_true (hnothing _ (.inl rfl) hread) ?_
    rintro ⟨_, _, m, ⟨offset', content, hdesc', hlt, _⟩, _⟩
    rw [ho.descriptor_other hn htype] at hdesc'
    obtain ⟨rfl, rfl⟩ := Prod.mk.inj (Option.some.inj hdesc')
    exact absurd hlt (by simp)

/-! ## Writing -/

/-- If the write makes the file grow out of its block, the block can be freed. -/
def MovesFreely (k : SyscallState) (fd : Int) (size : Nat) : Prop :=
  ∀ i, k.vfs.openSlot fd = some i →
    let file := k.vfs.field k.vfs.current (Vfs.fdOff i)
    let rn := k.vfs.field (k.vfs.field file fileNodeOff) fsDataOff
    k.vfs.field rn sizeOff < k.vfs.field file fileOffsetOff + size → k.vfs.field rn dataOff ≠ 0 →
      k.vfs.heap.Block (pageOf (k.vfs.field rn dataOff - headerSize))

theorem Opened.block (h : k.Opened objs tcb fd file node offset v) (he : e.At objs)
    (hfs : v.fsData = e.node) (hmove : k.MovesFreely fd size) (h0 : e.data ≠ 0)
    (hgrow : e.content.length < offset + size) :
    k.vfs.heap.Block (pageOf (e.data - headerSize)) := by
  have hat : VfsFile.At k.vfs.mem file ⟨node, offset⟩ := h.stores.here _ _ h.file
  obtain ⟨hrn, _, hsize, hdata⟩ := he.fields h.stores h.node hfs
  have hfree := hmove _ h.slot
  simp only [h.word, show k.vfs.field file fileNodeOff = node from hat.node,
    show k.vfs.field file fileOffsetOff = offset from hat.offset, hrn, hsize, hdata] at hfree
  exact hfree hgrow h0

/-- `vfs_write` of what is no file fails. -/
theorem Opened.vfsWrite_other {n : RamfsNode} (h : k.Opened objs tcb fd file node offset v)
    (hn : objs v.fsData = some (.ramfsNode n)) (htype : n.type ≠ vfsTypeFile) (bytes : Bytes) :
    k.vfs.vfsWrite fd bytes = .ok (-1, k.vfs) := by
  have hat : VfsFile.At k.vfs.mem file ⟨node, offset⟩ := h.stores.here _ _ h.file
  have hfs := (Vfs.field_vfsNode h.stores h.node).2
  have htypeF : k.vfs.field v.fsData typeOff = n.type := (Vfs.field_ramfsNode h.stores hn).type
  unfold Vfs.vfsWrite Vfs.ramfsWrite
  simp only [h.slot, h.word, show k.vfs.field file fileNodeOff = node from hat.node, hfs, htypeF,
    if_pos htype]
  rfl

/-- `vfs_write` of a file overwrites its content and moves the descriptor, or is refused the memory
and does nothing. The buffer of the call stays live. -/
theorem Opened.vfsWrite_file {kbuf : Nat} {bytes : Bytes}
    (h : k.Opened objs tcb fd file node offset v) (hb : Vfs.Buffer k.vfs objs kbuf size)
    (he : e.At objs) (hfs : v.fsData = e.node) (hle : offset ≤ e.content.length)
    (hapart : e.data ≠ k.vfs.current) (hlen : bytes.length = size) (hpos : size ≠ 0)
    (hfree : e.data ≠ 0 → e.content.length < offset + size →
      k.vfs.heap.Block (pageOf (e.data - headerSize))) :
    ∃ n vfs objs', k.vfs.vfsWrite fd bytes = .ok (n, vfs) ∧ Vfs.Quiet k.vfs vfs ∧
      Vfs.Buffer vfs objs' kbuf size ∧
      (n = -1 ∧ objs' = objs ∨ n = (size : Int) ∧
        Vfs.Leads vfs objs' tcb fd file node (offset + size) v ∧
        ∃ e' : Entry, e'.At objs' ∧ e'.node = e.node ∧
          e'.content = overwrite 0 e.content offset bytes) := by
  have hzone := (hb.stores.inv.bounds hb.live).2.2
  have hin := he.content_le h.stores
  simp only [userMemStart] at hzone hin
  have hat : VfsFile.At k.vfs.mem file ⟨node, offset⟩ := h.stores.here _ _ h.file
  have hnodeF : k.vfs.field file fileNodeOff = node := hat.node
  have hoffF : k.vfs.field file fileOffsetOff = offset := hat.offset
  -- the buffer is kept as an object of its own
  set held := bytesAt k.vfs.mem kbuf size with hheld
  have hheldlen : held.length = size := length_bytesAt _ _ _
  have hstores := hb.hold
  set objs1 := Function.update objs kbuf (some (FsObject.data held)) with hobjs1
  have hself : objs1 kbuf = some (.data held) := Function.update_self ..
  have hold : ∀ p o, objs p = some o → objs1 p = some o := by
    intro p o hp
    have hne : p ≠ kbuf := by
      rintro rfl
      rw [hb.fresh] at hp
      cases hp
    rw [hobjs1, Function.update_of_ne hne, hp]
  have he1 : e.At objs1 := by
    obtain ⟨next, hobj⟩ := he.node
    exact ⟨⟨next, hold _ _ hobj⟩, he.data.imp id fun hd => ⟨hd.1, hold _ _ hd.2⟩⟩
  have hforget : Function.update objs1 kbuf none = objs := by
    rw [hobjs1, Function.update_idem, ← hb.fresh, Function.update_eq_self]
  have hbytes : bytes ≠ [] := by
    rintro rfl
    exact hpos hlen.symm
  have hfits : offset + bytes.length + 15 < 2 ^ 32 := by omega
  obtain ⟨n, s1, hrun, hsame, hgrows, hres⟩ := he1.write hstores (hold _ _ h.node) hfs hbytes hfits
    fun h0 hgrow => hfree h0 (by rw [← hlen]; exact hgrow)
  have hvfs : k.vfs.vfsWrite fd bytes = .ok (n, s1.advance file n) := by
    unfold Vfs.vfsWrite
    simp only [h.slot, h.word, hnodeF, hoffF, hrun]
    rfl
  rcases hres with ⟨rfl, _, hs1⟩ | ⟨rfl, objs2, data, hs2, hbecomes⟩
  · refine ⟨-1, s1, objs, hvfs, ⟨hsame, hgrows⟩, ?_, .inl ⟨rfl, rfl⟩⟩
    have hbuffer := Vfs.Buffer.of_data hs1 hself
    rwa [hforget, hheldlen] at hbuffer
  · -- what the file is not is kept
    have hkbufNode : kbuf ≠ e.node := by
      rintro rfl
      obtain ⟨next, hobj⟩ := he.node
      rw [hb.fresh] at hobj
      cases hobj
    have hkbufData : kbuf ≠ e.data := by
      rintro rfl
      rcases he.data with ⟨_, hzero⟩ | ⟨_, hdata⟩
      · exact hstores.ne_zero hself hzero
      · rw [hb.fresh] at hdata
        cases hdata
    have hkept := he1.rest_kept hstores.zero hbecomes.others
    have hself2 := hbecomes.others _ _ hself hkbufNode hkbufData
    have hfile2 := hkept _ _ (hold _ _ h.file) (by simp) (by simp)
    have hnode2 := hkept _ _ (hold _ _ h.node) (by simp) (by simp)
    have htask2 : objs2 k.vfs.current = some (.data tcb) := by
      refine hbecomes.others _ _ (hold _ _ h.task) ?_ (Ne.symm hapart)
      intro heq
      obtain ⟨next, hobj⟩ := he.node
      rw [← heq, h.task] at hobj
      cases hobj
    -- the offset moves
    have hoff2 : s1.mem.load32 (file + fileOffsetOff) = offset :=
      (show VfsFile.At s1.mem file ⟨node, offset⟩ from hs2.here _ _ hfile2).offset
    have hadvance : s1.advance file bytes.length =
        s1.setMem (s1.mem.store32 (file + fileOffsetOff) (offset + size)) := by
      rw [Vfs.advance, if_pos (by omega), Vfs.field, hoff2, Int.toNat_natCast, hlen]
    have hstores3 := Vfs.assign_offset hs2 hfile2 (show offset + size < 2 ^ 32 by omega)
    have hgrows3 := Vfs.store32_grows hs2 hfile2 fileOffsetOff (offset + size)
      (show fileOffsetOff + 4 ≤ vfsFileSize by decide)
    rw [hadvance] at hvfs
    set vfs := s1.setMem (s1.mem.store32 (file + fileOffsetOff) (offset + size)) with hvfsdef
    set objs3 := Function.update objs2 file (some (FsObject.vfsFile ⟨node, offset + size⟩))
      with hobjs3
    have hkept3 : ∀ p o, objs2 p = some o → (∀ f, o ≠ .vfsFile f) → objs3 p = some o := by
      intro p o hp ho
      have hne : p ≠ file := by
        rintro rfl
        rw [hfile2] at hp
        exact ho _ (Option.some.inj hp).symm
      rw [hobjs3, Function.update_of_ne hne, hp]
    have hbuffer := Vfs.Buffer.of_data hstores3 (hkept3 _ _ hself2 (by simp))
    rw [hheldlen] at hbuffer
    have hkept4 : ∀ p o, objs3 p = some o → p ≠ kbuf → Function.update objs3 kbuf none p = some o :=
      fun p o hp hne => by rw [Function.update_of_ne hne, hp]
    have hne : ∀ p o, objs p = some o → p ≠ kbuf := by
      rintro p o hp rfl
      rw [hb.fresh] at hp
      cases hp
    have hleads : Vfs.Leads vfs (Function.update objs3 kbuf none) tcb fd file node (offset + size)
        v :=
      h.toLeads.next hbuffer.stores hsame.current
        (hkept4 _ _ (hkept3 _ _ htask2 (by simp)) (hne _ _ h.task))
        (hkept4 _ _ (Function.update_self ..) (hne _ _ h.file))
        (hkept4 _ _ (hkept3 _ _ hnode2 (by simp)) (hne _ _ h.node))
    have he2 := hbecomes.at he1
    refine ⟨_, vfs, _, hvfs, ⟨hsame.setMem _, hgrows.trans hgrows3⟩, hbuffer,
      .inr ⟨by rw [hlen], hleads,
        { e with content := overwrite 0 e.content offset bytes, data := data }, ⟨?_, ?_⟩, rfl, rfl⟩⟩
    · obtain ⟨next, hobj⟩ := he2.node
      exact ⟨next, hkept4 _ _ (hkept3 _ _ hobj (by simp [Entry.object])) (Ne.symm hkbufNode)⟩
    · refine he2.data.imp id fun hd => ⟨hd.1, hkept4 _ _ (hkept3 _ _ hd.2 (by simp)) ?_⟩
      rcases hbecomes.place with hsame' | hnone
      · rw [hsame']
        exact Ne.symm hkbufData
      · intro heq
        rw [heq, hself] at hnone
        cases hnone

/-- `SYSCALL_WRITE` is all or nothing. -/
theorem write_atomic {fds : Nat → Nat} {buf : Nat} (h : k.Serves objs fds)
    (hbuf : buf < 2 ^ 32) (h32 : size + 15 < 2 ^ 32)
    (hback : k.GivesBack size) (hmove : k.MovesFreely fd size) :
    k.WriteAtomic fd buf size := by
  by_cases hsize : size = 0
  · refine ⟨0, k, by rw [write, if_pos hsize], fun h0 => absurd h0 (by decide),
      fun _ => ⟨⟨[], rfl, fun i hi => absurd hi (by omega), by simp⟩,
        fun h0 => absurd h0 (by omega), fun _ _ => rfl⟩⟩
  have hwriteeq : k.write fd buf size = k.withBuffer size (writeWork fd buf size) := if_neg hsize
  obtain ⟨objs', tcb, hs, htask, hwhole, hopen⟩ := h.block fd
  have hkept : ∀ vfs : Vfs, Stores vfs.heap objs' → vfs.current = k.vfs.current →
      vfs.descriptor fd = k.vfs.descriptor fd := fun _ hs' hcur =>
    descriptor_kept hs htask hwhole hopen hs' hcur
  have hbuffer := withBuffer_spec (k := k) hs h32 hback
  rcases hbuffer (writeWork fd buf size) with
    ⟨vfs, hmalloc, hrun, hstores, hquiet⟩ | ⟨kbuf, vfs, hmalloc, h0, hb, hquiet, hblock, hfinish⟩
  · exact ⟨_, _, hwriteeq.trans hrun, fun _ =>
      unchanged_of_kept hstores hquiet (hkept _ hstores hquiet.same.current),
      fun hne => absurd rfl hne⟩
  have hcarries : Carries k { k with vfs := vfs } := .of_quiet hquiet
    (.of_stores hs hb.stores hquiet.same.current htask htask hwhole)
  -- the cases in which nothing is written
  have hnothing : ∀ vfs2 : Vfs, Vfs.Buffer vfs2 objs' kbuf size → Vfs.Quiet vfs vfs2 →
      writeWork fd buf size { k with vfs := vfs } kbuf =
        some (UserCopy.failure, { k with vfs := vfs2 }) → k.WriteAtomic fd buf size := by
    intro vfs2 hb2 hquiet2 hwork
    obtain ⟨vfs', hrun, hstores', hquiet'⟩ := hfinish _ _ objs' hwork hb2 hquiet2.grows.starts
    have hall := (hquiet.trans hquiet2).trans hquiet'
    exact ⟨_, _, hwriteeq.trans hrun, fun _ => unchanged_of_kept hstores' hall
      (hkept _ hstores' hall.same.current), fun hne => absurd rfl hne⟩
  have hd1 := userDir (hcarries.dir h.dir).1
  rcases copyFromUser_spec hd1 hbuf (show size < 2 ^ 32 by omega) with
    ⟨_, left, hcopy⟩ | ⟨hyes, hcopy⟩
  · refine hnothing vfs hb (.refl vfs) ?_
    rw [writeWork, hcopy]
    rfl
  -- the bytes of the user are in the buffer
  have hrange1 := hyes.resolve_left hsize
  set bytes := bytesAt vfs.mem buf size with hbytesdef
  have hlen : bytes.length = size := length_bytesAt _ _ _
  obtain ⟨hb2, hquiet2⟩ := hb.fill bytes (Nat.le_of_eq hlen)
  have hblock2 := (hb.stores.inv.setMem (m := storeBytes vfs.mem kbuf bytes) hb.live
    fun x hx => storeBytes_outside (by omega)).2
  set vfs2 := vfs.setMem (storeBytes vfs.mem kbuf bytes) with hvfs2
  have hheld : bytesAt vfs2.mem kbuf size = bytes := by
    rw [← hlen]
    exact bytesAt_storeBytes _ _ _
  have hquietk2 := hquiet.trans hquiet2
  have hwork : ∀ n vfs3, vfs2.vfsWrite fd bytes = .ok (n, vfs3) →
      writeWork fd buf size { k with vfs := vfs } kbuf = some (word n, { k with vfs := vfs3 }) := by
    intro n vfs3 hvfs
    have hvfs : vfs2.vfsWrite fd (bytesAt vfs2.mem kbuf size) = .ok (n, vfs3) := hheld ▸ hvfs
    rw [writeWork, hcopy]
    simp only [Option.bind_some, ne_eq, not_true_eq_false, if_false]
    split
    · next heq => cases heq.symm.trans hvfs
    · next heq =>
        obtain ⟨rfl, rfl⟩ := Prod.mk.inj (Except.ok.inj (heq.symm.trans hvfs))
        rfl
  have hslot2 : vfs2.openSlot fd = k.vfs.openSlot fd :=
    (Vfs.TaskKept.of_stores hs hb2.stores hquietk2.same.current htask htask hwhole).openSlot fd
  rcases hopen with hnone | ⟨file, node, offset, v, ho⟩
  · have hrefused : vfs2.vfsWrite fd bytes = .ok (-1, vfs2) := by
      rw [Vfs.vfsWrite, hslot2, hnone]
    exact hnothing vfs2 hb2 hquiet2 (hwork _ _ hrefused)
  have ho2 := ho.next hb2.stores hquietk2.same.current
  rcases ho.target with ⟨e, he, hfs, hle, hapart⟩ | ⟨n, hn, htype⟩
  · have hfree2 : e.data ≠ 0 → e.content.length < offset + size →
        vfs2.heap.Block (pageOf (e.data - headerSize)) := fun h0 hgrow =>
      (hblock2 _).mpr (hblock _ (ho.block he hfs hmove h0 hgrow))
    obtain ⟨n, vfs3, objs3, hvfs, hquiet3, hb3, hres⟩ := ho2.vfsWrite_file hb2 he hfs hle
      (by rw [show (SyscallState.vfs { k with vfs := vfs2 }).current = k.vfs.current from
        hquietk2.same.current]; exact hapart) hlen hsize hfree2
    have hvfs : vfs2.vfsWrite fd bytes = .ok (n, vfs3) := hvfs
    have hquietk3 := hquietk2.trans hquiet3
    have hwork := hwork _ _ hvfs
    rcases hres with ⟨rfl, rfl⟩ | ⟨rfl, hleads, e', he', hnode', hcontent⟩
    · exact hnothing vfs3 hb3 (hquiet2.trans hquiet3) hwork
    · obtain ⟨vfs', hrun, hstores', hquiet'⟩ := hfinish _ _ objs3 hwork hb3
        (hquiet2.trans hquiet3).grows.starts
      have hzone := (hb.stores.inv.bounds hb.live).2.2
      simp only [userMemStart] at hzone
      have hword : word (size : Int) = size := word_ofNat (by omega)
      have hdesc := ho.descriptor he hfs
      refine ⟨_, _, hwriteeq.trans hrun, fun hfail => ?_, fun _ => ⟨⟨bytes, ?_, fun i hi => ?_, ?_⟩,
        fun _ => by rw [hdesc]; rfl, fun x hx => ?_⟩⟩
      · rw [hword] at hfail
        simp only [UserCopy.failure] at hfail
        omega
      · rw [hword, hlen]
      · rw [hword] at hi
        have hv : buf + i < 2 ^ 32 := by
          have := hrange1.1
          omega
        have hpage1 := hrange1.2 (buf + i) (by omega) (by omega)
        have hpage := ((hcarries.dir h.dir).2 _ hv).mp hpage1
        have hlow := (userDir h.dir).lower _ hv hpage
        have hframe := frameOf_le (buf + i)
        have hi' : i < bytes.length := by omega
        rw [userByte_eq (userDir h.dir) hv hpage, List.getElem?_eq_getElem hi']
        exact congrArg some ((hquiet.user hb.stores (by omega)).symm.trans
          (getElem_bytesAt vfs.mem buf hi').symm)
      · rw [hword, hdesc, Option.map_some, if_neg hsize]
        have hfinal := (hleads.next hstores' hquiet'.same.current hleads.task hleads.file
          hleads.node).descriptor he' (hfs.trans hnode'.symm)
        rw [hcontent] at hfinal
        exact hfinal
      · exact (hquiet'.user hstores' hx).trans (hquietk3.user hb3.stores hx)
  · exact hnothing vfs2 hb2 hquiet2 (hwork _ _ (ho2.vfsWrite_other hn htype bytes))

/-- A read or a write has no effect if it fails, and all of it otherwise, just when the read does
not fail late. -/
theorem read_write_atomic_iff (k : SyscallState) (h : ∃ objs fds, k.Serves objs fds) (fd : Int)
    (buf size : Nat) (hbuf : buf < 2 ^ 32) (h32 : size + 15 < 2 ^ 32)
    (hback : k.GivesBack size) (hmove : k.MovesFreely fd size) :
    k.ReadAtomic fd buf size ∧ k.WriteAtomic fd buf size ↔ ¬ k.FailsLate fd buf size := by
  obtain ⟨objs, fds, h⟩ := h
  exact (and_iff_left (write_atomic h hbuf h32 hback hmove)).trans
    (read_atomic_iff h hbuf h32 hback)

end Calls

/-- A file system in order, with the user pages of the task, serves it. -/
theorem serves_of_represents {k : SyscallState} {tasks : List Nat} {a : FileStore} {objs : Objects}
    {rdir : Nat} {entries : List Entry} {fds : Nat → Nat → Nat}
    (h : Represents tasks k.vfs a objs rdir entries fds) (ht : k.vfs.current ∈ tasks)
    (hoff : ∀ i, i < maxFdPerTask →
      let file := k.vfs.field k.vfs.current (Vfs.fdOff i)
      file ≠ 0 → k.vfs.field file fileOffsetOff ≤
        k.vfs.field (k.vfs.field (k.vfs.field file fileNodeOff) fsDataOff) sizeOff)
    (hdir : UserDirIn k.vfs.heap.heap.reserved k.mem k.pd) :
    k.Serves objs (fds k.vfs.current) := by
  refine ⟨h.stores, h.task _ ht, fun i hi hne => ?_, hdir⟩
  have hslot := h.slot _ ht i hi
  cases hs : a.slots k.vfs.current i with
  | none =>
      rw [hs] at hslot
      exact absurd hslot hne
  | some slot =>
      obtain ⟨name, offset⟩ := slot
      rw [hs] at hslot
      obtain ⟨node, v, e, hfile, hnode, he, hfs, _⟩ := hslot
      have hat : VfsFile.At k.vfs.mem (fds k.vfs.current i) ⟨node, offset⟩ :=
        h.stores.here _ _ hfile
      obtain ⟨hrn, _, hsize, _⟩ := (h.dir.at he).fields h.stores hnode hfs
      have hle := hoff i hi
      simp only [h.field ht hi, show k.vfs.field (fds k.vfs.current i) fileNodeOff = node from
        hat.node, show k.vfs.field (fds k.vfs.current i) fileOffsetOff = offset from hat.offset,
        hrn, hsize] at hle
      exact ⟨node, offset, v, hfile, hnode, .inl ⟨e, h.dir.at he, hfs, hle hne⟩⟩

/-! ## A concrete file -/

/-- A task opens a file twice, and writes five bytes through the first descriptor. -/
def sharedCalls : List (Nat × FsCall) :=
  [(sampleTask, .open [0x61] 0), (sampleTask, .open [0x61] 0), (sampleTask, .write 0 sampleContent)]

def sampleShared : Vfs :=
  match run FileSession.step (FileSession.start (sampleMachine 16)) sharedCalls with
  | some σ => σ.vfs
  | none => sampleMachine 16

theorem sampleShared_serves : ∃ objs fds, (sample sampleShared).Serves objs fds := by
  have hsize : 16 ∈ [16, 3464] := by decide
  have hmeets : Meets FileSession.step
      (fun σ e => σ.Valid [sampleTask] e ∧ σ.NewIfCut e ∧ σ.Granted e ∧ σ.Frees e)
      (FileSession.start (sampleMachine 16)) sharedCalls := by
    decide +kernel
  obtain ⟨_, rdir, final, hrun, a, objs, entries, fds, hrep, _⟩ :=
    FileSession.run_sound (sampleMachine_mounted hsize) hmeets
  have hfinal : final.vfs = sampleShared := by
    rw [sampleShared, hrun]
  rw [hfinal] at hrep
  have h' := sample_represents hrep (by decide +kernel)
  have hpd : (sample sampleShared).pd = 0x110000 := by decide +kernel
  have htable : ∀ q ∈ [0x110000, 0x111000], (sample sampleShared).vfs.heap.heap.reserved.has q := by
    intro q hq
    simp only [List.mem_cons, List.not_mem_nil, or_false] at hq
    rcases hq with rfl | rfl
    · exact ⟨⟨by decide, by decide, by decide, by decide +kernel⟩, by decide +kernel⟩
    · exact ⟨⟨by decide, by decide, by decide, by decide +kernel⟩, by decide +kernel⟩
  refine ⟨objs, _, serves_of_represents h' (by decide +kernel) (by decide +kernel) ?_⟩
  rw [hpd]
  exact ((sample_onePage _).userDirIn (htable _ (by decide)) (htable _ (by decide))).1

/-- The statement at the second descriptor of that file, with a buffer in the page of the user. -/
theorem read_write_atomic_iff_sample :
    (sample sampleShared).ReadAtomic 1 0x800000 5 ∧ (sample sampleShared).WriteAtomic 1 0x800000 5 ↔
      ¬ (sample sampleShared).FailsLate 1 0x800000 5 := by
  have hgives : (((sample sampleShared).vfs.kmalloc 5).toOption.map fun r =>
      decide (r.2.heap.Block (pageOf (r.1 - headerSize)))) = some true := by
    decide +kernel
  have hslot : (sample sampleShared).vfs.openSlot 1 = some 1 := by decide +kernel
  refine read_write_atomic_iff _ sampleShared_serves 1 0x800000 5 (by decide) (by decide)
    (fun kbuf vfs hrun _ => ?_) fun i hi => ?_
  · rw [hrun] at hgives
    exact of_decide_eq_true (Option.some.inj hgives)
  · obtain rfl := Option.some.inj (hi.symm.trans hslot)
    decide +kernel

/-- A read into memory that is not user memory fails, and moves the descriptor all the same. -/
theorem read_not_atomic : ¬ ∀ k : SyscallState, (∃ objs fds, k.Serves objs fds) →
    ∀ (fd : Int) (buf size : Nat), k.ReadAtomic fd buf size ∧ k.WriteAtomic fd buf size := by
  intro hclaim
  obtain ⟨⟨ret, k', hrun, hfail, _⟩, _⟩ := hclaim _ sampleShared_serves 1 0x900000 5
  have hread : ((sample sampleShared).read 1 0x900000 5).map (fun r =>
      (r.1, r.2.vfs.descriptor 1)) = some (UserCopy.failure, some (5, sampleContent)) := by
    decide +kernel
  have hbefore : (sample sampleShared).vfs.descriptor 1 = some (0, sampleContent) := by
    decide +kernel
  rw [hrun] at hread
  obtain ⟨hret, hafter⟩ := Prod.mk.inj (Option.some.inj hread)
  have hkept := (hfail hret).descriptor
  rw [show k'.vfs.descriptor 1 = _ from hafter, hbefore] at hkept
  exact absurd (congrArg Prod.fst (Option.some.inj hkept)) (by decide)

end SyscallState

end Kumo
