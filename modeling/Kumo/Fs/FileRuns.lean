import Kumo.Fs.Descriptors
import Kumo.Lib.Transition

/-!
# Runs of the file system

Tasks open, read, write and close files of the root directory, in any order. While requests
for memory are granted and blocks are freed whose page begins with a block, every reply is
the one of the file store. Elsewhere `kfree` may join a free block to bytes in the middle
of another one, and a write through one descriptor then changes what another one reads.
-/

namespace Kumo

open Memory Transition

namespace Vfs

/-- The node of the file system behind an open descriptor of the current task. -/
def openedNode (s : Vfs) (fd : Nat) : Nat :=
  s.field (s.field (s.field s.current (fdOff fd)) fileNodeOff) fsDataOff

/-- A call of the current task on the path `/name` or on a descriptor. -/
def fsCall (s : Vfs) : FsCall → Except Vfs (FsReply × Vfs)
  | .open name flags => (s.vfsOpen (slash :: name) flags).map fun r => ((r.1, []), r.2)
  | .read fd size => .ok (s.vfsRead fd size)
  | .write fd buf => (s.vfsWrite fd buf).map fun r => ((r.1, []), r.2)
  | .close fd => (s.vfsClose fd).map fun r => ((r.1, []), r.2)

/-- A task runs. -/
def runBy (s : Vfs) (t : Nat) : Vfs := { s with current := t }

end Vfs

/-- The file system, the replies so far, and for each file that was opened its name and the node
that the new descriptor led to. -/
structure FileSession where
  vfs : Vfs
  replies : List FsReply
  opened : List (Bytes × Nat)

namespace FileSession

/-- What a call adds to the record of opened files. -/
def opens (s : Vfs) (r : Int) : FsCall → List (Bytes × Nat)
  | .open name _ => if 0 ≤ r then [(name, s.openedNode r.toNat)] else []
  | _ => []

/-- A task makes a call; `none` when the call does not return. -/
def step (σ : FileSession) (e : Nat × FsCall) : Option FileSession :=
  match (σ.vfs.runBy e.1).fsCall e.2 with
  | .error _ => none
  | .ok (r, s) => some ⟨s, σ.replies ++ [r], σ.opened ++ opens s r.1 e.2⟩

/-- The file system before the first call. -/
def start (s : Vfs) : FileSession := ⟨s, [], []⟩

/-! ## Conditions on a run -/

/-- A call of one of the tasks on a path `/name`, with an offset and a size whose sum fits. -/
def Valid (tasks : List Nat) (σ : FileSession) (e : Nat × FsCall) : Prop :=
  let s := σ.vfs.runBy e.1
  e.1 ∈ tasks ∧ match e.2 with
    | .open name _ => FileName name
    | .read fd size => ∀ i, s.openSlot fd = some i →
        s.field (s.field s.current (Vfs.fdOff i)) fileOffsetOff + size < 2 ^ 32
    | .write fd buf => ∀ i, s.openSlot fd = some i →
        s.field (s.field s.current (Vfs.fdOff i)) fileOffsetOff + buf.length < 2 ^ 32
    | .close _ => True

/-- The requests of the call for memory are granted. -/
def Granted (σ : FileSession) (e : Nat × FsCall) : Prop :=
  (Vfs.after ((σ.vfs.runBy e.1).fsCall e.2)).refused = false

/-- A name is at most as long as a component of a path may be. -/
def Short (e : Nat × FsCall) : Prop :=
  match e.2 with
  | .open name _ => name.length ≤ nameMax
  | _ => True

/-- The blocks that the call gives back can be freed. -/
def Frees (σ : FileSession) (e : Nat × FsCall) : Prop :=
  let s := σ.vfs.runBy e.1
  match e.2 with
  | .write fd buf => ∀ i, s.openSlot fd = some i → s.CanMove (s.field s.current (Vfs.fdOff i)) buf
  | .close fd => ∀ i, s.openSlot fd = some i → s.CanFree (s.field s.current (Vfs.fdOff i))
  | _ => True

instance (o : Option Nat) (P : Nat → Prop) [DecidablePred P] :
    Decidable (∀ i, o = some i → P i) :=
  match o with
  | none => isTrue fun _ h => (nomatch h)
  | some a => decidable_of_iff (P a) ⟨fun h _ hi => Option.some.inj hi ▸ h, fun h => h a rfl⟩

instance (s : Vfs) (ptr : Nat) : Decidable (s.CanFree ptr) := by
  unfold Vfs.CanFree
  infer_instance

instance (s : Vfs) (file : Nat) (buf : Bytes) : Decidable (s.CanMove file buf) := by
  unfold Vfs.CanMove
  infer_instance

instance (tasks : List Nat) (σ : FileSession) (e : Nat × FsCall) :
    Decidable (σ.Valid tasks e) := by
  obtain ⟨t, c⟩ := e
  cases c <;> unfold Valid <;> infer_instance

instance (σ : FileSession) (e : Nat × FsCall) : Decidable (σ.Granted e) := by
  unfold Granted
  infer_instance

instance (e : Nat × FsCall) : Decidable (Short e) := by
  obtain ⟨t, c⟩ := e
  cases c <;> unfold Short <;> infer_instance

instance (σ : FileSession) (e : Nat × FsCall) : Decidable (σ.Frees e) := by
  obtain ⟨t, c⟩ := e
  cases c <;> unfold Frees <;> infer_instance

end FileSession

/-- A root directory without files is mounted, and no task has a descriptor open. -/
structure Mounted (tasks : List Nat) (s : Vfs) : Prop where
  heap : s.heap.Inv
  root : s.heap.live s.gRoot = some vfsNodeSize
  type : s.field s.gRoot typeOff = vfsTypeDir
  node : s.heap.live (s.field s.gRoot fsDataOff) = some ramfsNodeSize
  nodeType : s.field (s.field s.gRoot fsDataOff) typeOff = vfsTypeDir
  nodeName : NameAt s.mem (s.field s.gRoot fsDataOff + nameOff) [Vfs.slash]
  noFiles : s.field (s.field s.gRoot fsDataOff) childrenOff = 0
  table : ∀ t ∈ tasks, s.heap.live t = some taskSize
  apart : s.field s.gRoot fsDataOff ∉ tasks
  closed : ∀ t ∈ tasks, ∀ i, i < maxFdPerTask → s.field t (Vfs.fdOff i) = 0

variable {tasks : List Nat} {s s' : Vfs} {a : FileStore} {objs : Objects} {rdir t i : Nat}
  {entries : List Entry} {fds : Nat → Nat → Nat} {σ σ' : FileSession} {e : Nat × FsCall}

/-- A mounted root directory represents the empty store. -/
theorem Mounted.represents (h : Mounted tasks s) :
    ∃ objs rdir, Represents tasks s .empty objs rdir [] fun _ _ => 0 := by
  set rdir := s.field s.gRoot fsDataOff with hrdir
  set n : RamfsNode := ⟨[Vfs.slash], vfsTypeDir, s.field rdir sizeOff, s.field rdir dataOff, 0,
    s.field rdir siblingOff⟩ with hn
  set objs : Objects := fun p =>
    if p = s.gRoot then some (.vfsNode ⟨vfsTypeDir, rdir⟩)
    else if p = rdir then some (.ramfsNode n)
    else if p ∈ tasks then some (.task fun _ => 0) else none with hobjs
  have hne : rdir ≠ s.gRoot := by
    intro heq
    have hlive := h.node
    rw [← hrdir, heq, h.root] at hlive
    cases hlive
  have htask : ∀ t ∈ tasks, t ≠ s.gRoot ∧ t ≠ rdir := by
    intro t ht
    have hlive := h.table t ht
    constructor
    · intro heq
      rw [heq, h.root] at hlive
      cases hlive
    · rintro rfl
      exact h.apart ht
  have hroot : objs s.gRoot = some (.vfsNode ⟨vfsTypeDir, rdir⟩) := if_pos rfl
  have hdir : objs rdir = some (.ramfsNode n) := by
    rw [hobjs]
    simp only [if_neg hne, if_true]
  have htasks : ∀ t ∈ tasks, objs t = some (.task fun _ => 0) := by
    intro t ht
    obtain ⟨h1, h2⟩ := htask t ht
    rw [hobjs]
    simp only [if_neg h1, if_neg h2, if_pos ht]
  refine ⟨objs, rdir, ⟨⟨hroot, ⟨n, hdir, rfl, rfl⟩, fun e he => (nomatch he), List.nodup_nil,
    List.nodup_nil, fun e he => (nomatch he)⟩, fun name => rfl, htasks, fun t ht i hi => rfl,
    fun t ht i hi t' ht' i' hi' heq hne => absurd rfl hne⟩, h.heap, fun p o hp => ?_,
    fun p o hp => ?_⟩
  · rw [hobjs] at hp
    dsimp only at hp
    split at hp
    · next heq =>
        obtain rfl := Option.some.inj hp
        rw [heq]
        exact h.root
    · split at hp
      · next heq =>
          obtain rfl := Option.some.inj hp
          rw [heq]
          exact h.node
      · split at hp
        · next hmem =>
            obtain rfl := Option.some.inj hp
            exact h.table p hmem
        · cases hp
  · rw [hobjs] at hp
    dsimp only at hp
    split at hp
    · next heq =>
        obtain rfl := Option.some.inj hp
        rw [heq]
        exact ⟨h.type, rfl⟩
    · split at hp
      · next heq =>
          obtain rfl := Option.some.inj hp
          rw [heq]
          exact ⟨h.nodeName, h.nodeType, rfl, rfl, h.noFiles, rfl⟩
      · split at hp
        · next hmem =>
            obtain rfl := Option.some.inj hp
            exact h.closed p hmem
        · cases hp

/-- `ramfs_init` and `vfs_mount` make a root directory without files. -/
theorem Vfs.ramfsInit_mounted {root : Nat} (h : s.heap.Inv) (hrun : s.ramfsInit = .ok (root, s'))
    (hroot : root ≠ 0) : Mounted [] (s'.vfsMount [slash] root).2 := by
  obtain ⟨rn, s1, hrun1, hmade1⟩ := kmalloc_fill
    (fun m rn => fillRamfsNode m rn [slash] vfsTypeDir 0)
    (o := .ramfsNode ⟨[slash], vfsTypeDir, 0, 0, 0, 0⟩) (Stores.of_inv h)
    (show ramfsNodeSize + 15 < 2 ^ 32 by decide)
    (fun s' p _ _ => fillRamfsNode_at _ (by decide) (by decide))
    (fun m p x hx => fillRamfsNode_outside hx)
  have hrun1 : s.kmalloc ramfsNodeSize = .ok (rn, s1) := hrun1
  unfold ramfsInit ramfsMakeVfsNode at hrun
  simp only [hrun1, bind, Except.bind, pure, Except.pure] at hrun
  by_cases hrn : rn = 0
  · simp only [hrn, if_true, Except.ok.injEq, Prod.mk.injEq] at hrun
    exact absurd hrun.1.symm hroot
  simp only [if_neg hrn] at hrun hmade1
  have hstores1 := hmade1.stores
  rw [if_neg hrn] at hstores1
  have hrnlt : rn < 2 ^ 32 := by
    have := (hstores1.bounds (p := rn) (Function.update_self ..)).2.2
    simp only [userMemStart] at this
    omega
  obtain ⟨vn, s2, hrun2, hmade2⟩ := newVfsNode_spec (v := ⟨vfsTypeDir, rn⟩)
    (fun m vn => fillVfsNode m vn [slash] vfsTypeDir 0 rn) hstores1
    (fun s' p _ => fillVfsNode_at _ (by decide) hrnlt) (fun m p x hx => fillVfsNode_outside hx)
  rw [hrun2] at hrun
  simp only at hrun
  by_cases hvn : vn = 0
  · simp only [hvn, if_true] at hrun
    cases hfree : s2.kfree rn with
    | error t =>
        rw [hfree] at hrun
        cases hrun
    | ok t =>
        rw [hfree] at hrun
        simp only [if_true, Except.ok.injEq, Prod.mk.injEq] at hrun
        exact absurd hrun.1.symm hroot
  simp only [if_neg hvn, Except.ok.injEq, Prod.mk.injEq] at hrun
  have hstores2 := hmade2.stores
  rw [if_neg hvn] at hstores2
  obtain ⟨hvnr, hrun⟩ := hrun
  have hnv : rn ≠ vn := by
    rintro rfl
    have hfresh := hmade2.fresh hvn
    rw [Function.update_self] at hfresh
    cases hfresh
  have hfs : s2.field vn fsDataOff = rn :=
    (field_vfsNode hstores2 (p := vn) (Function.update_self ..)).2
  rw [hfs] at hrun
  -- the root is its own parent
  have hstores := assign_ramfsNode hstores2 (p := rn)
    (by rw [Function.update_of_ne hnv, Function.update_self]) parentOff rn (by decide) (by decide)
    (by decide)
  rw [hrun] at hstores
  subst hvnr
  have hmount : (s'.vfsMount [slash] vn).2 = { s' with gRoot := vn } := by
    rw [vfsMount, if_neg (by simp)]
  rw [hmount]
  have hroot := hstores.here vn (.vfsNode ⟨vfsTypeDir, rn⟩)
    (by rw [Function.update_of_ne (Ne.symm hnv), Function.update_self])
  have hnode := hstores.here rn _ (Function.update_self ..)
  have hrdir : ({ s' with gRoot := vn } : Vfs).field vn fsDataOff = rn := hroot.2
  refine ⟨hstores.inv, ?_, hroot.1, ?_, ?_, ?_, ?_, fun t ht => absurd ht List.not_mem_nil, by simp,
    fun t ht => absurd ht List.not_mem_nil⟩
  · exact hstores.live vn (.vfsNode ⟨vfsTypeDir, rn⟩)
      (by rw [Function.update_of_ne (Ne.symm hnv), Function.update_self])
  · rw [hrdir]
    exact hstores.live rn _ (Function.update_self ..)
  · rw [hrdir]
    exact hnode.2
  · rw [hrdir]
    exact hnode.1
  · rw [hrdir]
    exact hnode.5

/-! ## One call -/

/-- Which task runs makes no difference to what the heap represents. -/
theorem Represents.runBy (h : Represents tasks s a objs rdir entries fds) (t : Nat) :
    Represents tasks (s.runBy t) a objs rdir entries fds := ⟨h.toShape, h.stores⟩

/-- A call on the file system, with its name cut at 63 bytes. -/
def FsCall.cut : FsCall → FsCall
  | .open name flags => .open (name.take nameMax) flags
  | c => c

theorem FsCall.cut_eq {c : FsCall} (h : FileSession.Short (t, c)) : c.cut = c := by
  cases c with
  | «open» name flags => exact congrArg (FsCall.open · flags) (List.take_of_length_le h)
  | read => rfl
  | write => rfl
  | close => rfl

/-- The bytes of a reply are those of a read. -/
theorem FileStore.call_open (a : FileStore) (t : Nat) (name : Bytes) (flags : Nat) :
    (a.call t (.open name flags)).1.2 = [] := by
  simp only [FileStore.call]
  split <;> rfl

theorem FileStore.call_write (a : FileStore) (t : Nat) (fd : Int) (buf : Bytes) :
    (a.call t (.write fd buf)).1.2 = [] := by
  simp only [FileStore.call]
  split <;> rfl

theorem FileStore.call_close (a : FileStore) (t : Nat) (fd : Int) :
    (a.call t (.close fd)).1.2 = [] := by
  simp only [FileStore.call]
  split <;> rfl

/-- A request that was refused in the call was refused in the function it calls. -/
theorem Vfs.after_map {α β : Type} (r : Except Vfs (α × Vfs)) (f : α → β) :
    Vfs.after (r.map fun x => (f x.1, x.2)) = Vfs.after r := by
  cases r <;> rfl

/-- The slot of an open descriptor. -/
theorem Represents.openSlot_of (h : Represents tasks s a objs rdir entries fds)
    (ht : s.current ∈ tasks) {fd : Int} {i : Nat} {name : Bytes} {offset : Nat}
    (hd : a.descriptor s.current fd = some (i, name, offset)) :
    s.openSlot fd = some i ∧ s.field (s.field s.current (Vfs.fdOff i)) fileOffsetOff = offset := by
  obtain ⟨hi, _, node, v, e, hfile, _⟩ := h.descriptor ht hd
  have hat : VfsFile.At s.mem (fds s.current i) ⟨node, offset⟩ := h.stores.here _ _ hfile
  rw [h.openSlot ht, hd, h.field ht hi]
  exact ⟨rfl, hat.offset⟩

/-- A call does what the store does, and keeps the nodes and the names of files. -/
theorem Represents.fsCall {c : FsCall} (h : Represents tasks s a objs rdir entries fds)
    (hvalid : (FileSession.start s).Valid tasks (s.current, c))
    (honce : ∀ name flags, c = .open name flags → OpensOnce entries name)
    (hg : (Vfs.after (s.fsCall c)).refused = false)
    (hfree : (FileSession.start s).Frees (s.current, c)) :
    ∃ s' objs' entries' fds', s.fsCall c = .ok ((a.call s.current c.cut).1, s') ∧ Vfs.Same s s' ∧
      EntriesKept entries entries' ∧
      Represents tasks s' (a.call s.current c.cut).2 objs' rdir entries' fds' := by
  obtain ⟨ht, hvalid⟩ := hvalid
  have ht : s.current ∈ tasks := ht
  cases c with
  | «open» name flags =>
      rw [Vfs.fsCall, Vfs.after_map _ fun r => (r, [])] at hg
      obtain ⟨s', objs', entries', fds', hrun, hsame, hkept, _, h'⟩ :=
        h.open ht hvalid (honce name flags rfl) hg
      refine ⟨s', objs', entries', fds', ?_, hsame, hkept, h'⟩
      rw [Vfs.fsCall, hrun]
      refine congrArg (fun r => Except.ok (r, s')) (Prod.ext rfl ?_)
      exact (a.call_open _ _ _).symm
  | read fd size =>
      have h32 : ∀ i name offset, a.descriptor s.current fd = some (i, name, offset) →
          offset + size < 2 ^ 32 := by
        intro i name offset hd
        obtain ⟨hopen, hoff⟩ := h.openSlot_of ht hd
        rw [← hoff]
        exact hvalid i hopen
      obtain ⟨objs', hreply, hsame, h'⟩ := h.read ht h32
      refine ⟨_, objs', entries, fds, ?_, hsame, .refl entries, h'⟩
      show _ = Except.ok ((a.call s.current (.read fd size)).1, _)
      rw [← hreply]
      rfl
  | write fd buf =>
      rw [Vfs.fsCall, Vfs.after_map _ fun r => (r, [])] at hg
      have h32 : ∀ i name offset, a.descriptor s.current fd = some (i, name, offset) →
          offset + buf.length < 2 ^ 32 := by
        intro i name offset hd
        obtain ⟨hopen, hoff⟩ := h.openSlot_of ht hd
        rw [← hoff]
        exact hvalid i hopen
      obtain ⟨s', objs', entries', hrun, hsame, hkept, h'⟩ := h.write ht h32 hfree hg
      refine ⟨s', objs', entries', fds, ?_, hsame, hkept, h'⟩
      rw [Vfs.fsCall, hrun]
      refine congrArg (fun r => Except.ok (r, s')) (Prod.ext rfl ?_)
      exact (a.call_write _ _ _).symm
  | close fd =>
      obtain ⟨s', objs', fds', hrun, hsame, h'⟩ := h.close ht hfree
      refine ⟨s', objs', entries, fds', ?_, hsame, .refl entries, h'⟩
      rw [Vfs.fsCall, hrun]
      refine congrArg (fun r => Except.ok (r, s')) (Prod.ext rfl ?_)
      exact (a.call_close _ _).symm

/-- An open descriptor leads to the node of its file. -/
theorem Represents.openedNode (h : Represents tasks s a objs rdir entries fds)
    (ht : s.current ∈ tasks) (hi : i < maxFdPerTask) {name : Bytes} {offset : Nat}
    (hslot : a.slots s.current i = some (name, offset)) :
    ∃ e ∈ entries, e.name = name ∧ e.node = s.openedNode i := by
  have hat := h.slot _ ht i hi
  rw [hslot] at hat
  obtain ⟨node, v, e, hfile, hnode, he, hfs, hname⟩ := hat
  have hfileAt : VfsFile.At s.mem (fds s.current i) ⟨node, offset⟩ := h.stores.here _ _ hfile
  have hnodeF : s.field (fds s.current i) fileNodeOff = node := hfileAt.node
  refine ⟨e, he, hname, ?_⟩
  rw [Vfs.openedNode, h.field ht hi, hnodeF, (Vfs.field_vfsNode h.stores hnode).2, hfs]

/-- Each recorded node is the one of the file of that name. -/
def Recorded (opened : List (Bytes × Nat)) (entries : List Entry) : Prop :=
  ∀ x ∈ opened, ∃ e ∈ entries, e.name = x.1.take nameMax ∧ e.node = x.2

theorem Recorded.append {opened opened' : List (Bytes × Nat)} {entries' : List Entry}
    (h : Recorded opened entries) (hkept : EntriesKept entries entries')
    (h' : Recorded opened' entries') : Recorded (opened ++ opened') entries' := by
  intro x hx
  rcases List.mem_append.mp hx with hx | hx
  · obtain ⟨e, he, hname, hnode⟩ := h x hx
    obtain ⟨e', he', hnode', hname'⟩ := hkept e he
    exact ⟨e', he', hname'.trans hname, hnode'.trans hnode⟩
  · exact h' x hx

/-- What an open adds to the record. -/
theorem Represents.recorded {c : FsCall} {entries' : List Entry} {fds' : Nat → Nat → Nat}
    {objs' : Objects} (ht : s'.current ∈ tasks)
    (h' : Represents tasks s' (a.call s'.current c.cut).2 objs' rdir entries' fds') :
    Recorded (FileSession.opens s' (a.call s'.current c.cut).1.1 c) entries' := by
  cases c with
  | «open» name flags =>
      intro x hx
      cases hfree : a.lowestFree s'.current with
      | none =>
          have hcall : a.call s'.current (FsCall.open name flags).cut = ((-1, []), a) := by
            simp only [FsCall.cut, FileStore.call, hfree]
          rw [hcall] at hx
          cases hx
      | some i =>
          obtain ⟨hi, _⟩ := lowestFree_some hfree
          have hcall : a.call s'.current (FsCall.open name flags).cut =
              (((i : Int), []), (a.create (name.take nameMax)).setSlot s'.current i
                (some (name.take nameMax, 0))) := by
            simp only [FsCall.cut, FileStore.call, hfree]
          rw [hcall] at hx h'
          simp only [FileSession.opens, Int.natCast_nonneg, if_true, Int.toNat_natCast,
            List.mem_singleton] at hx
          subst hx
          exact h'.openedNode ht hi ((slots_setSlot ..).trans (if_pos ⟨rfl, rfl⟩))
  | read | write | close =>
      intro x hx
      cases hx

namespace FileSession

/-- A call returns, replies what the store replies, and keeps the record true. -/
theorem step_spec (h : Represents tasks σ.vfs a objs rdir entries fds)
    (hrec : Recorded σ.opened entries) (hvalid : σ.Valid tasks e)
    (honce : ∀ name flags, e.2 = .open name flags → OpensOnce entries name)
    (hg : σ.Granted e) (hfree : σ.Frees e) :
    ∃ σ' objs' entries' fds', step σ e = some σ' ∧
      σ'.replies = σ.replies ++ [(a.call e.1 e.2.cut).1] ∧ EntriesKept entries entries' ∧
      Recorded σ'.opened entries' ∧ Represents tasks σ'.vfs (a.call e.1 e.2.cut).2 objs' rdir entries' fds' := by
  obtain ⟨s', objs', entries', fds', hrun, hsame, hkept, h'⟩ :=
    (h.runBy e.1).fsCall (c := e.2) hvalid honce hg hfree
  have hcur : s'.current = e.1 := hsame.current
  have hcall : ((σ.vfs.runBy e.1).current : Nat) = e.1 := rfl
  rw [hcall] at hrun h'
  refine ⟨_, objs', entries', fds', by rw [step, hrun], rfl, hkept, hrec.append hkept ?_,
    h'⟩
  rw [← hcur] at h' ⊢
  exact Represents.recorded (by rw [hcur]; exact hvalid.1) h'

/-- Calls whose names are short and whose blocks can be freed reply what the store replies. -/
theorem run_replies (h : Represents tasks σ.vfs a objs rdir entries fds)
    (hrec : Recorded σ.opened entries) {events : List (Nat × FsCall)}
    (hmeets : Meets step (fun σ e => σ.Valid tasks e ∧ Short e ∧ σ.Granted e ∧ σ.Frees e) σ
      events) :
    ∃ final, run step σ events = some final ∧
      final.replies = σ.replies ++ a.replies events := by
  induction events generalizing σ a objs entries fds with
  | nil => exact ⟨σ, rfl, (List.append_nil _).symm⟩
  | cons e events ih =>
      obtain ⟨⟨hvalid, hshort, hg, hfree⟩, hrest⟩ := hmeets
      have honce : ∀ name flags, e.2 = .open name flags → OpensOnce entries name := by
        intro name flags hopen hlong
        simp only [Short, hopen] at hshort
        omega
      obtain ⟨σ', objs', entries', fds', hstep, hreplies, _, hrec', h'⟩ :=
        step_spec h hrec hvalid honce hg hfree
      rw [FsCall.cut_eq (t := e.1) hshort] at hreplies h'
      obtain ⟨final, hrun, hfinal⟩ := ih h' hrec' (hrest σ' hstep)
      refine ⟨final, by rw [run, hstep]; exact hrun, ?_⟩
      rw [hfinal, hreplies, FileStore.replies, List.append_assoc]
      rfl

end FileSession

/-! ## Refinement -/

/-- Calls of any tasks in any order, with short names, granted requests and blocks that can be
freed: every call returns, and every reply is the one of the file store. -/
theorem vfs_refines_store (tasks : List Nat) (s : Vfs) (events : List (Nat × FsCall))
    (h : Mounted tasks s)
    (hmeets : Meets FileSession.step
      (fun σ e => σ.Valid tasks e ∧ FileSession.Short e ∧ σ.Granted e ∧ σ.Frees e)
      (FileSession.start s) events) :
    ∃ final, run FileSession.step (FileSession.start s) events = some final ∧
      final.replies = FileStore.empty.replies events := by
  obtain ⟨objs, rdir, hrep⟩ := h.represents
  exact FileSession.run_replies hrep (fun _ hx => absurd hx List.not_mem_nil) hmeets

/-! ## A machine -/

/-- A root directory is made and mounted. -/
def Vfs.boot (s : Vfs) : Vfs :=
  match s.ramfsInit with
  | .ok (root, s) => (s.vfsMount [Vfs.slash] root).2
  | .error s => s

/-- The heap after a request of another part of the kernel. -/
def HeapState.granting (s : HeapState) (size : Nat) : HeapState :=
  ((s.alloc size).map Prod.snd).getD s

theorem HeapState.Inv.granting {s : HeapState} (h : s.Inv) {size : Nat}
    (hsize : size + 15 < 2 ^ 32) : (s.granting size).Inv := by
  obtain ⟨p, s', hrun, ha⟩ := h.alloc hsize
  rw [HeapState.granting, hrun]
  exact ha.inv

/-- A machine with an empty heap. -/
def sampleEmpty : Vfs := ⟨HeapState.init (fun _ => 0) HeapState.samplePmm, 0, 0, false⟩

/-- Its file system. -/
def sampleBoot : Vfs := sampleEmpty.boot

/-- A task is created, and someone asks for `size` bytes more. -/
def sampleMachine (size : Nat) : Vfs :=
  { sampleBoot with heap := (sampleBoot.heap.granting taskSize).granting size }

/-- The task of that machine. -/
def sampleTask : Nat := 0x1000C0

theorem sampleMachine_mounted {size : Nat} (hsize : size ∈ [16, 3464]) :
    Mounted [sampleTask] (sampleMachine size) := by
  have hboot : Mounted [] sampleBoot := by
    have hvalue : (sampleEmpty.ramfsInit.toOption.map Prod.fst) = some 0x100068 := by
      decide +kernel
    cases hrun : sampleEmpty.ramfsInit with
    | error t =>
        rw [hrun] at hvalue
        cases hvalue
    | ok r =>
        rw [hrun] at hvalue
        obtain ⟨root, s'⟩ := r
        obtain rfl : root = 0x100068 := Option.some.inj hvalue
        rw [sampleBoot, Vfs.boot, hrun]
        exact Vfs.ramfsInit_mounted (HeapState.init_inv _ HeapState.samplePmm_wf) hrun (by decide)
  have hinv : (sampleMachine size).heap.Inv :=
    (hboot.heap.granting (by decide)).granting (by
      simp only [List.mem_cons, List.not_mem_nil, or_false] at hsize
      omega)
  have hfields : ∀ size ∈ [16, 3464], let s := sampleMachine size
      s.heap.live s.gRoot = some vfsNodeSize ∧ s.field s.gRoot typeOff = vfsTypeDir ∧
      s.heap.live (s.field s.gRoot fsDataOff) = some ramfsNodeSize ∧
      s.field (s.field s.gRoot fsDataOff) typeOff = vfsTypeDir ∧
      s.field (s.field s.gRoot fsDataOff) childrenOff = 0 ∧
      bytesAt s.mem (s.field s.gRoot fsDataOff + nameOff) 2 = [Vfs.slash, 0] ∧
      s.heap.live sampleTask = some taskSize ∧ s.field s.gRoot fsDataOff ≠ sampleTask ∧
      ∀ i < maxFdPerTask, s.field sampleTask (Vfs.fdOff i) = 0 := by
    decide +kernel
  obtain ⟨hroot, htype, hnode, hnodeType, hchildren, hname, htask, hapart, hclosed⟩ :=
    hfields size hsize
  obtain ⟨hslash, hrest⟩ := List.cons_eq_cons.mp hname
  refine ⟨hinv, hroot, htype, hnode, hnodeType, ⟨?_, ?_, by decide, by decide⟩, hchildren, ?_, ?_,
    ?_⟩
  · exact congrArg (· :: []) hslash
  · exact (List.cons_eq_cons.mp hrest).1
  · simpa using htask
  · simpa using hapart
  · simpa using hclosed

/-- A file is written through one descriptor and read through another. -/
def sampleCalls : List (Nat × FsCall) :=
  [(sampleTask, .open [0x61] 0), (sampleTask, .open [0x61] 0), (sampleTask, .write 0 [1, 2, 3]),
    (sampleTask, .read 1 2), (sampleTask, .read 1 9), (sampleTask, .close 0),
    (sampleTask, .write 0 [5]), (sampleTask, .open [0x62] 0)]

/-- The refinement applied to these calls. -/
theorem vfs_refines_store_sample :
    ∃ final, run FileSession.step (FileSession.start (sampleMachine 16)) sampleCalls = some final ∧
      final.replies = FileStore.empty.replies sampleCalls :=
  vfs_refines_store [sampleTask] (sampleMachine 16) sampleCalls
    (sampleMachine_mounted (by decide)) (by decide +kernel)

/-- Thirty-two bytes whose middle looks like the header of a block. -/
def forgedBytes : Bytes :=
  List.replicate 16 7 ++ [200, 0, 0, 0, 1, 0, 0, 0] ++ List.replicate 8 9

/-- The content of the file `a` spans a page boundary when the open file of `b` is freed. -/
def forgedCalls : List (Nat × FsCall) :=
  [(sampleTask, .open [0x61] 0), (sampleTask, .open [0x61] 0), (sampleTask, .write 0 forgedBytes),
    (sampleTask, .open [0x62] 0), (sampleTask, .close 2), (sampleTask, .read 1 32)]

/-- Closing the file `b` has changed the content of the file `a`. -/
theorem vfs_not_refines_store : ¬ ∀ (tasks : List Nat) (s : Vfs) (events : List (Nat × FsCall)),
    Mounted tasks s →
    Meets FileSession.step (fun σ e => σ.Valid tasks e ∧ FileSession.Short e ∧ σ.Granted e)
      (FileSession.start s) events →
    ∃ final, run FileSession.step (FileSession.start s) events = some final ∧
      final.replies = FileStore.empty.replies events := by
  intro hclaim
  obtain ⟨final, hrun, hreplies⟩ := hclaim [sampleTask] (sampleMachine 3464) forgedCalls
    (sampleMachine_mounted (by decide)) (by decide +kernel)
  have hvalue : (run FileSession.step (FileSession.start (sampleMachine 3464)) forgedCalls).map
      (fun σ => decide (σ.replies = FileStore.empty.replies forgedCalls)) = some false := by
    decide +kernel
  rw [hrun, Option.map_some, hreplies] at hvalue
  simp at hvalue

end Kumo
