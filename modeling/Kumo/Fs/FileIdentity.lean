import Kumo.Fs.FileRuns

/-!
# File identity

The names of the files in the root directory are distinct, and opening a path twice leads to
the same node, so that what is written through one descriptor is read through the other. This
rests on `path_next`, `ramfs_lookup` and `ramfs_create` agreeing on names. They do up to 63
bytes: a longer name is created cut, and looked up as a directory of that name.
-/

namespace Kumo

open Memory Transition Content

namespace Vfs

/-- The head of the list of the root's children. -/
def rootChildren (s : Vfs) : Nat := s.field (s.field s.gRoot fsDataOff) childrenOff

/-- The names along a list of children. -/
def childNames (m : Memory) : Nat → Nat → List Bytes
  | 0, _ => []
  | fuel + 1, child =>
      if child = 0 then []
      else loadName m (child + nameOff) 64 ::
        childNames m fuel (m.load32 (child + siblingOff))

/-- The names of the files in the root directory. -/
def rootNames (s : Vfs) : List Bytes := childNames s.mem walkFuel s.rootChildren

end Vfs

namespace FileSession

/-- A name that is too long is not, when it is cut, the name of a file. -/
def NewIfCut (σ : FileSession) (e : Nat × FsCall) : Prop :=
  match e.2 with
  | .open name _ => nameMax < name.length →
      Vfs.findChild σ.vfs.mem (name.take nameMax) walkFuel σ.vfs.rootChildren = some 0
  | _ => True

instance (σ : FileSession) : (e : Nat × FsCall) → Decidable (σ.NewIfCut e)
  | (_, .open name _) => inferInstanceAs (Decidable (nameMax < name.length → _ = some 0))
  | (_, .read ..) => isTrue trivial
  | (_, .write ..) => isTrue trivial
  | (_, .close _) => isTrue trivial

/-- Paths that were opened twice led to the same node, and no two files have the same name. -/
structure OneNode (σ : FileSession) : Prop where
  same : ∀ x ∈ σ.opened, ∀ y ∈ σ.opened, x.1 = y.1 → x.2 = y.2
  names : σ.vfs.rootNames.Nodup

/-- What a write puts into a file is read through every descriptor that leads to its node. -/
def WriteSeen (tasks : List Nat) (σ : FileSession) (e : Nat × FsCall) (σ' : FileSession) : Prop :=
  let s := σ.vfs.runBy e.1
  ∀ fd buf i, e.2 = .write fd buf → s.openSlot fd = some i →
    ∀ t ∈ tasks, ∀ j, j < maxFdPerTask → σ'.vfs.field t (Vfs.fdOff j) ≠ 0 →
      (σ'.vfs.runBy t).openedNode j = s.openedNode i →
      σ'.vfs.ramfsRead (σ'.vfs.field (σ'.vfs.field t (Vfs.fdOff j)) fileNodeOff)
        (s.field (s.field s.current (Vfs.fdOff i)) fileOffsetOff) buf.length =
          ((buf.length : Int), buf)

end FileSession

variable {tasks : List Nat} {s s' : Vfs} {a a' : FileStore} {objs objs' : Objects}
  {rdir t i head : Nat} {entries entries' : List Entry} {fds fds' : Nat → Nat → Nat}
  {σ σ' : FileSession} {e : Nat × FsCall}

/-- The names along the list are those of the entries. -/
theorem EntryList.childNames (hl : EntryList objs head entries) (hs : Stores s.heap objs)
    {fuel : Nat} (hfuel : entries.length < fuel) :
    Vfs.childNames s.mem fuel head = entries.map Entry.name := by
  induction entries generalizing head fuel with
  | nil =>
      obtain ⟨fuel, rfl⟩ := Nat.exists_eq_succ_of_ne_zero (by omega : fuel ≠ 0)
      obtain rfl := hl
      rw [Vfs.childNames, if_pos rfl]
      rfl
  | cons e entries ih =>
      obtain ⟨fuel, rfl⟩ := Nat.exists_eq_succ_of_ne_zero (by omega : fuel ≠ 0)
      obtain ⟨rfl, next, hnode, hrest⟩ := hl
      have hat := Vfs.field_ramfsNode hs hnode
      have hnext : s.mem.load32 (e.node + siblingOff) = next := hat.next
      have hname : loadName s.mem (e.node + nameOff) 64 = e.name :=
        hat.name.loadName_eq (Nat.le_succ_of_le hat.name.short)
      rw [Vfs.childNames, if_neg (hs.ne_zero hnode), hname, hnext,
        ih hrest (by simpa using hfuel), List.map_cons]

/-- The list of the root's children, as it is found in memory. -/
theorem RootList.rootChildren {gRoot : Nat} (hd : RootList objs gRoot rdir entries)
    (hs : Stores s.heap objs) (hroot : s.gRoot = gRoot) : EntryList objs s.rootChildren entries := by
  subst hroot
  obtain ⟨n, hn, _, hlist⟩ := hd.children
  have hfs : s.field s.gRoot fsDataOff = rdir := (Vfs.field_vfsNode hs hd.root).2
  have hhead : s.field rdir childrenOff = n.children := (Vfs.field_ramfsNode hs hn).children
  rw [Vfs.rootChildren, hfs, hhead]
  exact hlist

/-- The names of the root's children, as they are found in memory. -/
theorem RootList.rootNames (hd : RootList objs s.gRoot rdir entries) (hs : Stores s.heap objs) :
    s.rootNames = entries.map Entry.name :=
  (hd.rootChildren hs rfl).childNames hs (hd.length_lt hs)

/-- The files that the heap represents have distinct names. -/
theorem Represents.rootNames (h : Represents tasks s a objs rdir entries fds) :
    s.rootNames = entries.map Entry.name ∧ s.rootNames.Nodup := by
  have hnames := h.dir.rootList.rootNames h.stores
  exact ⟨hnames, by rw [hnames]; exact h.dir.names⟩

/-- A record of nodes that the files have is a record of one node for each path. -/
theorem Represents.oneNode (h : Represents tasks σ.vfs a objs rdir entries fds)
    (hrec : Recorded σ.opened entries) : σ.OneNode := by
  refine ⟨fun x hx y hy hxy => ?_, h.rootNames.2⟩
  obtain ⟨e, he, hname, hnode⟩ := hrec x hx
  obtain ⟨e', he', hname', hnode'⟩ := hrec y hy
  rw [← hnode, ← hnode', h.dir.eq_of_name he he' (by rw [hname, hname', hxy])]

/-- A name that is cut and not found is new. -/
theorem Represents.opensOnce (h : Represents tasks σ.vfs a objs rdir entries fds)
    (hnew : σ.NewIfCut e) :
    ∀ name flags, e.2 = .open name flags → FileName name → OpensOnce entries name := by
  intro name flags hopen hname hlong x hx hxname
  simp only [FileSession.NewIfCut, hopen] at hnew
  have hfind := (h.dir.rootList.rootChildren h.stores rfl).findChild h.stores
    hname.take.noNul (List.length_take_le _ _) (h.dir.rootList.length_lt h.stores)
  rw [hnew hlong] at hfind
  cases hf : entries.find? fun e => e.name = name.take nameMax with
  | none =>
      rw [List.find?_eq_none] at hf
      simpa [hxname] using hf x hx
  | some y =>
      rw [hf] at hfind
      obtain ⟨next, hnode⟩ := h.dir.node (Directory.find_mem hf).1
      exact h.stores.ne_zero hnode (Option.some.inj hfind).symm

/-- A write is read back through every descriptor that leads to the node. -/
theorem Represents.writeSeen {fd : Int} {buf : Bytes} {j : Nat}
    (h : Represents tasks s a objs rdir entries fds) (ht : s.current ∈ tasks)
    (h' : Represents tasks s' (a.call s.current (.write fd buf)).2 objs' rdir entries' fds')
    (hkept : EntriesKept entries entries') (hopen : s.openSlot fd = some i)
    (h32 : s.field (s.field s.current (Vfs.fdOff i)) fileOffsetOff + buf.length < 2 ^ 32)
    (ht' : t ∈ tasks) (hj : j < maxFdPerTask) (hword : s'.field t (Vfs.fdOff j) ≠ 0)
    (hnode : (s'.runBy t).openedNode j = s.openedNode i) :
    s'.ramfsRead (s'.field (s'.field t (Vfs.fdOff j)) fileNodeOff)
      (s.field (s.field s.current (Vfs.fdOff i)) fileOffsetOff) buf.length =
        ((buf.length : Int), buf) := by
  -- the descriptor that was written
  have hdesc := h.openSlot ht fd
  rw [hopen] at hdesc
  obtain ⟨⟨i', name, offset⟩, hd, hi'⟩ := Option.map_eq_some_iff.mp hdesc.symm
  obtain rfl : i' = i := hi'
  obtain ⟨hi, hslot, -⟩ := h.descriptor ht hd
  obtain ⟨e, he, hename, henode⟩ := h.openedNode ht hi hslot
  rw [(h.openSlot_of ht hd).2] at h32 ⊢
  -- the descriptor that is read
  rw [h'.field ht' hj] at hword ⊢
  have hat := h'.slot t ht' j hj
  cases hs : (a.call s.current (.write fd buf)).2.slots t j with
  | none =>
      rw [hs] at hat
      exact absurd hat hword
  | some slot =>
      rw [hs] at hat
      obtain ⟨node, v, x, hfile, hv, hx, hfs, -⟩ := hat
      have hfileAt : VfsFile.At s'.mem (fds' t j) ⟨node, _⟩ := h'.stores.here _ _ hfile
      have hnodeF : s'.field (fds' t j) fileNodeOff = node := hfileAt.node
      have hxnode : x.node = (s'.runBy t).openedNode j := by
        have hword : (s'.runBy t).field t (Vfs.fdOff j) = fds' t j := h'.field ht' hj
        rw [Vfs.openedNode]
        show _ = s'.field (s'.field (s'.field t (Vfs.fdOff j)) fileNodeOff) fsDataOff
        rw [h'.field ht' hj, hnodeF, (Vfs.field_vfsNode h'.stores hv).2, hfs]
      obtain ⟨e', he', hnode', hname'⟩ := hkept e he
      have hxe : x = e' := h'.dir.eq_of_node hx he' (by rw [hxnode, hnode', hnode, henode])
      subst hxe
      -- both are the same file, which has the new content
      have hcontent : x.content =
          if buf = [] then a.content name else overwrite 0 (a.content name) offset buf := by
        have hfiles := h'.content hx
        rw [hname', hename] at hfiles
        have hcall : (a.call s.current (.write fd buf)).2 = ((a.setFile name
            (if buf = [] then a.content name else overwrite 0 (a.content name) offset buf)).setSlot
            s.current i' (some (name, offset + buf.length))) := by
          simp only [FileStore.call, hd]
        rw [hcall] at hfiles
        have hset : (a.setFile name (if buf = [] then a.content name
            else overwrite 0 (a.content name) offset buf)).files name = some _ :=
          Function.update_self ..
        exact (Option.some.inj (hset.symm.trans hfiles)).symm
      have hslice : slice x.content offset buf.length = buf := by
        rw [hcontent]
        split
        · next hnil => rw [hnil]; rfl
        · exact slice_overwrite _ _ _ _
      rw [hnodeF, (h'.dir.at hx).read h'.stores hv hfs h32, hslice]

/-- The invariant of runs: the heap represents some store, and the record is true. -/
def FileSession.Sound (tasks : List Nat) (rdir : Nat) (σ : FileSession) : Prop :=
  ∃ a objs entries fds, Represents tasks σ.vfs a objs rdir entries fds ∧ Recorded σ.opened entries

/-- One call. -/
theorem FileSession.Sound.step (h : σ.Sound tasks rdir) (hvalid : σ.Valid tasks e)
    (hnew : σ.NewIfCut e) (hg : σ.Granted e) (hfree : σ.Frees e) :
    ∃ σ', FileSession.step σ e = some σ' ∧ σ'.Sound tasks rdir ∧ σ'.OneNode ∧
      FileSession.WriteSeen tasks σ e σ' := by
  obtain ⟨a, objs, entries, fds, h, hrec⟩ := h
  have honce : ∀ name flags, e.2 = .open name flags → OpensOnce entries name := by
    intro name flags hopen
    obtain ⟨_, hname⟩ := hvalid
    simp only [hopen] at hname
    exact h.opensOnce hnew name flags hopen hname
  obtain ⟨σ', objs', entries', fds', hstep, _, hkept, hrec', h'⟩ :=
    FileSession.step_spec h hrec hvalid honce hg hfree
  refine ⟨σ', hstep, ⟨_, objs', entries', fds', h', hrec'⟩, h'.oneNode hrec', ?_⟩
  intro fd buf i hwrite hopen t ht j hj hword hnode
  obtain ⟨htask, h32⟩ := hvalid
  simp only [hwrite] at h32
  rw [hwrite] at h'
  exact (h.runBy e.1).writeSeen htask h' hkept hopen (h32 i hopen) ht hj hword hnode

/-- Such calls return, and leave the file system in order. -/
theorem FileSession.run_sound {events : List (Nat × FsCall)} (h : Mounted tasks s)
    (hmeets : Meets FileSession.step
      (fun σ e => σ.Valid tasks e ∧ σ.NewIfCut e ∧ σ.Granted e ∧ σ.Frees e)
      (FileSession.start s) events) :
    Along FileSession.step (fun σ e σ' => σ'.OneNode ∧ FileSession.WriteSeen tasks σ e σ')
        (FileSession.start s) events ∧
      ∃ rdir final, run FileSession.step (FileSession.start s) events = some final ∧
        final.Sound tasks rdir := by
  obtain ⟨objs, rdir, hrep⟩ := h.represents
  have hsound : (FileSession.start s).Sound tasks rdir :=
    ⟨_, objs, _, _, hrep, fun _ hx => absurd hx List.not_mem_nil⟩
  obtain ⟨halong, final, hrun, hfinal⟩ :=
    along_of_invariant (Q := fun σ e σ' => σ'.OneNode ∧ FileSession.WriteSeen tasks σ e σ')
      (fun σ e hinv hcond => hinv.step hcond.1 hcond.2.1 hcond.2.2.1 hcond.2.2.2) hsound hmeets
  exact ⟨halong, rdir, final, hrun, hfinal⟩

/-- While no name is cut to the name of a file, and blocks can be freed: every call returns, what
is written is read through every descriptor of the file, a path that is opened twice leads to one
node, and no two files have the same name. -/
theorem file_identity (tasks : List Nat) (s : Vfs) (events : List (Nat × FsCall))
    (h : Mounted tasks s)
    (hmeets : Meets FileSession.step
      (fun σ e => σ.Valid tasks e ∧ σ.NewIfCut e ∧ σ.Granted e ∧ σ.Frees e)
      (FileSession.start s) events) :
    Along FileSession.step (fun σ e σ' => σ'.OneNode ∧ FileSession.WriteSeen tasks σ e σ')
        (FileSession.start s) events ∧
      ∃ final, run FileSession.step (FileSession.start s) events = some final ∧ final.OneNode := by
  obtain ⟨halong, _, final, hrun, _, _, _, _, hfinal, hrec⟩ := FileSession.run_sound h hmeets
  exact ⟨halong, final, hrun, hfinal.oneNode hrec⟩

/-- The identity of files applied to calls that open a file twice. -/
theorem file_identity_sample :
    Along FileSession.step
        (fun σ e σ' => σ'.OneNode ∧ FileSession.WriteSeen [sampleTask] σ e σ')
        (FileSession.start (sampleMachine 16)) sampleCalls ∧
      ∃ final, run FileSession.step (FileSession.start (sampleMachine 16)) sampleCalls =
        some final ∧ final.OneNode :=
  file_identity [sampleTask] (sampleMachine 16) sampleCalls (sampleMachine_mounted (by decide))
    (by decide +kernel)

/-- A path with a name of 64 bytes, opened twice. -/
def longNameCalls : List (Nat × FsCall) :=
  [(sampleTask, .open (List.replicate 64 0x61) 0), (sampleTask, .open (List.replicate 64 0x61) 0)]

/-- The second open has made a second file. -/
theorem file_identity_fails : ¬ ∀ (tasks : List Nat) (s : Vfs) (events : List (Nat × FsCall)),
    Mounted tasks s →
    Meets FileSession.step (fun σ e => σ.Valid tasks e ∧ σ.Granted e) (FileSession.start s)
      events →
    ∀ final, run FileSession.step (FileSession.start s) events = some final → final.OneNode := by
  intro hclaim
  have hvalue : (run FileSession.step (FileSession.start (sampleMachine 16)) longNameCalls).map
      (fun σ => decide (∀ x ∈ σ.opened, ∀ y ∈ σ.opened, x.1 = y.1 → x.2 = y.2)) = some false := by
    decide +kernel
  obtain ⟨final, hrun, hopened⟩ := Option.map_eq_some_iff.mp hvalue
  have hone := hclaim [sampleTask] (sampleMachine 16) longNameCalls
    (sampleMachine_mounted (by decide)) (by decide +kernel) final hrun
  exact absurd hone.same (of_decide_eq_false hopened)

end Kumo
