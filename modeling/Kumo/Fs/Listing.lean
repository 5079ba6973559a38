import Kumo.Fs.FileIdentity
import Kumo.Lib.IndexScan

/-!
# Listing the root directory

The `ls` of the shell asks `vfs_readdir` for the child at index 0, 1, 2 and so on, and between
its calls other tasks may open files and so create them. `ramfs_create` puts a new child in
front, so the loop is a scan by index of a list that grows at the front: it reports every file
that it found at the beginning, and reports one twice as soon as a file is created before it
ends.
-/

namespace Kumo

open Memory Transition

/-- What the tasks do: the next call of the loop, or an open by some task. -/
inductive LsEvent where
  | readdir
  | open (t : Nat) (name : Bytes) (flags : Nat)
  deriving DecidableEq

/-- The loop of `cmd_ls_handler`: its index, what it has printed, and whether it is done. -/
structure Listing where
  vfs : Vfs
  index : Nat
  names : List Bytes
  finished : Bool

namespace Listing

/-- One call; `none` when it does not return, or when the loop has already ended. -/
def step (σ : Listing) : LsEvent → Option Listing
  | .readdir =>
      if σ.finished then none
      else match σ.vfs.vfsReaddir [Vfs.slash] σ.index with
        | .error _ => none
        | .ok ((r, name), s) =>
            if r ≠ 0 then some { σ with vfs := s, finished := true }
            else some ⟨s, (σ.index + 1) % 2 ^ 32, σ.names ++ [name], false⟩
  | .open t name flags =>
      match (σ.vfs.runBy t).vfsOpen (Vfs.slash :: name) flags with
      | .error _ => none
      | .ok (_, s) => some { σ with vfs := s }

/-- The loop before its first call. -/
def start (s : Vfs) : Listing := ⟨s, 0, [], false⟩

/-- An open of a path `/name` by one of the tasks that is granted its requests, and makes no second
file of a name. -/
def Opens (tasks : List Nat) (σ : Listing) : LsEvent → Prop
  | .readdir => True
  | .open t name flags =>
      let call := (t, FsCall.open name flags)
      (FileSession.start σ.vfs).Valid tasks call ∧ (FileSession.start σ.vfs).NewIfCut call ∧
        (FileSession.start σ.vfs).Granted call

/-- The call creates a file: its task has a free slot, and no file has the name. -/
def Creates (σ : Listing) : LsEvent → Prop
  | .readdir => False
  | .open t name _ => (σ.vfs.freeSlot t maxFdPerTask 0).isSome ∧
      Vfs.findChild σ.vfs.mem (name.take nameMax) walkFuel σ.vfs.rootChildren = some 0

/-- The call creates no file before the loop has ended. -/
def NoCreation (σ : Listing) (e : LsEvent) : Prop := σ.finished = true ∨ ¬ σ.Creates e

instance (tasks : List Nat) (σ : Listing) (e : LsEvent) : Decidable (σ.Opens tasks e) := by
  cases e <;> unfold Opens <;> infer_instance

instance (σ : Listing) (e : LsEvent) : Decidable (σ.Creates e) := by
  cases e <;> unfold Creates <;> infer_instance

instance (σ : Listing) (e : LsEvent) : Decidable (σ.NoCreation e) := by
  unfold NoCreation
  infer_instance

end Listing

/-- The file system is in order: the heap represents some store. -/
def Vfs.Wf (tasks : List Nat) (s : Vfs) : Prop :=
  ∃ a objs rdir entries fds, Represents tasks s a objs rdir entries fds

variable {tasks : List Nat} {s s' : Vfs} {a : FileStore} {objs : Objects}
  {rdir t head index : Nat} {entries : List Entry} {fds : Nat → Nat → Nat}
  {σ σ' final : Listing} {e : LsEvent} {events : List LsEvent}

theorem Mounted.wf (h : Mounted tasks s) : s.Wf tasks := by
  obtain ⟨objs, rdir, hrep⟩ := h.represents
  exact ⟨_, objs, rdir, _, _, hrep⟩

/-! ## One call -/

/-- The walk of `ramfs_readdir` finds the entry at the index. -/
theorem EntryList.childAt (hl : EntryList objs head entries) (hs : Stores s.heap objs)
    {fuel i : Nat} (hfuel : entries.length < fuel) (hi : i ≤ index) (h32 : index < 2 ^ 32) :
    Vfs.childAt s.mem index fuel i head =
      some ((entries[index - i]?.map Entry.node).getD 0) := by
  induction entries generalizing head fuel i with
  | nil =>
      obtain ⟨fuel, rfl⟩ := Nat.exists_eq_succ_of_ne_zero (by omega : fuel ≠ 0)
      obtain rfl := hl
      rw [Vfs.childAt, if_pos rfl]
      rfl
  | cons e entries ih =>
      obtain ⟨fuel, rfl⟩ := Nat.exists_eq_succ_of_ne_zero (by omega : fuel ≠ 0)
      obtain ⟨rfl, next, hnode, hrest⟩ := hl
      have hat := Vfs.field_ramfsNode hs hnode
      have hnext : s.mem.load32 (e.node + siblingOff) = next := hat.next
      rw [Vfs.childAt, if_neg (hs.ne_zero hnode), hnext]
      by_cases heq : i = index
      · rw [if_pos heq, heq, Nat.sub_self]
        rfl
      · rw [if_neg heq, Nat.mod_eq_of_lt (by omega),
          ih hrest (by simpa using hfuel) (by omega), show index - i = index - (i + 1) + 1 by omega,
          List.getElem?_cons_succ]

/-- `vfs_readdir` of a path without components reads the root directory. -/
theorem RootList.readdir {path : Bytes} (hd : RootList objs s.gRoot rdir entries)
    (hs : Stores s.heap objs) (hpath : pathNext path = none) (h32 : index < 2 ^ 32) :
    s.vfsReaddir path index =
      match entries[index]? with
      | none => .ok ((-1, []), s)
      | some e => .ok ((0, e.name), s) := by
  obtain ⟨htype, _⟩ := Vfs.field_vfsNode hs hd.root
  have hroot := hs.ne_zero hd.root
  have hlookup : s.vfsLookup path = .ok (s.gRoot, s) := by
    rw [Vfs.vfsLookup, if_neg hroot, Vfs.lookupFrom, hpath]
  have hchild := (hd.rootChildren hs rfl).childAt hs (i := 0) (hd.length_lt hs)
    (Nat.zero_le index) h32
  rw [Nat.sub_zero] at hchild
  unfold Vfs.vfsReaddir Vfs.ramfsReaddir
  simp only [hlookup, bind, Except.bind, pure, Except.pure, if_neg hroot, htype, ne_eq,
    not_true_eq_false, if_false]
  rw [show s.field (s.field s.gRoot fsDataOff) childrenOff = s.rootChildren from rfl, hchild]
  cases he : entries[index]? with
  | none => rfl
  | some e =>
      obtain ⟨next, hnode⟩ := hd.node (List.mem_of_getElem? he)
      have hat := (Vfs.field_ramfsNode hs hnode).name
      simp only [Option.map_some, Option.getD_some, if_neg (hs.ne_zero hnode),
        hat.loadName_eq hat.short]

/-- The walk of `ramfs_lookup` fails just on the names that no file has. -/
theorem Represents.findChild_zero (h : Represents tasks s a objs rdir entries fds) {name : Bytes}
    (h0 : (0 : BitVec 8) ∉ name) (hshort : name.length ≤ nameMax) :
    Vfs.findChild s.mem name walkFuel s.rootChildren = some 0 ↔ name ∉ s.rootNames := by
  rw [(h.dir.rootList.rootChildren h.stores rfl).findChild h.stores h0 hshort (h.dir.rootList.length_lt h.stores),
    h.rootNames.1, Option.some.injEq]
  cases hf : entries.find? fun e => e.name = name with
  | none =>
      rw [List.find?_eq_none] at hf
      refine ⟨fun _ hmem => ?_, fun _ => rfl⟩
      obtain ⟨e, he, rfl⟩ := List.mem_map.mp hmem
      exact hf e he (by simp)
  | some e =>
      obtain ⟨he, rfl⟩ := Directory.find_mem hf
      obtain ⟨next, hnode⟩ := h.dir.node he
      exact ⟨fun h0 => absurd h0 (h.stores.ne_zero hnode),
        fun hmem => absurd (List.mem_map_of_mem he) hmem⟩

/-- The loop as a scan of the names of the directory. -/
def Listing.scan (σ : Listing) : IndexScan Bytes :=
  ⟨σ.vfs.rootNames, σ.index, σ.names, σ.finished⟩

namespace Listing

/-- A call of the loop is a step of the scan. -/
theorem readdir_spec (h : σ.vfs.Wf tasks) (hrun : σ.finished = false)
    (hbound : σ.index ≤ σ.vfs.rootNames.length) :
    ∃ σ', step σ .readdir = some σ' ∧ σ'.vfs.Wf tasks ∧ σ'.scan = σ.scan.next := by
  obtain ⟨a, objs, rdir, entries, fds, h⟩ := h
  have hnames := h.rootNames.1
  have hlen := h.dir.rootList.length_lt h.stores
  rw [hnames, List.length_map] at hbound
  simp only [walkFuel] at hlen
  have hread := h.dir.rootList.readdir h.stores (show pathNext [Vfs.slash] = none from rfl)
    (show σ.index < 2 ^ 32 by omega)
  have hitem : σ.scan.items[σ.scan.index]? = entries[σ.index]?.map Entry.name := by
    show σ.vfs.rootNames[σ.index]? = _
    rw [hnames, List.getElem?_map]
  cases he : entries[σ.index]? with
  | none =>
      rw [he] at hread hitem
      refine ⟨{ σ with finished := true }, ?_, ⟨a, objs, rdir, entries, fds, h⟩, ?_⟩
      · simp [step, hrun, hread]
      · rw [IndexScan.next_none hitem]
        rfl
  | some e =>
      rw [he] at hread hitem
      obtain ⟨hlt, _⟩ := List.getElem?_eq_some_iff.mp he
      refine ⟨⟨σ.vfs, (σ.index + 1) % 2 ^ 32, σ.names ++ [e.name], false⟩, ?_,
        ⟨a, objs, rdir, entries, fds, h⟩, ?_⟩
      · simp [step, hrun, hread]
      · rw [IndexScan.next_some hitem, Nat.mod_eq_of_lt (by omega)]
        simp only [scan, hrun]

/-- An open by a task is a put: of the new name if it creates a file, of nothing else. -/
theorem open_spec (h : σ.vfs.Wf tasks) {name : Bytes} {flags : Nat}
    (hopen : σ.Opens tasks (.open t name flags)) :
    ∃ σ', step σ (.open t name flags) = some σ' ∧ σ'.vfs.Wf tasks ∧
      σ'.scan = σ.scan.put
        (if σ.Creates (.open t name flags) then [name.take nameMax] else []) := by
  obtain ⟨a, objs, rdir, entries, fds, h⟩ := h
  obtain ⟨⟨ht, hname⟩, hnew, hg⟩ := hopen
  have ht : t ∈ tasks := ht
  have hname : FileName name := hname
  have honce := h.opensOnce (σ := FileSession.start σ.vfs) hnew name flags rfl hname
  have hg : (Vfs.after ((σ.vfs.runBy t).vfsOpen (Vfs.slash :: name) flags)).refused = false := by
    rw [FileSession.Granted, Vfs.fsCall, Vfs.after_map _ fun r => (r, [])] at hg
    exact hg
  obtain ⟨s', objs', entries', fds', hrun, hsame, _, hnames, h'⟩ :=
    (h.runBy t).open ht hname honce hg
  refine ⟨{ σ with vfs := s' }, by rw [step, hrun], ⟨_, objs', rdir, entries', fds', h'⟩, ?_⟩
  have hslot : σ.vfs.freeSlot t maxFdPerTask 0 = a.lowestFree t := h.freeSlot ht
  have hcreates : σ.Creates (.open t name flags) ↔
      (a.lowestFree t).isSome ∧ name.take nameMax ∉ σ.vfs.rootNames := by
    rw [Creates, hslot, h.findChild_zero hname.take.noNul (List.length_take_le _ _)]
  have hnames' : s'.rootNames =
      (if σ.Creates (.open t name flags) then [name.take nameMax] else []) ++ σ.vfs.rootNames := by
    rw [h'.rootNames.1, hnames, ← h.rootNames.1, addName]
    simp only [hcreates, show (σ.vfs.runBy t).current = t from rfl]
    by_cases hfree : (a.lowestFree t).isSome
    · by_cases hmem : name.take nameMax ∈ σ.vfs.rootNames
      · simp [hfree, hmem]
      · simp [hfree, hmem]
    · simp [hfree]
  rw [scan, hnames']
  rfl

/-! ## Runs -/

/-- One call, from a state whose scan covers the names of the beginning. -/
theorem step_covers {items : List Bytes} (h : σ.vfs.Wf tasks) (hcov : σ.scan.Covers items)
    (hopen : σ.Opens tasks e) (hstep : step σ e = some σ') :
    σ'.vfs.Wf tasks ∧ σ'.scan.Covers items ∧
      (σ'.scan = σ.scan.next ∧ e = .readdir ∧ σ.finished = false ∨
        ∃ new, σ'.scan = σ.scan.put new ∧ (new = [] ↔ ¬ σ.Creates e)) := by
  cases e with
  | readdir =>
      have hrun : σ.finished = false := by
        cases hfin : σ.finished with
        | false => rfl
        | true =>
            rw [step, if_pos hfin] at hstep
            cases hstep
      obtain ⟨σ1, hstep1, hwf, hscan⟩ := readdir_spec h hrun hcov.bound
      obtain rfl := Option.some.inj (hstep1.symm.trans hstep)
      exact ⟨hwf, by rw [hscan]; exact hcov.next hrun, .inl ⟨hscan, rfl, hrun⟩⟩
  | «open» t name flags =>
      obtain ⟨σ1, hstep1, hwf, hscan⟩ := open_spec h hopen
      obtain rfl := Option.some.inj (hstep1.symm.trans hstep)
      refine ⟨hwf, by rw [hscan]; exact hcov.put _, .inr ⟨_, hscan, ?_⟩⟩
      split
      · next hc => simp [hc]
      · next hc => simp [hc]

/-- Every call of a run, up to the last one. -/
theorem run_covers {items : List Bytes} (h : σ.vfs.Wf tasks) (hcov : σ.scan.Covers items)
    (hmeets : Meets step (Opens tasks) σ events) (hrun : run step σ events = some final) :
    final.scan.Covers items :=
  ((along_of_step (Q := fun _ _ _ => True) (I := fun σ => σ.vfs.Wf tasks ∧ σ.scan.Covers items)
    (fun _ _ _ hinv hopen hstep =>
      have h' := step_covers hinv.1 hinv.2 hopen hstep
      ⟨⟨h'.1, h'.2.1⟩, trivial⟩) ⟨h, hcov⟩ hmeets).2 final hrun).2

/-- After its last call the loop reports nothing, and creations do not matter. -/
theorem run_finished (hfin : σ.finished = true) (hrun : run step σ events = some final) :
    final.names = σ.names ∧ Meets step NoCreation σ events := by
  induction events generalizing σ with
  | nil =>
      obtain rfl := Option.some.inj hrun
      exact ⟨rfl, trivial⟩
  | cons e events ih =>
      obtain ⟨σ', hstep, hrest⟩ := Option.bind_eq_some_iff.mp hrun
      have hkeep : σ'.names = σ.names ∧ σ'.finished = true := by
        cases e with
        | readdir =>
            rw [step, if_pos hfin] at hstep
            cases hstep
        | «open» t name flags =>
            rw [step] at hstep
            split at hstep
            · cases hstep
            · obtain rfl := Option.some.inj hstep
              exact ⟨rfl, hfin⟩
      obtain ⟨hnames, hmeets⟩ := ih hkeep.2 hrest
      refine ⟨hnames.trans hkeep.1, .inl hfin, fun next hnext => ?_⟩
      obtain rfl := Option.some.inj (hstep.symm.trans hnext)
      exact hmeets

/-- A loop that has a repetition ahead ends with a repetition. -/
theorem run_repeats {items : List Bytes} (h : σ.vfs.Wf tasks) (hcov : σ.scan.Covers items)
    (hrep : σ.scan.Repeats) (hmeets : Meets step (Opens tasks) σ events)
    (hrun : run step σ events = some final) (hfin : final.finished = true) :
    ¬ final.names.Nodup := by
  induction events generalizing σ with
  | nil =>
      obtain rfl := Option.some.inj hrun
      exact hrep.not_nodup hfin
  | cons e events ih =>
      obtain ⟨σ', hstep, hrest⟩ := Option.bind_eq_some_iff.mp hrun
      obtain ⟨hwf, hcov', hscan⟩ := step_covers h hcov hmeets.1 hstep
      refine ih hwf hcov' ?_ (hmeets.2 σ' hstep) hrest
      rcases hscan with ⟨hscan, _, _⟩ | ⟨new, hscan, _⟩
      · rw [hscan]
        exact hrep.next hcov.bound
      · rw [hscan]
        exact hrep.put new

/-- A loop that is under way and has seen no creation repeats a name just if a file is created
before it ends. -/
theorem run_quiet {items : List Bytes} (h : σ.vfs.Wf tasks) (hitems : items.Nodup)
    (hcov : σ.scan.Covers items) (hquiet : σ.scan.Quiet items)
    (hbegun : σ.finished = true ∨ 0 < σ.index) (hmeets : Meets step (Opens tasks) σ events)
    (hrun : run step σ events = some final) (hfin : final.finished = true) :
    final.names.Nodup ↔ Meets step NoCreation σ events := by
  induction events generalizing σ with
  | nil =>
      obtain rfl := Option.some.inj hrun
      exact ⟨fun _ => trivial, fun _ => hquiet.nodup hitems⟩
  | cons e events ih =>
      by_cases hdone : σ.finished = true
      · obtain ⟨hnames, hall⟩ := run_finished hdone hrun
        rw [hnames]
        exact ⟨fun _ => hall, fun _ => hquiet.nodup hitems⟩
      have hpos := hbegun.resolve_left hdone
      obtain ⟨σ', hstep, hrest⟩ := Option.bind_eq_some_iff.mp hrun
      obtain ⟨hwf, hcov', hscan⟩ := step_covers h hcov hmeets.1 hstep
      have hmeets' := hmeets.2 σ' hstep
      have hcons : Meets step NoCreation σ (e :: events) ↔
          σ.NoCreation e ∧ Meets step NoCreation σ' events := by
        refine and_congr_right fun _ => ⟨fun hall => hall σ' hstep, fun hall next hnext => ?_⟩
        obtain rfl := Option.some.inj (hstep.symm.trans hnext)
        exact hall
      rw [hcons]
      rcases hscan with ⟨hscan, rfl, hrunning⟩ | ⟨new, hscan, hnew⟩
      · have hbegun' : σ'.finished = true ∨ 0 < σ'.index := by
          show σ'.scan.finished = true ∨ 0 < σ'.scan.index
          rw [hscan]
          cases ha : σ.scan.items[σ.scan.index]? with
          | none => exact .inl (by rw [IndexScan.next_none ha])
          | some a => exact .inr (by rw [IndexScan.next_some ha]; exact Nat.succ_pos _)
        rw [ih hwf hcov' (by rw [hscan]; exact hquiet.next) hbegun' hmeets' hrest]
        exact ⟨fun hall => ⟨.inr id, hall⟩, And.right⟩
      · by_cases hc : σ.Creates e
        · have hne : new ≠ [] := fun heq => hnew.mp heq hc
          have hrepeat := hquiet.repeats_put (by simpa [scan] using hdone) hpos hcov.bound hne
          rw [← hscan] at hrepeat
          refine iff_of_false (run_repeats hwf hcov' hrepeat hmeets' hrest hfin) ?_
          rintro ⟨hdone' | hno, _⟩
          · exact hdone hdone'
          · exact hno hc
        · obtain rfl := hnew.mpr hc
          rw [IndexScan.put_nil] at hscan
          have hindex : σ'.index = σ.index := congrArg IndexScan.index hscan
          rw [ih hwf hcov' (by rw [hscan]; exact hquiet) (.inr (by rw [hindex]; exact hpos)) hmeets'
            hrest]
          exact ⟨fun hall => ⟨.inr hc, hall⟩, And.right⟩

end Listing

/-- A loop that ends has reported every file it found at the beginning, and reports no name twice
just if no file is created between its first call and its last. -/
theorem ls_exact_iff (tasks : List Nat) (s : Vfs) (events : List LsEvent) (final : Listing)
    (h : s.Wf tasks)
    (hmeets : Meets Listing.step (Listing.Opens tasks) (Listing.start s) (.readdir :: events))
    (hrun : run Listing.step (Listing.start s) (.readdir :: events) = some final)
    (hfin : final.finished = true) :
    (final.names.Nodup ∧ ∀ name ∈ s.rootNames, name ∈ final.names) ↔
      Meets Listing.step Listing.NoCreation (Listing.start s) (.readdir :: events) := by
  have hnodup : s.rootNames.Nodup := by
    obtain ⟨a, objs, rdir, entries, fds, hrep⟩ := h
    exact hrep.rootNames.2
  have hcov : (Listing.start s).scan.Covers s.rootNames := IndexScan.covers_start _
  have hquiet : (Listing.start s).scan.Quiet s.rootNames := IndexScan.quiet_start _
  have hall := (Listing.run_covers h hcov hmeets hrun).ends hfin
  -- the first call finds the end or makes the index positive
  obtain ⟨σ, hstep, hwf, hscan⟩ := Listing.readdir_spec (σ := Listing.start s) h rfl hcov.bound
  have hbegun : σ.finished = true ∨ 0 < σ.index := by
    show σ.scan.finished = true ∨ 0 < σ.scan.index
    rw [hscan]
    cases ha : (Listing.start s).scan.items[(Listing.start s).scan.index]? with
    | none => exact .inl (by rw [IndexScan.next_none ha])
    | some a => exact .inr (by rw [IndexScan.next_some ha]; exact Nat.succ_pos _)
  rw [run, hstep] at hrun
  have hiff := Listing.run_quiet hwf hnodup (by rw [hscan]; exact hcov.next rfl)
    (by rw [hscan]; exact hquiet.next) hbegun (hmeets.2 σ hstep) hrun hfin
  constructor
  · rintro ⟨hnames, -⟩
    refine ⟨.inr id, fun next hnext => ?_⟩
    obtain rfl := Option.some.inj (hstep.symm.trans hnext)
    exact hiff.mp hnames
  · intro hno
    exact ⟨hiff.mpr (hno.2 σ hstep), hall⟩

/-! ## A directory with one file -/

/-- The machine after its task has opened the file `a`. -/
def sampleListed : Vfs :=
  Vfs.after (((sampleMachine 16).runBy sampleTask).vfsOpen [Vfs.slash, 0x61] 0)

theorem sampleListed_wf : sampleListed.Wf [sampleTask] := by
  have hsize : 16 ∈ [16, 3464] := by decide
  have hname : FileName [0x61] := by decide
  have hgrant : (Vfs.after (((sampleMachine 16).runBy sampleTask).vfsOpen
      (Vfs.slash :: [0x61]) 0)).refused = false := by
    decide +kernel
  obtain ⟨a, objs, rdir, entries, fds, hrep⟩ := (sampleMachine_mounted hsize).wf
  obtain ⟨s', objs', entries', fds', hrun, _, _, _, h'⟩ :=
    (hrep.runBy sampleTask).open (by decide) hname (fun hlong => absurd hlong (by decide)) hgrant
  rw [sampleListed, hrun]
  exact ⟨_, objs', rdir, entries', fds', h'⟩

/-- The loop, and an open of the file that is there. -/
def sampleListing : List LsEvent := [.readdir, .open sampleTask [0x61] 0, .readdir]

/-- The listing applied to that machine. -/
theorem ls_exact_iff_sample :
    ∃ final, run Listing.step (Listing.start sampleListed) sampleListing = some final ∧
      ((final.names.Nodup ∧ ∀ name ∈ sampleListed.rootNames, name ∈ final.names) ↔
        Meets Listing.step Listing.NoCreation (Listing.start sampleListed) sampleListing) := by
  have hvalue : (run Listing.step (Listing.start sampleListed) sampleListing).map
      Listing.finished = some true := by
    decide +kernel
  obtain ⟨final, hrun, hfin⟩ := Option.map_eq_some_iff.mp hvalue
  exact ⟨final, hrun, ls_exact_iff [sampleTask] sampleListed
    [.open sampleTask [0x61] 0, .readdir] final sampleListed_wf (by decide +kernel) hrun hfin⟩

/-- A task creates the file `b` after the loop has reported the file `a`: `a` is reported again. -/
theorem ls_repeats : ¬ ∀ (tasks : List Nat) (s : Vfs) (events : List LsEvent) (final : Listing),
    s.Wf tasks →
    Meets Listing.step (Listing.Opens tasks) (Listing.start s) (.readdir :: events) →
    run Listing.step (Listing.start s) (.readdir :: events) = some final →
    final.finished = true →
    final.names.Nodup ∧ ∀ name ∈ s.rootNames, name ∈ final.names := by
  intro hclaim
  have hvalue : (run Listing.step (Listing.start sampleListed)
      [.readdir, .open sampleTask [0x62] 0, .readdir, .readdir]).map
      (fun σ => (σ.finished, σ.names)) = some (true, [[0x61], [0x61]]) := by
    decide +kernel
  obtain ⟨final, hrun, hfinal⟩ := Option.map_eq_some_iff.mp hvalue
  obtain ⟨hfin, hnames⟩ := Prod.mk.inj hfinal
  have hnodup := (hclaim [sampleTask] sampleListed
    [.open sampleTask [0x62] 0, .readdir, .readdir] final sampleListed_wf (by decide +kernel) hrun
    hfin).1
  rw [hnames] at hnodup
  exact absurd hnodup (by decide)

end Kumo
