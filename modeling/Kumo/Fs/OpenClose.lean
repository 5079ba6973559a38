import Kumo.Fs.Descriptors
import Kumo.Fs.Listing

/-!
# What opening and closing leaves in the heap

`ramfs_lookup` makes a wrapper for every file it finds, and `vfs_close` frees the open file
only: of the two blocks that `vfs_open` takes, one stays live for ever. So a program that opens and
closes files uses up the heap, while one that reads the root directory takes nothing.
-/

namespace Kumo

open Memory Content Transition

namespace Vfs

/-- `vfs_open`, and then `vfs_close` of the descriptor. -/
def openClose (s : Vfs) (path : Bytes) (flags : Nat) : Except Vfs (Int × Vfs) := do
  let (fd, s) ← s.vfsOpen path flags
  if fd < 0 then return (fd, s) else s.vfsClose fd

end Vfs

/-- A use of the file system that is over when it returns. -/
inductive FileUse
  | openClose (path : Bytes) (flags : Nat)
  | readdir (path : Bytes) (index : Nat)
  deriving DecidableEq

namespace Vfs

/-- One use, by the task `e.1`. -/
def use (s : Vfs) (e : Nat × FileUse) : Option Vfs :=
  match e.2 with
  | .openClose path flags =>
      match (s.runBy e.1).openClose path flags with
      | .error _ => none
      | .ok (_, s) => some s
  | .readdir path index =>
      match (s.runBy e.1).vfsReaddir path index with
      | .error _ => none
      | .ok (_, s) => some s

/-- The path leads to a file. -/
def HasFile (s : Vfs) (path : Bytes) : Prop :=
  (0 : BitVec 8) ∉ path ∧ match pathNext path with
    | none => False
    | some (name, rest) => pathNext rest = none ∧ name ∈ s.rootNames

/-- A task with a free descriptor opens an existing file, and gets the memory it asks for; or it
reads the root directory. -/
def Uses (tasks : List Nat) (s : Vfs) (e : Nat × FileUse) : Prop :=
  match e.2 with
  | .openClose path flags => e.1 ∈ tasks ∧ s.HasFile path ∧
      ((s.runBy e.1).freeSlot e.1 maxFdPerTask 0).isSome ∧
      (after ((s.runBy e.1).vfsOpen path flags)).refused = false
  | .readdir path index => pathNext path = none ∧ index < 2 ^ 32

/-- The open file can be freed. -/
def Releases (s : Vfs) (e : Nat × FileUse) : Prop :=
  match e.2 with
  | .openClose path flags =>
      match (s.runBy e.1).vfsOpen path flags with
      | .error _ => True
      | .ok (fd, s) => s.CanFree (s.field s.current (fdOff fd.toNat))
  | .readdir _ _ => True

instance (s : Vfs) (path : Bytes) : Decidable (s.HasFile path) :=
  match hnext : pathNext path with
  | none => isFalse fun h => by simp [HasFile, hnext] at h
  | some (name, rest) =>
      decidable_of_iff (path.all (fun c => decide (c ≠ 0)) = true ∧ (pathNext rest).isNone = true ∧
          s.rootNames.any (fun x => decide (x = name)) = true) (by
        rw [HasFile, hnext]
        simp only [List.all_eq_true, List.any_eq_true, decide_eq_true_eq, Option.isNone_iff_eq_none,
          exists_eq_right]
        exact and_congr_left fun _ => ⟨fun h h0 => h 0 h0 rfl, fun h c hc heq => h (heq ▸ hc)⟩)

instance (tasks : List Nat) (s : Vfs) (e : Nat × FileUse) : Decidable (s.Uses tasks e) := by
  obtain ⟨t, u⟩ := e
  cases u <;> unfold Uses <;> infer_instance

instance (s : Vfs) (e : Nat × FileUse) : Decidable (s.Releases e) := by
  obtain ⟨t, u⟩ := e
  cases u with
  | openClose path flags =>
      unfold Releases
      simp only
      split <;> infer_instance
  | readdir path index => exact isTrue trivial

/-- The blocks of `new` are live, and were not; everything else is as it was. -/
structure Leaked (s : Vfs) (new : List Nat) (s' : Vfs) : Prop where
  nodup : new.Nodup
  unused : ∀ p ∈ new, s.heap.live p = none
  live : ∀ p, s'.heap.live p = if p ∈ new then some vfsNodeSize else s.heap.live p

/-- The heap holds the root directory and the tasks. -/
structure Rooted (tasks : List Nat) (s : Vfs) (objs : Objects) : Prop where
  stores : Stores s.heap objs
  list : ∃ rdir entries, RootList objs s.gRoot rdir entries
  task : ∀ t ∈ tasks, ∃ fds, objs t = some (.task fds)

/-- How often files are opened and closed. -/
def pairs (events : List (Nat × FileUse)) : Nat :=
  events.countP fun e => match e.2 with
    | .openClose _ _ => true
    | .readdir _ _ => false

section Uses

variable {s s' : Vfs} {tasks new new' : List Nat} {objs : Objects} {path : Bytes}
  {flags index t i j steps : Nat} {e : Nat × FileUse} {events : List (Nat × FileUse)}

theorem Leaked.refl (s : Vfs) : Leaked s [] s :=
  ⟨List.nodup_nil, fun _ hp => absurd hp List.not_mem_nil, fun _ => rfl⟩

theorem Leaked.trans {s'' : Vfs} (h : Leaked s new s') (h' : Leaked s' new' s'') :
    Leaked s (new ++ new') s'' := by
  -- what is live after the first part is not made by the second
  have hapart : ∀ p ∈ new', p ∉ new := by
    intro p hp' hp
    have hlive := h'.unused p hp'
    rw [h.live p, if_pos hp] at hlive
    cases hlive
  refine ⟨List.Nodup.append h.nodup h'.nodup fun p hp hp' => hapart p hp' hp, fun p hp => ?_,
    fun p => ?_⟩
  · rcases List.mem_append.mp hp with hp | hp
    · exact h.unused p hp
    · have hlive := h'.unused p hp
      rwa [h.live p, if_neg (hapart p hp)] at hlive
  · rw [h'.live p, h.live p]
    by_cases hp' : p ∈ new'
    · rw [if_pos hp', if_pos (List.mem_append_right _ hp')]
    · rw [if_neg hp']
      exact if_congr (by simp [hp']) rfl rfl

/-- Blocks that are all live are not more than the kernel zone has bytes. -/
theorem Leaked.length_le (h : Leaked s new s') (hinv : s'.heap.Inv) :
    new.length ≤ userMemStart := by
  have hsub : new ⊆ List.range userMemStart := by
    intro p hp
    have hlive := h.live p
    rw [if_pos hp] at hlive
    have hb := (hinv.bounds hlive).2.2
    exact List.mem_range.mpr (by simp only [vfsNodeSize] at hb; omega)
  have hle := (List.subperm_of_subset h.nodup hsub).length_le
  rwa [List.length_range] at hle

/-- Nothing has changed just when nothing is new. -/
theorem Leaked.same_iff (h : Leaked s new s') :
    (∀ p, s'.heap.live p = s.heap.live p) ↔ new = [] := by
  constructor
  · intro hsame
    refine List.eq_nil_iff_forall_not_mem.mpr fun p hp => ?_
    have hlive := (hsame p).symm.trans (h.live p)
    rw [if_pos hp, h.unused p hp] at hlive
    cases hlive
  · rintro rfl p
    rw [h.live p, if_neg List.not_mem_nil]

/-- The slot that `vfs_open` finds is free. -/
theorem freeSlot_some (h : s.freeSlot t steps i = some j) :
    i ≤ j ∧ j < i + steps ∧ s.field t (fdOff j) = 0 := by
  induction steps generalizing i with
  | zero => cases h
  | succ steps ih =>
      rw [freeSlot] at h
      split at h
      · next hzero =>
          obtain rfl := Option.some.inj h
          exact ⟨Nat.le_refl _, by omega, hzero⟩
      · obtain ⟨h1, h2, h3⟩ := ih h
        exact ⟨by omega, by omega, h3⟩

/-- What `vfs_open` of an existing file leaves: the open file in a slot that was free, and a wrapper
that nothing else leads to. -/
structure Opened (tasks : List Nat) (s : Vfs) (i file vn : Nat) (s' : Vfs) : Prop where
  slot : s'.openSlot (i : Int) = some i
  word : s'.field s'.current (fdOff i) = file
  same : Same s s'
  wrapper : vn ≠ 0 ∧ s.heap.live vn = none
  live : s'.heap.live =
    Function.update (Function.update s.heap.live vn (some vfsNodeSize)) file (some vfsFileSize)
  unused : Function.update s.heap.live vn (some vfsNodeSize) file = none
  objects : ∃ objs fds f, Stores s'.heap objs ∧ objs file = some (.vfsFile f) ∧
    objs s'.current = some (.task fds) ∧ i < maxFdPerTask ∧
    (∃ rdir entries, RootList objs s'.gRoot rdir entries) ∧
    ∀ t ∈ tasks, ∃ fds, objs t = some (.task fds)

/-- A new object takes the place of nothing. -/
theorem Made.kept {o : FsObject} {p : Nat} (h : Made s objs o p s') (hp : p ≠ 0) :
    ∀ q o', objs q = some o' → Function.update objs p (some o) q = some o' := by
  intro q o' hq
  have hne : q ≠ p := by
    rintro rfl
    rw [h.fresh hp] at hq
    cases hq
  rw [Function.update_of_ne hne, hq]

/-- The node that `vfs_open` works with is a new wrapper of the file that exists. -/
theorem Rooted.openNode (h : Rooted tasks s objs) (hfile : s.HasFile path)
    (hg : (after (s.openNode path)).refused = false) :
    ∃ vn v s', s.openNode path = .ok (vn, s') ∧ vn ≠ 0 ∧ Made s objs (.vfsNode v) vn s' := by
  obtain ⟨rdir, entries, hlist⟩ := h.list
  obtain ⟨h0, hpath⟩ := hfile
  cases hnext : pathNext path with
  | none =>
      rw [hnext] at hpath
      exact hpath.elim
  | some next =>
      obtain ⟨name, rest⟩ := next
      rw [hnext] at hpath
      obtain ⟨hrest, hname⟩ := hpath
      rw [hlist.rootNames h.stores] at hname
      obtain ⟨e, he, hename⟩ := List.mem_map.mp hname
      obtain ⟨e, hfind⟩ : ∃ e, (entries.find? fun e => e.name = name) = some e :=
        Option.isSome_iff_exists.mp (List.find?_isSome.mpr ⟨e, he, by simpa using hename⟩)
      obtain ⟨vn, s', hrun, hmade⟩ := hlist.vfsLookup_some h.stores h0 hnext hrest hfind
      have hvn : vn ≠ 0 := by
        rintro rfl
        have hrec : Records (s'.openCreate path) := records_openCreate (by simp [hmade.refused]) path
        rw [Vfs.openNode, hrun] at hg
        have hg : (after (s'.openCreate path)).refused = false := hg
        rw [Records, hg] at hrec
        cases hrec
      refine ⟨vn, _, s', ?_, hvn, hmade⟩
      rw [Vfs.openNode, hrun]
      exact if_neg hvn

/-- `vfs_open` of an existing file. -/
theorem Rooted.opened (h : Rooted tasks s objs) (ht : s.current ∈ tasks) (hfile : s.HasFile path)
    (hslot : (s.freeSlot s.current maxFdPerTask 0).isSome)
    (hg : (after (s.vfsOpen path flags)).refused = false) :
    ∃ (i file vn : Nat) (s' : Vfs), s.vfsOpen path flags = .ok ((i : Int), s') ∧
      Opened tasks s i file vn s' := by
  obtain ⟨rdir, entries, hlist⟩ := h.list
  obtain ⟨fds, htask⟩ := h.task _ ht
  have hcur0 := h.stores.ne_zero htask
  obtain ⟨i, hi⟩ := Option.isSome_iff_exists.mp hslot
  obtain ⟨_, himax, _⟩ := freeSlot_some hi
  rw [Nat.zero_add] at himax
  -- the wrapper
  obtain ⟨vn, v, s1, hnode1, hvn, hmade1⟩ := h.openNode hfile (granted_openNode hcur0 hi hg)
  have hold1 := hmade1.kept hvn
  have hstores1 := hmade1.stores
  have hlive1 := hmade1.live
  rw [if_neg hvn] at hstores1 hlive1
  have hvnlt : vn < 2 ^ 32 := by
    have := (hstores1.bounds (p := vn) (Function.update_self ..)).2.2
    simp only [userMemStart] at this
    omega
  -- the open file
  obtain ⟨file, s2, hrun2, hmade2⟩ := kmalloc_fill (o := .vfsFile ⟨vn, 0⟩)
    (fun m file => ((m.store32 (file + fileNodeOff) vn).store32 (file + fileOffsetOff) 0).store32
      (file + fileFlagsOff) flags) hstores1 (show vfsFileSize + 15 < 2 ^ 32 by decide)
    (fun _ _ _ _ => fillVfsFile_at _ hvnlt) fun _ _ _ hx => fillVfsFile_outside hx
  have hrun2 : s1.kmalloc vfsFileSize = .ok (file, s2) := hrun2
  unfold vfsOpen at hg ⊢
  rw [if_neg hcur0, hi] at hg ⊢
  simp only [hnode1, hrun2, bind, Except.bind, if_neg hvn, pure, Except.pure] at hg ⊢
  have hfilene : file ≠ 0 := by
    intro h0
    rw [if_pos h0] at hg hmade2
    have hg : s2.refused = false := hg
    have href := hmade2.refused
    rw [hg, h0] at href
    simp at href
  simp only [if_neg hfilene] at hg hmade2 ⊢
  have hold2 := hmade2.kept hfilene
  have hstores2 := hmade2.stores
  have hlive2 := hmade2.live
  rw [if_neg hfilene] at hstores2 hlive2
  have hcur : s2.current = s.current := hmade2.same.current.trans hmade1.same.current
  have hroot : s2.gRoot = s.gRoot := hmade2.same.gRoot.trans hmade1.same.gRoot
  have hfilelt : file < 2 ^ 32 := by
    have := (hstores2.bounds (p := file) (Function.update_self ..)).2.2
    simp only [userMemStart] at this
    omega
  -- the word of the table
  have hstores3 := assign_task hstores2 (hold2 _ _ (hold1 _ _ htask)) himax hfilelt
  rw [← hcur] at hstores3
  have hat : ∀ j, j < maxFdPerTask → _ = Function.update fds i file j :=
    hstores3.here s2.current _ (Function.update_self ..)
  have hword := hat i himax
  rw [Function.update_self] at hword
  have htaskne : file ≠ s2.current := by
    rintro rfl
    have hfresh := hmade2.fresh hfilene
    rw [hcur, hold1 _ _ htask] at hfresh
    cases hfresh
  refine ⟨i, file, vn, _, rfl, ⟨?_, hword, ((hmade1.same.trans hmade2.same).setMem _).setMem _,
    ⟨hvn, hmade1.unused hvn⟩, ?_, ?_, _, _, ⟨vn, 0⟩, hstores3, ?_, Function.update_self ..,
    himax, ⟨rdir, entries, ?_⟩, fun t' ht' => ?_⟩⟩
  · unfold openSlot
    rw [if_neg, if_neg, Int.toNat_natCast]
    · rw [Int.toNat_natCast]
      exact hword.trans_ne hfilene
    · simp only [not_or, current_setMem, hcur]
      exact ⟨hcur0, by omega, by omega⟩
  · exact hlive2.trans (by rw [hlive1]; rfl)
  · have hunused := hmade2.unused hfilene
    rwa [hlive1] at hunused
  · rw [Function.update_of_ne htaskne]
    exact Function.update_self ..
  · simp only [gRoot_setMem, hroot]
    refine hlist.congr fun p o hp ho _ => ?_
    have hne : p ≠ s2.current := by
      rintro rfl
      rw [hcur, htask] at hp
      exact ho _ (Option.some.inj hp).symm
    rw [Function.update_of_ne hne]
    exact hold2 _ _ (hold1 _ _ hp)
  · by_cases htt : t' = s2.current
    · exact ⟨_, by rw [htt]; exact Function.update_self ..⟩
    · obtain ⟨fds', htask'⟩ := h.task t' ht'
      exact ⟨fds', by rw [Function.update_of_ne htt]; exact hold2 _ _ (hold1 _ _ htask')⟩

theorem live_kfree {p : Nat} (h : s.kfree p = .ok s') :
    s'.heap.live = Function.update s.heap.live p none := by
  unfold kfree at h
  split at h
  · cases h
  · next heap hstep =>
      obtain rfl := Except.ok.inj h
      obtain ⟨g, _, rfl⟩ := Option.map_eq_some_iff.mp hstep
      rfl

/-- However `vfs_close` returns, the wrapper is still live. -/
theorem Opened.close_live {file vn : Nat} {r : Int} {s'' : Vfs} (h : Opened tasks s i file vn s')
    (hrun : s'.vfsClose i = .ok (r, s'')) :
    s''.heap.live = Function.update s.heap.live vn (some vfsNodeSize) := by
  unfold vfsClose at hrun
  simp only [h.slot, h.word, bind, Except.bind] at hrun
  cases hfree : s'.kfree file with
  | error s1 =>
      rw [hfree] at hrun
      cases hrun
  | ok s1 =>
      rw [hfree] at hrun
      obtain ⟨_, rfl⟩ := Prod.mk.inj (Except.ok.inj hrun)
      calc s1.heap.live = Function.update s'.heap.live file none := live_kfree hfree
        _ = Function.update (Function.update s.heap.live vn (some vfsNodeSize)) file none := by
            rw [h.live, Function.update_idem]
        _ = Function.update s.heap.live vn (some vfsNodeSize) := by
            rw [← h.unused, Function.update_eq_self]

/-- `vfs_close` returns if the open file can be freed. -/
theorem Opened.close {file vn : Nat} (h : Opened tasks s i file vn s')
    (hfree : s'.CanFree file) :
    ∃ s'' objs, s'.vfsClose i = .ok (0, s'') ∧ Rooted tasks s'' objs := by
  obtain ⟨objs, fds, f, hstores, hfile, htask, hi, ⟨rdir, entries, hlist⟩, htasks⟩ := h.objects
  obtain ⟨s1, hrun, hsame, _, hstores1⟩ := kfree_spec hstores hfile hfree
  have hne : s'.current ≠ file := by
    intro heq
    rw [heq, hfile] at htask
    cases htask
  have hstores2 := assign_task hstores1 (p := s'.current)
    (by rw [Function.update_of_ne hne, htask]) hi (show 0 < 2 ^ 32 by decide)
  refine ⟨_, _, ?_, hstores2, ⟨rdir, entries, ?_⟩, fun t' ht' => ?_⟩
  · unfold vfsClose
    simp only [h.slot, h.word, hrun, bind, Except.bind, pure, Except.pure, hsame.current]
  · rw [gRoot_setMem, hsame.gRoot]
    refine hlist.congr fun p o hp ho hof => ?_
    have hptask : p ≠ s'.current := by
      rintro rfl
      rw [htask] at hp
      exact ho _ (Option.some.inj hp).symm
    have hpfile : p ≠ file := by
      rintro rfl
      rw [hfile] at hp
      exact hof _ (Option.some.inj hp).symm
    rw [Function.update_of_ne hptask, Function.update_of_ne hpfile, hp]
  · by_cases htt : t' = s'.current
    · exact ⟨_, by rw [htt]; exact Function.update_self ..⟩
    · obtain ⟨fds', htask'⟩ := htasks t' ht'
      have hne' : t' ≠ file := by
        rintro rfl
        rw [hfile] at htask'
        cases htask'
      exact ⟨fds', by rw [Function.update_of_ne htt, Function.update_of_ne hne', htask']⟩

theorem Rooted.runBy (h : Rooted tasks s objs) (t : Nat) : Rooted tasks (s.runBy t) objs :=
  ⟨h.stores, h.list, h.task⟩

/-- A directory can be read without taking memory. -/
theorem Rooted.use_readdir (h : Rooted tasks s objs) (huse : s.Uses tasks (t, .readdir path index)) :
    s.use (t, .readdir path index) = some (s.runBy t) := by
  obtain ⟨rdir, entries, hlist⟩ := h.list
  have hread := hlist.readdir (s := s.runBy t) h.stores huse.1 huse.2
  unfold use
  simp only [hread]
  cases entries[index]? <;> rfl

/-- Opening and closing a file leaves the wrapper, and returns if the open file can be freed. -/
theorem Rooted.use_openClose (h : Rooted tasks s objs)
    (huse : s.Uses tasks (t, .openClose path flags)) :
    ∃ vn, vn ≠ 0 ∧ s.heap.live vn = none ∧
      (∀ s', s.use (t, .openClose path flags) = some s' →
        s'.heap.live = Function.update s.heap.live vn (some vfsNodeSize)) ∧
      (s.Releases (t, .openClose path flags) →
        ∃ s' objs', s.use (t, .openClose path flags) = some s' ∧ Rooted tasks s' objs') := by
  obtain ⟨ht, hfile, hslot, hg⟩ := huse
  obtain ⟨i, file, vn, s1, hrun, hopened⟩ := (h.runBy t).opened ht hfile hslot hg
  have hpos : ¬ ((i : Int) < 0) := by omega
  have hpair : (s.runBy t).openClose path flags = s1.vfsClose i := by
    rw [openClose, hrun]
    simp only [bind, Except.bind, if_neg hpos]
  refine ⟨vn, hopened.wrapper.1, hopened.wrapper.2, fun s' hs' => ?_, fun hrel => ?_⟩
  · unfold use at hs'
    simp only [hpair] at hs'
    cases hclose : s1.vfsClose i with
    | error s2 =>
        rw [hclose] at hs'
        cases hs'
    | ok r =>
        rw [hclose] at hs'
        obtain rfl := Option.some.inj hs'
        exact hopened.close_live hclose
  · unfold Releases at hrel
    simp only [hrun, Int.toNat_natCast, hopened.word] at hrel
    obtain ⟨s2, objs2, hclose, hrooted⟩ := hopened.close hrel
    refine ⟨s2, objs2, ?_, hrooted⟩
    unfold use
    simp only [hpair, hclose]

/-- One use leaves a wrapper for each file that it opened. -/
theorem Rooted.use (h : Rooted tasks s objs) (huse : s.Uses tasks e) (hrel : s.Releases e) :
    ∃ s' objs' new, s.use e = some s' ∧ Rooted tasks s' objs' ∧ Leaked s new s' ∧
      new.length = pairs [e] := by
  obtain ⟨t, u⟩ := e
  cases u with
  | openClose path flags =>
      obtain ⟨vn, _, hunused, hlive, hreturns⟩ := h.use_openClose huse
      obtain ⟨s', objs', hrun, hrooted⟩ := hreturns hrel
      refine ⟨s', objs', [vn], hrun, hrooted, ⟨List.nodup_singleton vn, fun p hp => ?_, fun p => ?_⟩,
        rfl⟩
      · rwa [List.mem_singleton.mp hp]
      · rw [hlive s' hrun, Function.update_apply]
        exact if_congr (List.mem_singleton).symm rfl rfl
  | readdir path index =>
      exact ⟨_, objs, [], h.use_readdir huse, h.runBy t,
        ⟨List.nodup_nil, fun _ hp => absurd hp List.not_mem_nil, fun _ => rfl⟩, rfl⟩

/-- A run leaves a wrapper for each time that a file was opened. -/
theorem Rooted.run (h : Rooted tasks s objs)
    (hmeets : Meets Vfs.use (fun s e => s.Uses tasks e ∧ s.Releases e) s events) :
    ∃ final objs' new, run Vfs.use s events = some final ∧ Rooted tasks final objs' ∧
      Leaked s new final ∧ new.length = pairs events := by
  induction events generalizing s objs with
  | nil => exact ⟨s, objs, [], rfl, h, .refl s, rfl⟩
  | cons e events ih =>
      obtain ⟨s', objs', new, hstep, hrooted, hleaked, hlen⟩ := h.use hmeets.1.1 hmeets.1.2
      obtain ⟨final, objs'', new', hrun, hrooted', hleaked', hlen'⟩ :=
        ih hrooted (hmeets.2 s' hstep)
      refine ⟨final, objs'', new ++ new', ?_, hrooted', hleaked.trans hleaked', ?_⟩
      · rw [Transition.run, hstep]
        exact hrun
      · rw [List.length_append, hlen, hlen', pairs, pairs, pairs, ← List.countP_append]
        rfl

/-- Opening and closing an existing file never leaves the live blocks as they were, and a run that
only opens and closes files and reads the root directory leaves as many blocks as it has opened
files. It leaves the live blocks as they were just when it opens none, and it cannot go on for
ever. -/
theorem open_close_leaks (tasks : List Nat) (s : Vfs) (h : ∃ objs, s.Rooted tasks objs) :
    (∀ t path flags, s.Uses tasks (t, .openClose path flags) →
      ¬ ∃ s', s.use (t, .openClose path flags) = some s' ∧
        ∀ p, (s'.heap.live p).isSome ↔ (s.heap.live p).isSome) ∧
    ∀ events, Meets use (fun s e => s.Uses tasks e ∧ s.Releases e) s events →
      ∃ final new, run use s events = some final ∧ Leaked s new final ∧
        new.length = pairs events ∧ pairs events ≤ userMemStart ∧
        ((∀ p, final.heap.live p = s.heap.live p) ↔ pairs events = 0) := by
  obtain ⟨objs, h⟩ := h
  constructor
  · rintro t path flags huse ⟨s', hrun, hsame⟩
    obtain ⟨vn, _, hunused, hlive, _⟩ := h.use_openClose huse
    have hvn := hsame vn
    rw [hlive s' hrun, Function.update_self, hunused] at hvn
    exact absurd hvn (by simp)
  · intro events hmeets
    obtain ⟨final, objs', new, hrun, hrooted, hleaked, hlen⟩ := h.run hmeets
    refine ⟨final, new, hrun, hleaked, hlen, ?_, ?_⟩
    · rw [← hlen]
      exact hleaked.length_le hrooted.stores.inv
    · rw [hleaked.same_iff, ← hlen, List.length_eq_zero_iff]

end Uses

theorem sampleListed_rooted : ∃ objs, Rooted [sampleTask] sampleListed objs := by
  obtain ⟨a, objs, rdir, entries, fds, hrep⟩ := sampleListed_wf
  exact ⟨objs, hrep.stores, ⟨rdir, entries, hrep.dir.rootList⟩, fun t ht => ⟨_, hrep.task t ht⟩⟩

/-- A file is opened and closed, the directory is read, and the file is opened and closed again. -/
def sampleUses : List (Nat × FileUse) :=
  [(sampleTask, .openClose [slash, 0x61] 0), (sampleTask, .readdir [slash] 0),
    (sampleTask, .openClose [slash, 0x61] 0)]

/-- The statement about that run. -/
theorem open_close_leaks_sample :
    (¬ ∃ s', sampleListed.use (sampleTask, .openClose [slash, 0x61] 0) = some s' ∧
      ∀ p, (s'.heap.live p).isSome ↔ (sampleListed.heap.live p).isSome) ∧
    ∃ final new, run use sampleListed sampleUses = some final ∧ Leaked sampleListed new final ∧
      new.length = pairs sampleUses ∧ pairs sampleUses ≤ userMemStart ∧
      ((∀ p, final.heap.live p = sampleListed.heap.live p) ↔ pairs sampleUses = 0) :=
  ⟨(open_close_leaks [sampleTask] sampleListed sampleListed_rooted).1 _ _ _ (by decide +kernel),
    (open_close_leaks [sampleTask] sampleListed sampleListed_rooted).2 _ (by decide +kernel)⟩

/-- Opening and closing the file leaves a block that was not live. -/
theorem open_close_not_neutral : ¬ ∀ (tasks : List Nat) (s : Vfs), (∃ objs, Rooted tasks s objs) →
    ∀ t path flags, s.Uses tasks (t, .openClose path flags) →
      ∃ s', s.use (t, .openClose path flags) = some s' ∧
        ∀ p, (s'.heap.live p).isSome ↔ (s.heap.live p).isSome := by
  intro hclaim
  obtain ⟨s', hrun, hsame⟩ := hclaim [sampleTask] sampleListed sampleListed_rooted sampleTask
    [slash, 0x61] 0 (by decide +kernel)
  have hafter : (sampleListed.use (sampleTask, .openClose [slash, 0x61] 0)).map
      (fun s' => (s'.heap.live 0x100208).isSome) = some true := by
    decide +kernel
  have hbefore : (sampleListed.heap.live 0x100208).isSome = false := by decide +kernel
  rw [hrun] at hafter
  have hlive := (hsame 0x100208).mp (Option.some.inj hafter)
  rw [hbefore] at hlive
  cases hlive

end Vfs

end Kumo
