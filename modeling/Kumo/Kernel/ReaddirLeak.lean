import Kumo.Fs.Listing
import Kumo.Kernel.FileSyscalls

/-!
# What `SYSCALL_READDIR` shows of the kernel stack

The name goes into an array on the kernel stack up to its terminator, and then the whole
array goes to the user. So the bytes behind the terminator are what the stack held
before, and the call is independent of the stack just when the name fills the array.
-/

namespace Kumo

open Memory

namespace SyscallState

/-- The state is in order: the heap stores the root directory and the table of the current task, and
the pages of that task are user memory. -/
structure Ready (k : SyscallState) (objs : Objects) (rdir : Nat) (entries : List Entry)
    (fds : Nat → Nat) : Prop where
  stores : Stores k.vfs.heap objs
  root : RootList objs k.vfs.gRoot rdir entries
  task : objs k.vfs.current = some (.task fds)
  dir : UserDir k.mem k.pd

/-- Whatever the stack held before, successful calls leave the same bytes in the user's buffer. -/
def ReaddirBlind (k : SyscallState) (path index buf : Nat) : Prop :=
  ∀ frame frame' k1 k2, k.readdir frame path index buf = some (0, k1) →
    k.readdir frame' path index buf = some (0, k2) →
    ∀ i, i < 64 → k1.userByte (buf + i) = k2.userByte (buf + i)

/-- A name that the call puts in a user buffer: the file at the index, if the path has no component
and the buffer is user memory. -/
def Shows (k : SyscallState) (path index buf : Nat) (name : Bytes) : Prop :=
  (∃ p, k.UserString path 256 p ∧ pathNext p = none) ∧ k.vfs.rootNames[index]? = some name ∧
    UserRange k.mem k.pd buf 64

variable {k : SyscallState} {objs : Objects} {rdir : Nat} {entries : List Entry}
  {fds : Nat → Nat} {path index buf : Nat} {name : Bytes} {m : Memory}

/-- Writing user memory changes no directory, and not which one is current. -/
theorem Ready.pd_setMem (h : k.Ready objs rdir entries fds)
    (hm : ∀ x, x < userMemStart → m x = k.mem x) : (k.setMem m).pd = k.pd := by
  obtain ⟨_, _, hzone⟩ := h.stores.bounds h.task
  have hsize : Stored.size (FsObject.task fds) = taskSize := rfl
  rw [hsize] at hzone
  have hcr3 : (k.setMem m).cr3 = k.cr3 := by
    have hfield : (k.setMem m).vfs.field k.vfs.current cr3Off =
        k.vfs.field k.vfs.current cr3Off :=
      load32_congr fun x h1 h2 => hm x (by
        simp only [taskSize, cr3Off] at hzone h1 h2
        omega)
    exact if_congr Iff.rfl hfield rfl
  rw [pd, pd, hcr3]
  rfl

/-- What is written to user memory is read back there. -/
theorem Ready.userByte_setMem (h : k.Ready objs rdir entries fds) {size : Nat}
    (hrange : UserRange k.mem k.pd buf size)
    (hm : ∀ x, x < buf ∨ buf + size ≤ x → m x = k.mem x) {i : Nat} (hi : i < size) :
    (k.setMem m).userByte (buf + i) = some (m (buf + i)) := by
  obtain ⟨hend, huser⟩ := hrange
  have hlow : ∀ x, x < userMemStart → m x = k.mem x := by
    intro x hx
    refine hm x ?_
    by_contra hin
    have hstart := h.dir.lower x (by omega) (huser x (by omega) (by omega))
    have hle := frameOf_le x
    omega
  have hv : buf + i < 2 ^ 32 := by omega
  have hpage := huser (buf + i) (by omega) (by omega)
  have hsplit : frameOf (buf + i) + (buf + i) % pageSize = buf + i :=
    Nat.div_add_mod' _ pageSize
  have hmem : (k.setMem m).mem = m := rfl
  rw [userByte, h.pd_setMem hlow, hmem, translate_eq_view, h.dir.stable m hlow _ hv,
    h.dir.identity _ hv hpage, Option.map_some, Option.map_some, hsplit]

/-- A call that shows a name succeeds, and fills the buffer with the array. -/
theorem Ready.readdir_shows (h : k.Ready objs rdir entries fds) (hpath : path < 2 ^ 32)
    (hindex : index < 2 ^ 32) (hbuf : buf < 2 ^ 32) (hshow : k.Shows path index buf name)
    (frame : ReaddirFrame) :
    ∃ k', k.readdir frame path index buf = some (0, k') ∧
      ∀ i, i < 64 → k'.userByte (buf + i) = some (copyName frame.kname 0 name nameMax i) := by
  obtain ⟨⟨p, hp, hnext⟩, hname, hrange⟩ := hshow
  rw [h.root.rootNames h.stores, List.getElem?_map] at hname
  obtain ⟨e, he, rfl⟩ := Option.map_eq_some_iff.mp hname
  have hread := h.root.readdir h.stores hnext hindex
  rw [he] at hread
  have hstring : k.copyFromUserString frame.kpath path 256 = some (0, p) := by
    rcases copyFromUserString_spec h.dir frame.kpath hpath (by decide : 256 ≠ 0) with
      ⟨q, hq, hrun⟩ | ⟨hnone, _⟩
    · rw [hrun, hq.unique hp]
    · exact absurd hp (hnone p)
  rcases copyToUser_spec h.dir (copyName frame.kname 0 e.name nameMax) hbuf
    (by decide : 64 < 2 ^ 32) with ⟨hno, _⟩ | ⟨_, m, hcopy, hinside, houtside⟩
  · exact absurd (.inr hrange) hno
  · refine ⟨k.setMem m, ?_, fun i hi => ?_⟩
    · rw [readdir, hstring]
      simp only [Option.bind_some, ne_eq, not_true_eq_false, if_false, hread]
      rw [show ({ k with vfs := k.vfs } : SyscallState) = k from rfl, hcopy]
      rfl
    · rw [h.userByte_setMem hrange houtside hi, hinside i hi]

/-- A call that succeeds shows a name. -/
theorem Ready.readdir_success (h : k.Ready objs rdir entries fds) (hpath : path < 2 ^ 32)
    (hindex : index < 2 ^ 32) (hbuf : buf < 2 ^ 32) {frame : ReaddirFrame} {k' : SyscallState}
    (hrun : k.readdir frame path index buf = some (0, k')) :
    ∃ name, k.Shows path index buf name := by
  rcases copyFromUserString_spec h.dir frame.kpath hpath (by decide : 256 ≠ 0) with
    ⟨p, hp, hstring⟩ | ⟨_, left, hstring⟩
  · rw [readdir, hstring] at hrun
    simp only [Option.bind_some, ne_eq, not_true_eq_false, if_false] at hrun
    cases hnext : pathNext p with
    | some next =>
        -- the lookup ends at a file or nowhere
        have hnul : (0 : BitVec 8) ∉ p := by
          intro hz
          rw [← hp.2.2] at hz
          obtain ⟨j, hj, hzero⟩ := List.mem_iff_getElem.mp hz
          rw [getElem_bytesAt] at hzero
          rw [length_bytesAt] at hj
          exact hp.2.1.nonzero j (Nat.zero_le j) hj hzero
        obtain ⟨s', hread⟩ := h.root.readdir_component h.stores hnul hnext index
        rw [hread] at hrun
        have hret : word (-1) = 0 := congrArg Prod.fst (Option.some.inj hrun)
        exact absurd hret (by decide)
    | none =>
        have hread := h.root.readdir h.stores hnext hindex
        cases he : entries[index]? with
        | none =>
            rw [hread, he] at hrun
            have hret : word (-1) = 0 := congrArg Prod.fst (Option.some.inj hrun)
            exact absurd hret (by decide)
        | some e =>
            rw [hread, he] at hrun
            refine ⟨e.name, ⟨p, hp, hnext⟩, ?_, ?_⟩
            · rw [h.root.rootNames h.stores, List.getElem?_map, he]
              rfl
            · rcases copyToUser_spec h.dir (copyName frame.kname 0 e.name nameMax) hbuf
                (by decide : 64 < 2 ^ 32) with ⟨_, hcopy⟩ | ⟨hrange, _⟩
              · simp only [not_true_eq_false, if_false] at hrun
                rw [show ({ k with vfs := k.vfs } : SyscallState) = k from rfl, hcopy] at hrun
                have hret : UserCopy.failure = 0 := congrArg Prod.fst (Option.some.inj hrun)
                exact absurd hret (by decide)
              · exact hrange.resolve_left (by decide)
  · rw [readdir, hstring] at hrun
    have hret : UserCopy.failure = 0 := congrArg Prod.fst (Option.some.inj hrun)
    exact absurd hret (by decide)

/-- The array is determined by the name up to the terminator. -/
theorem copyName_determined {m m' : Memory} {i : Nat} (hlen : name.length ≤ nameMax)
    (hi : i ≤ name.length) :
    copyName m 0 name nameMax i = copyName m' 0 name nameMax i := by
  have hbyte : ∀ m : Memory, copyName m 0 name nameMax i = (name ++ [0]).getD i 0 := by
    intro m
    rw [copyName_eq, List.take_of_length_le hlen, Nat.zero_add]
    by_cases heq : i = name.length
    · rw [heq, store8, Function.update_self, List.getD_append_right _ _ _ _ (Nat.le_refl _),
        Nat.sub_self]
      rfl
    · have hlt : i < name.length := by omega
      have hstored := bytesAt_storeBytes m 0 name
      have hin : i < (bytesAt (storeBytes m 0 name) 0 name.length).length := by simpa using hlt
      have hget := getElem_bytesAt (storeBytes m 0 name) 0 hin
      rw [store8_other (by omega), List.getD_append _ _ _ _ hlt, List.getD_eq_getElem _ _ hlt]
      simp only [hstored, Nat.zero_add] at hget
      exact hget.symm
  rw [hbyte m, hbyte m']

/-- `SYSCALL_READDIR` shows nothing of the stack just when the names that it shows have 63
characters. -/
theorem readdir_blind_iff (k : SyscallState)
    (h : ∃ objs rdir entries fds, k.Ready objs rdir entries fds) (path index buf : Nat)
    (hpath : path < 2 ^ 32) (hindex : index < 2 ^ 32) (hbuf : buf < 2 ^ 32) :
    k.ReaddirBlind path index buf ↔
      ∀ name, k.Shows path index buf name → name.length = nameMax := by
  obtain ⟨objs, rdir, entries, fds, h⟩ := h
  have hshort : ∀ name, k.Shows path index buf name → name.length ≤ nameMax := by
    rintro name ⟨_, hname, _⟩
    rw [h.root.rootNames h.stores, List.getElem?_map] at hname
    obtain ⟨e, he, rfl⟩ := Option.map_eq_some_iff.mp hname
    obtain ⟨next, hnode⟩ := h.root.node (List.mem_of_getElem? he)
    exact (Vfs.field_ramfsNode h.stores hnode).name.short
  constructor
  · intro hblind name hshow
    have hle := hshort name hshow
    by_contra hne
    -- two stacks that differ in the last byte
    obtain ⟨k1, hrun1, hbytes1⟩ := h.readdir_shows hpath hindex hbuf hshow
      ⟨fun _ => 0, fun _ => 0⟩
    obtain ⟨k2, hrun2, hbytes2⟩ := h.readdir_shows hpath hindex hbuf hshow
      ⟨fun _ => 0, fun _ => 1⟩
    have hlast := hblind _ _ k1 k2 hrun1 hrun2 63 (by decide)
    have hbehind : 0 + (name.take nameMax).length < 63 := by
      rw [List.take_of_length_le hle]
      simp only [nameMax] at hle hne
      omega
    rw [hbytes1 63 (by decide), hbytes2 63 (by decide), copyName_beyond (.inr hbehind),
      copyName_beyond (.inr hbehind)] at hlast
    exact absurd hlast (by decide)
  · intro hfull frame frame' k1 k2 hrun1 hrun2 i hi
    obtain ⟨name, hshow⟩ := h.readdir_success hpath hindex hbuf hrun1
    obtain ⟨k1', hrun1', hbytes1⟩ := h.readdir_shows hpath hindex hbuf hshow frame
    obtain ⟨k2', hrun2', hbytes2⟩ := h.readdir_shows hpath hindex hbuf hshow frame'
    obtain rfl : k1 = k1' := congrArg Prod.snd (Option.some.inj (hrun1.symm.trans hrun1'))
    obtain rfl : k2 = k2' := congrArg Prod.snd (Option.some.inj (hrun2.symm.trans hrun2'))
    have hlen := hfull name hshow
    rw [hbytes1 i hi, hbytes2 i hi]
    exact congrArg some (copyName_determined (by omega) (by simp only [nameMax] at hlen; omega))

/-- A state of that kind with the sample directory. -/
theorem sample_ready {tasks : List Nat} {s : Vfs} {a : FileStore} {fds : Nat → Nat → Nat}
    (h : Represents tasks s a objs rdir entries fds) (ht : s.current ∈ tasks)
    (hheap : ∀ page ∈ s.heap.heap.heapPages, page + pageSize ≤ 0x110000)
    (hcr3 : (sample s).pd = 0x110000) : (sample s).Ready objs rdir entries (fds s.current) := by
  have h' := sample_represents h hheap
  refine ⟨h'.stores, h'.dir.rootList, h'.task _ ht, ?_⟩
  rw [hcr3]
  have htable : ∀ q ∈ [0x110000, 0x111000], pagesBelow.has q := by
    simp [pagesBelow, pageSize, userMemStart]
  exact ((sample_onePage s).userDirIn (htable _ (by decide)) (htable _ (by decide))).1.userDir
    fun q hq => hq.2

/-- The state with the file `a`, seen by its task. -/
theorem sampleListed_ready : ∃ objs rdir entries fds,
    (sample sampleListed).Ready objs rdir entries fds := by
  obtain ⟨a, objs, rdir, entries, fds, h⟩ := sampleListed_wf
  have hcurrent : sampleListed.current ∈ [sampleTask] := by decide +kernel
  exact ⟨objs, rdir, entries, _, sample_ready h hcurrent (by decide +kernel) (by decide +kernel)⟩

theorem readdir_blind_iff_sample :
    (sample sampleListed).ReaddirBlind 0x800000 0 0x800100 ↔
      ∀ name, (sample sampleListed).Shows 0x800000 0 0x800100 name → name.length = nameMax :=
  readdir_blind_iff _ sampleListed_ready _ _ _ (by decide) (by decide) (by decide)

/-- The name of the file `a` takes two bytes, and the other 62 are those of the stack. -/
theorem readdir_leaks : ¬ ∀ k : SyscallState,
    (∃ objs rdir entries fds, k.Ready objs rdir entries fds) → ∀ path index buf,
      path < 2 ^ 32 → index < 2 ^ 32 → buf < 2 ^ 32 → k.ReaddirBlind path index buf := by
  intro hclaim
  have hvalue : ∀ byte ∈ [0#8, 1#8], (((sample sampleListed).readdir ⟨fun _ => 0, fun _ => byte⟩
      0x800000 0 0x800100).map fun r => (r.1, r.2.userByte (0x800100 + 63))) =
        some (0, some byte) := by
    decide +kernel
  obtain ⟨⟨ret, k1⟩, hrun1, heq1⟩ := Option.map_eq_some_iff.mp (hvalue 0 (by decide))
  obtain ⟨⟨ret', k2⟩, hrun2, heq2⟩ := Option.map_eq_some_iff.mp (hvalue 1 (by decide))
  obtain ⟨rfl, hbyte1⟩ := Prod.mk.inj heq1
  obtain ⟨rfl, hbyte2⟩ := Prod.mk.inj heq2
  have hsame := hclaim _ sampleListed_ready 0x800000 0 0x800100 (by decide) (by decide) (by decide)
    _ _ k1 k2 hrun1 hrun2 63 (by decide)
  rw [hbyte1, hbyte2] at hsame
  exact absurd hsame (by decide)

end SyscallState

end Kumo
