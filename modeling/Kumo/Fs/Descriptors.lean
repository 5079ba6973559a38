import Mathlib.Data.List.Find
import Kumo.Fs.Contents
import Kumo.Fs.FileStore
import Kumo.Fs.Paths
import Kumo.Fs.Refusal

/-!
# Descriptors

How the heap represents a file store: the entries of the directory are its files, and the
words of the tasks' tables are its descriptors, each through a `vfs_file_t` and a wrapper to
the node of a file. Wrappers are never shared out again, but descriptors of several tasks may
lead to one node. Each call of `vfs.c` is shown to do what the store does.
-/

namespace Kumo

open Memory Content

/-- What a word of a descriptor table stands for. -/
def SlotAt (objs : Objects) (entries : List Entry) (p : Nat) : Option (Bytes × Nat) → Prop
  | none => p = 0
  | some (name, offset) => ∃ node v e, objs p = some (.vfsFile ⟨node, offset⟩) ∧
      objs node = some (.vfsNode v) ∧ e ∈ entries ∧ v.fsData = e.node ∧ e.name = name

/-- The objects of the heap represent the store. -/
structure Shape (tasks : List Nat) (gRoot : Nat) (a : FileStore) (objs : Objects) (rdir : Nat)
    (entries : List Entry) (fds : Nat → Nat → Nat) : Prop where
  dir : Directory objs gRoot rdir entries
  files : ∀ name, a.files name = (entries.find? fun e => e.name = name).map Entry.content
  task : ∀ t ∈ tasks, objs t = some (.task (fds t))
  slot : ∀ t ∈ tasks, ∀ i, i < maxFdPerTask → SlotAt objs entries (fds t i) (a.slots t i)
  distinct : ∀ t ∈ tasks, ∀ i, i < maxFdPerTask → ∀ t' ∈ tasks, ∀ i', i' < maxFdPerTask →
    fds t i = fds t' i' → fds t i ≠ 0 → t = t' ∧ i = i'

/-- The heap represents the store. -/
structure Represents (tasks : List Nat) (s : Vfs) (a : FileStore) (objs : Objects) (rdir : Nat)
    (entries : List Entry) (fds : Nat → Nat → Nat) : Prop extends
    Shape tasks s.gRoot a objs rdir entries fds where
  stores : Stores s.heap objs

variable {tasks : List Nat} {s s' : Vfs} {a : FileStore} {objs objs' : Objects} {rdir t i : Nat}
  {entries entries' : List Entry} {fds : Nat → Nat → Nat} {name : Bytes} {offset : Nat} {fd : Int}

/-- A slot depends on its file and its wrapper, and on which names the nodes have. -/
theorem SlotAt.congr {p : Nat} {slot : Option (Bytes × Nat)} (h : SlotAt objs entries p slot)
    (hobjs : ∀ q o, objs q = some o → (∀ n, o ≠ .ramfsNode n) → (∀ b, o ≠ .data b) →
      objs' q = some o)
    (hentries : ∀ e ∈ entries, ∃ e' ∈ entries', e'.node = e.node ∧ e'.name = e.name) :
    SlotAt objs' entries' p slot := by
  cases slot with
  | none => exact h
  | some slot =>
      obtain ⟨node, v, e, hfile, hnode, he, hfs, hname⟩ := h
      obtain ⟨e', he', hnode', hname'⟩ := hentries e he
      exact ⟨node, v, e', hobjs _ _ hfile (by simp) (by simp), hobjs _ _ hnode (by simp) (by simp),
        he', hfs.trans hnode'.symm, hname'.trans hname⟩

/-- The word of a table. -/
theorem Represents.field (h : Represents tasks s a objs rdir entries fds) (ht : t ∈ tasks)
    (hi : i < maxFdPerTask) : s.field t (Vfs.fdOff i) = fds t i :=
  h.stores.here _ _ (h.task t ht) i hi

theorem Represents.task_ne_zero (h : Represents tasks s a objs rdir entries fds) (ht : t ∈ tasks) :
    t ≠ 0 := h.stores.ne_zero (h.task t ht)

/-- A word of a table is null just when the slot is free. -/
theorem Represents.free_iff (h : Represents tasks s a objs rdir entries fds) (ht : t ∈ tasks)
    (hi : i < maxFdPerTask) : fds t i = 0 ↔ a.slots t i = none := by
  have hslot := h.slot t ht i hi
  cases hs : a.slots t i with
  | none =>
      rw [hs] at hslot
      exact ⟨fun _ => rfl, fun _ => hslot⟩
  | some slot =>
      rw [hs] at hslot
      obtain ⟨node, v, e, hfile, _⟩ := hslot
      exact ⟨fun h0 => absurd h0 (h.stores.ne_zero hfile), fun h0 => by cases h0⟩

/-- The loop of `vfs_open` finds the lowest free slot. -/
theorem Represents.freeSlot (h : Represents tasks s a objs rdir entries fds) (ht : t ∈ tasks) :
    s.freeSlot t maxFdPerTask 0 = a.lowestFree t := by
  have hloop : ∀ steps i, i + steps = maxFdPerTask → s.freeSlot t steps i =
      (List.range' i steps).find? fun i => (a.slots t i).isNone := by
    intro steps
    induction steps with
    | zero => intro i _; rfl
    | succ steps ih =>
        intro i hi
        rw [Vfs.freeSlot, h.field ht (by omega), List.range'_succ]
        by_cases hfree : a.slots t i = none
        · rw [if_pos ((h.free_iff ht (by omega)).mpr hfree),
            List.find?_cons_of_pos (by simp [hfree])]
        · rw [if_neg (fun h0 => hfree ((h.free_iff ht (by omega)).mp h0)), ih (i + 1) (by omega),
            List.find?_cons_of_neg (by simpa using hfree)]
  exact hloop maxFdPerTask 0 (by omega)

/-- What the lowest free slot is. -/
theorem lowestFree_some (h : a.lowestFree t = some i) : i < maxFdPerTask ∧ a.slots t i = none := by
  have hmem := List.mem_of_find?_eq_some h
  have hnone := List.find?_some h
  rw [List.mem_range'_1] at hmem
  exact ⟨by omega, by simpa using hnone⟩

/-- The check of a descriptor. -/
theorem Represents.openSlot (h : Represents tasks s a objs rdir entries fds)
    (ht : s.current ∈ tasks) (fd : Int) :
    s.openSlot fd = (a.descriptor s.current fd).map Prod.fst := by
  unfold Vfs.openSlot FileStore.descriptor
  by_cases hfd : fd < 0 ∨ (maxFdPerTask : Int) ≤ fd
  · rw [if_pos (.inr hfd), if_pos hfd]
    rfl
  · have hi : fd.toNat < maxFdPerTask := by omega
    rw [if_neg (by simp only [h.task_ne_zero ht, false_or]; exact hfd), if_neg hfd,
      h.field ht hi]
    by_cases hfree : a.slots s.current fd.toNat = none
    · rw [if_pos ((h.free_iff ht hi).mpr hfree), hfree]
      rfl
    · rw [if_neg fun h0 => hfree ((h.free_iff ht hi).mp h0)]
      obtain ⟨slot, hslot⟩ := Option.ne_none_iff_exists'.mp hfree
      rw [hslot]
      rfl

/-- What an open descriptor leads to. -/
theorem Represents.descriptor (h : Represents tasks s a objs rdir entries fds)
    (ht : t ∈ tasks) (hd : a.descriptor t fd = some (i, name, offset)) :
    i < maxFdPerTask ∧ a.slots t i = some (name, offset) ∧
      ∃ node v e, objs (fds t i) = some (.vfsFile ⟨node, offset⟩) ∧
        objs node = some (.vfsNode v) ∧ e ∈ entries ∧ v.fsData = e.node ∧ e.name = name := by
  unfold FileStore.descriptor at hd
  split at hd
  · cases hd
  · obtain ⟨slot, hslot, heq⟩ := Option.map_eq_some_iff.mp hd
    obtain ⟨rfl, rfl⟩ := Prod.mk.inj heq
    have hi : fd.toNat < maxFdPerTask := by omega
    have hat := h.slot t ht _ hi
    rw [hslot] at hat
    exact ⟨hi, hslot, hat⟩

/-- The content of the file an entry stands for. -/
theorem Represents.content (h : Represents tasks s a objs rdir entries fds) {e : Entry}
    (he : e ∈ entries) : a.files e.name = some e.content := by
  have hfind : (entries.find? fun x => x.name = e.name) = some e := by
    cases hf : entries.find? fun x => x.name = e.name with
    | none =>
        rw [List.find?_eq_none] at hf
        have hne := hf e he
        simp at hne
    | some x =>
        obtain ⟨hx, hname⟩ := Directory.find_mem hf
        rw [h.dir.eq_of_name hx he hname]
  rw [h.files, hfind]
  rfl

/-! ## Changing one descriptor -/

variable {gRoot ptr : Nat} {slot : Option (Bytes × Nat)}

theorem slots_setSlot (a : FileStore) (t i : Nat) (slot : Option (Bytes × Nat)) (t' i' : Nat) :
    (a.setSlot t i slot).slots t' i' = if t' = t ∧ i' = i then slot else a.slots t' i' := by
  simp only [FileStore.setSlot, Function.update_apply]
  by_cases ht : t' = t
  · subst ht
    rw [if_pos rfl, Function.update_apply]
    simp only [true_and]
  · rw [if_neg ht, if_neg (fun h => ht h.1)]

/-- The open file of a descriptor changed its offset. -/
theorem Shape.setOffset {node offset' : Nat} {v : VfsNode} {e : Entry}
    (h : Shape tasks gRoot a objs rdir entries fds) (ht : t ∈ tasks) (hi : i < maxFdPerTask)
    (hne : fds t i ≠ 0) (hfile : objs (fds t i) = some (.vfsFile ⟨node, offset⟩))
    (hnode : objs node = some (.vfsNode v)) (he : e ∈ entries) (hfs : v.fsData = e.node)
    (hname : e.name = name) :
    Shape tasks gRoot (a.setSlot t i (some (name, offset')))
      (Function.update objs (fds t i) (some (.vfsFile ⟨node, offset'⟩))) rdir entries fds := by
  set objs' := Function.update objs (fds t i) (some (.vfsFile ⟨node, offset'⟩)) with hobjs'
  have hkeep : ∀ q o, objs q = some o → q ≠ fds t i → objs' q = some o := by
    intro q o hq hqt
    rw [hobjs', Function.update_of_ne hqt, hq]
  have hother : ∀ q o, objs q = some o → (∀ f, o ≠ .vfsFile f) → objs' q = some o := by
    rintro q o hq ho
    refine hkeep q o hq ?_
    rintro rfl
    rw [hfile] at hq
    exact ho _ (Option.some.inj hq).symm
  refine ⟨h.dir.congr fun p o hp ho _ => hother p o hp ho, h.files,
    fun t' ht' => hother _ _ (h.task t' ht') (by simp), fun t' ht' i' hi' => ?_, h.distinct⟩
  rw [slots_setSlot]
  split
  · next hsame =>
      obtain ⟨rfl, rfl⟩ := hsame
      exact ⟨node, v, e, Function.update_self .., hother _ _ hnode (by simp), he, hfs, hname⟩
  · next hsame =>
      have hat := h.slot t' ht' i' hi'
      cases hs : a.slots t' i' with
      | none => rw [hs] at hat; exact hat
      | some slot =>
          rw [hs] at hat
          obtain ⟨node', v', e', hfile', hnode', hrest⟩ := hat
          refine ⟨node', v', e', hkeep _ _ hfile' fun heq => hsame ?_,
            hother _ _ hnode' (by simp), hrest⟩
          exact h.distinct t' ht' i' hi' t ht i hi heq (by rw [heq]; exact hne)

/-- A word of a table changed, to the null pointer or to a file of its own. -/
theorem Shape.setFd (h : Shape tasks gRoot a objs rdir entries fds) (ht : t ∈ tasks)
    (hslot : SlotAt objs entries ptr slot)
    (hnew : ptr ≠ 0 → ∀ t' ∈ tasks, ∀ i', i' < maxFdPerTask → fds t' i' ≠ ptr) :
    Shape tasks gRoot (a.setSlot t i slot)
      (Function.update objs t (some (.task (Function.update (fds t) i ptr)))) rdir entries
      (Function.update fds t (Function.update (fds t) i ptr)) := by
  set objs' := Function.update objs t (some (.task (Function.update (fds t) i ptr))) with hobjs'
  have hother : ∀ q o, objs q = some o → (∀ g, o ≠ .task g) → objs' q = some o := by
    rintro q o hq ho
    have hne : q ≠ t := by
      rintro rfl
      rw [h.task q ht] at hq
      exact ho _ (Option.some.inj hq).symm
    rw [hobjs', Function.update_of_ne hne, hq]
  have hfds : ∀ t' i', Function.update fds t (Function.update (fds t) i ptr) t' i' =
      if t' = t ∧ i' = i then ptr else fds t' i' := by
    intro t' i'
    by_cases htt : t' = t
    · subst htt
      rw [Function.update_self, Function.update_apply]
      simp only [true_and]
    · rw [Function.update_of_ne htt, if_neg (fun h => htt h.1)]
  refine ⟨h.dir.congr fun p o hp _ ho => hother p o hp ho, h.files, fun t' ht' => ?_,
    fun t' ht' i' hi' => ?_, fun t1 ht1 i1 hi1 t2 ht2 i2 hi2 => ?_⟩
  · by_cases htt : t' = t
    · subst htt
      rw [hobjs', Function.update_self, Function.update_self]
    · rw [hobjs', Function.update_of_ne htt, Function.update_of_ne htt, h.task t' ht']
  · rw [slots_setSlot, hfds]
    have hcongr : ∀ q slot, SlotAt objs entries q slot → SlotAt objs' entries q slot := by
      intro q slot hq
      cases slot with
      | none => exact hq
      | some slot =>
          obtain ⟨node, v, e, hfile, hnode, hrest⟩ := hq
          exact ⟨node, v, e, hother _ _ hfile (by simp), hother _ _ hnode (by simp), hrest⟩
    by_cases hsame : t' = t ∧ i' = i
    · rw [if_pos hsame, if_pos hsame]
      exact hcongr _ _ hslot
    · rw [if_neg hsame, if_neg hsame]
      exact hcongr _ _ (h.slot t' ht' i' hi')
  · rw [hfds, hfds]
    by_cases h1 : t1 = t ∧ i1 = i
    · by_cases h2 : t2 = t ∧ i2 = i
      · exact fun _ _ => ⟨h1.1.trans h2.1.symm, h1.2.trans h2.2.symm⟩
      · rw [if_pos h1, if_neg h2]
        exact fun heq hne => absurd heq.symm (hnew hne t2 ht2 i2 hi2)
    · by_cases h2 : t2 = t ∧ i2 = i
      · rw [if_neg h1, if_pos h2]
        exact fun heq hne => absurd heq (hnew (by rw [← heq]; exact hne) t1 ht1 i1 hi1)
      · rw [if_neg h1, if_neg h2]
        exact h.distinct t1 ht1 i1 hi1 t2 ht2 i2 hi2

/-- An open file that no descriptor leads to may go. -/
theorem Shape.remove {f : VfsFile} (h : Shape tasks gRoot a objs rdir entries fds)
    (hfile : objs ptr = some (.vfsFile f))
    (hunused : ∀ t ∈ tasks, ∀ i, i < maxFdPerTask → fds t i ≠ ptr) :
    Shape tasks gRoot a (Function.update objs ptr none) rdir entries fds := by
  have hother : ∀ q o, objs q = some o → (∀ f, o ≠ .vfsFile f) →
      Function.update objs ptr none q = some o := by
    rintro q o hq ho
    have hne : q ≠ ptr := by
      rintro rfl
      rw [hfile] at hq
      exact ho _ (Option.some.inj hq).symm
    rw [Function.update_of_ne hne, hq]
  refine ⟨h.dir.congr fun p o hp ho _ => hother p o hp ho, h.files,
    fun t ht => hother _ _ (h.task t ht) (by simp), fun t ht i hi => ?_, h.distinct⟩
  have hat := h.slot t ht i hi
  cases hs : a.slots t i with
  | none => rw [hs] at hat; exact hat
  | some slot =>
      rw [hs] at hat
      obtain ⟨node, v, e, hfile', hnode, hrest⟩ := hat
      refine ⟨node, v, e, ?_, hother _ _ hnode (by simp), hrest⟩
      rw [Function.update_of_ne (hunused t ht i hi), hfile']

/-! ## Reading and closing -/

/-- `if (n > 0) file->offset += n`. -/
theorem Represents.advance {node n : Nat} {v : VfsNode} {e : Entry}
    (h : Represents tasks s a objs rdir entries fds) (ht : t ∈ tasks) (hi : i < maxFdPerTask)
    (hfile : objs (fds t i) = some (.vfsFile ⟨node, offset⟩))
    (hnode : objs node = some (.vfsNode v)) (he : e ∈ entries) (hfs : v.fsData = e.node)
    (hname : e.name = name) (hlt : offset + n < 2 ^ 32) :
    ∃ objs', Represents tasks (s.advance (fds t i) n) (a.setSlot t i (some (name, offset + n)))
      objs' rdir entries fds := by
  have hat : VfsFile.At s.mem (fds t i) ⟨node, offset⟩ := h.stores.here _ _ hfile
  have hfield : s.field (fds t i) fileOffsetOff = offset := hat.offset
  have hne := h.stores.ne_zero hfile
  unfold Vfs.advance
  by_cases hn : n = 0
  · subst hn
    rw [if_neg (by simp), Nat.add_zero]
    refine ⟨_, h.toShape.setOffset ht hi hne hfile hnode he hfs hname, ?_⟩
    rw [← hfile, Function.update_eq_self]
    exact h.stores
  · rw [if_pos (by omega), hfield, Int.toNat_natCast]
    exact ⟨_, h.toShape.setOffset ht hi hne hfile hnode he hfs hname,
      Vfs.assign_offset h.stores hfile hlt⟩

@[simp] theorem Vfs.refused_advance (s : Vfs) (file : Nat) (n : Int) :
    (s.advance file n).refused = s.refused := by
  unfold Vfs.advance
  split <;> rfl

theorem Vfs.Same.advance (h : Vfs.Same s s') (file : Nat) (n : Int) :
    Vfs.Same s (s'.advance file n) := by
  unfold Vfs.advance
  split
  · exact h.setMem _
  · exact h

/-- `vfs_read` does what the store does. -/
theorem Represents.read {size : Nat} (h : Represents tasks s a objs rdir entries fds)
    (ht : s.current ∈ tasks)
    (h32 : ∀ i name offset, a.descriptor s.current fd = some (i, name, offset) →
      offset + size < 2 ^ 32) :
    ∃ objs', (s.vfsRead fd size).1 = (a.call s.current (.read fd size)).1 ∧
      Vfs.Same s (s.vfsRead fd size).2 ∧ Represents tasks (s.vfsRead fd size).2 (a.call s.current (.read fd size)).2 objs' rdir
        entries fds := by
  have hopen := h.openSlot ht fd
  unfold Vfs.vfsRead
  simp only [FileStore.call]
  cases hd : a.descriptor s.current fd with
  | none =>
      rw [hd] at hopen
      rw [hopen]
      exact ⟨objs, rfl, .refl s, h⟩
  | some slot =>
      obtain ⟨i, name, offset⟩ := slot
      rw [hd] at hopen
      rw [hopen]
      obtain ⟨hi, _, node, v, e, hfile, hnode, he, hfs, rfl⟩ := h.descriptor ht hd
      have hat : VfsFile.At s.mem (fds s.current i) ⟨node, offset⟩ := h.stores.here _ _ hfile
      have hcontent : a.content e.name = e.content := by
        rw [FileStore.content, h.content he, Option.getD_some]
      have hlt := h32 i e.name offset hd
      simp only [Option.map_some, h.field ht hi]
      rw [show s.field (fds s.current i) fileNodeOff = node from hat.node,
        show s.field (fds s.current i) fileOffsetOff = offset from hat.offset,
        (h.dir.at he).read h.stores hnode hfs hlt, hcontent]
      obtain ⟨objs', h'⟩ := h.advance ht hi hfile hnode he hfs rfl
        (n := (slice e.content offset size).length) (by rw [length_slice]; omega)
      exact ⟨objs', rfl, (Vfs.Same.refl s).advance _ _, h'⟩

/-- The block at `ptr` can be freed: its page begins with a block. -/
def Vfs.CanFree (s : Vfs) (ptr : Nat) : Prop := s.heap.Block (pageOf (ptr - headerSize))

/-- If a write through an open file moves the content, `kmalloc` can round the size up, and the
old block can be freed. -/
def Vfs.CanMove (s : Vfs) (file : Nat) (buf : Bytes) : Prop :=
  let rn := s.field (s.field file fileNodeOff) fsDataOff
  let needed := s.field file fileOffsetOff + buf.length
  buf ≠ [] → s.field rn sizeOff < needed →
    needed + 15 < 2 ^ 32 ∧ (s.field rn dataOff ≠ 0 → s.CanFree (s.field rn dataOff))

/-- `vfs_close` does what the store does, if the block of the open file can be freed. -/
theorem Represents.close (h : Represents tasks s a objs rdir entries fds)
    (ht : s.current ∈ tasks)
    (hfree : ∀ i, s.openSlot fd = some i → s.CanFree (s.field s.current (Vfs.fdOff i))) :
    ∃ s' objs' fds', s.vfsClose fd = .ok ((a.call s.current (.close fd)).1.1, s') ∧
      Vfs.Same s s' ∧ Represents tasks s' (a.call s.current (.close fd)).2 objs' rdir entries fds' := by
  have hopen := h.openSlot ht fd
  unfold Vfs.vfsClose
  simp only [FileStore.call]
  cases hd : a.descriptor s.current fd with
  | none =>
      rw [hd] at hopen
      rw [hopen]
      exact ⟨s, objs, fds, rfl, .refl s, h⟩
  | some slot =>
      obtain ⟨i, name, offset⟩ := slot
      rw [hd] at hopen
      have hblock := hfree i hopen
      rw [hopen]
      obtain ⟨hi, _, node, v, e, hfile, hnode, he, hfs, rfl⟩ := h.descriptor ht hd
      set t := s.current with ht'
      set file := fds t i with hfiledef
      have hne := h.stores.ne_zero hfile
      rw [h.field ht hi] at hblock
      obtain ⟨s1, hrun, hsame, _, hstores1⟩ := Vfs.kfree_spec h.stores hfile hblock
      have htf : t ≠ file := by
        intro heq
        have htask := h.task t ht
        rw [heq, hfile] at htask
        cases htask
      -- the word is cleared, and then nothing leads to the file
      have hcleared : SlotAt objs entries 0 none := rfl
      have hshape := h.toShape.setFd (i := i) ht hcleared (fun h0 => absurd rfl h0)
      have hgone := hshape.remove (f := ⟨node, offset⟩)
        (by rw [Function.update_of_ne (Ne.symm htf), hfile]) (fun t' ht' i' hi' heq => by
          by_cases hsame : t' = t ∧ i' = i
          · obtain ⟨rfl, rfl⟩ := hsame
            rw [Function.update_self, Function.update_self] at heq
            exact hne heq.symm
          · have hold : Function.update fds t (Function.update (fds t) i 0) t' i' = fds t' i' := by
              by_cases htt : t' = t
              · subst htt
                rw [Function.update_self, Function.update_of_ne fun hii => hsame ⟨rfl, hii⟩]
              · rw [Function.update_of_ne htt]
            rw [hold] at heq
            exact hsame (h.distinct t' ht' i' hi' t ht i hi heq (by rw [heq]; exact hne)))
      rw [Function.update_comm htf] at hgone
      have hstores2 := Vfs.assign_task hstores1 (p := t)
        (by rw [Function.update_of_ne htf, h.task t ht]) hi (show 0 < 2 ^ 32 by decide)
      refine ⟨_, _, Function.update fds t (Function.update (fds t) i 0), ?_, hsame.setMem _, ?_,
        hstores2⟩
      · simp only [Option.map_some, h.field ht hi, ← hfiledef, hrun, bind, Except.bind, pure,
          Except.pure]
        rw [hsame.current]
      · rw [Vfs.gRoot_setMem, hsame.gRoot]
        exact hgone

/-! ## Writing -/

/-- Files keep their nodes and their names. -/
def EntriesKept (entries entries' : List Entry) : Prop :=
  ∀ e ∈ entries, ∃ e' ∈ entries', e'.node = e.node ∧ e'.name = e.name

theorem EntriesKept.refl (entries : List Entry) : EntriesKept entries entries :=
  fun e he => ⟨e, he, rfl, rfl⟩

theorem EntriesKept.trans {entries'' : List Entry} (h : EntriesKept entries entries')
    (h' : EntriesKept entries' entries'') : EntriesKept entries entries'' := by
  intro e he
  obtain ⟨e1, he1, hnode1, hname1⟩ := h e he
  obtain ⟨e2, he2, hnode2, hname2⟩ := h' e1 he1
  exact ⟨e2, he2, hnode2.trans hnode1, hname2.trans hname1⟩

theorem entriesKept_setEntry {e e' : Entry} (hnode : e'.node = e.node) (hname : e'.name = e.name)
    (hnodes : ∀ x ∈ entries, x.node = e.node → x = e) :
    EntriesKept entries (setEntry entries e') := by
  intro x hx
  refine ⟨_, List.mem_map.mpr ⟨x, hx, rfl⟩, ?_⟩
  split
  · next heq =>
      rw [hnodes x hx (heq.trans hnode)]
      exact ⟨hnode, hname⟩
  · exact ⟨rfl, rfl⟩

/-- The file of a name after the content of one file was replaced. -/
theorem Directory.find_setEntry {e : Entry} (hd : Directory objs gRoot rdir entries)
    (he : e ∈ entries) (e' : Entry) (hnode : e'.node = e.node) (hname : e'.name = e.name) (name : Bytes) :
    ((setEntry entries e').find? fun x => x.name = name).map Entry.content =
      if name = e.name then some e'.content
      else (entries.find? fun x => x.name = name).map Entry.content := by
  have hsame : ∀ x ∈ entries, (if x.node = e'.node then e' else x).name = x.name := by
    intro x hx
    split
    · next heq => rw [hname, hd.eq_of_node hx he (heq.trans hnode)]
    · rfl
  have hfind : (setEntry entries e').find? (fun x => x.name = name) =
      (entries.find? fun x => x.name = name).map fun x =>
        if x.node = e'.node then e' else x := by
    rw [setEntry, List.find?_map]
    refine congrArg _ (List.find?_congr fun x hx => ?_)
    simp only [Function.comp_apply, hsame x hx]
  rw [hfind, Option.map_map]
  cases hf : entries.find? fun x => x.name = name with
  | none =>
      rw [List.find?_eq_none] at hf
      have hne : name ≠ e.name := fun heq => by simpa [heq] using hf e he
      rw [if_neg hne]
      rfl
  | some x =>
      obtain ⟨hx, hxname⟩ := Directory.find_mem hf
      simp only [Option.map_some, Function.comp_apply]
      by_cases hn : name = e.name
      · obtain rfl := hd.eq_of_name hx he (hxname.trans hn)
        rw [if_pos hn, if_pos hnode.symm]
      · rw [if_neg hn, if_neg]
        intro heq
        rw [hd.eq_of_node hx he (heq.trans hnode)] at hxname
        exact hn hxname.symm

/-- The content of a file changed. -/
theorem Shape.setFile {e : Entry} {content : Bytes} {data : Nat}
    (h : Shape tasks gRoot a objs rdir entries fds) (h0 : objs 0 = none) (he : e ∈ entries)
    (hdir : Directory objs' gRoot rdir
      (setEntry entries { e with content := content, data := data }))
    (hothers : OthersKept objs objs' e) :
    Shape tasks gRoot (a.setFile e.name content) objs' rdir
      (setEntry entries { e with content := content, data := data }) fds := by
  have hold := (h.dir.at he).rest_kept h0 hothers
  refine ⟨hdir, fun name => ?_, fun t ht => hold _ _ (h.task t ht) (by simp) (by simp),
    fun t ht i hi => (h.slot t ht i hi).congr hold
      (entriesKept_setEntry (e := e) rfl rfl fun x hx => h.dir.eq_of_node hx he), h.distinct⟩
  rw [h.dir.find_setEntry he { e with content := content, data := data } rfl rfl, ← h.files]
  exact Function.update_apply ..

/-- `vfs_write` does what the store does, if it gets the memory it asks for and the old block of
the file can be freed. -/
theorem Represents.write {buf : Bytes} (h : Represents tasks s a objs rdir entries fds)
    (ht : s.current ∈ tasks)
    (h32 : ∀ i name offset, a.descriptor s.current fd = some (i, name, offset) →
      offset + buf.length < 2 ^ 32)
    (hfree : ∀ i, s.openSlot fd = some i → s.CanMove (s.field s.current (Vfs.fdOff i)) buf)
    (hg : (Vfs.after (s.vfsWrite fd buf)).refused = false) :
    ∃ s' objs' entries', s.vfsWrite fd buf = .ok ((a.call s.current (.write fd buf)).1.1, s') ∧
      Vfs.Same s s' ∧ EntriesKept entries entries' ∧
      Represents tasks s' (a.call s.current (.write fd buf)).2 objs' rdir entries' fds := by
  have hopen := h.openSlot ht fd
  unfold Vfs.vfsWrite at hg ⊢
  simp only [FileStore.call]
  cases hd : a.descriptor s.current fd with
  | none =>
      rw [hd] at hopen
      rw [hopen]
      exact ⟨s, objs, entries, rfl, .refl s, .refl entries, h⟩
  | some slot =>
      obtain ⟨i, name, offset⟩ := slot
      rw [hd] at hopen
      have hroom := hfree i hopen
      rw [hopen] at hg ⊢
      obtain ⟨hi, _, node, v, e, hfile, hnode, he, hfs, rfl⟩ := h.descriptor ht hd
      have hat : VfsFile.At s.mem (fds s.current i) ⟨node, offset⟩ := h.stores.here _ _ hfile
      have hnodeF : s.field (fds s.current i) fileNodeOff = node := hat.node
      have hoffF : s.field (fds s.current i) fileOffsetOff = offset := hat.offset
      have hcontent : a.content e.name = e.content := by
        rw [FileStore.content, h.content he, Option.getD_some]
      have hlt := h32 i e.name offset hd
      obtain ⟨hfsF, _, hsizeF, hdataF⟩ := (h.dir.at he).fields h.stores hnode hfs
      simp only [Vfs.CanMove, h.field ht hi, hnodeF, hoffF, hfsF, hsizeF, hdataF] at hroom
      simp only [Option.map_some, h.field ht hi, hnodeF, hoffF, hcontent] at hg ⊢
      by_cases hbuf : buf = []
      · subst hbuf
        rw [(h.dir.at he).write_nil h.stores hnode hfs] at hg ⊢
        obtain ⟨objs', h'⟩ := h.advance ht hi hfile hnode he hfs rfl (n := 0) (by omega)
        have hsame : a.setFile e.name e.content = a := by
          rw [FileStore.setFile, ← h.content he, Function.update_eq_self]
        refine ⟨_, objs', entries, rfl, ?_, .refl entries, ?_⟩
        · rw [Vfs.advance, if_neg (by omega)]
          exact .refl s
        · simp only [if_true, hsame]
          exact h'
      · have hle := (h.dir.at he).content_le h.stores
        simp only [userMemStart] at hle
        have hneed : offset + buf.length + 15 < 2 ^ 32 := by
          by_cases hgrow : e.content.length < offset + buf.length
          · exact (hroom hbuf hgrow).1
          · omega
        have hg1 := Vfs.granted_of_bind (fun x hx => by
          simpa only [Vfs.Records, Vfs.after, pure, Except.pure, Vfs.refused_advance] using hx) hg
        obtain ⟨n, s1, hrun, hsame, _, hres⟩ := (h.dir.at he).write h.stores hnode hfs hbuf hneed
          fun h0 hgrow => (hroom hbuf hgrow).2 h0
        rw [hrun] at hg1
        obtain ⟨rfl, objs1, data, hstores, hbecomes⟩ := hres.resolve_left fun hno => by
          have hfalse : s1.refused = false := hg1
          rw [hno.2.1] at hfalse
          cases hfalse
        have hdir := h.dir.becomes h.stores.zero he hbecomes
        have hothers := hbecomes.others
        have hold := (h.dir.at he).rest_kept h.stores.zero hothers
        set e1 : Entry := { e with content := overwrite 0 e.content offset buf, data := data }
        have h1 : Represents tasks s1 (a.setFile e.name (overwrite 0 e.content offset buf)) objs1
            rdir (setEntry entries e1) fds := by
          refine ⟨?_, hstores⟩
          rw [hsame.gRoot]
          exact h.toShape.setFile h.stores.zero he hdir hothers
        obtain ⟨objs2, h2⟩ := h1.advance ht hi (hold _ _ hfile (by simp) (by simp))
          (hold _ _ hnode (by simp) (by simp)) (mem_setEntry_self he rfl) hfs rfl hlt
        have hkept : EntriesKept entries (setEntry entries e1) :=
          entriesKept_setEntry (e := e) rfl rfl fun x hx => h.dir.eq_of_node hx he
        refine ⟨s1.advance (fds s.current i) buf.length, objs2, _, ?_, hsame.advance _ _, hkept,
          ?_⟩
        · rw [hrun]
          rfl
        · simp only [if_neg hbuf]
          exact h2

/-! ## Opening -/

/-- A file was created. -/
theorem Shape.create {rn : Nat} (h : Shape tasks gRoot a objs rdir entries fds)
    (hname : ∀ e ∈ entries, e.name ≠ name)
    (hdir : Directory objs' gRoot rdir (⟨rn, name, [], 0⟩ :: entries))
    (hold : ∀ p o, objs p = some o → (∀ n, o ≠ .ramfsNode n) → objs' p = some o) :
    Shape tasks gRoot (a.create name) objs' rdir (⟨rn, name, [], 0⟩ :: entries) fds := by
  have hnone : a.files name = none := by
    rw [h.files, List.find?_eq_none.mpr fun e he => by simpa using hname e he]
    rfl
  have hcreate : a.create name = a.setFile name [] := by
    rw [FileStore.create, hnone]
    rfl
  rw [hcreate]
  refine ⟨hdir, fun other => ?_, fun t ht => hold _ _ (h.task t ht) (by simp),
    fun t ht i hi => (h.slot t ht i hi).congr (fun q o hq ho _ => hold q o hq ho)
      fun e he => ⟨e, List.mem_cons_of_mem _ he, rfl, rfl⟩, h.distinct⟩
  by_cases hother : name = other
  · subst hother
    rw [List.find?_cons_of_pos (by simp)]
    exact Function.update_self ..
  · rw [List.find?_cons_of_neg (by simpa using hother), ← h.files]
    exact Function.update_of_ne (Ne.symm hother) ..

/-- More objects make no difference. -/
theorem Shape.congr (h : Shape tasks gRoot a objs rdir entries fds)
    (hold : ∀ p o, objs p = some o → objs' p = some o) :
    Shape tasks gRoot a objs' rdir entries fds :=
  ⟨h.dir.congr fun p o hp _ _ => hold p o hp, h.files, fun t ht => hold _ _ (h.task t ht),
    fun t ht i hi => (h.slot t ht i hi).congr (fun q o hq _ _ => hold q o hq)
      fun e he => ⟨e, he, rfl, rfl⟩, h.distinct⟩

/-- Opening the file makes no second file of a name: a name that is cut is not there yet. -/
def OpensOnce (entries : List Entry) (name : Bytes) : Prop :=
  nameMax < name.length → ∀ e ∈ entries, e.name ≠ name.take nameMax

/-- The names of the directory after a file of this name was opened. -/
def addName (name : Bytes) (names : List Bytes) : List Bytes :=
  if name ∈ names then names else name :: names

/-- The node that `vfs_open` works with is a wrapper of the file of that name. -/
theorem Represents.openNode (h : Represents tasks s a objs rdir entries fds)
    (hname : FileName name) (honce : OpensOnce entries name)
    (hg : (Vfs.after (s.openNode (Vfs.slash :: name))).refused = false) :
    ∃ vn s' objs' entries' e, s.openNode (Vfs.slash :: name) = .ok (vn, s') ∧ Vfs.Same s s' ∧
      vn ≠ 0 ∧ Represents tasks s' (a.create (name.take nameMax)) objs' rdir entries' fds ∧
      EntriesKept entries entries' ∧
      entries'.map Entry.name = addName (name.take nameMax) (entries.map Entry.name) ∧
      e ∈ entries' ∧ e.name = name.take nameMax ∧
      objs' vn = some (.vfsNode ⟨vfsTypeFile, e.node⟩) := by
  unfold Vfs.openNode at hg ⊢
  cases hfind : entries.find? fun e => e.name = name.take nameMax with
  | none =>
      have hnew : ∀ e ∈ entries, e.name ≠ name.take nameMax := fun e he => by
        simpa using List.find?_eq_none.mp hfind e he
      rw [h.dir.vfsLookup_absent h.stores hname hfind] at hg ⊢
      simp only [bind, Except.bind, if_true] at hg ⊢
      rw [h.dir.openCreate_file h.stores hname] at hg ⊢
      obtain ⟨rn, vn, s', objs', hrun, hsame, hvn, hstores, hdir, hobj, hold⟩ :=
        h.dir.create h.stores hname.noNul hnew hg
      obtain ⟨n, hn, _⟩ := h.dir.children
      refine ⟨vn, s', objs', _, ⟨rn, name.take nameMax, [], 0⟩, hrun, hsame, hvn, ⟨?_, hstores⟩,
        fun e he => ⟨e, List.mem_cons_of_mem _ he, rfl, rfl⟩, ?_, List.mem_cons_self, rfl, hobj⟩
      swap
      · rw [addName, if_neg, List.map_cons]
        intro hmem
        obtain ⟨e, he, heq⟩ := List.mem_map.mp hmem
        exact hnew e he heq
      rw [hsame.gRoot]
      refine h.toShape.create hnew hdir fun p o hp ho => hold p o hp ?_
      rintro rfl
      rw [hn] at hp
      exact ho _ (Option.some.inj hp).symm
  | some e =>
      obtain ⟨he, hename⟩ := Directory.find_mem hfind
      have hshort : name.length ≤ nameMax := by
        by_contra hlong
        exact honce (by omega) e he hename
      rw [List.take_of_length_le hshort] at hfind hename ⊢
      subst hename
      rw [h.dir.vfsLookup_file h.stores hname hshort] at hg ⊢
      obtain ⟨vn, s', hrun, hmade⟩ := h.dir.rootList.lookup_some h.stores hname.noNul hshort hfind
      rw [hrun] at hg ⊢
      simp only [bind, Except.bind, pure, Except.pure] at hg ⊢
      have hcreate : a.create e.name = a := by
        rw [FileStore.create, h.content he]
        rfl
      by_cases hvn : vn = 0
      · -- without memory for the wrapper the request is on record
        rw [if_pos hvn] at hg
        have href : s'.refused = true := by rw [hmade.refused, hvn]; simp
        have hrec : Vfs.Records (s'.openCreate (Vfs.slash :: e.name)) :=
          Vfs.records_openCreate href _
        rw [Vfs.Records, hg] at hrec
        cases hrec
      · rw [if_neg hvn]
        have hstores := hmade.stores
        rw [if_neg hvn] at hstores
        refine ⟨vn, s', _, entries, e, rfl, hmade.same, hvn, ⟨?_, hstores⟩, .refl entries,
          (if_pos (List.mem_map_of_mem he)).symm, he, rfl, Function.update_self ..⟩
        rw [hmade.same.gRoot, hcreate]
        refine h.toShape.congr fun p o hp => ?_
        have hne : p ≠ vn := by
          rintro rfl
          rw [hmade.fresh hvn] at hp
          cases hp
        rw [Function.update_of_ne hne, hp]

/-- `vfs_open` does what the store does, if it gets the memory it asks for. -/
theorem Represents.open {flags : Nat} (h : Represents tasks s a objs rdir entries fds)
    (ht : s.current ∈ tasks) (hname : FileName name) (honce : OpensOnce entries name)
    (hg : (Vfs.after (s.vfsOpen (Vfs.slash :: name) flags)).refused = false) :
    ∃ s' objs' entries' fds', s.vfsOpen (Vfs.slash :: name) flags =
        .ok ((a.call s.current (.open (name.take nameMax) flags)).1.1, s') ∧ Vfs.Same s s' ∧
      EntriesKept entries entries' ∧
      entries'.map Entry.name = (if (a.lowestFree s.current).isSome then
        addName (name.take nameMax) (entries.map Entry.name) else entries.map Entry.name) ∧
      Represents tasks s' (a.call s.current (.open (name.take nameMax) flags)).2 objs' rdir
        entries' fds' := by
  have hslot := h.freeSlot ht
  have hnode : ∀ i, a.lowestFree s.current = some i →
      (Vfs.after (s.openNode (Vfs.slash :: name))).refused = false := fun i hi =>
    Vfs.granted_openNode (h.task_ne_zero ht) (hslot.trans hi) hg
  unfold Vfs.vfsOpen at hg ⊢
  simp only [FileStore.call]
  rw [if_neg (h.task_ne_zero ht), hslot] at hg ⊢
  cases hfree : a.lowestFree s.current with
  | none => exact ⟨s, objs, entries, fds, rfl, .refl s, .refl entries, rfl, h⟩
  | some i =>
      obtain ⟨hi, _⟩ := lowestFree_some hfree
      rw [hfree] at hg
      simp only at hg ⊢
      have hg1 := hnode i hfree
      obtain ⟨vn, s1, objs1, entries1, e, hrun1, hsame1, hvn, h1, hkept, hnames, he, hename, hobj⟩ :=
        h.openNode hname honce hg1
      rw [hrun1] at hg ⊢
      simp only [bind, Except.bind, pure, Except.pure, if_neg hvn] at hg ⊢
      have hvnlt : vn < 2 ^ 32 := by
        have := (h1.stores.bounds hobj).2.2
        simp only [userMemStart] at this
        omega
      obtain ⟨file, s2, hrun2, hmade2⟩ := Vfs.kmalloc_fill (o := .vfsFile ⟨vn, 0⟩)
        (fun m file => ((m.store32 (file + fileNodeOff) vn).store32 (file + fileOffsetOff) 0).store32
          (file + fileFlagsOff) flags) h1.stores (show vfsFileSize + 15 < 2 ^ 32 by decide)
        (fun _ _ _ _ => fillVfsFile_at _ hvnlt) fun _ _ _ hx => fillVfsFile_outside hx
      have hrun2 : s1.kmalloc vfsFileSize = .ok (file, s2) := hrun2
      rw [hrun2] at hg ⊢
      simp only at hg ⊢
      have hfile : file ≠ 0 := by
        intro h0
        rw [if_pos h0] at hg hmade2
        have hg : s2.refused = false := hg
        have href := hmade2.refused
        rw [hg, h0] at href
        simp at href
      simp only [if_neg hfile] at hg hmade2 ⊢
      have hfresh := hmade2.fresh hfile
      have hstores2 := hmade2.stores
      rw [if_neg hfile] at hstores2
      have hcur : s2.current = s.current := hmade2.same.current.trans hsame1.current
      set objs2 := Function.update objs1 file (some (.vfsFile ⟨vn, 0⟩)) with hobjs2
      have hold : ∀ p o, objs1 p = some o → objs2 p = some o := by
        intro p o hp
        have hne : p ≠ file := by
          rintro rfl
          rw [hfresh] at hp
          cases hp
        rw [hobjs2, Function.update_of_ne hne, hp]
      have hfilelt : file < 2 ^ 32 := by
        have := (hstores2.bounds (p := file) (Function.update_self ..)).2.2
        simp only [userMemStart] at this
        omega
      -- the new open file is in no slot yet
      have hunused : ∀ t ∈ tasks, ∀ i, i < maxFdPerTask → fds t i ≠ file := by
        intro t ht i hi heq
        have hat := h1.slot t ht i hi
        rw [heq] at hat
        cases hs : (a.create (name.take nameMax)).slots t i with
        | none =>
            rw [hs] at hat
            exact hfile hat
        | some slot =>
            rw [hs] at hat
            obtain ⟨_, _, _, hobj', _⟩ := hat
            rw [hfresh] at hobj'
            cases hobj'
      have hslot : SlotAt objs2 entries1 file (some (name.take nameMax, 0)) :=
        ⟨vn, _, e, Function.update_self .., hold _ _ hobj, he, rfl, hename⟩
      have hshape := (h1.toShape.congr hold).setFd (i := i) ht hslot fun _ => hunused
      have hstores3 := Vfs.assign_task hstores2 (hold _ _ (h1.task _ ht)) hi hfilelt
      refine ⟨_, _, entries1,
        Function.update fds s.current (Function.update (fds s.current) i file), ?_, ?_, hkept,
        hnames, ?_, hstores3⟩
      · simp only [Vfs.current_setMem, hcur]
        rfl
      · exact (hsame1.trans hmade2.same).setMem _
      · rw [Vfs.gRoot_setMem, hmade2.same.gRoot]
        exact hshape

end Kumo
