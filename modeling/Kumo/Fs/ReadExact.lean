import Kumo.Fs.FileRuns

/-!
# Exact reads

`ramfs_read` compares the length of the file with `offset + size`, a sum of 32 bits. If the
sum wraps, the request is not cut down to what is left of the file, and the copy loop runs on
through the heap. Offset and size come from a descriptor and from a system call.
-/

namespace Kumo

open Memory Content Transition

namespace Vfs

/-- The addresses from which `ramfs_read` copies. -/
def readAddresses (s : Vfs) (node offset size : Nat) : List Nat :=
  let rn := s.field node fsDataOff
  (List.range (s.ramfsRead node offset size).2.length).map fun i =>
    s.field rn dataOff + (offset + i) % 2 ^ 32

variable {s : Vfs} {node offset size data : Nat} {content : Bytes}

/-- The bytes delivered are those at the addresses. -/
theorem ramfsRead_bytes (s : Vfs) (node offset size : Nat) :
    (s.ramfsRead node offset size).2 = (s.readAddresses node offset size).map s.mem := by
  unfold readAddresses ramfsRead
  dsimp only
  by_cases htype : s.field (s.field node fsDataOff) typeOff ≠ vfsTypeFile
  · simp only [if_pos htype, List.length_nil, List.range_zero, List.map_nil]
  · simp only [if_neg htype]
    split
    · rfl
    · simp

/-- A read delivers what is left of the file, at most as much as was asked for, from the block of
the file. -/
structure ReadExact (s : Vfs) (node offset size data : Nat) (content : Bytes) : Prop where
  count : (s.ramfsRead node offset size).1 = (min size (content.length - offset) : Nat)
  bytes : (s.ramfsRead node offset size).2 = slice content offset size
  inside : ∀ x ∈ s.readAddresses node offset size, data ≤ x ∧ x < data + content.length

/-- At the end of a file, or beyond it, there is nothing to read. -/
theorem FileNode.read_end (h : s.FileNode node data content) (size : Nat)
    (hend : content.length ≤ offset) : s.ramfsRead node offset size = (0, []) := by
  unfold ramfsRead
  rw [if_neg (not_not.mpr h.type), if_pos (.inr (by rw [h.size]; exact hend))]

/-- A request whose sum wraps is copied whole. -/
theorem FileNode.read_wrapped (h : s.FileNode node data content) (hsize : size < 2 ^ 32)
    (hoffset : offset < content.length) (hwrap : 2 ^ 32 ≤ offset + size) :
    (s.ramfsRead node offset size).2.length = size := by
  have hne : content ≠ [] := fun hnil => by simp [hnil] at hoffset
  have hlen := h.inZone
  simp only [userMemStart] at hlen
  unfold ramfsRead
  simp only [h.type, h.size, h.buffer, ne_eq, not_true_eq_false, if_false]
  rw [if_neg (by rintro (h0 | hle); exacts [h.block hne h0, by omega]), if_neg (by omega),
    List.length_map, List.length_range]

/-- A read is exact just if offset and size add up without wrapping, or the offset is not inside the
file. -/
theorem ramfs_read_exact_iff (s : Vfs) (node data : Nat) (content : Bytes)
    (h : s.FileNode node data content) (offset size : Nat) (hoffset : offset < 2 ^ 32)
    (hsize : size < 2 ^ 32) :
    s.ReadExact node offset size data content ↔
      offset + size < 2 ^ 32 ∨ content.length ≤ offset := by
  have hzone := h.inZone
  simp only [userMemStart] at hzone
  by_cases hend : content.length ≤ offset
  · have hread := h.read_end size hend
    refine iff_of_true ⟨?_, ?_, fun x hx => ?_⟩ (.inr hend)
    · rw [hread, Nat.sub_eq_zero_of_le hend, Nat.min_zero]
      rfl
    · rw [hread, slice_of_le _ _ hend]
    · rw [readAddresses, hread] at hx
      cases hx
  · by_cases hwrap : offset + size < 2 ^ 32
    · have hread := h.read hwrap
      refine iff_of_true ⟨?_, ?_, fun x hx => ?_⟩ (.inl hwrap)
      · rw [hread, length_slice]
      · rw [hread]
      · rw [readAddresses, hread] at hx
        obtain ⟨i, hi, rfl⟩ := List.mem_map.mp hx
        rw [List.mem_range, length_slice] at hi
        rw [h.buffer, Nat.mod_eq_of_lt (by omega)]
        omega
    · refine iff_of_false (fun hexact => ?_) (by omega)
      have hlen := congrArg List.length hexact.bytes
      rw [h.read_wrapped hsize (by omega) (by omega), length_slice] at hlen
      omega

end Vfs

/-- Five bytes. -/
def sampleContent : Bytes := [104, 101, 108, 108, 111]

/-- A machine whose task has written them into a file. -/
def sampleWritten : Vfs :=
  match (run FileSession.step (FileSession.start (sampleMachine 16))
    [(sampleTask, .open [0x61] 0), (sampleTask, .write 0 sampleContent)]) with
  | some σ => σ.vfs
  | none => sampleMachine 16

/-- The wrapper that its descriptor leads to. -/
def sampleNode : Nat := 0x100198

theorem sampleWritten_node :
    sampleWritten.FileNode sampleNode 0x100208 sampleContent :=
  ⟨by decide +kernel, by decide +kernel, by decide +kernel, by decide +kernel, by decide,
    by decide⟩

/-- The exactness of a read in the middle of that file. -/
theorem ramfs_read_exact_iff_sample :
    sampleWritten.ReadExact sampleNode 1 3 0x100208 sampleContent ↔
      1 + 3 < 2 ^ 32 ∨ sampleContent.length ≤ 1 :=
  Vfs.ramfs_read_exact_iff sampleWritten sampleNode 0x100208 sampleContent
    sampleWritten_node 1 3 (by decide) (by decide)

/-- A read of `2 ^ 32 - 1` bytes at offset 1 does not stop at the end of the file. -/
theorem ramfs_read_overruns : ¬ ∀ (s : Vfs) (node data : Nat) (content : Bytes),
    s.FileNode node data content → ∀ offset size, offset < 2 ^ 32 → size < 2 ^ 32 →
    s.ReadExact node offset size data content := by
  intro hclaim
  have hexact := hclaim sampleWritten sampleNode 0x100208 sampleContent
    sampleWritten_node 1 (2 ^ 32 - 1) (by decide) (by decide)
  have hlen := congrArg List.length hexact.bytes
  rw [sampleWritten_node.read_wrapped (by decide) (by decide) (by decide), length_slice] at hlen
  exact absurd hlen (by decide)

end Kumo
