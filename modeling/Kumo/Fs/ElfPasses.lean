import Kumo.Fs.Elf

/-!
# What the passes of the ELF loader do

One lemma for each loop of `elf_load`: the memory it leaves and, for a set `F` of addresses
of the file and a set `W` of addresses that may be written, which conditions on the file
keep its accesses inside the two. As long as only addresses of `W` are written the file
stays as it was, so all loops see the same headers.
-/

namespace Kumo

open Memory

namespace Elf

/-- The fields of a `PT_LOAD` header that the loader uses. -/
structure Segment where
  offset : Nat
  vaddr : Nat
  filesz : Nat
  memsz : Nat
  deriving DecidableEq, Repr

/-- The fields in memory. -/
def segmentAt (m : Memory) (phdr : Nat) : Segment :=
  ⟨pOffset m phdr, pVaddr m phdr, pFilesz m phdr, pMemsz m phdr⟩

/-- The `PT_LOAD` headers among `count` headers from header `i` on. -/
def segmentsFrom (m : Memory) (elfData : Nat) : Nat → Nat → List Segment
  | 0, _ => []
  | count + 1, i =>
      if pType m (phdrAt m elfData i) = ptLoad then
        segmentAt m (phdrAt m elfData i) :: segmentsFrom m elfData count (i + 1)
      else segmentsFrom m elfData count (i + 1)

/-- The `PT_LOAD` headers of a file. -/
def segments (m : Memory) (elfData : Nat) : List Segment :=
  segmentsFrom m elfData (ePhnum m elfData) 0

variable {F W : Nat → Prop} {m m0 : Memory} {elfData loadBase phdr i j count fuel : Nat}
  {s : Loader} {r : Range}

theorem ePhnum_lt (m : Memory) (elfData : Nat) : ePhnum m elfData < phnumFuel :=
  load16_lt m _

/-- The `PT_LOAD` headers come from the table. -/
theorem mem_segmentsFrom {g : Segment} (h : g ∈ segmentsFrom m elfData count i) :
    ∃ k, i ≤ k ∧ k < i + count ∧ pType m (phdrAt m elfData k) = ptLoad ∧
      g = segmentAt m (phdrAt m elfData k) := by
  induction count generalizing i with
  | zero => exact nomatch h
  | succ count ih =>
      rw [segmentsFrom] at h
      split at h
      · next hload =>
          rcases List.mem_cons.mp h with rfl | hrest
          · exact ⟨i, Nat.le_refl i, by omega, hload, rfl⟩
          · obtain ⟨k, h1, h2, h3⟩ := ih hrest
            exact ⟨k, by omega, by omega, h3⟩
      · obtain ⟨k, h1, h2, h3⟩ := ih h
        exact ⟨k, by omega, by omega, h3⟩

theorem segmentAt_mem {k : Nat} (hlow : i ≤ k) (hup : k < i + count)
    (hload : pType m (phdrAt m elfData k) = ptLoad) :
    segmentAt m (phdrAt m elfData k) ∈ segmentsFrom m elfData count i := by
  induction count generalizing i with
  | zero => omega
  | succ count ih =>
      rw [segmentsFrom]
      rcases Nat.eq_or_lt_of_le hlow with rfl | hlt
      · rw [if_pos hload]
        exact List.mem_cons_self ..
      · have hrest := ih (show i + 1 ≤ k from hlt) (by omega)
        split
        · exact List.mem_cons_of_mem _ hrest
        · exact hrest

/-! ## The log -/

/-- What was read through `elf_data` belongs to `F`, and what was written to `W`. -/
def Confined (F W : Nat → Prop) (s : Loader) : Prop := AllWithin F s.reads ∧ AllWithin W s.writes

@[simp] theorem mem_reading (addr size : Nat) : (s.reading addr size).mem = s.mem := rfl

@[simp] theorem heap_reading (addr size : Nat) : (s.reading addr size).heap = s.heap := rfl

@[simp] theorem mem_readingPhnum : (s.readingPhnum elfData).mem = s.mem := rfl

@[simp] theorem mem_readingPhdr : (s.readingPhdr elfData i).mem = s.mem := rfl

@[simp] theorem mem_storing8 (addr : Nat) (value : BitVec 8) :
    (s.storing8 addr value).mem = s.mem.store8 addr value := rfl

@[simp] theorem mem_storing32 (addr value : Nat) :
    (s.storing32 addr value).mem = s.mem.store32 addr value := rfl

@[simp] theorem confined_reading {addr size : Nat} :
    Confined F W (s.reading addr size) ↔ MemAccess.Within F ⟨addr, size⟩ ∧ Confined F W s := by
  rw [Confined, Confined, Loader.reading, allWithin_cons, and_assoc]

@[simp] theorem confined_storing8 {addr : Nat} {value : BitVec 8} :
    Confined F W (s.storing8 addr value) ↔ W addr ∧ Confined F W s := by
  rw [Confined, Confined, Loader.storing8, allWithin_cons, within_byte, and_left_comm]

@[simp] theorem confined_storing32 {addr value : Nat} :
    Confined F W (s.storing32 addr value) ↔ MemAccess.Within W ⟨addr, 4⟩ ∧ Confined F W s := by
  rw [Confined, Confined, Loader.storing32, allWithin_cons, and_left_comm]

/-- The words that find header `i`, and its type. -/
def PhdrWithin (F : Nat → Prop) (m : Memory) (elfData i : Nat) : Prop :=
  MemAccess.Within F ⟨add32 elfData 28, 4⟩ ∧ MemAccess.Within F ⟨add32 elfData 42, 2⟩ ∧
    MemAccess.Within F ⟨phdrAt m elfData i, 4⟩

theorem confined_readingPhdr :
    Confined F W (s.readingPhdr elfData i) ↔ PhdrWithin F s.mem elfData i ∧ Confined F W s := by
  rw [Loader.readingPhdr, confined_reading, confined_reading, confined_reading, PhdrWithin]
  tauto

theorem confined_readingPhnum : Confined F W (s.readingPhnum elfData) ↔
    MemAccess.Within F ⟨add32 elfData 44, 2⟩ ∧ Confined F W s :=
  confined_reading

/-! ## The identification -/

/-- The check reads up to the first byte that differs. -/
theorem checkIdent_spec (elfData i : Nat) (bs : List (BitVec 8)) (s : Loader) :
    (checkIdent elfData bs i s).2.heap = s.heap ∧
      ((checkIdent elfData bs i s).1 = true ↔
        ∀ (k : Nat) (hk : k < bs.length), s.mem (add32 elfData (i + k)) = bs[k]) ∧
      (Confined F W (checkIdent elfData bs i s).2 ↔ Confined F W s ∧
        ∀ (k : Nat) (_ : k < bs.length), (∀ (l : Nat) (hl : l < bs.length), l < k →
          s.mem (add32 elfData (i + l)) = bs[l]) → F (add32 elfData (i + k))) := by
  induction bs generalizing i s with
  | nil => exact ⟨rfl, iff_of_true rfl fun k hk => absurd hk (by simp), by simp [checkIdent]⟩
  | cons b bs ih =>
      rw [checkIdent]
      by_cases hb : s.mem (add32 elfData i) = b
      · obtain ⟨hheap, hvalue, hlog⟩ := ih (i + 1) (s.reading (add32 elfData i) 1)
        simp only [mem_reading, hb, ne_eq, not_true_eq_false, if_false]
        refine ⟨hheap, hvalue.trans ⟨fun h k hk => ?_, fun h k hk => ?_⟩, hlog.trans ?_⟩
        · cases k with
          | zero => exact hb
          | succ k =>
              have := h k (by simpa using hk)
              rwa [mem_reading, Nat.add_right_comm, Nat.add_assoc] at this
        · have := h (k + 1) (by simpa using hk)
          rwa [← Nat.add_assoc, Nat.add_right_comm] at this
        · rw [confined_reading, within_byte]
          simp only [mem_reading]
          constructor
          · rintro ⟨⟨hfirst, hs⟩, hrest⟩
            refine ⟨hs, fun k hk hbefore => ?_⟩
            cases k with
            | zero => exact hfirst
            | succ k =>
                have := hrest k (by simpa using hk) fun l hl hlk => by
                  have := hbefore (l + 1) (by simpa using hl) (by omega)
                  rwa [← Nat.add_assoc, Nat.add_right_comm] at this
                rwa [Nat.add_right_comm, Nat.add_assoc] at this
          · rintro ⟨hs, hall⟩
            refine ⟨⟨hall 0 (by simp) fun l _ hl => absurd hl (by omega), hs⟩, fun k hk hbefore => ?_⟩
            have := hall (k + 1) (by simpa using hk) fun l hl hlk => by
              cases l with
              | zero => exact hb
              | succ l =>
                  have := hbefore l (by simpa using hl) (by omega)
                  rwa [Nat.add_right_comm, Nat.add_assoc] at this
            rwa [← Nat.add_assoc, Nat.add_right_comm] at this
      · simp only [mem_reading, hb, ne_eq, not_false_eq_true, if_true]
        refine ⟨rfl, iff_of_false (by simp) fun h => hb (h 0 (by simp)), ?_⟩
        rw [confined_reading, within_byte, and_comm]
        refine and_congr_right fun _ => ⟨fun h k hk hbefore => ?_, fun h =>
          h 0 (by simp) fun l _ hl => absurd hl (by omega)⟩
        cases k with
        | zero => exact h
        | succ k => exact absurd (hbefore 0 (by simp) (by omega)) hb

/-! ## Pass 1 -/

/-- What the first pass reads of header `i`. -/
def RangeRead (F : Nat → Prop) (m : Memory) (elfData i : Nat) : Prop :=
  PhdrWithin F m elfData i ∧ (pType m (phdrAt m elfData i) = ptLoad →
    MemAccess.Within F ⟨add32 (phdrAt m elfData i) 8, 4⟩ ∧
      MemAccess.Within F ⟨add32 (phdrAt m elfData i) 20, 4⟩)

/-- The loop body over the segments. -/
def extendRange (r : Range) (g : Segment) : Range := r.extend g.vaddr (add32 g.vaddr g.memsz)

/-- A statement about the headers from `i` on, and one about header `i` and those after it. -/
theorem forall_from_iff {p : Nat → Prop} {n : Nat} (hi : i < n) :
    (∀ k, i ≤ k → k < n → p k) ↔ p i ∧ ∀ k, i + 1 ≤ k → k < n → p k := by
  constructor
  · exact fun h => ⟨h i (Nat.le_refl i) hi, fun k h1 h2 => h k (by omega) h2⟩
  · rintro ⟨hfirst, hrest⟩ k h1 h2
    rcases Nat.eq_or_lt_of_le h1 with rfl | hlt
    · exact hfirst
    · exact hrest k hlt h2

/-- The first pass goes over the `PT_LOAD` headers. It reads the fields it needs, and does not
write. -/
theorem findRange_spec (elfData fuel i : Nat) (r : Range) (s : Loader)
    (hi : i ≤ ePhnum s.mem elfData) (hfuel : ePhnum s.mem elfData < i + fuel) :
    (findRange elfData fuel i r s).2.heap = s.heap ∧
      (findRange elfData fuel i r s).1 =
        (segmentsFrom s.mem elfData (ePhnum s.mem elfData - i) i).foldl extendRange r ∧
      (Confined F W (findRange elfData fuel i r s).2 ↔ Confined F W s ∧
        MemAccess.Within F ⟨add32 elfData 44, 2⟩ ∧
        ∀ k, i ≤ k → k < ePhnum s.mem elfData → RangeRead F s.mem elfData k) := by
  induction fuel generalizing i r s with
  | zero => omega
  | succ fuel ih =>
      rw [findRange]
      dsimp only
      rw [mem_readingPhnum]
      by_cases hend : ePhnum s.mem elfData ≤ i
      · rw [if_pos hend]
        refine ⟨rfl, ?_, ?_⟩
        · rw [Nat.sub_eq_zero_of_le hend]
          rfl
        · rw [Loader.readingPhnum, confined_reading, and_comm]
          refine and_congr_right fun _ => (and_iff_left fun k h1 h2 => ?_).symm
          omega
      · have hlt : i < ePhnum s.mem elfData := by omega
        rw [if_neg hend, mem_readingPhdr, mem_readingPhnum, forall_from_iff hlt,
          show ePhnum s.mem elfData - i = ePhnum s.mem elfData - (i + 1) + 1 by omega, segmentsFrom]
        by_cases hload : pType s.mem (phdrAt s.mem elfData i) = ptLoad
        · rw [if_neg (not_not.mpr hload), if_pos hload]
          obtain ⟨hheap, hvalue, hlog⟩ := ih (i + 1)
            (r.extend (pVaddr s.mem (phdrAt s.mem elfData i))
              (add32 (pVaddr s.mem (phdrAt s.mem elfData i)) (pMemsz s.mem (phdrAt s.mem elfData i))))
            ((((s.readingPhnum elfData).readingPhdr elfData i).reading
              (add32 (phdrAt s.mem elfData i) 8) 4).reading (add32 (phdrAt s.mem elfData i) 20) 4)
            hlt (show ePhnum s.mem elfData < i + 1 + fuel by omega)
          refine ⟨hheap, hvalue, hlog.trans ?_⟩
          rw [confined_reading, confined_reading, confined_readingPhdr, Loader.readingPhnum,
            confined_reading, RangeRead]
          simp only [mem_reading, mem_readingPhdr, hload, forall_const]
          tauto
        · rw [if_pos hload, if_neg hload]
          obtain ⟨hheap, hvalue, hlog⟩ := ih (i + 1) r
            ((s.readingPhnum elfData).readingPhdr elfData i) hlt
            (show ePhnum s.mem elfData < i + 1 + fuel by omega)
          refine ⟨hheap, hvalue, hlog.trans ?_⟩
          rw [confined_readingPhdr, Loader.readingPhnum, confined_reading, RangeRead]
          simp only [mem_reading, mem_readingPhdr, hload, false_implies, and_true]
          tauto

/-! ## The page list -/

/-- The page list is written word by word. -/
theorem confined_fillPages {outPages basePhys : Nat} :
    Confined F W (fillPages outPages basePhys count i s) ↔ Confined F W s ∧
      ∀ k, i ≤ k → k < i + count → MemAccess.Within W ⟨add32 outPages (4 * k), 4⟩ := by
  induction count generalizing i s with
  | zero => exact (and_iff_left fun k h1 h2 => absurd h2 (by omega)).symm
  | succ count ih =>
      rw [fillPages, ih, confined_storing32, forall_from_iff (show i < i + (count + 1) by omega),
        show i + 1 + count = i + (count + 1) by omega]
      tauto

/-- A page list that does not wrap around is a table. -/
theorem heap_fillPages (outPages basePhys : Nat) (hlist : outPages + 4 * (i + count) ≤ 2 ^ 32)
    (hmem : s.mem = m.fillTable outPages (fun k => add32 basePhys (k * pageSize)) i) :
    (fillPages outPages basePhys count i s).heap =
      { s.heap with
        mem := m.fillTable outPages (fun k => add32 basePhys (k * pageSize)) (i + count) } := by
  induction count generalizing i s with
  | zero =>
      rw [Nat.add_zero, ← hmem]
      rfl
  | succ count ih =>
      have hnext : (s.storing32 (add32 outPages (4 * i)) (add32 basePhys (i * pageSize))).mem =
          m.fillTable outPages (fun k => add32 basePhys (k * pageSize)) (i + 1) := by
        rw [mem_storing32, hmem, add32_of_lt (show outPages + 4 * i < 2 ^ 32 by omega)]
        rfl
      rw [fillPages, ih (by omega) hnext, show i + 1 + count = i + (count + 1) by omega]
      rfl

/-! ## Pass 2 -/

theorem load16_of_sameOn {a : Nat} (h : SameOn F m0 m) (ha : MemAccess.Within F ⟨a, 2⟩) :
    load16 m a = load16 m0 a := by
  rw [load16, load16, h a (ha a (Nat.le_refl a) (by simp)),
    h (a + 1) (ha (a + 1) (by simp) (by simp))]

theorem Confined.of_copyData {dest src : Nat}
    (h : Confined F W (copyData phdr dest src fuel j s)) : Confined F W s := by
  induction fuel generalizing j s with
  | zero => exact h
  | succ fuel ih =>
      rw [copyData] at h
      dsimp only at h
      split at h
      · exact (confined_reading.mp h).2
      · exact (confined_reading.mp (confined_reading.mp (confined_storing8.mp (ih h)).2).2).2

/-- The copy loop copies `p_filesz` bytes, given that it does not overwrite this number. -/
theorem copyData_spec (dest src : Nat) {n : Nat} (hdisj : ∀ x, F x → ¬ W x)
    (hword : MemAccess.Within F ⟨add32 phdr 16, 4⟩) (hn : pFilesz s.mem phdr = j + n)
    (hfuel : n < fuel) :
    (Confined F W (copyData phdr dest src fuel j s) ↔ Confined F W s ∧
        RangeWithin F (src + j) n ∧ RangeWithin W (dest + j) n) ∧
      (RangeWithin W (dest + j) n → (copyData phdr dest src fuel j s).heap =
        { s.heap with mem := s.mem.copyWrapped (dest + j) (src + j) n }) := by
  induction n generalizing j s fuel with
  | zero =>
      obtain ⟨fuel, rfl⟩ := Nat.exists_eq_succ_of_ne_zero (by omega : fuel ≠ 0)
      rw [copyData]
      dsimp only
      rw [mem_reading, if_pos (by omega)]
      refine ⟨?_, fun _ => rfl⟩
      rw [confined_reading]
      simp only [hword, true_and, rangeWithin_zero, and_true]
  | succ n ih =>
      obtain ⟨fuel, rfl⟩ := Nat.exists_eq_succ_of_ne_zero (by omega : fuel ≠ 0)
      rw [copyData]
      dsimp only
      rw [mem_reading, mem_reading, if_neg (by omega), rangeWithin_succ, rangeWithin_succ]
      by_cases hwrite : W (add32 dest j)
      · -- the word with `p_filesz` is in the file, and the byte written is not
        have hsame : pFilesz (((s.reading (add32 phdr 16) 4).reading (add32 src j) 1).storing8
            (add32 dest j) (s.mem (add32 src j))).mem phdr = j + 1 + n := by
          have hkept : pFilesz (s.mem.store8 (add32 dest j) (s.mem (add32 src j))) phdr =
              pFilesz s.mem phdr :=
            load32_congr fun x h1 h2 => store8_other fun heq =>
              hdisj x (hword x h1 h2) (heq ▸ hwrite)
          exact hkept.trans (by omega)
        obtain ⟨hlog, hheap⟩ := ih hsame (show n < fuel by omega)
        refine ⟨hlog.trans ?_, fun hrest => ?_⟩
        · rw [confined_storing8, confined_reading, confined_reading, within_byte]
          simp only [add32, Nat.add_assoc] at *
          tauto
        · exact hheap hrest.2
      · refine ⟨iff_of_false (fun h => ?_) fun h => hwrite h.2.2.1, fun h => absurd h.1 hwrite⟩
        exact hwrite (confined_storing8.mp h.of_copyData).1

theorem clearBss_spec {start : Nat} :
    (Confined F W (clearBss start count j s) ↔
        Confined F W s ∧ RangeWithin W (start + j) count) ∧
      (clearBss start count j s).heap =
        { s.heap with mem := s.mem.clearWrapped (start + j) count } := by
  induction count generalizing j s with
  | zero => exact ⟨(and_iff_left rangeWithin_zero).symm, rfl⟩
  | succ count ih =>
      rw [clearBss]
      obtain ⟨hlog, hheap⟩ := ih (j := j + 1) (s := s.storing8 (add32 start j) 0)
      refine ⟨hlog.trans ?_, hheap⟩
      rw [confined_storing8, rangeWithin_succ]
      simp only [add32, Nat.add_assoc]
      tauto

/-- What the second pass reads of a `PT_LOAD` header and of its data, and where it writes. -/
structure SegmentWithin (F W : Nat → Prop) (elfData loadBase phdr : Nat) (g : Segment) : Prop where
  offset : MemAccess.Within F ⟨add32 phdr 4, 4⟩
  filesz : MemAccess.Within F ⟨add32 phdr 16, 4⟩
  data : RangeWithin F (add32 elfData g.offset) g.filesz
  dest : RangeWithin W (add32 loadBase g.vaddr) g.filesz
  bss : RangeWithin W (add32 (add32 loadBase g.vaddr) g.filesz) (g.memsz - g.filesz)

/-- The memory after a segment is loaded. -/
def placeSegment (elfData loadBase : Nat) (m : Memory) (g : Segment) : Memory :=
  (m.copyWrapped (add32 loadBase g.vaddr) (add32 elfData g.offset) g.filesz).clearWrapped
    (add32 (add32 loadBase g.vaddr) g.filesz) (g.memsz - g.filesz)

theorem Confined.of_loadSegment (h : Confined F W (loadSegment elfData loadBase phdr s)) :
    Confined F W s ∧ MemAccess.Within F ⟨add32 phdr 4, 4⟩ ∧ MemAccess.Within F ⟨add32 phdr 16, 4⟩ := by
  rw [loadSegment] at h
  have hcopy : ∀ dest src, Confined F W (((copyData phdr dest src walkFuel 0
      ((s.reading (add32 phdr 8) 4).reading (add32 phdr 4) 4)).reading (add32 phdr 20) 4).reading
        (add32 phdr 16) 4) →
      Confined F W s ∧ MemAccess.Within F ⟨add32 phdr 4, 4⟩ ∧ MemAccess.Within F ⟨add32 phdr 16, 4⟩ := by
    intro dest src hs
    rw [confined_reading, confined_reading] at hs
    have hread := hs.2.2.of_copyData
    rw [confined_reading, confined_reading] at hread
    exact ⟨hread.2.2, hread.1, hs.1⟩
  split at h
  · exact hcopy _ _ (clearBss_spec.1.mp h).1
  · exact hcopy _ _ h

/-- The second half of the loop body: what the file does not fill is cleared. -/
theorem clearRest_spec (phdr dest : Nat) {n k : Nat} (hn : pFilesz s.mem phdr = n) (hk : pMemsz s.mem phdr = k) :
    (Confined F W (if pFilesz s.mem phdr < pMemsz s.mem phdr then
        clearBss (add32 dest (pFilesz s.mem phdr)) (pMemsz s.mem phdr - pFilesz s.mem phdr) 0 s
      else s) ↔ Confined F W s ∧ RangeWithin W (add32 dest n) (k - n)) ∧
      (if pFilesz s.mem phdr < pMemsz s.mem phdr then
        clearBss (add32 dest (pFilesz s.mem phdr)) (pMemsz s.mem phdr - pFilesz s.mem phdr) 0 s
      else s).heap = { s.heap with mem := s.mem.clearWrapped (add32 dest n) (k - n) } := by
  rw [hn, hk]
  by_cases hbss : n < k
  · rw [if_pos hbss]
    exact clearBss_spec (j := 0)
  · rw [if_neg hbss, Nat.sub_eq_zero_of_le (by omega)]
    exact ⟨(and_iff_left rangeWithin_zero).symm, rfl⟩

/-- A segment is placed as its header says, given that its header is in the file. -/
theorem loadSegment_spec (elfData loadBase : Nat) (hdisj : ∀ x, F x → ¬ W x) (hfile : SameOn F m0 s.mem)
    (hvaddr : MemAccess.Within F ⟨add32 phdr 8, 4⟩) (hmemsz : MemAccess.Within F ⟨add32 phdr 20, 4⟩) :
    (Confined F W (loadSegment elfData loadBase phdr s) ↔
        Confined F W s ∧ SegmentWithin F W elfData loadBase phdr (segmentAt m0 phdr)) ∧
      (SegmentWithin F W elfData loadBase phdr (segmentAt m0 phdr) →
        (loadSegment elfData loadBase phdr s).heap =
          { s.heap with mem := placeSegment elfData loadBase s.mem (segmentAt m0 phdr) }) := by
  by_cases hwords : MemAccess.Within F ⟨add32 phdr 4, 4⟩ ∧ MemAccess.Within F ⟨add32 phdr 16, 4⟩
  case neg =>
    exact ⟨iff_of_false (fun h => hwords h.of_loadSegment.2) fun h => hwords ⟨h.2.1, h.2.2⟩,
      fun h => absurd ⟨h.1, h.2⟩ hwords⟩
  obtain ⟨hoffset, hfilesz⟩ := hwords
  have e1 : pVaddr s.mem phdr = (segmentAt m0 phdr).vaddr := hfile.load32 hvaddr
  have e2 : pOffset s.mem phdr = (segmentAt m0 phdr).offset := hfile.load32 hoffset
  have e3 : pFilesz s.mem phdr = (segmentAt m0 phdr).filesz := hfile.load32 hfilesz
  have e4 : pFilesz m0 phdr = (segmentAt m0 phdr).filesz := rfl
  have e5 : pMemsz m0 phdr = (segmentAt m0 phdr).memsz := rfl
  have hlt : (segmentAt m0 phdr).filesz < walkFuel := m0.load32_lt _
  generalize segmentAt m0 phdr = g at *
  have hsegment : SegmentWithin F W elfData loadBase phdr g ↔
      RangeWithin F (add32 elfData g.offset) g.filesz ∧
        RangeWithin W (add32 loadBase g.vaddr) g.filesz ∧
        RangeWithin W (add32 (add32 loadBase g.vaddr) g.filesz) (g.memsz - g.filesz) :=
    ⟨fun h => ⟨h.data, h.dest, h.bss⟩, fun h => ⟨hoffset, hfilesz, h.1, h.2.1, h.2.2⟩⟩
  rw [hsegment, loadSegment, placeSegment, e1, e2]
  generalize add32 loadBase g.vaddr = dest at *
  generalize add32 elfData g.offset = src at *
  have hcopy := copyData_spec (s := (s.reading (add32 phdr 8) 4).reading (add32 phdr 4) 4) (j := 0)
    dest src hdisj hfilesz (e3.trans (Nat.zero_add _).symm) hlt
  rw [Nat.add_zero, Nat.add_zero, confined_reading, confined_reading] at hcopy
  generalize copyData phdr dest src walkFuel 0 ((s.reading (add32 phdr 8) 4).reading (add32 phdr 4) 4)
    = s2 at *
  obtain ⟨hlog, hheap⟩ := hcopy
  have hread : Confined F W ((s2.reading (add32 phdr 20) 4).reading (add32 phdr 16) 4) ↔
      Confined F W s2 := by
    rw [confined_reading, confined_reading]
    tauto
  by_cases hwrite : RangeWithin W dest g.filesz
  · -- the copy leaves the file as it was, so the sizes are read again with the same result
    have hmem : s2.mem = s.mem.copyWrapped dest src g.filesz := congrArg Kheap.mem (hheap hwrite)
    have hfile2 : SameOn F m0 s2.mem := by
      intro x hx
      have hother : ∀ k, k < g.filesz → add32 dest k ≠ x :=
        fun k hk heq => hdisj x hx (heq ▸ hwrite k hk)
      rw [hmem, copyWrapped_outside hother]
      exact hfile x hx
    obtain ⟨hlogb, hheapb⟩ := clearRest_spec (F := F) (W := W)
      (s := (s2.reading (add32 phdr 20) 4).reading (add32 phdr 16) 4) phdr dest
      ((hfile2.load32 hfilesz).trans e4) ((hfile2.load32 hmemsz).trans e5)
    refine ⟨hlogb.trans ?_, fun _ => hheapb.trans ?_⟩
    · rw [hread, hlog]
      tauto
    · rw [mem_reading, mem_reading, heap_reading, heap_reading, hmem, hheap hwrite]
      rfl
  · refine ⟨iff_of_false (fun h => hwrite ?_) fun h => hwrite h.2.2.1, fun h => absurd h.2.1 hwrite⟩
    have hs2 : Confined F W s2 := by
      rw [← hread]
      split at h
      · exact (clearBss_spec.1.mp h).1
      · exact h
    exact (hlog.mp hs2).2.2

/-! ## The second loop over the headers -/

theorem Confined.of_loadSegments
    (h : Confined F W (loadSegments elfData loadBase fuel i s)) : Confined F W s := by
  induction fuel generalizing i s with
  | zero => exact h
  | succ fuel ih =>
      rw [loadSegments] at h
      dsimp only at h
      split at h
      · exact (confined_readingPhnum.mp h).2
      · split at h
        · exact (confined_readingPhnum.mp (confined_readingPhdr.mp (ih h)).2).2
        · exact (confined_readingPhnum.mp (confined_readingPhdr.mp (ih h).of_loadSegment.1).2).2

/-- A segment that is written to `W` leaves the file as it was. -/
theorem SegmentWithin.sameOn {g : Segment} (hdisj : ∀ x, F x → ¬ W x) (hfile : SameOn F m0 m)
    (hg : SegmentWithin F W elfData loadBase phdr g) :
    SameOn F m0 (placeSegment elfData loadBase m g) := by
  intro x hx
  have hcopy : ∀ k, k < g.filesz → add32 (add32 loadBase g.vaddr) k ≠ x :=
    fun k hk heq => hdisj x hx (heq ▸ hg.dest k hk)
  have hclear : ∀ k, k < g.memsz - g.filesz →
      add32 (add32 (add32 loadBase g.vaddr) g.filesz) k ≠ x :=
    fun k hk heq => hdisj x hx (heq ▸ hg.bss k hk)
  rw [placeSegment, clearWrapped_outside hclear, copyWrapped_outside hcopy]
  exact hfile x hx

/-- Header `i` is no `PT_LOAD` header, or its segment stays inside. -/
def LoadWithin (F W : Nat → Prop) (m : Memory) (elfData loadBase i : Nat) : Prop :=
  pType m (phdrAt m elfData i) = ptLoad → SegmentWithin F W elfData loadBase (phdrAt m elfData i)
    (segmentAt m (phdrAt m elfData i))

/-- The second pass places the `PT_LOAD` segments one after the other, given that the first pass
read its headers in the file. -/
theorem loadSegments_spec (elfData loadBase fuel i : Nat) (hdisj : ∀ x, F x → ¬ W x) (hfile : SameOn F m0 s.mem)
    (hphnum : MemAccess.Within F ⟨add32 elfData 44, 2⟩)
    (hread : ∀ k, i ≤ k → k < ePhnum m0 elfData → RangeRead F m0 elfData k)
    (hi : i ≤ ePhnum m0 elfData) (hfuel : ePhnum m0 elfData < i + fuel) :
    (Confined F W (loadSegments elfData loadBase fuel i s) ↔ Confined F W s ∧
        ∀ k, i ≤ k → k < ePhnum m0 elfData → LoadWithin F W m0 elfData loadBase k) ∧
      ((∀ k, i ≤ k → k < ePhnum m0 elfData → LoadWithin F W m0 elfData loadBase k) →
        (loadSegments elfData loadBase fuel i s).heap = { s.heap with
          mem := (segmentsFrom m0 elfData (ePhnum m0 elfData - i) i).foldl
            (placeSegment elfData loadBase) s.mem }) := by
  induction fuel generalizing i s with
  | zero => omega
  | succ fuel ih =>
      have e1 : ePhnum s.mem elfData = ePhnum m0 elfData := load16_of_sameOn hfile hphnum
      rw [loadSegments]
      dsimp only
      rw [mem_readingPhnum, e1]
      by_cases hend : ePhnum m0 elfData ≤ i
      · rw [if_pos hend, Nat.sub_eq_zero_of_le hend]
        refine ⟨?_, fun _ => rfl⟩
        rw [confined_readingPhnum, and_iff_right hphnum]
        exact (and_iff_left fun k h1 h2 => absurd h2 (by omega)).symm
      · have hlt : i < ePhnum m0 elfData := by omega
        obtain ⟨⟨hphoff, hphentsize, htype⟩, hfields⟩ := hread i (Nat.le_refl i) hlt
        have e2 : phdrAt s.mem elfData i = phdrAt m0 elfData i := by
          rw [phdrAt, phdrAt, ePhoff, ePhentsize, hfile.load32 hphoff, load16_of_sameOn hfile hphentsize]
          rfl
        have e3 : pType s.mem (phdrAt m0 elfData i) = pType m0 (phdrAt m0 elfData i) :=
          hfile.load32 htype
        have hhead : Confined F W ((s.readingPhnum elfData).readingPhdr elfData i) ↔
            Confined F W s := by
          rw [confined_readingPhdr, confined_readingPhnum, mem_readingPhnum, PhdrWithin, e2]
          tauto
        rw [if_neg hend, mem_readingPhdr, mem_readingPhnum, e2, e3, forall_from_iff hlt,
          show ePhnum m0 elfData - i = ePhnum m0 elfData - (i + 1) + 1 by omega, segmentsFrom]
        by_cases hload : pType m0 (phdrAt m0 elfData i) = ptLoad
        · rw [if_neg (not_not.mpr hload), if_pos hload]
          obtain ⟨hlog, hheap⟩ := loadSegment_spec elfData loadBase hdisj
            (show SameOn F m0 ((s.readingPhnum elfData).readingPhdr elfData i).mem from hfile)
            (hfields hload).1 (hfields hload).2
          generalize loadSegment elfData loadBase (phdrAt m0 elfData i)
            ((s.readingPhnum elfData).readingPhdr elfData i) = s1 at *
          by_cases hseg : SegmentWithin F W elfData loadBase (phdrAt m0 elfData i)
              (segmentAt m0 (phdrAt m0 elfData i))
          · have hmem : s1.mem = placeSegment elfData loadBase s.mem
                (segmentAt m0 (phdrAt m0 elfData i)) := congrArg Kheap.mem (hheap hseg)
            have hfile1 : SameOn F m0 s1.mem := by
              rw [hmem]
              exact hseg.sameOn hdisj hfile
            obtain ⟨hlog1, hheap1⟩ := ih (i + 1) hfile1
              (fun k h1 h2 => hread k (by omega) h2) hlt (by omega)
            refine ⟨?_, fun hall => (hheap1 hall.2).trans ?_⟩
            · rw [hlog1, hlog, hhead, and_iff_left hseg]
              exact and_congr_right fun _ => (and_iff_right fun _ => hseg).symm
            · rw [hmem, hheap hseg]
              rfl
          · refine ⟨iff_of_false (fun h => hseg ?_) fun h => hseg (h.2.1 hload),
              fun h => absurd (h.1 hload) hseg⟩
            exact (hlog.mp h.of_loadSegments).2
        · rw [if_pos hload, if_neg hload]
          obtain ⟨hlog, hheap⟩ := ih (i + 1)
            (show SameOn F m0 ((s.readingPhnum elfData).readingPhdr elfData i).mem from hfile)
            (fun k h1 h2 => hread k (by omega) h2) hlt (by omega)
          refine ⟨?_, fun hall => hheap hall.2⟩
          rw [hlog, hhead]
          exact and_congr_right fun _ => (and_iff_right fun h => absurd h hload).symm

end Elf

end Kumo
