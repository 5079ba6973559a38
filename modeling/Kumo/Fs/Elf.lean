import Kumo.Lib.Access
import Kumo.Mm.Kheap

/-!
# The ELF loader

`elf_load` of `fs/elf.c`. A first pass over the program headers finds the lowest address
and the highest end of the `PT_LOAD` segments, a second one copies each segment to the
pages that were allocated for this span and clears what the file does not fill. Every
number comes from the file, and every addition wraps around at `2 ^ 32`. `elf_size` is not
looked at.

The loader here also notes what it reads through `elf_data` and what it writes itself.
The serial output is left out, and with it the dump of the first bytes at `load_base`.
-/

namespace Kumo

open Memory

namespace Elf

/-- The 16-bit number at `address`. -/
def load16 (m : Memory) (address : Nat) : Nat := (m address).toNat + 2 ^ 8 * (m (address + 1)).toNat

theorem load16_lt (m : Memory) (address : Nat) : load16 m address < 2 ^ 16 := by
  have h0 := (m address).isLt
  have h1 := (m (address + 1)).isLt
  unfold load16
  omega

/-- The first six bytes of a file: `ELFMAG0`, …, `ELFMAG3`, `ELFCLASS32`, `ELFDATA2LSB`. -/
def elfIdent : List (BitVec 8) := [0x7F#8, 0x45#8, 0x4C#8, 0x46#8, 1#8, 1#8]

/-- `PT_LOAD`. -/
def ptLoad : Nat := 1

/-! ## Fields -/

/-- `ehdr->e_entry`. -/
def eEntry (m : Memory) (elfData : Nat) : Nat := m.load32 (add32 elfData 24)

/-- `ehdr->e_phoff`. -/
def ePhoff (m : Memory) (elfData : Nat) : Nat := m.load32 (add32 elfData 28)

/-- `ehdr->e_phentsize`. -/
def ePhentsize (m : Memory) (elfData : Nat) : Nat := load16 m (add32 elfData 42)

/-- `ehdr->e_phnum`. -/
def ePhnum (m : Memory) (elfData : Nat) : Nat := load16 m (add32 elfData 44)

/-- `elf_data + ehdr->e_phoff + i * ehdr->e_phentsize`. -/
def phdrAt (m : Memory) (elfData i : Nat) : Nat :=
  add32 elfData (ePhoff m elfData + i * ePhentsize m elfData)

/-- `phdr->p_type`. -/
def pType (m : Memory) (phdr : Nat) : Nat := m.load32 phdr

/-- `phdr->p_offset`. -/
def pOffset (m : Memory) (phdr : Nat) : Nat := m.load32 (add32 phdr 4)

/-- `phdr->p_vaddr`. -/
def pVaddr (m : Memory) (phdr : Nat) : Nat := m.load32 (add32 phdr 8)

/-- `phdr->p_filesz`. -/
def pFilesz (m : Memory) (phdr : Nat) : Nat := m.load32 (add32 phdr 16)

/-- `phdr->p_memsz`. -/
def pMemsz (m : Memory) (phdr : Nat) : Nat := m.load32 (add32 phdr 20)

/-! ## The state of the loader -/

/-- The heap and the memory, what was read through `elf_data` and what was written. -/
structure Loader where
  heap : Kheap
  reads : List MemAccess
  writes : List MemAccess

namespace Loader

/-- The memory as it is. -/
def mem (s : Loader) : Memory := s.heap.mem

/-- Note a read. -/
def reading (s : Loader) (addr size : Nat) : Loader := { s with reads := ⟨addr, size⟩ :: s.reads }

/-- Write one byte. -/
def storing8 (s : Loader) (addr : Nat) (value : BitVec 8) : Loader :=
  { s with heap := { s.heap with mem := s.mem.store8 addr value }
           writes := ⟨addr, 1⟩ :: s.writes }

/-- Write one word. -/
def storing32 (s : Loader) (addr value : Nat) : Loader :=
  { s with heap := { s.heap with mem := s.mem.store32 addr value }
           writes := ⟨addr, 4⟩ :: s.writes }

/-- The read of `e_phnum` in the condition of a loop over the headers. -/
def readingPhnum (s : Loader) (elfData : Nat) : Loader := s.reading (add32 elfData 44) 2

/-- The reads that find header `i`, and the read of its type. -/
def readingPhdr (s : Loader) (elfData i : Nat) : Loader :=
  ((s.reading (add32 elfData 28) 4).reading (add32 elfData 42) 2).reading (phdrAt s.mem elfData i) 4

end Loader

/-! ## The check of the identification -/

/-- The comparisons of `elf_data[i]`, `elf_data[i + 1]`, … up to the first one that fails. -/
def checkIdent (elfData : Nat) : List (BitVec 8) → Nat → Loader → Bool × Loader
  | [], _, s => (true, s)
  | b :: bs, i, s =>
      let s := s.reading (add32 elfData i) 1
      if s.mem (add32 elfData i) ≠ b then (false, s) else checkIdent elfData bs (i + 1) s

/-! ## Pass 1 -/

/-- `min_vaddr`, `max_end` and `found_load`. -/
structure Range where
  minVaddr : Nat
  maxEnd : Nat
  foundLoad : Bool
  deriving DecidableEq, Repr

/-- What the three are before the loop. -/
def Range.empty : Range := ⟨0xFFFFFFFF, 0, false⟩

/-- The loop body for a `PT_LOAD` header. -/
def Range.extend (r : Range) (segStart segEnd : Nat) : Range :=
  { minVaddr := if segStart < r.minVaddr then segStart else r.minVaddr
    maxEnd := if r.maxEnd < segEnd then segEnd else r.maxEnd
    foundLoad := true }

/-- `e_phnum` has 16 bits: no loop over the headers makes more rounds. -/
def phnumFuel : Nat := 2 ^ 16

/-- The first loop over the headers, from header `i` on. -/
def findRange (elfData : Nat) : Nat → Nat → Range → Loader → Range × Loader
  | 0, _, r, s => (r, s)
  | fuel + 1, i, r, s =>
      let s := s.readingPhnum elfData
      if ePhnum s.mem elfData ≤ i then (r, s)
      else
        let phdr := phdrAt s.mem elfData i
        let s := s.readingPhdr elfData i
        if pType s.mem phdr ≠ ptLoad then findRange elfData fuel (i + 1) r s
        else
          let segStart := pVaddr s.mem phdr
          let segEnd := add32 segStart (pMemsz s.mem phdr)
          let s := (s.reading (add32 phdr 8) 4).reading (add32 phdr 20) 4
          findRange elfData fuel (i + 1) (r.extend segStart segEnd) s

/-! ## The page list -/

/-- The loop that fills `*out_pages`. -/
def fillPages (outPages basePhys : Nat) : Nat → Nat → Loader → Loader
  | 0, _, s => s
  | count + 1, i, s =>
      fillPages outPages basePhys count (i + 1)
        (s.storing32 (add32 outPages (4 * i)) (add32 basePhys (i * pageSize)))

/-! ## Pass 2 -/

/-- The copy loop, from byte `j` on. `p_filesz` is read again in every round. -/
def copyData (phdr dest src : Nat) : Nat → Nat → Loader → Loader
  | 0, _, s => s
  | fuel + 1, j, s =>
      let s := s.reading (add32 phdr 16) 4
      if pFilesz s.mem phdr ≤ j then s
      else
        let s := s.reading (add32 src j) 1
        copyData phdr dest src fuel (j + 1) (s.storing8 (add32 dest j) (s.mem (add32 src j)))

/-- The loop that clears `bss_len` bytes from `dest + bss_start` on. -/
def clearBss (start : Nat) : Nat → Nat → Loader → Loader
  | 0, _, s => s
  | count + 1, j, s => clearBss start count (j + 1) (s.storing8 (add32 start j) 0)

/-- The body of the second loop for a `PT_LOAD` header. -/
def loadSegment (elfData loadBase phdr : Nat) (s : Loader) : Loader :=
  let dest := add32 loadBase (pVaddr s.mem phdr)
  let src := add32 elfData (pOffset s.mem phdr)
  let s := (s.reading (add32 phdr 8) 4).reading (add32 phdr 4) 4
  let s := copyData phdr dest src walkFuel 0 s
  let s := (s.reading (add32 phdr 20) 4).reading (add32 phdr 16) 4
  if pFilesz s.mem phdr < pMemsz s.mem phdr then
    clearBss (add32 dest (pFilesz s.mem phdr)) (pMemsz s.mem phdr - pFilesz s.mem phdr) 0 s
  else s

/-- The second loop over the headers, from header `i` on. -/
def loadSegments (elfData loadBase : Nat) : Nat → Nat → Loader → Loader
  | 0, _, s => s
  | fuel + 1, i, s =>
      let s := s.readingPhnum elfData
      if ePhnum s.mem elfData ≤ i then s
      else
        let phdr := phdrAt s.mem elfData i
        let s := s.readingPhdr elfData i
        if pType s.mem phdr ≠ ptLoad then loadSegments elfData loadBase fuel (i + 1) s
        else loadSegments elfData loadBase fuel (i + 1) (loadSegment elfData loadBase phdr s)

/-! ## The function -/

/-- What `elf_load` leaves: the value it returns, `*out_pages` and `*out_count` if they were
written, and the state. -/
structure Loaded where
  entry : Nat
  out : Option (Nat × Nat)
  state : Loader

/-- `elf_load`, from the allocation of the pages on. -/
def placeImage (elfData : Nat) (r : Range) (s : Loader) : Option Loaded :=
  let totalSize := sub32 r.maxEnd r.minVaddr
  let numPages := add32 totalSize 4095 / 4096
  let (basePhys, pmm) := s.heap.pmm.pmmAllocContiguousUserPages numPages
  let s := { s with heap := { s.heap with pmm := pmm } }
  if basePhys = 0 then some ⟨0, none, s⟩
  else
    let loadBase := sub32 basePhys r.minVaddr
    match s.heap.kmalloc (numPages * 4 % 2 ^ 32) with
    | none => none
    | some (outPages, heap) =>
        let s := fillPages outPages basePhys numPages 0 { s with heap := heap }
        let s := loadSegments elfData loadBase phnumFuel 0 s
        let entry := add32 loadBase (eEntry s.mem elfData)
        some ⟨entry, some (outPages, numPages), s.reading (add32 elfData 24) 4⟩

/-- `elf_load`. -/
def elfLoad (h : Kheap) (elfData _elfSize : Nat) : Option Loaded :=
  match checkIdent elfData elfIdent 0 ⟨h, [], []⟩ with
  | (false, s) => some ⟨0, none, s⟩
  | (true, s) =>
      match findRange elfData phnumFuel 0 .empty s with
      | (r, s) => if r.foundLoad = false then some ⟨0, none, s⟩ else placeImage elfData r s

end Elf

end Kumo
