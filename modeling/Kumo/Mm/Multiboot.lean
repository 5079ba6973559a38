import Kumo.Lib.Memory

/-!
# The Multiboot2 information

`multiboot_parse` of `mm/multiboot.c`. The parser walks over the tags of the block that
the boot loader left in memory and copies two of them: the framebuffer and the first
sixteen usable regions below 4 GB. Addresses are 32-bit and wrap around.

The parser here also notes every read it makes. A division by an entry size of 0 is a
fault of the processor, and the walk over the tags takes fuel, because a tag size may
lead the pointer back.
-/

namespace Memory

/-- The 64-bit number at `address`. -/
def load64 (memory : Memory) (address : Nat) : Nat :=
  memory.load32 address + 2 ^ 32 * memory.load32 (address + 4)

theorem load64_lt (memory : Memory) (address : Nat) : memory.load64 address < 2 ^ 64 := by
  have hlow := memory.load32_lt address
  have hhigh := memory.load32_lt (address + 4)
  unfold load64
  omega

end Memory

namespace Kumo

open Memory

/-- `usable_region_t`. -/
structure Region where
  base : Nat
  length : Nat
  deriving DecidableEq, Repr

/-- `memory_map_t`: `count` is the length of the list. -/
structure MemoryMap where
  regions : List Region
  topOfMemory : Nat
  deriving DecidableEq, Repr

/-- `framebuffer_t`. -/
structure FramebufferInfo where
  addr : Nat
  pitch : Nat
  width : Nat
  height : Nat
  bpp : Nat
  type : Nat
  redPos : Nat
  redMask : Nat
  greenPos : Nat
  greenMask : Nat
  bluePos : Nat
  blueMask : Nat
  deriving DecidableEq, Repr

namespace Multiboot

/-- `MULTIBOOT2_MAGIC`. -/
def multiboot2Magic : Nat := 0x36D76289

/-- `MULTIBOOT_TAG_END`. -/
def tagEnd : Nat := 0

/-- `MULTIBOOT_TAG_MMAP`. -/
def tagMmap : Nat := 6

/-- `MULTIBOOT_TAG_FRAMEBUFFER`. -/
def tagFramebuffer : Nat := 8

/-- `MULTIBOOT_MMAP_AVAILABLE`. -/
def mmapAvailable : Nat := 1

/-- `MAX_USABLE_REGIONS`. -/
def maxUsableRegions : Nat := 16

/-- A read of `size` bytes. -/
structure Read where
  addr : Nat
  size : Nat
  deriving DecidableEq, Repr

/-- `ptr + off`, a 32-bit pointer. -/
def offset (ptr off : Nat) : Nat := (ptr + off) % 2 ^ 32

/-- What the parser has filled in, and the reads it has made. -/
structure Parser where
  memoryMap : MemoryMap
  framebuffer : FramebufferInfo
  reads : List Read

/-- Note some reads. -/
def Parser.noting (s : Parser) (reads : List Read) : Parser := { s with reads := s.reads ++ reads }

/-! ## The framebuffer tag -/

/-- The reads of the branch for the framebuffer tag. -/
def framebufferReads (m : Memory) (ptr : Nat) : List Read :=
  [⟨offset ptr 8, 8⟩, ⟨offset ptr 16, 4⟩, ⟨offset ptr 20, 4⟩, ⟨offset ptr 24, 4⟩,
    ⟨offset ptr 28, 1⟩, ⟨offset ptr 29, 1⟩] ++
  if m (offset ptr 29) = 1 then
    [⟨offset ptr 32, 1⟩, ⟨offset ptr 33, 1⟩, ⟨offset ptr 34, 1⟩, ⟨offset ptr 35, 1⟩,
      ⟨offset ptr 36, 1⟩, ⟨offset ptr 37, 1⟩]
  else []

/-- The branch for the framebuffer tag. -/
def readFramebuffer (m : Memory) (ptr : Nat) (s : Parser) : Parser :=
  let color (off : Nat) : Nat := if m (offset ptr 29) = 1 then (m (offset ptr off)).toNat else 0
  { s.noting (framebufferReads m ptr) with
    framebuffer :=
      { addr := m.load64 (offset ptr 8) % 2 ^ 32
        pitch := m.load32 (offset ptr 16)
        width := m.load32 (offset ptr 20)
        height := m.load32 (offset ptr 24)
        bpp := (m (offset ptr 28)).toNat
        type := (m (offset ptr 29)).toNat
        redPos := color 32
        redMask := color 33
        greenPos := color 34
        greenMask := color 35
        bluePos := color 36
        blueMask := color 37 } }

/-! ## The memory map tag -/

/-- What the parser does with the base address and the length of an available entry. -/
def addRegion (map : MemoryMap) (baseAddr length64 : Nat) : MemoryMap :=
  if baseAddr < 0x100000000 then
    let base := baseAddr % 2 ^ 32
    let length :=
      if 0x100000000 < (baseAddr + length64) % 2 ^ 64 then (0xFFFFFFFF - base + 1) % 2 ^ 32
      else length64 % 2 ^ 32
    if map.regions.length < maxUsableRegions then
      let regionTop := (base + length) % 2 ^ 32
      { regions := map.regions ++ [⟨base, length⟩]
        topOfMemory := if map.topOfMemory < regionTop then regionTop else map.topOfMemory }
    else map
  else map

/-- The entry at `e` describes memory that may be used. -/
def available (m : Memory) (e : Nat) : Bool := m.load32 (offset e 16) == mmapAvailable

/-- The reads of the loop body for the entry at `e`. -/
def entryReads (m : Memory) (e : Nat) : List Read :=
  ⟨offset e 16, 4⟩ :: if available m e then [⟨offset e 0, 8⟩, ⟨offset e 8, 8⟩] else []

/-- The loop body for the entry at `e`. -/
def mmapEntry (m : Memory) (e : Nat) (s : Parser) : Parser :=
  let s := s.noting (entryReads m e)
  if available m e then
    { s with memoryMap := addRegion s.memoryMap (m.load64 (offset e 0)) (m.load64 (offset e 8)) }
  else s

/-- The loop over the entries, with `i` and the iterations left. -/
def mmapEntries (m : Memory) (entries entrySize : Nat) : Nat → Nat → Parser → Parser
  | 0, _, s => s
  | steps + 1, i, s =>
      mmapEntries m entries entrySize steps (i + 1)
        (mmapEntry m (offset entries (i * entrySize % 2 ^ 32)) s)

/-- The branch for the memory map tag, `none` when it divides by 0. -/
def readMmap (m : Memory) (ptr : Nat) (s : Parser) : Option Parser :=
  let s := s.noting [⟨offset ptr 8, 4⟩, ⟨offset ptr 4, 4⟩]
  let entrySize := m.load32 (offset ptr 8)
  let entries := offset ptr 16
  if entrySize = 0 then none
  else
    let count := (m.load32 (offset ptr 4) + (2 ^ 32 - 16)) % 2 ^ 32 / entrySize
    some (mmapEntries m entries entrySize count 0 s)

/-! ## The walk over the tags -/

/-- How a parse ends, if it ends. -/
inductive Outcome where
  | running
  | divideError
  | done (s : Parser)

/-- What one iteration leads to. -/
inductive Iteration where
  | divideError
  | leave (s : Parser)
  | next (ptr : Nat) (s : Parser)

/-- `(tag_size + 7) & ~7` in 32 bits. -/
def roundUp8 (tagSize : Nat) : Nat := (tagSize + 7) % 2 ^ 32 / 8 * 8

/-- The two branches of the loop body that copy a tag. -/
def readTag (m : Memory) (ptr : Nat) (s : Parser) : Option Parser :=
  let s := if m.load32 ptr = tagFramebuffer then readFramebuffer m ptr s else s
  if m.load32 ptr = tagMmap then readMmap m ptr s else some s

/-- The loop body for the tag at `ptr`. -/
def parseTag (m : Memory) (ptr : Nat) (s : Parser) : Iteration :=
  let s := s.noting [⟨ptr, 4⟩]
  if m.load32 ptr = tagEnd then .leave s
  else
    match readTag m ptr s with
    | none => .divideError
    | some s =>
        let s := s.noting [⟨offset ptr 4, 4⟩]
        let tagSize := m.load32 (offset ptr 4)
        if tagSize < 8 then .leave s
        else .next (offset ptr (roundUp8 tagSize)) s

/-- The loop over the tags up to `stop`. -/
def parseTags (m : Memory) (stop : Nat) : Nat → Nat → Parser → Outcome
  | 0, _, _ => .running
  | fuel + 1, ptr, s =>
      if ptr < stop then
        match parseTag m ptr s with
        | .divideError => .divideError
        | .leave s => .done s
        | .next ptr s => parseTags m stop fuel ptr s
      else .done s

/-- `mbi->total_size`. -/
def totalSize (m : Memory) (info : Nat) : Nat := m.load32 info

/-- `end`. -/
def stopOf (m : Memory) (info : Nat) : Nat := offset info (totalSize m info)

/-- `multiboot_parse`, with fuel for the walk over the tags. -/
def multibootParse (fuel : Nat) (m : Memory) (magic info : Nat) (map : MemoryMap)
    (fb : FramebufferInfo) : Outcome :=
  if magic ≠ multiboot2Magic then .done ⟨map, fb, []⟩
  else
    let s : Parser := ⟨⟨[], 0⟩, fb, [⟨info, 4⟩]⟩
    parseTags m (stopOf m info) fuel (offset info 8) s

end Multiboot

end Kumo
