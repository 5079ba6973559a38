import Kumo.Lib.Memory
import Kumo.Mm.Pmm

/-!
# The kernel heap

The allocator of `mm/kheap.c` over byte-addressed memory. A block starts with an
8-byte header (size, free flag); a free block keeps its two list links in the first
8 bytes of its payload. Addresses are 32-bit, so the block after `b` is computed
modulo `2 ^ 32`.

The source has three loops whose end depends on what they read: the walk along the
size fields in `coalesce_backward`, the walk along the free list in `kmalloc`, and
`kmalloc` calling itself after an expansion. They take fuel here. `walkFuel` is
the number of 32-bit addresses, and a walk that takes more steps has come back to
an address and never ends; `none` stands for that.
-/

namespace Kumo

/-- `HEADER_SIZE`. -/
def headerSize : Nat := 8

/-- `MIN_BLOCK_SIZE`. -/
def minBlockSize : Nat := 16

/-- `HEAP_INIT_PAGES`. -/
def heapInitPages : Nat := 16

/-- `MAX_HEAP_PAGES`. -/
def maxHeapPages : Nat := 256

/-- `EXPAND_PAGES`. -/
def expandPages : Nat := 4

/-- The number of 32-bit addresses. -/
def walkFuel : Nat := 2 ^ 32

/-- The static state of `kheap.c`, the memory it works on, and the page allocator it calls.
`heap_page_count` is the length of `heapPages`. -/
structure Kheap where
  mem : Memory
  freeHead : Nat
  heapPages : List Nat
  pmm : Pmm

/-! ## Block fields -/

/-- `b->size`. -/
def blockSize (m : Memory) (b : Nat) : Nat := m.load32 b

/-- `b->free`. -/
def blockFree (m : Memory) (b : Nat) : Nat := m.load32 (b + 4)

/-- `*next_ptr(b)`. -/
def nextPtr (m : Memory) (b : Nat) : Nat := m.load32 (b + 8)

/-- `*prev_ptr(b)`. -/
def prevPtr (m : Memory) (b : Nat) : Nat := m.load32 (b + 12)

/-- `page_of(p)`: clear the low 12 bits. -/
def pageOf (p : Nat) : Nat := p / pageSize * pageSize

/-- `(uint8_t *)b + b->size`: the block physically after `b`. -/
def blockAfter (m : Memory) (b : Nat) : Nat := (b + blockSize m b) % 2 ^ 32

namespace Kheap

/-! ## The free list -/

/-- `fl_insert`. -/
def flInsert (h : Kheap) (b : Nat) : Kheap :=
  let m := ((h.mem.store32 (b + 4) 1).store32 (b + 8) h.freeHead).store32 (b + 12) 0
  let m := if h.freeHead ≠ 0 then m.store32 (h.freeHead + 12) b else m
  { h with mem := m, freeHead := b }

/-- `fl_remove`. -/
def flRemove (h : Kheap) (b : Nat) : Kheap :=
  let n := nextPtr h.mem b
  let p := prevPtr h.mem b
  let m := if p ≠ 0 then h.mem.store32 (p + 8) n else h.mem
  let head := if p ≠ 0 then h.freeHead else n
  let m := if n ≠ 0 then m.store32 (n + 12) p else m
  { h with mem := m, freeHead := head }

/-! ## Coalescing -/

/-- `coalesce_forward`: absorb the free block after `b`, if it starts in the same page. -/
def coalesceForward (h : Kheap) (b : Nat) : Kheap :=
  let pend := (pageOf b + pageSize) % 2 ^ 32
  let next := blockAfter h.mem b
  if pend ≤ next then h
  else if blockFree h.mem next = 0 then h
  else
    let h := h.flRemove next
    { h with mem := h.mem.store32 b (blockSize h.mem b + blockSize h.mem next) }

/-- The loop of `coalesce_backward`: `curr` follows the size fields until it reaches or passes
`b`, and `prev` is the block visited before. -/
def walkBack (m : Memory) (b : Nat) : Nat → Nat → Nat → Option Nat
  | 0, _, _ => none
  | fuel + 1, prev, curr =>
      if curr < b then walkBack m b fuel curr (blockAfter m curr) else some prev

/-- `coalesce_backward`: let the block before `b` absorb `b` if it is free. Returns whether it
did, and `none` when the walk never ends. -/
def coalesceBackward (h : Kheap) (b : Nat) : Option (Bool × Kheap) :=
  if b = pageOf b then some (false, h)
  else
    match walkBack h.mem b walkFuel 0 (pageOf b) with
    | none => none
    | some prev =>
        if prev = 0 ∨ blockFree h.mem prev = 0 then some (false, h)
        else some (true,
          { h with mem := h.mem.store32 prev (blockSize h.mem prev + blockSize h.mem b) })

/-! ## Expansion and initialisation -/

/-- The addresses of `count` consecutive pages. -/
def pageList (base count : Nat) : List Nat :=
  (List.range count).map fun i => base + i * pageSize

/-- Turn `count` fresh pages at `base` into one free block and record them. -/
def addRegion (h : Kheap) (base count : Nat) : Kheap :=
  let h := { h with mem := h.mem.store32 base (count * pageSize) }
  let h := h.flInsert base
  { h with heapPages := h.heapPages ++ pageList base count }

/-- `heap_expand`: add four pages, unless the heap is at its limit or the pages cannot be had. -/
def heapExpand (h : Kheap) : Bool × Kheap :=
  if maxHeapPages < h.heapPages.length + expandPages then (false, h)
  else
    let (base, pmm) := h.pmm.pmmAllocContiguousPages expandPages
    if base = 0 then (false, { h with pmm := pmm })
    else (true, addRegion { h with pmm := pmm } base expandPages)

/-- `kheap_init`: an empty heap, or one block of sixteen pages. -/
def kheapInit (mem : Memory) (pmm : Pmm) : Kheap :=
  let (base, pmm) := pmm.pmmAllocContiguousPages heapInitPages
  let h : Kheap := { mem := mem, freeHead := 0, heapPages := [], pmm := pmm }
  if base = 0 then h else h.addRegion base heapInitPages

/-! ## Allocation -/

/-- The block size needed for a request: rounded up to 8, plus the header, at least 16. -/
def neededSize (size : Nat) : Nat :=
  let aligned := (size + 7) % 2 ^ 32 / 8 * 8
  let needed := (aligned + headerSize) % 2 ^ 32
  if needed < minBlockSize then minBlockSize else needed

/-- The first-fit loop. The outer option is `none` when the list never ends. -/
def firstFit (m : Memory) (needed : Nat) : Nat → Nat → Option (Option Nat)
  | 0, _ => none
  | fuel + 1, b =>
      if b = 0 then some none
      else if needed ≤ blockSize m b then some (some b)
      else firstFit m needed fuel (nextPtr m b)

/-- Cut free block `b` after `needed` bytes; the rest takes its place in the free list. -/
def splitBlock (h : Kheap) (b needed : Nat) : Kheap :=
  let r := b + needed
  let m := (h.mem.store32 r (blockSize h.mem b - needed)).store32 (r + 4) 1
  let n := nextPtr m b
  let p := prevPtr m b
  let m := (m.store32 (r + 8) n).store32 (r + 12) p
  let m := if p ≠ 0 then m.store32 (p + 8) r else m
  let head := if p ≠ 0 then h.freeHead else r
  let m := if n ≠ 0 then m.store32 (n + 12) r else m
  { h with mem := m.store32 b needed, freeHead := head }

/-- Take free block `b` for a request: split it if the rest can stand as a block of its own. -/
def takeBlock (h : Kheap) (b needed : Nat) : Kheap :=
  let h :=
    if minBlockSize ≤ blockSize h.mem b - needed then h.splitBlock b needed else h.flRemove b
  { h with mem := h.mem.store32 (b + 4) 0 }

/-- `kmalloc` for a needed block size. Each round either returns or expands the heap. -/
def kmallocLoop (needed : Nat) : Nat → Kheap → Option (Nat × Kheap)
  | 0, _ => none
  | fuel + 1, h =>
      match firstFit h.mem needed walkFuel h.freeHead with
      | none => none
      | some (some b) => some (b + headerSize, h.takeBlock b needed)
      | some none =>
          match h.heapExpand with
          | (false, h) => some (0, h)
          | (true, h) => kmallocLoop needed fuel h

/-- `kmalloc`: the payload address, or 0. An expansion adds pages, so it calls itself fewer
than `MAX_HEAP_PAGES` times. -/
def kmalloc (h : Kheap) (size : Nat) : Option (Nat × Kheap) :=
  kmallocLoop (neededSize size) (maxHeapPages + 1) h

/-- `kfree`. Freeing NULL or a block already marked free does nothing. -/
def kfree (h : Kheap) (ptr : Nat) : Option Kheap :=
  if ptr = 0 then some h
  else
    let b := ptr - headerSize
    if blockFree h.mem b ≠ 0 then some h
    else
      let h := { h with mem := h.mem.store32 (b + 4) 1 }
      let h := h.coalesceForward b
      match h.coalesceBackward b with
      | none => none
      | some (true, h) => some h
      | some (false, h) => some (h.flInsert b)

end Kheap

end Kumo
