import Kumo.Arch.Cpu
import Kumo.Lib.Bytes

/-!
# Descriptor tables

The GDT, the IDT and the TSS: `arch/x86/gdt.c`, `idt.c` and `tss.c`, and the gates that
`irq_handler.c`, `mouse.c` and `kmain` put in. Every entry is a packed structure of eight
bytes whose fields are split over them, and the processor puts them together again. The
addresses of the tables and of the handlers are the linker's. The serial output is left out.
-/

namespace Memory

/-! ## Arrays of eight bytes -/

variable {m : Memory} {p q i j k n : Nat} {bs : List (BitVec 8)}

/-- Entry `i` of an array whose elements have eight bytes. -/
def entry8 (m : Memory) (p i : Nat) : List (BitVec 8) := bytesAt m (p + 8 * i) 8

/-- Such an array with entry `i` replaced. -/
def setEntry8 (m : Memory) (p i : Nat) (bs : List (BitVec 8)) : Memory :=
  storeBytes m (p + 8 * i) bs

theorem entry8_setEntry8 (hlen : bs.length = 8) (m : Memory) (p i j : Nat) :
    entry8 (setEntry8 m p i bs) p j = if j = i then bs else entry8 m p j := by
  by_cases h : j = i
  · have hread := bytesAt_storeBytes m (p + 8 * i) bs
    rw [hlen] at hread
    rw [if_pos h, h]
    exact hread
  · rw [if_neg h, entry8, setEntry8, entry8]
    exact bytesAt_congr fun x h1 h2 => storeBytes_outside (by omega)

theorem setEntry8_outside (hlen : bs.length = 8) {x : Nat} (hx : x < p + 8 * i ∨ p + 8 * i + 8 ≤ x) :
    setEntry8 m p i bs x = m x :=
  storeBytes_outside (by omega)

/-- An array somewhere else. -/
theorem entry8_congr {m' : Memory} (h : ∀ x, p + 8 * j ≤ x → x < p + 8 * j + 8 → m' x = m x) :
    entry8 m' p j = entry8 m p j :=
  bytesAt_congr h

end Memory

namespace Kumo

open Memory

namespace Descriptors

/-! ## Fields of an entry -/

/-- The byte at an offset of a structure. -/
def byteOf (bs : List (BitVec 8)) (k : Nat) : Nat := (bs.getD k 0).toNat

/-- The 16-bit number at an offset of a structure. -/
def halfOf (bs : List (BitVec 8)) (k : Nat) : Nat := byteOf bs k + 2 ^ 8 * byteOf bs (k + 1)

/-- The two bytes of a 16-bit number. -/
def half (v : Nat) : List (BitVec 8) := [BitVec.ofNat 8 v, BitVec.ofNat 8 (v / 2 ^ 8)]

/-! ## The GDT -/

/-- What `gdt_set_entry` puts in the six fields of an entry. -/
def gdtEntry (base limit access granularity : Nat) : List (BitVec 8) :=
  half (limit &&& 0xFFFF) ++ half (base &&& 0xFFFF) ++
    [BitVec.ofNat 8 ((base >>> 16) &&& 0xFF), BitVec.ofNat 8 access,
      BitVec.ofNat 8 (((limit >>> 16) &&& 0x0F) ||| (granularity &&& 0xF0)),
      BitVec.ofNat 8 ((base >>> 24) &&& 0xFF)]

/-- What `gdt_set_tss` puts there. -/
def gdtTssEntry (base limit : Nat) : List (BitVec 8) :=
  half (limit &&& 0xFFFF) ++ half (base &&& 0xFFFF) ++
    [BitVec.ofNat 8 ((base >>> 16) &&& 0xFF), 0x89#8, 0x00#8, BitVec.ofNat 8 ((base >>> 24) &&& 0xFF)]

/-- A segment, as the processor reads its descriptor. -/
structure Segment where
  base : Nat
  limit : Nat
  access : Nat
  flags : Nat
  deriving DecidableEq

namespace Segment

/-- The fields put together. -/
def decode (bs : List (BitVec 8)) : Segment where
  base := halfOf bs 2 + 2 ^ 16 * byteOf bs 4 + 2 ^ 24 * byteOf bs 7
  limit := halfOf bs 0 + 2 ^ 16 * (byteOf bs 6 % 2 ^ 4)
  access := byteOf bs 5
  flags := byteOf bs 6 / 2 ^ 4

/-- The present bit. -/
def Present (s : Segment) : Prop := s.access / 2 ^ 7 % 2 = 1

/-- The privilege level. -/
def dpl (s : Segment) : Nat := s.access / 2 ^ 5 % 4

/-- A segment of code or data, not of the system. -/
def OfMemory (s : Segment) : Prop := s.access / 2 ^ 4 % 2 = 1

/-- A segment of code. -/
def Code (s : Segment) : Prop := s.OfMemory ∧ s.access / 2 ^ 3 % 2 = 1

/-- A segment of data that may be written. -/
def Writable (s : Segment) : Prop := s.OfMemory ∧ s.access / 2 ^ 3 % 2 = 0 ∧ s.access / 2 % 2 = 1

/-- A task state segment of 32 bits. -/
def OfTask (s : Segment) : Prop := ¬ s.OfMemory ∧ (s.access % 2 ^ 4 = 9 ∨ s.access % 2 ^ 4 = 11)

/-- The number of bytes: the limit counts pages if the granularity bit is set. -/
def size (s : Segment) : Nat := if s.flags / 2 ^ 3 % 2 = 1 then (s.limit + 1) * 4096 else s.limit + 1

instance (s : Segment) : Decidable s.Present := inferInstanceAs (Decidable (_ = _))

instance (s : Segment) : Decidable s.OfMemory := inferInstanceAs (Decidable (_ = _))

instance (s : Segment) : Decidable s.Code := inferInstanceAs (Decidable (_ ∧ _))

instance (s : Segment) : Decidable s.Writable := inferInstanceAs (Decidable (_ ∧ _))

instance (s : Segment) : Decidable s.OfTask := inferInstanceAs (Decidable (_ ∧ _))

end Segment

/-- The granularity byte: four bits of the limit, and the flags. -/
theorem granularity_byte {a g : Nat} (hg : g < 2 ^ 8) :
    ((a &&& 0x0F) ||| (g &&& 0xF0)) = a % 2 ^ 4 + 2 ^ 4 * (g / 2 ^ 4) := by
  have hhigh : ∀ g < 2 ^ 8, g &&& 0xF0 = 2 ^ 4 * (g / 2 ^ 4) := by decide +kernel
  have hlow : a &&& 0x0F = a % 2 ^ 4 := Nat.and_two_pow_sub_one_eq_mod a 4
  rw [hlow, hhigh g hg, Nat.or_comm, ← Nat.two_pow_add_eq_or_of_lt (Nat.mod_lt _ (by decide)),
    Nat.add_comm]

/-- The processor reads back what `gdt_set_entry` was given. -/
theorem decode_gdtEntry {base limit access granularity : Nat} (hbase : base < 2 ^ 32)
    (haccess : access < 2 ^ 8) (hgran : granularity < 2 ^ 8) :
    Segment.decode (gdtEntry base limit access granularity) =
      ⟨base, limit % 2 ^ 20, access, granularity / 2 ^ 4⟩ := by
  have h16 : ∀ v, v &&& 0xFFFF = v % 2 ^ 16 := fun v => Nat.and_two_pow_sub_one_eq_mod v 16
  have h8 : ∀ v, v &&& 0xFF = v % 2 ^ 8 := fun v => Nat.and_two_pow_sub_one_eq_mod v 8
  simp only [Segment.decode, gdtEntry, half, halfOf, byteOf, h16, h8, granularity_byte hgran,
    Nat.shiftRight_eq_div_pow, List.cons_append, List.nil_append, List.getD_cons_zero,
    List.getD_cons_succ, BitVec.toNat_ofNat, Segment.mk.injEq]
  omega

/-- The TSS descriptor is one of `gdt_set_entry`. -/
theorem gdtTssEntry_eq {base limit : Nat} (hlimit : limit < 2 ^ 16) :
    gdtTssEntry base limit = gdtEntry base limit 0x89 0 := by
  have hshift : limit >>> 16 = 0 := by
    rw [Nat.shiftRight_eq_div_pow]
    omega
  rw [gdtTssEntry, gdtEntry, hshift]
  rfl

/-! ## The IDT -/

/-- What `idt_set_gate` puts in the five fields of an entry. -/
def idtEntry (handlerAddr selector typeAttr : Nat) : List (BitVec 8) :=
  half (handlerAddr &&& 0xFFFF) ++ half selector ++ [0x00#8, BitVec.ofNat 8 typeAttr] ++
    half ((handlerAddr >>> 16) &&& 0xFFFF)

/-- A gate, as the processor reads its descriptor. -/
structure Gate where
  offset : Nat
  selector : Nat
  attr : Nat
  deriving DecidableEq

namespace Gate

/-- The fields put together. -/
def decode (bs : List (BitVec 8)) : Gate where
  offset := halfOf bs 0 + 2 ^ 16 * halfOf bs 6
  selector := halfOf bs 2
  attr := byteOf bs 5

/-- The present bit. -/
def Present (g : Gate) : Prop := g.attr / 2 ^ 7 % 2 = 1

/-- The privilege level. -/
def dpl (g : Gate) : Nat := g.attr / 2 ^ 5 % 4

/-- An interrupt gate of 32 bits: interrupts are masked on entry. -/
def OfInterrupt (g : Gate) : Prop := g.attr % 2 ^ 5 = 0xE

instance (g : Gate) : Decidable g.Present := inferInstanceAs (Decidable (_ = _))

instance (g : Gate) : Decidable g.OfInterrupt := inferInstanceAs (Decidable (_ = _))

end Gate

/-- The processor reads back what `idt_set_gate` was given. -/
theorem decode_idtEntry {handlerAddr selector typeAttr : Nat} (haddr : handlerAddr < 2 ^ 32)
    (hselector : selector < 2 ^ 16) (hattr : typeAttr < 2 ^ 8) :
    Gate.decode (idtEntry handlerAddr selector typeAttr) = ⟨handlerAddr, selector, typeAttr⟩ := by
  have h16 : ∀ v, v &&& 0xFFFF = v % 2 ^ 16 := fun v => Nat.and_two_pow_sub_one_eq_mod v 16
  simp only [Gate.decode, idtEntry, half, halfOf, byteOf, h16, Nat.shiftRight_eq_div_pow,
    List.cons_append, List.nil_append, List.getD_cons_zero, List.getD_cons_succ,
    BitVec.toNat_ofNat, Gate.mk.injEq]
  omega

/-! ## The functions -/

/-- Where the linker puts the three tables, which do not overlap, and the code that gates lead to. -/
structure Places where
  gdt : Nat
  idt : Nat
  tss : Nat
  /-- `isr_0`, …, `isr_31`. -/
  isr : Nat → Nat
  isrStub : Nat
  irq0Entry : Nat
  irq12Entry : Nat
  syscallHandler : Nat
  gdt_idt : gdt + 48 ≤ idt ∨ idt + 2048 ≤ gdt
  gdt_tss : gdt + 48 ≤ tss ∨ tss + 104 ≤ gdt
  idt_tss : idt + 2048 ≤ tss ∨ tss + 104 ≤ idt
  tss_end : tss + 104 ≤ 2 ^ 32
  isr_lt : ∀ i, isr i < 2 ^ 32
  isrStub_lt : isrStub < 2 ^ 32
  irq0Entry_lt : irq0Entry < 2 ^ 32
  irq12Entry_lt : irq12Entry < 2 ^ 32
  syscallHandler_lt : syscallHandler < 2 ^ 32

/-- The operand of `lgdt` and `lidt`. -/
structure TableReg where
  limit : Nat
  base : Nat
  deriving DecidableEq

/-- Memory with the registers that tell the processor where the tables are. -/
structure State where
  mem : Memory
  gdtr : TableReg
  idtr : TableReg
  tr : Nat

/-- `GDT_ACCESS_KCODE`. -/
def gdtAccessKcode : Nat := 0x9A

/-- `GDT_ACCESS_KDATA`. -/
def gdtAccessKdata : Nat := 0x92

/-- `GDT_ACCESS_UCODE`. -/
def gdtAccessUcode : Nat := 0xFA

/-- `GDT_ACCESS_UDATA`. -/
def gdtAccessUdata : Nat := 0xF2

/-- `GDT_FLAT_GRAN`. -/
def gdtFlatGran : Nat := 0xCF

/-- `IDT_FLAG_INTR_GATE`. -/
def idtFlagIntrGate : Nat := 0x8E

/-- `sizeof(tss_t)`. -/
def tssSize : Nat := 104

/-- `g_tss.esp0`. -/
def esp0Off : Nat := 0x04

/-- `g_tss.ss0`. -/
def ss0Off : Nat := 0x08

/-- `g_tss.iomap_base`. -/
def iomapBaseOff : Nat := 0x66

namespace State

variable (p : Places)

/-- `gdt_set_entry`. -/
def gdtSetEntry (s : State) (index base limit access granularity : Nat) : State :=
  { s with mem := setEntry8 s.mem p.gdt index (gdtEntry base limit access granularity) }

/-- `load_gdtr`. -/
def loadGdtr (s : State) : State := { s with gdtr := ⟨6 * 8 - 1, p.gdt⟩ }

/-- `gdt_init`. -/
def gdtInit (s : State) : State :=
  let s := s.gdtSetEntry p 0 0 0 0 0
  let s := s.gdtSetEntry p 1 0 0xFFFFF gdtAccessKcode gdtFlatGran
  let s := s.gdtSetEntry p 2 0 0xFFFFF gdtAccessKdata gdtFlatGran
  let s := s.gdtSetEntry p 3 0 0xFFFFF gdtAccessUcode gdtFlatGran
  let s := s.gdtSetEntry p 4 0 0xFFFFF gdtAccessUdata gdtFlatGran
  let s := s.gdtSetEntry p 5 0 0 0 0
  s.loadGdtr p

/-- `gdt_set_tss`. -/
def gdtSetTss (s : State) (base limit : Nat) : State :=
  loadGdtr p { s with mem := setEntry8 s.mem p.gdt 5 (gdtTssEntry base limit) }

/-- `idt_set_gate`. -/
def idtSetGate (s : State) (vector handlerAddr selector typeAttr : Nat) : State :=
  { s with mem := setEntry8 s.mem p.idt vector (idtEntry handlerAddr selector typeAttr) }

/-- The loop of `idt_init`. -/
def idtLoop : Nat → Nat → State → State
  | 0, _, s => s
  | steps + 1, i, s =>
      let addr := if i < 32 then p.isr i else p.isrStub
      idtLoop steps (i + 1) (s.idtSetGate p i addr kernelCs idtFlagIntrGate)

/-- `idt_init`. -/
def idtInit (s : State) : State := { s.idtLoop p 256 0 with idtr := ⟨256 * 8 - 1, p.idt⟩ }

/-- The gate of `irq_init`. -/
def irqInit (s : State) : State := s.idtSetGate p 32 p.irq0Entry 0x08 0x8E

/-- The gate of `mouse_init`. -/
def mouseInit (s : State) : State := s.idtSetGate p 44 p.irq12Entry 0x08 0x8E

/-- `tss_init`. -/
def tssInit (s : State) : State :=
  let m := clearBytes s.mem p.tss tssSize
  let m := m.store32 (p.tss + ss0Off) kernelDs
  let m := m.store32 (p.tss + esp0Off) 0
  let m := storeBytes m (p.tss + iomapBaseOff) (half tssSize)
  { gdtSetTss p { s with mem := m } p.tss (tssSize - 1) with tr := 0x28 }

/-- `tss_set_esp0`. -/
def tssSetEsp0 (s : State) (esp : Nat) : State :=
  { s with mem := s.mem.store32 (p.tss + esp0Off) esp }

/-- What `kmain` does with the tables; the mouse is only set up if there is a framebuffer. -/
def boot (framebuffer : Bool) (s : State) : State :=
  let s := s.gdtInit p
  let s := s.idtInit p
  let s := s.irqInit p
  let s := if framebuffer then s.mouseInit p else s
  let s := s.tssInit p
  s.idtSetGate p 0x80 p.syscallHandler kernelCs 0xEE

end State

/-! ## What is in the tables -/

/-- The entries of the GDT. -/
def gdtContents (p : Places) : Nat → List (BitVec 8)
  | 1 => gdtEntry 0 0xFFFFF gdtAccessKcode gdtFlatGran
  | 2 => gdtEntry 0 0xFFFFF gdtAccessKdata gdtFlatGran
  | 3 => gdtEntry 0 0xFFFFF gdtAccessUcode gdtFlatGran
  | 4 => gdtEntry 0 0xFFFFF gdtAccessUdata gdtFlatGran
  | 5 => gdtTssEntry p.tss (tssSize - 1)
  | _ => gdtEntry 0 0 0 0

/-- The code that a vector leads to. -/
def handler (p : Places) (framebuffer : Bool) (vector : Nat) : Nat :=
  if vector < 32 then p.isr vector
  else if vector = 32 then p.irq0Entry
  else if vector = 44 ∧ framebuffer = true then p.irq12Entry
  else if vector = 0x80 then p.syscallHandler
  else p.isrStub

/-- The attributes of a gate. -/
def gateAttr (vector : Nat) : Nat := if vector = 0x80 then 0xEE else idtFlagIntrGate

theorem handler_lt (p : Places) (framebuffer : Bool) (vector : Nat) :
    handler p framebuffer vector < 2 ^ 32 := by
  unfold handler
  split_ifs
  · exact p.isr_lt vector
  · exact p.irq0Entry_lt
  · exact p.irq12Entry_lt
  · exact p.syscallHandler_lt
  · exact p.isrStub_lt

/-- The tables as the processor finds them, with the stack for ring 0. -/
structure Installed (p : Places) (framebuffer : Bool) (s : State) (esp0 : Nat) : Prop where
  gdtr : s.gdtr = ⟨47, p.gdt⟩
  idtr : s.idtr = ⟨2047, p.idt⟩
  tr : s.tr = 0x28
  gdt : ∀ i, i < 6 → entry8 s.mem p.gdt i = gdtContents p i
  idt : ∀ v, v < 256 →
    entry8 s.mem p.idt v = idtEntry (handler p framebuffer v) kernelCs (gateAttr v)
  esp0 : s.mem.load32 (p.tss + esp0Off) = esp0
  ss0 : s.mem.load32 (p.tss + ss0Off) = kernelDs
  iomap : halfOf (bytesAt s.mem (p.tss + iomapBaseOff) 2) 0 = tssSize

end Descriptors

end Kumo
