import Mathlib.Tactic.IntervalCases
import Kumo.Arch.Descriptors
import Kumo.Lib.Transition

/-!
# Interrupts through the tables

What the processor does with the tables that `kmain` sets up. A vector selects a gate, the
gate a code segment, and when that segment is more privileged than the running code, the
TSS selects the stack. `interrupt_entries` says where each vector leads: a program can reach
the kernel through one gate only, and always on the stack that the scheduler has chosen.
-/

namespace Kumo

open Memory Transition

namespace Descriptors

/-! ## The processor -/

/-- Entry `i` of a table, if the table is long enough. -/
def lookup (m : Memory) (r : TableReg) (i : Nat) : Option (List (BitVec 8)) :=
  if 8 * i + 7 ≤ r.limit then some (entry8 m r.base i) else none

/-- The present segment of a selector. There is no local table. -/
def segmentOf (s : State) (selector : Nat) : Option Segment :=
  if selector / 8 = 0 ∨ selector / 4 % 2 = 1 then none
  else
    match lookup s.mem s.gdtr (selector / 8) with
    | none => none
    | some bs => if (Segment.decode bs).Present then some (.decode bs) else none

/-- Where an interrupt goes, with the stack if there is another one. -/
structure Entry where
  cs : Nat
  eip : Nat
  stack : Option (Nat × Nat)
  deriving DecidableEq

/-- The stack segment and the stack pointer that the TSS has for a privilege level. -/
def taskStack (s : State) (level : Nat) : Option (Nat × Nat) :=
  match segmentOf s s.tr with
  | none => none
  | some tss =>
      if ¬ tss.OfTask ∨ tss.size < 8 * level + 12 then none
      else
        let ss := s.mem.load32 (tss.base + 8 * level + 8) % 2 ^ 16
        match segmentOf s ss with
        | none => none
        | some seg =>
            if seg.Writable ∧ seg.dpl = level ∧ ss % 4 = level then
              some (ss, s.mem.load32 (tss.base + 8 * level + 4))
            else none

/-- The processor takes an interrupt while code of level `cpl` runs. The level of the gate is
checked if a program has raised it. -/
def enter (s : State) (cpl vector : Nat) (software : Bool) : Option Entry :=
  match lookup s.mem s.idtr vector with
  | none => none
  | some bs =>
      let g := Gate.decode bs
      if ¬ g.Present ∨ ¬ g.OfInterrupt then none
      else if software = true ∧ g.dpl < cpl then none
      else
        match segmentOf s g.selector with
        | none => none
        | some seg =>
            if ¬ seg.Code ∨ cpl < seg.dpl then none
            else if seg.dpl = cpl then some ⟨g.selector, g.offset, none⟩
            else
              match taskStack s seg.dpl with
              | none => none
              | some stack => some ⟨g.selector, g.offset, some stack⟩

/-- A port may be used in ring 3 only if the TSS has a byte for it. -/
def portAllowed (s : State) (port : Nat) : Prop :=
  ∃ tss, segmentOf s s.tr = some tss ∧ tss.OfTask ∧
    halfOf (bytesAt s.mem (tss.base + iomapBaseOff) 2) 0 + port / 8 < tss.size

variable {p : Places} {s s' : State} {framebuffer : Bool} {esp0 i j k v x : Nat}

/-! ## Writes to one table -/

theorem length_gdtEntry (base limit access granularity : Nat) :
    (gdtEntry base limit access granularity).length = 8 := rfl

theorem length_gdtTssEntry (base limit : Nat) : (gdtTssEntry base limit).length = 8 := rfl

theorem length_idtEntry (handlerAddr selector typeAttr : Nat) :
    (idtEntry handlerAddr selector typeAttr).length = 8 := rfl

/-- The addresses of the three tables. -/
def InTables (p : Places) (x : Nat) : Prop :=
  (p.gdt ≤ x ∧ x < p.gdt + 48) ∨ (p.idt ≤ x ∧ x < p.idt + 2048) ∨ (p.tss ≤ x ∧ x < p.tss + 104)

instance (p : Places) (x : Nat) : Decidable (InTables p x) := inferInstanceAs (Decidable (_ ∨ _))

/-- The tables are the same if no byte of them has changed. -/
theorem Installed.congr (h : Installed p framebuffer s esp0) {m : Memory}
    (hm : ∀ x, InTables p x → m x = s.mem x) :
    Installed p framebuffer { s with mem := m } esp0 := by
  refine ⟨h.gdtr, h.idtr, h.tr, fun i hi => ?_, fun v hv => ?_, ?_, ?_, ?_⟩
  · rw [← h.gdt i hi]
    exact entry8_congr fun x h1 h2 => hm x (.inl ⟨by omega, by omega⟩)
  · rw [← h.idt v hv]
    exact entry8_congr fun x h1 h2 => hm x (.inr (.inl ⟨by omega, by omega⟩))
  · rw [← h.esp0]
    refine load32_congr fun x h1 h2 => hm x (.inr (.inr ⟨?_, ?_⟩))
    · omega
    · simp only [esp0Off] at h2
      omega
  · rw [← h.ss0]
    refine load32_congr fun x h1 h2 => hm x (.inr (.inr ⟨?_, ?_⟩))
    · omega
    · simp only [ss0Off] at h2
      omega
  · rw [← h.iomap]
    congr 1
    refine bytesAt_congr fun x h1 h2 => hm x (.inr (.inr ⟨?_, ?_⟩))
    · omega
    · simp only [iomapBaseOff] at h2
      omega

/-- `tss_set_esp0` changes the stack pointer only. -/
theorem Installed.tssSetEsp0 (h : Installed p framebuffer s esp0) {esp : Nat} (hesp : esp < 2 ^ 32) :
    Installed p framebuffer (s.tssSetEsp0 p esp) esp := by
  have hgdt := p.gdt_tss
  have hidt := p.idt_tss
  have hout : ∀ x, x < p.tss + 4 ∨ p.tss + 8 ≤ x → (s.tssSetEsp0 p esp).mem x = s.mem x :=
    fun x hx => store32_outside (by simp only [esp0Off]; omega)
  refine ⟨h.gdtr, h.idtr, h.tr, fun i hi => ?_, fun v hv => ?_, ?_, ?_, ?_⟩
  · rw [← h.gdt i hi]
    exact entry8_congr fun x h1 h2 => hout x (by omega)
  · rw [← h.idt v hv]
    exact entry8_congr fun x h1 h2 => hout x (by omega)
  · rw [State.tssSetEsp0, load32_store32, Nat.mod_eq_of_lt hesp]
  · rw [← h.ss0]
    refine load32_congr fun x h1 h2 => hout x ?_
    simp only [ss0Off] at h1
    omega
  · rw [← h.iomap]
    congr 1
    refine bytesAt_congr fun x h1 h2 => hout x ?_
    simp only [iomapBaseOff] at h1
    omega

/-! ## The boot -/

/-- The loop of `idt_init` fills the entries from `i` on. -/
theorem idtLoop_spec (p : Places) (steps i : Nat) (s : State) (hi : i + steps ≤ 256) :
    (∀ v, entry8 (s.idtLoop p steps i).mem p.idt v = if i ≤ v ∧ v < i + steps then
        idtEntry (if v < 32 then p.isr v else p.isrStub) kernelCs idtFlagIntrGate
      else entry8 s.mem p.idt v) ∧
    (∀ x, x < p.idt ∨ p.idt + 2048 ≤ x → (s.idtLoop p steps i).mem x = s.mem x) ∧
    (s.idtLoop p steps i).gdtr = s.gdtr := by
  induction steps generalizing i s with
  | zero => exact ⟨fun v => by rw [if_neg (by omega)]; rfl, fun _ _ => rfl, rfl⟩
  | succ steps ih =>
      obtain ⟨hentry, hout, hgdtr⟩ := ih (i + 1)
        (s.idtSetGate p i (if i < 32 then p.isr i else p.isrStub) kernelCs idtFlagIntrGate) (by omega)
      refine ⟨fun v => ?_, fun x hx => ?_, hgdtr⟩
      · rw [State.idtLoop, hentry, State.idtSetGate, entry8_setEntry8 (length_idtEntry ..)]
        by_cases hv : v = i
        · subst hv
          have hpast : ¬ (v + 1 ≤ v ∧ v < v + 1 + steps) := by omega
          have hhere : v ≤ v ∧ v < v + (steps + 1) := by omega
          rw [if_neg hpast, if_pos rfl, if_pos hhere]
        · rw [if_neg hv]
          refine if_congr ?_ rfl rfl
          omega
      · exact (hout x hx).trans (setEntry8_outside (length_idtEntry ..) (by omega))

/-- One entry of the GDT. -/
theorem entry_gdtSetEntry (s : State) (index base limit access granularity i : Nat) :
    entry8 (s.gdtSetEntry p index base limit access granularity).mem p.gdt i =
      if i = index then gdtEntry base limit access granularity else entry8 s.mem p.gdt i :=
  entry8_setEntry8 (length_gdtEntry ..) ..

/-- `gdt_init` fills the GDT; the place of the TSS descriptor stays empty. -/
theorem gdtInit_entry (s : State) (hi : i < 6) :
    entry8 (s.gdtInit p).mem p.gdt i = if i = 5 then gdtEntry 0 0 0 0 else gdtContents p i := by
  simp only [State.gdtInit, State.loadGdtr, entry_gdtSetEntry]
  interval_cases i <;> rfl

/-- A gate. -/
theorem entry_idtSetGate (s : State) (vector handlerAddr selector typeAttr v : Nat) :
    entry8 (s.idtSetGate p vector handlerAddr selector typeAttr).mem p.idt v =
      if v = vector then idtEntry handlerAddr selector typeAttr else entry8 s.mem p.idt v :=
  entry8_setEntry8 (length_idtEntry ..) ..

/-- A gate is written in the IDT. -/
theorem idtSetGate_outside (s : State) (hv : v < 256) (handlerAddr selector typeAttr : Nat)
    (hx : x < p.idt ∨ p.idt + 2048 ≤ x) :
    (s.idtSetGate p v handlerAddr selector typeAttr).mem x = s.mem x :=
  setEntry8_outside (length_idtEntry ..) (by omega)

/-- `tss_init` writes in the TSS and in the last entry of the GDT. -/
theorem tssInit_spec (s : State) :
    (∀ x, (x < p.tss ∨ p.tss + 104 ≤ x) → (x < p.gdt + 40 ∨ p.gdt + 48 ≤ x) →
      (s.tssInit p).mem x = s.mem x) ∧
    entry8 (s.tssInit p).mem p.gdt 5 = gdtTssEntry p.tss (tssSize - 1) ∧
    (s.tssInit p).mem.load32 (p.tss + esp0Off) = 0 ∧
    (s.tssInit p).mem.load32 (p.tss + ss0Off) = kernelDs ∧
    halfOf (bytesAt (s.tssInit p).mem (p.tss + iomapBaseOff) 2) 0 = tssSize := by
  have hapart := p.gdt_tss
  set m := storeBytes (((clearBytes s.mem p.tss tssSize).store32 (p.tss + ss0Off) kernelDs).store32
    (p.tss + esp0Off) 0) (p.tss + iomapBaseOff) (half tssSize) with hm
  have hmem : (s.tssInit p).mem = setEntry8 m p.gdt 5 (gdtTssEntry p.tss (tssSize - 1)) := rfl
  have hlast : ∀ x, (x < p.gdt + 40 ∨ p.gdt + 48 ≤ x) → (s.tssInit p).mem x = m x := fun x hx => by
    rw [hmem]
    exact setEntry8_outside (length_gdtTssEntry ..) (by omega)
  have htop : ∀ x, x < p.tss + iomapBaseOff → m x =
      ((clearBytes s.mem p.tss tssSize).store32 (p.tss + ss0Off) kernelDs).store32
        (p.tss + esp0Off) 0 x := fun x hx => storeBytes_outside (.inl hx)
  refine ⟨fun x h1 h2 => ?_, ?_, ?_, ?_, ?_⟩
  · rw [hlast x h2, hm, storeBytes_outside (by
      simp only [half, List.length_cons, List.length_nil, iomapBaseOff]; omega),
      store32_outside (by simp only [esp0Off]; omega), store32_outside (by simp only [ss0Off]; omega),
      clearBytes_outside (by simp only [tssSize]; omega)]
  · rw [hmem, entry8_setEntry8 (length_gdtTssEntry ..), if_pos rfl]
  · rw [load32_congr fun x h1 h2 => (hlast x (by simp only [esp0Off] at *; omega)).trans
      (htop x (by simp only [esp0Off, iomapBaseOff] at *; omega)), load32_store32]
    rfl
  · rw [load32_congr fun x h1 h2 => (hlast x (by simp only [ss0Off] at *; omega)).trans
      (htop x (by simp only [ss0Off, iomapBaseOff] at *; omega)),
      load32_store32_disjoint (by simp only [ss0Off, esp0Off]; omega), load32_store32]
    rfl
  · rw [bytesAt_congr fun x h1 h2 => hlast x (by simp only [iomapBaseOff] at *; omega)]
    have hread := bytesAt_storeBytes (((clearBytes s.mem p.tss tssSize).store32 (p.tss + ss0Off)
      kernelDs).store32 (p.tss + esp0Off) 0) (p.tss + iomapBaseOff) (half tssSize)
    exact (congrArg (halfOf · 0) hread).trans (by decide)

/-- The state before `tss_init`. -/
def gatesSet (p : Places) (framebuffer : Bool) (s : State) : State :=
  let s := ((s.gdtInit p).idtInit p).irqInit p
  if framebuffer then s.mouseInit p else s

/-- The gates before `tss_init`: all but the one for system calls. -/
theorem gatesSet_spec (p : Places) (framebuffer : Bool) (s : State) :
    (∀ v, v < 256 → v ≠ 0x80 → entry8 (gatesSet p framebuffer s).mem p.idt v =
      idtEntry (handler p framebuffer v) kernelCs idtFlagIntrGate) ∧
    (∀ x, x < p.idt ∨ p.idt + 2048 ≤ x →
      (gatesSet p framebuffer s).mem x = (s.gdtInit p).mem x) ∧
    (gatesSet p framebuffer s).idtr = ⟨2047, p.idt⟩ := by
  obtain ⟨hloop, hout, -⟩ := idtLoop_spec p 256 0 (s.gdtInit p) (by omega)
  have hbefore : ∀ v, v < 256 → entry8 (((s.gdtInit p).idtInit p).irqInit p).mem p.idt v =
      idtEntry (if v = 32 then p.irq0Entry else if v < 32 then p.isr v else p.isrStub) kernelCs
        idtFlagIntrGate := by
    intro v hv
    rw [State.irqInit, entry_idtSetGate]
    by_cases h : v = 32
    · rw [if_pos h, if_pos h]
      rfl
    · rw [if_neg h, if_neg h]
      exact (hloop v).trans (if_pos ⟨Nat.zero_le v, by omega⟩)
  have houtside : ∀ x, x < p.idt ∨ p.idt + 2048 ≤ x →
      (((s.gdtInit p).idtInit p).irqInit p).mem x = (s.gdtInit p).mem x := fun x hx =>
    (idtSetGate_outside _ (by decide) _ _ _ hx).trans (hout x hx)
  cases framebuffer with
  | false =>
      refine ⟨fun v hv hne => ?_, houtside, rfl⟩
      refine (hbefore v hv).trans (congrArg (idtEntry · kernelCs idtFlagIntrGate) ?_)
      simp only [handler, Bool.false_eq_true, and_false, if_false, if_neg hne]
      split_ifs <;> first | rfl | omega
  | true =>
      refine ⟨fun v hv hne => ?_,
        fun x hx => (idtSetGate_outside _ (by decide) _ _ _ hx).trans (houtside x hx), rfl⟩
      show entry8 (State.mouseInit p (((s.gdtInit p).idtInit p).irqInit p)).mem p.idt v = _
      rw [State.mouseInit, entry_idtSetGate]
      by_cases h : v = 44
      · rw [if_pos h, h]
        rfl
      · rw [if_neg h]
        refine (hbefore v hv).trans (congrArg (idtEntry · kernelCs idtFlagIntrGate) ?_)
        simp only [handler, h, false_and, if_false, if_neg hne]
        split_ifs <;> first | rfl | omega

/-- `kmain` installs the tables. -/
theorem boot_installed (p : Places) (framebuffer : Bool) (s : State) :
    Installed p framebuffer (s.boot p framebuffer) 0 := by
  obtain ⟨hgates, hout, hidtr⟩ := gatesSet_spec p framebuffer s
  obtain ⟨hframe, htss, hesp0, hss0, hiomap⟩ := tssInit_spec (p := p) (gatesSet p framebuffer s)
  have hgi := p.gdt_idt
  have hgt := p.gdt_tss
  have hit := p.idt_tss
  have hboot : s.boot p framebuffer = ((gatesSet p framebuffer s).tssInit p).idtSetGate p 0x80
      p.syscallHandler kernelCs 0xEE := rfl
  have hlast : ∀ x, x < p.idt ∨ p.idt + 2048 ≤ x →
      (s.boot p framebuffer).mem x = ((gatesSet p framebuffer s).tssInit p).mem x := fun x hx => by
    rw [hboot]
    exact idtSetGate_outside _ (by decide) _ _ _ hx
  refine ⟨rfl, hidtr, rfl, fun i hi => ?_, fun v hv => ?_, ?_, ?_, ?_⟩
  · rw [entry8_congr fun x h1 h2 => hlast x (by omega)]
    by_cases h5 : i = 5
    · rw [h5]
      exact htss
    · rw [entry8_congr fun x h1 h2 => (hframe x (by omega) (by omega)).trans (hout x (by omega)),
        gdtInit_entry s hi, if_neg h5]
  · rw [hboot, entry_idtSetGate, gateAttr]
    by_cases h : v = 0x80
    · rw [if_pos h, if_pos h, h]
      rfl
    · rw [if_neg h, if_neg h, entry8_congr fun x h1 h2 => hframe x (by omega) (by omega)]
      exact hgates v hv h
  · rw [load32_congr fun x h1 h2 => hlast x (by simp only [esp0Off] at *; omega)]
    exact hesp0
  · rw [load32_congr fun x h1 h2 => hlast x (by simp only [ss0Off] at *; omega)]
    exact hss0
  · rw [bytesAt_congr fun x h1 h2 => hlast x (by simp only [iomapBaseOff] at *; omega)]
    exact hiomap

/-! ## What the processor finds -/

/-- A segment of the GDT. -/
theorem Installed.segmentOf (h : Installed p framebuffer s esp0) {selector : Nat}
    (hindex : 1 ≤ selector / 8 ∧ selector / 8 < 6) (hglobal : selector / 4 % 2 = 0) :
    segmentOf s selector = if (Segment.decode (gdtContents p (selector / 8))).Present then
      some (.decode (gdtContents p (selector / 8))) else none := by
  have hlong : 8 * (selector / 8) + 7 ≤ 47 := by omega
  unfold Descriptors.segmentOf lookup
  rw [if_neg (by omega), h.gdtr, if_pos hlong, h.gdt _ hindex.2]

/-- The flat segments: their base is 0, and they cover the address space. -/
structure Flat (s : State) (selector access : Nat) : Prop where
  found : segmentOf s selector = some ⟨0, 0xFFFFF, access, 0xC⟩
  size : (⟨0, 0xFFFFF, access, 0xC⟩ : Segment).size = 2 ^ 32

theorem flat_decode {access : Nat} (haccess : access < 2 ^ 8) :
    Segment.decode (gdtEntry 0 0xFFFFF access gdtFlatGran) = ⟨0, 0xFFFFF, access, 0xC⟩ :=
  decode_gdtEntry (by decide) haccess (by decide)

theorem Installed.flat_of (h : Installed p framebuffer s esp0) {selector access : Nat}
    (hindex : 1 ≤ selector / 8 ∧ selector / 8 < 6) (hglobal : selector / 4 % 2 = 0)
    (hentry : gdtContents p (selector / 8) = gdtEntry 0 0xFFFFF access gdtFlatGran)
    (haccess : access < 2 ^ 8) (hpresent : access / 2 ^ 7 % 2 = 1) : Flat s selector access := by
  refine ⟨?_, (if_pos (show 0xC / 2 ^ 3 % 2 = 1 by decide)).trans ?_⟩
  · rw [h.segmentOf hindex hglobal, hentry, flat_decode haccess]
    exact if_pos hpresent
  · show (0xFFFFF + 1) * 4096 = 2 ^ 32
    decide

/-- The four segments of code and data. -/
theorem Installed.flat (h : Installed p framebuffer s esp0) :
    Flat s kernelCs gdtAccessKcode ∧ Flat s kernelDs gdtAccessKdata ∧ Flat s 0x1B gdtAccessUcode ∧
      Flat s 0x23 gdtAccessUdata :=
  ⟨h.flat_of (by decide) (by decide) rfl (by decide) (by decide),
    h.flat_of (by decide) (by decide) rfl (by decide) (by decide),
    h.flat_of (by decide) (by decide) rfl (by decide) (by decide),
    h.flat_of (by decide) (by decide) rfl (by decide) (by decide)⟩

/-- The task register selects the TSS. -/
theorem Installed.task (h : Installed p framebuffer s esp0) :
    Descriptors.segmentOf s s.tr = some ⟨p.tss, 103, 0x89, 0⟩ := by
  have hend := p.tss_end
  have hentry : Segment.decode (gdtContents p (0x28 / 8)) = ⟨p.tss, 103, 0x89, 0⟩ := by
    show Segment.decode (gdtTssEntry p.tss (tssSize - 1)) = _
    rw [gdtTssEntry_eq (by decide), decode_gdtEntry (by omega) (by decide) (by decide)]
    exact congrArg (Segment.mk p.tss · 0x89 _) (by decide)
  rw [h.tr, h.segmentOf (by decide) (by decide), hentry]
  exact if_pos (show 0x89 / 2 ^ 7 % 2 = 1 by decide)

/-- It is a task state segment of 104 bytes. -/
theorem task_kind (base : Nat) : (⟨base, 103, 0x89, 0⟩ : Segment).OfTask ∧
    (⟨base, 103, 0x89, 0⟩ : Segment).size = 104 :=
  ⟨⟨show ¬ 0x89 / 2 ^ 4 % 2 = 1 by decide, .inl (show 0x89 % 2 ^ 4 = 9 by decide)⟩,
    if_neg (show ¬ 0 / 2 ^ 3 % 2 = 1 by decide)⟩

/-- The stack for ring 0. -/
theorem Installed.taskStack (h : Installed p framebuffer s esp0) :
    taskStack s 0 = some (kernelDs, esp0) := by
  have hss : s.mem.load32 (p.tss + 8 * 0 + 8) % 2 ^ 16 = kernelDs :=
    (congrArg (· % 2 ^ 16) h.ss0).trans (by decide)
  have hesp : s.mem.load32 (p.tss + 8 * 0 + 4) = esp0 := h.esp0
  obtain ⟨hkind, hsize⟩ := task_kind p.tss
  have hsmall : ¬ (¬ (⟨p.tss, 103, 0x89, 0⟩ : Segment).OfTask ∨
      (⟨p.tss, 103, 0x89, 0⟩ : Segment).size < 8 * 0 + 12) := by
    rw [hsize]
    exact fun hor => hor.elim (fun hno => hno hkind) (by decide)
  unfold Descriptors.taskStack
  rw [h.task]
  simp only
  rw [if_neg hsmall, hss, hesp, h.flat.2.1.found]
  exact if_pos (by decide)

/-- The kinds of the gates. -/
theorem gate_kind (v offset selector : Nat) :
    (⟨offset, selector, gateAttr v⟩ : Gate).Present ∧
      (⟨offset, selector, gateAttr v⟩ : Gate).OfInterrupt ∧
      (⟨offset, selector, gateAttr v⟩ : Gate).dpl = if v = 0x80 then 3 else 0 := by
  simp only [Gate.Present, Gate.OfInterrupt, Gate.dpl, gateAttr]
  split
  · exact ⟨by decide, by decide, by decide⟩
  · exact ⟨by decide, by decide, by decide⟩

/-- Where a vector leads. -/
theorem Installed.enter (h : Installed p framebuffer s esp0) (hv : v < 256) {cpl : Nat}
    (hcpl : cpl ≤ 3) (software : Bool) :
    enter s cpl v software =
      if software = true ∧ v ≠ 0x80 ∧ cpl ≠ 0 then none
      else some ⟨kernelCs, handler p framebuffer v,
        if cpl = 0 then none else some (kernelDs, esp0)⟩ := by
  have hlong : 8 * v + 7 ≤ 2047 := by omega
  have hattr : gateAttr v < 2 ^ 8 := by
    unfold gateAttr
    split <;> decide
  obtain ⟨hpresent, hinterrupt, hdpl⟩ := gate_kind v (handler p framebuffer v) kernelCs
  have hcode : (⟨0, 0xFFFFF, gdtAccessKcode, 0xC⟩ : Segment).Code := by decide
  have hlevel : (⟨0, 0xFFFFF, gdtAccessKcode, 0xC⟩ : Segment).dpl = 0 := by decide
  have hgate : (software = true ∧ (if v = 0x80 then 3 else 0) < cpl) ↔
      (software = true ∧ v ≠ 0x80 ∧ cpl ≠ 0) := by
    by_cases h80 : v = 0x80
    · rw [if_pos h80]
      exact iff_of_false (by omega) (fun hno => hno.2.1 h80)
    · rw [if_neg h80]
      exact and_congr_right fun _ => by omega
  unfold Descriptors.enter lookup
  rw [h.idtr, if_pos hlong, h.idt v hv]
  simp only
  rw [decode_idtEntry (handler_lt p framebuffer v) (by decide) hattr, if_neg (by
    rw [not_or, not_not, not_not]; exact ⟨hpresent, hinterrupt⟩), hdpl]
  simp only [hgate]
  refine if_congr Iff.rfl rfl ?_
  rw [h.flat.1.found]
  simp only
  rw [if_neg (by rw [hlevel]; exact fun hno => hno.elim (fun h' => h' hcode) (by omega)), hlevel,
    h.taskStack]
  by_cases h0 : cpl = 0
  · rw [if_pos h0.symm, if_pos h0]
  · rw [if_neg (Ne.symm h0), if_neg h0]

/-- No port may be used in ring 3. -/
theorem Installed.ports (h : Installed p framebuffer s esp0) (port : Nat) :
    ¬ portAllowed s port := by
  rintro ⟨tss, hfound, -, hin⟩
  rw [h.task] at hfound
  obtain rfl := Option.some.inj hfound
  have hmap := h.iomap
  simp only at hin
  rw [hmap, (task_kind p.tss).2, tssSize] at hin
  omega

/-- The levels that the processor model goes by. -/
theorem Installed.dplOf (h : Installed p framebuffer s esp0) {selector : Nat} {seg : Segment}
    (hfound : Descriptors.segmentOf s selector = some seg) (hmem : seg.OfMemory) :
    seg.dpl = dplOf selector := by
  have hglobal : ¬ (selector / 8 = 0 ∨ selector / 4 % 2 = 1) := by
    intro hno
    rw [Descriptors.segmentOf, if_pos hno] at hfound
    cases hfound
  have hshort : selector / 8 < 6 := by
    by_contra hlong
    have hpast : ¬ 8 * (selector / 8) + 7 ≤ 47 := by omega
    rw [Descriptors.segmentOf, if_neg hglobal, h.gdtr, lookup, if_neg hpast] at hfound
    cases hfound
  rw [h.segmentOf ⟨by omega, hshort⟩ (by omega)] at hfound
  obtain ⟨-, hseg⟩ := Option.ite_none_right_eq_some.mp hfound
  obtain rfl := Option.some.inj hseg
  have hpos : 1 ≤ selector / 8 := by omega
  unfold Kumo.dplOf
  generalize selector / 8 = i at *
  interval_cases i
  · exact (congrArg Segment.dpl (flat_decode (by decide))).trans (by decide)
  · exact (congrArg Segment.dpl (flat_decode (by decide))).trans (by decide)
  · exact (congrArg Segment.dpl (flat_decode (by decide))).trans (by decide)
  · exact (congrArg Segment.dpl (flat_decode (by decide))).trans (by decide)
  · -- the TSS is not a segment of memory
    have htask := h.task
    rw [h.tr, h.segmentOf (by decide) (by decide)] at htask
    obtain ⟨-, htss⟩ := Option.ite_none_right_eq_some.mp htask
    have htss : Segment.decode (gdtContents p 5) = ⟨p.tss, 103, 0x89, 0⟩ := Option.some.inj htss
    rw [htss] at hmem
    exact absurd hmem (task_kind p.tss).1.1

/-! ## Runs -/

/-- What happens after the boot: the scheduler sets the stack for ring 0, and other code writes a
byte somewhere else. -/
inductive TableEvent where
  | setEsp0 (esp : Nat)
  | write (address : Nat) (value : BitVec 8)
  deriving DecidableEq

/-- One event. -/
def tableStep (p : Places) (s : State) : TableEvent → Option State
  | .setEsp0 esp => if esp < 2 ^ 32 then some (s.tssSetEsp0 p esp) else none
  | .write address value =>
      if InTables p address then none else some { s with mem := s.mem.store8 address value }

/-- The stack for ring 0 after some events. -/
def esp0After : Nat → List TableEvent → Nat
  | esp0, [] => esp0
  | _, .setEsp0 esp :: events => esp0After esp events
  | esp0, .write _ _ :: events => esp0After esp0 events

/-- The tables stay as they were installed. -/
theorem Installed.run (h : Installed p framebuffer s esp0) {events : List TableEvent}
    (hrun : Transition.run (tableStep p) s events = some s') :
    Installed p framebuffer s' (esp0After esp0 events) := by
  induction events generalizing s esp0 with
  | nil =>
      obtain rfl := Option.some.inj hrun
      exact h
  | cons event events ih =>
      obtain ⟨s1, hstep, hrest⟩ := Option.bind_eq_some_iff.mp hrun
      cases event with
      | setEsp0 esp =>
          obtain ⟨hesp, hs1⟩ := Option.ite_none_right_eq_some.mp hstep
          obtain rfl := Option.some.inj hs1
          exact ih (h.tssSetEsp0 hesp) hrest
      | write address value =>
          obtain ⟨hout, hs1⟩ := Option.ite_none_left_eq_some.mp hstep
          obtain rfl := Option.some.inj hs1
          refine ih (h.congr fun x hx => store8_other ?_) hrest
          rintro rfl
          exact hout hx

/-- What the tables are for. -/
structure TablesSound (p : Places) (framebuffer : Bool) (s : State) (esp0 : Nat) : Prop where
  /-- A program can raise one interrupt only; any interrupt ends up on the stack for ring 0. -/
  fromRing3 : ∀ v, v < 256 → ∀ software, enter s 3 v software =
    if software = true ∧ v ≠ 0x80 then none
    else some ⟨kernelCs, handler p framebuffer v, some (kernelDs, esp0)⟩
  /-- The kernel stays on its stack. -/
  fromRing0 : ∀ v, v < 256 → ∀ software, enter s 0 v software =
    some ⟨kernelCs, handler p framebuffer v, none⟩
  /-- The processor model enters the kernel as the tables say. -/
  agrees : ∀ (c : Cpu) v software e, v < 256 → c.cs % 4 = 0 ∨ c.cs % 4 = 3 →
    enter s (c.cs % 4) v software = some e → (c.interrupt esp0).cs = e.cs ∧
      ((c.interrupt esp0).ss, (c.interrupt esp0).esp) =
        (e.stack.map fun top => (top.1, top.2 - 20)).getD (c.ss, c.esp - 12)
  /-- Its segments have the levels of their descriptors. -/
  levels : ∀ selector seg, segmentOf s selector = some seg → seg.OfMemory →
    seg.dpl = dplOf selector
  /-- The four segments are flat. -/
  flat : ∀ selector ∈ [kernelCs, kernelDs, 0x1B, 0x23], ∃ seg,
    segmentOf s selector = some seg ∧ seg.base = 0 ∧ seg.size = 2 ^ 32
  /-- A program can use no port. -/
  ports : ∀ port, ¬ portAllowed s port

theorem Installed.sound (h : Installed p framebuffer s esp0) :
    TablesSound p framebuffer s esp0 := by
  refine ⟨fun v hv software => ?_, fun v hv software => ?_, ?_, fun _ _ => h.dplOf, ?_, h.ports⟩
  · rw [h.enter hv (by decide)]
    simp only [ne_eq, OfNat.ofNat_ne_zero, not_false_eq_true, and_true, if_false]
  · rw [h.enter hv (by decide)]
    simp only [ne_eq, not_true_eq_false, and_false, if_false, if_true]
  · intro c v software e hv hlevel henter
    rw [h.enter hv (by omega)] at henter
    obtain ⟨-, he⟩ := Option.ite_none_left_eq_some.mp henter
    obtain rfl := Option.some.inj he
    rcases hlevel with h0 | h3
    · have hring : ¬ c.InRing3 := by
        unfold Cpu.InRing3
        omega
      simp only [Cpu.interrupt, if_neg hring, h0, if_true]
      exact ⟨trivial, rfl⟩
    · have hring : c.InRing3 := h3
      simp only [Cpu.interrupt, if_pos hring, h3]
      exact ⟨trivial, rfl⟩
  · obtain ⟨h1, h2, h3, h4⟩ := h.flat
    intro selector hmem
    simp only [List.mem_cons, List.not_mem_nil, or_false] at hmem
    rcases hmem with rfl | rfl | rfl | rfl
    · exact ⟨_, h1.found, rfl, h1.size⟩
    · exact ⟨_, h2.found, rfl, h2.size⟩
    · exact ⟨_, h3.found, rfl, h3.size⟩
    · exact ⟨_, h4.found, rfl, h4.size⟩

/-- After the boot, whatever the scheduler puts in the TSS and other code writes elsewhere: a program
reaches the kernel through the gate for system calls only, every interrupt leads to its handler on
the stack that the scheduler chose last, and a program can use no port. -/
theorem interrupt_entries (p : Places) (framebuffer : Bool) (s : State) (events : List TableEvent)
    (s' : State) (hrun : run (tableStep p) (s.boot p framebuffer) events = some s') :
    TablesSound p framebuffer s' (esp0After 0 events) :=
  ((boot_installed p framebuffer s).run hrun).sound

/-- Places for the tables and the code. -/
def samplePlaces : Places where
  gdt := 0x104000
  idt := 0x104040
  tss := 0x104860
  isr := fun i => 0x100000 + 16 * (i % 32)
  isrStub := 0x100300
  irq0Entry := 0x100310
  irq12Entry := 0x100320
  syscallHandler := 0x100330
  gdt_idt := by decide
  gdt_tss := by decide
  idt_tss := by decide
  tss_end := by decide
  isr_lt := fun i => by omega
  isrStub_lt := by decide
  irq0Entry_lt := by decide
  irq12Entry_lt := by decide
  syscallHandler_lt := by decide

/-- The scheduler sets a stack, and the stack is written to. -/
theorem interrupt_entries_sample :
    ∃ s', run (tableStep samplePlaces)
        (State.boot samplePlaces true ⟨fun _ => 0, ⟨0, 0⟩, ⟨0, 0⟩, 0⟩)
        [.setEsp0 0x203000, .write 0x202FFC 0x23] = some s' ∧
      TablesSound samplePlaces true s' 0x203000 :=
  ⟨_, rfl, interrupt_entries samplePlaces true _ [.setEsp0 0x203000, .write 0x202FFC 0x23] _ rfl⟩

end Descriptors

end Kumo
