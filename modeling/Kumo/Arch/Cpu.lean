import Kumo.Lib.Memory

/-!
# The processor

The registers of the processor with memory, the stack instructions, and what the processor
itself does on an interrupt and on `iret`. An interrupt from ring 3 goes to the stack whose
top is in the TSS, and saves there what `iret` restores. `iret` to ring 3 clears the data
segment registers whose descriptor ring 3 may not use.
-/

namespace Kumo

open Memory

/-- The registers of a program. -/
structure Context where
  eax : Nat
  ebx : Nat
  ecx : Nat
  edx : Nat
  esi : Nat
  edi : Nat
  ebp : Nat
  esp : Nat
  eip : Nat
  eflags : Nat
  cs : Nat
  ss : Nat
  deriving DecidableEq

/-- The data segment registers. -/
structure DataSegments where
  ds : Nat
  es : Nat
  fs : Nat
  gs : Nat
  deriving DecidableEq

/-- The processor and memory. -/
structure Cpu extends Context where
  segments : DataSegments
  cr3 : Nat
  mem : Memory

/-- `KERNEL_CS`. -/
def kernelCs : Nat := 0x08

/-- `KERNEL_DS`. -/
def kernelDs : Nat := 0x10

/-- The interrupt flag. -/
def interruptFlag : Nat := 0x200

/-- The flags with interrupts masked. -/
def maskInterrupts (eflags : Nat) : Nat :=
  if eflags.testBit 9 then eflags - interruptFlag else eflags

theorem maskInterrupts_le (eflags : Nat) : maskInterrupts eflags ≤ eflags := by
  unfold maskInterrupts
  split
  · exact Nat.sub_le ..
  · exact Nat.le_refl _

/-- A register after a `mov` to its low 16 bits. -/
def setLow16 (register value : Nat) : Nat := register / 2 ^ 16 * 2 ^ 16 + value

/-- All four registers hold one selector. -/
def DataSegments.all (selector : Nat) : DataSegments := ⟨selector, selector, selector, selector⟩

/-- The `DPL` of the descriptor of a selector: the entries 3 and 4 of the GDT are those of ring 3. -/
def dplOf (selector : Nat) : Nat := if selector / 8 = 3 ∨ selector / 8 = 4 then 3 else 0

/-- A selector after `iret` to ring 3. -/
def clearSelector (selector : Nat) : Nat := if dplOf selector = 0 then 0 else selector

/-- The data segment registers after `iret` to ring 3. -/
def DataSegments.cleared (s : DataSegments) : DataSegments :=
  ⟨clearSelector s.ds, clearSelector s.es, clearSelector s.fs, clearSelector s.gs⟩

/-- The values are those of 32-bit registers. -/
structure Context.Words (c : Context) : Prop where
  eax : c.eax < 2 ^ 32
  ebx : c.ebx < 2 ^ 32
  ecx : c.ecx < 2 ^ 32
  edx : c.edx < 2 ^ 32
  esi : c.esi < 2 ^ 32
  edi : c.edi < 2 ^ 32
  ebp : c.ebp < 2 ^ 32
  esp : c.esp < 2 ^ 32
  eip : c.eip < 2 ^ 32
  eflags : c.eflags < 2 ^ 32
  cs : c.cs < 2 ^ 32
  ss : c.ss < 2 ^ 32

namespace Cpu

/-- The code runs in ring 3. -/
def InRing3 (c : Cpu) : Prop := c.cs % 4 = 3

instance (c : Cpu) : Decidable c.InRing3 := inferInstanceAs (Decidable (_ = _))

/-! ## Stack instructions -/

/-- `push`. -/
def push (c : Cpu) (value : Nat) : Cpu :=
  { c with esp := c.esp - 4, mem := c.mem.store32 (c.esp - 4) value }

/-- The word at `esp` plus an offset. -/
def stack (c : Cpu) (off : Nat) : Nat := c.mem.load32 (c.esp + off)

/-- `add esp, n`. -/
def drop (c : Cpu) (n : Nat) : Cpu := { c with esp := c.esp + n }

/-- Some pushes, one after the other. -/
def pushAll (c : Cpu) (values : List Nat) : Cpu := values.foldl push c

/-- `pusha`. -/
def pusha (c : Cpu) : Cpu := c.pushAll [c.eax, c.ecx, c.edx, c.ebx, c.esp, c.ebp, c.esi, c.edi]

/-- `popa`: `esp` itself is not taken from the stack. -/
def popa (c : Cpu) : Cpu :=
  { c with
    edi := c.stack 0x00
    esi := c.stack 0x04
    ebp := c.stack 0x08
    ebx := c.stack 0x10
    edx := c.stack 0x14
    ecx := c.stack 0x18
    eax := c.stack 0x1C
    esp := c.esp + 0x20 }

/-- `call`: the return address is pushed. -/
def call (c : Cpu) (returnAddress : Nat) : Cpu := c.push returnAddress

/-- `ret`. -/
def ret (c : Cpu) : Cpu := { c.drop 4 with eip := c.stack 0 }

/-- The moves of a 16-bit register with this value to the four data segment registers. -/
def loadSegments (c : Cpu) (selector : Nat) : Cpu := { c with segments := .all selector }

/-! ## Interrupts -/

/-- The processor accepts an interrupt: it pushes the registers that `iret` restores, on the stack
of the TSS if it comes from ring 3, and masks interrupts. -/
def interrupt (c : Cpu) (esp0 : Nat) : Cpu :=
  let k : Cpu :=
    if c.InRing3 then (({ c with esp := esp0, ss := kernelDs } : Cpu).push c.ss).push c.esp else c
  let k := ((k.push c.eflags).push c.cs).push c.eip
  { k with
    cs := kernelCs
    eflags := maskInterrupts c.eflags }

/-- `iret`, with the stack pointer of the kernel after it. -/
def iret (c : Cpu) : Nat × Cpu :=
  let k : Cpu := { c with eip := c.stack 0x00, cs := c.stack 0x04, eflags := c.stack 0x08 }
  if k.InRing3 then
    (c.esp + 0x14, { k with esp := c.stack 0x0C, ss := c.stack 0x10, segments := c.segments.cleared })
  else (c.esp + 0x0C, k.drop 0x0C)

end Cpu

/-! ## Words on a stack -/

/-- These words lie at `a`, from low to high addresses. -/
def WordsAt (m : Memory) : Nat → List Nat → Prop
  | _, [] => True
  | a, w :: ws => m.load32 a = w ∧ WordsAt m (a + 4) ws

instance WordsAt.decidable (m : Memory) : (a : Nat) → (ws : List Nat) → Decidable (WordsAt m a ws)
  | _, [] => isTrue trivial
  | a, w :: ws =>
      have := WordsAt.decidable m (a + 4) ws
      inferInstanceAs (Decidable (m.load32 a = w ∧ WordsAt m (a + 4) ws))

namespace WordsAt

variable {m m' : Memory} {a w i : Nat} {ws vs : List Nat}

/-- Only the bytes of the words count. -/
theorem congr (h : WordsAt m a ws) (hm : ∀ x, a ≤ x → x < a + 4 * ws.length → m' x = m x) :
    WordsAt m' a ws := by
  induction ws generalizing a with
  | nil => trivial
  | cons w ws ih =>
      rw [List.length_cons] at hm
      obtain ⟨hw, hrest⟩ := h
      exact ⟨(load32_congr fun x _ _ => hm x (by omega) (by omega)).trans hw,
        ih hrest fun x _ _ => hm x (by omega) (by omega)⟩

/-- One word of them. -/
theorem get (h : WordsAt m a ws) (hi : i < ws.length) : m.load32 (a + 4 * i) = ws[i] := by
  induction ws generalizing a i with
  | nil => exact absurd hi (Nat.not_lt_zero i)
  | cons w ws ih =>
      obtain ⟨hw, hrest⟩ := h
      cases i with
      | zero => exact hw
      | succ i =>
          have hlast := ih hrest (i := i) (by simpa using hi)
          rw [show a + 4 * (i + 1) = a + 4 + 4 * i by omega, hlast]
          rfl

/-- A word is stored below them. -/
theorem store (h : WordsAt m (a + 4) ws) (hw : w < 2 ^ 32) :
    WordsAt (m.store32 a w) a (w :: ws) :=
  ⟨by rw [load32_store32, Nat.mod_eq_of_lt hw],
    h.congr fun _ _ _ => store32_outside (by omega)⟩

/-- What lies on top of the stack, and what lies above it. -/
theorem append_iff : WordsAt m a (ws ++ vs) ↔ WordsAt m a ws ∧ WordsAt m (a + 4 * ws.length) vs := by
  induction ws generalizing a with
  | nil => simp [WordsAt]
  | cons w ws ih =>
      rw [List.cons_append, WordsAt, WordsAt, ih, List.length_cons, and_assoc,
        show a + 4 * (ws.length + 1) = a + 4 + 4 * ws.length by omega]

end WordsAt

/-! ## What lies on a stack -/

/-- `push` changes the stack pointer. -/
theorem Cpu.push_toContext (c : Cpu) (w : Nat) :
    (c.push w).toContext = { c.toContext with esp := c.esp - 4 } := rfl

@[simp] theorem Cpu.push_esp (c : Cpu) (w : Nat) : (c.push w).esp = c.esp - 4 := rfl

@[simp] theorem Cpu.push_mem (c : Cpu) (w : Nat) :
    (c.push w).mem = c.mem.store32 (c.esp - 4) w := rfl

@[simp] theorem Cpu.push_segments (c : Cpu) (w : Nat) : (c.push w).segments = c.segments := rfl

@[simp] theorem Cpu.pushAll_segments (c : Cpu) (vs : List Nat) :
    (c.pushAll vs).segments = c.segments := by
  induction vs generalizing c with
  | nil => rfl
  | cons v vs ih => exact ih (c.push v)

/-- So do some pushes. -/
theorem Cpu.pushAll_toContext (c : Cpu) (vs : List Nat) :
    (c.pushAll vs).toContext = { c.toContext with esp := c.esp - 4 * vs.length } := by
  induction vs generalizing c with
  | nil => rfl
  | cons v vs ih =>
      have hrest := ih (c.push v)
      rw [push_toContext, Nat.sub_sub, Nat.add_comm, ← Nat.mul_succ] at hrest
      exact hrest

theorem Cpu.pusha_toContext (c : Cpu) :
    c.pusha.toContext = { c.toContext with esp := c.esp - 32 } := c.pushAll_toContext _

@[simp] theorem Cpu.pusha_esp (c : Cpu) : c.pusha.esp = c.esp - 32 := by
  rw [pusha_toContext]

@[simp] theorem Cpu.pusha_segments (c : Cpu) : c.pusha.segments = c.segments :=
  c.pushAll_segments _

/-- The words stay words when the stack pointer is moved down. -/
theorem Context.Words.push {r : Context} (h : r.Words) (n : Nat) :
    ({ r with esp := r.esp - n } : Context).Words :=
  { h with esp := Nat.lt_of_le_of_lt (Nat.sub_le ..) h.esp }

/-- `c` is `b` with these words pushed: the last one lies on top. -/
structure Pushed (b c : Cpu) (ws : List Nat) : Prop where
  esp : c.esp + 4 * ws.length = b.esp
  words : WordsAt c.mem c.esp ws
  outside : ∀ x, x < c.esp ∨ b.esp ≤ x → c.mem x = b.mem x

namespace Pushed

variable {b c : Cpu} {ws : List Nat} {w : Nat}

theorem nil (c : Cpu) : Pushed c c [] := ⟨rfl, trivial, fun _ _ => rfl⟩

theorem push (h : Pushed b c ws) (hroom : 4 ≤ c.esp) (hw : w < 2 ^ 32) :
    Pushed b (c.push w) (w :: ws) := by
  have hesp := h.esp
  refine ⟨?_, ?_, fun x hx => ?_⟩
  · rw [Cpu.push_esp, List.length_cons]
    omega
  · rw [Cpu.push_esp, Cpu.push_mem]
    refine WordsAt.store ?_ hw
    rw [Nat.sub_add_cancel hroom]
    exact h.words
  · rw [Cpu.push_esp] at hx
    rw [Cpu.push_mem, store32_outside (by omega)]
    exact h.outside x (by omega)

/-- The other registers may change. -/
theorem of_same {c' : Cpu} (h : Pushed b c ws) (hesp : c'.esp = c.esp) (hmem : c'.mem = c.mem) :
    Pushed b c' ws := by
  obtain ⟨h1, h2, h3⟩ := h
  rw [← hesp] at h1 h2 h3
  rw [← hmem] at h2 h3
  exact ⟨h1, h2, h3⟩

/-- A word of the stack. -/
theorem stack (h : Pushed b c ws) {i : Nat} (hi : i < ws.length) : c.stack (4 * i) = ws[i] :=
  h.words.get hi

/-- Some pushes. -/
theorem pushAll {vs : List Nat} (h : Pushed b c ws) (hroom : 4 * vs.length ≤ c.esp)
    (hvs : ∀ v ∈ vs, v < 2 ^ 32) : Pushed b (c.pushAll vs) (vs.reverse ++ ws) := by
  induction vs generalizing c ws with
  | nil => exact h
  | cons v vs ih =>
      rw [List.length_cons] at hroom
      have hfirst := h.push (by omega) (hvs v (List.mem_cons_self ..))
      rw [List.reverse_cons, List.append_assoc]
      exact ih hfirst (by rw [Cpu.push_esp]; omega) fun u hu => hvs u (List.mem_cons_of_mem v hu)

/-- `pusha`. -/
theorem pusha (h : Pushed b c ws) (hroom : 32 ≤ c.esp) (hc : c.toContext.Words) :
    Pushed b c.pusha ([c.edi, c.esi, c.ebp, c.esp, c.ebx, c.edx, c.ecx, c.eax] ++ ws) := by
  refine h.pushAll hroom (?_ : ∀ v ∈ [c.eax, c.ecx, c.edx, c.ebx, c.esp, c.ebp, c.esi, c.edi], _)
  simp only [List.forall_mem_cons]
  exact ⟨hc.eax, hc.ecx, hc.edx, hc.ebx, hc.esp, hc.ebp, hc.esi, hc.edi, by simp⟩

end Pushed

namespace Cpu

variable {c : Cpu} {ws : List Nat} {esp0 : Nat}

/-- `popa` takes back what `pusha` has pushed. -/
theorem popa_eq {edi esi ebp x ebx edx ecx eax : Nat}
    (h : WordsAt c.mem c.esp ([edi, esi, ebp, x, ebx, edx, ecx, eax] ++ ws)) :
    c.popa = { c with edi := edi, esi := esi, ebp := ebp, ebx := ebx, edx := edx, ecx := ecx,
                      eax := eax, esp := c.esp + 32 } := by
  obtain ⟨h0, h1, h2, -, h4, h5, h6, h7, -⟩ := h
  simp only [popa, stack, Nat.add_zero]
  rw [h0, h1, h2, h4, h5, h6, h7]

/-! ## Interrupts -/

/-- An interrupt from ring 3: what `iret` needs lies at the top of the stack of the TSS. -/
theorem interrupt_ring3 (h : c.InRing3) (hc : c.toContext.Words) (hroom : 20 ≤ esp0) :
    Pushed { c with esp := esp0 } (c.interrupt esp0) [c.eip, c.cs, c.eflags, c.esp, c.ss] ∧
      (c.interrupt esp0).toContext = { c.toContext with
        esp := esp0 - 20, cs := kernelCs, ss := kernelDs, eflags := maskInterrupts c.eflags } ∧
      (c.interrupt esp0).segments = c.segments := by
  have h0 : Pushed { c with esp := esp0 } { c with esp := esp0, ss := kernelDs } [] :=
    (Pushed.nil _).of_same rfl rfl
  have h1 := h0.push (w := c.ss) (by show 4 ≤ esp0; omega) hc.ss
  have h2 := h1.push (w := c.esp) (by simp only [push_esp]; omega) hc.esp
  have h3 := h2.push (w := c.eflags) (by simp only [push_esp]; omega) hc.eflags
  have h4 := h3.push (w := c.cs) (by simp only [push_esp]; omega) hc.cs
  have h5 := h4.push (w := c.eip) (by simp only [push_esp]; omega) hc.eip
  have hk : c.interrupt esp0 = { ((((({ c with esp := esp0, ss := kernelDs } : Cpu).push
      c.ss).push c.esp).push c.eflags).push c.cs).push c.eip with
    cs := kernelCs, eflags := maskInterrupts c.eflags } := by
    rw [interrupt, if_pos h]
  rw [hk]
  refine ⟨h5.of_same rfl rfl, ?_, rfl⟩
  simp only [push_toContext, Nat.sub_sub]

/-- An interrupt from ring 0. -/
theorem interrupt_ring0 (h : ¬ c.InRing3) (hc : c.toContext.Words) (hroom : 12 ≤ c.esp)
    (esp0 : Nat) :
    Pushed c (c.interrupt esp0) [c.eip, c.cs, c.eflags] ∧
      (c.interrupt esp0).toContext = { c.toContext with
        esp := c.esp - 12, cs := kernelCs, eflags := maskInterrupts c.eflags } ∧
      (c.interrupt esp0).segments = c.segments := by
  have h1 := (Pushed.nil c).push (w := c.eflags) (by omega) hc.eflags
  have h2 := h1.push (w := c.cs) (by simp only [push_esp]; omega) hc.cs
  have h3 := h2.push (w := c.eip) (by simp only [push_esp]; omega) hc.eip
  simp only [interrupt, if_neg h]
  exact ⟨h3.of_same rfl rfl, rfl, rfl⟩

/-- `iret` to ring 3. -/
theorem iret_ring3 {eip cs eflags esp ss : Nat}
    (h : WordsAt c.mem c.esp [eip, cs, eflags, esp, ss]) (hcs : cs % 4 = 3) :
    c.iret = (c.esp + 20, { c with eip := eip, cs := cs, eflags := eflags, esp := esp, ss := ss,
                                   segments := c.segments.cleared }) := by
  obtain ⟨h0, h1, h2, h3, h4, -⟩ := h
  have h1 : c.stack 0x04 = cs := h1
  have hring : ({ c with eip := c.stack 0x00, cs := c.stack 0x04, eflags := c.stack 0x08 } :
      Cpu).InRing3 := by
    rw [h1]
    exact hcs
  simp only [iret, if_pos hring]
  have h0 : c.stack 0x00 = eip := h0
  have h2 : c.stack 0x08 = eflags := h2
  have h3 : c.stack 0x0C = esp := h3
  have h4 : c.stack 0x10 = ss := h4
  rw [h0, h1, h2, h3, h4]

/-- `iret` to ring 0. -/
theorem iret_ring0 {eip cs eflags : Nat} (h : WordsAt c.mem c.esp [eip, cs, eflags])
    (hcs : cs % 4 ≠ 3) :
    c.iret = (c.esp + 12, { c with eip := eip, cs := cs, eflags := eflags, esp := c.esp + 12 }) := by
  obtain ⟨h0, h1, h2, -⟩ := h
  have h1 : c.stack 0x04 = cs := h1
  have hring : ¬ ({ c with eip := c.stack 0x00, cs := c.stack 0x04, eflags := c.stack 0x08 } :
      Cpu).InRing3 := by
    rw [h1]
    exact hcs
  simp only [iret, if_neg hring]
  have h0 : c.stack 0x00 = eip := h0
  have h2 : c.stack 0x08 = eflags := h2
  rw [h0, h1, h2]
  rfl

end Cpu

end Kumo
