import Kumo.Sched.Switching

/-!
# The stacks of a switch

What the assembly code of a switch does to the stack it runs on: what the two stubs have pushed
when they call C code, and what they take back after it; what `switch_to` leaves on the stack
of the old task, and what it takes from the stack of the new one.
-/

namespace Kumo

open Memory

/-- What an interrupt from ring 3 pushes. -/
def iretFrame (r : Context) : List Nat := [r.eip, r.cs, r.eflags, r.esp, r.ss]

/-- What an interrupt from ring 0 pushes. -/
def kernelFrame (r : Context) : List Nat := [r.eip, r.cs, r.eflags]

/-- What `pusha` pushes, where `x` is the stack pointer before it. -/
def savedRegisters (r : Context) (x : Nat) : List Nat :=
  [r.edi, r.esi, r.ebp, x, r.ebx, r.edx, r.ecx, r.eax]

/-- The stub of IRQ0 pushes these words besides. -/
def vectorWords : List Nat := [32, 0]

variable {code : CodeLabels} {b c u : Cpu} {r : Context} {ws : List Nat}

/-! ## The stubs -/

/-- The stack at the call of `irq_handler`. -/
theorem Pushed.irqEntry (h : Pushed b c ws) (code : CodeLabels) (hroom : 48 ≤ c.esp) (hc : c.toContext.Words) :
    ∃ x y, Pushed b (c.irqEntry code)
      (code.irqReturn :: y :: (savedRegisters c.toContext x ++ (vectorWords ++ ws))) := by
  have hreturn : code.irqReturn < 2 ^ 32 := code.words _ (by simp)
  have h1 := h.push (w := 0) (by omega) (by decide)
  have h2 := h1.push (w := 32) (by simp only [Cpu.push_esp]; omega) (by decide)
  have hwords : ((c.push 0).push 32).toContext.Words := (hc.push 4).push 4
  have h3 := h2.pusha (by simp only [Cpu.push_esp]; omega) hwords
  have h4 := h3.push (w := ((c.push 0).push 32).pusha.esp)
    (by simp only [Cpu.pusha_esp, Cpu.push_esp]; omega)
    (by have := hc.esp; simp only [Cpu.pusha_esp, Cpu.push_esp]; omega)
  exact ⟨_, _, h4.push (by simp only [Cpu.pusha_esp, Cpu.push_esp]; omega) hreturn⟩

/-- The stack at the call of `syscall_dispatch`: the arguments are the registers of the program. -/
theorem Pushed.syscallEntry (h : Pushed b c ws) (code : CodeLabels) (hroom : 60 ≤ c.esp) (hc : c.toContext.Words) :
    ∃ x, Pushed b (c.syscallEntry code)
      (code.syscallReturn :: c.eax :: c.ebx :: c.ecx :: c.edx :: c.esi :: c.edi ::
        (savedRegisters c.toContext x ++ ws)) := by
  have hreturn : code.syscallReturn < 2 ^ 32 := code.words _ (by simp)
  have h1 := h.pusha (by omega) hc
  refine ⟨c.esp, ?_⟩
  unfold Cpu.syscallEntry
  dsimp only
  set k : Cpu := ({ c.pusha with eax := setLow16 c.pusha.eax 0x10 } : Cpu).loadSegments 0x10 with hk
  have hkesp : k.esp = c.esp - 32 := c.pusha_esp
  have h2 : Pushed b k _ := h1.of_same rfl rfl
  -- each argument is read at its offset in the words that are pushed by then
  have e0 : k.stack 0x00 = c.edi := h2.stack (i := 0) (by simp)
  rw [e0]
  have h3 := h2.push (by omega) hc.edi
  have e1 : (k.push c.edi).stack 0x08 = c.esi := h3.stack (i := 2) (by simp)
  rw [e1]
  have h4 := h3.push (by simp only [Cpu.push_esp]; omega) hc.esi
  have e2 : ((k.push c.edi).push c.esi).stack 0x1C = c.edx := h4.stack (i := 7) (by simp)
  rw [e2]
  have h5 := h4.push (by simp only [Cpu.push_esp]; omega) hc.edx
  have e3 : (((k.push c.edi).push c.esi).push c.edx).stack 0x24 = c.ecx :=
    h5.stack (i := 9) (by simp)
  rw [e3]
  have h6 := h5.push (by simp only [Cpu.push_esp]; omega) hc.ecx
  have e4 : ((((k.push c.edi).push c.esi).push c.edx).push c.ecx).stack 0x20 = c.ebx :=
    h6.stack (i := 8) (by simp)
  rw [e4]
  have h7 := h6.push (by simp only [Cpu.push_esp]; omega) hc.ebx
  have e5 : (((((k.push c.edi).push c.esi).push c.edx).push c.ecx).push c.ebx).stack 0x30 = c.eax :=
    h7.stack (i := 12) (by simp)
  rw [e5]
  have h8 := h7.push (by simp only [Cpu.push_esp]; omega) hc.eax
  exact h8.push (by simp only [Cpu.push_esp]; omega) hreturn

/-- The stub of IRQ0 changes no register but the stack pointer. -/
theorem Cpu.irqEntry_registers (c : Cpu) (code : CodeLabels) :
    (c.irqEntry code).toContext = { c.toContext with esp := c.esp - 48 } ∧
      (c.irqEntry code).segments = c.segments := by
  unfold irqEntry call
  constructor
  · simp only [push_toContext, pusha_toContext, Nat.sub_sub]
  · simp only [push_segments, pusha_segments]

/-- The stub of a system call loads the data segment registers through `ax`. -/
theorem Cpu.syscallEntry_registers (c : Cpu) (code : CodeLabels) :
    (c.syscallEntry code).toContext =
        { c.toContext with eax := setLow16 c.eax 0x10, esp := c.esp - 60 } ∧
      (c.syscallEntry code).segments = .all 0x10 := by
  unfold syscallEntry call
  dsimp only
  constructor
  · simp only [push_toContext, loadSegments, pusha_toContext, Nat.sub_sub]
  · simp only [push_segments, loadSegments]

/-- What `irq_common_stub` takes back. -/
theorem Cpu.irqExit_eq {x : Nat}
    (h : WordsAt u.mem (u.esp + 4) (savedRegisters r x ++ (vectorWords ++ ws))) :
    u.irqExit = { u with edi := r.edi, esi := r.esi, ebp := r.ebp, ebx := r.ebx, edx := r.edx,
                         ecx := r.ecx, eax := r.eax, esp := u.esp + 44 } ∧
      WordsAt u.mem (u.esp + 44) ws := by
  have hrest := (WordsAt.append_iff.mp (WordsAt.append_iff.mp h).2).2
  refine ⟨?_, by rw [Nat.add_assoc, Nat.add_assoc] at hrest; exact hrest⟩
  have hpopa := popa_eq (c := u.drop 4) h
  show (u.drop 4).popa.drop 8 = _
  rw [hpopa]
  rfl

/-- One of the words is stored anew. -/
theorem WordsAt.set {m : Memory} {a w v : Nat} (vs : List Nat) {ws : List Nat}
    (h : WordsAt m a (vs ++ w :: ws)) (hv : v < 2 ^ 32) : WordsAt (m.store32 (a + 4 * vs.length) v) a (vs ++ v :: ws) := by
  obtain ⟨hfirst, -, hrest⟩ := WordsAt.append_iff.mp h
  refine WordsAt.append_iff.mpr ⟨hfirst.congr fun x _ _ => store32_outside (by omega), ?_, ?_⟩
  · rw [load32_store32, Nat.mod_eq_of_lt hv]
  · exact hrest.congr fun x _ _ => store32_outside (by omega)

/-- What `syscall_handler` takes back: `eax` is what `syscall_dispatch` returned. -/
theorem Cpu.syscallExit_eq {x : Nat} (h : WordsAt u.mem (u.esp + 24) (savedRegisters r x ++ ws))
    (heax : u.eax < 2 ^ 32) :
    u.syscallExit = { u with edi := r.edi, esi := r.esi, ebp := r.ebp, ebx := r.ebx, edx := r.edx,
                             ecx := r.ecx, eax := u.eax, esp := u.esp + 56, segments := .all 0x23,
                             mem := u.mem.store32 (u.esp + 52) u.eax } ∧
      WordsAt (u.mem.store32 (u.esp + 52) u.eax) (u.esp + 56) ws := by
  have hset := WordsAt.set [r.edi, r.esi, r.ebp, x, r.ebx, r.edx, r.ecx] h heax
  have hoff : u.esp + 24 + 4 * [r.edi, r.esi, r.ebp, x, r.ebx, r.edx, r.ecx].length = u.esp + 52 := by
    rw [Nat.add_assoc]
    rfl
  rw [hoff] at hset
  have hall : WordsAt (u.mem.store32 (u.esp + 52) u.eax) (u.esp + 24)
    ([r.edi, r.esi, r.ebp, x, r.ebx, r.edx, r.ecx, u.eax] ++ ws) := hset
  have hrest := (WordsAt.append_iff.mp hall).2
  rw [Nat.add_assoc] at hrest
  refine ⟨?_, hrest⟩
  have hpopa := popa_eq (c := ({ u with
    eax := setLow16 u.eax 0x23, esp := u.esp + 24, segments := .all 0x23,
    mem := u.mem.store32 (u.esp + 52) u.eax } : Cpu)) hset
  have hexit : u.syscallExit = ({ u with
      eax := setLow16 u.eax 0x23, esp := u.esp + 24, segments := .all 0x23,
      mem := u.mem.store32 (u.esp + 24 + 0x1C) u.eax } : Cpu).popa := rfl
  rw [hexit, Nat.add_assoc, hpopa]

/-! ## `switch_to` -/

/-- `switch_to`, entered in the state `c`, has left the stack of the old task. -/
structure SwitchedOut (old new : Nat) (c v : Cpu) : Prop where
  words : WordsAt v.mem (c.esp - 16) [c.ebx, c.esi, c.edi, c.ebp]
  saved : v.mem.load32 (old + espOff) = c.esp - 16
  esp : v.esp = v.mem.load32 (new + espOff)
  registers : v.toContext.Words
  cs : v.cs = c.cs
  segments : v.segments = c.segments
  outside : ∀ x, x < c.esp - 16 ∨ c.esp ≤ x → x < old + espOff ∨ old + espOff + 4 ≤ x →
    v.mem x = c.mem x

theorem Cpu.switchStacks_eq (old new : Nat) (hold : c.stack 0x14 = old)
    (hnew : (c.mem.store32 (old + espOff) c.esp).load32 (c.esp + 0x18) = new) :
    c.switchStacks = { c with
      eax := new
      mem := c.mem.store32 (old + espOff) c.esp
      esp := (c.mem.store32 (old + espOff) c.esp).load32 (new + espOff) } := by
  subst hold
  subst hnew
  rfl

theorem Cpu.switchOut_spec {old new ret : Nat} (h : WordsAt c.mem c.esp [ret, old, new])
    (hc : c.toContext.Words) (hroom : 16 ≤ c.esp)
    (hold : old + espOff + 4 ≤ c.esp - 16 ∨ c.esp + 12 ≤ old + espOff) :
    SwitchedOut old new c c.saveRegisters.switchStacks := by
  have hsaved : ∀ w ∈ [c.ebp, c.edi, c.esi, c.ebx], w < 2 ^ 32 := by
    simp only [List.forall_mem_cons]
    exact ⟨hc.ebp, hc.edi, hc.esi, hc.ebx, by simp⟩
  have hroom' : 4 * [c.ebp, c.edi, c.esi, c.ebx].length ≤ c.esp := hroom
  have hpushed := (Pushed.nil c).pushAll hroom' hsaved
  have hregs : c.saveRegisters.toContext = { c.toContext with esp := c.esp - 16 } :=
    c.pushAll_toContext [c.ebp, c.edi, c.esi, c.ebx]
  have hsegments : c.saveRegisters.segments = c.segments :=
    c.pushAll_segments [c.ebp, c.edi, c.esi, c.ebx]
  have hpushed : Pushed c c.saveRegisters [c.ebx, c.esi, c.edi, c.ebp] := hpushed
  generalize c.saveRegisters = k at hregs hsegments hpushed
  have hkesp : k.esp = c.esp - 16 := congrArg Context.esp hregs
  have hkcs : k.cs = c.cs := by rw [hregs]
  have hkwords : k.toContext.Words := hregs ▸ hc.push 16
  have hnew : new < 2 ^ 32 := by
    obtain ⟨-, -, h2, -⟩ := h
    exact h2 ▸ load32_lt ..
  have harg : ∀ i (hi : i < [ret, old, new].length),
      k.mem.load32 (c.esp + 4 * i) = [ret, old, new][i] := by
    intro i hi
    rw [← h.get hi]
    exact load32_congr fun x hx _ => hpushed.outside x (.inr (by omega))
  have hstored : ∀ i (hi : i < [ret, old, new].length),
      (k.mem.store32 (old + espOff) k.esp).load32 (c.esp + 4 * i) = [ret, old, new][i] := by
    intro i hi
    rw [List.length_cons, List.length_cons, List.length_singleton] at hi
    rw [load32_store32_disjoint (by omega), harg i hi]
  have heq := switchStacks_eq (c := k) old new
    (by rw [stack, hkesp, show c.esp - 16 + 0x14 = c.esp + 4 * 1 by omega, harg 1 (by simp)]; rfl)
    (by
      rw [show k.esp + 0x18 = c.esp + 4 * 2 by omega, hstored 2 (by simp)]
      rfl)
  rw [heq]
  have hlt : k.esp < 2 ^ 32 := Nat.lt_of_le_of_lt (by omega) hc.esp
  refine ⟨?_, ?_, rfl, { hkwords with eax := hnew, esp := load32_lt .. },
    hkcs, hsegments, fun x hx hx' => ?_⟩
  · have hwords := hpushed.words
    rw [hkesp] at hwords
    exact hwords.congr fun x hx hx' => store32_outside (by simp at hx'; omega)
  · show (k.mem.store32 (old + espOff) k.esp).load32 (old + espOff) = _
    rw [load32_store32, Nat.mod_eq_of_lt hlt, hkesp]
  · rw [← hpushed.outside x (by omega)]
    exact store32_outside hx'

/-- `switch_to` has come to the stack of the new task: the words that it takes are those at the top of
the stack. -/
structure SwitchedIn (v t : Cpu) (ebx esi edi ebp ret : Nat) : Prop where
  esp : t.esp = v.esp + 20
  eip : t.eip = ret
  ebx : t.ebx = ebx
  esi : t.esi = esi
  edi : t.edi = edi
  ebp : t.ebp = ebp
  eax : t.eax < 2 ^ 32
  others : t.ecx = v.ecx ∧ t.edx = v.edx ∧ t.eflags = v.eflags ∧ t.cs = v.cs ∧ t.ss = v.ss
  segments : t.segments = v.segments
  mem : t.mem = v.mem

theorem Cpu.switchIn_spec {ebx esi edi ebp ret : Nat}
    (h : WordsAt c.mem c.esp [ebx, esi, edi, ebp, ret]) :
    SwitchedIn c c.switchIn ebx esi edi ebp ret := by
  obtain ⟨h0, h1, h2, h3, h4, -⟩ := h
  have hlt := load32_lt c.mem (c.eax + cr3Off)
  unfold switchIn
  dsimp only
  generalize c.mem.load32 (c.eax + cr3Off) = cr3 at hlt
  split <;> exact ⟨rfl, h4, h0, h1, h2, h3, hlt, ⟨rfl, rfl, rfl, rfl, rfl⟩, rfl, rfl⟩

end Kumo
