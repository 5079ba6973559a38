import Kumo.Lib.Orbit
import Kumo.User.Shell

/-!
# The line editor and the dispatch of the shell

What the shell does from its prompt to the handler of a command. The bytes that come in are applied
to the line one by one, and the line never leaves its buffer. The handler is that of the
command whose name is the first word of the line.
-/

namespace Kumo

namespace Shell

open Memory Orbit

/-! ## What a line means -/

/-- A byte is applied to a line. -/
def editByte (line : List (BitVec 8)) (b : BitVec 8) : List (BitVec 8) :=
  if b = 0x0D#8 then line
  else if b = 0x08#8 ∨ b = 0x7F#8 then line.dropLast
  else if line.length < 127 then line ++ [b]
  else line

/-- The line after some bytes. -/
def edited (bytes : List (BitVec 8)) : List (BitVec 8) := bytes.foldl editByte []

/-- What is left of a line from its first word on. -/
def skipSpace (line : List (BitVec 8)) : List (BitVec 8) := line.dropWhile (· = 0x20#8)

/-- The word that a line begins with. -/
def wordOf (line : List (BitVec 8)) : List (BitVec 8) := line.takeWhile (· ≠ 0x20#8)

/-- What is left after it. -/
def afterWord (line : List (BitVec 8)) : List (BitVec 8) := line.dropWhile (· ≠ 0x20#8)

/-- The first word of a line. -/
def firstWord (line : List (BitVec 8)) : List (BitVec 8) := wordOf (skipSpace line)

/-- The word after the first one. -/
def argument (line : List (BitVec 8)) : List (BitVec 8) :=
  firstWord (afterWord (skipSpace line))

/-- The name of a command. -/
def commandName (c : Command) : List (BitVec 8) := (Text.command c).content

/-- The commands. -/
def commands : List Command := [.help, .ls, .cat, .echo, .run, .exec]

/-- Where a word leads, if only some of the commands are left to be tested. -/
def wordLabel (cs : List Command) (word : List (BitVec 8)) : Label :=
  match cs.find? fun c => commandName c = word with
  | some c => .handler c
  | none => .unknown

/-- Where a line leads: to the handler of a command, to the message for an unknown one, or back to
the prompt. -/
def destination (line : List (BitVec 8)) : Label :=
  if firstWord line = [] then .mainLoop else wordLabel commands (firstWord line)

/-- What is left of a line does not begin with a space. -/
theorem skipSpace_head {line rest : List (BitVec 8)} {b : BitVec 8}
    (h : skipSpace line = b :: rest) : b ≠ 0x20#8 := by
  have hhead := List.head?_dropWhile_not (fun b => decide (b = 0x20#8)) line
  rw [show line.dropWhile (fun b => decide (b = 0x20#8)) = b :: rest from h] at hhead
  simpa using hhead

/-! ## Steps -/

/-- The entry of a command, of the message for an unknown one, and the prompt. -/
def Label.IsEntry : Label → Prop
  | .mainLoop | .unknown | .handler _ => True
  | _ => False

/-- A run that comes from `s` to `t` without leaving an entry on the way. -/
def Course (e : Env) : Shell → Shell → Prop := ReachIn (step e) fun s => ¬ s.pc.IsEntry

variable {e : Env} {s t : Shell} {l : Label} {rest : List Entry} {line str : List (BitVec 8)}

/-- The strings of the data section are in memory. -/
def Intact (e : Env) (m : Memory) : Prop := ∀ t, HoldsAt m (e.text t) (t.content ++ [0])

theorem mem_texts (text : Text) : text ∈ texts := by
  cases text with
  | command c => cases c <;> decide
  | _ => decide

theorem sizeOfTexts_cons (text : Text) (ts : List Text) :
    sizeOfTexts (text :: ts) = text.content.length + 1 + sizeOfTexts ts := by
  unfold sizeOfTexts
  rw [List.map_cons, List.sum_cons]

/-- The strings lie before the buffers. -/
theorem text_before_lineBuf (e : Env) (text : Text) :
    e.text text + text.content.length + 1 ≤ e.lineBuf := by
  have hfits : ∀ ts : List Text, text ∈ ts →
      sizeOfTexts (ts.takeWhile (· ≠ text)) + text.content.length + 1 ≤ sizeOfTexts ts := by
    intro ts hin
    induction ts with
    | nil => cases hin
    | cons u ts ih =>
        rw [sizeOfTexts_cons]
        by_cases hu : u = text
        · rw [List.takeWhile_cons_of_neg (by simpa using hu), hu]
          unfold sizeOfTexts
          rw [List.map_nil, List.sum_nil]
          omega
        · rw [List.takeWhile_cons_of_pos (by simpa using hu), sizeOfTexts_cons]
          have hrest := ih ((List.mem_cons.mp hin).resolve_left (Ne.symm hu))
          omega
  have hall := hfits texts (mem_texts text)
  unfold Env.text Env.lineBuf
  omega

/-- A write to the buffers leaves the strings as they are. -/
theorem Intact.congr {m m' : Memory} (h : Intact e m) (hsame : ∀ x < e.lineBuf, m' x = m x) :
    Intact e m' := by
  intro text
  have hend := text_before_lineBuf e text
  refine (h text).congr fun x _ hx => hsame x ?_
  rw [List.length_append, List.length_singleton] at hx
  omega

/-- `.puts_len_loop` counts the bytes of a string. -/
theorem putsLenLoop_course (hpc : s.pc = .putsLenLoop)
    (hstr : HoldsAt s.mem (s.esi + s.ecx) (str ++ [0])) (hnz : ∀ b ∈ str, b ≠ 0) :
    Course e s { s with ecx := s.ecx + str.length, pc := .putsGo } := by
  induction str generalizing s with
  | nil =>
      have hbyte := (holdsAt_cons.mp hstr).1
      refine .one (by rw [hpc]; exact id) ?_
      rw [step, hpc]
      simp only [putsLenLoop, if_pos hbyte, goto, List.length_nil, Nat.add_zero]
  | cons b str ih =>
      obtain ⟨hbyte, htail⟩ := holdsAt_cons.mp hstr
      have hb := hnz b (List.mem_cons_self ..)
      have hrest := ih (s := { s with ecx := s.ecx + 1, pc := .putsLenLoop }) rfl
        htail (fun c hc => hnz c (List.mem_cons_of_mem b hc))
      have hstep : step e s = some { s with ecx := s.ecx + 1, pc := .putsLenLoop } := by
        rw [step, hpc]
        simp only [putsLenLoop, hbyte, if_neg hb, goto]
      rw [List.length_cons, Nat.add_comm str.length, ← Nat.add_assoc]
      exact .step (by rw [hpc]; exact id) hstep hrest

/-- The end of `puts`. -/
theorem putsGo_step {w : Nat} (hpc : s.pc = .putsGo)
    (hstack : s.stack = .word w :: .ret l :: rest) :
    ∃ t, step e s = some t ∧ t.pc = l ∧ t.stack = rest ∧ t.mem = s.mem ∧ t.esi = w ∧
      t.edi = s.edi ∧ t.input = s.input ∧
      t.calls = s.calls ++ [.writeConsole (bytesAt s.mem s.esi s.ecx)] := by
  simp only [step, hpc, putsGo, syscall, popEsiRet, hstack, ret]
  exact ⟨_, rfl, rfl, rfl, rfl, rfl, rfl, rfl, rfl⟩

/-- `puts` writes a string to the console. -/
theorem puts_course (hpc : s.pc = .puts) (hstack : s.stack = .ret l :: rest)
    (hstr : HoldsAt s.mem s.esi (str ++ [0])) (hnz : ∀ b ∈ str, b ≠ 0) :
    ∃ t, Course e s t ∧ t.pc = l ∧ t.stack = rest ∧ t.mem = s.mem ∧ t.esi = s.esi ∧
      t.edi = s.edi ∧ t.input = s.input ∧ t.calls = s.calls ++ [.writeConsole str] := by
  have hcall : step e s = some { s with
      stack := .word s.esi :: s.stack, ecx := 0, pc := .putsLenLoop } := by
    rw [step, hpc]
    rfl
  have hloop := putsLenLoop_course (e := e) (s := { s with
    stack := .word s.esi :: s.stack, ecx := 0, pc := .putsLenLoop }) rfl hstr hnz
  obtain ⟨t, hgo, hpc', hstack', hmem, hesi, hedi, hinput, hcalls⟩ :=
    putsGo_step (e := e) (s := { s with
      stack := .word s.esi :: s.stack, ecx := 0 + str.length, pc := .putsGo }) rfl
      (congrArg (List.cons _) hstack)
  dsimp only at hcalls
  rw [Nat.zero_add, (holdsAt_append.mp hstr).1.bytesAt] at hcalls
  exact ⟨t, .step (by rw [hpc]; exact id) hcall (hloop.trans (.one id hgo)), hpc', hstack', hmem,
    hesi, hedi, hinput, hcalls⟩

/-- `puts` of one of the program's strings. -/
theorem print_course (s : Shell) (text : Text) (l : Label) (hintact : Intact e s.mem)
    (hnz : ∀ b ∈ text.content, b ≠ 0) :
    ∃ t, Course e (s.print e text l) t ∧ t.pc = l ∧ t.stack = s.stack ∧ t.mem = s.mem ∧
      t.edi = s.edi ∧ t.input = s.input ∧ t.calls = s.calls ++ [.writeConsole text.content] := by
  obtain ⟨t, hcourse, hpc, hstack, hmem, -, hedi, hinput, hcalls⟩ :=
    puts_course (s := s.print e text l) rfl rfl (hintact text) hnz
  exact ⟨t, hcourse, hpc, hstack, hmem, hedi, hinput, hcalls⟩

/-! ## The line editor -/

/-- The line that is being typed. -/
structure Editing (e : Env) (before : Memory) (line : List (BitVec 8)) (s : Shell) : Prop where
  stack : s.stack = []
  size : line.length ≤ 127
  edi : s.edi = line.length
  held : HoldsAt s.mem e.lineBuf line
  frame : ∀ x, x < e.lineBuf ∨ e.lineBuf + 128 ≤ x → s.mem x = before x

variable {before : Memory} {c : BitVec 8}

/-- What is left of the line when its last byte is removed. -/
theorem Editing.erase (h : Editing e before line s) (h' : t.stack = s.stack ∧ t.mem = s.mem)
    (hedi : t.edi = s.edi - 1) : Editing e before line.dropLast t where
  stack := h'.1.trans h.stack
  size := by
    have hsize := h.size
    rw [List.length_dropLast]
    omega
  edi := by rw [hedi, h.edi, List.length_dropLast]
  held := by
    rw [h'.2]
    intro j hj
    rw [List.getElem_dropLast]
    exact h.held j (by rw [List.length_dropLast] at hj; omega)
  frame := by
    rw [h'.2]
    exact h.frame

/-- A byte is appended while the buffer is not full. -/
theorem Editing.append (h : Editing e before line s) (hroom : line.length < 127)
    (hmem : t.mem = s.mem.store8 (e.lineBuf + s.edi) c) (hstack : t.stack = s.stack)
    (hedi : t.edi = s.edi + 1) : Editing e before (line ++ [c]) t where
  stack := hstack.trans h.stack
  size := by
    rw [List.length_append, List.length_singleton]
    omega
  edi := by rw [hedi, h.edi, List.length_append, List.length_singleton]
  held := by
    rw [hmem, h.edi]
    exact h.held.snoc c
  frame x hx := by
    rw [hmem, store8_other (by rw [h.edi]; omega), h.frame x hx]

/-- The code of a byte. -/
theorem toNat_eq_iff {k : Nat} (hk : k < 2 ^ 8) : c.toNat = k ↔ c = BitVec.ofNat 8 k := by
  rw [← BitVec.toNat_inj, BitVec.toNat_ofNat, Nat.mod_eq_of_lt hk]

/-- The tests of `.got_char` are on the byte. -/
theorem gotChar_eq (heax : s.eax = c.toNat) :
    s.gotChar e =
      if c = 0x0A#8 then s.goto .execute
      else if c = 0x0D#8 then s.goto .readLoop
      else if c = 0x08#8 ∨ c = 0x7F#8 then s.goto .backspace
      else if 127 ≤ s.edi then s.goto .readLoop
      else { s with mem := s.mem.store8 (e.lineBuf + s.edi) c, edi := s.edi + 1 }.echoBytes e [c] := by
  have hal : s.al = c := by rw [al, heax, BitVec.ofNat_toNat, BitVec.setWidth_eq]
  have hcode : ∀ k < 2 ^ 8, s.eax = k ↔ c = BitVec.ofNat 8 k := fun k hk => by
    rw [heax, toNat_eq_iff hk]
  unfold gotChar
  simp only [hcode 0x0A (by decide), hcode 0x0D (by decide), hcode 0x08 (by decide),
    hcode 0x7F (by decide), hal]
  by_cases h8 : c = 0x08#8
  · have h87 : c = 0x08#8 ∨ c = 0x7F#8 := .inl h8
    rw [if_pos h8, if_pos h87]
  · rw [if_neg h8]
    simp only [h8, false_or]

/-- One byte. -/
theorem Editing.byte (h : Editing e before line s) (hpc : s.pc = .gotChar)
    (heax : s.eax = c.toNat) (hc : c ≠ 0x0A#8) :
    ∃ t, Course e s t ∧ t.pc = .readLoop ∧ t.input = s.input ∧
      Editing e before (editByte line c) t := by
  have hentry : ¬ s.pc.IsEntry := by rw [hpc]; exact id
  have hstep : step e s = some (s.gotChar e) := by rw [step, hpc]
  rw [gotChar_eq heax, if_neg hc] at hstep
  unfold editByte
  by_cases hreturn : c = 0x0D#8
  · rw [if_pos hreturn] at hstep ⊢
    exact ⟨_, .one hentry hstep, rfl, rfl, h.stack, h.size, h.edi, h.held, h.frame⟩
  rw [if_neg hreturn] at hstep ⊢
  by_cases herase : c = 0x08#8 ∨ c = 0x7F#8
  · rw [if_pos herase] at hstep ⊢
    have hback : step e (s.goto .backspace) = some ((s.goto .backspace).backspace e) := rfl
    refine ⟨_, .step hentry hstep (.one id hback), ?_⟩
    unfold backspace
    split
    · next hempty =>
        have hzero : s.edi = 0 := hempty
        exact ⟨rfl, rfl, h.erase ⟨rfl, rfl⟩ (by show s.edi = s.edi - 1; omega)⟩
    · exact ⟨rfl, rfl, h.erase ⟨rfl, rfl⟩ rfl⟩
  · rw [if_neg herase, h.edi] at hstep
    rw [if_neg herase]
    by_cases hroom : line.length < 127
    · rw [if_neg (by omega)] at hstep
      rw [if_pos hroom]
      exact ⟨_, .one hentry hstep, rfl, rfl, h.append hroom (by rw [h.edi]; rfl) rfl
        (by rw [h.edi]; rfl)⟩
    · rw [if_pos (by omega)] at hstep
      rw [if_neg hroom]
      exact ⟨_, .one hentry hstep, rfl, rfl, h.stack, h.size, h.edi, h.held, h.frame⟩

/-- A poll that finds a byte. -/
theorem readLoop_some (hpc : s.pc = .readLoop) {more : List (Option (BitVec 8))}
    (hinput : s.input = some c :: more) :
    ∃ t, Course e s t ∧ t.pc = .gotChar ∧ t.eax = c.toNat ∧ t.input = more ∧
      t.stack = s.stack ∧ t.edi = s.edi ∧ t.mem = s.mem := by
  have hstep : step e s = s.readLoop e := by rw [step, hpc]
  rw [readLoop, hinput] at hstep
  exact ⟨_, .one (by rw [hpc]; exact id) hstep, rfl, rfl, rfl, rfl, rfl, rfl⟩

/-- A poll that finds none. -/
theorem readLoop_none (hpc : s.pc = .readLoop) {more : List (Option (BitVec 8))}
    (hinput : s.input = none :: more) :
    ∃ t, Course e s t ∧ t.pc = .readLoop ∧ t.input = more ∧
      t.stack = s.stack ∧ t.edi = s.edi ∧ t.mem = s.mem := by
  have hstep : step e s = s.readLoop e := by rw [step, hpc]
  rw [readLoop, hinput] at hstep
  exact ⟨_, .one (by rw [hpc]; exact id) hstep, rfl, rfl, rfl, rfl, rfl⟩

/-- Registers that the editor does not use. -/
theorem Editing.same (h : Editing e before line s) (hstack : t.stack = s.stack)
    (hedi : t.edi = s.edi) (hmem : t.mem = s.mem) : Editing e before line t :=
  ⟨hstack.trans h.stack, h.size, hedi.trans h.edi, hmem ▸ h.held, hmem ▸ h.frame⟩

/-- All bytes before the new line. Polls that find nothing do not count. -/
theorem Editing.read {polls more : List (Option (BitVec 8))} (h : Editing e before line s)
    (hpc : s.pc = .readLoop) (hinput : s.input = polls ++ some 0x0A#8 :: more)
    (hpolls : some 0x0A#8 ∉ polls) :
    ∃ t, Course e s t ∧ t.pc = .execute ∧ t.input = more ∧
      Editing e before ((polls.filterMap id).foldl editByte line) t := by
  induction polls generalizing s line with
  | nil =>
      obtain ⟨t, hcourse, htpc, heax, hmore, hstack, hedi, hmem⟩ :=
        readLoop_some (e := e) hpc hinput
      have hstep : step e t = some (t.goto .execute) := by
        rw [step, htpc]
        exact congrArg some ((gotChar_eq heax).trans (if_pos rfl))
      exact ⟨_, hcourse.trans (.one (by rw [htpc]; exact id) hstep), rfl, hmore,
        h.same hstack hedi hmem⟩
  | cons poll polls ih =>
      have hrest : some 0x0A#8 ∉ polls := fun hin => hpolls (List.mem_cons_of_mem poll hin)
      cases poll with
      | none =>
          obtain ⟨t, hcourse, htpc, hmore, hstack, hedi, hmem⟩ :=
            readLoop_none (e := e) hpc hinput
          obtain ⟨u, hcourse', hu⟩ := ih (h.same hstack hedi hmem) htpc hmore hrest
          exact ⟨u, hcourse.trans hcourse', hu⟩
      | some b =>
          obtain ⟨t, hcourse, htpc, heax, hmore, hstack, hedi, hmem⟩ :=
            readLoop_some (e := e) hpc hinput
          have hb : b ≠ 0x0A#8 := by
            rintro rfl
            exact hpolls (List.mem_cons_self ..)
          obtain ⟨u, hcourse1, hupc, huinput, hu⟩ :=
            (h.same hstack hedi hmem).byte htpc heax hb
          obtain ⟨v, hcourse2, hv⟩ := ih hu hupc (huinput.trans hmore) hrest
          exact ⟨v, hcourse.trans (hcourse1.trans hcourse2), hv⟩

/-- From the prompt to the end of a line: the buffer holds the bytes applied in order, and nothing
else of the memory has changed. -/
theorem line_course {polls more : List (Option (BitVec 8))} (hpc : s.pc = .mainLoop)
    (hstack : s.stack = []) (hintact : Intact e s.mem)
    (hinput : s.input = polls ++ some 0x0A#8 :: more) (hpolls : some 0x0A#8 ∉ polls) :
    ∃ s' t, step e s = some s' ∧ Course e s' t ∧ t.pc = .newlinePrinted ∧ t.stack = [] ∧
      t.input = more ∧ t.edi = (edited (polls.filterMap id)).length ∧
      (edited (polls.filterMap id)).length ≤ 127 ∧
      HoldsAt t.mem e.lineBuf (edited (polls.filterMap id) ++ [0]) ∧
      ∀ x, x < e.lineBuf ∨ e.lineBuf + 128 ≤ x → t.mem x = s.mem x := by
  have hstep : step e s = some (s.print e .prompt .promptPrinted) := by rw [step, hpc]
  obtain ⟨a, hprompt, hapc, hastack, hamem, -, hainput, -⟩ :=
    print_course s .prompt .promptPrinted hintact (by decide)
  have hreset : step e a = some ({ a with edi := 0 }.goto .readLoop) := by rw [step, hapc]
  have hstart : Editing e s.mem [] ({ a with edi := 0 }.goto .readLoop) :=
    ⟨hastack.trans hstack, Nat.zero_le 127, rfl, holdsAt_nil, fun x _ => by
      show a.mem x = _
      rw [hamem]⟩
  obtain ⟨b, hread, hbpc, hbinput, hb⟩ := hstart.read rfl (hainput.trans hinput) hpolls
  have hexecute : step e b = some (b.execute e) := by rw [step, hbpc]
  have hframe : ∀ x, x < e.lineBuf ∨ e.lineBuf + 128 ≤ x →
      b.mem.store8 (e.lineBuf + b.edi) 0 x = s.mem x := by
    intro x hx
    have hsize := hb.size
    rw [store8_other (by rw [hb.edi]; omega), hb.frame x hx]
  obtain ⟨t, hnewline, htpc, htstack, htmem, htedi, htinput, -⟩ :=
    print_course { b with mem := b.mem.store8 (e.lineBuf + b.edi) 0 } .newline .newlinePrinted
      (hintact.congr fun x hx => hframe x (.inl hx)) (by decide)
  refine ⟨_, t, hstep, hprompt.trans (.step (by rw [hapc]; exact id) hreset (hread.trans
    (.step (by rw [hbpc]; exact id) hexecute hnewline))), htpc, htstack.trans hb.stack,
    htinput.trans hbinput, htedi.trans hb.edi, hb.size, ?_, fun x hx => ?_⟩
  · rw [htmem]
    dsimp only
    rw [hb.edi]
    exact hb.held.snoc 0
  · rw [htmem]
    exact hframe x hx

/-! ## Dispatch -/

/-- A run that only moves registers. -/
structure Keeps (s t : Shell) : Prop where
  mem : t.mem = s.mem
  calls : t.calls = s.calls
  input : t.input = s.input

theorem Keeps.refl (s : Shell) : Keeps s s := ⟨rfl, rfl, rfl⟩

theorem Keeps.trans {u : Shell} (h : Keeps s t) (h' : Keeps t u) : Keeps s u :=
  ⟨h'.mem.trans h.mem, h'.calls.trans h.calls, h'.input.trans h.input⟩

variable {suffix name : List (BitVec 8)}

/-- `.skip_spaces` finds the first word, or the end of the line. -/
theorem skipSpaces_course (hpc : s.pc = .skipSpaces) (hne : suffix ≠ [])
    (hsize : s.esi + suffix.length = s.edi)
    (hheld : HoldsAt s.mem (e.lineBuf + s.esi) (suffix ++ [0])) :
    ∃ t, Course e s t ∧ Keeps s t ∧ t.stack = s.stack ∧
      if skipSpace suffix = [] then t.pc = .mainLoop
      else t.pc = .tryCommand .help ∧ t.esi + (skipSpace suffix).length = s.edi ∧
        HoldsAt t.mem (e.lineBuf + t.esi) (skipSpace suffix ++ [0]) := by
  induction suffix generalizing s with
  | nil => exact absurd rfl hne
  | cons b suffix ih =>
      have hstep : step e s = some (s.skipSpaces e) := by rw [step, hpc]
      have hentry : ¬ s.pc.IsEntry := by rw [hpc]; exact id
      obtain ⟨hbyte, htail⟩ := holdsAt_cons.mp hheld
      rw [Nat.add_assoc] at htail
      have hline : s.lineByte e s.esi = b := hbyte
      rw [List.length_cons] at hsize
      unfold skipSpaces at hstep
      rw [hline] at hstep
      by_cases hb : b = 0x20#8
      · have hskip : skipSpace (b :: suffix) = skipSpace suffix :=
          List.dropWhile_cons_of_pos (by simpa using hb)
        rw [if_neg (not_not_intro hb)] at hstep
        rw [hskip]
        cases suffix with
        | nil =>
            have hlast : ¬ s.esi + 1 < s.edi := by
              rw [List.length_nil] at hsize
              omega
            have hend := hstep.trans (congrArg some (if_neg hlast))
            exact ⟨_, .one hentry hend, ⟨rfl, rfl, rfl⟩, rfl, rfl⟩
        | cons c suffix =>
            have hmore : s.esi + 1 < s.edi := by
              rw [List.length_cons] at hsize
              omega
            have hnext := hstep.trans (congrArg some (if_pos hmore))
            obtain ⟨t, hcourse, hkeeps, hstack, hend⟩ := ih
              (s := { s.setAl b with esi := s.esi + 1, pc := .skipSpaces }) rfl
              (List.cons_ne_nil c suffix) (by show s.esi + 1 + _ = s.edi; omega) htail
            have hfirst : Keeps s { s.setAl b with esi := s.esi + 1, pc := .skipSpaces } :=
              ⟨rfl, rfl, rfl⟩
            exact ⟨t, .step hentry hnext hcourse, hfirst.trans hkeeps, hstack, hend⟩
      · have hskip : skipSpace (b :: suffix) = b :: suffix :=
          List.dropWhile_cons_of_neg (by simpa using hb)
        rw [if_pos hb] at hstep
        rw [hskip]
        exact ⟨_, .one hentry hstep, ⟨rfl, rfl, rfl⟩, rfl, rfl, hsize, hheld⟩

/-- What `strcmp_word` comes to: `eax` is 0 just if the words agree. -/
structure Compared (e : Env) (s t : Shell) (agree : Prop) : Prop where
  course : Course e s t
  keeps : Keeps s t
  stack : t.stack = s.stack
  edi : t.edi = s.edi
  pc : t.pc = .strcmpDone
  eax : t.eax = 0 ↔ agree

/-- It goes on with the next step. -/
theorem Compared.step {u : Shell} {agree : Prop} (h : Compared e t u agree)
    (hentry : ¬ s.pc.IsEntry) (hstep : step e s = some t) (hkeeps : Keeps s t)
    (hstack : t.stack = s.stack) (hedi : t.edi = s.edi) : Compared e s u agree :=
  ⟨.step hentry hstep h.course, hkeeps.trans h.keeps, h.stack.trans hstack, h.edi.trans hedi, h.pc,
    h.eax⟩

theorem noMatch_compared (hpc : s.pc = .noMatch) {agree : Prop} (hno : ¬ agree) :
    ∃ t, Compared e s t agree := by
  have hstep : Shell.step e s = some ({ s with eax := 1 }.goto .strcmpDone) := by
    rw [Shell.step, hpc]
  exact ⟨_, .one (by rw [hpc]; exact id) hstep, ⟨rfl, rfl, rfl⟩, rfl, rfl, rfl,
    iff_of_false Nat.one_ne_zero hno⟩

theorem isMatch_compared (hpc : s.pc = .isMatch) {agree : Prop} (hyes : agree) :
    ∃ t, Compared e s t agree := by
  have hstep : Shell.step e s = some ({ s with eax := 0 }.goto .strcmpDone) := by
    rw [Shell.step, hpc]
  exact ⟨_, .one (by rw [hpc]; exact id) hstep, ⟨rfl, rfl, rfl⟩, rfl, rfl, rfl,
    iff_of_true rfl hyes⟩

/-- `.check_end`: the name has ended, and the word must end too. -/
theorem checkEnd_compared (hpc : s.pc = .checkEnd)
    (hsuffix : HoldsAt s.mem (s.ebx + s.ecx) (suffix ++ [0])) (hnz : ∀ b ∈ suffix, b ≠ 0) :
    ∃ t, Compared e s t ([] = wordOf suffix) := by
  have hentry : ¬ s.pc.IsEntry := by rw [hpc]; exact id
  have hstep : Shell.step e s = some s.checkEnd := by rw [Shell.step, hpc]
  unfold checkEnd at hstep
  cases suffix with
  | nil =>
      have ha := (holdsAt_cons.mp hsuffix).1
      have hnext := hstep.trans (congrArg some (if_pos ha))
      obtain ⟨t, ht⟩ := isMatch_compared (e := e)
        (s := (s.setAl (s.mem (s.ebx + s.ecx))).goto .isMatch) rfl (rfl : [] = wordOf [])
      exact ⟨t, ht.step hentry hnext ⟨rfl, rfl, rfl⟩ rfl rfl⟩
  | cons b suffix =>
      have ha := (holdsAt_cons.mp hsuffix).1
      have hb := hnz b (List.mem_cons_self ..)
      have hnext := hstep.trans (congrArg some (if_neg (by rw [ha]; exact hb)))
      by_cases hspace : b = 0x20#8
      · have hword : [] = wordOf (b :: suffix) :=
          (List.takeWhile_cons_of_neg (by simpa using hspace)).symm
        have hmatch := hnext.trans (congrArg some (if_pos (ha.trans hspace)))
        obtain ⟨t, ht⟩ := isMatch_compared (e := e)
          (s := (s.setAl (s.mem (s.ebx + s.ecx))).goto .isMatch) rfl hword
        exact ⟨t, ht.step hentry hmatch ⟨rfl, rfl, rfl⟩ rfl rfl⟩
      · have hword : [] ≠ wordOf (b :: suffix) := by
          rw [wordOf, List.takeWhile_cons_of_pos (by simpa using hspace)]
          exact (List.cons_ne_nil b _).symm
        have hmiss := hnext.trans (congrArg some (if_neg (by rw [ha]; exact hspace)))
        obtain ⟨t, ht⟩ := noMatch_compared (e := e)
          (s := (s.setAl (s.mem (s.ebx + s.ecx))).goto .noMatch) rfl hword
        exact ⟨t, ht.step hentry hmiss ⟨rfl, rfl, rfl⟩ rfl rfl⟩

/-- `.cmp_loop` compares a word with a name, which has no space. -/
theorem cmpLoop_compared (hpc : s.pc = .cmpLoop)
    (hsuffix : HoldsAt s.mem (s.ebx + s.ecx) (suffix ++ [0]))
    (hname : HoldsAt s.mem (s.esi + s.ecx) (name ++ [0]))
    (hchars : ∀ b ∈ name, b ≠ 0 ∧ b ≠ 0x20#8) (hnz : ∀ b ∈ suffix, b ≠ 0) :
    ∃ t, Compared e s t (name = wordOf suffix) := by
  induction name generalizing s suffix with
  | nil =>
      have hentry : ¬ s.pc.IsEntry := by rw [hpc]; exact id
      have hstep : Shell.step e s = some s.cmpLoop := by rw [Shell.step, hpc]
      have hd := (holdsAt_cons.mp hname).1
      have hend := hstep.trans (congrArg some (if_pos hd))
      obtain ⟨t, ht⟩ := checkEnd_compared (e := e)
        (s := ((s.setAl (s.mem (s.ebx + s.ecx))).setDl (s.mem (s.esi + s.ecx))).goto .checkEnd)
        rfl hsuffix hnz
      exact ⟨t, ht.step hentry hend ⟨rfl, rfl, rfl⟩ rfl rfl⟩
  | cons d name ih =>
      have hentry : ¬ s.pc.IsEntry := by rw [hpc]; exact id
      have hstep : Shell.step e s = some s.cmpLoop := by rw [Shell.step, hpc]
      obtain ⟨hd, hname'⟩ := holdsAt_cons.mp hname
      obtain ⟨hd0, hdspace⟩ := hchars d (List.mem_cons_self ..)
      have hnext := hstep.trans (congrArg some (if_neg (by rw [hd]; exact hd0)))
      -- the two bytes differ, and so do the words
      have hdiffer : s.mem (s.ebx + s.ecx) ≠ d → d :: name ≠ wordOf suffix →
          ∃ t, Compared e s t (d :: name = wordOf suffix) := by
        intro hne hword
        have hmiss := hnext.trans (congrArg some (if_pos (by rw [hd]; exact hne)))
        obtain ⟨t, ht⟩ := noMatch_compared (e := e)
          (s := ((s.setAl (s.mem (s.ebx + s.ecx))).setDl (s.mem (s.esi + s.ecx))).goto .noMatch)
          rfl hword
        exact ⟨t, ht.step hentry hmiss ⟨rfl, rfl, rfl⟩ rfl rfl⟩
      cases suffix with
      | nil =>
          have ha := (holdsAt_cons.mp hsuffix).1
          exact hdiffer (by rw [ha]; exact hd0.symm) (List.cons_ne_nil d name)
      | cons b suffix =>
          obtain ⟨ha, hsuffix'⟩ := holdsAt_cons.mp hsuffix
          by_cases hbd : b = d
          · subst hbd
            have hword : wordOf (b :: suffix) = b :: wordOf suffix :=
              List.takeWhile_cons_of_pos (by simpa using hdspace)
            have hsame := hnext.trans (congrArg some (if_neg (by rw [ha, hd]; exact not_not_intro rfl)))
            rw [Nat.add_assoc] at hname' hsuffix'
            obtain ⟨t, ht⟩ := ih
              (s := { ((s.setAl (s.mem (s.ebx + s.ecx))).setDl (s.mem (s.esi + s.ecx))) with
                ecx := s.ecx + 1, pc := .cmpLoop }) rfl hsuffix' hname'
              (fun c hc => hchars c (List.mem_cons_of_mem b hc))
              (fun c hc => hnz c (List.mem_cons_of_mem b hc))
            have hlong := ht.step hentry hsame ⟨rfl, rfl, rfl⟩ rfl rfl
            rw [hword]
            exact ⟨t, hlong.course, hlong.keeps, hlong.stack, hlong.edi, hlong.pc, hlong.eax.trans
              ⟨fun heq => by rw [heq], fun heq => (List.cons.inj heq).2⟩⟩
          · refine hdiffer (by rw [ha]; exact hbd) fun heq => ?_
            by_cases hspace : b = 0x20#8
            · rw [wordOf, List.takeWhile_cons_of_neg (by simpa using hspace)] at heq
              cases heq
            · rw [wordOf, List.takeWhile_cons_of_pos (by simpa using hspace)] at heq
              exact hbd (List.cons.inj heq).1.symm

/-- `strcmp_word`, called to compare the word that `ebx` points to with the name at `edx`. -/
theorem strcmpWord_course (hpc : s.pc = .strcmpWord) (hstack : s.stack = .ret l :: rest)
    (hsuffix : HoldsAt s.mem s.ebx (suffix ++ [0])) (hname : HoldsAt s.mem s.edx (name ++ [0]))
    (hchars : ∀ b ∈ name, b ≠ 0 ∧ b ≠ 0x20#8) (hnz : ∀ b ∈ suffix, b ≠ 0) :
    ∃ t, Course e s t ∧ Keeps s t ∧ t.pc = l ∧ t.stack = rest ∧ t.esi = s.esi ∧ t.edi = s.edi ∧
      (t.eax = 0 ↔ name = wordOf suffix) := by
  have hcall : step e s = some { s with
      stack := .word s.esi :: s.stack, esi := s.edx, ecx := 0, pc := .cmpLoop } := by
    rw [step, hpc]
    rfl
  obtain ⟨t, ht⟩ := cmpLoop_compared (e := e) (s := { s with
    stack := .word s.esi :: s.stack, esi := s.edx, ecx := 0, pc := .cmpLoop }) rfl hsuffix hname
    hchars hnz
  have hdone : step e t = some { t with esi := s.esi, stack := rest, pc := l } := by
    rw [step, ht.pc]
    simp only [popEsiRet, ht.stack, hstack, ret]
  exact ⟨_, .step (by rw [hpc]; exact id) hcall (ht.course.trans (.one (by rw [ht.pc]; exact id)
    hdone)), ⟨ht.keeps.mem, ht.keeps.calls, ht.keeps.input⟩, rfl, rfl, rfl, ht.edi, ht.eax⟩

/-- The names of the commands have no NUL and no space. -/
theorem commandName_chars (c : Command) : ∀ b ∈ commandName c, b ≠ 0 ∧ b ≠ 0x20#8 := by
  cases c <;> decide

/-- The test for one command: its handler is called if the name is the word. -/
theorem tryCommand_course (command : Command) (hpc : s.pc = .tryCommand command)
    (hstack : s.stack = []) (hintact : Intact e s.mem)
    (hheld : HoldsAt s.mem (e.lineBuf + s.esi) (suffix ++ [0])) (hnz : ∀ b ∈ suffix, b ≠ 0) :
    ∃ t, Course e s t ∧ Keeps s t ∧ t.esi = s.esi ∧
      (commandName command = wordOf suffix →
        t.pc = .handler command ∧ t.stack = [.ret .mainLoop]) ∧
      (commandName command ≠ wordOf suffix → t.pc = afterTest command ∧ t.stack = []) := by
  have hcall : step e s = some (s.tryCommand e command) := by rw [step, hpc]
  obtain ⟨t, hcourse, hkeeps, htpc, htstack, hesi, -, heax⟩ :=
    strcmpWord_course (e := e) (s := s.tryCommand e command) (l := .compared command)
      rfl rfl hheld
      (hintact (.command command)) (commandName_chars command) hnz
  have hkeeps' : Keeps s t := ⟨hkeeps.mem, hkeeps.calls, hkeeps.input⟩
  have hdone : step e t = some (t.compared command) := by rw [step, htpc]
  unfold compared at hdone
  have hrun : Course e s t := .step (by rw [hpc]; exact id) hcall hcourse
  have htentry : ¬ t.pc.IsEntry := by rw [htpc]; exact id
  rw [hstack] at htstack
  by_cases hmatch : commandName command = wordOf suffix
  · have hzero := heax.mpr hmatch
    have hcallee := hdone.trans (congrArg some (if_neg (not_not_intro hzero)))
    exact ⟨_, hrun.trans (.one htentry hcallee), ⟨hkeeps'.mem, hkeeps'.calls, hkeeps'.input⟩, hesi,
      fun _ => ⟨rfl, congrArg _ htstack⟩, fun hne => absurd hmatch hne⟩
  · have hother := hdone.trans (congrArg some (if_pos fun hzero => hmatch (heax.mp hzero)))
    exact ⟨_, hrun.trans (.one htentry hother), ⟨hkeeps'.mem, hkeeps'.calls, hkeeps'.input⟩, hesi,
      fun heq => absurd heq hmatch, fun _ => ⟨rfl, htstack⟩⟩

/-- The commands after a command are tested after it, and then the message is printed. -/
def TestedInOrder : List Command → Prop
  | [] => True
  | [c] => afterTest c = .unknown
  | c :: d :: cs => afterTest c = .tryCommand d ∧ TestedInOrder (d :: cs)

/-- The tests from some command on. -/
theorem tests_course {command : Command} {cs : List Command}
    (horder : TestedInOrder (command :: cs)) (hpc : s.pc = .tryCommand command)
    (hstack : s.stack = []) (hintact : Intact e s.mem)
    (hheld : HoldsAt s.mem (e.lineBuf + s.esi) (suffix ++ [0])) (hnz : ∀ b ∈ suffix, b ≠ 0) :
    ∃ t, Course e s t ∧ Keeps s t ∧ t.esi = s.esi ∧
      t.pc = wordLabel (command :: cs) (wordOf suffix) ∧
      ∀ c, t.pc = .handler c → t.stack = [.ret .mainLoop] := by
  induction cs generalizing command s with
  | nil =>
      obtain ⟨t, hcourse, hkeeps, hesi, hmatch, hother⟩ :=
        tryCommand_course (e := e) command hpc hstack hintact hheld hnz
      refine ⟨t, hcourse, hkeeps, hesi, ?_⟩
      by_cases heq : commandName command = wordOf suffix
      · rw [wordLabel, List.find?_cons_of_pos (by simpa using heq)]
        exact ⟨(hmatch heq).1, fun _ _ => (hmatch heq).2⟩
      · have hunknown : t.pc = .unknown := (hother heq).1.trans horder
        rw [wordLabel, List.find?_cons_of_neg (by simpa using heq)]
        exact ⟨hunknown, fun c hc => by rw [hunknown] at hc; cases hc⟩
  | cons next cs ih =>
      obtain ⟨t, hcourse, hkeeps, hesi, hmatch, hother⟩ :=
        tryCommand_course (e := e) command hpc hstack hintact hheld hnz
      by_cases heq : commandName command = wordOf suffix
      · refine ⟨t, hcourse, hkeeps, hesi, ?_⟩
        rw [wordLabel, List.find?_cons_of_pos (by simpa using heq)]
        exact ⟨(hmatch heq).1, fun _ _ => (hmatch heq).2⟩
      · obtain ⟨u, hcourse', hkeeps', hesi', hu⟩ := ih horder.2 ((hother heq).1.trans horder.1)
          (hother heq).2 (by rw [hkeeps.mem]; exact hintact)
          (by rw [hkeeps.mem, hesi]; exact hheld)
        refine ⟨u, hcourse.trans hcourse', hkeeps.trans hkeeps', hesi'.trans hesi, ?_⟩
        rw [wordLabel, List.find?_cons_of_neg (by simpa using heq)]
        exact hu

/-- From the end of the line to the handler of its command. -/
theorem dispatch_course (hpc : s.pc = .newlinePrinted) (hstack : s.stack = [])
    (hintact : Intact e s.mem) (hedi : s.edi = line.length)
    (hheld : HoldsAt s.mem e.lineBuf (line ++ [0])) (hnz : ∀ b ∈ line, b ≠ 0) :
    ∃ t, Course e s t ∧ Keeps s t ∧ t.pc = destination line ∧
      ∀ c, t.pc = .handler c → t.stack = [.ret .mainLoop] ∧
        t.esi + (skipSpace line).length = line.length ∧
        HoldsAt t.mem (e.lineBuf + t.esi) (skipSpace line ++ [0]) := by
  have hentry : ¬ s.pc.IsEntry := by rw [hpc]; exact id
  have hstep : step e s = some s.newlinePrinted := by rw [step, hpc]
  unfold newlinePrinted at hstep
  by_cases hempty : line = []
  · have hend := hstep.trans (congrArg some (if_pos (by rw [hedi, hempty]; rfl)))
    subst hempty
    exact ⟨_, .one hentry hend, ⟨rfl, rfl, rfl⟩, rfl, fun c hc => by cases hc⟩
  have hlength : 0 < line.length := List.length_pos_of_ne_nil hempty
  have hskip := hstep.trans (congrArg some (if_neg (by omega)))
  obtain ⟨t, hcourse, hkeeps, htstack, hend⟩ := skipSpaces_course (e := e)
    (s := { s with esi := 0, pc := .skipSpaces }) rfl hempty
    (by show 0 + line.length = s.edi; omega)
    (by show HoldsAt s.mem (e.lineBuf + 0) _; rw [Nat.add_zero]; exact hheld)
  have hkeeps' : Keeps s t := ⟨hkeeps.mem, hkeeps.calls, hkeeps.input⟩
  have hrun : Course e s t := .step hentry hskip hcourse
  by_cases hblank : skipSpace line = []
  · rw [if_pos hblank] at hend
    have hdest : destination line = .mainLoop := by
      rw [destination, firstWord, hblank]
      rfl
    exact ⟨t, hrun, hkeeps', hend.trans hdest.symm, fun c hc => by rw [hend] at hc; cases hc⟩
  · rw [if_neg hblank] at hend
    obtain ⟨htpc, hesi, htheld⟩ := hend
    have hword : firstWord line ≠ [] := by
      obtain ⟨b, rest, hcons⟩ := List.exists_cons_of_ne_nil hblank
      have hb := skipSpace_head hcons
      rw [firstWord, hcons, wordOf, List.takeWhile_cons_of_pos (by simpa using hb)]
      exact List.cons_ne_nil b _
    have horder : TestedInOrder commands := ⟨rfl, rfl, rfl, rfl, rfl, rfl⟩
    obtain ⟨u, hcourse', hkeeps'', huesi, hupc, hustack⟩ := tests_course horder htpc
      (htstack.trans hstack) (by rw [hkeeps'.mem]; exact hintact) htheld
      (fun b hb => hnz b ((List.dropWhile_sublist _).subset hb))
    refine ⟨u, hrun.trans hcourse', hkeeps'.trans hkeeps'', ?_, fun c hc => ⟨hustack c hc, ?_, ?_⟩⟩
    · rw [destination, if_neg hword]
      exact hupc
    · rw [huesi, hesi]
      exact hedi
    · rw [hkeeps''.mem, huesi]
      exact htheld

end Shell

end Kumo
