import Kumo.User.ShellDialogue
import Mathlib.Computability.StateTransition
import Mathlib.Data.List.DropRight

/-!
# The jobs of the program

`Does` says which job a state of the program is about to do. The courses of the line editor, the
dispatch and the handlers lead from a byte that is typed, and from a line that is ended, to the job
that the dialogue has for it.
-/

namespace Kumo

namespace Shell

open Memory Orbit StateTransition

variable {e : Env} {before : Memory} {s t : Shell} {l : Label} {job next : Job}
  {line str word : List (BitVec 8)} {c : Call}

/-! ## Calls are made once and for all -/

@[simp] theorem goto_calls (s : Shell) (l : Label) : (s.goto l).calls = s.calls := rfl

@[simp] theorem callTo_calls (s : Shell) (l next : Label) : (s.callTo l next).calls = s.calls := rfl

@[simp] theorem print_calls (s : Shell) (text : Text) (l : Label) :
    (s.print e text l).calls = s.calls := rfl

@[simp] theorem setAl_calls (s : Shell) (b : BitVec 8) : (s.setAl b).calls = s.calls := rfl

@[simp] theorem setDl_calls (s : Shell) (b : BitVec 8) : (s.setDl b).calls = s.calls := rfl

@[simp] theorem startCopy_calls (s : Shell) (k : Copy) (dst : Nat) :
    (s.startCopy e k dst).calls = s.calls := rfl

@[simp] theorem syscall_calls (s : Shell) (c : Call) :
    (syscall e s c).calls = s.calls ++ [c] := rfl

@[simp] theorem syscallTo_calls (s : Shell) (c : Call) (buf size : Nat) :
    (syscallTo e s c buf size).calls = s.calls ++ [c] := rfl

@[simp] theorem echoBytes_calls (s : Shell) (bytes : List (BitVec 8)) :
    (s.echoBytes e bytes).calls = s.calls ++ [.writeConsole bytes] := rfl

/-- `ret` and `pop esi` make no calls. -/
theorem ret_calls (hstep : s.ret = some t) : t.calls = s.calls := by
  unfold Shell.ret at hstep
  split at hstep
  · obtain rfl := Option.some.inj hstep
    rfl
  · cases hstep

theorem popEsiRet_calls (hstep : s.popEsiRet = some t) : t.calls = s.calls := by
  unfold Shell.popEsiRet at hstep
  split at hstep
  · exact (ret_calls hstep :)
  · cases hstep

theorem readLoop_calls (hstep : s.readLoop e = some t) : s.calls <+: t.calls := by
  unfold Shell.readLoop at hstep
  split at hstep
  · cases hstep
  · split at hstep <;> obtain rfl := Option.some.inj hstep <;> simp

theorem lsPrinted_calls (hstep : s.lsPrinted = some t) : t.calls = s.calls := by
  unfold Shell.lsPrinted at hstep
  split at hstep
  · obtain rfl := Option.some.inj hstep
    rfl
  · cases hstep

theorem argStart_calls (c : Command) : (s.argStart e c).calls = s.calls := by
  unfold Shell.argStart
  split
  · rfl
  · cases c <;> dsimp only <;> first | rfl | (split <;> rfl)

/-- A step makes calls after those before it. -/
theorem step_calls (hstep : Shell.step e s = some t) : s.calls <+: t.calls := by
  unfold Shell.step at hstep
  generalize s.pc = l at hstep
  cases l with
  | readLoop => exact readLoop_calls hstep
  | putsGo => exact (popEsiRet_calls hstep) ▸ List.prefix_append ..
  | strcmpDone => exact (popEsiRet_calls hstep) ▸ List.prefix_refl _
  | lsPrinted => exact (lsPrinted_calls hstep) ▸ List.prefix_refl _
  | catDone => exact (ret_calls hstep) ▸ List.prefix_append ..
  | handlerRet => exact (ret_calls hstep) ▸ List.prefix_refl _
  | argStart c =>
      obtain rfl := Option.some.inj hstep
      exact (argStart_calls c) ▸ List.prefix_refl _
  | handler c => obtain rfl := Option.some.inj hstep; cases c <;> exact List.prefix_refl _
  | foundEnd c =>
      obtain rfl := Option.some.inj hstep
      unfold Shell.foundEnd
      dsimp only
      split
      · exact List.prefix_refl _
      · split <;> simp
  | copyDone k => obtain rfl := Option.some.inj hstep; cases k <;> exact List.prefix_refl _
  | gotChar | backspace | newlinePrinted | skipSpaces | compared | putsLenLoop | cmpLoop | checkEnd
  | lsLoop | lsDone | skipName | skipSp | findEnd | copyPath | openFile | catReadLoop | execDo =>
      obtain rfl := Option.some.inj hstep
      simp only [Shell.gotChar, Shell.backspace, Shell.newlinePrinted, Shell.skipSpaces,
        Shell.compared, Shell.putsLenLoop, Shell.cmpLoop, Shell.checkEnd, Shell.lsLoop, Shell.lsDone,
        Shell.skipName, Shell.skipSp, Shell.findEnd, Shell.copyPath, Shell.openFile,
        Shell.catReadLoop, Shell.execDo]
      repeat' split
      all_goals simp
  | _ => obtain rfl := Option.some.inj hstep; exact List.prefix_refl _

/-- A run makes calls after those before it. -/
theorem reaches_calls (h : Reaches (Shell.step e) s t) : s.calls <+: t.calls := by
  induction h with
  | refl => exact List.prefix_refl _
  | tail _ hstep ih => exact ih.trans (step_calls hstep)

/-! ## Jobs -/

/-- A C string that fits into the kernel's buffer. -/
def CString (str : List (BitVec 8)) : Prop := (∀ b ∈ str, b ≠ 0) ∧ str.length < 256

/-- A state of the program is about to do a job. -/
def Does (e : Env) : Job → Shell → Prop
  | .write bytes next, s => ∃ t, Reaches₁ (step e) s t ∧
      t.calls = s.calls ++ [.writeConsole bytes] ∧ t.input = s.input ∧ Does e next t
  | .poll line, s => s.pc = .readLoop ∧ s.edi = line.length ∧ HoldsAt s.mem e.lineBuf line
  | .list i, s => s.pc = .lsLoop ∧ s.edi = i
  | .openFile path, s => s.pc = .openFile ∧ HoldsAt s.mem e.nameBuf (path ++ [0]) ∧ CString path
  | .read fd, s => s.pc = .catReadLoop ∧ s.mem.load32 e.fdSave = fd
  | .close fd, s => s.pc = .catDone ∧ s.mem.load32 e.fdSave = fd
  | .run name, s => s.pc = .foundEnd .run ∧ CString name ∧
      HoldsAt (s.mem.store8 (e.lineBuf + s.ecx) 0) (e.lineBuf + s.edi) (name ++ [0])
  | .exec path, s => s.pc = .execDo ∧ s.ebx = e.nameBuf ∧ CString path ∧
      HoldsAt s.mem e.nameBuf (path ++ [0])

/-- A state comes to a job without a call. -/
def Leads (e : Env) (job : Job) (s : Shell) : Prop :=
  ∃ t, Reaches (step e) s t ∧ t.calls = s.calls ∧ t.input = s.input ∧ Does e job t

theorem Does.leads (h : Does e job s) : Leads e job s := ⟨s, .refl, rfl, rfl, h⟩

/-- Through a run that moves registers or writes to memory. -/
theorem Leads.reach (hreach : Reaches (step e) s t) (hcalls : t.calls = s.calls)
    (hinput : t.input = s.input) (h : Leads e job t) : Leads e job s := by
  obtain ⟨u, htu, hcalls', hinput', hdoes⟩ := h
  exact ⟨u, hreach.trans htu, hcalls'.trans hcalls, hinput'.trans hinput, hdoes⟩

theorem Leads.step (hstep : Shell.step e s = some t) (hcalls : t.calls = s.calls)
    (hinput : t.input = s.input) (h : Leads e job t) : Leads e job s :=
  h.reach (.single hstep) hcalls hinput

theorem Leads.course (hcourse : Course e s t) (hkeeps : Keeps s t) (h : Leads e job t) :
    Leads e job s := h.reach hcourse.reach hkeeps.calls hkeeps.input

/-- Before something is written any run may be. -/
theorem Leads.does_write {bytes : List (BitVec 8)} (h : Leads e (.write bytes next) s) :
    Does e (.write bytes next) s := by
  obtain ⟨t, hst, hcalls, hinput, u, htu, hcalls', hinput', hdoes⟩ := h
  exact ⟨u, Relation.TransGen.trans_right hst htu, by rw [hcalls', hcalls], hinput'.trans hinput,
    hdoes⟩

/-- `puts` writes a string and comes to the next job. -/
theorem does_puts (hpc : s.pc = .puts) {rest : List Entry} (hstack : s.stack = .ret l :: rest)
    (hl : l ≠ .puts) (hstr : HoldsAt s.mem s.esi (str ++ [0])) (hnz : ∀ b ∈ str, b ≠ 0)
    (hnext : ∀ t, Reaches (step e) s t → t.pc = l → t.stack = rest → t.mem = s.mem →
      t.edi = s.edi → Leads e next t) : Does e (.write str next) s := by
  obtain ⟨t, hcourse, htpc, htstack, hmem, -, hedi, hinput, hcalls⟩ :=
    puts_course (e := e) hpc hstack hstr hnz
  obtain ⟨u, htu, hcalls', hinput', hdoes⟩ := hnext t hcourse.reach htpc htstack hmem hedi
  refine ⟨u, ?_, by rw [hcalls', hcalls], hinput'.trans hinput, hdoes⟩
  rcases hcourse.reach.cases_next with rfl | ⟨v, hsv, hvt⟩
  · exact absurd (htpc.symm.trans hpc) hl
  · exact Relation.TransGen.head' hsv (hvt.trans htu)

/-- The same for one of the program's strings. -/
theorem does_print (s : Shell) (text : Text) (hintact : Intact e s.mem) (hl : l ≠ .puts)
    (hnz : ∀ b ∈ text.content, b ≠ 0)
    (hnext : ∀ t, Reaches (step e) (s.print e text l) t → t.pc = l → t.stack = s.stack →
      t.mem = s.mem → t.edi = s.edi → Leads e next t) :
    Does e (.write text.content next) (s.print e text l) :=
  does_puts rfl rfl hl (hintact text) hnz hnext

/-- The strings of the program have no NUL. -/
theorem text_nonzero (text : Text) : ∀ b ∈ text.content, b ≠ 0 := by
  have hall : ∀ text ∈ texts, text.content.all (· ≠ 0) = true := by decide +kernel
  simpa using hall text (mem_texts text)

/-- The invariant along a run. -/
theorem Inv.reaches (h : Inv e before s) (hreach : Reaches (Shell.step e) s t) :
    Inv e before t := by
  induction hreach with
  | refl => exact h
  | tail _ hstep ih => exact ih.step hstep

/-- The strings of the program stay in memory. -/
theorem Inv.intact (h : Inv e before s) (hbefore : Intact e before) : Intact e s.mem :=
  hbefore.congr fun x hx => h.1 x (.inl hx)

/-- The prompt. -/
theorem prompt_does (hpc : s.pc = .mainLoop) (hintact : Intact e s.mem) : Does e prompt s := by
  have hstep : step e s = some (s.print e .prompt .promptPrinted) := by rw [step, hpc]
  refine (Leads.step hstep rfl rfl (Does.leads ?_)).does_write
  refine does_print s .prompt hintact (by decide) (text_nonzero _) fun t _ htpc _ _ _ => ?_
  have hreset : step e t = some ({ t with edi := 0 }.goto .readLoop) := by rw [step, htpc]
  exact Leads.step hreset rfl rfl (Does.leads ⟨rfl, rfl, holdsAt_nil⟩)

/-- After a handler the prompt comes again. -/
theorem ret_leads (hpc : s.pc = .handlerRet) (hstack : s.stack = [.ret .mainLoop])
    (hintact : Intact e s.mem) : Leads e prompt s := by
  have hstep : step e s = some { s with stack := [], pc := .mainLoop } := by
    simp only [step, hpc, ret, hstack]
  have hprompt : Does e prompt { s with stack := [], pc := .mainLoop } := prompt_does rfl hintact
  exact Leads.step hstep rfl rfl hprompt.leads

/-- The message of a handler. -/
theorem say_does (text : Text) (hstack : s.stack = [.ret .mainLoop]) (hintact : Intact e s.mem) :
    Does e (say text) (s.print e text .handlerRet) :=
  does_print s text hintact (by decide) (text_nonzero text) fun _ _ htpc htstack hmem _ =>
    ret_leads htpc (htstack.trans hstack) (hmem ▸ hintact)

/-! ## The argument of a command -/

variable {suffix : List (BitVec 8)} {command : Command}

/-- What the invariant says where a handler is done. -/
theorem Inv.handling (h : Inv e before s) (hpc : s.pc = l)
    (hl : l ∈ [Label.echoDone, .notFound, .started, .handlerRet, .lsDone, .lsLoop, .openFile,
      .catReadLoop, .catDone, .execDo, .usage .cat, .usage .run, .usage .exec]) :
    s.stack = [.ret .mainLoop] := by
  have hhome := h.2
  rw [hpc] at hhome
  simp only [List.mem_cons, List.not_mem_nil, or_false] at hl
  rcases hl with rfl | rfl | rfl | rfl | rfl | rfl | rfl | rfl | rfl | rfl | rfl | rfl | rfl <;>
    exact hhome

/-- A command without the argument that it needs. -/
theorem missing_leads (hinv : Inv e before s) (hbefore : Intact e before)
    (hc : command ≠ .help ∧ command ≠ .ls) (hpc : s.pc = missing command) :
    Leads e (request command []) s := by
  have hintact := hinv.intact hbefore
  cases command with
  | help => exact absurd rfl hc.1
  | ls => exact absurd rfl hc.2
  | echo =>
      have hstep : step e s = some (s.print e .newline .handlerRet) := by rw [step, hpc]; rfl
      exact Leads.step hstep rfl rfl
        (say_does .newline (hinv.handling hpc (by decide)) hintact).leads
  | cat =>
      have hstep : step e s = some (s.print e .catUsage .handlerRet) := by rw [step, hpc]; rfl
      exact Leads.step hstep rfl rfl
        (say_does .catUsage (hinv.handling hpc (by decide)) hintact).leads
  | run =>
      have hstep : step e s = some (s.print e .runUsage .handlerRet) := by rw [step, hpc]; rfl
      exact Leads.step hstep rfl rfl
        (say_does .runUsage (hinv.handling hpc (by decide)) hintact).leads
  | exec =>
      have hstep : step e s = some (s.print e .execUsage .handlerRet) := by rw [step, hpc]; rfl
      exact Leads.step hstep rfl rfl
        (say_does .execUsage (hinv.handling hpc (by decide)) hintact).leads

/-- The line ends with the name of the command. -/
theorem skipName_end (c : Command) (hpc : s.pc = .skipName c)
    (hheld : HoldsAt s.mem (e.lineBuf + s.edi) (suffix ++ [0])) (hnz : ∀ b ∈ suffix, b ≠ 0)
    (hend : afterWord suffix = []) :
    ∃ t, Course e s t ∧ Keeps s t ∧ t.pc = missing c := by
  induction suffix generalizing s with
  | nil =>
      have hstep : step e s = some (s.skipName e c) := by rw [step, hpc]
      have hdone := hstep.trans (congrArg some (if_pos (holdsAt_cons.mp hheld).1))
      exact ⟨_, .one (by rw [hpc]; exact id) hdone, ⟨rfl, rfl, rfl⟩, rfl⟩
  | cons b suffix ih =>
      have hstep : step e s = some (s.skipName e c) := by rw [step, hpc]
      obtain ⟨hbyte, htail⟩ := holdsAt_cons.mp hheld
      rw [Nat.add_assoc] at htail
      have hline : s.lineByte e s.edi = b := hbyte
      have hspace : b ≠ 0x20#8 := by
        rintro rfl
        rw [afterWord, List.dropWhile_cons_of_neg (by decide)] at hend
        cases hend
      rw [afterWord, List.dropWhile_cons_of_pos (by simpa using hspace)] at hend
      unfold skipName at hstep
      rw [hline] at hstep
      have hgo := (hstep.trans (congrArg some (if_neg (hnz b (List.mem_cons_self ..))))).trans
        (congrArg some (if_neg hspace))
      obtain ⟨t, hcourse, hkeeps, htpc⟩ := ih
        (s := { s.setAl b with edi := s.edi + 1, pc := .skipName c }) rfl htail
        (fun d hd => hnz d (List.mem_cons_of_mem b hd)) hend
      exact ⟨t, .step (by rw [hpc]; exact id) hgo hcourse,
        ⟨hkeeps.mem, hkeeps.calls, hkeeps.input⟩, htpc⟩

/-- A command that takes an argument finds it, or that there is none. -/
theorem argument_reaches (c : Command) (hc : c ≠ .help ∧ c ≠ .ls) (hpc : s.pc = .handler c)
    (hheld : HoldsAt s.mem (e.lineBuf + s.esi) (suffix ++ [0])) (hnz : ∀ b ∈ suffix, b ≠ 0) :
    ∃ t, Reaches (step e) s t ∧ Keeps s t ∧
      if skipSpace (afterWord suffix) = [] then t.pc = missing c
      else t.pc = .argStart c ∧
        t.edi + (skipSpace (afterWord suffix)).length = s.esi + suffix.length ∧
        HoldsAt t.mem (e.lineBuf + t.edi) (skipSpace (afterWord suffix) ++ [0]) ∧
        t.al = t.mem (e.lineBuf + t.edi) := by
  by_cases harg : skipSpace (afterWord suffix) = []
  · simp only [if_pos harg]
    have hstep : step e s = some ({ s with edi := s.esi }.goto (.skipName c)) := by
      rw [step, hpc]
      cases c with
      | help => exact absurd rfl hc.1
      | ls => exact absurd rfl hc.2
      | cat | echo | run | exec => rfl
    by_cases hend : afterWord suffix = []
    · obtain ⟨t, hcourse, hkeeps, htpc⟩ := skipName_end (e := e) c
        (s := { s with edi := s.esi }.goto (.skipName c)) rfl hheld hnz hend
      exact ⟨t, .head hstep hcourse.reach, ⟨hkeeps.mem, hkeeps.calls, hkeeps.input⟩, htpc⟩
    · obtain ⟨t, hname, htkeeps, htpc, -, ht⟩ := skipName_course (e := e) c
        (s := { s with edi := s.esi }.goto (.skipName c)) rfl hheld hnz hend
      obtain ⟨rest, hrest⟩ := afterWord_cons hend
      rw [hrest] at ht harg
      have hskip : skipSpace rest = [] :=
        (List.dropWhile_cons_of_pos (by decide)).symm.trans harg
      have hspace : step e t = some ({ t with edi := t.edi + 1 }.goto (.skipSp c)) := by
        rw [step, htpc]
      have htail := (holdsAt_cons.mp ht).2
      rw [Nat.add_assoc] at htail
      obtain ⟨u, hspaces, hukeeps, hupc, -, hu, hal⟩ := skipSp_course (e := e) c
        (s := { t with edi := t.edi + 1 }.goto (.skipSp c)) rfl htail
      rw [hskip] at hu
      have hzero : u.al = 0 := hal.trans (holdsAt_cons.mp hu).1
      have hnone : step e u = some (u.goto (missing c)) := by
        rw [step, hupc]
        exact congrArg some (if_pos hzero)
      refine ⟨_, .head hstep (hname.reach.trans (.head hspace (hspaces.reach.tail hnone))), ?_, rfl⟩
      exact ⟨hukeeps.mem.trans htkeeps.mem, hukeeps.calls.trans htkeeps.calls,
        hukeeps.input.trans htkeeps.input⟩
  · simp only [if_neg harg]
    obtain ⟨s', t, hstep, hcourse, hkeeps, h⟩ := argument_course (e := e) c hc hpc hheld hnz harg
    exact ⟨t, .head hstep hcourse.reach, hkeeps, h⟩

/-- The copy of a path ends with the word or with the buffer. -/
theorem copyPath_cut (k : Copy) {z : BitVec 8} (hpc : s.pc = .copyPath k)
    (hheld : HoldsAt s.mem (s.esi + s.ecx) (word ++ [z])) (hstop : k.stops z)
    (hword : ∀ b ∈ word, ¬ k.stops b) (hroom : s.ecx < k.limit)
    (hbehind : s.esi + s.ecx + word.length < s.edi) :
    ∃ t, Course e s t ∧ t.pc = .copyDone k ∧ t.calls = s.calls ∧ t.input = s.input ∧
      t.edi = s.edi ∧ t.ecx = s.ecx + (word.take (k.limit - s.ecx)).length ∧
      HoldsAt t.mem (s.edi + s.ecx) (word.take (k.limit - s.ecx)) ∧
      ∀ x < s.edi + s.ecx, t.mem x = s.mem x := by
  induction word generalizing s with
  | nil =>
      have hstep : step e s = some (s.copyPath k) := by rw [step, hpc]
      have hz : s.mem (s.esi + s.ecx) = z := (holdsAt_cons.mp hheld).1
      have hdone := hstep.trans (congrArg some (if_pos (by rw [hz]; exact hstop)))
      rw [List.take_nil]
      exact ⟨_, .one (by rw [hpc]; exact id) hdone, rfl, rfl, rfl, rfl, rfl, holdsAt_nil,
        fun _ _ => rfl⟩
  | cons b word ih =>
      have hentry : ¬ s.pc.IsEntry := by rw [hpc]; exact id
      have hstep : step e s = some (s.copyPath k) := by rw [step, hpc]
      obtain ⟨hb, htail⟩ := holdsAt_cons.mp hheld
      have hsource : HoldsAt s.mem (s.esi + (s.ecx + 1)) (word ++ [z]) := by
        rw [← Nat.add_assoc]
        exact htail
      rw [List.length_cons] at hbehind
      unfold copyPath at hstep
      rw [hb] at hstep
      have hnext := hstep.trans (congrArg some (if_neg (hword b (List.mem_cons_self ..))))
      have htake : (b :: word).take (k.limit - s.ecx) =
          b :: word.take (k.limit - (s.ecx + 1)) := by
        rw [show k.limit - s.ecx = k.limit - (s.ecx + 1) + 1 by omega, List.take_succ_cons]
      rw [htake]
      by_cases hfull : k.limit ≤ s.ecx + 1
      · -- the buffer is full
        rw [show k.limit - (s.ecx + 1) = 0 by omega, List.take_zero]
        exact ⟨_, .one hentry (hnext.trans (congrArg some (if_pos hfull))), rfl, rfl, rfl, rfl, rfl,
          holdsAt_singleton.mpr (Function.update_self ..),
          fun x hx => store8_other (Nat.ne_of_lt hx)⟩
      · have hgo := hnext.trans (congrArg some (if_neg hfull))
        have hkept : HoldsAt (s.mem.store8 (s.edi + s.ecx) b) (s.esi + (s.ecx + 1))
            (word ++ [z]) := by
          refine hsource.update (.inr ?_) b
          rw [List.length_append, List.length_singleton]
          omega
        obtain ⟨t, hcourse, htpc, hcalls, hinput, hedi, hecx, hcopied, hframe⟩ := ih
          (s := { s.setAl b with
            mem := s.mem.store8 (s.edi + s.ecx) b, ecx := s.ecx + 1, pc := .copyPath k })
          rfl hkept (fun c hc => hword c (List.mem_cons_of_mem b hc))
          (Nat.not_le.mp hfull) (by show s.esi + (s.ecx + 1) + _ < s.edi; omega)
        dsimp only at hecx hcopied hframe
        refine ⟨t, .step hentry hgo hcourse, htpc, hcalls, hinput, hedi, ?_,
          holdsAt_cons.mpr ⟨?_, hcopied⟩, fun x hx => ?_⟩
        · rw [hecx, List.length_cons]
          omega
        · rw [hframe _ (by show s.edi + s.ecx < s.edi + (s.ecx + 1); omega)]
          exact Function.update_self ..
        · rw [hframe x (by show x < s.edi + (s.ecx + 1); omega)]
          exact store8_other (by omega)

/-- From the copy of a word to the path in its buffer. -/
theorem copied_reaches (k : Copy) (word start : List (BitVec 8)) {z : BitVec 8}
    (hpc : s.pc = .copyPath k) (hecx : s.ecx = 0) (hheld : HoldsAt s.mem s.esi (word ++ [z]))
    (hstop : k.stops z) (hword : ∀ b ∈ word, ¬ k.stops b)
    (hbehind : s.esi + word.length < e.nameBuf) (hedi : s.edi = e.nameBuf + start.length)
    (hstart : HoldsAt s.mem e.nameBuf start) :
    ∃ t, Reaches (step e) s t ∧ t.pc = .copyDone k ∧ t.calls = s.calls ∧ t.input = s.input ∧
      HoldsAt (t.mem.store8 (t.edi + t.ecx) 0) e.nameBuf (start ++ word.take k.limit ++ [0]) := by
  obtain ⟨t, hcourse, htpc, hcalls, hinput, htedi, htecx, hcopied, hframe⟩ :=
    copyPath_cut (e := e) k hpc (by rw [hecx]; exact hheld) hstop hword
      (by rw [hecx]; cases k <;> decide) (by omega)
  rw [hecx, Nat.sub_zero] at htecx hcopied
  rw [hecx] at hframe
  have hpath : HoldsAt t.mem e.nameBuf (start ++ word.take k.limit) := by
    refine holdsAt_append.mpr ⟨hstart.congr fun x _ hx => hframe x (by omega), ?_⟩
    rw [← hedi]
    exact hcopied
  have hend : t.edi + t.ecx = e.nameBuf + (start ++ word.take k.limit).length := by
    rw [htedi, htecx, hedi, List.length_append]
    omega
  refine ⟨t, hcourse.reach, htpc, hcalls, hinput, ?_⟩
  rw [hend]
  exact hpath.snoc 0

/-! ## The handlers -/

/-- `echo` writes the rest of the line, and a new line. -/
theorem echo_leads (hinv : Inv e before s) (hbefore : Intact e before)
    (hpc : s.pc = .argStart .echo) (hal : s.al ≠ 0)
    (hheld : HoldsAt s.mem (e.lineBuf + s.edi) (str ++ [0])) (hnz : ∀ b ∈ str, b ≠ 0) :
    Leads e (.write str (say .newline)) s := by
  have hstack : s.stack = [.ret .mainLoop] := by
    have hhome := hinv.2
    rw [hpc] at hhome
    exact hhome.1
  have hstep : step e s = some ({ s with esi := e.lineBuf + s.edi }.callTo .puts .echoDone) := by
    rw [step, hpc]
    exact congrArg some (if_neg hal)
  have hputs : Does e (.write str (say .newline))
      ({ s with esi := e.lineBuf + s.edi }.callTo .puts .echoDone) := by
    refine does_puts rfl rfl (by decide) hheld hnz fun t hreach htpc htstack hmem _ => ?_
    have hdone : step e t = some (t.print e .newline .handlerRet) := by rw [step, htpc]
    have htinv := (hinv.step hstep).reaches hreach
    exact Leads.step hdone rfl rfl
      (say_does .newline (htstack.trans hstack) (htinv.intact hbefore)).leads
  exact Leads.step hstep rfl rfl hputs.leads

/-- The first byte of the argument is in `al`. -/
theorem al_ne_zero {rest : List (BitVec 8)} (hne : rest ≠ [])
    (hheld : HoldsAt s.mem (e.lineBuf + s.edi) (rest ++ [0])) (hnz : ∀ b ∈ rest, b ≠ 0)
    (hal : s.al = s.mem (e.lineBuf + s.edi)) : s.al ≠ 0 := by
  obtain ⟨b, tail, rfl⟩ := List.exists_cons_of_ne_nil hne
  rw [hal, (holdsAt_cons.mp hheld).1]
  exact hnz b (List.mem_cons_self ..)

/-- The word that a string begins with is held where the string is. -/
theorem holdsAt_wordOf {m : Memory} {p : Nat} {rest : List (BitVec 8)}
    (hheld : HoldsAt m p (rest ++ [0])) : HoldsAt m p (wordOf rest) := by
  have hsplit : rest = wordOf rest ++ afterWord rest := List.takeWhile_append_dropWhile.symm
  rw [hsplit, List.append_assoc] at hheld
  exact (holdsAt_append.mp hheld).1

/-- `run` passes on the word it is given. -/
theorem run_leads {rest : List (BitVec 8)} (hpc : s.pc = .argStart .run) (hal : s.al ≠ 0)
    (hheld : HoldsAt s.mem (e.lineBuf + s.edi) (rest ++ [0])) (hnz : ∀ b ∈ rest, b ≠ 0)
    (hlength : rest.length ≤ 127) : Leads e (.run (wordOf rest)) s := by
  have hfind : step e s = some ({ s with ecx := s.edi }.goto (.findEnd .run)) := by
    rw [step, hpc]
    exact congrArg some (if_neg hal)
  obtain ⟨t, hend, hkeeps, htpc, htedi, htecx⟩ := findEnd_course (e := e) .run
    (s := { s with ecx := s.edi }.goto (.findEnd .run)) rfl hheld hnz
  dsimp only [goto] at htedi htecx
  refine Leads.step hfind rfl rfl
    (Leads.course hend hkeeps (Does.leads ⟨htpc, ⟨fun b hb => ?_, ?_⟩, ?_⟩))
  · exact (wordOf_chars hnz b hb).1
  · have hle := wordOf_length rest
    omega
  · rw [htecx, htedi, ← Nat.add_assoc, hkeeps.mem]
    exact (holdsAt_wordOf hheld).snoc 0

/-- The path of a word is a C string. -/
theorem cstring_path {rest : List (BitVec 8)} (hnz : ∀ b ∈ rest, b ≠ 0) (n : Nat) (hn : n ≤ 62) :
    CString (0x2F#8 :: (wordOf rest).take n) := by
  refine ⟨fun b hb => ?_, ?_⟩
  · rcases List.mem_cons.mp hb with rfl | hb
    · decide
    · exact (wordOf_chars hnz b (List.mem_of_mem_take hb)).1
  · have hle := List.length_take_le n (wordOf rest)
    rw [List.length_cons]
    omega

/-- `cat` opens the file that it is given. -/
theorem cat_leads {rest : List (BitVec 8)} (hpc : s.pc = .argStart .cat) (hal : s.al ≠ 0)
    (hheld : HoldsAt s.mem (e.lineBuf + s.edi) (rest ++ [0])) (hnz : ∀ b ∈ rest, b ≠ 0)
    (hlength : s.edi + rest.length ≤ 127) :
    Leads e (.openFile (0x2F#8 :: (wordOf rest).take 62)) s := by
  have hle := wordOf_length rest
  have hfind : step e s = some ({ s with ebx := e.lineBuf + s.edi, ecx := s.edi }.goto
      (.findEnd .cat)) := by
    rw [step, hpc]
    exact congrArg some (if_neg hal)
  obtain ⟨t, hend, hkeeps, htpc, htedi, htecx⟩ := findEnd_course (e := e) .cat
    (s := { s with ebx := e.lineBuf + s.edi, ecx := s.edi }.goto (.findEnd .cat)) rfl hheld hnz
  dsimp only [goto] at htedi htecx
  have hmem : t.mem = s.mem := hkeeps.mem
  have hcopy : step e t = some (({ t with
      mem := (t.mem.store8 (e.lineBuf + t.ecx) 0).store8 e.nameBuf 0x2F#8 }).startCopy e .cat
        (e.nameBuf + 1)) := by
    rw [step, htpc]
    rfl
  have hsource : HoldsAt ((t.mem.store8 (e.lineBuf + t.ecx) 0).store8 e.nameBuf 0x2F#8)
      (e.lineBuf + t.edi) (wordOf rest ++ [0]) := by
    rw [hmem, htecx, htedi, ← Nat.add_assoc]
    refine ((holdsAt_wordOf hheld).snoc 0).update (.inr ?_) _
    rw [List.length_append, List.length_singleton, Env.nameBuf]
    omega
  obtain ⟨u, hcopied, hupc, hucalls, huinput, hpath⟩ := copied_reaches (e := e) .cat (wordOf rest)
    [0x2F#8] (z := 0)
    (s := ({ t with mem := (t.mem.store8 (e.lineBuf + t.ecx) 0).store8 e.nameBuf 0x2F#8 }).startCopy
      e .cat (e.nameBuf + 1)) rfl rfl hsource rfl
    (fun c hc => by simpa [Copy.stops] using (wordOf_chars hnz c hc).1)
    (by
      show e.lineBuf + t.edi + _ < e.nameBuf
      rw [htedi, Env.nameBuf]
      omega)
    rfl (holdsAt_singleton.mpr (Function.update_self ..))
  have hopen : step e u = some ({ u with mem := u.mem.store8 (u.edi + u.ecx) 0 }.goto .openFile) := by
    rw [step, hupc]
    rfl
  have hdoes : Does e (.openFile (0x2F#8 :: (wordOf rest).take 62))
      ({ u with mem := u.mem.store8 (u.edi + u.ecx) 0 }.goto .openFile) :=
    ⟨rfl, hpath, cstring_path hnz 62 (Nat.le_refl 62)⟩
  refine Leads.step hfind rfl rfl (Leads.course hend hkeeps (Leads.step hcopy rfl rfl ?_))
  exact Leads.reach hcopied hucalls huinput (Leads.step hopen rfl rfl hdoes.leads)

/-- `exec` loads the file that it is given. -/
theorem exec_leads {rest : List (BitVec 8)} (hpc : s.pc = .argStart .exec) (hal : s.al ≠ 0)
    (hfirst : s.al = s.mem (e.lineBuf + s.edi))
    (hheld : HoldsAt s.mem (e.lineBuf + s.edi) (rest ++ [0])) (hnz : ∀ b ∈ rest, b ≠ 0)
    (hne : skipSpace rest = rest) (hcons : rest ≠ []) (hlength : s.edi + rest.length ≤ 127) :
    Leads e (.exec (execJobPath (wordOf rest))) s := by
  have hle := wordOf_length rest
  have hchars := wordOf_chars hnz
  obtain ⟨z, tail, hsplit, hz⟩ := word_end rest
  have hsource : HoldsAt s.mem (e.lineBuf + s.edi) (wordOf rest ++ [z]) := by
    rw [hsplit, ← List.singleton_append, ← List.append_assoc] at hheld
    exact (holdsAt_append.mp hheld).1
  have hstart : step e s = some (s.argStart e .exec) := by rw [step, hpc]
  have hgo := hstart.trans (congrArg some (if_neg hal))
  -- the word begins with the byte in `al`
  obtain ⟨b, more, rfl⟩ := List.exists_cons_of_ne_nil hcons
  have hb : s.al = b := hfirst.trans (holdsAt_cons.mp hheld).1
  have hhead : (wordOf (b :: more)).head? = some b := by
    rw [wordOf, List.takeWhile_cons_of_pos (by simpa using skipSpace_head hne)]
    rfl
  have hstop : ∀ k : Copy, k ≠ .cat → k.stops z = true := by
    intro k hk
    cases k with
    | cat => exact absurd rfl hk
    | relative | absolute => rcases hz with rfl | rfl <;> rfl
  have hword : ∀ k : Copy, ∀ c ∈ wordOf (b :: more), ¬ k.stops c = true := by
    intro k c hc
    cases k with
    | cat => simpa [Copy.stops] using (hchars c hc).1
    | relative | absolute => simpa [Copy.stops] using hchars c hc
  -- the end of both copies
  have hend : ∀ (k : Copy) (u : Shell) (path : List (BitVec 8)), k ≠ .cat → u.pc = .copyDone k →
      HoldsAt (u.mem.store8 (u.edi + u.ecx) 0) e.nameBuf (path ++ [0]) → CString path →
      Leads e (.exec path) u := by
    intro k u path hk hupc hpath hstring
    have hstep : step e u = some ({ u with
        mem := u.mem.store8 (u.edi + u.ecx) 0, ebx := e.nameBuf }.goto .execDo) := by
      rw [step, hupc]
      cases k with
      | cat => exact absurd rfl hk
      | relative | absolute => rfl
    have hdoes : Does e (.exec path) ({ u with
        mem := u.mem.store8 (u.edi + u.ecx) 0, ebx := e.nameBuf }.goto .execDo) :=
      ⟨rfl, rfl, hstring, hpath⟩
    exact Leads.step hstep rfl rfl hdoes.leads
  by_cases habsolute : b = 0x2F#8
  · have hpath : execJobPath (wordOf (b :: more)) = (wordOf (b :: more)).take 63 := by
      rw [execJobPath, hhead, if_pos (congrArg some habsolute)]
    have hcopy := hgo.trans (congrArg some (if_pos (by rw [hb, habsolute])))
    obtain ⟨u, hcopied, hupc, hucalls, huinput, hheld'⟩ := copied_reaches (e := e) .absolute
      (wordOf (b :: more)) [] (z := z) (s := s.startCopy e .absolute e.nameBuf) rfl rfl hsource
      (hstop _ (by decide)) (hword _)
      (by
        show e.lineBuf + s.edi + _ < e.nameBuf
        rw [Env.nameBuf]
        omega)
      rfl holdsAt_nil
    rw [hpath]
    refine Leads.step hcopy rfl rfl (Leads.reach hcopied hucalls huinput ?_)
    refine hend .absolute u _ (by decide) hupc hheld' ⟨fun c hc => ?_, ?_⟩
    · exact (hchars c (List.mem_of_mem_take hc)).1
    · have hcut := List.length_take_le 63 (wordOf (b :: more))
      omega
  · have hpath : execJobPath (wordOf (b :: more)) = 0x2F#8 :: (wordOf (b :: more)).take 62 := by
      rw [execJobPath, hhead, if_neg fun heq => habsolute (Option.some.inj heq)]
    have hcopy := hgo.trans (congrArg some (if_neg (by rw [hb]; exact habsolute)))
    obtain ⟨u, hcopied, hupc, hucalls, huinput, hheld'⟩ := copied_reaches (e := e) .relative
      (wordOf (b :: more)) [0x2F#8] (z := z)
      (s := ({ s with mem := s.mem.store8 e.nameBuf 0x2F#8 }).startCopy e .relative (e.nameBuf + 1))
      rfl rfl
      (hsource.update (.inr (by
        rw [List.length_append, List.length_singleton, Env.nameBuf]
        omega)) _)
      (hstop _ (by decide)) (hword _)
      (by
        show e.lineBuf + s.edi + _ < e.nameBuf
        rw [Env.nameBuf]
        omega)
      rfl (holdsAt_singleton.mpr (Function.update_self ..))
    rw [hpath]
    refine Leads.step hcopy rfl rfl (Leads.reach hcopied hucalls huinput ?_)
    exact hend .relative u _ (by decide) hupc hheld' (cstring_path hnz 62 (Nat.le_refl 62))

/-- A handler does what its command asks for. -/
theorem handler_leads (hinv : Inv e before s) (hbefore : Intact e before) (c : Command)
    (hpc : s.pc = .handler c) (hheld : HoldsAt s.mem (e.lineBuf + s.esi) (str ++ [0]))
    (hnz : ∀ b ∈ str, b ≠ 0) (hlength : s.esi + str.length ≤ 127) :
    Leads e (request c (skipSpace (afterWord str))) s := by
  have hstack : s.stack = [.ret .mainLoop] := by
    have hhome := hinv.2
    rw [hpc] at hhome
    exact hhome.1
  have hargument : c ≠ .help ∧ c ≠ .ls → Leads e (request c (skipSpace (afterWord str))) s := by
    intro hc
    obtain ⟨t, hreach, hkeeps, ht⟩ := argument_reaches (e := e) c hc hpc hheld hnz
    have htinv := hinv.reaches hreach
    refine Leads.reach hreach hkeeps.calls hkeeps.input ?_
    have hrestnz : ∀ b ∈ skipSpace (afterWord str), b ≠ 0 := fun b hb =>
      hnz b ((List.dropWhile_sublist _).subset ((List.dropWhile_sublist _).subset hb))
    have hskip : skipSpace (skipSpace (afterWord str)) = skipSpace (afterWord str) :=
      List.dropWhile_idempotent ..
    generalize skipSpace (afterWord str) = rest at ht hrestnz hskip ⊢
    by_cases hnone : rest = []
    · rw [if_pos hnone] at ht
      rw [hnone]
      exact missing_leads htinv hbefore hc ht
    · rw [if_neg hnone] at ht
      obtain ⟨htpc, hedi, htheld, hal⟩ := ht
      have hzero := al_ne_zero hnone htheld hrestnz hal
      cases c with
      | help => exact absurd rfl hc.1
      | ls => exact absurd rfl hc.2
      | echo =>
          rw [request, if_neg hnone]
          exact echo_leads htinv hbefore htpc hzero htheld hrestnz
      | cat =>
          rw [request, if_neg hnone]
          exact cat_leads htpc hzero htheld hrestnz (by omega)
      | run =>
          rw [request, if_neg hnone]
          exact run_leads htpc hzero htheld hrestnz (by omega)
      | exec =>
          rw [request, if_neg hnone]
          exact exec_leads htpc hzero hal htheld hrestnz hskip hnone (by omega)
  cases c with
  | help =>
      have hstep : step e s = some (s.print e .help .handlerRet) := by rw [step, hpc]; rfl
      exact Leads.step hstep rfl rfl (say_does .help hstack (hinv.intact hbefore)).leads
  | ls =>
      have hstep : step e s = some ({ s with edi := 0 }.goto .lsLoop) := by rw [step, hpc]; rfl
      have hdoes : Does e (.list 0) ({ s with edi := 0 }.goto .lsLoop) := ⟨rfl, rfl⟩
      exact Leads.step hstep rfl rfl hdoes.leads
  | cat | echo | run | exec => exact hargument ⟨by decide, by decide⟩

/-- The tests for the commands. -/
theorem tests_leads (hinv : Inv e before s) (hbefore : Intact e before)
    (hpc : s.pc = .tryCommand .help) (hstack : s.stack = [])
    (hheld : HoldsAt s.mem (e.lineBuf + s.esi) (str ++ [0])) (hnz : ∀ b ∈ str, b ≠ 0)
    (hlength : s.esi + str.length ≤ 127) : Leads e (interpretText str) s := by
  have horder : TestedInOrder commands := ⟨rfl, rfl, rfl, rfl, rfl, rfl⟩
  obtain ⟨t, hcourse, hkeeps, hesi, htpc, -⟩ :=
    tests_course horder hpc hstack (hinv.intact hbefore) hheld hnz
  have htinv := hinv.reaches hcourse.reach
  refine Leads.course hcourse hkeeps ?_
  unfold wordLabel at htpc
  unfold interpretText
  cases hfind : commands.find? fun c => commandName c = wordOf str with
  | some c =>
      rw [show Command.help :: [.ls, .cat, .echo, .run, .exec] = commands from rfl, hfind] at htpc
      exact handler_leads htinv hbefore c htpc (by rw [hkeeps.mem, hesi]; exact hheld) hnz
        (by rw [hesi]; exact hlength)
  | none =>
      rw [show Command.help :: [.ls, .cat, .echo, .run, .exec] = commands from rfl, hfind] at htpc
      have hstep : step e t = some (t.print e .unknown .mainLoop) := by rw [step, htpc]
      have hsay : Does e (say .unknown) (t.print e .unknown .mainLoop) :=
        does_print t .unknown (htinv.intact hbefore) (by decide) (text_nonzero _)
          fun u hreach hupc _ _ _ => (prompt_does hupc
            (((htinv.step hstep).reaches hreach).intact hbefore)).leads
      exact Leads.step hstep rfl rfl hsay.leads

/-- A line is interpreted up to its first NUL. -/
theorem holdsAt_takeWhile {m : Memory} {p : Nat} (hheld : HoldsAt m p (line ++ [0])) :
    HoldsAt m p (line.takeWhile (· ≠ 0) ++ [0]) := by
  induction line generalizing p with
  | nil => exact hheld
  | cons b line ih =>
      obtain ⟨hb, htail⟩ := holdsAt_cons.mp hheld
      by_cases hzero : b = 0
      · rw [List.takeWhile_cons_of_neg (by simpa using hzero)]
        exact holdsAt_singleton.mpr (hb.trans hzero)
      · rw [List.takeWhile_cons_of_pos (by simpa using hzero)]
        exact holdsAt_cons.mpr ⟨hb, ih htail⟩

/-- A line that has been typed is interpreted. -/
theorem interpret_leads (hinv : Inv e before s) (hbefore : Intact e before)
    (hpc : s.pc = .newlinePrinted) (hedi : s.edi = line.length)
    (hheld : HoldsAt s.mem e.lineBuf (line ++ [0])) : Leads e (interpret line) s := by
  have hhome := hinv.2
  rw [hpc] at hhome
  obtain ⟨hstack, hsize, -⟩ := hhome
  have hstep : step e s = some s.newlinePrinted := by rw [step, hpc]
  unfold newlinePrinted at hstep
  unfold interpret
  by_cases hempty : line = []
  · have hend := hstep.trans (congrArg some (if_pos (by rw [hedi, hempty]; rfl)))
    have hskip : skipSpace line = [] := by rw [hempty]; rfl
    rw [if_pos hskip]
    have hprompt : Does e prompt (s.goto .mainLoop) := prompt_does rfl (hinv.intact hbefore)
    exact Leads.step hend rfl rfl hprompt.leads
  have hpos : 0 < line.length := List.length_pos_of_ne_nil hempty
  have hskip := hstep.trans (congrArg some (if_neg (by omega)))
  obtain ⟨t, hcourse, hkeeps, htstack, hend⟩ := skipSpaces_course (e := e)
    (s := { s with esi := 0, pc := .skipSpaces }) rfl hempty
    (by show 0 + line.length = s.edi; omega)
    (by show HoldsAt s.mem (e.lineBuf + 0) _; rw [Nat.add_zero]; exact hheld)
  have htinv := (hinv.step hskip).reaches hcourse.reach
  refine Leads.step hskip rfl rfl (Leads.course hcourse hkeeps ?_)
  by_cases hblank : skipSpace line = []
  · rw [if_pos hblank] at hend ⊢
    exact (prompt_does hend (htinv.intact hbefore)).leads
  · rw [if_neg hblank] at hend ⊢
    obtain ⟨htpc, hesi, htheld⟩ := hend
    have hesi' : t.esi + (skipSpace line).length = s.edi := hesi
    have hle : ((skipSpace line).takeWhile (· ≠ 0)).length ≤ (skipSpace line).length :=
      (List.takeWhile_sublist _).length_le
    refine tests_leads htinv hbefore htpc (htstack.trans hstack) (holdsAt_takeWhile htheld) ?_
      (by omega)
    intro b hb
    simpa using List.all_eq_true.mp List.all_takeWhile b hb

/-! ## The line editor -/

/-- A byte is applied to the line. -/
theorem typed_leads (hinv : Inv e before s) (hbefore : Intact e before) {b : BitVec 8}
    (hpc : s.pc = .gotChar) (heax : s.eax = b.toNat) (hedi : s.edi = line.length)
    (hheld : HoldsAt s.mem e.lineBuf line) : Leads e (typed line b) s := by
  have hhome := hinv.2
  rw [hpc] at hhome
  obtain ⟨hstack, hsize⟩ := hhome
  have hstep : step e s = some (s.gotChar e) := by rw [step, hpc]
  rw [gotChar_eq heax] at hstep
  have hpoll : Does e (.poll line) (s.goto .readLoop) := ⟨rfl, hedi, hheld⟩
  unfold typed
  by_cases hnewline : b = 0x0A#8
  · rw [if_pos hnewline] at hstep ⊢
    have hexecute : step e (s.goto .execute) = some ((s.goto .execute).execute e) := rfl
    have hinv' := (hinv.step hstep).step hexecute
    refine Leads.step hstep rfl rfl (Leads.step hexecute rfl rfl (Does.leads ?_))
    refine does_print _ .newline (hinv'.intact hbefore) (by decide) (text_nonzero _)
      fun t hreach htpc _ hmem htedi => ?_
    have htinv := hinv'.reaches hreach
    refine interpret_leads htinv hbefore htpc (htedi.trans hedi) ?_
    rw [hmem]
    show HoldsAt (s.mem.store8 (e.lineBuf + s.edi) 0) _ _
    rw [hedi]
    exact hheld.snoc 0
  rw [if_neg hnewline] at hstep ⊢
  by_cases hreturn : b = 0x0D#8
  · rw [if_pos hreturn] at hstep ⊢
    exact Leads.step hstep rfl rfl hpoll.leads
  rw [if_neg hreturn] at hstep ⊢
  by_cases herase : b = 0x08#8 ∨ b = 0x7F#8
  · rw [if_pos herase] at hstep ⊢
    have hback : step e (s.goto .backspace) = some ((s.goto .backspace).backspace e) := rfl
    unfold backspace at hback
    by_cases hempty : line = []
    · rw [if_pos hempty]
      have hzero : (s.goto .backspace).edi = 0 := by
        show s.edi = 0
        rw [hedi, hempty]
        rfl
      exact Leads.step hstep rfl rfl (Leads.step (hback.trans (congrArg some (if_pos hzero))) rfl rfl
        (Does.leads hpoll))
    · rw [if_neg hempty]
      have hpos := List.length_pos_of_ne_nil hempty
      have hne : (s.goto .backspace).edi ≠ 0 := by
        show s.edi ≠ 0
        omega
      refine Leads.step hstep rfl rfl (Does.leads ?_)
      refine ⟨_, .single (hback.trans (congrArg some (if_neg hne))), rfl, rfl, rfl, ?_, ?_⟩
      · show s.edi - 1 = _
        rw [hedi, List.length_dropLast]
      · intro j hj
        rw [List.getElem_dropLast]
        exact hheld j (by rw [List.length_dropLast] at hj; omega)
  · rw [if_neg herase] at hstep ⊢
    by_cases hroom : line.length < 127
    · rw [if_neg (by omega)] at hstep
      rw [if_pos hroom]
      have hdoes : Does e (.write [b] (.poll (line ++ [b]))) s := by
        refine ⟨_, .single hstep, rfl, rfl, rfl, ?_, ?_⟩
        · show s.edi + 1 = _
          rw [hedi, List.length_append, List.length_singleton]
        · show HoldsAt (s.mem.store8 (e.lineBuf + s.edi) b) _ _
          rw [hedi]
          exact hheld.snoc b
      exact hdoes.leads
    · rw [if_pos (by omega)] at hstep
      rw [if_neg hroom]
      exact Leads.step hstep rfl rfl hpoll.leads

end Shell

end Kumo
