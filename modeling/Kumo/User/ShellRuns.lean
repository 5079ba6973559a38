import Kumo.User.ShellPath
import Mathlib.Data.List.TakeWhile

/-!
# Every line of the shell

The shell from its start on. Whatever the kernel answers and whatever is typed, the shell writes to
its own buffers only, so the names of the commands stay as they are, and at the prompt its
stack is empty. So the line editor, the dispatch and the paths are the same for every line.
-/

namespace Kumo

namespace Shell

open Memory Orbit

variable {e : Env} {s t : Shell} {l : Label} {line : List (BitVec 8)}

/-- The shell as it is started. -/
structure Loaded (e : Env) (s : Shell) : Prop where
  pc : s.pc = .start
  stack : s.stack = []
  intact : Intact e s.mem

/-- The shell at some time of a run. -/
def Reachable (e : Env) (s : Shell) : Prop := ∃ s₀, Loaded e s₀ ∧ Reach (step e) s₀ s

/-- Nothing but the buffers has changed. -/
def Outside (e : Env) (before m : Memory) : Prop :=
  ∀ x, x < e.lineBuf ∨ e.fdSave + 4 ≤ x → m x = before x

/-- The line buffer has a NUL at the index `i` or after it. -/
def LineEnds (e : Env) (m : Memory) (i : Nat) : Prop :=
  ∃ n, i ≤ n ∧ n ≤ 127 ∧ m (e.lineBuf + n) = 0

/-- What holds at a label outside `puts` and `strcmp_word`. -/
def Home (e : Env) (s : Shell) : Label → Prop
  | .start | .mainLoop | .promptPrinted | .unknown => s.stack = []
  | .readLoop | .gotChar | .backspace | .execute => s.stack = [] ∧ s.edi ≤ 127
  | .newlinePrinted => s.stack = [] ∧ s.edi ≤ 127 ∧ s.mem (e.lineBuf + s.edi) = 0
  | .skipSpaces | .tryCommand _ | .compared _ =>
      s.stack = [] ∧ s.edi ≤ 127 ∧ s.mem (e.lineBuf + s.edi) = 0 ∧ s.esi ≤ s.edi
  | .handler _ => s.stack = [.ret .mainLoop] ∧ LineEnds e s.mem s.esi
  | .lsIndented | .lsNamed | .lsPrinted => ∃ w, s.stack = [.word w, .ret .mainLoop]
  | .skipName _ | .skipSp _ | .argStart _ =>
      s.stack = [.ret .mainLoop] ∧ LineEnds e s.mem s.edi
  | .foundSpace _ => s.stack = [.ret .mainLoop] ∧ LineEnds e s.mem (s.edi + 1)
  | .findEnd _ | .foundEnd _ => s.stack = [.ret .mainLoop] ∧ LineEnds e s.mem s.ecx
  | .copyPath k =>
      s.stack = [.ret .mainLoop] ∧ e.nameBuf ≤ s.edi ∧ s.edi + k.limit < e.catBuf ∧ s.ecx < k.limit
  | .copyDone _ => s.stack = [.ret .mainLoop] ∧ e.nameBuf ≤ s.edi ∧ s.edi + s.ecx < e.catBuf
  | .lsLoop | .lsDone | .openFile | .catReadLoop | .catDone | .execDo | .notFound | .started
  | .usage _ | .echoDone | .handlerRet => s.stack = [.ret .mainLoop]
  | .puts | .putsLenLoop | .putsGo | .strcmpWord | .cmpLoop | .checkEnd | .noMatch | .isMatch
  | .strcmpDone => False

/-- The labels that `puts` returns to. -/
def PutsReturns : Label → Prop
  | .mainLoop | .promptPrinted | .newlinePrinted | .lsIndented | .lsNamed | .lsPrinted
  | .echoDone | .handlerRet => True
  | _ => False

/-- What holds at every label: nothing but the buffers has changed, and a function returns to a label
where what holds there holds. -/
def Inv (e : Env) (before : Memory) (s : Shell) : Prop :=
  Outside e before s.mem ∧
    match s.pc with
    | .puts => ∃ l rest, s.stack = .ret l :: rest ∧ PutsReturns l ∧ Home e { s with stack := rest } l
    | .putsLenLoop | .putsGo =>
        ∃ w l rest, s.stack = .word w :: .ret l :: rest ∧ PutsReturns l ∧
          Home e { s with stack := rest } l
    | .strcmpWord =>
        ∃ c, s.stack = [.ret (.compared c)] ∧ Home e { s with stack := [] } (.compared c)
    | .cmpLoop | .checkEnd | .noMatch | .isMatch | .strcmpDone =>
        ∃ w c, s.stack = [.word w, .ret (.compared c)] ∧
          Home e { s with stack := [], esi := w } (.compared c)
    | l => Home e s l

variable {before : Memory}

/-- What holds where `puts` returns to is about the stack, the line and `edi`. -/
theorem Home.congr (h : Home e s l) (hl : PutsReturns l) (hstack : t.stack = s.stack)
    (hmem : t.mem = s.mem) (hedi : t.edi = s.edi) : Home e t l := by
  cases l with
  | mainLoop | promptPrinted | echoDone | handlerRet => exact hstack.trans h
  | newlinePrinted => exact ⟨hstack.trans h.1, hedi ▸ h.2.1, by rw [hmem, hedi]; exact h.2.2⟩
  | lsIndented | lsNamed | lsPrinted => exact h.imp fun w hw => hstack.trans hw
  | _ => exact hl.elim

/-- `puts` is called where what holds at its return already holds. -/
theorem Inv.print (s : Shell) (text : Text) (houtside : Outside e before s.mem)
    (hl : PutsReturns l) (h : Home e s l) : Inv e before (s.print e text l) :=
  ⟨houtside, l, s.stack, rfl, hl, h.congr hl rfl rfl rfl⟩

theorem Inv.callPuts (s : Shell) (houtside : Outside e before s.mem) (hl : PutsReturns l)
    (h : Home e s l) : Inv e before (s.callTo .puts l) :=
  ⟨houtside, l, s.stack, rfl, hl, h.congr hl rfl rfl rfl⟩

/-- A store to the buffers. -/
theorem Outside.store8 {m : Memory} {a : Nat} (h : Outside e before m) (hlow : e.lineBuf ≤ a)
    (hhigh : a < e.fdSave + 4) (b : BitVec 8) : Outside e before (m.store8 a b) := fun x hx => by
  rw [store8_other (by omega), h x hx]

theorem Outside.storeBytes {m : Memory} {a : Nat} (h : Outside e before m) (hlow : e.lineBuf ≤ a)
    (bs : List (BitVec 8)) (hhigh : a + bs.length ≤ e.fdSave + 4) :
    Outside e before (Memory.storeBytes m a bs) := fun x hx => by
  rw [storeBytes_outside (by omega), h x hx]

/-- The addresses of the buffers. -/
theorem buffers (e : Env) : e.nameBuf = e.lineBuf + 128 ∧ e.catBuf = e.lineBuf + 192 ∧
    e.fdSave = e.lineBuf + 320 := by
  unfold Env.fdSave Env.catBuf Env.nameBuf
  omega

/-! ## The editor -/

/-- The steps of the line editor. -/
theorem Inv.readLoop (houtside : Outside e before s.mem) (h : Home e s .readLoop)
    (hstep : s.readLoop e = some t) : Inv e before t := by
  unfold Shell.readLoop at hstep
  split at hstep
  · cases hstep
  · split at hstep <;> obtain rfl := Option.some.inj hstep <;> exact ⟨houtside, h⟩

theorem Inv.gotChar (houtside : Outside e before s.mem) (h : Home e s .gotChar) :
    Inv e before (s.gotChar e) := by
  obtain ⟨-, -, hfd⟩ := buffers e
  unfold Shell.gotChar
  split
  · exact ⟨houtside, h⟩
  split
  · exact ⟨houtside, h⟩
  split
  · exact ⟨houtside, h⟩
  split
  · exact ⟨houtside, h⟩
  split
  · exact ⟨houtside, h⟩
  · next hroom =>
      exact ⟨houtside.store8 (by omega) (by omega) _, h.1, by show s.edi + 1 ≤ 127; omega⟩

theorem Inv.backspace (houtside : Outside e before s.mem) (h : Home e s .backspace) :
    Inv e before (s.backspace e) := by
  have hedi := h.2
  unfold Shell.backspace
  split
  · exact ⟨houtside, h⟩
  · exact ⟨houtside, h.1, by show s.edi - 1 ≤ 127; omega⟩

theorem Inv.execute (houtside : Outside e before s.mem) (h : Home e s .execute) :
    Inv e before (s.execute e) := by
  have hedi := h.2
  obtain ⟨-, -, hfd⟩ := buffers e
  exact Inv.print _ _ (houtside.store8 (by omega) (by omega) 0) trivial
    ⟨h.1, h.2, Function.update_self ..⟩

/-! ## The dispatch -/

theorem Inv.newlinePrinted (houtside : Outside e before s.mem) (h : Home e s .newlinePrinted) :
    Inv e before s.newlinePrinted := by
  unfold Shell.newlinePrinted
  split
  · exact ⟨houtside, h.1⟩
  · exact ⟨houtside, h.1, h.2.1, h.2.2, Nat.zero_le _⟩

theorem Inv.skipSpaces (houtside : Outside e before s.mem) (h : Home e s .skipSpaces) :
    Inv e before (s.skipSpaces e) := by
  unfold Shell.skipSpaces
  dsimp only
  split
  · exact ⟨houtside, h⟩
  split
  · next hmore => exact ⟨houtside, h.1, h.2.1, h.2.2.1, Nat.le_of_lt hmore⟩
  · exact ⟨houtside, h.1⟩

theorem Inv.compared (c : Command) (houtside : Outside e before s.mem) (h : Home e s (.compared c)) :
    Inv e before (s.compared c) := by
  unfold Shell.compared
  split
  · cases c with
    | exec => exact ⟨houtside, h.1⟩
    | _ => exact ⟨houtside, h⟩
  · exact ⟨houtside, congrArg _ h.1, s.edi, h.2.2.2, h.2.1, h.2.2.1⟩

/-! ## The two functions -/

theorem Inv.putsGo {w : Nat} {rest : List Entry} (houtside : Outside e before s.mem)
    (hstack : s.stack = .word w :: .ret l :: rest) (hl : PutsReturns l)
    (h : Home e { s with stack := rest } l) (hstep : s.putsGo e = some t) : Inv e before t := by
  simp only [Shell.putsGo, syscall, popEsiRet, hstack, ret] at hstep
  obtain rfl := Option.some.inj hstep
  have hhome := h.congr (t := { s with stack := rest, pc := l }) hl rfl rfl rfl
  refine ⟨houtside, ?_⟩
  cases l with
  | mainLoop | promptPrinted | newlinePrinted | lsIndented | lsNamed | lsPrinted | echoDone
  | handlerRet => exact hhome.congr hl rfl rfl rfl
  | _ => exact hl.elim

theorem Inv.strcmpDone {w : Nat} {c : Command} (houtside : Outside e before s.mem)
    (hstack : s.stack = [.word w, .ret (.compared c)])
    (h : Home e { s with stack := [], esi := w } (.compared c)) (hstep : s.popEsiRet = some t) :
    Inv e before t := by
  simp only [popEsiRet, hstack, ret] at hstep
  obtain rfl := Option.some.inj hstep
  exact ⟨houtside, h⟩

theorem Inv.cmpLoop {w : Nat} {c : Command} (houtside : Outside e before s.mem)
    (hstack : s.stack = [.word w, .ret (.compared c)])
    (h : Home e { s with stack := [], esi := w } (.compared c)) : Inv e before s.cmpLoop := by
  unfold Shell.cmpLoop
  dsimp only
  split
  · exact ⟨houtside, w, c, hstack, h⟩
  split <;> exact ⟨houtside, w, c, hstack, h⟩

theorem Inv.checkEnd {w : Nat} {c : Command} (houtside : Outside e before s.mem)
    (hstack : s.stack = [.word w, .ret (.compared c)])
    (h : Home e { s with stack := [], esi := w } (.compared c)) : Inv e before s.checkEnd := by
  unfold Shell.checkEnd
  dsimp only
  split
  · exact ⟨houtside, w, c, hstack, h⟩
  split <;> exact ⟨houtside, w, c, hstack, h⟩

/-! ## The handlers -/

theorem Inv.handler (c : Command) (houtside : Outside e before s.mem)
    (h : Home e s (.handler c)) : Inv e before (s.handler e c) := by
  cases c with
  | help => exact Inv.print s .help houtside trivial h.1
  | ls => exact ⟨houtside, h.1⟩
  | cat | echo | run | exec => exact ⟨houtside, h⟩

theorem Inv.lsLoop (houtside : Outside e before s.mem) (h : Home e s .lsLoop) :
    Inv e before (s.lsLoop e) := by
  obtain ⟨hname, hcat, hfd⟩ := buffers e
  unfold Shell.lsLoop
  dsimp only [syscallTo, syscall]
  have hlisted := houtside.storeBytes (a := e.nameBuf) (by omega) ((e.bytes s.calls
    (.readdir (userString { s with ebx := e.text .root, ecx := s.edi, edx := e.nameBuf }
      (e.text .root)) s.edi)).take 64) (by
        have hlength := List.length_take_le 64 (e.bytes s.calls (.readdir (userString { s with
          ebx := e.text .root, ecx := s.edi, edx := e.nameBuf } (e.text .root)) s.edi))
        omega)
  split
  · exact ⟨hlisted, h⟩
  · exact Inv.print _ _ hlisted trivial ⟨_, congrArg _ h⟩

theorem Inv.lsPrinted (houtside : Outside e before s.mem) (h : Home e s .lsPrinted)
    (hstep : s.lsPrinted = some t) : Inv e before t := by
  obtain ⟨w, hw⟩ := h
  simp only [Shell.lsPrinted, hw] at hstep
  obtain rfl := Option.some.inj hstep
  exact ⟨houtside, rfl⟩

theorem Inv.lsDone (houtside : Outside e before s.mem) (h : Home e s .lsDone) :
    Inv e before (s.lsDone e) := by
  unfold Shell.lsDone
  split
  · exact ⟨houtside, h⟩
  · exact Inv.print _ _ houtside trivial h

theorem Inv.missing (c : Command) (houtside : Outside e before s.mem)
    (h : s.stack = [.ret .mainLoop]) : Inv e before (s.goto (Shell.missing c)) := by
  cases c <;> exact ⟨houtside, h⟩

/-- A byte that is not the NUL is before it. -/
theorem LineEnds.next {m : Memory} {i : Nat} (h : LineEnds e m i) (hi : m (e.lineBuf + i) ≠ 0) :
    LineEnds e m (i + 1) := by
  obtain ⟨n, hin, hn, hnul⟩ := h
  refine ⟨n, ?_, hn, hnul⟩
  rcases Nat.lt_or_eq_of_le hin with hlt | rfl
  · exact hlt
  · exact absurd hnul hi

theorem Inv.skipName (c : Command) (houtside : Outside e before s.mem)
    (h : Home e s (.skipName c)) : Inv e before (s.skipName e c) := by
  unfold Shell.skipName
  dsimp only
  split
  · exact Inv.missing c houtside h.1
  · next hnul =>
      split
      · exact ⟨houtside, h.1, h.2.next hnul⟩
      · exact ⟨houtside, h.1, h.2.next hnul⟩

theorem Inv.skipSp (c : Command) (houtside : Outside e before s.mem)
    (h : Home e s (.skipSp c)) : Inv e before (s.skipSp e c) := by
  unfold Shell.skipSp
  dsimp only
  split
  · exact ⟨houtside, h⟩
  · next hspace =>
      have hnul : s.mem (e.lineBuf + s.edi) ≠ 0 := by
        rw [show s.mem (e.lineBuf + s.edi) = 0x20#8 from not_not.mp hspace]
        decide
      exact ⟨houtside, h.1, h.2.next hnul⟩

theorem Inv.argStart (c : Command) (houtside : Outside e before s.mem)
    (h : Home e s (.argStart c)) : Inv e before (s.argStart e c) := by
  obtain ⟨hname, hcat, hfd⟩ := buffers e
  unfold Shell.argStart
  split
  · exact Inv.missing c houtside h.1
  cases c with
  | echo => exact Inv.callPuts _ houtside trivial h.1
  | exec =>
      dsimp only
      split
      · exact ⟨houtside, h.1, Nat.le_refl _, by show e.nameBuf + 63 < _; omega, Nat.succ_pos 62⟩
      · exact ⟨houtside.store8 (by omega) (by omega) _, h.1, Nat.le_succ _,
          by show e.nameBuf + 1 + 62 < _; omega, Nat.succ_pos 61⟩
  | cat | run | help | ls => exact ⟨houtside, h⟩

theorem Inv.findEnd (c : Command) (houtside : Outside e before s.mem)
    (h : Home e s (.findEnd c)) : Inv e before (s.findEnd e c) := by
  unfold Shell.findEnd
  dsimp only
  split
  · exact ⟨houtside, h⟩
  · next hnul =>
      split
      · exact ⟨houtside, h⟩
      · exact ⟨houtside, h.1, h.2.next hnul⟩

theorem Inv.foundEnd (c : Command) (houtside : Outside e before s.mem)
    (h : Home e s (.foundEnd c)) : Inv e before (s.foundEnd e c) := by
  obtain ⟨hname, hcat, hfd⟩ := buffers e
  obtain ⟨hstack, n, hecx, hn, -⟩ := h
  have hended := houtside.store8 (a := e.lineBuf + s.ecx) (by omega) (by omega) 0
  unfold Shell.foundEnd
  dsimp only
  split
  · exact ⟨hended.store8 (by omega) (by omega) _, hstack, Nat.le_succ _,
      by show e.nameBuf + 1 + 62 < _; omega, Nat.succ_pos 61⟩
  · split <;> exact ⟨hended, hstack⟩

theorem Inv.copyPath (k : Copy) (houtside : Outside e before s.mem)
    (h : Home e s (.copyPath k)) : Inv e before (s.copyPath k) := by
  obtain ⟨hname, hcat, hfd⟩ := buffers e
  obtain ⟨hstack, hlow, hhigh, hecx⟩ := h
  unfold Shell.copyPath
  dsimp only
  split
  · exact ⟨houtside, hstack, hlow, by show s.edi + s.ecx < _; omega⟩
  · have hstored := houtside.store8 (a := s.edi + s.ecx) (by omega) (by omega)
      (s.mem (s.esi + s.ecx))
    split
    · exact ⟨hstored, hstack, hlow, by show s.edi + (s.ecx + 1) < _; omega⟩
    · next hmore => exact ⟨hstored, hstack, hlow, hhigh, Nat.not_le.mp hmore⟩

theorem Inv.copyDone (k : Copy) (houtside : Outside e before s.mem)
    (h : Home e s (.copyDone k)) : Inv e before (s.copyDone e k) := by
  obtain ⟨hname, hcat, hfd⟩ := buffers e
  obtain ⟨hstack, hlow, hhigh⟩ := h
  have hended := houtside.store8 (a := s.edi + s.ecx) (by omega) (by omega) 0
  cases k <;> exact ⟨hended, hstack⟩

theorem Inv.openFile (houtside : Outside e before s.mem) (h : Home e s .openFile) :
    Inv e before (s.openFile e) := by
  obtain ⟨hname, hcat, hfd⟩ := buffers e
  unfold Shell.openFile
  dsimp only
  split
  · exact ⟨houtside, h⟩
  · refine ⟨fun x hx => ?_, h⟩
    exact (store32_outside (by omega)).trans (houtside x hx)

theorem Inv.catReadLoop (houtside : Outside e before s.mem) (h : Home e s .catReadLoop) :
    Inv e before (s.catReadLoop e) := by
  obtain ⟨hname, hcat, hfd⟩ := buffers e
  have hread : ∀ bs : List (BitVec 8),
      Outside e before (storeBytes s.mem e.catBuf (bs.take 128)) := fun bs =>
    houtside.storeBytes (by omega) _ (by
      have hlength := List.length_take_le 128 bs
      omega)
  unfold Shell.catReadLoop
  dsimp only [syscallTo, syscall]
  split <;> exact ⟨hread _, h⟩

theorem Inv.ret (houtside : Outside e before s.mem) (h : s.stack = [.ret .mainLoop])
    (hstep : s.ret = some t) : Inv e before t := by
  simp only [Shell.ret, h] at hstep
  obtain rfl := Option.some.inj hstep
  exact ⟨houtside, rfl⟩

theorem Inv.catDone (houtside : Outside e before s.mem) (h : Home e s .catDone)
    (hstep : s.catDone e = some t) : Inv e before t := by
  have hstack : s.stack = [.ret .mainLoop] := h
  simp only [Shell.catDone, syscall, Shell.ret, hstack] at hstep
  obtain rfl := Option.some.inj hstep
  exact ⟨houtside, rfl⟩

theorem Inv.execDo (houtside : Outside e before s.mem) (h : Home e s .execDo) :
    Inv e before (s.execDo e) := by
  unfold Shell.execDo
  dsimp only
  split <;> exact ⟨houtside, h⟩

/-! ## Runs -/

/-- Every step keeps what holds at the labels. -/
theorem Inv.step (h : Inv e before s) (hstep : step e s = some t) : Inv e before t := by
  obtain ⟨houtside, h⟩ := h
  unfold Shell.step at hstep
  generalize hpc : s.pc = l at h hstep
  cases l with
  | start => obtain rfl := Option.some.inj hstep; exact Inv.print s _ houtside trivial h
  | mainLoop => obtain rfl := Option.some.inj hstep; exact Inv.print s _ houtside trivial h
  | promptPrinted => obtain rfl := Option.some.inj hstep; exact ⟨houtside, h, Nat.zero_le 127⟩
  | readLoop => exact Inv.readLoop houtside h hstep
  | gotChar => obtain rfl := Option.some.inj hstep; exact Inv.gotChar houtside h
  | backspace => obtain rfl := Option.some.inj hstep; exact Inv.backspace houtside h
  | execute => obtain rfl := Option.some.inj hstep; exact Inv.execute houtside h
  | newlinePrinted => obtain rfl := Option.some.inj hstep; exact Inv.newlinePrinted houtside h
  | skipSpaces => obtain rfl := Option.some.inj hstep; exact Inv.skipSpaces houtside h
  | tryCommand c =>
      obtain rfl := Option.some.inj hstep
      exact ⟨houtside, c, congrArg _ h.1, rfl, h.2⟩
  | compared c => obtain rfl := Option.some.inj hstep; exact Inv.compared c houtside h
  | unknown => obtain rfl := Option.some.inj hstep; exact Inv.print s _ houtside trivial h
  | puts =>
      obtain rfl := Option.some.inj hstep
      obtain ⟨l, rest, hstack, hl, hhome⟩ := h
      exact ⟨houtside, s.esi, l, rest, congrArg _ hstack, hl, hhome.congr hl rfl rfl rfl⟩
  | putsLenLoop =>
      obtain rfl := Option.some.inj hstep
      obtain ⟨w, l, rest, hstack, hl, hhome⟩ := h
      unfold Shell.putsLenLoop
      split <;> exact ⟨houtside, w, l, rest, hstack, hl, hhome.congr hl rfl rfl rfl⟩
  | putsGo =>
      obtain ⟨w, l, rest, hstack, hl, hhome⟩ := h
      exact Inv.putsGo houtside hstack hl hhome hstep
  | strcmpWord =>
      obtain rfl := Option.some.inj hstep
      obtain ⟨c, hstack, hhome⟩ := h
      exact ⟨houtside, s.esi, c, congrArg _ hstack, hhome⟩
  | cmpLoop =>
      obtain rfl := Option.some.inj hstep
      obtain ⟨w, c, hstack, hhome⟩ := h
      exact Inv.cmpLoop houtside hstack hhome
  | checkEnd =>
      obtain rfl := Option.some.inj hstep
      obtain ⟨w, c, hstack, hhome⟩ := h
      exact Inv.checkEnd houtside hstack hhome
  | noMatch => obtain rfl := Option.some.inj hstep; exact ⟨houtside, h⟩
  | isMatch => obtain rfl := Option.some.inj hstep; exact ⟨houtside, h⟩
  | strcmpDone =>
      obtain ⟨w, c, hstack, hhome⟩ := h
      exact Inv.strcmpDone houtside hstack hhome hstep
  | handler c => obtain rfl := Option.some.inj hstep; exact Inv.handler c houtside h
  | lsLoop => obtain rfl := Option.some.inj hstep; exact Inv.lsLoop houtside h
  | lsIndented => obtain rfl := Option.some.inj hstep; exact Inv.callPuts _ houtside trivial h
  | lsNamed => obtain rfl := Option.some.inj hstep; exact Inv.print s _ houtside trivial h
  | lsPrinted => exact Inv.lsPrinted houtside h hstep
  | lsDone => obtain rfl := Option.some.inj hstep; exact Inv.lsDone houtside h
  | skipName c => obtain rfl := Option.some.inj hstep; exact Inv.skipName c houtside h
  | foundSpace c => obtain rfl := Option.some.inj hstep; exact ⟨houtside, h⟩
  | skipSp c => obtain rfl := Option.some.inj hstep; exact Inv.skipSp c houtside h
  | argStart c => obtain rfl := Option.some.inj hstep; exact Inv.argStart c houtside h
  | findEnd c => obtain rfl := Option.some.inj hstep; exact Inv.findEnd c houtside h
  | foundEnd c => obtain rfl := Option.some.inj hstep; exact Inv.foundEnd c houtside h
  | copyPath k => obtain rfl := Option.some.inj hstep; exact Inv.copyPath k houtside h
  | copyDone k => obtain rfl := Option.some.inj hstep; exact Inv.copyDone k houtside h
  | openFile => obtain rfl := Option.some.inj hstep; exact Inv.openFile houtside h
  | catReadLoop => obtain rfl := Option.some.inj hstep; exact Inv.catReadLoop houtside h
  | catDone => exact Inv.catDone houtside h hstep
  | execDo => obtain rfl := Option.some.inj hstep; exact Inv.execDo houtside h
  | notFound | started | usage c | echoDone =>
      obtain rfl := Option.some.inj hstep
      exact Inv.print s _ houtside trivial h
  | handlerRet => exact Inv.ret houtside h hstep

/-- It holds at every time, and the shell has written to its buffers only. -/
theorem Loaded.reach {s₀ : Shell} (h : Loaded e s₀) (hreach : Reach (Shell.step e) s₀ s) :
    Inv e s₀.mem s := by
  induction hreach with
  | refl =>
      refine ⟨fun _ _ => rfl, ?_⟩
      rw [h.pc]
      exact h.stack
  | tail _ hstep ih => exact ih.step hstep

/-- At every prompt the strings of the program are as they were, and the stack is empty. -/
theorem Reachable.prompt (h : Reachable e s) (hpc : s.pc = .mainLoop) :
    Intact e s.mem ∧ s.stack = [] := by
  obtain ⟨s₀, hloaded, hreach⟩ := h
  obtain ⟨houtside, hhome⟩ := hloaded.reach hreach
  rw [hpc] at hhome
  exact ⟨hloaded.intact.congr fun x hx => houtside x (.inl hx), hhome⟩

/-- The data section as it is loaded: the strings one after the other. -/
theorem intact_of_image {m : Memory}
    (himage : HoldsAt m e.data (texts.flatMap fun text => text.content ++ [0])) : Intact e m := by
  have hheld : ∀ (ts : List Text) (p : Nat),
      HoldsAt m p (ts.flatMap fun text => text.content ++ [0]) → ∀ text ∈ ts,
        HoldsAt m (p + sizeOfTexts (ts.takeWhile (· ≠ text))) (text.content ++ [0]) := by
    intro ts
    induction ts with
    | nil => exact fun _ _ text hin => by cases hin
    | cons u ts ih =>
        intro p himage text hin
        rw [List.flatMap_cons, holdsAt_append] at himage
        by_cases hu : u = text
        · rw [List.takeWhile_cons_of_neg (by simpa using hu), ← hu]
          have hfirst := himage.1
          unfold sizeOfTexts
          exact hfirst
        · rw [List.takeWhile_cons_of_pos (by simpa using hu), sizeOfTexts_cons, ← Nat.add_assoc]
          have hrest := ih _ himage.2 text ((List.mem_cons.mp hin).resolve_left (Ne.symm hu))
          rwa [List.length_append, List.length_singleton] at hrest
  exact fun text => hheld texts e.data himage text (mem_texts text)

/-! ## One line -/

theorem edited_nonzero {bytes : List (BitVec 8)} (hline : ∀ b ∈ line, b ≠ 0)
    (hbytes : ∀ b ∈ bytes, b ≠ 0) : ∀ b ∈ bytes.foldl editByte line, b ≠ 0 := by
  induction bytes generalizing line with
  | nil => exact hline
  | cons c bytes ih =>
      refine ih (fun b hb => ?_) (fun b hb => hbytes b (List.mem_cons_of_mem c hb))
      unfold editByte at hb
      split at hb
      · exact hline b hb
      split at hb
      · exact hline b (List.dropLast_subset line hb)
      split at hb
      · rcases List.mem_append.mp hb with hb | hb
        · exact hline b hb
        · rw [List.mem_singleton.mp hb]
          exact hbytes c (List.mem_cons_self ..)
      · exact hline b hb

theorem commandName_ne_nil (c : Command) : commandName c ≠ [] := by
  cases c <;> decide

/-- A word leads to the handler of the command that it names. -/
theorem wordLabel_handler_iff {word : List (BitVec 8)} {c : Command} :
    wordLabel commands word = .handler c ↔ word = commandName c := by
  constructor
  · intro h
    unfold wordLabel at h
    split at h
    · next d hfind =>
        have hname : commandName d = word := by simpa using List.find?_some hfind
        rw [← hname, Label.handler.inj h]
    · cases h
  · rintro rfl
    cases c <;> rfl

theorem wordLabel_unknown_iff {word : List (BitVec 8)} :
    wordLabel commands word = .unknown ↔ ∀ c, word ≠ commandName c := by
  constructor
  · rintro h c rfl
    have hhandler := wordLabel_handler_iff.mpr (rfl : commandName c = commandName c)
    rw [h] at hhandler
    cases hhandler
  · intro h
    unfold wordLabel
    split
    · next d hfind =>
        have hname : commandName d = word := by simpa using List.find?_some hfind
        exact absurd hname.symm (h d)
    · rfl

theorem firstWord_eq_nil_iff : firstWord line = [] ↔ ∀ b ∈ line, b = 0x20#8 := by
  have hskip : skipSpace line = [] ↔ ∀ b ∈ line, b = 0x20#8 := by
    rw [skipSpace, List.dropWhile_eq_nil_iff]
    simp only [decide_eq_true_eq]
  rw [← hskip]
  constructor
  · intro hnil
    by_contra hne
    obtain ⟨b, rest, hcons⟩ := List.exists_cons_of_ne_nil hne
    have hb := skipSpace_head hcons
    rw [firstWord, hcons, wordOf, List.takeWhile_cons_of_pos (by simpa using hb)] at hnil
    cases hnil
  · intro hnil
    rw [firstWord, hnil]
    rfl

/-- Where a line leads. -/
theorem destination_iff (line : List (BitVec 8)) :
    (∀ c, destination line = .handler c ↔ firstWord line = commandName c) ∧
      (destination line = .unknown ↔
        firstWord line ≠ [] ∧ ∀ c, firstWord line ≠ commandName c) ∧
      (destination line = .mainLoop ↔ ∀ b ∈ line, b = 0x20#8) := by
  rw [← firstWord_eq_nil_iff]
  unfold destination
  by_cases hempty : firstWord line = []
  · rw [if_pos hempty]
    refine ⟨fun c => iff_of_false (fun h => by cases h) fun h => ?_,
      iff_of_false (fun h => by cases h) fun h => h.1 hempty, iff_of_true rfl hempty⟩
    exact commandName_ne_nil c (h.symm.trans hempty)
  · rw [if_neg hempty]
    refine ⟨fun c => wordLabel_handler_iff, ?_, iff_of_false (fun h => ?_) hempty⟩
    · rw [wordLabel_unknown_iff, and_iff_right hempty]
    · unfold wordLabel at h
      split at h <;> cases h

/-- The message for an unknown command. -/
theorem unknown_calls (hpc : s.pc = .unknown) (hintact : Intact e s.mem) :
    Calls e s (.writeConsole Text.unknown.content) := by
  have hstep : Shell.step e s = some (s.print e .unknown .mainLoop) := by rw [Shell.step, hpc]
  obtain ⟨t, hcourse, -, -, -, -, -, hcalls⟩ := print_course s .unknown .mainLoop hintact (by decide)
  exact ⟨_, t, hstep, hcourse, hcalls⟩

/-- One line of the shell, typed at any prompt: when it ends, the line buffer holds the bytes applied
in order, in at most 128 bytes, and nothing else has changed in memory. What comes next is the handler
of the command that the first word names, the message for an unknown command, or the prompt if
there is no word; and `cat` and `exec` pass on the path that is made of their argument. -/
theorem shell_line {polls more : List (Option (BitVec 8))} (hs : Reachable e s)
    (hpc : s.pc = .mainLoop) (hinput : s.input = polls ++ some 0x0A#8 :: more)
    (hpolls : some 0x0A#8 ∉ polls) (hnul : some 0 ∉ polls)
    (hline : line = edited (polls.filterMap id)) :
    ∃ s' r t, Shell.step e s = some s' ∧ Course e s' r ∧ r.pc = .newlinePrinted ∧
      r.input = more ∧ line.length + 1 ≤ 128 ∧ HoldsAt r.mem e.lineBuf (line ++ [0]) ∧
      (∀ x, x < e.lineBuf ∨ e.lineBuf + 128 ≤ x → r.mem x = s.mem x) ∧
      Course e r t ∧ Keeps r t ∧
      (∀ c, t.pc = .handler c ↔ firstWord line = commandName c) ∧
      (t.pc = .unknown ↔ firstWord line ≠ [] ∧ ∀ c, firstWord line ≠ commandName c) ∧
      (t.pc = .unknown → Calls e t (.writeConsole Text.unknown.content)) ∧
      (t.pc = .mainLoop ↔ ∀ b ∈ line, b = 0x20#8) ∧
      (argument line ≠ [] → (argument line).length ≤ 62 →
        (t.pc = .handler .cat → Calls e t (.open (0x2F#8 :: argument line) 0)) ∧
        (t.pc = .handler .exec → Calls e t (.exec (execPath (argument line))))) := by
  obtain ⟨hintact, hstack⟩ := hs.prompt hpc
  obtain ⟨s', r, hstep, hread, hrpc, hrstack, hrinput, hredi, hsize, hheld, hframe⟩ :=
    line_course hpc hstack hintact hinput hpolls
  rw [← hline] at hredi hsize hheld
  have hrintact : Intact e r.mem := hintact.congr fun x hx => hframe x (.inl hx)
  have hnz : ∀ b ∈ line, b ≠ 0 := by
    rw [hline]
    refine edited_nonzero (fun b hb => by cases hb) fun b hb hzero => hnul ?_
    obtain ⟨poll, hpoll, rfl⟩ := List.mem_filterMap.mp hb
    rw [← hzero]
    exact hpoll
  obtain ⟨t, hdispatch, hkeeps, htpc, hhandler⟩ :=
    dispatch_course hrpc hrstack hrintact hredi hheld hnz
  obtain ⟨hcommand, hunknown, hprompt⟩ := destination_iff line
  rw [← htpc] at hcommand hunknown hprompt
  have hsuffix : ∀ b ∈ skipSpace line, b ≠ 0 := fun b hb =>
    hnz b ((List.dropWhile_sublist _).subset hb)
  refine ⟨s', r, t, hstep, hread, hrpc, hrinput, by omega, hheld, hframe, hdispatch, hkeeps, hcommand,
    hunknown, fun h => unknown_calls h (by rw [hkeeps.mem]; exact hrintact), hprompt,
    fun harg hlength => ⟨fun hcat => ?_, fun hexec => ?_⟩⟩
  · obtain ⟨-, hesi, htheld⟩ := hhandler .cat hcat
    exact cat_calls hcat (by omega) htheld hsuffix harg hlength
  · obtain ⟨-, hesi, htheld⟩ := hhandler .exec hexec
    exact exec_calls hexec (by omega) htheld hsuffix harg hlength

/-- The shell at its first prompt, and `cat a` typed with one byte that is deleted. -/
theorem shell_line_sample : ∃ (e : Env) (s : Shell), Reachable e s ∧ s.pc = .mainLoop ∧
    s.calls = [.writeConsole Text.banner.content] ∧
    ∃ s' r t, Shell.step e s = some s' ∧ Course e s' r ∧ Course e r t ∧
      HoldsAt r.mem e.lineBuf (ascii ['c', 'a', 't', ' ', 'a'] ++ [0]) ∧
      t.pc = .handler .cat ∧ Calls e t (.open (ascii ['/', 'a']) 0) := by
  let e : Env := ⟨0, 0x10000, fun _ _ => 0, fun _ _ => []⟩
  let image := texts.flatMap fun text => text.content ++ [0]
  let s₀ : Shell := ⟨.start, 0, 0, 0, 0, 0, 0, [], fun x => image.getD x 0, [],
    (ascii ['c', 'a', 't', ' ', 'b', Char.ofNat 8, 'a']).map some ++ [none] ++ some 0x0A#8 :: []⟩
  have himage : HoldsAt s₀.mem e.data image := fun j hj => by
    show image.getD (0 + j) 0 = image[j]
    rw [Nat.zero_add, List.getD_eq_getElem?_getD, List.getElem?_eq_getElem hj]
    rfl
  have hloaded : Loaded e s₀ := ⟨rfl, rfl, intact_of_image himage⟩
  have hstart : Shell.step e s₀ = some (s₀.print e .banner .mainLoop) := rfl
  obtain ⟨s, hcourse, hpc, -, -, -, hinput, hcalls⟩ :=
    print_course s₀ .banner .mainLoop hloaded.intact (by decide)
  have hreach : Reachable e s := ⟨s₀, hloaded, .step hstart hcourse.reach⟩
  obtain ⟨s', r, t, hstep, hread, -, -, -, hheld, -, hdispatch, -, hhandler, -, -, -, hpath⟩ :=
    shell_line hreach hpc hinput (by decide) (by decide) (rfl : ascii ['c', 'a', 't', ' ', 'a'] = _)
  have hcat := (hhandler .cat).mpr (by decide)
  exact ⟨e, s, hreach, hpc, hcalls, s', r, t, hstep, hread, hdispatch, hheld, hcat,
    (hpath (by decide) (by decide)).1 hcat⟩

end Shell

end Kumo
