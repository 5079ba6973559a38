import Kumo.User.ShellJobs

/-!
# The shell keeps to its dialogue

Every step of the dialogue is a run of the program: what the kernel answers to the calls of a job
leads to the next job. So the program makes the calls of the dialogue, in its order, and no others,
whatever the kernel answers and whatever is typed.
-/

namespace Kumo

namespace Shell

open Memory Orbit StateTransition

variable {e : Env} {before : Memory} {s t : Shell} {l : Label} {job next : Job}
  {line str word : List (BitVec 8)} {c : Call}

/-! ## The answers of the kernel -/

/-- What the kernel promises about the buffers that it writes to: `SYSCALL_READDIR` leaves a C
string, and `SYSCALL_READ` as many bytes as it says. -/
structure Env.Honest (e : Env) : Prop where
  names : ∀ calls path i, e.answer calls (.readdir path i) = 0 →
    0 ∈ (e.bytes calls (.readdir path i)).take 64
  reads : ∀ calls fd size, e.answer calls (.read fd size) ≠ 0 →
    ¬ negative (e.answer calls (.read fd size)) →
      (e.bytes calls (.read fd size)).length = e.answer calls (.read fd size) ∧
        e.answer calls (.read fd size) ≤ size

/-- What is stored is held. -/
theorem holdsAt_storeBytes (m : Memory) (p : Nat) (bs : List (BitVec 8)) :
    HoldsAt (storeBytes m p bs) p bs := by
  have hbytes := bytesAt_storeBytes m p bs
  intro j hj
  have hget := getElem_bytesAt (storeBytes m p bs) p (i := j) (n := bs.length)
    (by rw [length_bytesAt]; exact hj)
  rw [← hget]
  simp only [hbytes]

/-- The beginning of what is held. -/
theorem holdsAt_first {m : Memory} {p : Nat} {bs rest : List (BitVec 8)} (h : HoldsAt m p bs)
    (hsplit : bs = str ++ rest) : HoldsAt m p str := by
  rw [hsplit] at h
  exact (holdsAt_append.mp h).1

/-- A list with a NUL is a C string and what comes after it. -/
theorem cstring_split {bs : List (BitVec 8)} {n : Nat} (hnul : 0 ∈ bs.take n) :
    ∃ rest, bs.take n = bs.takeWhile (· ≠ 0) ++ 0 :: rest := by
  induction bs generalizing n with
  | nil => rw [List.take_nil] at hnul; cases hnul
  | cons b bs ih =>
      cases n with
      | zero => cases hnul
      | succ n =>
          by_cases hb : b = 0
          · rw [List.takeWhile_cons_of_neg (by simpa using hb), hb]
            exact ⟨bs.take n, rfl⟩
          · rw [List.take_succ_cons] at hnul
            have hmore := (List.mem_cons.mp hnul).resolve_left (Ne.symm hb)
            obtain ⟨rest, hrest⟩ := ih hmore
            rw [List.take_succ_cons, hrest, List.takeWhile_cons_of_pos (by simpa using hb)]
            exact ⟨rest, rfl⟩

theorem takeWhile_nonzero (bs : List (BitVec 8)) : ∀ b ∈ bs.takeWhile (· ≠ 0), b ≠ 0 := by
  intro b hb
  simpa using List.all_eq_true.mp List.all_takeWhile b hb

/-- The end of `ls`. -/
theorem lsDone_leads (hinv : Inv e before s) (hbefore : Intact e before) (hpc : s.pc = .lsDone) :
    Leads e (if s.edi = 0 then say .empty else prompt) s := by
  have hintact := hinv.intact hbefore
  have hstack := hinv.handling hpc (by decide)
  have hstep : step e s = some (s.lsDone e) := by rw [step, hpc]
  unfold lsDone at hstep
  by_cases hzero : s.edi = 0
  · rw [if_pos hzero]
    have hprint := hstep.trans (congrArg some (if_neg (not_not_intro hzero)))
    exact Leads.step hprint rfl rfl (say_does .empty hstack hintact).leads
  · rw [if_neg hzero]
    have hdone := hstep.trans (congrArg some (if_pos hzero))
    have hret : Leads e prompt (s.goto .handlerRet) := ret_leads rfl hstack hintact
    exact Leads.step hdone rfl rfl hret

/-- One entry of `ls` is printed, and the next one is asked for. -/
theorem lsEntry_does {name : List (BitVec 8)} (hprint : Inv e before
      ({ s with stack := .word s.edi :: s.stack }.print e .indent .lsIndented))
    (hbefore : Intact e before) (hstack : s.stack = [.ret .mainLoop])
    (hheld : HoldsAt s.mem e.nameBuf (name ++ [0])) (hnz : ∀ b ∈ name, b ≠ 0) :
    Does e (.write Text.indent.content (.write name (.write Text.newline.content
      (.list (s.edi + 1)))))
      ({ s with stack := .word s.edi :: s.stack }.print e .indent .lsIndented) := by
  refine does_print _ .indent (hprint.intact hbefore) (by decide) (text_nonzero _)
    fun t htreach htpc htstack htmem _ => ?_
  have htinv := hprint.reaches htreach
  have hname : step e t = some ({ t with esi := e.nameBuf }.callTo .puts .lsNamed) := by
    rw [step, htpc]
  refine Leads.step hname rfl rfl (Does.leads ?_)
  refine does_puts rfl rfl (by decide) (by show HoldsAt t.mem _ _; rw [htmem]; exact hheld) hnz
    fun u hureach hupc hustack humem _ => ?_
  have huinv := (htinv.step hname).reaches hureach
  have hline : step e u = some (u.print e .newline .lsPrinted) := by rw [step, hupc]
  refine Leads.step hline rfl rfl (Does.leads ?_)
  refine does_print u .newline (huinv.intact hbefore) (by decide) (text_nonzero _)
    fun v _ hvpc hvstack _ _ => ?_
  have hpop : v.stack = [.word s.edi, .ret .mainLoop] := by
    rw [hvstack, hustack, htstack]
    exact congrArg _ hstack
  have hnext : step e v = some ({ v with edi := s.edi + 1, stack := [.ret .mainLoop] }.goto
      .lsLoop) := by
    simp only [step, hvpc, lsPrinted, hpop]
  have hdoes : Does e (.list (s.edi + 1))
      ({ v with edi := s.edi + 1, stack := [.ret .mainLoop] }.goto .lsLoop) := ⟨rfl, rfl⟩
  exact Leads.step hnext rfl rfl hdoes.leads

/-- `SYSCALL_READDIR`, and what comes of it. -/
theorem list_reaches (hkernel : e.Honest) (hinv : Inv e before s) (hbefore : Intact e before)
    (hpc : s.pc = .lsLoop) :
    ∃ t, step e s = some t ∧ t.calls = s.calls ++ [.readdir Text.root.content s.edi] ∧
      t.input = s.input ∧
      Leads e (listed s.edi (e.answer s.calls (.readdir Text.root.content s.edi))
        (e.name s.calls (.readdir Text.root.content s.edi))) t := by
  have hintact := hinv.intact hbefore
  have hstack := hinv.handling hpc (by decide)
  have hroot : Shell.userString { s with ebx := e.text .root, ecx := s.edi, edx := e.nameBuf }
      (e.text .root) = Text.root.content :=
    userString_eq (hintact .root) (text_nonzero _) (by decide)
  rw [← hroot]
  generalize hc : Call.readdir (Shell.userString { s with
    ebx := e.text .root, ecx := s.edi, edx := e.nameBuf } (e.text .root)) s.edi = c
  have hstep : step e s = some (s.lsLoop e) := by rw [step, hpc]
  unfold lsLoop at hstep
  dsimp only at hstep
  rw [hc] at hstep
  unfold listed
  by_cases hanswer : e.answer s.calls c = 0
  · have hprint := hstep.trans (congrArg some (if_neg (not_not_intro hanswer)))
    have hinv' := hinv.step hprint
    rw [if_neg (not_not_intro hanswer)]
    refine ⟨_, hprint, rfl, rfl, Does.leads ?_⟩
    have hnul : 0 ∈ (e.bytes s.calls c).take 64 := by
      rw [← hc] at hanswer ⊢
      exact hkernel.names _ _ _ hanswer
    obtain ⟨rest, hsplit⟩ := cstring_split hnul
    rw [← List.singleton_append, ← List.append_assoc] at hsplit
    have hheld := holdsAt_storeBytes s.mem e.nameBuf ((e.bytes s.calls c).take 64)
    exact lsEntry_does hinv' hbefore hstack (holdsAt_first hheld hsplit) (takeWhile_nonzero _)
  · have hdone := hstep.trans (congrArg some (if_pos hanswer))
    rw [if_pos hanswer]
    exact ⟨_, hdone, rfl, rfl, lsDone_leads (hinv.step hdone) hbefore rfl⟩

/-- The two messages about a file or a program. -/
theorem notFound_leads (hinv : Inv e before s) (hbefore : Intact e before)
    (hpc : s.pc = .notFound) : Leads e (say .notFound) s := by
  have hstep : step e s = some (s.print e .notFound .handlerRet) := by rw [step, hpc]
  exact Leads.step hstep rfl rfl
    (say_does .notFound (hinv.handling hpc (by decide)) (hinv.intact hbefore)).leads

theorem started_leads (hinv : Inv e before s) (hbefore : Intact e before)
    (hpc : s.pc = .started) : Leads e (say .started) s := by
  have hstep : step e s = some (s.print e .started .handlerRet) := by rw [step, hpc]
  exact Leads.step hstep rfl rfl
    (say_does .started (hinv.handling hpc (by decide)) (hinv.intact hbefore)).leads

/-- `SYSCALL_OPEN`, and what comes of it. -/
theorem openFile_reaches (hinv : Inv e before s) (hbefore : Intact e before)
    (hpc : s.pc = .openFile) {path : List (BitVec 8)}
    (hheld : HoldsAt s.mem e.nameBuf (path ++ [0])) (hpath : CString path) :
    ∃ t, step e s = some t ∧ t.calls = s.calls ++ [.open path 0] ∧ t.input = s.input ∧
      Leads e (opened (e.answer s.calls (.open path 0))) t := by
  have hstring : Shell.userString { s with ebx := e.nameBuf, ecx := 0 } e.nameBuf = path :=
    userString_eq hheld hpath.1 hpath.2
  rw [← hstring]
  generalize hc : Call.open (Shell.userString { s with ebx := e.nameBuf, ecx := 0 } e.nameBuf) 0 = c
  have hstep : step e s = some (s.openFile e) := by rw [step, hpc]
  unfold openFile at hstep
  dsimp only at hstep
  rw [hc] at hstep
  unfold opened
  by_cases hanswer : negative (e.answer s.calls c) = true
  · have hfail := hstep.trans (congrArg some (if_pos hanswer))
    rw [if_pos hanswer]
    exact ⟨_, hfail, rfl, rfl, notFound_leads (hinv.step hfail) hbefore rfl⟩
  · have hread := hstep.trans (congrArg some (if_neg hanswer))
    rw [if_neg hanswer]
    refine ⟨_, hread, rfl, rfl, Does.leads ⟨rfl, ?_⟩⟩
    show (s.mem.store32 e.fdSave (e.answer s.calls c)).load32 e.fdSave = e.answer s.calls c
    rw [load32_store32]
    exact Nat.mod_eq_of_lt (Nat.mod_lt _ (Nat.two_pow_pos 32))

/-- What `SYSCALL_READ` writes does not touch the descriptor. -/
theorem fdSave_read (s : Shell) (bs : List (BitVec 8)) :
    (storeBytes s.mem e.catBuf (bs.take 128)).load32 e.fdSave = s.mem.load32 e.fdSave := by
  obtain ⟨-, hcat, hsave⟩ := buffers e
  have hlength := List.length_take_le 128 bs
  exact load32_congr fun x hx _ => storeBytes_outside (.inr (by omega))

/-- `SYSCALL_READ`, and what comes of it. -/
theorem read_reaches (hkernel : e.Honest) (hpc : s.pc = .catReadLoop) {fd : Nat}
    (hfd : s.mem.load32 e.fdSave = fd) :
    ∃ t, step e s = some t ∧ t.input = s.input ∧
      if e.answer s.calls (.read fd 128) = 0 ∨ negative (e.answer s.calls (.read fd 128)) then
        t.calls = s.calls ++ [.read fd 128] ∧ Does e (.close fd) t
      else
        t.calls = s.calls ++ [.read fd 128, .writeConsole (e.bytes s.calls (.read fd 128))] ∧
          Does e (.read fd) t := by
  have hstep : step e s = some (s.catReadLoop e) := by rw [step, hpc]
  unfold catReadLoop at hstep
  dsimp only at hstep
  rw [hfd] at hstep
  have hreads := hkernel.reads s.calls fd 128
  have hkept := (fdSave_read s (e.bytes s.calls (.read fd 128))).trans hfd
  by_cases hend : e.answer s.calls (.read fd 128) = 0 ∨
    negative (e.answer s.calls (.read fd 128)) = true
  · have htest : (decide (e.answer s.calls (.read fd 128) = 0) ||
        negative (e.answer s.calls (.read fd 128))) = true := by simpa using hend
    simp only [if_pos hend]
    exact ⟨_, hstep.trans (congrArg some (if_pos htest)), rfl, rfl, rfl, hkept⟩
  · have htest : ¬ (decide (e.answer s.calls (.read fd 128) = 0) ||
        negative (e.answer s.calls (.read fd 128))) = true := by simpa using hend
    simp only [if_neg hend]
    obtain ⟨hlength, hfits⟩ := hreads (fun h0 => hend (.inl h0)) fun hneg => hend (.inr hneg)
    refine ⟨_, hstep.trans (congrArg some (if_neg htest)), rfl, ?_, rfl, hkept⟩
    show s.calls ++ [Call.read fd 128] ++ [Call.writeConsole (bytesAt (storeBytes s.mem e.catBuf
      ((e.bytes s.calls (.read fd 128)).take 128)) e.catBuf (e.answer s.calls (.read fd 128)))] = _
    rw [List.take_of_length_le (by omega), ← hlength, bytesAt_storeBytes, List.append_assoc]
    rfl

/-- `SYSCALL_CLOSE`, and the prompt. -/
theorem close_reaches (hinv : Inv e before s) (hbefore : Intact e before) (hpc : s.pc = .catDone)
    {fd : Nat} (hfd : s.mem.load32 e.fdSave = fd) :
    ∃ t, step e s = some t ∧ t.calls = s.calls ++ [.close fd] ∧ t.input = s.input ∧
      Leads e prompt t := by
  have hstack := hinv.handling hpc (by decide)
  have hstep : step e s = s.catDone e := by rw [step, hpc]
  simp only [catDone, syscall, ret, hstack, hfd] at hstep
  have htinv := hinv.step hstep
  exact ⟨_, hstep, rfl, rfl, (prompt_does rfl (htinv.intact hbefore)).leads⟩

/-- `SYSCALL_RUN`, and what comes of it. -/
theorem run_reaches (hinv : Inv e before s) (hbefore : Intact e before)
    (hpc : s.pc = .foundEnd .run) {name : List (BitVec 8)} (hname : CString name)
    (hheld : HoldsAt (s.mem.store8 (e.lineBuf + s.ecx) 0) (e.lineBuf + s.edi) (name ++ [0])) :
    ∃ t, step e s = some t ∧ t.calls = s.calls ++ [.run name] ∧ t.input = s.input ∧
      Leads e (launched (e.answer s.calls (.run name))) t := by
  have hstring : Shell.userString { s with
      mem := s.mem.store8 (e.lineBuf + s.ecx) 0, ebx := e.lineBuf + s.edi } (e.lineBuf + s.edi) =
      name := userString_eq hheld hname.1 hname.2
  rw [← hstring]
  generalize hc : Call.run (Shell.userString { s with
    mem := s.mem.store8 (e.lineBuf + s.ecx) 0, ebx := e.lineBuf + s.edi } (e.lineBuf + s.edi)) = c
  have hstep : step e s = some (s.foundEnd e .run) := by rw [step, hpc]
  unfold foundEnd at hstep
  dsimp only at hstep
  rw [if_neg (by decide), hc] at hstep
  unfold launched
  by_cases hanswer : negative (e.answer s.calls c) = true
  · have hfail := hstep.trans (congrArg some (if_pos hanswer))
    rw [if_pos hanswer]
    exact ⟨_, hfail, rfl, rfl, notFound_leads (hinv.step hfail) hbefore rfl⟩
  · have hdone := hstep.trans (congrArg some (if_neg hanswer))
    rw [if_neg hanswer]
    exact ⟨_, hdone, rfl, rfl, started_leads (hinv.step hdone) hbefore rfl⟩

/-- `SYSCALL_EXEC`, and what comes of it. -/
theorem exec_reaches (hinv : Inv e before s) (hbefore : Intact e before) (hpc : s.pc = .execDo)
    (hebx : s.ebx = e.nameBuf) {path : List (BitVec 8)} (hpath : CString path)
    (hheld : HoldsAt s.mem e.nameBuf (path ++ [0])) :
    ∃ t, step e s = some t ∧ t.calls = s.calls ++ [.exec path] ∧ t.input = s.input ∧
      Leads e (launched (e.answer s.calls (.exec path))) t := by
  have hstring : s.userString s.ebx = path := by
    rw [hebx]
    exact userString_eq hheld hpath.1 hpath.2
  have hstep : step e s = some (s.execDo e) := by rw [step, hpc]
  unfold execDo at hstep
  dsimp only at hstep
  rw [hstring] at hstep
  unfold launched
  by_cases hanswer : negative (e.answer s.calls (.exec path)) = true
  · have hfail := hstep.trans (congrArg some (if_pos hanswer))
    rw [if_pos hanswer]
    exact ⟨_, hfail, rfl, rfl, notFound_leads (hinv.step hfail) hbefore rfl⟩
  · have hdone := hstep.trans (congrArg some (if_neg hanswer))
    rw [if_neg hanswer]
    exact ⟨_, hdone, rfl, rfl, started_leads (hinv.step hdone) hbefore rfl⟩

/-! ## Runs -/

/-- The program is where the dialogue is. -/
structure Matches (e : Env) (before : Memory) (d : Dialogue) (s : Shell) : Prop where
  inv : Inv e before s
  does : Does e d.job s
  calls : s.calls = d.calls
  input : s.input = d.input

variable {d : Dialogue}

/-- The step that makes the calls, and the run to the next job. -/
theorem Matches.advance (hinv : Inv e before s) (hstep : step e s = some t)
    (hcalls : t.calls = d.calls) (hinput : t.input = d.input) (h : Leads e d.job t) :
    ∃ u, Matches e before d u ∧ Reaches₁ (step e) s u := by
  obtain ⟨u, htu, hcalls', hinput', hdoes⟩ := h
  exact ⟨u, ⟨(hinv.step hstep).reaches htu, hdoes, hcalls'.trans hcalls, hinput'.trans hinput⟩,
    Relation.TransGen.head' hstep htu⟩

/-- A poll of the serial port. -/
theorem poll_step (hpc : s.pc = .readLoop) : step e s = s.readLoop e := by rw [step, hpc]

/-- Every step of the dialogue is a run of the program, and the program waits where the dialogue
does. -/
theorem respects (hkernel : e.Honest) (hbefore : Intact e before) :
    Respects (Dialogue.step e) (Shell.step e) (Matches e before) := by
  intro d s h
  obtain ⟨job, calls, input⟩ := d
  obtain ⟨hinv, hdoes, hcalls, hinput⟩ := h
  dsimp only at hcalls hinput hdoes
  subst hcalls hinput
  cases job with
  | write bytes next =>
      obtain ⟨t, hreach, hcalls, hinput, hnext⟩ := hdoes
      exact ⟨t, ⟨hinv.reaches hreach.to_reflTransGen, hnext, hcalls, hinput⟩, hreach⟩
  | poll line =>
      obtain ⟨hpc, hedi, hheld⟩ := hdoes
      have hstep := poll_step (e := e) hpc
      unfold Shell.readLoop at hstep
      rw [Dialogue.step]
      dsimp only
      cases hpolls : s.input with
      | nil =>
          rw [hpolls] at hstep
          exact hstep
      | cons poll rest =>
          rw [hpolls] at hstep
          cases poll with
          | none =>
              refine Matches.advance hinv hstep (List.append_assoc ..) rfl (Does.leads ?_)
              exact ⟨rfl, hedi, hheld⟩
          | some b =>
              exact Matches.advance hinv hstep rfl rfl
                (typed_leads (hinv.step hstep) hbefore rfl rfl hedi hheld)
  | list i =>
      obtain ⟨hpc, rfl⟩ := hdoes
      obtain ⟨t, hstep, hcalls, hinput, hleads⟩ := list_reaches hkernel hinv hbefore hpc
      exact Matches.advance hinv hstep hcalls hinput hleads
  | openFile path =>
      obtain ⟨hpc, hheld, hpath⟩ := hdoes
      obtain ⟨t, hstep, hcalls, hinput, hleads⟩ := openFile_reaches hinv hbefore hpc hheld hpath
      exact Matches.advance hinv hstep hcalls hinput hleads
  | read fd =>
      obtain ⟨hpc, hfd⟩ := hdoes
      obtain ⟨t, hstep, hinput, hnext⟩ := read_reaches hkernel hpc hfd
      rw [Dialogue.step]
      dsimp only
      split at hnext
      · next hend =>
          rw [if_pos hend]
          exact Matches.advance hinv hstep hnext.1 hinput hnext.2.leads
      · next hend =>
          rw [if_neg hend]
          exact Matches.advance hinv hstep hnext.1 hinput hnext.2.leads
  | close fd =>
      obtain ⟨hpc, hfd⟩ := hdoes
      obtain ⟨t, hstep, hcalls, hinput, hleads⟩ := close_reaches hinv hbefore hpc hfd
      exact Matches.advance hinv hstep hcalls hinput hleads
  | run name =>
      obtain ⟨hpc, hname, hheld⟩ := hdoes
      obtain ⟨t, hstep, hcalls, hinput, hleads⟩ := run_reaches hinv hbefore hpc hname hheld
      exact Matches.advance hinv hstep hcalls hinput hleads
  | exec path =>
      obtain ⟨hpc, hebx, hpath, hheld⟩ := hdoes
      obtain ⟨t, hstep, hcalls, hinput, hleads⟩ := exec_reaches hinv hbefore hpc hebx hpath hheld
      exact Matches.advance hinv hstep hcalls hinput hleads

/-- A shell that is started is about to greet. -/
theorem Loaded.starts {s₀ : Shell} (h : Loaded e s₀) :
    Matches e s₀.mem (Dialogue.start s₀.calls s₀.input) s₀ where
  inv := h.reach (.refl s₀)
  does := by
    have hstep : step e s₀ = some (s₀.print e .banner .mainLoop) := by rw [step, h.pc]
    refine (Leads.step hstep rfl rfl (Does.leads ?_)).does_write
    exact does_print s₀ .banner h.intact (by decide) (text_nonzero _) fun t _ htpc _ hmem _ =>
      (prompt_does htpc (hmem ▸ h.intact)).leads
  calls := rfl
  input := rfl

/-- The shell refines its dialogue: whatever the kernel answers and whatever is typed, the program
makes the calls of the dialogue, all of them and in its order, and no others. -/
theorem shell_dialogue (hkernel : e.Honest) {s₀ : Shell} (h : Loaded e s₀) :
    (∀ d, Reaches (Dialogue.step e) (Dialogue.start s₀.calls s₀.input) d →
      ∃ s, Reaches (Shell.step e) s₀ s ∧ s.calls = d.calls ∧ s.input = d.input) ∧
    ∀ s, Reaches (Shell.step e) s₀ s →
      ∃ d, Reaches (Dialogue.step e) (Dialogue.start s₀.calls s₀.input) d ∧ s.calls <+: d.calls := by
  have hrespects := respects hkernel h.intact
  constructor
  · intro d hd
    obtain ⟨s, hmatches, hs⟩ := tr_reaches hrespects h.starts hd
    exact ⟨s, hs, hmatches.calls, hmatches.input⟩
  · intro s hs
    obtain ⟨d, t, hst, hmatches, hd⟩ := tr_reaches_rev hrespects h.starts hs
    exact ⟨d, hd, hmatches.calls ▸ reaches_calls hst⟩

end Shell

end Kumo
