import Kumo.User.ShellLine

/-!
# The paths that the shell passes on

The handlers of `cat` and `exec` find their argument in the line and copy it into a buffer for paths,
with a `/` before it. The copy ends before the buffer does, so the argument may have 62 bytes.
-/

namespace Kumo

namespace Shell

open Memory Orbit

variable {e : Env} {s t : Shell} {suffix word : List (BitVec 8)}

@[simp] theorem al_setAl (s : Shell) (b : BitVec 8) : (s.setAl b).al = b := by
  refine BitVec.eq_of_toNat_eq ?_
  have hb := b.isLt
  rw [al, setAl, BitVec.toNat_ofNat]
  dsimp only
  omega

/-! ## The argument -/

/-- `.skip_cat` and its like find the end of the first word. -/
theorem skipName_course (c : Command) (hpc : s.pc = .skipName c)
    (hheld : HoldsAt s.mem (e.lineBuf + s.edi) (suffix ++ [0])) (hnz : ∀ b ∈ suffix, b ≠ 0)
    (hmore : afterWord suffix ≠ []) :
    ∃ t, Course e s t ∧ Keeps s t ∧ t.pc = .foundSpace c ∧
      t.edi + (afterWord suffix).length = s.edi + suffix.length ∧
      HoldsAt t.mem (e.lineBuf + t.edi) (afterWord suffix ++ [0]) := by
  induction suffix generalizing s with
  | nil => exact absurd rfl hmore
  | cons b suffix ih =>
      have hentry : ¬ s.pc.IsEntry := by rw [hpc]; exact id
      have hstep : step e s = some (s.skipName e c) := by rw [step, hpc]
      obtain ⟨hbyte, htail⟩ := holdsAt_cons.mp hheld
      rw [Nat.add_assoc] at htail
      have hline : s.lineByte e s.edi = b := hbyte
      have hb := hnz b (List.mem_cons_self ..)
      unfold skipName at hstep
      rw [hline] at hstep
      have hnext := hstep.trans (congrArg some (if_neg hb))
      by_cases hspace : b = 0x20#8
      · have hend : afterWord (b :: suffix) = b :: suffix :=
          List.dropWhile_cons_of_neg (by simpa using hspace)
        rw [hend]
        exact ⟨_, .one hentry (hnext.trans (congrArg some (if_pos hspace))), ⟨rfl, rfl, rfl⟩, rfl,
          rfl, hheld⟩
      · have hskip : afterWord (b :: suffix) = afterWord suffix :=
          List.dropWhile_cons_of_pos (by simpa using hspace)
        have hgo := hnext.trans (congrArg some (if_neg hspace))
        rw [hskip] at hmore ⊢
        obtain ⟨t, hcourse, hkeeps, htpc, hedi, ht⟩ := ih
          (s := { s.setAl b with edi := s.edi + 1, pc := .skipName c }) rfl htail
          (fun d hd => hnz d (List.mem_cons_of_mem b hd)) hmore
        refine ⟨t, .step hentry hgo hcourse, ⟨hkeeps.mem, hkeeps.calls, hkeeps.input⟩, htpc, ?_, ht⟩
        rw [hedi, List.length_cons]
        show s.edi + 1 + _ = _
        omega

/-- `.skip_sp` and its like find the next word. The byte it begins with is in `al`. -/
theorem skipSp_course (c : Command) (hpc : s.pc = .skipSp c)
    (hheld : HoldsAt s.mem (e.lineBuf + s.edi) (suffix ++ [0])) :
    ∃ t, Course e s t ∧ Keeps s t ∧ t.pc = .argStart c ∧
      t.edi + (skipSpace suffix).length = s.edi + suffix.length ∧
      HoldsAt t.mem (e.lineBuf + t.edi) (skipSpace suffix ++ [0]) ∧
      t.al = t.mem (e.lineBuf + t.edi) := by
  -- a byte that is no space ends the loop
  have hend : ∀ s : Shell, s.pc = .skipSp c → s.lineByte e s.edi ≠ 0x20#8 →
      ∃ t, Course e s t ∧ Keeps s t ∧ t.pc = .argStart c ∧ t.edi = s.edi ∧
        t.al = s.lineByte e s.edi := by
    intro s hpc hb
    have hstep : step e s = some (s.skipSp e c) := by rw [step, hpc]
    have hdone := hstep.trans (congrArg some (if_pos hb))
    exact ⟨_, .one (by rw [hpc]; exact id) hdone, ⟨rfl, rfl, rfl⟩, rfl, rfl, al_setAl s _⟩
  induction suffix generalizing s with
  | nil =>
      have hbyte : s.lineByte e s.edi = 0 := (holdsAt_cons.mp hheld).1
      obtain ⟨t, hcourse, hkeeps, htpc, hedi, hal⟩ := hend s hpc (by rw [hbyte]; decide)
      refine ⟨t, hcourse, hkeeps, htpc, congrArg (· + 0) hedi, ?_, ?_⟩
      · rw [hkeeps.mem, hedi]
        exact hheld
      · rw [hkeeps.mem, hedi]
        exact hal
  | cons b suffix ih =>
      obtain ⟨hbyte, htail⟩ := holdsAt_cons.mp hheld
      rw [Nat.add_assoc] at htail
      have hline : s.lineByte e s.edi = b := hbyte
      by_cases hspace : b = 0x20#8
      · have hskip : skipSpace (b :: suffix) = skipSpace suffix :=
          List.dropWhile_cons_of_pos (by simpa using hspace)
        have hstep : step e s = some (s.skipSp e c) := by rw [step, hpc]
        unfold skipSp at hstep
        rw [hline] at hstep
        have hgo := hstep.trans (congrArg some (if_neg (not_not_intro hspace)))
        obtain ⟨t, hcourse, hkeeps, htpc, hedi, ht⟩ := ih
          (s := { s.setAl b with edi := s.edi + 1, pc := .skipSp c }) rfl htail
        rw [hskip]
        refine ⟨t, .step (by rw [hpc]; exact id) hgo hcourse,
          ⟨hkeeps.mem, hkeeps.calls, hkeeps.input⟩, htpc, ?_, ht⟩
        rw [hedi, List.length_cons]
        show s.edi + 1 + _ = _
        omega
      · have hskip : skipSpace (b :: suffix) = b :: suffix :=
          List.dropWhile_cons_of_neg (by simpa using hspace)
        obtain ⟨t, hcourse, hkeeps, htpc, hedi, hal⟩ := hend s hpc (by rw [hline]; exact hspace)
        rw [hskip]
        refine ⟨t, hcourse, hkeeps, htpc, by rw [hedi], ?_, ?_⟩
        · rw [hkeeps.mem, hedi]
          exact hheld
        · rw [hkeeps.mem, hedi]
          exact hal

/-- The bytes after the first word begin with a space. -/
theorem afterWord_cons {line : List (BitVec 8)} (hne : afterWord line ≠ []) :
    ∃ rest, afterWord line = 0x20#8 :: rest := by
  obtain ⟨b, rest, hcons⟩ := List.exists_cons_of_ne_nil hne
  have hhead := List.head?_dropWhile_not (fun b => decide (b ≠ 0x20#8)) line
  rw [show line.dropWhile (fun b => decide (b ≠ 0x20#8)) = b :: rest from hcons] at hhead
  have hb : b = 0x20#8 := by simpa using hhead
  exact ⟨rest, by rw [hcons, hb]⟩

/-- A handler that takes an argument finds it. -/
theorem argument_course (c : Command) (hc : c ≠ .help ∧ c ≠ .ls) (hpc : s.pc = .handler c)
    (hheld : HoldsAt s.mem (e.lineBuf + s.esi) (suffix ++ [0])) (hnz : ∀ b ∈ suffix, b ≠ 0)
    (harg : skipSpace (afterWord suffix) ≠ []) :
    ∃ s' t, step e s = some s' ∧ Course e s' t ∧ Keeps s t ∧ t.pc = .argStart c ∧
      t.edi + (skipSpace (afterWord suffix)).length = s.esi + suffix.length ∧
      HoldsAt t.mem (e.lineBuf + t.edi) (skipSpace (afterWord suffix) ++ [0]) ∧
      t.al = t.mem (e.lineBuf + t.edi) := by
  have hmore : afterWord suffix ≠ [] := by
    intro hnil
    rw [hnil] at harg
    exact harg rfl
  obtain ⟨rest, hrest⟩ := afterWord_cons hmore
  have hstep : step e s = some ({ s with edi := s.esi }.goto (.skipName c)) := by
    rw [step, hpc]
    cases c with
    | help => exact absurd rfl hc.1
    | ls => exact absurd rfl hc.2
    | cat | echo | run | exec => rfl
  obtain ⟨t, hname, htkeeps, htpc, htedi, ht⟩ := skipName_course (e := e) c
    (s := { s with edi := s.esi }.goto (.skipName c)) rfl hheld hnz hmore
  rw [hrest] at ht htedi ⊢
  have hspace : step e t = some ({ t with edi := t.edi + 1 }.goto (.skipSp c)) := by
    rw [step, htpc]
  have htail := (holdsAt_cons.mp ht).2
  rw [Nat.add_assoc] at htail
  obtain ⟨u, hspaces, hukeeps, hupc, huedi, hu, hal⟩ := skipSp_course (e := e) c
    (s := { t with edi := t.edi + 1 }.goto (.skipSp c)) rfl htail
  have hskip : skipSpace (0x20#8 :: rest) = skipSpace rest :=
    List.dropWhile_cons_of_pos (by decide)
  rw [hskip]
  refine ⟨_, u, hstep, hname.trans (.step (by rw [htpc]; exact id) hspace hspaces), ?_, hupc, ?_, hu,
    hal⟩
  · exact ⟨hukeeps.mem.trans htkeeps.mem, hukeeps.calls.trans htkeeps.calls,
      hukeeps.input.trans htkeeps.input⟩
  · rw [huedi]
    show t.edi + 1 + rest.length = s.esi + suffix.length
    rw [List.length_cons] at htedi
    have hedi : t.edi + (rest.length + 1) = s.esi + suffix.length := htedi
    omega

/-- `.cat_find_end` and `.run_find_end` find the end of the argument. -/
theorem findEnd_course (c : Command) (hpc : s.pc = .findEnd c)
    (hheld : HoldsAt s.mem (e.lineBuf + s.ecx) (suffix ++ [0])) (hnz : ∀ b ∈ suffix, b ≠ 0) :
    ∃ t, Course e s t ∧ Keeps s t ∧ t.pc = .foundEnd c ∧ t.edi = s.edi ∧
      t.ecx = s.ecx + (wordOf suffix).length := by
  induction suffix generalizing s with
  | nil =>
      have hstep : step e s = some (s.findEnd e c) := by rw [step, hpc]
      have hend := hstep.trans (congrArg some (if_pos (holdsAt_cons.mp hheld).1))
      exact ⟨_, .one (by rw [hpc]; exact id) hend, ⟨rfl, rfl, rfl⟩, rfl, rfl, rfl⟩
  | cons b suffix ih =>
      have hstep : step e s = some (s.findEnd e c) := by rw [step, hpc]
      have hentry : ¬ s.pc.IsEntry := by rw [hpc]; exact id
      obtain ⟨hbyte, htail⟩ := holdsAt_cons.mp hheld
      rw [Nat.add_assoc] at htail
      have hline : s.lineByte e s.ecx = b := hbyte
      unfold findEnd at hstep
      rw [hline] at hstep
      have hnext := hstep.trans (congrArg some (if_neg (hnz b (List.mem_cons_self ..))))
      by_cases hspace : b = 0x20#8
      · have hword : wordOf (b :: suffix) = [] :=
          List.takeWhile_cons_of_neg (by simpa using hspace)
        rw [hword]
        exact ⟨_, .one hentry (hnext.trans (congrArg some (if_pos hspace))), ⟨rfl, rfl, rfl⟩, rfl,
          rfl, rfl⟩
      · have hword : wordOf (b :: suffix) = b :: wordOf suffix :=
          List.takeWhile_cons_of_pos (by simpa using hspace)
        have hgo := hnext.trans (congrArg some (if_neg hspace))
        obtain ⟨t, hcourse, hkeeps, htpc, hedi, hecx⟩ := ih
          (s := { s.setAl b with ecx := s.ecx + 1, pc := .findEnd c }) rfl htail
          (fun d hd => hnz d (List.mem_cons_of_mem b hd))
        refine ⟨t, .step hentry hgo hcourse, ⟨hkeeps.mem, hkeeps.calls, hkeeps.input⟩, htpc, hedi, ?_⟩
        rw [hecx, hword, List.length_cons]
        show s.ecx + 1 + _ = _
        omega

/-! ## The copy -/

/-- The loops that copy a path. The word that is left ends with a byte that stops the loop, and fits
into the buffer, which begins behind it. -/
theorem copyPath_course (k : Copy) {z : BitVec 8} (hpc : s.pc = .copyPath k)
    (hheld : HoldsAt s.mem (s.esi + s.ecx) (word ++ [z])) (hstop : k.stops z)
    (hword : ∀ b ∈ word, ¬ k.stops b) (hlimit : s.ecx + word.length ≤ k.limit)
    (hbehind : s.esi + s.ecx + word.length < s.edi) :
    ∃ t, Course e s t ∧ t.pc = .copyDone k ∧ t.calls = s.calls ∧ t.edi = s.edi ∧
      t.ecx = s.ecx + word.length ∧ HoldsAt t.mem (s.edi + s.ecx) word ∧
      ∀ x < s.edi + s.ecx, t.mem x = s.mem x := by
  induction word generalizing s with
  | nil =>
      have hentry : ¬ s.pc.IsEntry := by rw [hpc]; exact id
      have hstep : step e s = some (s.copyPath k) := by rw [step, hpc]
      have hz : s.mem (s.esi + s.ecx) = z := (holdsAt_cons.mp hheld).1
      have hdone := hstep.trans (congrArg some (if_pos (by rw [hz]; exact hstop)))
      exact ⟨_, .one hentry hdone, rfl, rfl, rfl, rfl, holdsAt_nil, fun _ _ => rfl⟩
  | cons b word ih =>
      have hentry : ¬ s.pc.IsEntry := by rw [hpc]; exact id
      have hstep : step e s = some (s.copyPath k) := by rw [step, hpc]
      obtain ⟨hb, htail⟩ := holdsAt_cons.mp hheld
      have hsource : HoldsAt s.mem (s.esi + (s.ecx + 1)) (word ++ [z]) := by
        rw [← Nat.add_assoc]
        exact htail
      rw [List.length_cons] at hlimit hbehind
      unfold copyPath at hstep
      rw [hb] at hstep
      have hnext := hstep.trans (congrArg some (if_neg (hword b (List.mem_cons_self ..))))
      by_cases hfull : k.limit ≤ s.ecx + 1
      · -- the buffer is full, and the word has ended
        obtain rfl : word = [] := List.eq_nil_of_length_eq_zero (by omega)
        refine ⟨_, .one hentry (hnext.trans (congrArg some (if_pos hfull))), rfl, rfl, rfl, rfl, ?_,
          fun x hx => store8_other (Nat.ne_of_lt hx)⟩
        exact holdsAt_singleton.mpr (Function.update_self ..)
      · have hgo := hnext.trans (congrArg some (if_neg hfull))
        have hkept : HoldsAt (s.mem.store8 (s.edi + s.ecx) b) (s.esi + (s.ecx + 1))
            (word ++ [z]) := by
          refine hsource.update (.inr ?_) b
          rw [List.length_append, List.length_singleton]
          omega
        obtain ⟨t, hcourse, htpc, hcalls, hedi, hecx, hcopied, hframe⟩ := ih
          (s := { s.setAl b with
            mem := s.mem.store8 (s.edi + s.ecx) b, ecx := s.ecx + 1, pc := .copyPath k })
          rfl hkept (fun c hc => hword c (List.mem_cons_of_mem b hc))
          (by show s.ecx + 1 + _ ≤ _; omega) (by show s.esi + (s.ecx + 1) + _ < s.edi; omega)
        dsimp only at hecx hcopied hframe
        refine ⟨t, .step hentry hgo hcourse, htpc, hcalls, hedi, ?_, holdsAt_cons.mpr ⟨?_, hcopied⟩,
          fun x hx => ?_⟩
        · rw [hecx, List.length_cons]
          omega
        · rw [hframe _ (by show s.edi + s.ecx < s.edi + (s.ecx + 1); omega)]
          exact Function.update_self ..
        · rw [hframe x (by show x < s.edi + (s.ecx + 1); omega)]
          exact store8_other (by omega)

/-- The kernel copies a string up to its NUL. -/
theorem userString_eq {p : Nat} {str : List (BitVec 8)} (hheld : HoldsAt s.mem p (str ++ [0]))
    (hnz : ∀ b ∈ str, b ≠ 0) (hlength : str.length < 256) : s.userString p = str := by
  have hsplit : bytesAt s.mem p 256 = str ++ 0 :: bytesAt s.mem (p + (str.length + 1))
      (256 - (str.length + 1)) := by
    have hall := bytesAt_add s.mem p (str.length + 1) (256 - (str.length + 1))
    have hbytes := hheld.bytesAt
    rw [List.length_append, List.length_singleton] at hbytes
    rw [Nat.add_sub_cancel' (show str.length + 1 ≤ 256 by omega), hbytes] at hall
    rw [hall, List.append_assoc]
    rfl
  rw [userString, hsplit, List.takeWhile_append_of_pos (by simpa using hnz),
    List.takeWhile_cons_of_neg (by decide), List.append_nil]

/-- What the copies have in common: from the loop to the NUL after the path. -/
theorem copied_course (k : Copy) (word start : List (BitVec 8)) {z : BitVec 8}
    (hpc : s.pc = .copyPath k) (hecx : s.ecx = 0) (hheld : HoldsAt s.mem s.esi (word ++ [z]))
    (hstop : k.stops z) (hword : ∀ b ∈ word, ¬ k.stops b) (hlimit : word.length ≤ k.limit)
    (hbehind : s.esi + word.length < e.nameBuf) (hedi : s.edi = e.nameBuf + start.length)
    (hstart : HoldsAt s.mem e.nameBuf start) :
    ∃ t, Course e s t ∧ t.pc = .copyDone k ∧ t.calls = s.calls ∧
      HoldsAt (t.mem.store8 (t.edi + t.ecx) 0) e.nameBuf (start ++ word ++ [0]) := by
  obtain ⟨t, hcourse, htpc, hcalls, htedi, htecx, hcopied, hframe⟩ := copyPath_course (e := e) k hpc
    (by rw [hecx]; exact hheld) hstop hword (by omega) (by omega)
  rw [hecx] at htecx hcopied hframe
  have hpath : HoldsAt t.mem e.nameBuf (start ++ word) := by
    refine holdsAt_append.mpr ⟨hstart.congr fun x _ hx => hframe x (by omega), ?_⟩
    rw [← hedi]
    exact hcopied
  refine ⟨t, hcourse, htpc, hcalls, ?_⟩
  have hend : t.edi + t.ecx = e.nameBuf + (start ++ word).length := by
    rw [htedi, htecx, hedi, List.length_append]
    omega
  rw [hend]
  exact hpath.snoc 0

/-! ## The two handlers -/

/-- From the entry of a handler, without coming to another entry, to a state whose last system call
is `c`; it is the only one. -/
def Calls (e : Env) (s : Shell) (c : Call) : Prop :=
  ∃ s' t, step e s = some s' ∧ Course e s' t ∧ t.calls = s.calls ++ [c]

/-- A word, and the byte that ends it. -/
theorem word_end (line : List (BitVec 8)) :
    ∃ z rest, line ++ [0] = wordOf line ++ z :: rest ∧ (z = 0 ∨ z = 0x20#8) := by
  have hsplit : line = wordOf line ++ afterWord line := List.takeWhile_append_dropWhile.symm
  by_cases hend : afterWord line = []
  · refine ⟨0, [], ?_, .inl rfl⟩
    rw [hend, List.append_nil] at hsplit
    rw [← hsplit]
  · obtain ⟨rest, hrest⟩ := afterWord_cons hend
    refine ⟨0x20#8, rest ++ [0], ?_, .inr rfl⟩
    conv_lhs => rw [hsplit, hrest]
    rw [List.append_assoc]
    rfl

/-- The bytes of a word are no spaces. -/
theorem wordOf_chars {line : List (BitVec 8)} (hnz : ∀ b ∈ line, b ≠ 0) :
    ∀ b ∈ wordOf line, b ≠ 0 ∧ b ≠ 0x20#8 := by
  intro b hb
  refine ⟨hnz b ((List.takeWhile_sublist _).subset hb), ?_⟩
  simpa using List.all_eq_true.mp List.all_takeWhile b hb

theorem wordOf_length (line : List (BitVec 8)) : (wordOf line).length ≤ line.length :=
  (List.takeWhile_sublist _).length_le

/-- The end of `cat`'s copy: the file is opened. -/
theorem copyDone_cat (hpc : s.pc = .copyDone .cat)
    (hpath : HoldsAt (s.mem.store8 (s.edi + s.ecx) 0) e.nameBuf (word ++ [0]))
    (hnz : ∀ b ∈ word, b ≠ 0) (hlength : word.length < 256) :
    ∃ t, Course e s t ∧ t.calls = s.calls ++ [.open word 0] := by
  have hdone : step e s = some ({ s with mem := s.mem.store8 (s.edi + s.ecx) 0 }.goto .openFile) := by
    rw [step, hpc]
    rfl
  have hopen : ∃ t, step e ({ s with mem := s.mem.store8 (s.edi + s.ecx) 0 }.goto .openFile) = some t ∧
      t.calls = s.calls ++ [.open word 0] := by
    have hstring := userString_eq (s := { s with
      mem := s.mem.store8 (s.edi + s.ecx) 0, pc := .openFile, ebx := e.nameBuf, ecx := 0 })
      hpath hnz hlength
    refine ⟨_, rfl, ?_⟩
    rw [← hstring]
    unfold openFile
    dsimp only
    split <;> rfl
  obtain ⟨t, hstep, hcalls⟩ := hopen
  exact ⟨t, .step (by rw [hpc]; exact id) hdone (.one id hstep), hcalls⟩

/-- The end of `exec`'s copies: the program is loaded. -/
theorem copyDone_exec {k : Copy} (hk : k ≠ .cat) (hpc : s.pc = .copyDone k)
    (hpath : HoldsAt (s.mem.store8 (s.edi + s.ecx) 0) e.nameBuf (word ++ [0]))
    (hnz : ∀ b ∈ word, b ≠ 0) (hlength : word.length < 256) :
    ∃ t, Course e s t ∧ t.calls = s.calls ++ [.exec word] := by
  have hdone : step e s = some ({ s with
      mem := s.mem.store8 (s.edi + s.ecx) 0, ebx := e.nameBuf }.goto .execDo) := by
    rw [step, hpc]
    cases k with
    | cat => exact absurd rfl hk
    | relative | absolute => rfl
  have hexec : ∃ t, step e ({ s with
      mem := s.mem.store8 (s.edi + s.ecx) 0, ebx := e.nameBuf }.goto .execDo) = some t ∧
      t.calls = s.calls ++ [.exec word] := by
    have hstring := userString_eq (s := { s with
      mem := s.mem.store8 (s.edi + s.ecx) 0, pc := .execDo, ebx := e.nameBuf }) hpath hnz hlength
    refine ⟨_, rfl, ?_⟩
    rw [← hstring]
    unfold execDo
    dsimp only
    split <;> rfl
  obtain ⟨t, hstep, hcalls⟩ := hexec
  exact ⟨t, .step (by rw [hpc]; exact id) hdone (.one id hstep), hcalls⟩

/-- `cat` opens the file whose path is its argument with a `/` before it. -/
theorem cat_calls (hpc : s.pc = .handler .cat) (hbound : s.esi + suffix.length ≤ 127)
    (hheld : HoldsAt s.mem (e.lineBuf + s.esi) (suffix ++ [0])) (hnz : ∀ b ∈ suffix, b ≠ 0)
    (hne : firstWord (afterWord suffix) ≠ []) (hlength : (firstWord (afterWord suffix)).length ≤ 62) :
    Calls e s (.open (0x2F#8 :: firstWord (afterWord suffix)) 0) := by
  have harg : skipSpace (afterWord suffix) ≠ [] := fun hnil => hne (by rw [firstWord, hnil]; rfl)
  obtain ⟨s', t, hstep, hcourse, hkeeps, htpc, htedi, ht, hal⟩ :=
    argument_course (e := e) .cat ⟨by decide, by decide⟩ hpc hheld hnz harg
  have htail : ∀ b ∈ skipSpace (afterWord suffix), b ≠ 0 := fun b hb =>
    hnz b ((List.dropWhile_sublist _).subset ((List.dropWhile_sublist _).subset hb))
  rw [firstWord] at hne hlength ⊢
  generalize skipSpace (afterWord suffix) = tail at *
  have hchars := wordOf_chars htail
  have hwordle := wordOf_length tail
  -- the argument starts with a byte that is no NUL
  obtain ⟨b, rest, hcons⟩ := List.exists_cons_of_ne_nil harg
  have hfirst : t.mem (e.lineBuf + t.edi) = b := by
    rw [hcons] at ht
    exact (holdsAt_cons.mp ht).1
  have hb : t.al ≠ 0 := by
    rw [hal, hfirst]
    exact htail b (by rw [hcons]; exact List.mem_cons_self ..)
  have hfind : step e t = some ({ t with ebx := e.lineBuf + t.edi, ecx := t.edi }.goto
      (.findEnd .cat)) := by
    rw [step, htpc]
    exact congrArg some (if_neg hb)
  obtain ⟨u, hend, hukeeps, hupc, huedi, huecx⟩ := findEnd_course (e := e) .cat
    (s := { t with ebx := e.lineBuf + t.edi, ecx := t.edi }.goto (.findEnd .cat)) rfl ht htail
  have hcopy : step e u = some (({ u with
      mem := (u.mem.store8 (e.lineBuf + u.ecx) 0).store8 e.nameBuf 0x2F#8 }).startCopy e .cat
        (e.nameBuf + 1)) := by
    rw [step, hupc]
    rfl
  dsimp only [goto] at huedi huecx
  have hmem : u.mem = t.mem := hukeeps.mem
  have hword : HoldsAt t.mem (e.lineBuf + t.edi) (wordOf tail) := by
    have hsplit : tail = wordOf tail ++ afterWord tail := List.takeWhile_append_dropWhile.symm
    rw [hsplit, List.append_assoc] at ht
    exact (holdsAt_append.mp ht).1
  have hsource : HoldsAt ((t.mem.store8 (e.lineBuf + (t.edi + (wordOf tail).length)) 0).store8
      e.nameBuf 0x2F#8) (e.lineBuf + t.edi) (wordOf tail ++ [0]) := by
    rw [← Nat.add_assoc]
    refine (hword.snoc 0).update (.inr ?_) _
    rw [List.length_append, List.length_singleton, Env.nameBuf]
    omega
  obtain ⟨v, hcopied, hvpc, hvcalls, hpath⟩ := copied_course (e := e) .cat (wordOf tail)
    [0x2F#8] (z := 0)
    (s := ({ u with mem := (u.mem.store8 (e.lineBuf + u.ecx) 0).store8 e.nameBuf 0x2F#8 }).startCopy
      e .cat (e.nameBuf + 1)) rfl rfl
    (by
      show HoldsAt ((u.mem.store8 (e.lineBuf + u.ecx) 0).store8 e.nameBuf 0x2F#8)
        (e.lineBuf + u.edi) _
      rw [hmem, huecx, huedi]
      exact hsource)
    rfl (fun c hc => by simpa [Copy.stops] using (hchars c hc).1) hlength
    (by
      show e.lineBuf + u.edi + _ < e.nameBuf
      rw [huedi, Env.nameBuf]
      omega)
    rfl (holdsAt_singleton.mpr (Function.update_self ..))
  obtain ⟨w, hopened, hwcalls⟩ := copyDone_cat (e := e) hvpc hpath
    (fun c hc => by
      rcases List.mem_cons.mp hc with rfl | hc
      · decide
      · exact (hchars c hc).1)
    (by rw [List.length_append]; show 1 + _ < 256; omega)
  refine ⟨s', w, hstep, hcourse.trans (.step (by rw [htpc]; exact id) hfind (hend.trans
    (.step (by rw [hupc]; exact id) hcopy (hcopied.trans hopened)))), ?_⟩
  rw [hwcalls, hvcalls]
  exact congrArg (· ++ _) (hukeeps.calls.trans hkeeps.calls)

/-- The path that `exec` passes on. -/
def execPath (word : List (BitVec 8)) : List (BitVec 8) :=
  if word.head? = some 0x2F#8 then word else 0x2F#8 :: word

/-- `exec` loads the program whose path is its argument, with a `/` before it if it has none. -/
theorem exec_calls (hpc : s.pc = .handler .exec) (hbound : s.esi + suffix.length ≤ 127)
    (hheld : HoldsAt s.mem (e.lineBuf + s.esi) (suffix ++ [0])) (hnz : ∀ b ∈ suffix, b ≠ 0)
    (hne : firstWord (afterWord suffix) ≠ []) (hlength : (firstWord (afterWord suffix)).length ≤ 62) :
    Calls e s (.exec (execPath (firstWord (afterWord suffix)))) := by
  have harg : skipSpace (afterWord suffix) ≠ [] := fun hnil => hne (by rw [firstWord, hnil]; rfl)
  obtain ⟨s', t, hstep, hcourse, hkeeps, htpc, htedi, ht, hal⟩ :=
    argument_course (e := e) .exec ⟨by decide, by decide⟩ hpc hheld hnz harg
  have htail : ∀ b ∈ skipSpace (afterWord suffix), b ≠ 0 := fun b hb =>
    hnz b ((List.dropWhile_sublist _).subset ((List.dropWhile_sublist _).subset hb))
  rw [firstWord] at hne hlength ⊢
  generalize skipSpace (afterWord suffix) = tail at *
  have hchars := wordOf_chars htail
  have hwordle := wordOf_length tail
  obtain ⟨z, rest, hsplit, hz⟩ := word_end tail
  rw [hsplit] at ht
  obtain ⟨b, word, hcons⟩ := List.exists_cons_of_ne_nil hne
  have hfirst : t.mem (e.lineBuf + t.edi) = b := by
    rw [hcons] at ht
    exact (holdsAt_cons.mp ht).1
  have hb : t.al ≠ 0 := by
    rw [hal, hfirst]
    exact (hchars b (by rw [hcons]; exact List.mem_cons_self ..)).1
  have hsource : HoldsAt t.mem (e.lineBuf + t.edi) (wordOf tail ++ [z]) := by
    rw [← List.singleton_append, ← List.append_assoc] at ht
    exact (holdsAt_append.mp ht).1
  have hstart : step e t = some (t.argStart e .exec) := by rw [step, htpc]
  have hgo := hstart.trans (congrArg some (if_neg hb))
  have htentry : ¬ t.pc.IsEntry := by rw [htpc]; exact id
  have htcalls : t.calls = s.calls := hkeeps.calls
  by_cases habsolute : b = 0x2F#8
  · have hpath : execPath (wordOf tail) = wordOf tail := by
      rw [execPath, hcons, habsolute]
      rfl
    have hcopy := hgo.trans (congrArg some (if_pos (by rw [hal, hfirst, habsolute])))
    obtain ⟨v, hcopied, hvpc, hvcalls, hheld'⟩ := copied_course (e := e) .absolute
      (wordOf tail) [] (z := z) (s := t.startCopy e .absolute e.nameBuf) rfl rfl hsource
      (by rcases hz with rfl | rfl <;> rfl)
      (fun c hc => by simpa [Copy.stops] using hchars c hc) (Nat.le_succ_of_le hlength)
      (by
        show e.lineBuf + t.edi + _ < e.nameBuf
        rw [Env.nameBuf]
        omega)
      rfl holdsAt_nil
    obtain ⟨w, hloaded, hwcalls⟩ := copyDone_exec (e := e) (by decide) hvpc hheld'
      (fun c hc => (hchars c hc).1) (by rw [List.nil_append]; omega)
    refine ⟨s', w, hstep, hcourse.trans (.step htentry hcopy (hcopied.trans hloaded)), ?_⟩
    rw [hwcalls, hvcalls, hpath]
    exact congrArg (· ++ _) htcalls
  · have hpath : execPath (wordOf tail) = 0x2F#8 :: wordOf tail := by
      rw [execPath, if_neg]
      rw [hcons]
      exact fun heq => habsolute (Option.some.inj heq)
    have hcopy := hgo.trans (congrArg some (if_neg (by rw [hal, hfirst]; exact habsolute)))
    obtain ⟨v, hcopied, hvpc, hvcalls, hheld'⟩ := copied_course (e := e) .relative
      (wordOf tail) [0x2F#8] (z := z)
      (s := ({ t with mem := t.mem.store8 e.nameBuf 0x2F#8 }).startCopy e .relative (e.nameBuf + 1))
      rfl rfl
      (hsource.update (.inr (by
        rw [List.length_append, List.length_singleton, Env.nameBuf]
        omega)) _)
      (by rcases hz with rfl | rfl <;> rfl)
      (fun c hc => by simpa [Copy.stops] using hchars c hc) hlength
      (by
        show e.lineBuf + t.edi + _ < e.nameBuf
        rw [Env.nameBuf]
        omega)
      rfl (holdsAt_singleton.mpr (Function.update_self ..))
    obtain ⟨w, hloaded, hwcalls⟩ := copyDone_exec (e := e) (by decide) hvpc hheld'
      (fun c hc => by
        rcases List.mem_cons.mp hc with rfl | hc
        · decide
        · exact (hchars c hc).1)
      (by rw [List.length_append]; show 1 + _ < 256; omega)
    refine ⟨s', w, hstep, hcourse.trans (.step htentry hcopy (hcopied.trans hloaded)), ?_⟩
    rw [hwcalls, hvcalls, hpath]
    exact congrArg (· ++ _) htcalls

end Shell

end Kumo
