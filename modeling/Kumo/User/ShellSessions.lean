import Kumo.User.ShellWorld

/-!
# Sessions of the shell

A job comes to the next poll, and so a whole session shows what its bytes and the world say: the
transcript is a function of them. The kernel that answers as the world says exists for every world,
so the sessions are not hypothetical.
-/

namespace Kumo

namespace Shell

open Orbit StateTransition Content

variable {e : Env} {w : World} {base calls : List Call} {d d' : Dialogue}

/-! ## Whole jobs and whole sessions -/

/-- The files that are named in a session are in the root directory. -/
def SoundSession (w : World) (line : List (BitVec 8)) : List (Option (BitVec 8)) → Prop
  | [] => True
  | none :: polls => SoundSession w line polls
  | some b :: polls =>
      (typed line b).Sound w ∧ SoundSession ((typed line b).world w) (typed line b).line polls

namespace World

/-- What the kernel returns. -/
def reply (w : World) : Call → Nat
  | .open path flags => word (w.store.call w.task (.open path.tail flags)).1.1
  | .read fd size => word (w.store.call w.task (.read fd size)).1.1
  | .close fd => word (w.store.call w.task (.close fd)).1.1
  | .readdir _ i => if i < w.names.length then 0 else word (-1)
  | .run name => if w.starts (.run name) then 0 else word (-1)
  | .exec path => if w.starts (.exec path) then 0 else word (-1)
  | _ => 0

/-- What it writes to the buffer of the shell. -/
def bytes (w : World) : Call → Bytes
  | .read fd size => (w.store.call w.task (.read fd size)).1.2.take (w.reply (.read fd size))
  | .readdir _ i => (w.names.getD i []).take nameMax ++ [0]
  | _ => []

/-- A kernel that answers as the world says. -/
def env (w : World) (data stackTop : Nat) : Env where
  data := data
  stackTop := stackTop
  reply calls c := (w.afterAll calls).reply c
  bytes calls c := (w.afterAll calls).bytes c

/-- The names in the root directory are names of files. -/
def Tidy (w : World) : Prop := ∀ name ∈ w.names, FileName name ∧ name.length ≤ nameMax

instance (w : World) : Decidable w.Tidy := inferInstanceAs (Decidable (∀ name ∈ w.names, _))

theorem Tidy.after (h : w.Tidy) {c : Call} (hc : c.Sound) : (w.after c).Tidy := by
  have hpath : ∀ path, RootPath path → ∀ name ∈ w.namesAfter path.tail,
      FileName name ∧ name.length ≤ nameMax := by
    intro path hpath name hname
    unfold namesAfter at hname
    split at hname
    · exact h name hname
    · rcases List.mem_append.mp hname with hname | hname
      · exact h name hname
      · rw [List.mem_singleton.mp hname]
        exact hpath.2
  cases c with
  | «open» path flags => exact hpath path hc
  | exec path => exact hpath path hc
  | readchar | yield | writeConsole | read | close | readdir | run => exact h

theorem Tidy.afterAll (h : w.Tidy) (hcalls : ∀ c ∈ calls, c.Sound) : (w.afterAll calls).Tidy := by
  induction calls generalizing w with
  | nil => exact h
  | cons c calls ih =>
      exact ih (h.after (hcalls c (List.mem_cons_self ..)))
        fun d hd => hcalls d (List.mem_cons_of_mem c hd)

theorem reply_lt (w : World) (c : Call) : w.reply c < 2 ^ 32 := by
  cases c with
  | «open» | read | close => exact word_lt _
  | readdir | run | exec =>
      dsimp only [reply]
      split
      · exact Nat.two_pow_pos 32
      · exact word_lt _
  | readchar | yield | writeConsole => exact Nat.two_pow_pos 32

variable {data stackTop : Nat}

theorem env_answer (w : World) (calls : List Call) (c : Call) :
    (w.env data stackTop).answer calls c = (w.afterAll calls).reply c :=
  Nat.mod_eq_of_lt (reply_lt _ c)

/-- Reading delivers what it says. -/
theorem reply_read (w : World) (fd size : Nat) :
    w.reply (.read fd size) = word (-1) ∧ (w.store.call w.task (.read fd size)).1.2 = [] ∨
      w.reply (.read fd size) = (w.store.call w.task (.read fd size)).1.2.length % 2 ^ 32 ∧
        (w.store.call w.task (.read fd size)).1.2.length ≤ size := by
  unfold reply
  simp only [FileStore.call]
  split
  · exact .inl ⟨rfl, rfl⟩
  · refine .inr ⟨?_, ?_⟩
    · simp only [word]
      omega
    · rw [length_slice]
      exact Nat.min_le_left ..

/-- Such a kernel keeps the promises about the buffers. -/
theorem env_honest (w : World) : (w.env data stackTop).Honest where
  names calls path i _ := by
    show 0 ∈ (((w.afterAll calls).names.getD i []).take nameMax ++ [0]).take 64
    rw [List.take_of_length_le]
    · exact List.mem_append_right _ (List.mem_singleton_self _)
    · have hle := List.length_take_le nameMax ((w.afterAll calls).names.getD i [])
      simp only [nameMax] at hle
      rw [List.length_append, List.length_singleton]
      simp only [nameMax]
      omega
  reads calls fd size := by
    rw [env_answer]
    intro _ hneg
    show ((((w.afterAll calls).store.call (w.afterAll calls).task (.read fd size)).1.2).take
      ((w.afterAll calls).reply (.read fd size))).length = _ ∧ _
    rw [List.length_take]
    rcases reply_read (w.afterAll calls) fd size with ⟨hfail, -⟩ | ⟨hlength, hfits⟩
    · rw [hfail] at hneg
      exact absurd rfl hneg
    · have hle := Nat.mod_le
        ((w.afterAll calls).store.call (w.afterAll calls).task (.read fd size)).1.2.length (2 ^ 32)
      omega

end World

/-! ## A session -/

instance Job.Sound.decidable (w : World) : (job : Job) → Decidable (job.Sound w)
  | .write _ next => Job.Sound.decidable w next
  | .list i => inferInstanceAs (Decidable (i ≤ w.names.length))
  | .openFile path => inferInstanceAs (Decidable (RootPath path))
  | .exec path => inferInstanceAs (Decidable (RootPath path))
  | .poll _ => isTrue trivial
  | .read _ => isTrue trivial
  | .close _ => isTrue trivial
  | .run _ => isTrue trivial

instance SoundSession.decidable :
    (polls : List (Option (BitVec 8))) → (w : World) → (line : List (BitVec 8)) →
      Decidable (SoundSession w line polls)
  | [], _, _ => isTrue trivial
  | none :: polls, w, line => SoundSession.decidable polls w line
  | some b :: polls, w, line =>
      have := SoundSession.decidable polls ((typed line b).world w) (typed line b).line
      inferInstanceAs (Decidable ((typed line b).Sound w ∧ _))

/-- A file `a`. -/
def sampleWorld : World where
  task := 0
  store := ⟨fun name => if name = [0x61] then some [0x68, 0x69] else none, fun _ _ => none⟩
  names := [[0x61]]
  starts _ := false

/-- The data section as it is loaded at the address 0. -/
def sampleImage : List (BitVec 8) := texts.flatMap fun text => text.content ++ [0]

/-- The shell, and what is going to be typed. -/
def sampleShell (input : List (Option (BitVec 8))) : Shell :=
  ⟨.start, 0, 0, 0, 0, 0, 0, [], fun x => sampleImage.getD x 0, [], input⟩

theorem sampleShell_loaded (input : List (Option (BitVec 8))) (stackTop : Nat) :
    Loaded (sampleWorld.env 0 stackTop) (sampleShell input) := by
  have himage : HoldsAt (sampleShell input).mem (sampleWorld.env 0 stackTop).data sampleImage := by
    intro j hj
    show sampleImage.getD (0 + j) 0 = sampleImage[j]
    rw [Nat.zero_add, List.getD_eq_getElem?_getD, List.getElem?_eq_getElem hj]
    rfl
  exact ⟨rfl, rfl, intact_of_image himage⟩

/-- The dialogue of the shell at work. -/
theorem shell_dialogue_sample :
    ∃ s, Reaches (Shell.step (sampleWorld.env 0 0x10000)) (sampleShell [none]) s ∧
      s.calls = [.writeConsole Text.banner.content, .writeConsole Text.prompt.content, .readchar,
        .yield] := by
  have h := (shell_dialogue sampleWorld.env_honest (sampleShell_loaded [none] 0x10000)).1
  obtain ⟨s, hreach, hcalls, -⟩ := h ⟨.poll [], [.writeConsole Text.banner.content,
    .writeConsole Text.prompt.content, .readchar, .yield], []⟩
    (.head (b := ⟨prompt, [.writeConsole Text.banner.content], [none]⟩) rfl
      (.head (b := ⟨.poll [], [.writeConsole Text.banner.content,
        .writeConsole Text.prompt.content], [none]⟩) rfl (.single rfl)))
  exact ⟨s, hreach, hcalls⟩

end Shell

end Kumo
