import Kumo.Kernel.ExecReading
import Kumo.User.ShellRefinement

/-!
# What the shell shows

A world is what the shell finds behind the system calls: a file store, the names in its root
directory, and which programs start. `Job.output` is what a job shows on the console before the
shell waits for its user again, and `Job.world` the world it leaves. Every step of the dialogue keeps
both, and comes nearer to the next poll.
-/

namespace Kumo

namespace Shell

open StateTransition Content

/-- What the kernel keeps for the shell. -/
structure World where
  task : Nat
  store : FileStore
  names : List Bytes
  starts : Call → Bool

namespace World

variable (w : World)

/-- The root directory after a file is opened, which creates it if a descriptor is free. -/
def namesAfter (name : Bytes) : List Bytes :=
  if (w.store.lowestFree w.task).isNone ∨ (w.store.files name).isSome then w.names
  else w.names ++ [name]

/-- The world in which a file exists, if a descriptor is free. -/
def touch (name : Bytes) : World :=
  { w with
    store := if (w.store.lowestFree w.task).isNone then w.store else w.store.create name
    names := w.namesAfter name }

/-- The world after a file call of the shell's task. -/
def call (c : FsCall) : World := { w with store := (w.store.call w.task c).2 }

/-- The world after a system call. Paths begin with a `/`. -/
def after : Call → World
  | .open path flags =>
      { w.call (.open path.tail flags) with names := w.namesAfter path.tail }
  | .read fd size => w.call (.read fd size)
  | .close fd => w.call (.close fd)
  | .exec path => w.touch path.tail
  | .readchar | .yield | .writeConsole _ | .readdir _ _ | .run _ => w

/-- The world after some system calls. -/
def afterAll (calls : List Call) : World := calls.foldl after w

end World

/-- The path of a file in the root directory, whose name is not cut. -/
def RootPath (path : Bytes) : Prop :=
  path.head? = some Vfs.slash ∧ FileName path.tail ∧ path.tail.length ≤ nameMax

instance (path : Bytes) : Decidable (RootPath path) := inferInstanceAs (Decidable (_ ∧ _ ∧ _))

/-- The paths of a call are such paths. -/
def Call.Sound : Call → Prop
  | .open path _ | .exec path => RootPath path
  | _ => True

namespace World

/-- From some time on the kernel answers as the world says. -/
structure Serves (w : World) (e : Env) (base : List Call) : Prop where
  opens : ∀ calls path flags, (∀ c ∈ calls, c.Sound) → RootPath path →
    e.answer (base ++ calls) (.open path flags) =
      word ((w.afterAll calls).store.call w.task (.open path.tail flags)).1.1
  reads : ∀ calls (fd size : Nat), (∀ c ∈ calls, c.Sound) → size < 2 ^ 31 →
    e.answer (base ++ calls) (.read fd size) =
      word ((w.afterAll calls).store.call w.task (.read fd size)).1.1 ∧
    e.bytes (base ++ calls) (.read fd size) =
      ((w.afterAll calls).store.call w.task (.read fd size)).1.2
  lists : ∀ calls i name, (∀ c ∈ calls, c.Sound) → (w.afterAll calls).names[i]? = some name →
    e.answer (base ++ calls) (.readdir Text.root.content i) = 0 ∧
      e.name (base ++ calls) (.readdir Text.root.content i) = name
  ends : ∀ calls i, (∀ c ∈ calls, c.Sound) → (w.afterAll calls).names[i]? = none →
    e.answer (base ++ calls) (.readdir Text.root.content i) ≠ 0
  runs : ∀ calls name, (∀ c ∈ calls, c.Sound) →
    negative (e.answer (base ++ calls) (.run name)) = !w.starts (.run name)
  execs : ∀ calls path, (∀ c ∈ calls, c.Sound) → RootPath path →
    negative (e.answer (base ++ calls) (.exec path)) = !w.starts (.exec path)

end World

/-- What was written to the console. -/
def console (calls : List Call) : Bytes :=
  calls.flatMap fun
    | .writeConsole bytes => bytes
    | _ => []

namespace Job

/-- What a job shows before the shell waits for its user. -/
def output (w : World) : Job → Bytes
  | .write bytes next => bytes ++ next.output w
  | .poll _ => []
  | .list i =>
      ((w.names.drop i).flatMap fun name =>
        Text.indent.content ++ (name ++ Text.newline.content)) ++
        ((if w.names = [] then Text.empty.content else []) ++ Text.prompt.content)
  | .openFile path =>
      (if (w.store.lowestFree w.task).isNone then Text.notFound.content
        else w.store.content path.tail) ++ Text.prompt.content
  | .read fd =>
      (match w.store.descriptor w.task fd with
        | none => []
        | some (_, name, offset) => (w.store.content name).drop offset) ++ Text.prompt.content
  | .close _ => Text.prompt.content
  | .run name =>
      (if w.starts (.run name) then Text.started.content else Text.notFound.content) ++
        Text.prompt.content
  | .exec path =>
      (if w.starts (.exec path) then Text.started.content else Text.notFound.content) ++
        Text.prompt.content

/-- The world that a job leaves. -/
def world (w : World) : Job → World
  | .write _ next => next.world w
  | .openFile path => w.touch path.tail
  | .read fd | .close fd => w.call (.close fd)
  | .exec path => w.touch path.tail
  | .poll _ | .list _ | .run _ => w

/-- The line that is being typed after a job. -/
def line : Job → List (BitVec 8)
  | .write _ next => next.line
  | .poll line => line
  | _ => []

/-- The paths are those of files in the root directory, and `ls` is not beyond the last one. -/
def Sound (w : World) : Job → Prop
  | .write _ next => next.Sound w
  | .list i => i ≤ w.names.length
  | .openFile path | .exec path => RootPath path
  | _ => True

end Job

variable {e : Env} {w : World} {base calls : List Call} {d d' : Dialogue}

@[simp] theorem World.after_task (w : World) (c : Call) : (w.after c).task = w.task := by
  cases c <;> rfl

@[simp] theorem World.after_starts (w : World) (c : Call) : (w.after c).starts = w.starts := by
  cases c <;> rfl

theorem World.afterAll_append (w : World) (calls more : List Call) :
    w.afterAll (calls ++ more) = (w.afterAll calls).afterAll more := List.foldl_append ..

/-- The task and the programs stay. -/
theorem World.afterAll_kept (w : World) (calls : List Call) :
    (w.afterAll calls).task = w.task ∧ (w.afterAll calls).starts = w.starts := by
  induction calls generalizing w with
  | nil => exact ⟨rfl, rfl⟩
  | cons c calls ih =>
      obtain ⟨htask, hstarts⟩ := ih (w.after c)
      exact ⟨htask.trans (w.after_task c), hstarts.trans (w.after_starts c)⟩

/-- The kernel answers so from every later time on. -/
theorem World.Serves.later (h : w.Serves e base) (hcalls : ∀ c ∈ calls, c.Sound) :
    (w.afterAll calls).Serves e (base ++ calls) := by
  obtain ⟨htask, hstarts⟩ := w.afterAll_kept calls
  have hworld : ∀ more, (w.afterAll calls).afterAll more = w.afterAll (calls ++ more) :=
    fun more => (w.afterAll_append calls more).symm
  have hall : ∀ more : List Call, (∀ c ∈ more, c.Sound) → ∀ c ∈ calls ++ more, c.Sound :=
    fun more hmore c hc => (List.mem_append.mp hc).elim (hcalls c) (hmore c)
  constructor
  · intro more path flags hmore hpath
    rw [List.append_assoc, hworld, htask]
    exact h.opens (calls ++ more) path flags (hall more hmore) hpath
  · intro more fd size hmore hsize
    rw [List.append_assoc, hworld, htask]
    exact h.reads (calls ++ more) fd size (hall more hmore) hsize
  · intro more i name hmore hi
    rw [List.append_assoc]
    exact h.lists (calls ++ more) i name (hall more hmore) (hworld more ▸ hi)
  · intro more i hmore hi
    rw [List.append_assoc]
    exact h.ends (calls ++ more) i (hall more hmore) (hworld more ▸ hi)
  · intro more name hmore
    rw [List.append_assoc, hstarts]
    exact h.runs (calls ++ more) name (hall more hmore)
  · intro more path hmore hpath
    rw [List.append_assoc, hstarts]
    exact h.execs (calls ++ more) path (hall more hmore) hpath

theorem console_append (calls more : List Call) :
    console (calls ++ more) = console calls ++ console more := List.flatMap_append

/-- From one time of a dialogue to a later one: what is still to be shown and the world that is still
to come are kept. -/
structure Progress (w : World) (d d' : Dialogue) (more : List Call) : Prop where
  calls : d'.calls = d.calls ++ more
  made : ∀ c ∈ more, c.Sound
  input : d'.input = d.input
  sound : d'.job.Sound (w.afterAll more)
  output : d.job.output w = console more ++ d'.job.output (w.afterAll more)
  world : d.job.world w = d'.job.world (w.afterAll more)
  line : d'.job.line = d.job.line

theorem Progress.refl (hsound : d.job.Sound w) : Progress w d d [] :=
  ⟨(List.append_nil _).symm, fun _ hc => absurd hc List.not_mem_nil, rfl, hsound, rfl, rfl, rfl⟩

theorem Progress.trans {d'' : Dialogue} {more rest : List Call} (h : Progress w d d' more)
    (h' : Progress (w.afterAll more) d' d'' rest) : Progress w d d'' (more ++ rest) where
  calls := by rw [h'.calls, h.calls, List.append_assoc]
  made c hc := (List.mem_append.mp hc).elim (h.made c) (h'.made c)
  input := h'.input.trans h.input
  sound := by rw [World.afterAll_append]; exact h'.sound
  output := by
    rw [h.output, h'.output, console_append, List.append_assoc, World.afterAll_append]
  world := by rw [h.world, h'.world, World.afterAll_append]
  line := h'.line.trans h.line

/-! ## Single steps -/

end Shell

end Kumo
