import Kumo.User.ShellRuns

/-!
# What the shell says to the kernel

The shell without registers, buffers and labels. A job is what it does next: a byte string to be
written and the job after it, a line that is being typed, or one of the system calls of a command.
A step of the dialogue makes the calls of one job, and the answers of the kernel decide on the next.
-/

namespace Kumo

namespace Shell

variable (e : Env)

/-- What the shell does next. -/
inductive Job where
  | write (bytes : List (BitVec 8)) (next : Job)
  | poll (line : List (BitVec 8))
  | list (index : Nat)
  | openFile (path : List (BitVec 8))
  | read (fd : Nat)
  | close (fd : Nat)
  | run (name : List (BitVec 8))
  | exec (path : List (BitVec 8))
  deriving DecidableEq

/-- The prompt, and an empty line. -/
def prompt : Job := .write Text.prompt.content (.poll [])

/-- A message, and the prompt again. -/
def say (t : Text) : Job := .write t.content prompt

/-- The path that `exec` makes of a word: with a `/` before it if it has none, and cut to the size of
the buffer. -/
def execJobPath (word : List (BitVec 8)) : List (BitVec 8) :=
  if word.head? = some 0x2F#8 then word.take 63 else 0x2F#8 :: word.take 62

/-- What a command does with the rest of its line. -/
def request (c : Command) (rest : List (BitVec 8)) : Job :=
  match c with
  | .help => say .help
  | .ls => .list 0
  | .echo => if rest = [] then say .newline else .write rest (say .newline)
  | .cat => if rest = [] then say .catUsage else .openFile (0x2F#8 :: (wordOf rest).take 62)
  | .run => if rest = [] then say .runUsage else .run (wordOf rest)
  | .exec => if rest = [] then say .execUsage else .exec (execJobPath (wordOf rest))

/-- What a line does that begins with a word. A NUL ends the line. -/
def interpretText (text : List (BitVec 8)) : Job :=
  match commands.find? fun c => commandName c = wordOf text with
  | some c => request c (skipSpace (afterWord text))
  | none => say .unknown

/-- What a line does. -/
def interpret (line : List (BitVec 8)) : Job :=
  if skipSpace line = [] then prompt else interpretText ((skipSpace line).takeWhile (· ≠ 0))

/-- What a byte does to the line that is being typed. -/
def typed (line : List (BitVec 8)) (b : BitVec 8) : Job :=
  if b = 0x0A#8 then .write Text.newline.content (interpret line)
  else if b = 0x0D#8 then .poll line
  else if b = 0x08#8 ∨ b = 0x7F#8 then
    if line = [] then .poll line else .write [0x08#8, 0x20#8, 0x08#8] (.poll line.dropLast)
  else if line.length < 127 then .write [b] (.poll (line ++ [b]))
  else .poll line

/-- After `SYSCALL_READDIR`. -/
def listed (index ret : Nat) (name : List (BitVec 8)) : Job :=
  if ret ≠ 0 then if index = 0 then say .empty else prompt
  else .write Text.indent.content (.write name (.write Text.newline.content (.list (index + 1))))

/-- After `SYSCALL_OPEN`. -/
def opened (ret : Nat) : Job := if negative ret then say .notFound else .read ret

/-- After `SYSCALL_RUN` and `SYSCALL_EXEC`. -/
def launched (ret : Nat) : Job := if negative ret then say .notFound else say .started

/-- `eax` after a system call. -/
def Env.answer (calls : List Call) (c : Call) : Nat := e.reply calls c % 2 ^ 32

/-- The C string in the buffer after a system call. -/
def Env.name (calls : List Call) (c : Call) : List (BitVec 8) :=
  (e.bytes calls c).takeWhile (· ≠ 0)

/-- The shell as the kernel sees it. -/
structure Dialogue where
  job : Job
  calls : List Call
  input : List (Option (BitVec 8))

namespace Dialogue

/-- The calls of one job. -/
def step (d : Dialogue) : Option Dialogue :=
  match d.job with
  | .write bytes next => some { d with job := next, calls := d.calls ++ [.writeConsole bytes] }
  | .poll line =>
      match d.input with
      | [] => none
      | none :: rest => some ⟨.poll line, d.calls ++ [.readchar, .yield], rest⟩
      | some b :: rest => some ⟨typed line b, d.calls ++ [.readchar], rest⟩
  | .list i =>
      let c := .readdir Text.root.content i
      some { d with
        job := listed i (e.answer d.calls c) (e.name d.calls c), calls := d.calls ++ [c] }
  | .openFile path =>
      let c := .open path 0
      some { d with job := opened (e.answer d.calls c), calls := d.calls ++ [c] }
  | .read fd =>
      let c := .read fd 128
      if e.answer d.calls c = 0 ∨ negative (e.answer d.calls c) then
        some { d with job := .close fd, calls := d.calls ++ [c] }
      else some { d with calls := d.calls ++ [c, .writeConsole (e.bytes d.calls c)] }
  | .close fd => some { d with job := prompt, calls := d.calls ++ [.close fd] }
  | .run name =>
      let c := .run name
      some { d with job := launched (e.answer d.calls c), calls := d.calls ++ [c] }
  | .exec path =>
      let c := .exec path
      some { d with job := launched (e.answer d.calls c), calls := d.calls ++ [c] }

/-- The dialogue of a shell that is started. -/
def start (calls : List Call) (input : List (Option (BitVec 8))) : Dialogue :=
  ⟨say .banner, calls, input⟩

end Dialogue

end Shell

end Kumo
