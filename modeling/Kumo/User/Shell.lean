import Mathlib.Algebra.GroupWithZero.Nat
import Kumo.Lib.Bytes
import Kumo.Lib.Strings

/-!
# The shell

The program `user/shell.asm`. A step executes the instructions from one label to the next jump that
is taken, or through a system call. The registers and the memory are those of the program; `ebp` and
the addresses on the stack are symbolic, that is, the data section is at the address `data`, a
pushed word is on a list, and so is the label that a `call` returns to. The kernel may answer every
system call as it likes, but writes only to the buffers that `SYSCALL_READDIR` and `SYSCALL_READ`
are given. Without a byte at the serial port the program polls again.
-/

namespace Kumo

open Memory

/-- The commands, in the order in which `.dispatch` tests them. -/
inductive Command where
  | help
  | ls
  | cat
  | echo
  | run
  | exec
  deriving DecidableEq

namespace Shell

/-! ## The data section -/

/-- The bytes of a string. -/
def ascii (s : List Char) : List (BitVec 8) := s.map fun c => BitVec.ofNat 8 c.toNat

/-- The strings of the data section. -/
inductive Text where
  | banner
  | prompt
  | newline
  | indent
  | empty
  | root
  | notFound
  | started
  | unknown
  | catUsage
  | runUsage
  | execUsage
  | help
  | command (c : Command)
  deriving DecidableEq

/-- The bytes before the NUL. -/
def Text.content : Text → List (BitVec 8)
  | banner => ascii "Kumo Shell v0.1\n".toList
  | prompt => ascii "# ".toList
  | newline => ascii "\n".toList
  | indent => ascii "  ".toList
  | empty => ascii "(empty)\n".toList
  | root => ascii "/".toList
  | notFound => ascii "not found\n".toList
  | started => ascii "started\n".toList
  | unknown => ascii "unknown command\n".toList
  | catUsage => ascii "usage: cat <file>\n".toList
  | runUsage => ascii "usage: run <name>\n".toList
  | execUsage => ascii "usage: exec <path>\n".toList
  | help => ascii <| "Available commands:\n".toList ++
      "  help  - show this help\n".toList ++
      "  ls    - list files\n".toList ++
      "  cat   <file>     - print file content\n".toList ++
      "  echo  <text>     - print text\n".toList ++
      "  run   <test>     - run embedded test (built-in)\n".toList ++
      "  exec  <elfpath>  - load & run ELF from VFS\n".toList
  | command .help => ascii ['h', 'e', 'l', 'p']
  | command .ls => ascii ['l', 's']
  | command .cat => ascii ['c', 'a', 't']
  | command .echo => ascii ['e', 'c', 'h', 'o']
  | command .run => ascii ['r', 'u', 'n']
  | command .exec => ascii ['e', 'x', 'e', 'c']

/-- The strings in the order of the source. -/
def texts : List Text :=
  [.banner, .prompt, .newline, .indent, .empty, .root, .notFound, .started, .unknown, .catUsage,
    .runUsage, .execUsage, .help, .command .help, .command .ls, .command .cat, .command .echo,
    .command .run, .command .exec]

/-- The bytes that some strings take, with a NUL after each. -/
@[irreducible] def sizeOfTexts (ts : List Text) : Nat := (ts.map fun t => t.content.length + 1).sum

/-! ## The program -/

/-- The system calls, with the contents of the buffers they are given. -/
inductive Call where
  | readchar
  | yield
  | writeConsole (buf : List (BitVec 8))
  | open (path : List (BitVec 8)) (flags : Nat)
  | read (fd size : Nat)
  | close (fd : Nat)
  | readdir (path : List (BitVec 8)) (index : Nat)
  | run (name : List (BitVec 8))
  | exec (path : List (BitVec 8))
  deriving DecidableEq

/-- The three loops that copy a path: `.cat_cp`, `.exec_cp_rel` and `.exec_cp_abs`. -/
inductive Copy where
  | cat
  | relative
  | absolute
  deriving DecidableEq

/-- How many bytes the loop copies at most. -/
def Copy.limit : Copy → Nat
  | cat => 62
  | relative => 62
  | absolute => 63

/-- The loop ends at a NUL, and those of `exec` at a space as well. -/
def Copy.stops : Copy → BitVec 8 → Bool
  | cat, b => b = 0
  | relative, b | absolute, b => b = 0 || b = 0x20#8

/-- The labels of the program, and the points after a call of `puts` or `strcmp_word`. What is the
same for several commands is one label with the command as its parameter. -/
inductive Label where
  | start
  | mainLoop
  | promptPrinted
  | readLoop
  | gotChar
  | backspace
  | execute
  | newlinePrinted
  | skipSpaces
  | tryCommand (c : Command)
  | compared (c : Command)
  | unknown
  | puts
  | putsLenLoop
  | putsGo
  | strcmpWord
  | cmpLoop
  | checkEnd
  | noMatch
  | isMatch
  | strcmpDone
  | handler (c : Command)
  | lsLoop
  | lsIndented
  | lsNamed
  | lsPrinted
  | lsDone
  | skipName (c : Command)
  | foundSpace (c : Command)
  | skipSp (c : Command)
  | argStart (c : Command)
  | findEnd (c : Command)
  | foundEnd (c : Command)
  | copyPath (k : Copy)
  | copyDone (k : Copy)
  | openFile
  | catReadLoop
  | catDone
  | execDo
  | notFound
  | started
  | usage (c : Command)
  | echoDone
  | handlerRet
  deriving DecidableEq

/-- An entry of the stack: a pushed register, or where a call returns to. -/
inductive Entry where
  | word (w : Nat)
  | ret (l : Label)
  deriving DecidableEq

/-- What the program runs in: the addresses of its data section and of its stack, and what the
kernel answers to a system call after those before it. -/
structure Env where
  data : Nat
  stackTop : Nat
  reply : List Call → Call → Nat
  bytes : List Call → Call → List (BitVec 8)

namespace Env

variable (e : Env)

/-- The address of a string. -/
def text (t : Text) : Nat := e.data + sizeOfTexts (texts.takeWhile (· ≠ t))

/-- `line_buf`, `name_buf`, `cat_buf` and `fd_save`. -/
def lineBuf : Nat := e.data + sizeOfTexts texts
def nameBuf : Nat := e.lineBuf + 128
def catBuf : Nat := e.nameBuf + 64
def fdSave : Nat := e.catBuf + 128

end Env

end Shell

/-- The state of the shell: its registers, its stack and memory, the system calls so far, and what
the serial port has at each of the next polls. -/
structure Shell where
  pc : Shell.Label
  eax : Nat
  ebx : Nat
  ecx : Nat
  edx : Nat
  esi : Nat
  edi : Nat
  stack : List Shell.Entry
  mem : Memory
  calls : List Shell.Call
  input : List (Option (BitVec 8))

namespace Shell

/-- `jmp`. -/
def goto (s : Shell) (l : Label) : Shell := { s with pc := l }

/-- `call`, to a function that returns to `next`. -/
def callTo (s : Shell) (l next : Label) : Shell := { s with stack := .ret next :: s.stack, pc := l }

/-- `ret`. -/
def ret (s : Shell) : Option Shell :=
  match s.stack with
  | .ret l :: rest => some { s with stack := rest, pc := l }
  | _ => none

/-- `pop esi` and `ret`. -/
def popEsiRet (s : Shell) : Option Shell :=
  match s.stack with
  | .word w :: rest => ret { s with esi := w, stack := rest }
  | _ => none

/-- `mov al, b`. -/
def setAl (s : Shell) (b : BitVec 8) : Shell := { s with eax := s.eax / 2 ^ 8 * 2 ^ 8 + b.toNat }

/-- `al`. -/
def al (s : Shell) : BitVec 8 := BitVec.ofNat 8 s.eax

/-- A word is negative as a signed one. -/
def negative (w : Nat) : Bool := 2 ^ 31 ≤ w

/-- The string of the user that the kernel copies: at most 255 bytes and a NUL. -/
def userString (s : Shell) (p : Nat) : List (BitVec 8) := (bytesAt s.mem p 256).takeWhile (· ≠ 0)

variable (e : Env)

/-- `int 0x80`, for a system call that writes to no buffer. -/
def syscall (s : Shell) (c : Call) : Shell :=
  { s with eax := e.reply s.calls c % 2 ^ 32, calls := s.calls ++ [c] }

/-- `int 0x80`, for a system call that writes at most `size` bytes to a buffer. -/
def syscallTo (s : Shell) (c : Call) (buf size : Nat) : Shell :=
  { syscall e s c with mem := storeBytes s.mem buf ((e.bytes s.calls c).take size) }

/-- `lea esi, [ebp + t]` and `call puts`. -/
def print (s : Shell) (t : Text) (next : Label) : Shell :=
  callTo { s with esi := e.text t } .puts next

/-- The byte of the line buffer at an index. -/
def lineByte (s : Shell) (i : Nat) : BitVec 8 := s.mem (e.lineBuf + i)

/-- A byte is echoed, or erased, from a buffer on the stack. -/
def echoBytes (s : Shell) (bytes : List (BitVec 8)) : Shell :=
  let s := { s with ebx := e.stackTop - 4 * s.stack.length - 4, ecx := bytes.length }
  (syscall e s (.writeConsole bytes)).goto .readLoop

/-- `.read_loop`. -/
def readLoop (s : Shell) : Option Shell :=
  match s.input with
  | [] => none
  | poll :: rest =>
      let s := { s with input := rest, calls := s.calls ++ [.readchar] }
      match poll with
      | none => some ((syscall e s .yield).goto .readLoop)
      | some c => some ({ s with eax := c.toNat }.goto .gotChar)

/-- `.got_char`. -/
def gotChar (s : Shell) : Shell :=
  if s.eax = 0x0A then s.goto .execute
  else if s.eax = 0x0D then s.goto .readLoop
  else if s.eax = 0x08 then s.goto .backspace
  else if s.eax = 0x7F then s.goto .backspace
  else if 127 ≤ s.edi then s.goto .readLoop
  else
    let c := s.al
    let s := { s with mem := s.mem.store8 (e.lineBuf + s.edi) c, edi := s.edi + 1 }
    s.echoBytes e [c]

/-- `.backspace`. -/
def backspace (s : Shell) : Shell :=
  if s.edi = 0 then s.goto .readLoop
  else { s with edi := s.edi - 1 }.echoBytes e [0x08#8, 0x20#8, 0x08#8]

/-- `.execute`. -/
def execute (s : Shell) : Shell :=
  { s with mem := s.mem.store8 (e.lineBuf + s.edi) 0 }.print e .newline .newlinePrinted

/-- The instructions after the new line is printed. -/
def newlinePrinted (s : Shell) : Shell :=
  if s.edi = 0 then s.goto .mainLoop else { s with esi := 0 }.goto .skipSpaces

/-- `.skip_spaces`. -/
def skipSpaces (s : Shell) : Shell :=
  let b := s.lineByte e s.esi
  let s := s.setAl b
  if b ≠ 0x20#8 then s.goto (.tryCommand .help)
  else
    let s := { s with esi := s.esi + 1 }
    if s.esi < s.edi then s.goto .skipSpaces else s.goto .mainLoop

/-- `.dispatch`, `.try_ls` and so on: the test for one command. -/
def tryCommand (s : Shell) (c : Command) : Shell :=
  { s with ebx := e.lineBuf + s.esi, edx := e.text (.command c) }.callTo .strcmpWord (.compared c)

/-- Where the next test is. -/
def afterTest : Command → Label
  | .help => .tryCommand .ls
  | .ls => .tryCommand .cat
  | .cat => .tryCommand .echo
  | .echo => .tryCommand .run
  | .run => .tryCommand .exec
  | .exec => .unknown

/-- The instructions after the test for one command. -/
def compared (s : Shell) (c : Command) : Shell :=
  if s.eax ≠ 0 then s.goto (afterTest c) else s.callTo (.handler c) .mainLoop

/-- `.puts_len_loop`. -/
def putsLenLoop (s : Shell) : Shell :=
  if s.mem (s.esi + s.ecx) = 0 then s.goto .putsGo
  else { s with ecx := s.ecx + 1 }.goto .putsLenLoop

/-- `.puts_go`. -/
def putsGo (s : Shell) : Option Shell :=
  (syscall e { s with ebx := s.esi } (.writeConsole (bytesAt s.mem s.esi s.ecx))).popEsiRet

/-- `mov dl, b`. -/
def setDl (s : Shell) (b : BitVec 8) : Shell := { s with edx := s.edx / 2 ^ 8 * 2 ^ 8 + b.toNat }

/-- `.cmp_loop`. -/
def cmpLoop (s : Shell) : Shell :=
  let a := s.mem (s.ebx + s.ecx)
  let d := s.mem (s.esi + s.ecx)
  let s := (s.setAl a).setDl d
  if d = 0 then s.goto .checkEnd
  else if a ≠ d then s.goto .noMatch
  else { s with ecx := s.ecx + 1 }.goto .cmpLoop

/-- `.check_end`. -/
def checkEnd (s : Shell) : Shell :=
  let a := s.mem (s.ebx + s.ecx)
  let s := s.setAl a
  if a = 0 then s.goto .isMatch
  else if a = 0x20#8 then s.goto .isMatch
  else s.goto .noMatch

/-- The first block of a handler. -/
def handler (s : Shell) : Command → Shell
  | .help => s.print e .help .handlerRet
  | .ls => { s with edi := 0 }.goto .lsLoop
  | c => { s with edi := s.esi }.goto (.skipName c)

/-- `.ls_loop`. -/
def lsLoop (s : Shell) : Shell :=
  let s := { s with ebx := e.text .root, ecx := s.edi, edx := e.nameBuf }
  let s := syscallTo e s (.readdir (s.userString s.ebx) s.ecx) s.edx 64
  if s.eax ≠ 0 then s.goto .lsDone
  else { s with stack := .word s.edi :: s.stack }.print e .indent .lsIndented

/-- `pop edi` and `inc edi`, after an entry is printed. -/
def lsPrinted (s : Shell) : Option Shell :=
  match s.stack with
  | .word w :: rest => some ({ s with edi := w + 1, stack := rest }.goto .lsLoop)
  | _ => none

/-- `.ls_done`. -/
def lsDone (s : Shell) : Shell :=
  if s.edi ≠ 0 then s.goto .handlerRet else s.print e .empty .handlerRet

/-- Where a handler goes without an argument. -/
def missing : Command → Label
  | .echo => .echoDone
  | c => .usage c

/-- `.skip_cat`, `.skip_echo`, `.skip_run` and `.skip_exec`. -/
def skipName (s : Shell) (c : Command) : Shell :=
  let b := s.lineByte e s.edi
  let s := s.setAl b
  if b = 0 then s.goto (missing c)
  else if b = 0x20#8 then s.goto (.foundSpace c)
  else { s with edi := s.edi + 1 }.goto (.skipName c)

/-- `.skip_sp`, `.echo_skip_sp`, `.run_skip_sp` and `.exec_skip_sp`. -/
def skipSp (s : Shell) (c : Command) : Shell :=
  let b := s.lineByte e s.edi
  let s := s.setAl b
  if b ≠ 0x20#8 then s.goto (.argStart c) else { s with edi := s.edi + 1 }.goto (.skipSp c)

/-- `mov esi, p` and the destination of a loop that copies a path. -/
def startCopy (s : Shell) (k : Copy) (dst : Nat) : Shell :=
  { s with esi := e.lineBuf + s.edi, edi := dst, ecx := 0 }.goto (.copyPath k)

/-- `.cat_arg_start`, `.echo_print`, `.run_do` and `.exec_arg_start`. -/
def argStart (s : Shell) (c : Command) : Shell :=
  if s.al = 0 then s.goto (missing c)
  else
    match c with
    | .echo => { s with esi := e.lineBuf + s.edi }.callTo .puts .echoDone
    | .exec =>
        if s.al = 0x2F#8 then s.startCopy e .absolute e.nameBuf
        else { s with mem := s.mem.store8 e.nameBuf 0x2F#8 }.startCopy e .relative (e.nameBuf + 1)
    | .cat => { s with ebx := e.lineBuf + s.edi, ecx := s.edi }.goto (.findEnd .cat)
    | c => { s with ecx := s.edi }.goto (.findEnd c)

/-- `.cat_find_end` and `.run_find_end`. -/
def findEnd (s : Shell) (c : Command) : Shell :=
  let b := s.lineByte e s.ecx
  let s := s.setAl b
  if b = 0 then s.goto (.foundEnd c)
  else if b = 0x20#8 then s.goto (.foundEnd c)
  else { s with ecx := s.ecx + 1 }.goto (.findEnd c)

/-- `.cat_found_end` and `.run_found_end`. -/
def foundEnd (s : Shell) (c : Command) : Shell :=
  let s := { s with mem := s.mem.store8 (e.lineBuf + s.ecx) 0 }
  if c = .cat then
    { s with mem := s.mem.store8 e.nameBuf 0x2F#8 }.startCopy e .cat (e.nameBuf + 1)
  else
    let s := { s with ebx := e.lineBuf + s.edi }
    let s := syscall e s (.run (s.userString s.ebx))
    if negative s.eax then s.goto .notFound else s.goto .started

/-- `.cat_cp`, `.exec_cp_rel` and `.exec_cp_abs`. -/
def copyPath (s : Shell) (k : Copy) : Shell :=
  let b := s.mem (s.esi + s.ecx)
  let s := s.setAl b
  if k.stops b then s.goto (.copyDone k)
  else
    let s := { s with mem := s.mem.store8 (s.edi + s.ecx) b, ecx := s.ecx + 1 }
    if k.limit ≤ s.ecx then s.goto (.copyDone k) else s.goto (.copyPath k)

/-- `.cat_cp_done`, `.exec_cp_done` and `.exec_cp_abs_done`. -/
def copyDone (s : Shell) (k : Copy) : Shell :=
  let s := { s with mem := s.mem.store8 (s.edi + s.ecx) 0 }
  match k with
  | .cat => s.goto .openFile
  | _ => { s with ebx := e.nameBuf }.goto .execDo

/-- `open(path, 0)`. -/
def openFile (s : Shell) : Shell :=
  let s := { s with ebx := e.nameBuf, ecx := 0 }
  let s := syscall e s (.open (s.userString s.ebx) s.ecx)
  if negative s.eax then s.goto .notFound
  else { s with mem := s.mem.store32 e.fdSave s.eax }.goto .catReadLoop

/-- `.cat_read_loop`. -/
def catReadLoop (s : Shell) : Shell :=
  let s := { s with ebx := s.mem.load32 e.fdSave, ecx := e.catBuf, edx := 128 }
  let s := syscallTo e s (.read s.ebx s.edx) s.ecx s.edx
  if s.eax = 0 || negative s.eax then s.goto .catDone
  else
    let s := { s with ebx := e.catBuf, ecx := s.eax }
    (syscall e s (.writeConsole (bytesAt s.mem s.ebx s.ecx))).goto .catReadLoop

/-- `.cat_done`. -/
def catDone (s : Shell) : Option Shell :=
  let s := { s with ebx := s.mem.load32 e.fdSave }
  (syscall e s (.close s.ebx)).ret

/-- `.exec_do`. -/
def execDo (s : Shell) : Shell :=
  let s := syscall e s (.exec (s.userString s.ebx))
  if negative s.eax then s.goto .notFound else s.goto .started

/-- The usage message of a command. -/
def usageText : Command → Text
  | .run => .runUsage
  | .exec => .execUsage
  | _ => .catUsage

/-- One step. -/
def step (s : Shell) : Option Shell :=
  match s.pc with
  | .start => some (s.print e .banner .mainLoop)
  | .mainLoop => some (s.print e .prompt .promptPrinted)
  | .promptPrinted => some ({ s with edi := 0 }.goto .readLoop)
  | .readLoop => s.readLoop e
  | .gotChar => some (s.gotChar e)
  | .backspace => some (s.backspace e)
  | .execute => some (s.execute e)
  | .newlinePrinted => some s.newlinePrinted
  | .skipSpaces => some (s.skipSpaces e)
  | .tryCommand c => some (s.tryCommand e c)
  | .compared c => some (s.compared c)
  | .unknown => some (s.print e .unknown .mainLoop)
  | .puts => some ({ s with stack := .word s.esi :: s.stack, ecx := 0 }.goto .putsLenLoop)
  | .putsLenLoop => some s.putsLenLoop
  | .putsGo => s.putsGo e
  | .strcmpWord =>
      some ({ s with stack := .word s.esi :: s.stack, esi := s.edx, ecx := 0 }.goto .cmpLoop)
  | .cmpLoop => some s.cmpLoop
  | .checkEnd => some s.checkEnd
  | .noMatch => some ({ s with eax := 1 }.goto .strcmpDone)
  | .isMatch => some ({ s with eax := 0 }.goto .strcmpDone)
  | .strcmpDone => s.popEsiRet
  | .handler c => some (s.handler e c)
  | .lsLoop => some (s.lsLoop e)
  | .lsIndented => some ({ s with esi := e.nameBuf }.callTo .puts .lsNamed)
  | .lsNamed => some (s.print e .newline .lsPrinted)
  | .lsPrinted => s.lsPrinted
  | .lsDone => some (s.lsDone e)
  | .skipName c => some (s.skipName e c)
  | .foundSpace c => some ({ s with edi := s.edi + 1 }.goto (.skipSp c))
  | .skipSp c => some (s.skipSp e c)
  | .argStart c => some (s.argStart e c)
  | .findEnd c => some (s.findEnd e c)
  | .foundEnd c => some (s.foundEnd e c)
  | .copyPath k => some (s.copyPath k)
  | .copyDone k => some (s.copyDone e k)
  | .openFile => some (s.openFile e)
  | .catReadLoop => some (s.catReadLoop e)
  | .catDone => s.catDone e
  | .execDo => some (s.execDo e)
  | .notFound => some (s.print e .notFound .handlerRet)
  | .started => some (s.print e .started .handlerRet)
  | .usage c => some (s.print e (usageText c) .handlerRet)
  | .echoDone => some (s.print e .newline .handlerRet)
  | .handlerRet => s.ret

end Shell

end Kumo
