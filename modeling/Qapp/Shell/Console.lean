import Qapp.Lib.CString

/-!
# The shell of the demo

`cmd_shell_char_received` and `cmd_shell_exec` of `shell.c`, without the AT commands, with
every index that they use on `buf`, `header` and `argv`.
-/

namespace Qapp.Shell
open CString

/-- `SHELL_BUFFER_SIZE` -/
def bufferSize : Nat := 1500

/-- `SHELL_CMD_MAX_SIZE` -/
def cmdMaxSize : Nat := 32

/-- `SHELL_ARGC_MAX` -/
def argcMax : Nat := 8

/-- `pos` and `buf`. -/
structure ShellState where
  pos : Nat
  buf : List UInt8
  whole : buf.length = bufferSize

def start : ShellState := ⟨0, List.replicate bufferSize 0, List.length_replicate⟩

/-- An index into an array, read or written. -/
inductive Use
  | buf (i : Nat)
  | header (i : Nat)
  | argv (i : Nat)
  deriving DecidableEq

def isBlank (c : UInt8) : Bool := c = 0x20 || c = 0x09

/-- What an empty command begins with. -/
def isEnd (c : UInt8) : Bool := c = 0x00 || c = 0x0D || c = 0x0A

/-! Each scan has the bytes from `buf[i]` on; without any it has left the buffer. -/

/-- The blanks in front of the command. -/
def skipBlanks (i : Nat) : List UInt8 → List Use
  | [] => [.buf i]
  | c :: s => .buf i :: if isBlank c then skipBlanks (i + 1) s else []

/-- The copy of the first word, which is terminated after it. -/
def copyHeader (i h : Nat) : List UInt8 → List Use
  | [] => [.buf i]
  | c :: s =>
    .buf i :: if c ≠ 0x20 ∧ h < cmdMaxSize then .header h :: copyHeader (i + 1) (h + 1) s
      else [.header h]

/-- `header` as a string. -/
def headerOf (cmd : List UInt8) : List UInt8 :=
  ((cmd.take cmdMaxSize).takeWhile (· ≠ 0x20)).takeWhile (· ≠ 0)

/-- How far two strings agree. -/
def agree : List UInt8 → List UInt8 → Nat
  | c :: s, d :: t => if c = d then agree s t + 1 else 0
  | _, _ => 0

/-- `strcmp` reads up to the first difference. -/
def compareHeader (name header : List UInt8) : List Use :=
  (List.range (agree name header + 1)).map .header

/-- The search for the command, and whether it is found. -/
def search (header : List UInt8) : List CString → List Use × Bool
  | [] => ([], false)
  | name :: names =>
    if name.chars = header then (compareHeader name.chars header, true)
    else (compareHeader name.chars header ++ (search header names).1, (search header names).2)

/-- The arguments behind each space, the first one being stored. -/
def splitArgs (i argc : Nat) : List UInt8 → List Use
  | [] => [.buf i]
  | c :: s =>
    .buf i :: if c ≠ 0 ∧ argc < argcMax then
        if c = 0x20 then .buf i :: .argv argc :: splitArgs (i + 1) (argc + 1) s
        else splitArgs (i + 1) argc s
      else []

/-- `printf` of a command that is not found. -/
def printString (i : Nat) : List UInt8 → List Use
  | [] => [.buf i]
  | c :: s => .buf i :: if c ≠ 0 then printString (i + 1) s else []

/-- From the header on, with the command from `buf[k]` on. -/
def runCommand (names : List CString) (k : Nat) (cmd : List UInt8) : List Use :=
  copyHeader k 0 cmd ++ .header 0 ::
    if headerOf cmd = [] then []
    else (search (headerOf cmd) names).1 ++
      if (search (headerOf cmd) names).2 then .argv 0 :: splitArgs k 1 cmd
      else printString k cmd

/-- `cmd_shell_exec(buf)`, up to the call of a command that is found. -/
def cmdShellExec (names : List CString) (buf : List UInt8) : List Use :=
  .buf 0 :: if isEnd (buf.headD 0) then []
    else
      let cmd := buf.dropWhile isBlank
      let k := buf.length - cmd.length
      skipBlanks 0 buf ++ .buf k :: if isEnd (cmd.headD 0) then [] else runCommand names k cmd

/-- What one character leads to. -/
structure Reaction where
  shell : ShellState
  uses : List Use
  /-- The string that is handed to `cmd_shell_exec`. -/
  handed : Option (List UInt8)

/-- `cmd_shell_char_received`, with `c` from the queue. Whatever a command does to its
arguments, the buffer is cleared after it. -/
def cmdShellCharReceived (names : List CString) (s : ShellState) (c : UInt8) : Reaction :=
  if c = 0x0D then
    ⟨start, cmdShellExec names s.buf ++ .buf s.pos :: (List.range bufferSize).map .buf,
      some (s.buf.takeWhile (· ≠ 0))⟩
  else if c = 0x08 then
    ⟨if s.pos > 0 then ⟨s.pos - 1, s.buf, s.whole⟩ else s, [], none⟩
  else if s.pos < bufferSize then
    ⟨⟨s.pos + 1, s.buf.set s.pos c, (List.length_set ..).trans s.whole⟩, [.buf s.pos], none⟩
  else ⟨s, [], none⟩

def shellAfter (names : List CString) (chars : List UInt8) : ShellState :=
  chars.foldl (fun s c => (cmdShellCharReceived names s c).shell) start

theorem shellAfter_snoc (names : List CString) (past : List UInt8) (c : UInt8) :
    shellAfter names (past ++ [c]) = (cmdShellCharReceived names (shellAfter names past) c).shell := by
  rw [shellAfter, List.foldl_append]
  rfl

end Qapp.Shell
