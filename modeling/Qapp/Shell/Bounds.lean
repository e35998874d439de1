import Mathlib.Data.List.TakeWhile
import Qapp.Shell.Console

/-!
# Bounds of the shell's arrays

When every index on `buf`, `header` and `argv` is inside, over any characters received.
-/

namespace Qapp.Shell
open CString

def Use.Within : Use → Prop
  | .buf i => i < bufferSize
  | .header i => i < cmdMaxSize
  | .argv i => i < argcMax

instance : (u : Use) → Decidable u.Within
  | .buf i => Nat.decLt i bufferSize
  | .header i => Nat.decLt i cmdMaxSize
  | .argv i => Nat.decLt i argcMax

/-- The scan for arguments ends in the buffer: at a zero, or with a character behind the
seventh space. -/
def ArgsEnd (argc : Nat) (cmd : List UInt8) : Prop :=
  cmd ≠ [] ∧ (0 ∈ cmd ∨ argcMax ≤ argc + cmd.dropLast.count 0x20)

/-- A command with a space in its first 32 bytes, whose arguments end if it is known and whose
text ends if it is not. -/
def Framed (names : List CString) (cmd : List UInt8) : Prop :=
  0x20 ∈ cmd.take cmdMaxSize ∧
    if ∃ name ∈ names, name.chars = headerOf cmd then ArgsEnd 1 cmd else 0 ∈ cmd

/-- A carriage return finds room for the terminator, and an empty or a framed command. -/
def Ready (names : List CString) (s : ShellState) : Prop :=
  s.pos < bufferSize ∧ (isEnd (s.buf.headD 0) ∨ s.buf.dropWhile isBlank ≠ [] ∧
    (isEnd ((s.buf.dropWhile isBlank).headD 0) ∨ Framed names (s.buf.dropWhile isBlank)))

variable {names : List CString} {i h argc : Nat} {l : List UInt8}

end Qapp.Shell
