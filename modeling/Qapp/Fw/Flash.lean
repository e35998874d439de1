import Qapp.Fw.Types

/-!
# Devices and allocation

`flash_adapter.c`, the RRAM access functions and `k_malloc`. Each device
operation asks the next fault whether it succeeds.
-/

namespace Qapp.Fw
open ByteMem Traced

def popReadFault (s : St) : St := { s with readFaults := s.readFaults.tail }

def popOpFault (s : St) : St := { s with opFaults := s.opFaults.tail }

def St.readFault (s : St) : Option Mem := s.readFaults.headD none

def St.opFault (s : St) : Option Mem := s.opFaults.headD none

/-- `flash_adapter_read`: whether it succeeded, and the memory the buffer is filled from. -/
def flashRead (e : Env) (addr size : Nat) : M (Bool × Mem) := do
  let s ← Act.read
  if e.memSize < addr + size then pure (false, e.junk)
  else
    Act.update popReadFault
    match s.readFault with
    | none => pure (true, s.flash)
    | some left => pure (false, left)

/-- `flash_adapter_write` -/
def flashWrite (e : Env) (who : Issuer) (addr : Nat) (bytes : List UInt8) : M Unit := do
  let s ← Act.read
  if e.memSize < addr + bytes.length then
    Act.emit (.op who (.write addr bytes) .rejected)
    Act.fail .error
  else
    Act.update popOpFault
    match s.opFault with
    | none =>
      Act.update fun s => { s with flash := Nor.program s.flash addr bytes }
      Act.emit (.op who (.write addr bytes) .done)
    | some left =>
      Act.update fun s => { s with flash := Nor.damage s.flash addr bytes.length left }
      Act.emit (.op who (.write addr bytes) (.failed left))
      Act.fail .error

/-- `flash_adapter_erase` with `FLASH_BLOCK_ERASE_E` -/
def flashErase (e : Env) (who : Issuer) (startBlock numBlocks : Nat) : M Unit := do
  let s ← Act.read
  let addr := startBlock * blockSize % 2 ^ 32
  let size := numBlocks * blockSize % 2 ^ 32
  if e.memSize < addr + size then
    Act.emit (.op who (.erase addr size) .rejected)
    Act.fail .error
  else
    Act.update popOpFault
    match s.opFault with
    | none =>
      Act.update fun s => { s with flash := Nor.erase s.flash addr size }
      Act.emit (.op who (.erase addr size) .done)
    | some left =>
      Act.update fun s => { s with flash := Nor.damage s.flash addr size left }
      Act.emit (.op who (.erase addr size) (.failed left))
      Act.fail .error

/-- `nt_rram_write` -/
def rramWrite (who : Issuer) (addr : Nat) (bytes : List UInt8) : M Unit := do
  let s ← Act.read
  Act.update popOpFault
  match s.opFault with
  | none =>
    Act.update fun s => { s with rram := store s.rram addr bytes }
    Act.emit (.op who (.rramWrite addr bytes) .done)
  | some left =>
    Act.update fun s => { s with rram := Nor.damage s.rram addr bytes.length left }
    Act.emit (.op who (.rramWrite addr bytes) (.failed left))
    Act.fail .error

/-- `nt_rram_read` -/
def rramRead : M (Bool × Mem) := do
  let s ← Act.read
  Act.update popReadFault
  match s.readFault with
  | none => pure (true, s.rram)
  | some left => pure (false, left)

/-- `k_malloc`: false when it returns NULL. -/
def malloc (b : Block) : M Bool := do
  let s ← Act.read
  Act.update fun s => { s with oom := s.oom.tail }
  if s.oom.headD false then
    Act.emit (.note (.denied b))
    pure false
  else
    Act.emit (.note (.alloc b))
    pure true

def free (b : Block) : M Unit := Act.emit (.note (.free b))

end Qapp.Fw
