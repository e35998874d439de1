import Qapp.Lib.Threads
import Qapp.Spi.Driver

/-!
# The QCSPI driver on the bus

Every function of the driver as a script of SPI transfers and of calls that take or
release `qcspi_mutex`.
-/

namespace Qapp.Spi.Bus
open ByteMem
open Script (perform Pool Moment)

inductive Transfer
  | nop
  /-- The FREAD header, chip select held. -/
  | fread (addr : Nat)
  /-- The data phase of a read, into a buffer. -/
  | readData (size : Nat) (rcvBuf : Mem)
  /-- The WRITE header, chip select held. -/
  | write (addr : Nat)
  | writeData (bytes : List UInt8)
  | rdsr
  | irr (reg : Nat)
  | irw (reg val : Nat)

inductive Op
  | lock
  | unlock
  | transfer (t : Transfer)

/-- A data phase also answers with the buffer, whatever it returns. -/
@[reducible] def Op.Ans : Op → Type
  | .lock | .unlock => Unit
  | .transfer (.readData _ _) => Except Errno Unit × Mem
  | .transfer .rdsr | .transfer (.irr _) => Except Errno Nat
  | .transfer _ => Except Errno Unit

abbrev Calls := Script Op Op.Ans

def lock : Calls Unit := perform Op.lock

def unlock : Calls Unit := perform Op.unlock

def transfer (t : Transfer) : Calls (Op.transfer t).Ans := perform (Op.transfer t)

/-- `SPI_SLAVE_CONFIG` -/
def configReg : Nat := 0x0C

/-- `SPI_SLAVE_TRNS_LEN` -/
def trnsLenReg : Nat := 0x50

/-- `QCSPI_MAX_TRANSFER_SIZE` -/
def maxTransferSize : Nat := 1500

/-- `QCSPI_MAX_INIT_TRY_TIMES` -/
def maxInitTryTimes : Nat := 50

def qcspiIRW (reg val : Nat) : Calls (Except Errno Unit) := do
  let _ ← lock
  let ret ← transfer (.irw reg val)
  let _ ← unlock
  pure ret

/-- `none` is a NULL `reg_val`. -/
def qcspiIRR (reg : Nat) (regVal : Option Unit) : Calls (Except Errno Nat) := do
  match regVal with
  | none => pure (.error .inval)
  | some _ =>
    let _ ← lock
    let ret ← transfer (.irr reg)
    let _ ← unlock
    pure ret

/-- `none` is a NULL `status`. -/
def qcspiRDSR (status : Option Unit) : Calls (Except Errno Nat) := do
  match status with
  | none => pure (.error .inval)
  | some _ =>
    let _ ← lock
    let ret ← transfer .rdsr
    let _ ← unlock
    pure ret

/-- `BIT_CHECK(status, QCSPI_STATUS_BUSY_BIT)` -/
def busy (status : Nat) : Bool := status.testBit 24

/-- The loop at the end of a read or write, with so many rounds to go: the last round but
one gives up. -/
def waitReady : Nat → Calls (Except Errno Unit)
  | 0 => pure (.ok ())
  | left + 1 => do
    match ← qcspiRDSR (some ()) with
    | .ok status =>
      if !busy status then pure (.ok ())
      else if left = 1 then pure (.error .timedOut)
      else waitReady left
    | .error _ => if left = 1 then pure (.error .timedOut) else waitReady left

/-- `none` is a NULL `rcv_buf`. -/
def qcspiRead (size addr : Nat) (rcvBuf : Option Mem) : Calls (Except Errno Unit × Mem) := do
  match rcvBuf with
  | none => pure (.error .inval, fun _ => 0)
  | some buf =>
    if size > maxTransferSize then pure (.error .inval, buf)
    else
      -- a failure is only logged
      let _ ← qcspiIRW trnsLenReg (size * 2 ^ 16)
      let _ ← lock
      match ← transfer (.fread addr) with
      | .error err =>
        let _ ← unlock
        pure (.error err, buf)
      | .ok _ =>
        let (ret, buf) ← transfer (.readData size buf)
        let _ ← unlock
        match ret with
        | .error err => pure (.error err, buf)
        | .ok _ =>
          let ret ← waitReady maxInitTryTimes
          pure (ret, buf)

/-- `none` is a NULL `snd_buf`. -/
def qcspiWrite (addr : Nat) (sndBuf : Option (List UInt8)) : Calls (Except Errno Unit) := do
  match sndBuf with
  | none => pure (.error .inval)
  | some bytes =>
    if bytes.length > maxTransferSize then pure (.error .inval)
    else
      let _ ← lock
      match ← transfer (.write addr) with
      | .error err =>
        let _ ← unlock
        pure (.error err)
      | .ok _ =>
        let ret ← transfer (.writeData bytes)
        let _ ← unlock
        match ret with
        | .error err => pure (.error err)
        | .ok _ => waitReady maxInitTryTimes

/-- `QCSPI_CONFIG_HOST_IRQ_INT0_EN(1)` is bit 5. -/
def qcspiInterrupt : Calls (Except Errno Unit) := do
  match ← qcspiIRR configReg (some ()) with
  | .error err => pure (.error err)
  | .ok config =>
    if config.testBit 5 then
      match ← qcspiIRR configReg (some ()) with
      | .ok config =>
        if config.testBit 5 then pure (.ok ())
        else qcspiIRW configReg (config ||| 2 ^ 5)
      -- `config_value` is still what the first read gave
      | .error _ => qcspiIRW configReg (config ||| 2 ^ 5)
    else qcspiIRW configReg (config ||| 2 ^ 5)

/-- The calls of an unaligned access on the bus: its NOP takes no lock. -/
def wordCall : (op : WordOp) → Calls op.Ans
  | .read size addr rcvBuf => qcspiRead size addr (some rcvBuf)
  | .write addr bytes => qcspiWrite addr (some bytes)
  | .nop => transfer .nop

/-! ## Threads -/

/-- What a thread calls. -/
inductive DriverCall
  | read (size addr : Nat) (rcvBuf : Option Mem)
  | write (addr : Nat) (sndBuf : Option (List UInt8))
  | readAddrAlign (bytesToRead addr : Nat) (readDataBuf : Option Mem)
  | writeAddrAlign (bytesToWrite addr : Nat) (writeDataBuf : Option Mem)
  | interrupt
  | rdsr (status : Option Unit)
  | irr (reg : Nat) (regVal : Option Unit)
  | irw (reg val : Nat)

@[reducible] def DriverCall.Ans : DriverCall → Type
  | .read _ _ _ | .readAddrAlign _ _ _ => Except Errno Unit × Mem
  | .rdsr _ | .irr _ _ => Except Errno Nat
  | .write _ _ | .writeAddrAlign _ _ _ | .interrupt | .irw _ _ => Except Errno Unit

def driver : (c : DriverCall) → Calls c.Ans
  | .read size addr rcvBuf => qcspiRead size addr rcvBuf
  | .write addr sndBuf => qcspiWrite addr sndBuf
  | .readAddrAlign n addr buf => (qcspiReadAddrAlign n addr buf).expand wordCall
  | .writeAddrAlign n addr data => (qcspiWriteAddrAlign n addr data).expand wordCall
  | .interrupt => qcspiInterrupt
  | .rdsr status => qcspiRDSR status
  | .irr reg regVal => qcspiIRR reg regVal
  | .irw reg val => qcspiIRW reg val

/-- The lock, the slave's register, and who is between a header and its data phase. -/
structure Shared (ι : Type) where
  holder : Option ι
  trnsLen : Nat
  selected : Option ι

/-- What a call of thread `i` does. Transfers may fail, and a failed write to TRNS_LEN may
have reached the register or not. -/
inductive Act {ι : Type} (i : ι) : Shared ι → (op : Op) → op.Ans → Shared ι → Prop
  | lock {s : Shared ι} (free : s.holder = none) : Act i s .lock () { s with holder := some i }
  | unlock (s : Shared ι) : Act i s .unlock () { s with holder := none }
  | nop (s : Shared ι) (ret : Except Errno Unit) : Act i s (.transfer .nop) ret s
  | fread (s : Shared ι) (addr : Nat) :
      Act i s (.transfer (.fread addr)) (.ok ()) { s with selected := some i }
  | freadFail (s : Shared ι) (addr : Nat) (err : Errno) :
      Act i s (.transfer (.fread addr)) (.error err) s
  | readData (s : Shared ι) (size : Nat) (old buf : Mem) (ret : Except Errno Unit) :
      Act i s (.transfer (.readData size old)) (ret, buf) { s with selected := none }
  | write (s : Shared ι) (addr : Nat) :
      Act i s (.transfer (.write addr)) (.ok ()) { s with selected := some i }
  | writeFail (s : Shared ι) (addr : Nat) (err : Errno) :
      Act i s (.transfer (.write addr)) (.error err) s
  | writeData (s : Shared ι) (bytes : List UInt8) (ret : Except Errno Unit) :
      Act i s (.transfer (.writeData bytes)) ret { s with selected := none }
  | rdsr (s : Shared ι) (ret : Except Errno Nat) : Act i s (.transfer .rdsr) ret s
  | irr (s : Shared ι) (reg : Nat) (ret : Except Errno Nat) : Act i s (.transfer (.irr reg)) ret s
  | trnsLen (s : Shared ι) (val : Nat) (ret : Except Errno Unit) :
      Act i s (.transfer (.irw trnsLenReg val)) ret { s with trnsLen := val }
  | irwKeeps {s : Shared ι} {reg val : Nat} {ret : Except Errno Unit}
      (keeps : reg ≠ trnsLenReg ∨ ∃ err, ret = .error err) : Act i s (.transfer (.irw reg val)) ret s

/-- Threads that run any program of driver calls. -/
def start {ι α : Type} (program : ι → Script DriverCall DriverCall.Ans α) (trnsLen : Nat) :
    Pool ι Op Op.Ans α (Shared ι) :=
  ⟨fun i => (program i).expand driver, none, trnsLen, none⟩

end Qapp.Spi.Bus
