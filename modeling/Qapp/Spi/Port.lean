import Qapp.Lib.Ticks
import Qapp.Spi.Bus

/-!
# SPI transfers on the STM32 ports

`qc_platform_spi_transceive` of either port as a script of chip select and of what the
vendor's code does, and the driver's calls on top of it.
-/

namespace Qapp.Spi
open ByteMem Ticks
open Bus (Transfer Op)
open Script (perform)

namespace Bus.Transfer

/-- Bytes on the bus. -/
def len : Transfer → Nat
  | .nop => 1
  | .fread _ => 15
  | .readData size _ => size
  | .write _ => 5
  | .writeData bytes => bytes.length
  | .rdsr => 5
  | .irr _ => 8
  | .irw _ _ => 6

/-- `qcspi_transfer_sg` sends the headers. -/
def holdCs : Transfer → Bool
  | .fread _ | .write _ => true
  | _ => false

/-- What the receive buffer comes to mean. -/
@[reducible] def Payload : Transfer → Type
  | .readData _ _ => Mem
  | .rdsr | .irr _ => Nat
  | _ => Unit

/-- The receive buffer before a transfer. -/
def untouched : (t : Transfer) → t.Payload
  | .readData _ old => old
  | .rdsr | .irr _ => 0
  | .nop | .fread _ | .write _ | .writeData _ | .irw _ _ => ()

/-- The answer of a transfer, from its return value and its buffer. -/
def answer : (t : Transfer) → Except Errno Unit → t.Payload → (Op.transfer t).Ans
  | .readData _ _, ret, buf => (ret, buf)
  | .rdsr, ret, val | .irr _, ret, val => ret.map fun _ => val
  | .nop, ret, _ | .fread _, ret, _ | .write _, ret, _ | .writeData _, ret, _ | .irw _ _, ret, _ =>
    ret

end Bus.Transfer

namespace Port

/-- `HAL_StatusTypeDef`. -/
inductive HalStatus
  | ok | error | busy | timeout
  deriving DecidableEq, Repr

inductive PinOp
  | lock
  | unlock
  /-- Chip select, `true` for the active level. -/
  | cs (active : Bool)
  /-- `HAL_SPI_TransmitReceive`, or the start of it by DMA -/
  | hal (t : Transfer) (dma : Bool)
  /-- The loop that waits for the end of the DMA. -/
  | dmaWait
  /-- Zephyr's `spi_transceive` -/
  | spiTransceive (t : Transfer)

@[reducible] def PinOp.Ans : PinOp → Type
  | .lock | .unlock | .cs _ => Unit
  | .hal t _ => HalStatus × t.Payload
  | .dmaWait => PollEnd
  | .spiTransceive t => Int × t.Payload

abbrev Pins := Script PinOp PinOp.Ans

def halStatusToPlatform : HalStatus → Except Errno Unit
  | .ok => .ok ()
  | .error => .error .io
  | .busy => .error .busy
  | .timeout => .error .io

/-- The argument is positive. -/
def zephyrErrnoToPlatform (err : Int) : Except Errno Unit :=
  if err = 0 then .ok ()
  else if err = 22 then .error .inval
  else if err = 19 then .error .nodev
  else if err = 5 then .error .io
  else if err = 16 then .error .busy
  else .error .io

/-- The platform context: NULL, or its `initialized` or `cs_initialized` flag. -/
abbrev Ctx := Option Bool

/-- The loop of the FreeRTOS port, which HAL_GetTick() read `start` before. -/
def dmaWait (start : UInt32) (polls : List Poll) : Option (PollEnd × Nat) :=
  pollUntil (fun now => start + 1000 < now) polls

/-- The transfer between the two changes of chip select. -/
def halTransfer (t : Transfer) : Pins (Except Errno Unit × t.Payload) := do
  let (status, payload) ← perform (PinOp.hal t (16 < t.len))
  if t.len ≤ 16 ∨ status ≠ .ok then pure (halStatusToPlatform status, payload)
  else
    match ← perform PinOp.dmaWait with
    | .done => pure (.ok (), payload)
    | .timeUp => pure (halStatusToPlatform .timeout, payload)

def Fails (ret : Except Errno Unit) : Bool :=
  match ret with
  | .ok _ => false
  | .error _ => true

/-- `qc_platform_spi_transceive` on FreeRTOS. The driver's buffers are not NULL. -/
def spiTransceiveFreertos (ctx : Ctx) (t : Transfer) : Pins (Except Errno Unit × t.Payload) := do
  if ctx ≠ some true then pure (.error .inval, t.untouched)
  else if t.len = 0 then pure (.error .inval, t.untouched)
  else
    let _ ← perform (PinOp.cs true)
    let (ret, payload) ← halTransfer t
    if Fails ret || !t.holdCs then
      let _ ← perform (PinOp.cs false)
      pure (ret, payload)
    else pure (ret, payload)

/-- `qc_platform_spi_transceive` on Zephyr. -/
def spiTransceiveZephyr (ctx : Ctx) (t : Transfer) : Pins (Except Errno Unit × t.Payload) := do
  match ctx with
  | none => pure (.error .inval, t.untouched)
  | some initialized =>
    if t.len = 0 then pure (.error .inval, t.untouched)
    else if !initialized then pure (.error .nodev, t.untouched)
    else
      let _ ← perform (PinOp.cs true)
      let (ret, payload) ← perform (PinOp.spiTransceive t)
      let _ ← if t.holdCs then pure () else perform (PinOp.cs false)
      if ret < 0 then
        let _ ← perform (PinOp.cs false)
        pure (zephyrErrnoToPlatform (-ret), payload)
      else pure (.ok (), payload)

inductive Platform
  | freertos | zephyr
  deriving DecidableEq, Repr

def spiTransceive : Platform → Ctx → (t : Transfer) → Pins (Except Errno Unit × t.Payload)
  | .freertos => spiTransceiveFreertos
  | .zephyr => spiTransceiveZephyr

/-- The calls of the driver on a port. -/
def busCall (port : Platform) (ctx : Ctx) : (op : Op) → Pins op.Ans
  | .lock => perform PinOp.lock
  | .unlock => perform PinOp.unlock
  | .transfer t => do
    let (ret, payload) ← spiTransceive port ctx t
    pure (t.answer ret payload)

/-! ## The pins -/

/-- Chip select, and whether `qcspi_mutex` is taken. -/
structure State where
  csActive : Bool
  mutexHeld : Bool
  deriving DecidableEq, Repr

/-- A transfer or a wait may end in any way. -/
inductive Acts : State → (op : PinOp) → op.Ans → State → Prop
  | lock {s : State} (free : s.mutexHeld = false) : Acts s .lock () { s with mutexHeld := true }
  | unlock (s : State) : Acts s .unlock () { s with mutexHeld := false }
  | cs (s : State) (active : Bool) : Acts s (.cs active) () { s with csActive := active }
  | hal (s : State) (t : Transfer) (dma : Bool) (x : HalStatus × t.Payload) : Acts s (.hal t dma) x s
  | dmaWait {start : UInt32} {polls : List Poll} {how : PollEnd} {n : Nat} (s : State)
      (ends : dmaWait start polls = some (how, n)) : Acts s .dmaWait how s
  | spiTransceive (s : State) (t : Transfer) (x : Int × t.Payload) : Acts s (.spiTransceive t) x s

/-- The calls that a thread makes for one access to the slave. -/
inductive Access
  | read (size addr : Nat) (rcvBuf : Option Mem)
  | write (addr : Nat) (sndBuf : Option (List UInt8))
  | rdsr (status : Option Unit)
  | irr (reg : Nat) (regVal : Option Unit)
  | irw (reg val : Nat)

def Access.call : Access → Bus.DriverCall
  | .read size addr rcvBuf => .read size addr rcvBuf
  | .write addr sndBuf => .write addr sndBuf
  | .rdsr status => .rdsr status
  | .irr reg regVal => .irr reg regVal
  | .irw reg val => .irw reg val

def Access.run (port : Platform) (ctx : Ctx) (a : Access) : Pins a.call.Ans :=
  (Bus.driver a.call).expand (busCall port ctx)

end Port

end Qapp.Spi
