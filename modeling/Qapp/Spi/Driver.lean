import Qapp.Lib.ByteMem
import Qapp.Lib.Script

/-!
# The QCSPI driver's unaligned accesses

`qcspi_read_addr_align` and `qcspi_write_addr_align`, on top of the calls they make.
-/

namespace Qapp.Spi
open ByteMem

/-- Negative return values. -/
inductive Errno
  | inval | nodev | io | busy | timedOut
  deriving DecidableEq, Repr

/-- The calls below the unaligned accesses. Addresses are 32 bits wide, sizes 16. -/
inductive WordOp
  /-- `qcspi_read`, with the bytes `rcv_buf` has before -/
  | read (size addr : Nat) (rcvBuf : Mem)
  /-- `qcspi_write` -/
  | write (addr : Nat) (bytes : List UInt8)
  /-- `qcspi_transfer(&nop_wbuf, &nop_rbuf, 1)` -/
  | nop

/-- A read also answers with the bytes that are now in its buffer, a failed one too. -/
@[reducible] def WordOp.Ans : WordOp → Type
  | .read _ _ _ => Except Errno Unit × Mem
  | .write _ _ | .nop => Except Errno Unit

abbrev Words := Script WordOp WordOp.Ans

def qcspiRead (size addr : Nat) (rcvBuf : Mem) : Words (Except Errno Unit × Mem) :=
  Script.perform (WordOp.read size addr rcvBuf)

def qcspiWrite (addr : Nat) (bytes : List UInt8) : Words (Except Errno Unit) :=
  Script.perform (WordOp.write addr bytes)

/-- `data_buf` before a word is read into it. -/
def dataBuf : Mem := fun _ => 0

/-- `addr & 0xFFFFFFFC` -/
def alignDown (x : Nat) : Nat := x / 4 * 4

/-- The four bytes of `data_buf` after a `memcpy` to `&data_buf[offset]`. -/
def patch (word : Mem) (offset : Nat) (bytes : List UInt8) : List UInt8 :=
  load (store word offset bytes) 0 4

/-- The bytes of the first word that belong to the range. -/
def headSize (addr n : Nat) : Nat := if 4 - addr % 4 > n then n else 4 - addr % 4

/-- The last word of `qcspi_read_addr_align`, `total` bytes being read. -/
def readTail (n addr total : Nat) (buf : Mem) : Words (Except Errno Unit × Mem) := do
  match ← qcspiRead 4 addr dataBuf with
  | (.error err, _) => pure (.error err, buf)
  | (.ok _, word) => pure (.ok (), store buf total (load word 0 (n - total)))

/-- The words behind the first one. -/
def readRest (n addr total : Nat) (buf : Mem) : Words (Except Errno Unit × Mem) := do
  if total + 4 ≤ n then
    let size := alignDown (n - total)
    let (ret, bytes) ← qcspiRead (size % 2 ^ 16) addr fun i => buf (total + i)
    let buf := store buf total (load bytes 0 (size % 2 ^ 16))
    match ret with
    | .error err => pure (.error err, buf)
    | .ok _ =>
      if n ≤ total + size then pure (.ok (), buf)
      else readTail n ((addr + size) % 2 ^ 32) (total + size) buf
  else readTail n addr total buf

/-- `qcspi_read_addr_align`: what it returns, and the memory from `read_data_buf` on.
`none` is a NULL buffer. -/
def qcspiReadAddrAlign (bytesToRead addr : Nat) (readDataBuf : Option Mem) :
    Words (Except Errno Unit × Mem) := do
  match readDataBuf with
  | none => pure (.error .inval, fun _ => 0)
  | some buf =>
    if addr % 4 = 0 ∧ bytesToRead % 4 = 0 then
      let (ret, bytes) ← qcspiRead bytesToRead addr buf
      pure (ret, store buf 0 (load bytes 0 bytesToRead))
    else
      match ← qcspiRead 4 (alignDown addr) dataBuf with
      | (.error err, _) => pure (.error err, buf)
      | (.ok _, word) =>
        let size := headSize addr bytesToRead
        let buf := store buf 0 (load word (addr % 4) size)
        if bytesToRead ≤ size then pure (.ok (), buf)
        else readRest bytesToRead ((alignDown addr + 4) % 2 ^ 32) size buf

/-- The last word of `qcspi_write_addr_align`. -/
def writeTail (data : Mem) (n addr total : Nat) : Words (Except Errno Unit) := do
  match ← qcspiRead 4 addr dataBuf with
  | (.error err, _) => pure (.error err)
  | (.ok _, word) => qcspiWrite addr (patch word 0 (load data total (n - total)))

def writeRest (data : Mem) (n addr total : Nat) : Words (Except Errno Unit) := do
  if total + 4 ≤ n then
    let size := alignDown (n - total)
    match ← qcspiWrite addr (load data total (size % 2 ^ 16)) with
    | .error err => pure (.error err)
    | .ok _ =>
      if n ≤ total + size then pure (.ok ())
      else writeTail data n ((addr + size) % 2 ^ 32) (total + size)
  else writeTail data n addr total

/-- `qcspi_write_addr_align` -/
def qcspiWriteAddrAlign (bytesToWrite addr : Nat) (writeDataBuf : Option Mem) :
    Words (Except Errno Unit) := do
  match writeDataBuf with
  | none => pure (.error .inval)
  | some data =>
    if addr % 4 = 0 ∧ bytesToWrite % 4 = 0 then qcspiWrite addr (load data 0 bytesToWrite)
    else
      match ← qcspiRead 4 (alignDown addr) dataBuf with
      | (.error err, _) => pure (.error err)
      | (.ok _, word) =>
        let size := headSize addr bytesToWrite
        -- a NOP that fails is only logged
        let _ ← Script.perform WordOp.nop
        match ← qcspiWrite (alignDown addr) (patch word (addr % 4) (load data 0 size)) with
        | .error err => pure (.error err)
        | .ok _ =>
          if bytesToWrite ≤ size then pure (.ok ())
          else writeRest data bytesToWrite ((alignDown addr + 4) % 2 ^ 32) size

/-! ## Remote memory -/

/-- What a call does to the remote memory: a call that fails has stored anything in its
own range, or nothing. -/
inductive Remote : Mem → (op : WordOp) → op.Ans → Mem → Prop
  | read {m old buf : Mem} {size addr : Nat} (filled : ∀ i, i < size → buf i = m (addr + i)) :
      Remote m (.read size addr old) (.ok (), buf) m
  | readFail (m old buf : Mem) (size addr : Nat) (err : Errno) :
      Remote m (.read size addr old) (.error err, buf) m
  | write (m : Mem) (addr : Nat) (bytes : List UInt8) :
      Remote m (.write addr bytes) (.ok ()) (store m addr bytes)
  | writeFail {m m' : Mem} {addr : Nat} {bytes : List UInt8} (err : Errno)
      (outside : ∀ x, x < addr ∨ addr + bytes.length ≤ x → m' x = m x) :
      Remote m (.write addr bytes) (.error err) m'
  | nop (m : Mem) (r : Except Errno Unit) : Remote m .nop r m

/-- Whole words at a 4-aligned address. -/
def WordOp.Aligned : WordOp → Prop
  | .read size addr _ => addr % 4 = 0 ∧ size % 4 = 0
  | .write addr bytes => addr % 4 = 0 ∧ bytes.length % 4 = 0
  | .nop => True

end Qapp.Spi
