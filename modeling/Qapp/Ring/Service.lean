import Mathlib.Algebra.Group.Nat.Defs
import Qapp.Lib.Threads

/-!
# The host ring service

`ring_service_host_init` and the functions behind it as scripts of the accesses they
make: each read or write of an array of `MAX_RINGS` elements, each use of a mutex or
semaphore, each modulo, each transport call.
-/

namespace Qapp.RingHost
open Script (perform Pool Moment)

def maxRings : Nat := 8

/-- `RING_STATUS_VALID` -/
def statusValid : Nat := 1

inductive Err
  | inval | nodev | msgSize | again | already | io | busy | timedOut
  deriving DecidableEq, Repr

/-- The arrays of `struct ring_control_block`, in their order. -/
inductive Field
  | txDescBase | txDescCount | txWrIdx | txRdIdx | txBufSize | txBufBase
  | rxDescBase | rxDescCount | rxWrIdx | rxRdIdx | rxBufSize | rxBufBase
  | ringStatus
  deriving DecidableEq, Repr

/-- `offsetof` -/
def Field.offset : Field → Nat
  | txDescBase => 12 | txDescCount => 44 | txWrIdx => 76 | txRdIdx => 108
  | txBufSize => 140 | txBufBase => 172 | rxDescBase => 204 | rxDescCount => 236
  | rxWrIdx => 268 | rxRdIdx => 300 | rxBufSize => 332 | rxBufBase => 364
  | ringStatus => 396

structure CtrlBlock where
  magic : Nat
  version : Nat
  numRings : Nat
  array : Field → Nat → Nat
  status : Nat

structure Desc where
  bufferAddr : Nat
  length : Nat
  flags : Nat

/-- The mutexes and semaphores of `struct ring_instance`. -/
inductive Obj
  | txLock (ring : Nat) | rxLock (ring : Nat) | txSem (ring : Nat) | rxSem (ring : Nat)
  deriving DecidableEq, Repr

def Obj.ring : Obj → Nat
  | .txLock r | .rxLock r | .txSem r | .rxSem r => r

inductive SyncCall
  | lock | unlock | give | take

inductive Op
  /-- Fields of `g_ring_service`. -/
  | initialized | numRings | ctrlBlockAddr | callback
  /-- An element of an array of `ctrl_cache`. -/
  | cached (f : Field) (i : Nat)
  | setCached (f : Field) (i val : Nat)
  /-- An element of another array of `MAX_RINGS` elements. -/
  | access (i : Nat)
  | modulo (d : Nat)
  /-- The four assignments of step 5. -/
  | saveConfig (addr : Nat) (ctrl : CtrlBlock)
  | setInitialized
  /-- `qc_osal_mutex_init` or `qc_osal_sem_init` -/
  | create (obj : Obj) (limit : Nat)
  | use (obj : Obj) (call : SyncCall)
  | workQueueInit
  | workInit (i : Nat)
  | workSubmit (i : Nat)
  | readBlock (addr : Nat)
  | readIdx (addr : Nat)
  | readDesc (addr : Nat)
  | readData (addr len : Nat)
  | write (addr : Nat) (bytes : List Nat)
  | interrupt

@[reducible] def Op.Ans : Op → Type
  | .initialized | .callback => Bool
  | .numRings | .ctrlBlockAddr | .cached _ _ => Nat
  | .setCached _ _ _ | .access _ | .modulo _ | .saveConfig _ _ | .setInitialized | .workSubmit _ =>
    Unit
  | .create _ _ | .use _ _ | .workQueueInit | .workInit _ | .write _ _ | .interrupt =>
    Except Err Unit
  | .readBlock _ => Except Err CtrlBlock
  | .readIdx _ => Except Err Nat
  | .readDesc _ => Except Err Desc
  | .readData _ _ => Except Err (List UInt8)

abbrev Host := Script Op Op.Ans

def call (op : Op) : Host op.Ans := perform op

/-! ## Helpers -/

/-- A difference of two `uint32_t`. -/
def sub32 (a b : Nat) : Nat := (a + 2 ^ 32 - b) % 2 ^ 32

/-- `for (i = from; ...; i++)` over so many rings, up to the first error. -/
def eachRing (body : Nat → Host (Except Err Unit)) : Nat → Nat → Host (Except Err Unit)
  | 0, _ => pure (.ok ())
  | left + 1, i => do
    match ← body i with
    | .error err => pure (.error err)
    | .ok _ => eachRing body left (i + 1)

/-- The checks every function of the API begins with. -/
def checkRing (ringId : Nat) : Host (Except Err Unit) := do
  if !(← call .initialized) then pure (.error .nodev)
  else if ringId ≥ maxRings then pure (.error .inval)
  else if (← call (.cached .ringStatus ringId)) ≠ statusValid then pure (.error .inval)
  else pure (.ok ())

/-- `ctrl_block_addr + offsetof(struct ring_control_block, f) + ring_id * 4` -/
def idxAddr (f : Field) (ringId : Nat) : Host Nat := do
  let addr ← call .ctrlBlockAddr
  pure ((addr + f.offset + ringId * 4) % 2 ^ 32)

/-- Free TX descriptors. -/
def txSpace (ringId wrIdx rdIdx : Nat) : Host Nat := do
  if rdIdx > wrIdx then pure (sub32 (sub32 rdIdx wrIdx) 1)
  else
    let count ← call (.cached .txDescCount ringId)
    pure (sub32 (sub32 count (sub32 wrIdx rdIdx)) 1)

/-- Filled RX descriptors. -/
def rxData (ringId wrIdx rdIdx : Nat) : Host Nat := do
  if wrIdx ≥ rdIdx then pure (sub32 wrIdx rdIdx)
  else
    let count ← call (.cached .rxDescCount ringId)
    pure (sub32 count (sub32 rdIdx wrIdx))

/-- `(idx + 1) % desc_count[ring_id]`, cached. -/
def advance (count idx : Field) (ringId old : Nat) : Host Nat := do
  let d ← call (.cached count ringId)
  let _ ← call (.modulo d)
  let next := (old + 1) % 2 ^ 32 % d
  let _ ← call (.setCached idx ringId next)
  pure next

/-! ## The API -/

def ringGetTxAvailable (ringId : Nat) : Host (Except Err Nat) := do
  match ← checkRing ringId with
  | .error err => pure (.error err)
  | .ok _ =>
    match ← call (.use (.txLock ringId) .lock) with
    | .error err => pure (.error err)
    | .ok _ =>
      let addr ← idxAddr .txRdIdx ringId
      match ← call (.readIdx addr) with
      | .error err =>
        let _ ← call (.use (.txLock ringId) .unlock)
        pure (.error err)
      | .ok rdIdx =>
        let wrIdx ← call (.cached .txWrIdx ringId)
        let count ← call (.cached .txDescCount ringId)
        let _ ← call (.use (.txLock ringId) .unlock)
        if rdIdx > wrIdx then pure (.ok (sub32 (sub32 rdIdx wrIdx) 1))
        else pure (.ok (sub32 (sub32 count (sub32 wrIdx rdIdx)) 1))

def ringGetRxAvailable (ringId : Nat) : Host (Except Err Nat) := do
  match ← checkRing ringId with
  | .error err => pure (.error err)
  | .ok _ =>
    match ← call (.use (.rxLock ringId) .lock) with
    | .error err => pure (.error err)
    | .ok _ =>
      let addr ← idxAddr .rxWrIdx ringId
      match ← call (.readIdx addr) with
      | .error err =>
        let _ ← call (.use (.rxLock ringId) .unlock)
        pure (.error err)
      | .ok wrIdx =>
        let rdIdx ← call (.cached .rxRdIdx ringId)
        let count ← call (.cached .rxDescCount ringId)
        let _ ← call (.use (.rxLock ringId) .unlock)
        if wrIdx ≥ rdIdx then pure (.ok (sub32 wrIdx rdIdx))
        else pure (.ok (sub32 count (sub32 rdIdx wrIdx)))

/-- A failed call under a lock: the lock is released. -/
def giveUp {α : Type} (obj : Obj) (err : Err) : Host (Except Err α) := do
  let _ ← call (.use obj .unlock)
  pure (.error err)

/-- The bytes of a little-endian word. -/
def wordBytes (v : Nat) : List Nat := [v % 256, v / 256 % 256, v / 65536 % 256, v / 16777216 % 256]

/-- `struct ring_descriptor` -/
def descBytes (d : Desc) : List Nat :=
  wordBytes d.bufferAddr ++ [d.length % 256, d.length / 256 % 256, d.flags % 256, d.flags / 256 % 256]

/-- `ring_send` with space for the message at `wr_idx`. -/
def sendAt (ringId : Nat) (data : List UInt8) (wrIdx : Nat) : Host (Except Err Unit) := do
  let base ← call (.cached .txBufBase ringId)
  let size ← call (.cached .txBufSize ringId)
  let bufAddr := (base + wrIdx * size) % 2 ^ 32
  match ← call (.write bufAddr (data.map UInt8.toNat)) with
  | .error err => giveUp (.txLock ringId) err
  | .ok _ =>
    let descBase ← call (.cached .txDescBase ringId)
    let desc : Desc := { bufferAddr := bufAddr, length := data.length % 2 ^ 16, flags := 1 }
    match ← call (.write ((descBase + wrIdx * 8) % 2 ^ 32) (descBytes desc)) with
    | .error err => giveUp (.txLock ringId) err
    | .ok _ =>
      let next ← advance .txDescCount .txWrIdx ringId wrIdx
      let addr ← idxAddr .txWrIdx ringId
      match ← call (.write addr (wordBytes next)) with
      | .error err => giveUp (.txLock ringId) err
      | .ok _ =>
        -- `stats.tx_count++`
        let _ ← call (.access ringId)
        let _ ← call (.use (.txLock ringId) .unlock)
        -- a failed interrupt is only logged
        let _ ← call .interrupt
        pure (.ok ())

/-- `none` is a NULL `data`. -/
def ringSend (ringId : Nat) (data : Option (List UInt8)) : Host (Except Err Unit) := do
  match ← checkRing ringId with
  | .error err => pure (.error err)
  | .ok _ =>
    match data with
    | none => pure (.error .inval)
    | some data =>
      if data.length = 0 then pure (.error .inval)
      else if data.length > (← call (.cached .txBufSize ringId)) then pure (.error .msgSize)
      else
        match ← call (.use (.txLock ringId) .lock) with
        | .error err => pure (.error err)
        | .ok _ =>
          let rdIdx ← call (.cached .txRdIdx ringId)
          let wrIdx ← call (.cached .txWrIdx ringId)
          if (← txSpace ringId wrIdx rdIdx) = 0 then
            let addr ← idxAddr .txRdIdx ringId
            match ← call (.readIdx addr) with
            | .error err => giveUp (.txLock ringId) err
            | .ok rdIdx =>
              let _ ← call (.setCached .txRdIdx ringId rdIdx)
              if (← txSpace ringId wrIdx rdIdx) = 0 then giveUp (.txLock ringId) .again
              else sendAt ringId data wrIdx
          else sendAt ringId data wrIdx

/-- `ring_recv` at `rd_idx`. -/
def recvAt (ringId maxLen rdIdx : Nat) : Host (Except Err Nat) := do
  let descBase ← call (.cached .rxDescBase ringId)
  let descAddr := (descBase + rdIdx * 8) % 2 ^ 32
  match ← call (.readDesc descAddr) with
  | .error err => giveUp (.rxLock ringId) err
  | .ok desc =>
    if !desc.flags.testBit 0 then
      -- `stats.rx_errors++`
      let _ ← call (.access ringId)
      giveUp (.rxLock ringId) .inval
    else if desc.length > maxLen then
      let _ ← call (.access ringId)
      giveUp (.rxLock ringId) .msgSize
    else
      match ← call (.readData desc.bufferAddr desc.length) with
      | .error err => giveUp (.rxLock ringId) err
      | .ok _ =>
        match ← call (.write descAddr (descBytes { desc with length := 0, flags := 0 })) with
        | .error err => giveUp (.rxLock ringId) err
        | .ok _ =>
          let next ← advance .rxDescCount .rxRdIdx ringId rdIdx
          let addr ← idxAddr .rxRdIdx ringId
          match ← call (.write addr (wordBytes next)) with
          | .error err => giveUp (.rxLock ringId) err
          | .ok _ =>
            let _ ← call (.access ringId)
            let _ ← call (.use (.rxLock ringId) .unlock)
            pure (.ok desc.length)

/-- `none` is a NULL `data`; `noWait` is `timeout == QC_OSAL_TIMEOUT_NO_WAIT`. -/
def ringRecv (ringId : Nat) (data : Option Unit) (maxLen : Nat) (noWait : Bool) :
    Host (Except Err Nat) := do
  match ← checkRing ringId with
  | .error err => pure (.error err)
  | .ok _ =>
    if data.isNone || maxLen = 0 then pure (.error .inval)
    else
      match ← call (.use (.rxLock ringId) .lock) with
      | .error err => pure (.error err)
      | .ok _ =>
        let wrAddr ← idxAddr .rxWrIdx ringId
        match ← call (.readIdx wrAddr) with
        | .error err => giveUp (.rxLock ringId) err
        | .ok wrIdx =>
          let rdIdx ← call (.cached .rxRdIdx ringId)
          if (← rxData ringId wrIdx rdIdx) = 0 then
            let _ ← call (.use (.rxLock ringId) .unlock)
            if noWait then pure (.ok 0)
            else
              match ← call (.use (.rxSem ringId) .take) with
              | .error _ => pure (.ok 0)
              | .ok _ =>
                match ← call (.use (.rxLock ringId) .lock) with
                | .error err => pure (.error err)
                | .ok _ =>
                  match ← call (.readIdx wrAddr) with
                  | .error err => giveUp (.rxLock ringId) err
                  | .ok _ =>
                    let rdIdx ← call (.cached .rxRdIdx ringId)
                    recvAt ringId maxLen rdIdx
          else recvAt ringId maxLen rdIdx

/-- One ring in `ring_rx_handler`. -/
def wakeRing (i : Nat) : Host (Except Err Unit) := do
  let _ ← call (.use (.rxSem i) .give)
  if (← call .callback) then
    let _ ← call (.workSubmit i)
    pure (.ok ())
  else pure (.ok ())

def ringRxHandler : Host (Except Err Unit) := do
  if !(← call .initialized) then pure (.ok ())
  else
    let n ← call .numRings
    eachRing wakeRing n 0

/-! ## Initialization -/

/-- Step 6 for one ring. -/
def initSync (ctrl : CtrlBlock) (i : Nat) : Host (Except Err Unit) := do
  match ← call (.create (.txLock i) 0) with
  | .error err => pure (.error err)
  | .ok _ =>
    match ← call (.create (.rxLock i) 0) with
    | .error err => pure (.error err)
    | .ok _ =>
      -- `ctrl.tx_desc_count[i]`
      let _ ← call (.access i)
      match ← call (.create (.txSem i) (ctrl.array .txDescCount i)) with
      | .error err => pure (.error err)
      | .ok _ =>
        match ← call (.create (.rxSem i) (ctrl.array .rxDescCount i)) with
        | .error err => pure (.error err)
        | .ok _ =>
          -- the statistics
          let _ ← call (.access i)
          pure (.ok ())

/-- Step 8 for one ring. -/
def initWork (i : Nat) : Host (Except Err Unit) := do
  let _ ← call (.access i)
  call (.workInit i)

/-- The log lines at the end. -/
def logRing (i : Nat) : Host (Except Err Unit) := do
  let _ ← call (.access i)
  pure (.ok ())

/-- `RING_MAGIC_NUMBER` -/
def magicNumber : Nat := 0x52494E47

/-- Steps 2 to 4; a version mismatch is only logged. -/
def CtrlBlock.check (ctrl : CtrlBlock) : Except Err Unit :=
  if ctrl.magic ≠ magicNumber then .error .inval
  else if !ctrl.status.testBit 0 then .error .nodev
  else .ok ()

/-- Steps 6 to the end. -/
def initRings (ctrl : CtrlBlock) : Host (Except Err Unit) := do
  match ← eachRing (initSync ctrl) ctrl.numRings 0 with
  | .error err => pure (.error err)
  | .ok _ =>
    match ← call .workQueueInit with
    | .error err => pure (.error err)
    | .ok _ =>
      match ← eachRing initWork ctrl.numRings 0 with
      | .error err => pure (.error err)
      | .ok _ =>
        let _ ← call .setInitialized
        let _ ← eachRing logRing ctrl.numRings 0
        pure (.ok ())

/-- `none` is a NULL `transport`. -/
def ringServiceHostInit (ctrlBlockAddr : Nat) (transport : Option Unit) :
    Host (Except Err Unit) := do
  if (← call .initialized) then pure (.error .already)
  else if transport.isNone then pure (.error .inval)
  else
    match ← call (.readBlock ctrlBlockAddr) with
    | .error err => pure (.error err)
    | .ok ctrl =>
      match ctrl.check with
      | .error err => pure (.error err)
      | .ok _ =>
        let _ ← call (.saveConfig ctrlBlockAddr ctrl)
        initRings ctrl

/-! ## Running -/

/-- `g_ring_service`, and the objects that have been created. -/
structure Shared where
  initialized : Bool
  numRings : Nat
  ctrlBlockAddr : Nat
  cache : Field → Nat → Nat
  made : List Obj

/-- Zeroed static memory. -/
def Shared.boot : Shared := ⟨false, 0, 0, fun _ _ => 0, []⟩

/-- Calls that leave `g_ring_service` alone; the remote side and the OS answer anything. -/
def Op.Outside : Op → Prop
  | .callback | .access _ | .modulo _ | .use _ _ | .workQueueInit | .workInit _ | .workSubmit _
  | .readBlock _ | .readIdx _ | .readDesc _ | .readData _ _ | .write _ _ | .interrupt => True
  | _ => False

inductive Act : Shared → (op : Op) → op.Ans → Shared → Prop
  | initialized (s : Shared) : Act s .initialized s.initialized s
  | numRings (s : Shared) : Act s .numRings s.numRings s
  | ctrlBlockAddr (s : Shared) : Act s .ctrlBlockAddr s.ctrlBlockAddr s
  | cached (s : Shared) (f : Field) (i : Nat) : Act s (.cached f i) (s.cache f i) s
  | setCached (s : Shared) (f : Field) (i val : Nat) :
      Act s (.setCached f i val) ()
        { s with cache := Function.update s.cache f (Function.update (s.cache f) i val) }
  | saveConfig (s : Shared) (addr : Nat) (ctrl : CtrlBlock) :
      Act s (.saveConfig addr ctrl) ()
        { s with numRings := ctrl.numRings, ctrlBlockAddr := addr, cache := ctrl.array }
  | setInitialized (s : Shared) : Act s .setInitialized () { s with initialized := true }
  | create (s : Shared) (obj : Obj) (limit : Nat) :
      Act s (.create obj limit) (.ok ()) { s with made := obj :: s.made }
  | createFail (s : Shared) (obj : Obj) (limit : Nat) (err : Err) :
      Act s (.create obj limit) (.error err) s
  | outside (s : Shared) (op : Op) (x : op.Ans) (h : op.Outside) : Act s op x s

/-- What the application and the interrupt call. -/
inductive ApiCall
  | getTxAvailable (ringId : Nat)
  | getRxAvailable (ringId : Nat)
  | send (ringId : Nat) (data : Option (List UInt8))
  | recv (ringId : Nat) (data : Option Unit) (maxLen : Nat) (noWait : Bool)
  | rxHandler

@[reducible] def ApiCall.Ans : ApiCall → Type
  | .getTxAvailable _ | .getRxAvailable _ | .recv _ _ _ _ => Except Err Nat
  | .send _ _ | .rxHandler => Except Err Unit

def api : (c : ApiCall) → Host c.Ans
  | .getTxAvailable ringId => ringGetTxAvailable ringId
  | .getRxAvailable ringId => ringGetRxAvailable ringId
  | .send ringId data => ringSend ringId data
  | .recv ringId data maxLen noWait => ringRecv ringId data maxLen noWait
  | .rxHandler => ringRxHandler

/-- One thread initializes the service and goes on with its program, the others run
theirs from the beginning. -/
def start {ι α : Type} [DecidableEq ι] (booter : ι) (addr : Nat) (transport : Option Unit)
    (program : ι → Script ApiCall ApiCall.Ans α) : Pool ι Op Op.Ans α Shared :=
  ⟨fun i => if i = booter then ringServiceHostInit addr transport >>= fun _ =>
    (program i).expand api else (program i).expand api, .boot⟩

/-- The index of an access to an array of `MAX_RINGS` elements. -/
def Op.index? : Op → Option Nat
  | .cached _ i | .setCached _ i _ | .access i | .workInit i | .workSubmit i => some i
  | .create obj _ | .use obj _ => some obj.ring
  | _ => none

/-- The cached indices of the rings the API lets through. -/
def Shared.InBounds (s : Shared) : Prop :=
  ∀ r, r < maxRings → s.cache .ringStatus r = statusValid →
    s.cache .txWrIdx r < s.cache .txDescCount r ∧ s.cache .txRdIdx r < s.cache .txDescCount r ∧
    s.cache .rxWrIdx r < s.cache .rxDescCount r ∧ s.cache .rxRdIdx r < s.cache .rxDescCount r

/-- A moment that stays inside the arrays, uses what has been created, divides by no zero
and leaves the indices in bounds. -/
structure Safe {ι α : Type} (m : Moment ι Op Op.Ans α Shared) : Prop where
  index : ∀ i, m.op.index? = some i → i < maxRings
  created : ∀ obj c, m.op = .use obj c → obj ∈ m.before.state.made
  modulo : ∀ d, m.op = .modulo d → d ≠ 0
  bounds : m.after.state.InBounds

/-- A number of rings and arrays the service can work with. -/
structure Good (numRings : Nat) (array : Field → Nat → Nat) : Prop where
  rings : numRings ≤ maxRings
  valid : ∀ r, r < maxRings → array .ringStatus r = statusValid → r < numRings ∧
    array .txWrIdx r < array .txDescCount r ∧ array .txRdIdx r < array .txDescCount r ∧
    array .rxWrIdx r < array .rxDescCount r ∧ array .rxRdIdx r < array .rxDescCount r

/-- The remote side has behaved: the control block is good, and so is a read index that is
cached. -/
structure Clear {ι α : Type} (m : Moment ι Op Op.Ans α Shared) : Prop where
  block : ∀ addr ctrl, m.op = .saveConfig addr ctrl → Good ctrl.numRings ctrl.array
  index : ∀ r val, m.op = .setCached .txRdIdx r val → val < m.before.state.cache .txDescCount r

end Qapp.RingHost
