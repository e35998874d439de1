import Qapp.Ring.Layout

/-!
# `ring_recv` and the slave that fills the ring

One RX ring, its host threads, the interrupts of `ring_rx_handler` and its slave
over a shared remote memory. Each transport call, lock or semaphore operation is
one step.
-/

namespace Qapp.RingRx
open ByteMem Cyclic

abbrev Msg := RingTx.Msg

/-- What `ring_service_host_init` caches of an RX ring and never changes. The
buffers are the slave's: the host finds them through the descriptors. -/
structure Ring where
  ctrlBlockAddr : Nat
  ringId : Nat
  rxDescBase : Nat
  rxDescCount : Nat
  rxBufSize : Nat
  rxBufBase : Nat

namespace Ring

/-- `offsetof(struct ring_control_block, rx_wr_idx) + ring_id * 4` -/
def wrIdxAddr (r : Ring) : Nat := (r.ctrlBlockAddr + 268 + r.ringId * 4) % 2 ^ 32

/-- `offsetof(struct ring_control_block, rx_rd_idx) + ring_id * 4` -/
def rdIdxAddr (r : Ring) : Nat := (r.ctrlBlockAddr + 300 + r.ringId * 4) % 2 ^ 32

def descAddr (r : Ring) (idx : Nat) : Nat := (r.rxDescBase + idx * 8) % 2 ^ 32

def bufAddr (r : Ring) (idx : Nat) : Nat := (r.rxBufBase + idx * r.rxBufSize) % 2 ^ 32

/-- The six RX arrays of the control block follow the TX arrays in the same order. -/
def layout (r : Ring) : RingTx.Ring where
  ctrlBlockAddr := r.ctrlBlockAddr + 192
  ringId := r.ringId
  txDescBase := r.rxDescBase
  txDescCount := r.rxDescCount
  txBufSize := r.rxBufSize
  txBufBase := r.rxBufBase

/-- An address of a slot's buffer or descriptor. -/
def InSlot (r : Ring) (idx x : Nat) : Prop :=
  (r.bufAddr idx ≤ x ∧ x < r.bufAddr idx + r.rxBufSize) ∨
  (r.descAddr idx ≤ x ∧ x < r.descAddr idx + 8)

end Ring

/-- The fields of `struct ring_descriptor`. -/
def descBuffer (m : Mem) (a : Nat) : Nat := word m a
def descLength (m : Mem) (a : Nat) : Nat := leNat (load m (a + 4) 2)
def descFlags (m : Mem) (a : Nat) : Nat := leNat (load m (a + 6) 2)

/-- The descriptor `ring_recv` writes back. -/
def cleared (bufAddr : Nat) : List UInt8 := leBytes 4 bufAddr ++ leBytes 2 0 ++ leBytes 2 0

/-- The arguments of a call; a timeout other than `QC_OSAL_TIMEOUT_NO_WAIT` may end
a wait at any time or never. -/
structure Call where
  maxLen : Nat
  noWait : Bool

/-- Where a thread is inside `ring_recv`, with its local variables. -/
inductive Pc
  | idle
  | locking (call : Call)
  | looking (call : Call)
  | waiting (call : Call)
  | relocking (call : Call)
  | rereading (call : Call)
  | fetching (call : Call) (rdIdx : Nat)
  | loading (rdIdx bufAddr dataLen : Nat)
  | clearing (data : Msg) (rdIdx bufAddr : Nat)
  | advancing (data : Msg) (rdIdx : Nat)
  | unlocking (data : Msg)

/-- `mem` is the remote memory, `rxRdIdx` the cached index, `owner` the holder of
`rx_lock`. `returned` and `published` record the calls that returned data and what
the slave has published. -/
structure State where
  mem : Mem
  rxRdIdx : Nat
  owner : Option Nat
  pc : Nat → Pc
  rxSem : Nat
  rxErrors : Nat
  returned : List Msg
  published : List Msg

def State.move (s : State) (i : Nat) (p : Pc) : State :=
  { s with pc := Function.update s.pc i p }

def State.unlock (s : State) (i : Nat) : State := { s.move i .idle with owner := none }

/-- Descriptors with data, from the read index up to the write index. -/
def available (n wrIdx rdIdx : Nat) : Nat :=
  if wrIdx ≥ rdIdx then wrIdx - rdIdx else n - (rdIdx - wrIdx)

/-- After the first read of `rx_wr_idx`. -/
def State.looked (r : Ring) (s : State) (i : Nat) (call : Call) (wrIdx : Nat) : State :=
  if available r.rxDescCount wrIdx s.rxRdIdx = 0 then
    if call.noWait then s.unlock i else { s.move i (.waiting call) with owner := none }
  else s.move i (.fetching call s.rxRdIdx)

/-- After the descriptor has been read. -/
def State.fetched (r : Ring) (s : State) (i : Nat) (call : Call) (rdIdx : Nat) : State :=
  if descFlags s.mem (r.descAddr rdIdx) % 2 = 0 then
    { s.unlock i with rxErrors := s.rxErrors + 1 }
  else if call.maxLen < descLength s.mem (r.descAddr rdIdx) then
    { s.unlock i with rxErrors := s.rxErrors + 1 }
  else
    s.move i (.loading rdIdx (descBuffer s.mem (r.descAddr rdIdx))
      (descLength s.mem (r.descAddr rdIdx)))

/-- A slot holds a message the way the slave leaves it. -/
structure Holds (r : Ring) (m : Mem) (idx : Nat) (msg : Msg) : Prop where
  valid : descFlags m (r.descAddr idx) % 2 = 1
  len : descLength m (r.descAddr idx) = msg.length
  inside : r.bufAddr idx ≤ descBuffer m (r.descAddr idx) ∧
    descBuffer m (r.descAddr idx) + msg.length ≤ r.bufAddr idx + r.rxBufSize
  buf : load m (descBuffer m (r.descAddr idx)) msg.length = msg

/-- The slave leaves one slot empty. -/
def State.Room (r : Ring) (s : State) : Prop :=
  behind r.rxDescCount (word s.mem r.wrIdxAddr) (word s.mem r.rdIdxAddr) + 1 < r.rxDescCount

/-- `stale` allows a thread that has waited to find the ring empty. It does not test
for that again. -/
inductive Step (r : Ring) (stale : Bool) : State → State → Prop
  | call (s : State) (i : Nat) (call : Call) (idle : s.pc i = .idle) (pos : 0 < call.maxLen) :
      Step r stale s (s.move i (.locking call))
  | timeout (s : State) (i : Nat) (call : Call) (at' : s.pc i = .locking call) :
      Step r stale s (s.move i .idle)
  | lock (s : State) (i : Nat) (call : Call) (at' : s.pc i = .locking call)
      (free : s.owner = none) :
      Step r stale s { s.move i (.looking call) with owner := some i }
  | look (s : State) (i : Nat) (call : Call) (at' : s.pc i = .looking call) :
      Step r stale s (s.looked r i call (word s.mem r.wrIdxAddr))
  | giveUp (s : State) (i : Nat) (call : Call) (at' : s.pc i = .waiting call) :
      Step r stale s (s.move i .idle)
  | take (s : State) (i : Nat) (call : Call) (at' : s.pc i = .waiting call)
      (given : 0 < s.rxSem) :
      Step r stale s { s.move i (.relocking call) with rxSem := s.rxSem - 1 }
  | relock (s : State) (i : Nat) (call : Call) (at' : s.pc i = .relocking call)
      (free : s.owner = none) :
      Step r stale s { s.move i (.rereading call) with owner := some i }
  | reread (s : State) (i : Nat) (call : Call) (at' : s.pc i = .rereading call)
      (allowed : stale = true ∨ word s.mem r.wrIdxAddr ≠ s.rxRdIdx) :
      Step r stale s (s.move i (.fetching call s.rxRdIdx))
  | fetch (s : State) (i : Nat) (call : Call) (rdIdx : Nat)
      (at' : s.pc i = .fetching call rdIdx) : Step r stale s (s.fetched r i call rdIdx)
  | load (s : State) (i rdIdx bufAddr dataLen : Nat)
      (at' : s.pc i = .loading rdIdx bufAddr dataLen) (some : 0 < dataLen) :
      Step r stale s (s.move i (.clearing (load s.mem bufAddr dataLen) rdIdx bufAddr))
  /-- `qcspi_transport_read` refuses to read no bytes, and `ring_recv` returns its error. -/
  | refuse (s : State) (i rdIdx bufAddr : Nat) (at' : s.pc i = .loading rdIdx bufAddr 0) :
      Step r stale s (s.unlock i)
  | clear (s : State) (i : Nat) (data : Msg) (rdIdx bufAddr : Nat)
      (at' : s.pc i = .clearing data rdIdx bufAddr) :
      Step r stale s { s.move i (.advancing data rdIdx) with
        mem := store s.mem (r.descAddr rdIdx) (cleared bufAddr) }
  | advance (s : State) (i : Nat) (data : Msg) (rdIdx : Nat)
      (at' : s.pc i = .advancing data rdIdx) :
      Step r stale s { s.move i (.unlocking data) with
        rxRdIdx := (rdIdx + 1) % r.rxDescCount
        mem := store s.mem r.rdIdxAddr (leBytes 4 ((rdIdx + 1) % r.rxDescCount)) }
  | unlock (s : State) (i : Nat) (data : Msg) (at' : s.pc i = .unlocking data) :
      Step r stale s { s.unlock i with returned := s.returned ++ [data] }
  /-- `ring_rx_handler` gives the semaphore. -/
  | interrupt (s : State) : Step r stale s { s with rxSem := min (s.rxSem + 1) r.rxDescCount }
  /-- The slave writes to the buffer or the descriptor of its next slot. -/
  | fill (s : State) (m' : Mem) (room : s.Room r)
      (same : ∀ x, ¬r.InSlot (word s.mem r.wrIdxAddr) x → m' x = s.mem x) :
      Step r stale s { s with mem := m' }
  | publish (s : State) (msg : Msg) (room : s.Room r)
      (filled : Holds r s.mem (word s.mem r.wrIdxAddr) msg) :
      Step r stale s { s with
        mem := store s.mem r.wrIdxAddr
          (leBytes 4 ((word s.mem r.wrIdxAddr + 1) % r.rxDescCount))
        published := s.published ++ [msg] }
  /-- Other rings and the rest of the slave's memory. -/
  | elsewhere (s : State) (m' : Mem) (outside : ∀ x, r.layout.Owns x → m' x = s.mem x) :
      Step r stale s { s with mem := m' }

/-- Cached index equal to the remote one, no call under way; `published` is what the
ring holds already. -/
structure Start (r : Ring) (s : State) : Prop where
  rd : s.rxRdIdx = word s.mem r.rdIdxAddr
  rd_lt : s.rxRdIdx < r.rxDescCount
  wr_lt : word s.mem r.wrIdxAddr < r.rxDescCount
  count : s.published.length = behind r.rxDescCount (word s.mem r.wrIdxAddr) s.rxRdIdx
  filled : ∀ j msg, s.published[j]? = some msg →
    Holds r s.mem ((s.rxRdIdx + j) % r.rxDescCount) msg
  free : s.owner = none
  idle : ∀ i, s.pc i = .idle
  returned : s.returned = []

inductive Reachable (r : Ring) (stale : Bool) (start : State) : State → Prop
  | start : Reachable r stale start start
  | next {s t : State} : Reachable r stale start s → Step r stale s t → Reachable r stale start t

/-- The thread has `rx_lock`. -/
def Pc.Holding : Pc → Prop
  | .idle | .locking _ | .waiting _ | .relocking _ => False
  | _ => True

/-- The message a thread has taken but not returned yet. -/
def Pc.taken : Pc → List Msg
  | .unlocking data => [data]
  | _ => []

/-- Whether the descriptor at the read index is cleared and the index not advanced. -/
def Pc.torn : Pc → Nat
  | .advancing _ _ => 1
  | _ => 0

def State.inflight (s : State) : List Msg :=
  match s.owner with
  | none => []
  | some i => (s.pc i).taken

/-- The messages of all calls that returned data or are about to, in order. -/
def State.received (s : State) : List Msg := s.returned ++ s.inflight

def State.torn (s : State) : Nat :=
  match s.owner with
  | none => 0
  | some i => (s.pc i).torn

end Qapp.RingRx
