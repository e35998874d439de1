import Qapp.Lib.ByteMem
import Qapp.Lib.Cyclic

/-!
# `ring_send` and the slave that empties the ring

One TX ring, its host threads and its slave over a shared remote memory. Each
transport call is one step, so the slave and the other threads may run between
the buffer write, the descriptor write and the index write.
-/

namespace Qapp.RingTx
open ByteMem Cyclic

abbrev Msg := List UInt8

/-- What `ring_service_host_init` caches of a TX ring and never changes. -/
structure Ring where
  ctrlBlockAddr : Nat
  ringId : Nat
  txDescBase : Nat
  txDescCount : Nat
  txBufSize : Nat
  txBufBase : Nat

namespace Ring

/-- `offsetof(struct ring_control_block, tx_wr_idx) + ring_id * 4` -/
def wrIdxAddr (r : Ring) : Nat := (r.ctrlBlockAddr + 76 + r.ringId * 4) % 2 ^ 32

/-- `offsetof(struct ring_control_block, tx_rd_idx) + ring_id * 4` -/
def rdIdxAddr (r : Ring) : Nat := (r.ctrlBlockAddr + 108 + r.ringId * 4) % 2 ^ 32

def bufAddr (r : Ring) (idx : Nat) : Nat := (r.txBufBase + idx * r.txBufSize) % 2 ^ 32

def descAddr (r : Ring) (idx : Nat) : Nat := (r.txDescBase + idx * 8) % 2 ^ 32

/-- An address of one of the ring's buffers, descriptors or two indices. -/
def Owns (r : Ring) (x : Nat) : Prop :=
  (r.txBufBase ≤ x ∧ x < r.txBufBase + r.txDescCount * r.txBufSize) ∨
  (r.txDescBase ≤ x ∧ x < r.txDescBase + r.txDescCount * 8) ∨
  (r.wrIdxAddr ≤ x ∧ x < r.wrIdxAddr + 4) ∨ (r.rdIdxAddr ≤ x ∧ x < r.rdIdxAddr + 4)

end Ring

/-- `struct ring_descriptor` as `ring_send` writes it, flags `RING_DESC_FLAG_VALID`. -/
def descriptor (bufAddr length : Nat) : List UInt8 :=
  leBytes 4 bufAddr ++ leBytes 2 length ++ leBytes 2 1

/-- The message the slave finds in a slot: it follows the descriptor. -/
def slot (r : Ring) (m : Mem) (idx : Nat) : Msg :=
  load m (word m (r.descAddr idx)) (leNat (load m (r.descAddr idx + 4) 2))

/-- Where a thread is inside `ring_send`, with its local variables. -/
inductive Pc
  | idle
  | locking (data : Msg)
  | looking (data : Msg)
  | refreshing (data : Msg) (wrIdx : Nat)
  | filling (data : Msg) (wrIdx : Nat)
  | describing (data : Msg) (wrIdx : Nat)
  | publishing (data : Msg) (wrIdx : Nat)
  | unlocking (data : Msg)

/-- `mem` is the remote memory, `txWrIdx` and `txRdIdx` the control block cache,
`owner` the holder of `tx_lock`. `pos` is the next slot the slave reads. `taken`
and `returned` record what the slave read and the calls that returned 0. -/
structure State where
  mem : Mem
  txWrIdx : Nat
  txRdIdx : Nat
  owner : Option Nat
  pc : Nat → Pc
  pos : Nat
  taken : List Msg
  returned : List Msg

def State.move (s : State) (i : Nat) (p : Pc) : State :=
  { s with pc := Function.update s.pc i p }

def State.unlock (s : State) (i : Nat) : State :=
  { s.move i .idle with owner := none }

/-- After the emptiness test: write the slot, or return `-QC_OSAL_EAGAIN`. -/
def State.enter (r : Ring) (s : State) (i : Nat) (data : Msg) (wrIdx rdIdx : Nat) : State :=
  if avail r.txDescCount wrIdx rdIdx = 0 then s.unlock i else s.move i (.filling data wrIdx)

inductive Step (r : Ring) : State → State → Prop
  | call (s : State) (i : Nat) (data : Msg) (idle : s.pc i = .idle)
      (nonempty : 1 ≤ data.length) (short : data.length ≤ 1500)
      (fits : data.length ≤ r.txBufSize) : Step r s (s.move i (.locking data))
  | timeout (s : State) (i : Nat) (data : Msg) (at' : s.pc i = .locking data) :
      Step r s (s.move i .idle)
  | lock (s : State) (i : Nat) (data : Msg) (at' : s.pc i = .locking data)
      (free : s.owner = none) : Step r s { s.move i (.looking data) with owner := some i }
  | look (s : State) (i : Nat) (data : Msg) (at' : s.pc i = .looking data) :
      Step r s (if avail r.txDescCount s.txWrIdx s.txRdIdx = 0
        then s.move i (.refreshing data s.txWrIdx)
        else s.enter r i data s.txWrIdx s.txRdIdx)
  | refresh (s : State) (i : Nat) (data : Msg) (wrIdx : Nat)
      (at' : s.pc i = .refreshing data wrIdx) :
      Step r s (State.enter r { s with txRdIdx := word s.mem r.rdIdxAddr } i data wrIdx
        (word s.mem r.rdIdxAddr))
  | fill (s : State) (i : Nat) (data : Msg) (wrIdx : Nat) (at' : s.pc i = .filling data wrIdx) :
      Step r s { s.move i (.describing data wrIdx) with
        mem := store s.mem (r.bufAddr wrIdx) data }
  | describe (s : State) (i : Nat) (data : Msg) (wrIdx : Nat)
      (at' : s.pc i = .describing data wrIdx) :
      Step r s { s.move i (.publishing data wrIdx) with
        mem := store s.mem (r.descAddr wrIdx) (descriptor (r.bufAddr wrIdx) data.length) }
  | publish (s : State) (i : Nat) (data : Msg) (wrIdx : Nat)
      (at' : s.pc i = .publishing data wrIdx) :
      Step r s { s.move i (.unlocking data) with
        txWrIdx := (wrIdx + 1) % r.txDescCount
        mem := store s.mem r.wrIdxAddr (leBytes 4 ((wrIdx + 1) % r.txDescCount)) }
  | unlock (s : State) (i : Nat) (data : Msg) (at' : s.pc i = .unlocking data) :
      Step r s { s.unlock i with returned := s.returned ++ [data] }
  /-- The slave reads the next published slot. -/
  | consume (s : State) (published : word s.mem r.wrIdxAddr ≠ s.pos) :
      Step r s { s with
        taken := s.taken ++ [slot r s.mem s.pos]
        pos := (s.pos + 1) % r.txDescCount }
  /-- The slave gives slots it has read back to the host. -/
  | release (s : State) (k : Nat)
      (read : k ≤ behind r.txDescCount s.pos (word s.mem r.rdIdxAddr)) :
      Step r s { s with
        mem := store s.mem r.rdIdxAddr (leBytes 4 ((word s.mem r.rdIdxAddr + k) % r.txDescCount)) }
  /-- Other rings and the rest of the slave's memory. -/
  | elsewhere (s : State) (mem' : Mem) (outside : ∀ x, r.Owns x → mem' x = s.mem x) :
      Step r s { s with mem := mem' }

/-- Cached indices equal to the remote ones, no call under way. -/
structure Start (r : Ring) (s : State) : Prop where
  wr : s.txWrIdx = word s.mem r.wrIdxAddr
  rd : s.txRdIdx = word s.mem r.rdIdxAddr
  wr_lt : s.txWrIdx < r.txDescCount
  rd_lt : s.txRdIdx < r.txDescCount
  pos : s.pos = s.txRdIdx
  free : s.owner = none
  idle : ∀ i, s.pc i = .idle
  taken : s.taken = []
  returned : s.returned = []

inductive Reachable (r : Ring) (start : State) : State → Prop
  | start : Reachable r start start
  | next {s t : State} : Reachable r start s → Step r s t → Reachable r start t

/-- Between the parameter checks and the mutex a thread holds nothing. -/
def Pc.Holding : Pc → Prop
  | .idle | .locking _ => False
  | _ => True

/-- The message a thread has published but not returned 0 for. -/
def Pc.published : Pc → List Msg
  | .unlocking data => [data]
  | _ => []

/-- The published message of a call that has not returned yet. -/
def State.inflight (s : State) : List Msg :=
  match s.owner with
  | none => []
  | some i => (s.pc i).published

/-- The messages of all calls that returned 0 or are about to, in order. -/
def State.sent (s : State) : List Msg := s.returned ++ s.inflight

/-- Published slots the slave has not read. -/
def State.outstanding (r : Ring) (s : State) : Nat :=
  behind r.txDescCount (word s.mem r.wrIdxAddr) s.pos

/-- The messages in those slots, oldest first. -/
def State.pending (r : Ring) (s : State) : List Msg :=
  (List.range (s.outstanding r)).map fun j => slot r s.mem ((s.pos + j) % r.txDescCount)

/-- An address of a slot's buffer or descriptor. -/
def Ring.InSlot (r : Ring) (idx x : Nat) : Prop :=
  (r.bufAddr idx ≤ x ∧ x < r.bufAddr idx + r.txBufSize) ∨
  (r.descAddr idx ≤ x ∧ x < r.descAddr idx + 8)

/-- The addresses of the remote write a thread is about to make. -/
def Pc.Writes (r : Ring) (x : Nat) : Pc → Prop
  | .filling data wrIdx => r.bufAddr wrIdx ≤ x ∧ x < r.bufAddr wrIdx + data.length
  | .describing _ wrIdx => r.descAddr wrIdx ≤ x ∧ x < r.descAddr wrIdx + 8
  | .publishing _ _ => r.wrIdxAddr ≤ x ∧ x < r.wrIdxAddr + 4
  | _ => False

end Qapp.RingTx
