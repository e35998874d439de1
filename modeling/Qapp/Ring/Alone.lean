import Qapp.Ring.Progress

/-!
# Scripts and steps

`ringSend` and `ringRecv` say what one call asks of the transport, `RingTx.Step` and
`RingRx.Step` how calls interleave. A call that nothing interrupts and no transfer fails goes
through states of the latter.
-/

namespace Qapp.RingTx
open ByteMem Cyclic

variable {r : Ring} {s t u : State} {i w : Nat} {data : Msg}

theorem Reachable.trans (first : Reachable r s t) (second : Reachable r t u) :
    Reachable r s u := by
  induction second with
  | start => exact first
  | next _ step ih => exact ih.next step

/-! The outcomes of the two tests for space. -/

theorem Step.look_full (at' : s.pc i = .looking data)
    (full : avail r.txDescCount s.txWrIdx s.txRdIdx = 0) :
    Step r s (s.move i (.refreshing data s.txWrIdx)) := by
  have step : Step r s _ := .look s i data at'
  rwa [if_pos full] at step

theorem Step.look_space (at' : s.pc i = .looking data)
    (space : avail r.txDescCount s.txWrIdx s.txRdIdx ≠ 0) :
    Step r s (s.move i (.filling data s.txWrIdx)) := by
  have step : Step r s _ := .look s i data at'
  rwa [if_neg space, State.enter, if_neg space] at step

theorem Step.refresh_full (at' : s.pc i = .refreshing data w)
    (full : avail r.txDescCount w (word s.mem r.rdIdxAddr) = 0) :
    Step r s ({ s with txRdIdx := word s.mem r.rdIdxAddr }.unlock i) := by
  have step : Step r s _ := .refresh s i data w at'
  rwa [State.enter, if_pos full] at step

theorem Step.refresh_space (at' : s.pc i = .refreshing data w)
    (space : avail r.txDescCount w (word s.mem r.rdIdxAddr) ≠ 0) :
    Step r s ({ s with txRdIdx := word s.mem r.rdIdxAddr }.move i (.filling data w)) := by
  have step : Step r s _ := .refresh s i data w at'
  rwa [State.enter, if_neg space] at step

end Qapp.RingTx

namespace Qapp.RingRx
open ByteMem

variable {r : Ring} {stale : Bool} {s t u : State} {i rdIdx : Nat} {call : Call}

theorem Reachable.trans (first : Reachable r stale s t) (second : Reachable r stale t u) :
    Reachable r stale s u := by
  induction second with
  | start => exact first
  | next _ step ih => exact ih.next step

/-! The outcomes of the test for data and of the tests on a descriptor. -/

theorem Step.look_leave (at' : s.pc i = .looking call) (noWait : call.noWait = true)
    (empty : available r.rxDescCount (word s.mem r.wrIdxAddr) s.rxRdIdx = 0) :
    Step r stale s (s.unlock i) := by
  have step : Step r stale s _ := .look s i call at'
  rwa [State.looked, if_pos empty, if_pos noWait] at step

theorem Step.look_wait (at' : s.pc i = .looking call) (wait : ¬call.noWait = true)
    (empty : available r.rxDescCount (word s.mem r.wrIdxAddr) s.rxRdIdx = 0) :
    Step r stale s { s.move i (.waiting call) with owner := none } := by
  have step : Step r stale s _ := .look s i call at'
  rwa [State.looked, if_pos empty, if_neg wait] at step

theorem Step.look_filled (at' : s.pc i = .looking call)
    (filled : available r.rxDescCount (word s.mem r.wrIdxAddr) s.rxRdIdx ≠ 0) :
    Step r stale s (s.move i (.fetching call s.rxRdIdx)) := by
  have step : Step r stale s _ := .look s i call at'
  rwa [State.looked, if_neg filled] at step

theorem Step.fetch_bad (at' : s.pc i = .fetching call rdIdx)
    (bad : descFlags s.mem (r.descAddr rdIdx) % 2 = 0 ∨
      call.maxLen < descLength s.mem (r.descAddr rdIdx)) :
    Step r stale s { s.unlock i with rxErrors := s.rxErrors + 1 } := by
  have step : Step r stale s _ := .fetch s i call rdIdx at'
  unfold State.fetched at step
  by_cases valid : descFlags s.mem (r.descAddr rdIdx) % 2 = 0
  · rwa [if_pos valid] at step
  · rwa [if_neg valid, if_pos (bad.resolve_left valid)] at step

theorem Step.fetch_good (at' : s.pc i = .fetching call rdIdx)
    (valid : descFlags s.mem (r.descAddr rdIdx) % 2 ≠ 0)
    (fits : descLength s.mem (r.descAddr rdIdx) ≤ call.maxLen) :
    Step r stale s (s.move i (.loading rdIdx (descBuffer s.mem (r.descAddr rdIdx))
      (descLength s.mem (r.descAddr rdIdx)))) := by
  have step : Step r stale s _ := .fetch s i call rdIdx at'
  rwa [State.fetched, if_neg valid, if_neg (Nat.not_lt.mpr fits)] at step

end Qapp.RingRx

namespace Qapp.RingHost
open ByteMem Cyclic
open RingRx (descBuffer descFlags descLength)
open Spi (Unfailing)

/-! ## `ring_send` -/

/-- The TX ring the service has cached. -/
def Shared.txRing (s : Shared) (ringId : Nat) : RingTx.Ring where
  ctrlBlockAddr := s.ctrlBlockAddr
  ringId := ringId
  txDescBase := s.cache .txDescBase ringId
  txDescCount := s.cache .txDescCount ringId
  txBufSize := s.cache .txBufSize ringId
  txBufBase := s.cache .txBufBase ringId

/-- The state of the ring with its memory and cached indices as they are on the board. -/
def Board.txState (b : Board) (ringId : Nat) (s : RingTx.State) : RingTx.State :=
  { s with
    mem := b.mem
    txWrIdx := b.shared.cache .txWrIdx ringId
    txRdIdx := b.shared.cache .txRdIdx ringId }

/-- A valid TX ring in the 32-bit address space. -/
structure Shared.TxReady (s : Shared) (ringId : Nat) : Prop where
  passes : s.Open ringId
  apart : RingTx.Apart (s.txRing ringId)
  wr_lt : s.cache .txWrIdx ringId < s.cache .txDescCount ringId
  rd_lt : s.cache .txRdIdx ringId < 2 ^ 32
  wr_fits : s.idxAddr .txWrIdx ringId + 4 ≤ 2 ^ 32
  rd_fits : s.idxAddr .txRdIdx ringId + 4 ≤ 2 ^ 32

/-- The message of a call that has been sent. -/
def sent (data : List UInt8) : Except Err Unit → List RingTx.Msg
  | .ok _ => [data]
  | .error _ => []

theorem Shared.TxReady.set {s : Shared} {ringId val : Nat} (ready : s.TxReady ringId)
    {f : Field} (index : f = .txWrIdx ∧ val < s.cache .txDescCount ringId ∨
      f = .txRdIdx ∧ val < 2 ^ 32) : (s.set f ringId val).TxReady ringId := by
  obtain ⟨rfl, below⟩ | ⟨rfl, below⟩ := index
  · exact { ready with
      passes := ⟨ready.passes.initialized, ready.passes.inside, ready.passes.valid⟩
      apart := ready.apart
      wr_lt := by simpa [Shared.set] using below
      rd_lt := ready.rd_lt }
  · exact { ready with
      passes := ⟨ready.passes.initialized, ready.passes.inside, ready.passes.valid⟩
      apart := ready.apart
      wr_lt := ready.wr_lt
      rd_lt := by simpa [Shared.set] using below }

theorem txRing_set {s : Shared} {ringId i val : Nat} {f : Field}
    (index : f = .txWrIdx ∨ f = .txRdIdx) : (s.set f i val).txRing ringId = s.txRing ringId := by
  obtain rfl | rfl := index <;> rfl

theorem txState_wrIdx (sh : Shared) (ringId val : Nat) (m data : Mem) (s : RingTx.State) :
    Board.txState ⟨sh.set .txWrIdx ringId val, m, data⟩ ringId s =
      { s with mem := m, txWrIdx := val, txRdIdx := sh.cache .txRdIdx ringId } := by
  simp [Board.txState, Shared.set]

theorem txState_rdIdx (sh : Shared) (ringId val : Nat) (m data : Mem) (s : RingTx.State) :
    Board.txState ⟨sh.set .txRdIdx ringId val, m, data⟩ ringId s =
      { s with mem := m, txWrIdx := sh.cache .txWrIdx ringId, txRdIdx := val } := by
  simp [Board.txState, Shared.set]

section Sending
variable {b b' : Board} {ringId i : Nat} {data : List UInt8} {s : RingTx.State}
  {x : Except Err Unit}

/-- The bytes of the descriptor in memory. -/
theorem descriptor_bytes {addr n : Nat} (short : n < 2 ^ 16) :
    (descBytes ⟨addr, n % 2 ^ 16, 1⟩).map UInt8.ofNat = RingTx.descriptor addr n := by
  rw [map_descBytes, Nat.mod_eq_of_lt short]
  rfl

/-- The steps go from `s` to `t` while the board goes from `b` to `b'`. -/
structure SentBy (b b' : Board) (ringId : Nat) (s t : RingTx.State) : Prop where
  steps : RingTx.Reachable (b.shared.txRing ringId) (b.txState ringId s) (b'.txState ringId t)
  ring : b'.shared.txRing ringId = b.shared.txRing ringId
  ready : b'.shared.TxReady ringId

theorem sendAt_steps (ready : b.shared.TxReady ringId) (nonempty : data.length ≠ 0)
    (short : data.length ≤ 1500) (fits : data.length ≤ b.shared.cache .txBufSize ringId)
    (at' : s.pc i = .filling data (b.shared.cache .txWrIdx ringId))
    (run : (sendAt ringId data (b.shared.cache .txWrIdx ringId)).Runs (Does (Unfailing false))
      b x b') : x = .ok () ∧
      SentBy b b' ringId s { s.unlock i with returned := s.returned ++ [data] } := by
  have count := ready.apart.count_lt
  have below := ready.wr_lt
  have next : (b.shared.cache .txWrIdx ringId + 1) % 2 ^ 32 = b.shared.cache .txWrIdx ringId + 1 :=
    Nat.mod_eq_of_lt (Nat.lt_of_le_of_lt below count)
  obtain ⟨m₁, r, filled, rest⟩ := after_write (after_cached (after_cached run))
  obtain ⟨rfl, rfl⟩ := bytes_written (List.length_map _) (ready.apart.buf_fits ready.wr_lt fits)
    nonempty short filled
  obtain ⟨m₂, r, described, rest⟩ := after_write (after_cached rest)
  obtain ⟨rfl, rfl⟩ := bytes_written (n := 8) rfl (ready.apart.desc_fits ready.wr_lt) (by decide)
    (by decide) described
  obtain ⟨m₃, r, published, rest⟩ := after_write (after_idxAddr (after_advance rest))
  obtain ⟨rfl, rfl⟩ := bytes_written (n := 4) rfl ready.wr_fits (by decide) (by decide) published
  obtain ⟨_, rest⟩ := after_interrupt (after_use (after_access rest))
  obtain ⟨rfl, rfl⟩ := rest.ret_inv
  rw [map_ofNat_toNat, descriptor_bytes (by omega), map_wordBytes, next]
  have before : RingTx.Reachable (b.shared.txRing ringId) (b.txState ringId s)
      (b.txState ringId s) := .start
  have filled := before.next (.fill _ i data _ at')
  have described := filled.next (.describe _ i data _ (Function.update_self ..))
  have published := described.next (.publish _ i data _ (Function.update_self ..))
  have unlocked := published.next (.unlock _ i data (Function.update_self ..))
  have known := ready.set (.inl ⟨rfl, Nat.mod_lt (b.shared.cache .txWrIdx ringId + 1)
    (Nat.zero_lt_of_lt below)⟩)
  refine ⟨rfl, ?_, txRing_set (.inl rfl), known⟩
  simp only [RingTx.State.unlock, RingTx.State.move, Function.update_idem] at unlocked
  rw [txState_wrIdx]
  exact unlocked

/-- The lock holder at one point of the call. -/
def txHolder (s : RingTx.State) (i : Nat) (p : RingTx.Pc) : RingTx.State :=
  { s.move i p with owner := some i }

theorem unlock_idle (idle : s.pc i = .idle) (free : s.owner = none) : s.unlock i = s := by
  have back : Function.update s.pc i .idle = s.pc := by rw [← idle, Function.update_eq_self]
  rw [RingTx.State.unlock, RingTx.State.move, back, ← free]

theorem txHolder_unlock (idle : s.pc i = .idle) (free : s.owner = none) (p : RingTx.Pc) :
    (txHolder s i p).unlock i = s := by
  have again : (txHolder s i p).unlock i = s.unlock i := by
    simp only [txHolder, RingTx.State.unlock, RingTx.State.move, Function.update_idem]
  rw [again, unlock_idle idle free]

/-- A send that nothing interrupts and no transfer fails is a run of the steps, by any thread
that makes no call yet. It returns 0 or finds no space. -/
theorem ringSend_steps (ready : b.shared.TxReady ringId) (nonempty : data.length ≠ 0)
    (short : data.length ≤ 1500) (fits : data.length ≤ b.shared.cache .txBufSize ringId)
    (idle : s.pc i = .idle) (free : s.owner = none)
    (run : (ringSend ringId (some data)).Runs (Does (Unfailing false)) b x b') :
    (x = .ok () ∨ x = .error .again) ∧
      SentBy b b' ringId s { s with returned := s.returned ++ sent data x } := by
  have count := ready.apart.count_lt
  unfold ringSend at run
  obtain ⟨checked, t, first, rest⟩ := run.split
  obtain ⟨rfl, passed⟩ := checkRing_inv first
  obtain rfl := passed ready.passes
  dsimp only at rest
  rw [if_neg nonempty] at rest
  replace rest := after_cached rest
  rw [if_neg (Nat.not_lt.mpr fits)] at rest
  obtain ⟨space, rest, counts⟩ := after_txSpace (after_cached (after_cached (after_use rest)))
  obtain rfl := counts ready.wr_lt ready.rd_lt count
  have before : RingTx.Reachable (b.shared.txRing ringId) (b.txState ringId s)
      (b.txState ringId s) := .start
  have called := before.next (.call _ i data idle (Nat.pos_of_ne_zero nonempty) short fits)
  have locked := called.next (.lock _ i data (Function.update_self ..) free)
  split at rest
  next full =>
    obtain ⟨idx, m, r, looked, rest⟩ := after_readIdx (after_idxAddr rest)
    obtain ⟨rfl, rfl⟩ := Spi.transport_read_fine ready.rd_fits (by decide) (by decide) looked
    dsimp only [answer] at rest
    rw [load_word] at rest
    obtain ⟨space, rest, counts⟩ := after_txSpace (after_setCached rest)
    have known := ready.set (.inr ⟨rfl, word_lt b.mem (b.shared.idxAddr .txRdIdx ringId)⟩)
    obtain rfl := counts ready.wr_lt (word_lt _ _) count
    have looked := locked.next (.look_full (Function.update_self ..) full)
    split at rest
    next full =>
      obtain ⟨rfl, rfl⟩ := giveUp_inv rest
      have refreshed := looked.next (.refresh_full (Function.update_self ..) full)
      simp only [RingTx.State.unlock, RingTx.State.move, Function.update_idem] at refreshed
      refine ⟨.inr rfl, ?_, txRing_set (.inr rfl), known⟩
      have same : { s with returned := s.returned ++ sent data (.error .again) } = s.unlock i := by
        rw [unlock_idle idle free, sent, List.append_nil]
      rw [same, txState_rdIdx]
      exact refreshed
    next space =>
      have refreshed := looked.next (.refresh_space (Function.update_self ..) space)
      let held := txHolder s i (.filling data (b.shared.cache .txWrIdx ringId))
      let cached : Board := { b with
        shared := b.shared.set .txRdIdx ringId (word b.mem (b.shared.idxAddr .txRdIdx ringId)) }
      obtain ⟨rfl, wrote⟩ := sendAt_steps (b := cached) (s := held) known nonempty short fits
        (Function.update_self ..) rest
      have reached := wrote.steps
      rw [txHolder_unlock idle free, txState_rdIdx, txRing_set (.inr rfl)] at reached
      simp only [RingTx.State.move, Function.update_idem] at refreshed
      exact ⟨.inl rfl, refreshed.trans reached, wrote.ring, wrote.ready⟩
  next space =>
    have looked := locked.next (.look_space (Function.update_self ..) space)
    let held := txHolder s i (.filling data (b.shared.cache .txWrIdx ringId))
    obtain ⟨rfl, wrote⟩ := sendAt_steps (s := held) ready nonempty short fits
      (Function.update_self ..) rest
    rw [txHolder_unlock idle free] at wrote
    simp only [RingTx.State.move, Function.update_idem] at looked
    exact ⟨.inl rfl, looked.trans wrote.steps, wrote.ring, wrote.ready⟩

end Sending

/-! ## `ring_recv` -/

/-- The RX ring the service has cached. -/
def Shared.rxRing (s : Shared) (ringId : Nat) : RingRx.Ring where
  ctrlBlockAddr := s.ctrlBlockAddr
  ringId := ringId
  rxDescBase := s.cache .rxDescBase ringId
  rxDescCount := s.cache .rxDescCount ringId
  rxBufSize := s.cache .rxBufSize ringId
  rxBufBase := s.cache .rxBufBase ringId

def Board.rxState (b : Board) (ringId : Nat) (s : RingRx.State) : RingRx.State :=
  { s with
    mem := b.mem
    rxRdIdx := b.shared.cache .rxRdIdx ringId }

/-- A valid RX ring in the 32-bit address space, and the buffer of a message that the call may
take. -/
structure Board.RxReady (b : Board) (ringId maxLen : Nat) : Prop where
  passes : b.shared.Open ringId
  rd_lt : b.shared.cache .rxRdIdx ringId < b.shared.cache .rxDescCount ringId
  count_lt : b.shared.cache .rxDescCount ringId < 2 ^ 32
  wr_fits : b.shared.idxAddr .rxWrIdx ringId + 4 ≤ 2 ^ 32
  rd_fits : b.shared.idxAddr .rxRdIdx ringId + 4 ≤ 2 ^ 32
  desc_fits : b.shared.rxDesc ringId (b.shared.cache .rxRdIdx ringId) + 8 ≤ 2 ^ 32
  buf_fits : descLength b.mem (b.shared.rxDesc ringId (b.shared.cache .rxRdIdx ringId)) ≤ maxLen →
    descBuffer b.mem (b.shared.rxDesc ringId (b.shared.cache .rxRdIdx ringId)) +
      descLength b.mem (b.shared.rxDesc ringId (b.shared.cache .rxRdIdx ringId)) ≤ 2 ^ 32

/-- The message of a call that answered `x`, in the caller's buffer. -/
def received (data : Mem) : Except Err Nat → List RingRx.Msg
  | .ok (n + 1) => [load data 0 (n + 1)]
  | .ok 0 | .error _ => []

/-- The same for an RX ring, whose steps may read a stale descriptor. -/
structure ReceivedBy (b b' : Board) (ringId : Nat) (s t : RingRx.State) : Prop where
  steps : RingRx.Reachable (b.shared.rxRing ringId) true (b.rxState ringId s) (b'.rxState ringId t)
  ring : b'.shared.rxRing ringId = b.shared.rxRing ringId

theorem rxState_rdIdx (sh : Shared) (ringId val : Nat) (m data : Mem) (s : RingRx.State) :
    Board.rxState ⟨sh.set .rxRdIdx ringId val, m, data⟩ ringId s =
      { s with mem := m, rxRdIdx := val } := by
  simp [Board.rxState, Shared.set]

theorem received_some {m old : Mem} {addr n : Nat} (some : 0 < n) :
    received (store old 0 (load m addr n)) (.ok n) = [load m addr n] := by
  have same := load_store_same old 0 (load m addr n)
  rw [length_load] at same
  cases n with
  | zero => exact absurd some (Nat.lt_irrefl 0)
  | succ n => rw [received, same]

section Receiving
variable {b b' : Board} {ringId i maxLen : Nat} {s : RingRx.State} {call : RingRx.Call}
  {x : Except Err Nat}

theorem recvAt_steps (ready : b.RxReady ringId maxLen) (short : maxLen ≤ 1500)
    (same : call.maxLen = maxLen)
    (at' : s.pc i = .fetching call (b.shared.cache .rxRdIdx ringId))
    (run : (recvAt ringId maxLen (b.shared.cache .rxRdIdx ringId)).Runs (Does (Unfailing false))
      b x b') : ∃ errors, ReceivedBy b b' ringId s
        { s.unlock i with rxErrors := errors, returned := s.returned ++ received b'.data x } := by
  have before : RingRx.Reachable (b.shared.rxRing ringId) true (b.rxState ringId s)
      (b.rxState ringId s) := .start
  have next : (b.shared.cache .rxRdIdx ringId + 1) % 2 ^ 32 = b.shared.cache .rxRdIdx ringId + 1 :=
    Nat.mod_eq_of_lt (Nat.lt_of_le_of_lt ready.rd_lt ready.count_lt)
  unfold recvAt at run
  obtain ⟨desc, m, r, fetched, rest⟩ := after_readDesc (after_cached run)
  obtain ⟨rfl, rfl⟩ := Spi.transport_read_fine ready.desc_fits (by decide) (by decide) fetched
  dsimp only [answer] at rest
  rw [descOf_store] at rest
  dsimp only at rest
  split at rest
  next invalid =>
    obtain ⟨rfl, rfl⟩ := giveUp_inv (after_access rest)
    have even :
        descFlags b.mem (b.shared.rxDesc ringId (b.shared.cache .rxRdIdx ringId)) % 2 = 0 := by
      simpa [Nat.testBit_zero] using invalid
    have ended := before.next (.fetch_bad at' (.inl even))
    refine ⟨s.rxErrors + 1, ?_, rfl⟩
    rw [received, List.append_nil]
    exact ended
  next valid =>
    split at rest
    next long =>
      obtain ⟨rfl, rfl⟩ := giveUp_inv (after_access rest)
      have ended := before.next (.fetch_bad at' (.inr (same ▸ long)))
      refine ⟨s.rxErrors + 1, ?_, rfl⟩
      rw [received, List.append_nil]
      exact ended
    next fits =>
      have odd :
          descFlags b.mem (b.shared.rxDesc ringId (b.shared.cache .rxRdIdx ringId)) % 2 ≠ 0 := by
        simpa [Nat.testBit_zero] using valid
      have taken := before.next (.fetch_good at' odd (same ▸ Nat.not_lt.mp fits))
      obtain ⟨m, r, loaded, rest⟩ := after_readData rest
      by_cases empty :
          descLength b.mem (b.shared.rxDesc ringId (b.shared.cache .rxRdIdx ringId)) = 0
      · rw [empty] at loaded
        obtain ⟨rfl, rfl⟩ := Spi.transport_read_empty loaded
        obtain ⟨rfl, rfl⟩ := giveUp_inv rest
        have refused := taken.next (.refuse _ i _ _ (by
          rw [← empty]
          exact Function.update_self ..))
        simp only [RingRx.State.unlock, RingRx.State.move, Function.update_idem] at refused
        refine ⟨s.rxErrors, ?_, rfl⟩
        rw [received, List.append_nil]
        exact refused
      · have some := Nat.pos_of_ne_zero empty
        have inside := Nat.not_lt.mp fits
        obtain ⟨rfl, rfl⟩ := Spi.transport_read_fine (ready.buf_fits inside) empty
          (Nat.le_trans inside short) loaded
        obtain ⟨m₁, r, clear, rest⟩ := after_write rest
        obtain ⟨rfl, rfl⟩ :=
          bytes_written (n := 8) rfl ready.desc_fits (by decide) (by decide) clear
        obtain ⟨m₂, r, moved, rest⟩ := after_write (after_idxAddr (after_advance rest))
        obtain ⟨rfl, rfl⟩ := bytes_written (n := 4) rfl ready.rd_fits (by decide) (by decide) moved
        obtain ⟨rfl, rfl⟩ := (after_use (after_access rest)).ret_inv
        rw [cleared_bytes, map_wordBytes, next]
        have loaded := taken.next (.load _ i _ _ _ (Function.update_self ..) some)
        have cleared := loaded.next (.clear _ i _ _ _ (Function.update_self ..))
        have advanced := cleared.next (.advance _ i _ _ (Function.update_self ..))
        have unlocked := advanced.next (.unlock _ i _ (Function.update_self ..))
        simp only [RingRx.State.unlock, RingRx.State.move, Function.update_idem] at unlocked
        refine ⟨s.rxErrors, ?_, rfl⟩
        rw [rxState_rdIdx, received_some some]
        exact unlocked

/-- The lock holder at one point of the call, when the semaphore has come to `sem`. -/
def rxHolder (s : RingRx.State) (i sem : Nat) (p : RingRx.Pc) : RingRx.State :=
  { s.move i p with owner := some i, rxSem := sem }

theorem rxHolder_unlock (idle : s.pc i = .idle) (free : s.owner = none) (sem : Nat)
    (p : RingRx.Pc) : (rxHolder s i sem p).unlock i = { s with rxSem := sem } := by
  have back : Function.update s.pc i .idle = s.pc := by rw [← idle, Function.update_eq_self]
  simp only [rxHolder, RingRx.State.unlock, RingRx.State.move, Function.update_idem, back, ← free]

/-- A receive that nothing interrupts and no transfer fails is a run of the steps, by any thread
that makes no call yet. An interrupt ends its wait. -/
theorem ringRecv_steps (ready : b.RxReady ringId maxLen) (room : maxLen ≠ 0)
    (short : maxLen ≤ 1500) (noWait : Bool) (idle : s.pc i = .idle) (free : s.owner = none)
    (run : (ringRecv ringId (some ()) maxLen noWait).Runs (Does (Unfailing false)) b x b') :
    ∃ sem errors, ReceivedBy b b' ringId s { s with
      rxSem := sem, rxErrors := errors, returned := s.returned ++ received b'.data x } := by
  unfold ringRecv at run
  obtain ⟨checked, t, first, rest⟩ := run.split
  obtain ⟨rfl, passed⟩ := checkRing_inv first
  obtain rfl := passed ready.passes
  dsimp only at rest
  rw [if_neg (by simp [room])] at rest
  obtain ⟨idx, m, r, looked, rest⟩ := after_readIdx (after_idxAddr (after_use rest))
  obtain ⟨rfl, rfl⟩ := Spi.transport_read_fine ready.wr_fits (by decide) (by decide) looked
  obtain ⟨filled, rest, counts⟩ := after_rxData (after_cached rest)
  rw [load_word] at counts
  obtain rfl := counts (word_lt _ _) ready.rd_lt ready.count_lt
  have before : RingRx.Reachable (b.shared.rxRing ringId) true (b.rxState ringId s)
      (b.rxState ringId s) := .start
  have called := before.next (.call _ i ⟨maxLen, noWait⟩ idle (Nat.pos_of_ne_zero room))
  have locked := called.next (.lock _ i _ (Function.update_self ..) free)
  split at rest
  next empty =>
    replace rest := after_use rest
    cases noWait with
    | true =>
      obtain ⟨rfl, rfl⟩ := rest.ret_inv
      have looked := locked.next (.look_leave (Function.update_self ..) rfl empty)
      have same := rxHolder_unlock idle free s.rxSem (.looking ⟨maxLen, true⟩)
      simp only [RingRx.State.move, Function.update_idem] at looked
      refine ⟨s.rxSem, s.rxErrors, ?_, rfl⟩
      rw [received, List.append_nil, ← same]
      exact looked
    | false =>
      obtain ⟨idx, m, r, read, rest⟩ := after_readIdx (after_use (after_use rest))
      obtain ⟨rfl, rfl⟩ := Spi.transport_read_fine ready.wr_fits (by decide) (by decide) read
      replace rest := after_cached rest
      have looked := locked.next (.look_wait (Function.update_self ..) nofun empty)
      have woken := looked.next (.interrupt _)
      have given : 0 < min (s.rxSem + 1) (b.shared.cache .rxDescCount ringId) :=
        Nat.lt_min.mpr ⟨Nat.succ_pos _, Nat.zero_lt_of_lt ready.rd_lt⟩
      have took := woken.next (.take _ i _ (Function.update_self ..) given)
      have relocked := took.next (.relock _ i _ (Function.update_self ..) rfl)
      have reread := relocked.next (.reread _ i _ (Function.update_self ..) (.inl rfl))
      let sem := min (s.rxSem + 1) (b.shared.cache .rxDescCount ringId) - 1
      let held := rxHolder s i sem (.fetching ⟨maxLen, false⟩ (b.shared.cache .rxRdIdx ringId))
      obtain ⟨errors, took⟩ :=
        recvAt_steps (s := held) ready short rfl (Function.update_self ..) rest
      rw [rxHolder_unlock idle free] at took
      simp only [RingRx.State.move, Function.update_idem] at reread
      exact ⟨sem, errors, reread.trans took.steps, took.ring⟩
  next filled =>
    have looked := locked.next (.look_filled (Function.update_self ..) filled)
    let held := rxHolder s i s.rxSem (.fetching ⟨maxLen, noWait⟩ (b.shared.cache .rxRdIdx ringId))
    obtain ⟨errors, took⟩ := recvAt_steps (s := held) ready short rfl (Function.update_self ..) rest
    rw [rxHolder_unlock idle free] at took
    simp only [RingRx.State.move, Function.update_idem] at looked
    exact ⟨s.rxSem, errors, looked.trans took.steps, took.ring⟩

end Receiving
end Qapp.RingHost
