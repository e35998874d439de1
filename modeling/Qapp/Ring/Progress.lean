import Qapp.Ring.Remote

/-!
# `ring_recv` makes progress

One message waits in the ring and no transfer fails: what a call leaves, for every length the
descriptor may give it.
-/

namespace Qapp.RingHost
open ByteMem
open RingRx (descBuffer descLength descFlags cleared)
open Spi (Unfailing)

/-- A published descriptor at the read index, valid and of length `len`. -/
structure Waiting (b : Board) (ringId len : Nat) : Prop where
  passes : b.shared.Open ringId
  rd_lt : b.shared.cache .rxRdIdx ringId < b.shared.cache .rxDescCount ringId
  count_lt : b.shared.cache .rxDescCount ringId < 2 ^ 32
  filled : word b.mem (b.shared.idxAddr .rxWrIdx ringId) ≠ b.shared.cache .rxRdIdx ringId
  valid : (descFlags b.mem (b.shared.rxDesc ringId (b.shared.cache .rxRdIdx ringId))).testBit 0
  length : descLength b.mem (b.shared.rxDesc ringId (b.shared.cache .rxRdIdx ringId)) = len
  short : len ≤ 1500
  wr_fits : b.shared.idxAddr .rxWrIdx ringId + 4 ≤ 2 ^ 32
  rd_fits : b.shared.idxAddr .rxRdIdx ringId + 4 ≤ 2 ^ 32
  desc_fits : b.shared.rxDesc ringId (b.shared.cache .rxRdIdx ringId) + 8 ≤ 2 ^ 32
  buf_fits : descBuffer b.mem (b.shared.rxDesc ringId (b.shared.cache .rxRdIdx ringId)) + len ≤ 2 ^ 32

/-- The message is in the caller's buffer, its descriptor cleared and the index one on. -/
def Board.consumed (b : Board) (ringId len : Nat) : Board :=
  let rdIdx := b.shared.cache .rxRdIdx ringId
  let next := (rdIdx + 1) % b.shared.cache .rxDescCount ringId
  let desc := b.shared.rxDesc ringId rdIdx
  let addr := descBuffer b.mem desc
  { shared := b.shared.set .rxRdIdx ringId next
    mem := store (store b.mem desc (cleared addr)) (b.shared.idxAddr .rxRdIdx ringId) (leBytes 4 next)
    data := store b.data 0 (load b.mem addr len) }

/-- The call ends, and always with the message taken. -/
def Progresses (b : Board) (ringId maxLen len : Nat) (noWait : Bool) : Prop :=
  (∃ b', (ringRecv ringId (some ()) maxLen noWait).Runs (Does (Unfailing false)) b (.ok len) b') ∧
  ∀ x b', (ringRecv ringId (some ()) maxLen noWait).Runs (Does (Unfailing false)) b x b' →
    x = .ok len ∧ b' = b.consumed ringId len

section Receive
variable {b b' : Board} {ringId maxLen len : Nat} {noWait : Bool} {x : Except Err Nat}

/-- A ring that is not empty is read from at once. -/
theorem recv_looks (waiting : Waiting b ringId len) (room : maxLen ≠ 0)
    (run : (ringRecv ringId (some ()) maxLen noWait).Runs (Does (Unfailing false)) b x b') :
    (recvAt ringId maxLen (b.shared.cache .rxRdIdx ringId)).Runs (Does (Unfailing false)) b x b' := by
  unfold ringRecv at run
  obtain ⟨checked, t, first, rest⟩ := run.split
  obtain ⟨rfl, passed⟩ := checkRing_inv first
  obtain rfl := passed waiting.passes
  dsimp only at rest
  rw [if_neg (by simp [room])] at rest
  obtain ⟨idx, m, r, looked, rest⟩ := after_readIdx (after_idxAddr (after_use rest))
  obtain ⟨rfl, rfl⟩ := Spi.transport_read_fine waiting.wr_fits (by decide) (by decide) looked
  obtain ⟨filled, rest, counts⟩ := after_rxData (after_cached rest)
  rw [load_word] at counts
  obtain rfl := counts (word_lt _ _) waiting.rd_lt waiting.count_lt
  rw [if_neg (available_ne_zero waiting.filled waiting.rd_lt)] at rest
  exact rest

theorem bytes_written {addr n : Nat} {bytes : List Nat} {m m' : Mem}
    {r : Except Spi.TransportErr Unit} (sized : bytes.length = n) (fits : addr + n ≤ 2 ^ 32)
    (nonempty : n ≠ 0) (short : n ≤ Spi.Bus.maxTransferSize)
    (run : (Spi.qcspiTransportWrite true addr (some (fromBytes bytes)) bytes.length).Runs
      (Unfailing false) m r m') : r = .ok () ∧ m' = store m addr (bytes.map UInt8.ofNat) := by
  rw [← load_fromBytes]
  rw [← sized] at fits nonempty short
  exact Spi.transport_write_fine fits nonempty short run

theorem cleared_bytes (addr : Nat) : (descBytes ⟨addr, 0, 0⟩).map UInt8.ofNat = cleared addr :=
  map_descBytes _

/-- A message of length 0 is never taken. -/
theorem recvAt_outcome (waiting : Waiting b ringId len) (room : len ≤ maxLen)
    (run : (recvAt ringId maxLen (b.shared.cache .rxRdIdx ringId)).Runs (Does (Unfailing false))
      b x b') :
    len = 0 ∧ x = .error .inval ∧ b' = b ∨ len ≠ 0 ∧ x = .ok len ∧ b' = b.consumed ringId len := by
  unfold recvAt at run
  obtain ⟨desc, m, r, fetched, rest⟩ := after_readDesc (after_cached run)
  obtain ⟨rfl, rfl⟩ := Spi.transport_read_fine waiting.desc_fits (by decide) (by decide) fetched
  dsimp only [answer] at rest
  rw [descOf_store, waiting.length] at rest
  dsimp only at rest
  rw [if_neg (by simp [waiting.valid]), if_neg (Nat.not_lt.mpr room)] at rest
  obtain ⟨m, r, loaded, rest⟩ := after_readData rest
  by_cases empty : len = 0
  · obtain rfl := empty
    obtain ⟨rfl, rfl⟩ := Spi.transport_read_empty loaded
    obtain ⟨rfl, rfl⟩ := giveUp_inv rest
    exact .inl ⟨rfl, rfl, rfl⟩
  · obtain ⟨rfl, rfl⟩ := Spi.transport_read_fine waiting.buf_fits empty waiting.short loaded
    obtain ⟨m₁, r, clear, rest⟩ := after_write rest
    obtain ⟨rfl, rfl⟩ := bytes_written (n := 8) rfl waiting.desc_fits (by decide) (by decide) clear
    obtain ⟨m₂, r, moved, rest⟩ := after_write (after_idxAddr (after_advance rest))
    obtain ⟨rfl, rfl⟩ := bytes_written (n := 4) rfl waiting.rd_fits (by decide) (by decide) moved
    obtain ⟨rfl, rfl⟩ := (after_use (after_access rest)).ret_inv
    have next : (b.shared.cache .rxRdIdx ringId + 1) % 2 ^ 32 = b.shared.cache .rxRdIdx ringId + 1 :=
      Nat.mod_eq_of_lt (by have := waiting.rd_lt; have := waiting.count_lt; omega)
    rw [cleared_bytes, map_wordBytes, next]
    exact .inr ⟨empty, rfl, rfl⟩

theorem ringRecv_outcome (waiting : Waiting b ringId len) (room : len ≤ maxLen)
    (run : (ringRecv ringId (some ()) maxLen noWait).Runs (Does (Unfailing false)) b x b') :
    len = 0 ∧ x = .error .inval ∧ b' = b ∨ len ≠ 0 ∧ x = .ok len ∧ b' = b.consumed ringId len := by
  by_cases none' : maxLen = 0
  · obtain rfl := none'
    obtain ⟨checked, t, first, rest⟩ := run.split
    obtain ⟨rfl, passed⟩ := checkRing_inv first
    obtain rfl := passed waiting.passes
    obtain ⟨rfl, rfl⟩ := rest.ret_inv
    exact .inl ⟨Nat.le_zero.mp room, rfl, rfl⟩
  · exact recvAt_outcome waiting room (recv_looks waiting none' run)

end Receive

/-- Every message but an empty one is received and makes room for the next. -/
theorem recv_progresses_iff {b : Board} {ringId maxLen len : Nat} (noWait : Bool)
    (waiting : Waiting b ringId len) (room : len ≤ maxLen) :
    Progresses b ringId maxLen len noWait ↔ len ≠ 0 := by
  have run := Script.runs_exec (serve_does false) (ringRecv ringId (some ()) maxLen noWait) b
  constructor
  · intro ⟨_, each⟩ empty
    obtain ⟨_, failed, _⟩ | ⟨nonempty, _⟩ := ringRecv_outcome waiting room run
    · exact absurd (failed.symm.trans (each _ _ run).1) nofun
    · exact nonempty empty
  · intro nonempty
    have each {x : Except Err Nat} {b' : Board}
        (run : (ringRecv ringId (some ()) maxLen noWait).Runs (Does (Unfailing false)) b x b') :
        x = .ok len ∧ b' = b.consumed ringId len := by
      obtain ⟨empty, _⟩ | ⟨_, taken⟩ := ringRecv_outcome waiting room run
      · exact absurd empty nonempty
      · exact taken
    constructor
    · have ok := (each run).1
      rw [ok] at run
      exact ⟨_, run⟩
    · intro x b' run
      exact each run

/-- A ring of two descriptors, the first of them published with a length of `len`. -/
def oneWaiting (len : Nat) : Board where
  shared := ⟨true, 1, 0x9fc00, fun f _ => match f with
    | .ringStatus => statusValid
    | .rxDescCount => 2
    | .rxDescBase => 0x1000
    | _ => 0, []⟩
  mem := store (store (fun _ => 0) (0x9fc00 + 268) (leBytes 4 1)) 0x1000
    (leBytes 4 0x2000 ++ leBytes 2 len ++ leBytes 2 1)
  data := fun _ => 0

theorem oneWaiting_waits {len : Nat} (h : len = 0 ∨ len = 1500) : Waiting (oneWaiting len) 0 len := by
  obtain rfl | rfl := h <;> constructor <;> first | decide | (constructor <;> decide)

theorem longest_progresses : Progresses (oneWaiting 1500) 0 1500 1500 true :=
  (recv_progresses_iff true (oneWaiting_waits (.inr rfl)) (by decide)).mpr (by decide)

/-- The call fails and leaves everything as it was, so the next one fails too. -/
theorem empty_message_blocks : Waiting (oneWaiting 0) 0 0 ∧
    (ringRecv 0 (some ()) 1500 true).Runs (Does (Unfailing false)) (oneWaiting 0) (.error .inval)
      (oneWaiting 0) ∧
    ¬Progresses (oneWaiting 0) 0 1500 0 true := by
  have waits := oneWaiting_waits (.inl rfl)
  have run := Script.runs_exec (serve_does false) (ringRecv 0 (some ()) 1500 true) (oneWaiting 0)
  obtain ⟨_, failed, same⟩ | ⟨nonempty, _⟩ := ringRecv_outcome waits (by decide) run
  · rw [failed, same] at run
    exact ⟨waits, run, fun progress => absurd (progress.2 _ _ run).1 nofun⟩
  · exact absurd rfl nonempty

end Qapp.RingHost
