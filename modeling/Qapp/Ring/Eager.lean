import Qapp.Ring.Delivery

/-!
# A sender that reads the index on every call

`ring_send` looks at its cached `tx_rd_idx` first and reads the remote one only if the ring
seems full. Beside it runs a sender that reads it on every call, with the same slave.
-/

namespace Qapp.RingTx
open ByteMem Cyclic

/-- What a step shows. -/
inductive Label
  | call (i : Nat) (data : Msg)
  | timeout (i : Nat)
  | lock (i : Nat)
  /-- The call has found space. -/
  | go (i : Nat)
  /-- The call returns `-QC_OSAL_EAGAIN`. -/
  | again (i : Nat)
  | write (i addr : Nat) (bytes : List UInt8)
  | done (i : Nat)
  /-- What `ring_get_tx_available` returns. -/
  | available (i : Nat) (count : Int)
  | consume
  | release (k : Nat)
  | elsewhere (mem : Mem)

/-- The bytes the transport moves: it keeps 16 bits of a length. -/
def transferred (data : Msg) : Msg := data.take (data.length % 2 ^ 16)

/-- How the emptiness test with the remote index ends. -/
def State.decision (r : Ring) (s : State) (i wrIdx : Nat) : Label :=
  if avail r.txDescCount wrIdx (word s.mem r.rdIdxAddr) = 0 then .again i else .go i

/-- The emptiness test with the remote index, which is cached. -/
def State.refreshed (r : Ring) (s : State) (i : Nat) (data : Msg) (wrIdx : Nat) : State :=
  State.enter r { s with txRdIdx := word s.mem r.rdIdxAddr } i data wrIdx (word s.mem r.rdIdxAddr)

/-- `ring_get_tx_available` with the mutex: a difference of `uint32_t`, returned as `int`. -/
def State.txAvailable (r : Ring) (s : State) : Int :=
  (BitVec.ofNat 32 (avail r.txDescCount s.txWrIdx (word s.mem r.rdIdxAddr))).toInt

/-- The sender as it is, and with `eager` the one that always reads the remote index. A step
without a label is the lazy sender's turn to the remote index. -/
inductive LStep (r : Ring) (eager : Bool) : State → Option Label → State → Prop
  | call (s : State) (i : Nat) (data : Msg) (idle : s.pc i = .idle) (nonempty : 1 ≤ data.length)
      (fits : data.length ≤ r.txBufSize) :
      LStep r eager s (some (.call i data)) (s.move i (.locking data))
  | timeout (s : State) (i : Nat) (data : Msg) (at' : s.pc i = .locking data) :
      LStep r eager s (some (.timeout i)) (s.move i .idle)
  | lock (s : State) (i : Nat) (data : Msg) (at' : s.pc i = .locking data) (free : s.owner = none) :
      LStep r eager s (some (.lock i)) { s.move i (.looking data) with owner := some i }
  | found (s : State) (i : Nat) (data : Msg) (at' : s.pc i = .looking data) (lazy : eager = false)
      (space : avail r.txDescCount s.txWrIdx s.txRdIdx ≠ 0) :
      LStep r eager s (some (.go i)) (s.move i (.filling data s.txWrIdx))
  | full (s : State) (i : Nat) (data : Msg) (at' : s.pc i = .looking data) (lazy : eager = false)
      (full : avail r.txDescCount s.txWrIdx s.txRdIdx = 0) :
      LStep r eager s none (s.move i (.refreshing data s.txWrIdx))
  | refresh (s : State) (i : Nat) (data : Msg) (wrIdx : Nat)
      (at' : s.pc i = .refreshing data wrIdx) :
      LStep r eager s (some (s.decision r i wrIdx)) (s.refreshed r i data wrIdx)
  | read (s : State) (i : Nat) (data : Msg) (at' : s.pc i = .looking data) (always : eager = true) :
      LStep r eager s (some (s.decision r i s.txWrIdx)) (s.refreshed r i data s.txWrIdx)
  | fill (s : State) (i : Nat) (data : Msg) (wrIdx : Nat) (at' : s.pc i = .filling data wrIdx) :
      LStep r eager s (some (.write i (r.bufAddr wrIdx) (transferred data)))
        { s.move i (.describing data wrIdx) with
          mem := store s.mem (r.bufAddr wrIdx) (transferred data) }
  | describe (s : State) (i : Nat) (data : Msg) (wrIdx : Nat)
      (at' : s.pc i = .describing data wrIdx) :
      LStep r eager s
        (some (.write i (r.descAddr wrIdx) (descriptor (r.bufAddr wrIdx) data.length)))
        { s.move i (.publishing data wrIdx) with
          mem := store s.mem (r.descAddr wrIdx) (descriptor (r.bufAddr wrIdx) data.length) }
  | publish (s : State) (i : Nat) (data : Msg) (wrIdx : Nat)
      (at' : s.pc i = .publishing data wrIdx) :
      LStep r eager s (some (.write i r.wrIdxAddr (leBytes 4 ((wrIdx + 1) % r.txDescCount))))
        { s.move i (.unlocking data) with
          txWrIdx := (wrIdx + 1) % r.txDescCount
          mem := store s.mem r.wrIdxAddr (leBytes 4 ((wrIdx + 1) % r.txDescCount)) }
  | unlock (s : State) (i : Nat) (data : Msg) (at' : s.pc i = .unlocking data) :
      LStep r eager s (some (.done i)) { s.unlock i with returned := s.returned ++ [data] }
  /-- `ring_get_tx_available`: no other thread is inside while it has the mutex. -/
  | available (s : State) (i : Nat) (idle : s.pc i = .idle) (free : s.owner = none) :
      LStep r eager s (some (.available i (s.txAvailable r))) s
  | consume (s : State) (published : word s.mem r.wrIdxAddr ≠ s.pos) :
      LStep r eager s (some .consume) { s with
        taken := s.taken ++ [slot r s.mem s.pos]
        pos := (s.pos + 1) % r.txDescCount }
  | release (s : State) (k : Nat)
      (read : k ≤ behind r.txDescCount s.pos (word s.mem r.rdIdxAddr)) :
      LStep r eager s (some (.release k)) { s with
        mem := store s.mem r.rdIdxAddr (leBytes 4 ((word s.mem r.rdIdxAddr + k) % r.txDescCount)) }
  | elsewhere (s : State) (mem' : Mem) (outside : ∀ x, r.Owns x → mem' x = s.mem x) :
      LStep r eager s (some (.elsewhere mem')) { s with mem := mem' }

/-- The labels of a run, in order. -/
inductive Trace (r : Ring) (eager : Bool) (start : State) : List Label → State → Prop
  | start : Trace r eager start [] start
  | silent {ls : List Label} {s t : State} (run : Trace r eager start ls s)
      (step : LStep r eager s none t) : Trace r eager start ls t
  | step {ls : List Label} {l : Label} {s t : State} (run : Trace r eager start ls s)
      (step : LStep r eager s (some l) t) : Trace r eager start (ls ++ [l]) t

/-- Every step of `ring_send` and its slave is a step of the lazy sender. -/
theorem Step.labelled {r : Ring} {s t : State} (h : Step r s t)
    (short : ∀ i data wrIdx, s.pc i = .filling data wrIdx → data.length ≤ 1500) :
    ∃ l, LStep r false s l t := by
  cases h with
  | call i data idle nonempty _ fits => exact ⟨_, .call s i data idle nonempty fits⟩
  | timeout i data at' => exact ⟨_, .timeout s i data at'⟩
  | lock i data at' free => exact ⟨_, .lock s i data at' free⟩
  | look i data at' =>
    split
    next full => exact ⟨_, .full s i data at' rfl full⟩
    next space =>
      rw [State.enter, if_neg space]
      exact ⟨_, .found s i data at' rfl space⟩
  | refresh i data wrIdx at' => exact ⟨_, .refresh s i data wrIdx at'⟩
  | fill i data wrIdx at' =>
    have whole : transferred data = data := by
      have := short i data wrIdx at'
      rw [transferred, Nat.mod_eq_of_lt (by omega), List.take_length]
    have step := @LStep.fill r false s i data wrIdx at'
    rw [whole] at step
    exact ⟨_, step⟩
  | describe i data wrIdx at' => exact ⟨_, .describe s i data wrIdx at'⟩
  | publish i data wrIdx at' => exact ⟨_, .publish s i data wrIdx at'⟩
  | unlock i data at' => exact ⟨_, .unlock s i data at'⟩
  | consume published => exact ⟨_, .consume s published⟩
  | release k read => exact ⟨_, .release s k read⟩
  | elsewhere mem' outside => exact ⟨_, .elsewhere s mem' outside⟩

theorem Reachable.trace {r : Ring} (ap : Apart r) {s₀ s : State} (start : Start r s₀)
    (run : Reachable r s₀ s) : ∃ ls, Trace r false s₀ ls s := by
  induction run with
  | start => exact ⟨[], .start⟩
  | next run step ih =>
    obtain ⟨ls, trace⟩ := ih
    obtain ⟨c, inv⟩ := reachable_inv ap start run
    obtain ⟨l, labelled⟩ := step.labelled fun i data wrIdx at' => by
      have ok := inv.threads i
      rw [at'] at ok
      exact ok.1.1
    cases l with
    | none => exact ⟨ls, trace.silent labelled⟩
    | some l => exact ⟨_, trace.step labelled⟩

/-! ## The cached index lags behind -/

/-- Where the index words are apart from what the host writes into the slots. -/
structure Laid (r : Ring) : Prop where
  count_lt : r.txDescCount < 2 ^ 32
  bufs_lt : r.txBufBase + r.txDescCount * r.txBufSize ≤ 2 ^ 32
  descs_lt : r.txDescBase + r.txDescCount * 8 ≤ 2 ^ 32
  bufs_wr : r.txBufBase + r.txDescCount * r.txBufSize ≤ r.wrIdxAddr ∨
    r.wrIdxAddr + 4 ≤ r.txBufBase
  bufs_rd : r.txBufBase + r.txDescCount * r.txBufSize ≤ r.rdIdxAddr ∨
    r.rdIdxAddr + 4 ≤ r.txBufBase
  descs_wr : r.txDescBase + r.txDescCount * 8 ≤ r.wrIdxAddr ∨ r.wrIdxAddr + 4 ≤ r.txDescBase
  descs_rd : r.txDescBase + r.txDescCount * 8 ≤ r.rdIdxAddr ∨ r.rdIdxAddr + 4 ≤ r.txDescBase
  wr_rd : r.wrIdxAddr + 4 ≤ r.rdIdxAddr ∨ r.rdIdxAddr + 4 ≤ r.wrIdxAddr

/-- The two index words read the same. -/
def SameIndices (r : Ring) (m m' : Mem) : Prop :=
  word m' r.rdIdxAddr = word m r.rdIdxAddr ∧ word m' r.wrIdxAddr = word m r.wrIdxAddr

section Layout
variable {r : Ring} {m : Mem}

theorem store_sameIndices {a : Nat} {bytes : List UInt8}
    (rd : a + bytes.length ≤ r.rdIdxAddr ∨ r.rdIdxAddr + 4 ≤ a)
    (wr : a + bytes.length ≤ r.wrIdxAddr ∨ r.wrIdxAddr + 4 ≤ a) :
    SameIndices r m (store m a bytes) := by
  constructor
  · exact word_congr fun x _ _ => store_apply_of_not_mem _ (by omega)
  · exact word_congr fun x _ _ => store_apply_of_not_mem _ (by omega)

theorem Laid.buf (laid : Laid r) {idx : Nat} {bytes : List UInt8} (h : idx < r.txDescCount)
    (fits : bytes.length ≤ r.txBufSize) : SameIndices r m (store m (r.bufAddr idx) bytes) := by
  have inside := mul_step (k := r.txBufSize) h
  have := laid.bufs_lt
  have := laid.bufs_wr
  have := laid.bufs_rd
  by_cases empty : bytes.length = 0
  · rw [List.eq_nil_of_length_eq_zero empty]
    have same : store m (r.bufAddr idx) [] = m := by
      funext x
      exact store_apply_of_not_mem _ (by rw [List.length_nil]; omega)
    rw [same]
    exact ⟨rfl, rfl⟩
  · have addr : r.bufAddr idx = r.txBufBase + idx * r.txBufSize := Nat.mod_eq_of_lt (by omega)
    exact store_sameIndices (by omega) (by omega)

theorem Laid.desc (laid : Laid r) {idx : Nat} {bytes : List UInt8} (h : idx < r.txDescCount)
    (fits : bytes.length = 8) : SameIndices r m (store m (r.descAddr idx) bytes) := by
  have := laid.descs_lt
  have := laid.descs_wr
  have := laid.descs_rd
  have addr : r.descAddr idx = r.txDescBase + idx * 8 := Nat.mod_eq_of_lt (by omega)
  exact store_sameIndices (by omega) (by omega)

theorem Laid.next_lt (laid : Laid r) (pos : 0 < r.txDescCount) (v : Nat) :
    v % r.txDescCount < 2 ^ 32 := Nat.lt_trans (Nat.mod_lt _ pos) laid.count_lt

end Layout

/-- What a thread of the lazy sender knows about the counters. -/
def Pc.Knows (r : Ring) (c : Counters) : Pc → Prop
  | .idle | .unlocking _ => True
  | .locking data | .looking data => data.length ≤ r.txBufSize
  | .refreshing data w => data.length ≤ r.txBufSize ∧ w = c.wr % r.txDescCount
  | .filling data w => data.length ≤ r.txBufSize ∧ w = c.wr % r.txDescCount ∧
    c.wr + 1 < c.cached + r.txDescCount
  | .describing _ w | .publishing _ w => w = c.wr % r.txDescCount ∧
    c.wr + 1 < c.cached + r.txDescCount

/-- The cached index is a past value of the remote one, which never passes the slave, nor the
slave the write index. -/
structure Lag (r : Ring) (s : State) (c : Counters) : Prop where
  cached : s.txRdIdx = c.cached % r.txDescCount
  read : word s.mem r.rdIdxAddr = c.read % r.txDescCount
  pos : s.pos = c.pos % r.txDescCount
  cachedWr : s.txWrIdx = c.wr % r.txDescCount
  wr : word s.mem r.wrIdxAddr = c.wr % r.txDescCount
  cached_le : c.cached ≤ c.read
  read_le : c.read ≤ c.pos
  pos_le : c.pos ≤ c.wr
  room : c.wr < c.cached + r.txDescCount
  holder : ∀ i, (s.pc i).Holding → s.owner = some i
  threads : ∀ i, (s.pc i).Knows r c

section Lag
variable {r : Ring} {s t : State} {c : Counters} {i : Nat}

theorem State.move_pc (s : State) (i : Nat) (p : Pc) : (s.move i p).pc i = p := by
  simp only [State.move, Function.update_self]

theorem State.move_pc_other (s : State) {i j : Nat} (p : Pc) (other : j ≠ i) :
    (s.move i p).pc j = s.pc j := by
  simp only [State.move, Function.update_of_ne other]

theorem Pc.Knows.free {c' : Counters} {p : Pc} (h : p.Knows r c) (free : ¬p.Holding) :
    p.Knows r c' := by
  cases p with
  | idle => trivial
  | locking data => exact h
  | _ => exact absurd trivial free

theorem Lag.others_free (lag : Lag r s c) (held : (s.pc i).Holding) {j : Nat} (other : j ≠ i) :
    ¬(s.pc j).Holding := by
  intro also
  have mine := lag.holder i held
  rw [lag.holder j also] at mine
  exact other (by simpa using mine)

theorem Lag.count_pos (lag : Lag r s c) : 0 < r.txDescCount := by
  have := lag.cached_le
  have := lag.read_le
  have := lag.pos_le
  have := lag.room
  omega

/-- The space the remote index shows is at least what the cached one shows. -/
theorem Lag.avail_cached (lag : Lag r s c) :
    avail r.txDescCount s.txWrIdx s.txRdIdx = r.txDescCount - 1 - (c.wr - c.cached) := by
  have := lag.cached_le
  have := lag.read_le
  have := lag.pos_le
  rw [lag.cachedWr, lag.cached, avail_mod (by omega) lag.room]

theorem Lag.avail_read (lag : Lag r s c) :
    avail r.txDescCount s.txWrIdx (word s.mem r.rdIdxAddr) =
      r.txDescCount - 1 - (c.wr - c.read) := by
  have := lag.cached_le
  have := lag.read_le
  have := lag.pos_le
  have := lag.room
  rw [lag.cachedWr, lag.read, avail_mod (by omega) (by omega)]

theorem Lag.remote_space (lag : Lag r s c) (space : avail r.txDescCount s.txWrIdx s.txRdIdx ≠ 0) :
    avail r.txDescCount s.txWrIdx (word s.mem r.rdIdxAddr) ≠ 0 := by
  have := lag.cached_le
  rw [lag.avail_cached] at space
  rw [lag.avail_read]
  omega

theorem Lag.move (lag : Lag r s c) {p : Pc} (hold : p.Holding → (s.pc i).Holding)
    (knows : p.Knows r c) : Lag r (s.move i p) c where
  __ := lag
  holder := by
    intro j holds
    by_cases mine : j = i
    · rw [mine, State.move_pc] at holds
      rw [mine]
      exact lag.holder i (hold holds)
    · rw [State.move_pc_other s p mine] at holds
      exact lag.holder j holds
  threads := by
    intro j
    by_cases mine : j = i
    · rw [mine, State.move_pc]
      exact knows
    · rw [State.move_pc_other s p mine]
      exact lag.threads j

theorem Lag.mem (lag : Lag r s c) {m : Mem} (same : SameIndices r s.mem m) :
    Lag r { s with mem := m } c where
  __ := lag
  read := same.1.trans lag.read
  wr := same.2.trans lag.wr

/-- The holder of the mutex gives it back. -/
theorem Lag.unlock (lag : Lag r s c) (held : (s.pc i).Holding) : Lag r (s.unlock i) c where
  __ := lag.move (p := .idle) (fun h => h.elim) trivial
  holder := by
    intro j holds
    change ((s.move i .idle).pc j).Holding at holds
    by_cases mine : j = i
    · rw [mine, State.move_pc] at holds
      exact holds.elim
    · rw [State.move_pc_other s _ mine] at holds
      exact absurd holds (lag.others_free held mine)

theorem Lag.recache (lag : Lag r s c) :
    Lag r { s with txRdIdx := word s.mem r.rdIdxAddr } { c with cached := c.read } where
  __ := lag
  cached := lag.read
  cached_le := Nat.le_refl _
  room := Nat.lt_of_lt_of_le lag.room (Nat.add_le_add_right lag.cached_le _)
  threads := by
    intro j
    have knows := lag.threads j
    have ahead := lag.cached_le
    cases at' : s.pc j with
    | filling data w =>
      rw [at'] at knows
      exact ⟨knows.1, knows.2.1, Nat.lt_of_lt_of_le knows.2.2 (Nat.add_le_add_right ahead _)⟩
    | describing data w =>
      rw [at'] at knows
      exact ⟨knows.1, Nat.lt_of_lt_of_le knows.2 (Nat.add_le_add_right ahead _)⟩
    | publishing data w =>
      rw [at'] at knows
      exact ⟨knows.1, Nat.lt_of_lt_of_le knows.2 (Nat.add_le_add_right ahead _)⟩
    | _ =>
      rw [at'] at knows
      exact knows

theorem Lag.enter (lag : Lag r s c) {data : Msg} (held : (s.pc i).Holding)
    (fits : data.length ≤ r.txBufSize) :
    Lag r (s.enter r i data s.txWrIdx s.txRdIdx) c := by
  unfold State.enter
  split
  next => exact lag.unlock held
  next space =>
    rw [lag.avail_cached] at space
    have := lag.room
    exact lag.move (fun _ => held) ⟨fits, lag.cachedWr, by omega⟩

theorem Lag.refreshed (lag : Lag r s c) {data : Msg} {w : Nat} (held : (s.pc i).Holding)
    (fits : data.length ≤ r.txBufSize) (same : w = c.wr % r.txDescCount) :
    Lag r (s.refreshed r i data w) { c with cached := c.read } := by
  rw [same, ← lag.cachedWr]
  exact lag.recache.enter held fits

theorem Lag.lock (lag : Lag r s c) {data : Msg} (at' : s.pc i = .locking data)
    (free : s.owner = none) : Lag r { s.move i (.looking data) with owner := some i } c where
  __ := lag
  holder := by
    intro j holds
    change ((s.move i (.looking data)).pc j).Holding at holds
    by_cases mine : j = i
    · rw [mine]
    · rw [State.move_pc_other s _ mine] at holds
      exact absurd (lag.holder j holds) (by simp [free])
  threads := by
    intro j
    change ((s.move i (.looking data)).pc j).Knows r c
    by_cases mine : j = i
    · have knows := lag.threads i
      rw [at'] at knows
      rw [mine, State.move_pc]
      exact knows
    · rw [State.move_pc_other s _ mine]
      exact lag.threads j

theorem Lag.publish (lag : Lag r s c) (laid : Laid r) {data : Msg} {w : Nat}
    (at' : s.pc i = .publishing data w) :
    Lag r { s.move i (.unlocking data) with
      txWrIdx := (w + 1) % r.txDescCount
      mem := store s.mem r.wrIdxAddr (leBytes 4 ((w + 1) % r.txDescCount)) }
      { c with wr := c.wr + 1 } := by
  have knows := lag.threads i
  rw [at'] at knows
  obtain ⟨rfl, space⟩ := knows
  have held : (s.pc i).Holding := by rw [at']; trivial
  have ahead := lag.pos_le
  have filled := lag.count_pos
  exact {
    cached := lag.cached
    read := by
      rw [← lag.read]
      refine word_congr fun x _ _ => store_apply_of_not_mem _ ?_
      have := laid.wr_rd
      rw [length_leBytes]
      omega
    pos := lag.pos
    cachedWr := succ_mod _ _
    wr := by
      rw [succ_mod]
      exact word_store_same _ _ _ (laid.next_lt filled _)
    cached_le := lag.cached_le
    read_le := lag.read_le
    pos_le := Nat.le_succ_of_le ahead
    room := space
    holder := by
      intro j holds
      change ((s.move i (.unlocking data)).pc j).Holding at holds
      by_cases mine : j = i
      · rw [mine]
        exact lag.holder i held
      · rw [State.move_pc_other s _ mine] at holds
        exact absurd holds (lag.others_free held mine)
    threads := by
      intro j
      change ((s.move i (.unlocking data)).pc j).Knows r _
      by_cases mine : j = i
      · rw [mine, State.move_pc]
        trivial
      · rw [State.move_pc_other s _ mine]
        exact (lag.threads j).free (lag.others_free held mine) }

theorem Lag.consume (lag : Lag r s c) (published : word s.mem r.wrIdxAddr ≠ s.pos) :
    Lag r { s with
      taken := s.taken ++ [slot r s.mem s.pos]
      pos := (s.pos + 1) % r.txDescCount } { c with pos := c.pos + 1 } where
  __ := lag
  pos := by
    rw [lag.pos]
    exact succ_mod _ _
  read_le := Nat.le_succ_of_le lag.read_le
  pos_le := by
    have := lag.cached_le
    have := lag.read_le
    have := lag.room
    have behind := lag.pos_le
    rw [lag.wr, lag.pos] at published
    have := mt (mod_eq_iff behind (by omega)).mpr (Ne.symm published)
    simp only
    omega

theorem Lag.release (lag : Lag r s c) (laid : Laid r) {k : Nat}
    (read : k ≤ behind r.txDescCount s.pos (word s.mem r.rdIdxAddr)) :
    Lag r { s with
      mem := store s.mem r.rdIdxAddr (leBytes 4 ((word s.mem r.rdIdxAddr + k) % r.txDescCount)) }
      { c with read := c.read + k } := by
  have := lag.cached_le
  have behind' := lag.read_le
  have := lag.pos_le
  have := lag.room
  rw [lag.pos, lag.read, behind_mod behind' (by omega)] at read
  exact { lag with
    read := by
      rw [word_store_same _ _ _ (laid.next_lt (by omega) _), lag.read, Nat.mod_add_mod]
    wr := by
      rw [← lag.wr]
      refine word_congr fun x _ _ => store_apply_of_not_mem _ ?_
      have := laid.wr_rd
      rw [length_leBytes]
      omega
    cached_le := Nat.le_add_right_of_le lag.cached_le
    read_le := by
      simp only
      omega }

theorem lag_step (laid : Laid r) (lag : Lag r s c) {l : Option Label} (h : LStep r false s l t) :
    ∃ c', Lag r t c' := by
  cases h with
  | call i data idle nonempty fits =>
    exact ⟨c, lag.move (fun holds => holds.elim) fits⟩
  | timeout i data at' => exact ⟨c, lag.move (fun holds => holds.elim) trivial⟩
  | lock i data at' free => exact ⟨c, lag.lock at' free⟩
  | found i data at' lazy space =>
    have knows := lag.threads i
    rw [at'] at knows
    have next := lag.enter (i := i) (by rw [at']; trivial) knows
    rw [State.enter, if_neg space] at next
    exact ⟨c, next⟩
  | full i data at' =>
    have knows := lag.threads i
    rw [at'] at knows
    exact ⟨c, lag.move (fun _ => by rw [at']; trivial) ⟨knows, lag.cachedWr⟩⟩
  | refresh i data wrIdx at' =>
    have knows := lag.threads i
    rw [at'] at knows
    exact ⟨_, lag.refreshed (by rw [at']; trivial) knows.1 knows.2⟩
  | read i data at' always => cases always
  | fill i data wrIdx at' =>
    have knows := lag.threads i
    rw [at'] at knows
    obtain ⟨fits, rfl, space⟩ := knows
    have inside : c.wr % r.txDescCount < r.txDescCount := Nat.mod_lt _ lag.count_pos
    have small : (transferred data).length ≤ r.txBufSize := by
      rw [transferred, List.length_take]
      omega
    have moved := lag.move (i := i) (p := .describing data (c.wr % r.txDescCount))
      (fun _ => by rw [at']; trivial) ⟨rfl, space⟩
    exact ⟨c, moved.mem (laid.buf inside small)⟩
  | describe i data wrIdx at' =>
    have knows := lag.threads i
    rw [at'] at knows
    obtain ⟨rfl, space⟩ := knows
    have inside : c.wr % r.txDescCount < r.txDescCount := Nat.mod_lt _ lag.count_pos
    have moved := lag.move (i := i) (p := .publishing data (c.wr % r.txDescCount))
      (fun _ => by rw [at']; trivial) ⟨rfl, space⟩
    exact ⟨c, moved.mem (laid.desc inside (length_descriptor _ _))⟩
  | publish i data wrIdx at' => exact ⟨_, lag.publish laid at'⟩
  | unlock i data at' =>
    have next := lag.unlock (i := i) (by rw [at']; trivial)
    exact ⟨c, { next with }⟩
  | available i idle free => exact ⟨c, lag⟩
  | consume published => exact ⟨_, lag.consume published⟩
  | release k read => exact ⟨_, lag.release laid read⟩
  | elsewhere mem' outside =>
    refine ⟨c, lag.mem ⟨?_, ?_⟩⟩
    · exact word_congr fun x lo hi => outside x (.inr (.inr (.inr ⟨lo, hi⟩)))
    · exact word_congr fun x lo hi => outside x (.inr (.inr (.inl ⟨lo, hi⟩)))

theorem start_lag (start : Start r s) :
    Lag r s ⟨s.txRdIdx, s.txRdIdx, s.txRdIdx, s.txRdIdx + s.outstanding r⟩ := by
  have rd_lt := start.rd_lt
  have wr_lt := start.wr_lt
  have filled : 0 < r.txDescCount := by omega
  have back : (s.txRdIdx + s.outstanding r) % r.txDescCount = s.txWrIdx := by
    rw [State.outstanding, behind, start.pos, ← start.wr, Nat.add_mod_mod,
      show s.txRdIdx + (s.txWrIdx + r.txDescCount - s.txRdIdx) = s.txWrIdx + r.txDescCount by omega,
      Nat.add_mod_right, Nat.mod_eq_of_lt wr_lt]
  exact {
    cached := (Nat.mod_eq_of_lt rd_lt).symm
    read := by rw [← start.rd]; exact (Nat.mod_eq_of_lt rd_lt).symm
    pos := by rw [start.pos]; exact (Nat.mod_eq_of_lt rd_lt).symm
    cachedWr := back.symm
    wr := by rw [← start.wr]; exact back.symm
    cached_le := Nat.le_refl _
    read_le := Nat.le_refl _
    pos_le := Nat.le_add_right _ _
    room := Nat.add_lt_add_left (Nat.mod_lt _ filled) _
    holder := by
      intro i holds
      rw [start.idle i] at holds
      exact holds.elim
    threads := by
      intro i
      rw [start.idle i]
      trivial }

theorem trace_lag (laid : Laid r) {s₀ : State} {ls : List Label} (start : Start r s₀)
    (run : Trace r false s₀ ls s) : ∃ c, Lag r s c := by
  induction run with
  | start => exact ⟨_, start_lag start⟩
  | silent _ step ih =>
    obtain ⟨c, lag⟩ := ih
    exact lag_step laid lag step
  | step _ step ih =>
    obtain ⟨c, lag⟩ := ih
    exact lag_step laid lag step

end Lag

/-! ## The same run with the other sender -/

/-- The eager sender has no step between the two indices. -/
def Pc.asEager : Pc → Pc
  | .refreshing data _ => .looking data
  | p => p

/-- The state of the eager sender, which has cached `rd`. -/
def State.asEager (s : State) (rd : Nat) : State :=
  { s with txRdIdx := rd, pc := fun i => (s.pc i).asEager }

/-- No thread is between its two looks. -/
def State.Settled (s : State) : Prop := ∀ i data wrIdx, s.pc i ≠ .refreshing data wrIdx

section Simulation
variable {r : Ring} {s t e : State} {c : Counters} {i rd : Nat}

theorem asEager_update (f : Nat → Pc) (i : Nat) (p : Pc) :
    (fun j => (Function.update f i p j).asEager) =
      Function.update (fun j => (f j).asEager) i p.asEager := by
  funext j
  by_cases mine : j = i
  · rw [mine, Function.update_self, Function.update_self]
  · rw [Function.update_of_ne mine, Function.update_of_ne mine]

theorem State.Settled.same (settled : s.Settled) (rd : Nat) :
    s.asEager rd = { s with txRdIdx := rd } := by
  have same : (fun j => (s.pc j).asEager) = s.pc := by
    funext j
    cases at' : s.pc j with
    | refreshing data wrIdx => exact absurd at' (settled j data wrIdx)
    | _ => rfl
  rw [State.asEager, same]

theorem asEager_pc {p : Pc} (at' : s.pc i = p) : (s.asEager rd).pc i = p.asEager :=
  congrArg Pc.asEager at'

theorem refreshed_asEager (data : Msg) (w : Nat) :
    (s.asEager rd).refreshed r i data w = (s.refreshed r i data w).asEager (word s.mem r.rdIdxAddr) := by
  by_cases full : avail r.txDescCount w (word s.mem r.rdIdxAddr) = 0
  · simp only [State.refreshed, State.enter, State.unlock, State.asEager, State.move, full, if_true,
      asEager_update]
    rfl
  · simp only [State.refreshed, State.enter, State.unlock, State.asEager, State.move, full, if_false,
      asEager_update]
    rfl

/-- A step of the lazy sender is one of the eager sender, or none. -/
theorem eager_follows (lag : Lag r s c) {l : Option Label} (h : LStep r false s l t) (rd : Nat) :
    ∃ rd', (l = none ∧ t.asEager rd' = s.asEager rd) ∨
      ∃ l', l = some l' ∧ LStep r true (s.asEager rd) (some l') (t.asEager rd') := by
  cases h with
  | call i data idle nonempty fits =>
    have step := @LStep.call r true (s.asEager rd) i data (asEager_pc idle) nonempty
      fits
    refine ⟨rd, .inr ⟨_, rfl, ?_⟩⟩
    simp only [State.asEager, State.move, asEager_update] at step ⊢
    exact step
  | timeout i data at' =>
    have step := @LStep.timeout r true (s.asEager rd) i data (asEager_pc at')
    refine ⟨rd, .inr ⟨_, rfl, ?_⟩⟩
    simp only [State.asEager, State.move, asEager_update] at step ⊢
    exact step
  | lock i data at' free =>
    have step := @LStep.lock r true (s.asEager rd) i data (asEager_pc at') free
    refine ⟨rd, .inr ⟨_, rfl, ?_⟩⟩
    simp only [State.asEager, State.move, asEager_update] at step ⊢
    exact step
  | found i data at' lazy space =>
    have step := @LStep.read r true (s.asEager rd) i data (asEager_pc at') rfl
    have remote := lag.remote_space space
    have goes : (s.asEager rd).decision r i s.txWrIdx = .go i := if_neg remote
    have next : (s.asEager rd).refreshed r i data s.txWrIdx =
        (s.move i (.filling data s.txWrIdx)).asEager (word s.mem r.rdIdxAddr) := by
      rw [refreshed_asEager, State.refreshed, State.enter, if_neg remote]
      rfl
    change LStep r true _ (some ((s.asEager rd).decision r i s.txWrIdx))
      ((s.asEager rd).refreshed r i data s.txWrIdx) at step
    rw [goes, next] at step
    exact ⟨_, .inr ⟨_, rfl, step⟩⟩
  | full i data at' =>
    refine ⟨rd, .inl ⟨rfl, ?_⟩⟩
    have same : Function.update (fun j => (s.pc j).asEager) i (.looking data) =
        fun j => (s.pc j).asEager := by
      rw [Function.update_eq_self_iff]
      exact (congrArg Pc.asEager at').symm
    simp only [State.asEager, State.move, asEager_update]
    rw [show (Pc.refreshing data s.txWrIdx).asEager = .looking data from rfl, same]
  | refresh i data wrIdx at' =>
    have knows := lag.threads i
    rw [at'] at knows
    obtain rfl : wrIdx = s.txWrIdx := knows.2.trans lag.cachedWr.symm
    have step := @LStep.read r true (s.asEager rd) i data (asEager_pc at') rfl
    change LStep r true _ (some (s.decision r i s.txWrIdx))
      ((s.asEager rd).refreshed r i data s.txWrIdx) at step
    rw [refreshed_asEager] at step
    exact ⟨_, .inr ⟨_, rfl, step⟩⟩
  | read i data at' always => cases always
  | fill i data wrIdx at' =>
    have step := @LStep.fill r true (s.asEager rd) i data wrIdx (asEager_pc at')
    refine ⟨rd, .inr ⟨_, rfl, ?_⟩⟩
    simp only [State.asEager, State.move, asEager_update] at step ⊢
    exact step
  | describe i data wrIdx at' =>
    have step := @LStep.describe r true (s.asEager rd) i data wrIdx (asEager_pc at')
    refine ⟨rd, .inr ⟨_, rfl, ?_⟩⟩
    simp only [State.asEager, State.move, asEager_update] at step ⊢
    exact step
  | publish i data wrIdx at' =>
    have step := @LStep.publish r true (s.asEager rd) i data wrIdx (asEager_pc at')
    refine ⟨rd, .inr ⟨_, rfl, ?_⟩⟩
    simp only [State.asEager, State.move, asEager_update] at step ⊢
    exact step
  | unlock i data at' =>
    have step := @LStep.unlock r true (s.asEager rd) i data (asEager_pc at')
    refine ⟨rd, .inr ⟨_, rfl, ?_⟩⟩
    simp only [State.asEager, State.unlock, State.move, asEager_update] at step ⊢
    exact step
  | available i idle free =>
    exact ⟨rd, .inr ⟨_, rfl, .available (s.asEager rd) i (asEager_pc idle) free⟩⟩
  | consume published =>
    exact ⟨rd, .inr ⟨_, rfl, .consume (s.asEager rd) published⟩⟩
  | release k read => exact ⟨rd, .inr ⟨_, rfl, .release (s.asEager rd) k read⟩⟩
  | elsewhere mem' outside =>
    exact ⟨rd, .inr ⟨_, rfl, .elsewhere (s.asEager rd) mem' outside⟩⟩

theorem State.Settled.move (settled : s.Settled) {p : Pc} (plain : p.asEager = p) :
    (s.move i p).Settled := by
  intro j data wrIdx at'
  by_cases mine : j = i
  · rw [mine, State.move_pc] at at'
    rw [at'] at plain
    cases plain
  · rw [State.move_pc_other s p mine] at at'
    exact settled j data wrIdx at'

/-- The lazy sender steps to `t` with the label. -/
def LazyStep (r : Ring) (s : State) (l : Label) (t : State) : Prop :=
  LStep r false s (some l) t ∨ ∃ u, LStep r false s none u ∧ LStep r false u (some l) t

theorem refreshed_move (s : State) (i : Nat) (p : Pc) (data : Msg) (w : Nat) :
    (s.move i p).refreshed r i data w = s.refreshed r i data w := by
  simp only [State.refreshed, State.enter, State.unlock, State.move, Function.update_idem]

theorem refreshed_settled (settled : s.Settled) (data : Msg) (w : Nat) :
    (s.refreshed r i data w).Settled := by
  unfold State.refreshed State.enter
  split
  · exact settled.move (i := i) (p := .idle) rfl
  · exact settled.move (i := i) (p := .filling data w) rfl

/-- The eager test is the cached one, or the one with the remote index after it. -/
theorem lazy_looks (lag : Lag r s c) (settled : s.Settled) {data : Msg}
    (at' : s.pc i = .looking data) :
    ∃ t rd', LazyStep r s (s.decision r i s.txWrIdx) t ∧ t.Settled ∧
      s.refreshed r i data s.txWrIdx = { t with txRdIdx := rd' } := by
  by_cases full : avail r.txDescCount s.txWrIdx s.txRdIdx = 0
  · have turn := LStep.full (r := r) s i data at' rfl full
    have look := @LStep.refresh r false _ i data s.txWrIdx
      (State.move_pc s i (.refreshing data s.txWrIdx))
    rw [refreshed_move] at look
    have settled' := refreshed_settled (r := r) (i := i) settled data s.txWrIdx
    generalize s.refreshed r i data s.txWrIdx = t at look settled'
    exact ⟨t, t.txRdIdx, .inr ⟨_, turn, look⟩, settled', rfl⟩
  · have remote := lag.remote_space full
    have goes : s.decision r i s.txWrIdx = .go i := if_neg remote
    refine ⟨s.move i (.filling data s.txWrIdx), word s.mem r.rdIdxAddr, .inl ?_, settled.move rfl, ?_⟩
    · rw [goes]
      exact .found s i data at' rfl full
    · rw [State.refreshed, State.enter, if_neg remote]
      rfl

/-- A step of the eager sender is one of the lazy sender, after a turn to the remote index where
that is needed. -/
theorem lazy_follows (lag : Lag r s c) (settled : s.Settled) {l : Option Label}
    (h : LStep r true { s with txRdIdx := rd } l e) :
    ∃ l' t rd', LazyStep r s l' t ∧ t.Settled ∧ l = some l' ∧ e = { t with txRdIdx := rd' } := by
  cases h with
  | call i data idle nonempty fits =>
    exact ⟨_, _, rd, .inl (.call s i data idle nonempty fits), settled.move rfl, rfl, rfl⟩
  | timeout i data at' =>
    exact ⟨_, _, rd, .inl (.timeout s i data at'), settled.move rfl, rfl, rfl⟩
  | lock i data at' free =>
    exact ⟨_, _, rd, .inl (.lock s i data at' free), settled.move (i := i) (p := .looking data) rfl,
      rfl, rfl⟩
  | found i data at' lazy => cases lazy
  | full i data at' lazy => cases lazy
  | refresh i data wrIdx at' => exact absurd at' (settled i data wrIdx)
  | read i data at' =>
    obtain ⟨t, rd', step, settled', same⟩ := lazy_looks lag settled at'
    exact ⟨_, t, rd', step, settled', rfl, same⟩
  | fill i data wrIdx at' =>
    exact ⟨_, _, rd, .inl (.fill s i data wrIdx at'),
      settled.move (i := i) (p := .describing data wrIdx) rfl, rfl, rfl⟩
  | describe i data wrIdx at' =>
    exact ⟨_, _, rd, .inl (.describe s i data wrIdx at'),
      settled.move (i := i) (p := .publishing data wrIdx) rfl, rfl, rfl⟩
  | publish i data wrIdx at' =>
    exact ⟨_, _, rd, .inl (.publish s i data wrIdx at'),
      settled.move (i := i) (p := .unlocking data) rfl, rfl, rfl⟩
  | unlock i data at' =>
    exact ⟨_, _, rd, .inl (.unlock s i data at'), settled.move (i := i) (p := .idle) rfl, rfl, rfl⟩
  | available i idle free =>
    exact ⟨_, _, rd, .inl (.available s i idle free), settled, rfl, rfl⟩
  | consume published => exact ⟨_, _, rd, .inl (.consume s published), settled, rfl, rfl⟩
  | release k read => exact ⟨_, _, rd, .inl (.release s k read), settled, rfl, rfl⟩
  | elsewhere mem' outside =>
    exact ⟨_, _, rd, .inl (.elsewhere s mem' outside), settled, rfl, rfl⟩

theorem start_settled {s₀ : State} (start : Start r s₀) : s₀.Settled := by
  intro i data wrIdx at'
  rw [start.idle i] at at'
  cases at'

theorem trace_eager (laid : Laid r) {s₀ : State} (start : Start r s₀) {ls : List Label}
    (run : Trace r false s₀ ls t) : ∃ rd, Trace r true s₀ ls (t.asEager rd) := by
  induction run with
  | start =>
    refine ⟨s₀.txRdIdx, ?_⟩
    rw [(start_settled start).same]
    exact .start
  | silent run step ih =>
    obtain ⟨rd, before⟩ := ih
    obtain ⟨c, lag⟩ := trace_lag laid start run
    obtain ⟨rd', ⟨_, same⟩ | ⟨_, ⟨⟩, _⟩⟩ := eager_follows lag step rd
    exact ⟨rd', by rw [same]; exact before⟩
  | step run step ih =>
    obtain ⟨rd, before⟩ := ih
    obtain ⟨c, lag⟩ := trace_lag laid start run
    obtain ⟨rd', ⟨⟨⟩, _⟩ | ⟨_, ⟨⟩, step'⟩⟩ := eager_follows lag step rd
    exact ⟨rd', before.step step'⟩

theorem trace_lazy (laid : Laid r) {s₀ : State} (start : Start r s₀) {ls : List Label}
    (run : Trace r true s₀ ls e) :
    ∃ t rd, Trace r false s₀ ls t ∧ t.Settled ∧ e = { t with txRdIdx := rd } := by
  induction run with
  | start => exact ⟨s₀, s₀.txRdIdx, .start, start_settled start, rfl⟩
  | silent run step ih =>
    obtain ⟨t, rd, before, settled, rfl⟩ := ih
    obtain ⟨c, lag⟩ := trace_lag laid start before
    obtain ⟨_, _, _, _, _, ⟨⟩, _⟩ := lazy_follows lag settled step
  | step run step ih =>
    obtain ⟨t, rd, before, settled, rfl⟩ := ih
    obtain ⟨c, lag⟩ := trace_lag laid start before
    obtain ⟨_, u, rd', once | ⟨v, turn, then'⟩, settled', ⟨⟩, same⟩ := lazy_follows lag settled step
    · exact ⟨u, rd', before.step once, settled', same⟩
    · exact ⟨u, rd', (before.silent turn).step then', settled', same⟩

end Simulation

/-! ## Space that has been reported -/

/-- The thread has found space and not published yet. -/
def Pc.Writing : Pc → Prop
  | .filling _ _ | .describing _ _ | .publishing _ _ => True
  | _ => False

/-- The remote index shows space that no thread is about to use. -/
structure Spare (r : Ring) (s : State) : Prop where
  space : avail r.txDescCount s.txWrIdx (word s.mem r.rdIdxAddr) ≠ 0
  idle : ∀ i, ¬(s.pc i).Writing

section Spare
variable {r : Ring} {s t : State} {c : Counters} {i : Nat}

theorem Spare.move (spare : Spare r s) {p : Pc} (idle : ¬p.Writing) : Spare r (s.move i p) where
  space := spare.space
  idle := by
    intro j
    by_cases mine : j = i
    · rw [mine, State.move_pc]
      exact idle
    · rw [State.move_pc_other s p mine]
      exact spare.idle j

theorem spare_available (lag : Lag r s c) (free : s.owner = none) (pos : 0 < s.txAvailable r) :
    Spare r s where
  space := by
    intro none'
    rw [State.txAvailable, none'] at pos
    exact absurd pos (by decide)
  idle := by
    intro j writing
    have holds : (s.pc j).Holding := by
      cases at' : s.pc j with
      | filling | describing | publishing => trivial
      | _ =>
        rw [at'] at writing
        exact writing.elim
    exact absurd (lag.holder j holds) (by simp [free])

/-- Until a call finds it, the space stays, and no call misses it. -/
theorem spare_step (laid : Laid r) (lag : Lag r s c) (spare : Spare r s) {l : Option Label}
    (h : LStep r false s l t) (waits : ∀ j, l ≠ some (.go j)) :
    Spare r t ∧ ∀ j, l ≠ some (.again j) := by
  cases h with
  | call i data idle => exact ⟨spare.move id, nofun⟩
  | timeout i data at' => exact ⟨spare.move id, nofun⟩
  | lock i data at' free => exact ⟨{ spare.move (p := .looking data) id with }, nofun⟩
  | found i data at' => exact absurd rfl (waits i)
  | full i data at' => exact ⟨spare.move id, nofun⟩
  | refresh i data wrIdx at' =>
    have knows := lag.threads i
    rw [at'] at knows
    obtain rfl : wrIdx = s.txWrIdx := knows.2.trans lag.cachedWr.symm
    exact absurd (congrArg some (if_neg spare.space)) (waits i)
  | read i data at' always => cases always
  | fill i data wrIdx at' => exact absurd (by rw [at']; trivial) (spare.idle i)
  | describe i data wrIdx at' => exact absurd (by rw [at']; trivial) (spare.idle i)
  | publish i data wrIdx at' => exact absurd (by rw [at']; trivial) (spare.idle i)
  | unlock i data at' => exact ⟨{ spare.move (i := i) (p := .idle) id with }, nofun⟩
  | available i idle free => exact ⟨spare, nofun⟩
  | consume published => exact ⟨{ spare with }, nofun⟩
  | release k read =>
    have before := spare.space
    have after := (lag.release laid read).avail_read
    rw [lag.avail_read] at before
    refine ⟨⟨?_, spare.idle⟩, nofun⟩
    rw [after]
    simp only
    omega
  | elsewhere mem' outside =>
    have same : word mem' r.rdIdxAddr = word s.mem r.rdIdxAddr :=
      word_congr fun x lo hi => outside x (.inr (.inr (.inr ⟨lo, hi⟩)))
    exact ⟨⟨by rw [same]; exact spare.space, spare.idle⟩, nofun⟩

theorem decision_ne (s : State) (i j wrIdx : Nat) (v : Int) :
    s.decision r i wrIdx ≠ .available j v := by
  rw [State.decision]
  split <;> nofun

theorem LStep.available_inv {eager : Bool} {l : Option Label} {v : Int} (h : LStep r eager s l t)
    (shows : l = some (.available i v)) :
    s = t ∧ s.owner = none ∧ v = s.txAvailable r := by
  cases h with
  | available j idle free =>
    obtain ⟨rfl, rfl⟩ := Label.available.inj (Option.some.inj shows)
    exact ⟨rfl, free, rfl⟩
  | refresh => exact absurd (Option.some.inj shows) (decision_ne _ _ _ _ _)
  | read => exact absurd (Option.some.inj shows) (decision_ne _ _ _ _ _)
  | _ => cases shows

/-- A positive answer of `ring_get_tx_available` holds until a call finds the space. -/
theorem trace_spare (laid : Laid r) {s₀ : State} (start : Start r s₀) {ls : List Label}
    (run : Trace r false s₀ ls t) {ls₁ ls₂ : List Label} {v : Int}
    (split : ls = ls₁ ++ .available i v :: ls₂) (pos : 0 < v) (waits : ∀ j, .go j ∉ ls₂) :
    Spare r t ∧ ∀ j, .again j ∉ ls₂ := by
  induction run generalizing ls₂ with
  | start => cases ls₁ <;> cases split
  | silent run step ih =>
    obtain ⟨spare, never⟩ := ih split waits
    obtain ⟨c, lag⟩ := trace_lag laid start run
    exact ⟨(spare_step laid lag spare step nofun).1, never⟩
  | step run step ih =>
    obtain ⟨c, lag⟩ := trace_lag laid start run
    obtain rfl | ⟨ls₃, l, rfl⟩ := List.eq_nil_or_concat ls₂
    · obtain ⟨_, last⟩ := List.append_inj' split rfl
      obtain rfl := (List.cons.inj last).1
      obtain ⟨rfl, free, rfl⟩ := step.available_inv rfl
      exact ⟨spare_available lag free pos, nofun⟩
    · rw [List.concat_eq_append, ← List.cons_append, ← List.append_assoc] at split
      obtain ⟨before, last⟩ := List.append_inj' split rfl
      obtain rfl := (List.cons.inj last).1
      obtain ⟨spare, never⟩ := ih before fun j found => waits j (by simp [found])
      obtain ⟨spare, last⟩ := spare_step laid lag spare step fun j eq =>
        waits j (by simp [Option.some.inj eq])
      refine ⟨spare, fun j found => ?_⟩
      rw [List.concat_eq_append, List.mem_append, List.mem_singleton] at found
      obtain early | rfl := found
      · exact never j early
      · exact last j rfl

end Spare

/-- Whatever the slave does, the lazy and the eager sender show the same runs and leave the same
states; and after a positive answer of `ring_get_tx_available` no call returns
`-QC_OSAL_EAGAIN` before one has found the space. -/
theorem lazy_sender_eager {r : Ring} (laid : Laid r) {s₀ : State} (start : Start r s₀) :
    (∀ ls t, Trace r false s₀ ls t → ∃ rd, Trace r true s₀ ls (t.asEager rd)) ∧
    (∀ ls e, Trace r true s₀ ls e → ∃ t rd, Trace r false s₀ ls t ∧ e = t.asEager rd) ∧
    ∀ ls₁ ls₂ i v j t, Trace r false s₀ (ls₁ ++ .available i v :: (ls₂ ++ [.again j])) t → 0 < v →
      ∃ k, .go k ∈ ls₂ := by
  refine ⟨fun ls t run => trace_eager laid start run, fun ls e run => ?_, ?_⟩
  · obtain ⟨t, rd, lazy, settled, rfl⟩ := trace_lazy laid start run
    exact ⟨t, rd, lazy, (settled.same rd).symm⟩
  · intro ls₁ ls₂ i v j t run pos
    by_contra waits
    rw [not_exists] at waits
    have waits' : ∀ k, .go k ∉ ls₂ ++ [.again j] := by
      intro k found
      simp only [List.mem_append, List.mem_singleton, reduceCtorEq, or_false] at found
      exact waits k found
    exact (trace_spare laid start run rfl pos waits').2 j (by simp)

/-- The second message finds the small ring full, for either sender. -/
theorem small_senders_alike : ∃ e, Trace smallRing true smallStart
    [.call 0 [7], .lock 0, .go 0, .write 0 300 [7], .write 0 200 (descriptor 300 1),
      .write 0 76 (leBytes 4 1), .done 0, .available 0 0, .call 0 [8], .lock 0, .again 0] e := by
  have laid : Laid smallRing := by constructor <;> decide
  have start : Start smallRing smallStart := by constructor <;> first | decide | exact fun _ => rfl
  have called := (@Trace.start smallRing false _).step
    (.call smallStart 0 [7] rfl (by decide) (by decide))
  have locked := called.step (.lock _ 0 [7] rfl rfl)
  have found := locked.step (.found _ 0 [7] rfl rfl (by decide))
  have filled := found.step (.fill _ 0 [7] 0 rfl)
  have described := filled.step (.describe _ 0 [7] 0 rfl)
  have published := described.step (.publish _ 0 [7] 0 rfl)
  have sent := published.step (.unlock _ 0 [7] rfl)
  have asked := sent.step (.available _ 0 rfl rfl)
  have called := asked.step (.call _ 0 [8] rfl (by decide) (by decide))
  have locked := called.step (.lock _ 0 [8] rfl rfl)
  have turned := locked.silent (.full _ 0 [8] rfl rfl (by decide))
  have refused := turned.step (.refresh _ 0 [8] 1 rfl)
  obtain ⟨rd, run⟩ := (lazy_sender_eager laid start).1 _ _ refused
  exact ⟨_, run⟩

end Qapp.RingTx
