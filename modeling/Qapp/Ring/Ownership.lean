import Qapp.Ring.Layout

namespace Qapp.RingTx
open ByteMem Cyclic

variable {r : Ring}

/-- Counters behind the cached read index, the remote read index, the slave's
position and the write index. They never wrap. -/
structure Counters where
  cached : Nat
  read : Nat
  pos : Nat
  wr : Nat

/-- What a thread knows at each point of `ring_send`. -/
def PcOk (r : Ring) (m : Mem) (c : Counters) : Pc → Prop
  | .idle | .unlocking _ => True
  | .locking data | .looking data => data.length ≤ 1500 ∧ data.length ≤ r.txBufSize
  | .refreshing data w =>
    (data.length ≤ 1500 ∧ data.length ≤ r.txBufSize) ∧ w = c.wr % r.txDescCount
  | .filling data w =>
    (data.length ≤ 1500 ∧ data.length ≤ r.txBufSize) ∧ w = c.wr % r.txDescCount ∧
    c.wr + 1 < c.cached + r.txDescCount
  | .describing data w =>
    (data.length ≤ 1500 ∧ data.length ≤ r.txBufSize) ∧ w = c.wr % r.txDescCount ∧
    c.wr + 1 < c.cached + r.txDescCount ∧ load m (r.bufAddr w) data.length = data
  | .publishing data w =>
    w = c.wr % r.txDescCount ∧ c.wr + 1 < c.cached + r.txDescCount ∧ Holds r m w data

/-- `base` is the slave's first position and `old` the number of messages that
were already in the ring when the service was initialized. -/
structure Inv (r : Ring) (base old : Nat) (s : State) (c : Counters) : Prop where
  cached : s.txRdIdx = c.cached % r.txDescCount
  read : word s.mem r.rdIdxAddr = c.read % r.txDescCount
  pos : s.pos = c.pos % r.txDescCount
  cachedWr : s.txWrIdx = c.wr % r.txDescCount
  wr : word s.mem r.wrIdxAddr = c.wr % r.txDescCount
  cached_le : c.cached ≤ c.read
  read_le : c.read ≤ c.pos
  pos_le : c.pos ≤ c.wr
  room : c.wr < c.cached + r.txDescCount
  taken : c.pos = base + s.taken.length
  sent : c.wr = base + old + s.sent.length
  order : ∀ j, j + old < s.taken.length → s.taken[j + old]? = s.sent[j]?
  slots : ∀ j msg, s.sent[j]? = some msg → c.pos ≤ base + old + j →
    Holds r s.mem ((base + old + j) % r.txDescCount) msg
  holder : ∀ i, (s.pc i).Holding → s.owner = some i
  owner : ∀ i, s.owner = some i → (s.pc i).Holding
  threads : ∀ i, PcOk r s.mem c (s.pc i)

variable {base old : Nat} {s t : State} {c : Counters}

theorem PcOk.congr {m m' : Mem} {p : Pc} (h : PcOk r m c p)
    (same : ∀ x, r.InSlot (c.wr % r.txDescCount) x → m' x = m x) : PcOk r m' c p := by
  cases p with
  | describing data w =>
    obtain ⟨fits, rfl, room, buf⟩ := h
    refine ⟨fits, rfl, room, ?_⟩
    conv_rhs => rw [← buf]
    exact load_congr fun i hi => same _ (.inl ⟨by omega, by omega⟩)
  | publishing data w =>
    obtain ⟨rfl, room, held⟩ := h
    exact ⟨rfl, room, held.congr same⟩
  | _ => exact h

theorem sent_move (s : State) (i : Nat) (p : Pc) (h : (s.pc i).published = p.published) :
    (s.move i p).sent = s.sent := by
  simp only [State.sent, State.inflight, State.move]
  cases s.owner with
  | none => rfl
  | some j =>
    by_cases hj : j = i
    · subst hj; simp [h]
    · simp [Function.update_of_ne hj]

/-- Memory facts belong to the lock holder. -/
theorem PcOk.free {m m' : Mem} {c c' : Counters} {p : Pc} (h : PcOk r m c p)
    (free : ¬p.Holding) : PcOk r m' c' p := by
  cases p with
  | idle => trivial
  | locking data => exact h
  | _ => exact absurd trivial free

theorem Inv.others_free (inv : Inv r base old s c) {i : Nat} (held : (s.pc i).Holding) :
    ∀ j, j ≠ i → ¬(s.pc j).Holding := by
  intro j hj hh
  have hi := inv.holder i held
  rw [inv.holder j hh] at hi
  exact hj (by simpa using hi)

/-- A step that moves one thread without taking or giving back the lock. -/
theorem Inv.move (inv : Inv r base old s c) {i : Nat} {p : Pc}
    (pub : (s.pc i).published = p.published) (hold : (s.pc i).Holding ↔ p.Holding)
    (ok : PcOk r s.mem c p) : Inv r base old (s.move i p) c where
  __ := inv
  sent := by rw [sent_move s i p pub]; exact inv.sent
  order := by rw [sent_move s i p pub]; exact inv.order
  slots := by rw [sent_move s i p pub]; exact inv.slots
  holder := by
    intro j hj
    by_cases e : j = i
    · subst e
      simp only [State.move, Function.update_self] at hj
      exact inv.holder j (hold.mpr hj)
    · simp only [State.move, Function.update_of_ne e] at hj
      exact inv.holder j hj
  owner := by
    intro j hj
    have held := inv.owner j hj
    by_cases e : j = i
    · subst e; simpa only [State.move, Function.update_self] using hold.mp held
    · simpa only [State.move, Function.update_of_ne e] using held
  threads := by
    intro j
    by_cases e : j = i
    · subst e; simpa only [State.move, Function.update_self] using ok
    · simpa only [State.move, Function.update_of_ne e] using inv.threads j

theorem Inv.take_lock (inv : Inv r base old s c) {i : Nat} {data : Msg}
    (at' : s.pc i = .locking data) (free : s.owner = none) :
    Inv r base old { s.move i (.looking data) with owner := some i } c := by
  have none_held : ∀ j, ¬(s.pc j).Holding := by
    intro j hj
    have := inv.holder j hj
    simp [free] at this
  have same : State.sent { s.move i (.looking data) with owner := some i } = s.sent := by
    simp [State.sent, State.inflight, State.move, free, Pc.published]
  have ok : PcOk r s.mem c (.looking data) := by
    have := inv.threads i
    rw [at'] at this
    exact this
  exact { inv with
    sent := by rw [same]; exact inv.sent
    order := by rw [same]; exact inv.order
    slots := by rw [same]; exact inv.slots
    holder := by
      intro j hj
      by_cases e : j = i
      · rw [e]
      · simp only [State.move, Function.update_of_ne e] at hj
        exact absurd hj (none_held j)
    owner := by
      intro j hj
      obtain rfl : i = j := by simpa using hj
      simp only [State.move, Function.update_self, Pc.Holding]
    threads := by
      intro j
      by_cases e : j = i
      · subst e; simpa only [State.move, Function.update_self] using ok
      · simpa only [State.move, Function.update_of_ne e] using inv.threads j }

/-- A call that gives the lock back returns 0 exactly if it has published. -/
theorem Inv.give_back (inv : Inv r base old s c) {i : Nat} (held : (s.pc i).Holding) :
    Inv r base old { s.unlock i with returned := s.returned ++ (s.pc i).published } c := by
  have mine := inv.holder i held
  have same : State.sent { s.unlock i with returned := s.returned ++ (s.pc i).published } =
      s.sent := by
    simp [State.sent, State.inflight, State.unlock, State.move, mine]
  exact { inv with
    sent := by rw [same]; exact inv.sent
    order := by rw [same]; exact inv.order
    slots := by rw [same]; exact inv.slots
    holder := by
      intro j hj
      by_cases e : j = i
      · subst e; simp [State.unlock, State.move, Pc.Holding] at hj
      · simp only [State.unlock, State.move, Function.update_of_ne e] at hj
        exact absurd hj (inv.others_free held j e)
    owner := by intro j hj; simp [State.unlock] at hj
    threads := by
      intro j
      by_cases e : j = i
      · subst e; simp [State.unlock, State.move, PcOk]
      · simpa only [State.unlock, State.move, Function.update_of_ne e] using inv.threads j }

/-- The slots of published messages are not the one the writer may fill. -/
theorem Inv.slot_ne (inv : Inv r base old s c) {k : Nat} (lo : c.pos ≤ k) (hi : k < c.wr) :
    c.wr % r.txDescCount ≠ k % r.txDescCount := by
  have h1 := inv.cached_le
  have h2 := inv.read_le
  have h3 := inv.room
  exact (Cyclic.slot_ne hi (by omega)).symm

/-- The lock holder writes into the slot at the write index and nowhere else. -/
theorem Inv.write (inv : Inv r base old s c) (ap : Apart r) {i : Nat} {p : Pc} {m' : Mem}
    (held : (s.pc i).Holding) (pub : (s.pc i).published = p.published) (hold : p.Holding)
    (same : ∀ x, ¬r.InSlot (c.wr % r.txDescCount) x → m' x = s.mem x)
    (ok : PcOk r m' c p) : Inv r base old { s.move i p with mem := m' } c := by
  have hn : 0 < r.txDescCount := by have := ap.count; omega
  have sent : State.sent { s.move i p with mem := m' } = s.sent := sent_move s i p pub
  have index : ∀ x, (r.wrIdxAddr ≤ x ∧ x < r.wrIdxAddr + 4) ∨
      (r.rdIdxAddr ≤ x ∧ x < r.rdIdxAddr + 4) → m' x = s.mem x := by
    intro x hx
    apply same
    intro h
    obtain ⟨-, h1, h2⟩ := ap.slot_owned (Nat.mod_lt _ hn) h
    exact hx.elim h1 h2
  exact { inv with
    read := by
      rw [← inv.read]
      exact word_congr fun x lo hi => index x (.inr ⟨lo, hi⟩)
    wr := by
      rw [← inv.wr]
      exact word_congr fun x lo hi => index x (.inl ⟨lo, hi⟩)
    sent := by rw [sent]; exact inv.sent
    order := by rw [sent]; exact inv.order
    slots := by
      rw [sent]
      intro j msg hj hp
      have hlt : base + old + j < c.wr := by
        obtain ⟨h, -⟩ := List.getElem?_eq_some_iff.mp hj
        have := inv.sent
        omega
      refine (inv.slots j msg hj hp).congr fun x hx => same x ?_
      exact ap.slots_apart (Nat.mod_lt _ hn) (Nat.mod_lt _ hn) (inv.slot_ne hp hlt).symm hx
    holder := by
      intro j hj
      by_cases e : j = i
      · subst e; exact inv.holder j held
      · simp only [State.move, Function.update_of_ne e] at hj
        exact inv.holder j hj
    owner := by
      intro j hj
      by_cases e : j = i
      · subst e; simpa only [State.move, Function.update_self] using hold
      · simpa only [State.move, Function.update_of_ne e] using inv.owner j hj
    threads := by
      intro j
      by_cases e : j = i
      · subst e; simpa only [State.move, Function.update_self] using ok
      · simpa only [State.move, Function.update_of_ne e] using
          (inv.threads j).free (inv.others_free held j e) }

end Qapp.RingTx
