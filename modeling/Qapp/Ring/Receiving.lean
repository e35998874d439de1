import Qapp.Ring.Recv

namespace Qapp.RingRx
open ByteMem Cyclic

variable {r : Ring} {base : Nat} {s t : State} {rd : Nat} {stale : Bool}

abbrev Apart (r : Ring) : Prop := RingTx.Apart r.layout

/-! ## Layout -/

theorem wrIdxAddr_layout (r : Ring) : r.layout.wrIdxAddr = r.wrIdxAddr := by
  unfold RingTx.Ring.wrIdxAddr Ring.wrIdxAddr Ring.layout
  simp only [Nat.add_assoc, Nat.reduceAdd]

theorem rdIdxAddr_layout (r : Ring) : r.layout.rdIdxAddr = r.rdIdxAddr := by
  unfold RingTx.Ring.rdIdxAddr Ring.rdIdxAddr Ring.layout
  simp only [Nat.add_assoc, Nat.reduceAdd]

theorem slot_index (ap : Apart r) {idx x : Nat} (h : idx < r.rxDescCount) (hx : r.InSlot idx x) :
    r.layout.Owns x ∧ ¬(r.wrIdxAddr ≤ x ∧ x < r.wrIdxAddr + 4) ∧
      ¬(r.rdIdxAddr ≤ x ∧ x < r.rdIdxAddr + 4) := by
  have := ap.slot_owned h hx
  rwa [wrIdxAddr_layout, rdIdxAddr_layout] at this

theorem slots_apart (ap : Apart r) {i j x : Nat} (hi : i < r.rxDescCount)
    (hj : j < r.rxDescCount) (hne : i ≠ j) (hx : r.InSlot i x) : ¬r.InSlot j x :=
  ap.slots_apart hi hj hne hx

theorem words_apart (ap : Apart r) : r.wrIdxAddr + 4 ≤ r.rdIdxAddr ∨
    r.rdIdxAddr + 4 ≤ r.wrIdxAddr := by
  have := ap.wr_rd
  rwa [wrIdxAddr_layout, rdIdxAddr_layout] at this

theorem count_pos (ap : Apart r) : 0 < r.rxDescCount :=
  Nat.lt_of_lt_of_le Nat.zero_lt_two ap.count

/-- A slot keeps its message while its own addresses keep their bytes. -/
theorem Holds.congr {m m' : Mem} {idx : Nat} {msg : Msg} (h : Holds r m idx msg)
    (same : ∀ x, r.InSlot idx x → m' x = m x) : Holds r m' idx msg := by
  have desc : ∀ i, i < 8 → m' (r.descAddr idx + i) = m (r.descAddr idx + i) :=
    fun i hi => same _ (.inr ⟨by omega, by omega⟩)
  have flags : descFlags m' (r.descAddr idx) = descFlags m (r.descAddr idx) := by
    unfold descFlags
    congr 1
    apply load_congr
    intro i hi
    rw [Nat.add_assoc]
    exact desc (6 + i) (by omega)
  have len : descLength m' (r.descAddr idx) = descLength m (r.descAddr idx) := by
    unfold descLength
    congr 1
    apply load_congr
    intro i hi
    rw [Nat.add_assoc]
    exact desc (4 + i) (by omega)
  have addr : descBuffer m' (r.descAddr idx) = descBuffer m (r.descAddr idx) := by
    unfold descBuffer word
    rw [load_congr fun i hi => desc i (by omega)]
  have inside := h.inside
  refine ⟨by rw [flags]; exact h.valid, by rw [len]; exact h.len, by rw [addr]; exact inside, ?_⟩
  rw [addr]
  conv_rhs => rw [← h.buf]
  exact load_congr fun i hi => same _ (.inl ⟨by omega, by omega⟩)

theorem available_zero {n rd wr : Nat} (hle : rd ≤ wr) (hlt : wr < rd + n) :
    available n (wr % n) (rd % n) = 0 ↔ rd = wr := by
  have hn : 0 < n := by omega
  have h1 := Nat.mod_lt rd hn
  have h2 := Nat.mod_lt wr hn
  rw [← mod_eq_iff hle hlt]
  unfold available
  split <;> omega

/-! ## The invariant -/

/-- What a thread knows at each point of `ring_recv`. `next` is the oldest message not
returned. -/
def PcOk (r : Ring) (m : Mem) (rd wr : Nat) (next : Option Msg) : Pc → Prop
  | .fetching _ w => w = rd % r.rxDescCount ∧ rd < wr
  | .loading w a len => w = rd % r.rxDescCount ∧ ∃ msg, next = some msg ∧ Holds r m w msg ∧
    a = descBuffer m (r.descAddr w) ∧ len = msg.length
  | .clearing data w _ | .advancing data w => w = rd % r.rxDescCount ∧ next = some data
  | _ => True

/-- `base` is the read index at the start, `rd` the counter behind it, which never
wraps. -/
structure Inv (r : Ring) (base : Nat) (s : State) (rd : Nat) : Prop where
  cached : s.rxRdIdx = rd % r.rxDescCount
  read : word s.mem r.rdIdxAddr = rd % r.rxDescCount
  wr : word s.mem r.wrIdxAddr = (base + s.published.length) % r.rxDescCount
  count : rd = base + s.received.length
  le : rd ≤ base + s.published.length
  room : base + s.published.length < rd + r.rxDescCount
  order : s.received = s.published.take s.received.length
  slots : ∀ j msg, s.published[j]? = some msg → rd + s.torn ≤ base + j →
    Holds r s.mem ((base + j) % r.rxDescCount) msg
  holder : ∀ i, (s.pc i).Holding → s.owner = some i
  owner : ∀ i, s.owner = some i → (s.pc i).Holding
  threads : ∀ i, PcOk r s.mem rd (base + s.published.length) s.published[s.received.length]? (s.pc i)

theorem PcOk.free {m m' : Mem} {rd rd' wr wr' : Nat} {next next' : Option Msg} {p : Pc}
    (free : ¬p.Holding) : PcOk r m rd wr next p → PcOk r m' rd' wr' next' p := by
  cases p with
  | idle => exact fun _ => trivial
  | locking call => exact fun _ => trivial
  | waiting call => exact fun _ => trivial
  | relocking call => exact fun _ => trivial
  | _ => exact absurd trivial free

theorem PcOk.congr {m m' : Mem} {rd wr wr' : Nat} {next next' : Option Msg} {p : Pc}
    (h : PcOk r m rd wr next p) (more : wr ≤ wr')
    (kept : ∀ msg, next = some msg → next' = some msg)
    (same : ∀ msg, next = some msg → ∀ x, r.InSlot (rd % r.rxDescCount) x → m' x = m x) :
    PcOk r m' rd wr' next' p := by
  cases p with
  | fetching call w => exact ⟨h.1, Nat.lt_of_lt_of_le h.2 more⟩
  | loading w a len =>
    obtain ⟨rfl, msg, hn, holds, rfl, rfl⟩ := h
    refine ⟨rfl, msg, kept msg hn, holds.congr (same msg hn), ?_, rfl⟩
    unfold descBuffer word
    rw [load_congr fun i hi => same msg hn _ (.inr ⟨by omega, by omega⟩)]
  | clearing data w a => exact ⟨h.1, kept data h.2⟩
  | advancing data w => exact ⟨h.1, kept data h.2⟩
  | _ => trivial

theorem Inv.others_free (inv : Inv r base s rd) {i : Nat} (held : (s.pc i).Holding) :
    ∀ j, j ≠ i → ¬(s.pc j).Holding := by
  intro j hj hh
  have hi := inv.holder i held
  rw [inv.holder j hh] at hi
  exact hj (by simpa using hi)

/-- What is listed of the lock holder is what is recorded of its thread. -/
theorem Inv.mine (inv : Inv r base s rd) {i : Nat} (held : (s.pc i).Holding) :
    s.inflight = (s.pc i).taken ∧ s.torn = (s.pc i).torn := by
  unfold State.inflight State.torn
  rw [inv.holder i held]
  exact ⟨rfl, rfl⟩

theorem move_same (s : State) (i : Nat) (p : Pc) (taken : (s.pc i).taken = p.taken)
    (torn : (s.pc i).torn = p.torn) :
    (s.move i p).received = s.received ∧ (s.move i p).torn = s.torn := by
  unfold State.received State.inflight State.torn State.move
  cases s.owner with
  | none => exact ⟨rfl, rfl⟩
  | some j =>
    by_cases hj : j = i
    · subst hj
      simp [taken, torn]
    · simp [Function.update_of_ne hj]

/-- A step that moves one thread without taking or giving back the lock. -/
theorem Inv.move (inv : Inv r base s rd) {i : Nat} {p : Pc}
    (taken : (s.pc i).taken = p.taken) (torn : (s.pc i).torn = p.torn)
    (hold : (s.pc i).Holding ↔ p.Holding)
    (ok : PcOk r s.mem rd (base + s.published.length) s.published[s.received.length]? p) :
    Inv r base (s.move i p) rd := by
  obtain ⟨received, torn'⟩ := move_same s i p taken torn
  exact {
    cached := inv.cached
    read := inv.read
    wr := inv.wr
    count := by rw [received]; exact inv.count
    le := inv.le
    room := inv.room
    order := by rw [received]; exact inv.order
    slots := by rw [torn']; exact inv.slots
    holder := by
      intro j hj
      by_cases e : j = i
      · subst e
        simp only [State.move, Function.update_self] at hj
        exact inv.holder j (hold.mpr hj)
      · simp only [State.move, Function.update_of_ne e] at hj
        exact inv.holder j hj
    owner := by
      intro j hj
      have held := inv.owner j hj
      by_cases e : j = i
      · subst e
        simpa only [State.move, Function.update_self] using hold.mp held
      · simpa only [State.move, Function.update_of_ne e] using held
    threads := by
      rw [received]
      intro j
      by_cases e : j = i
      · subst e
        simpa only [State.move, Function.update_self] using ok
      · simpa only [State.move, Function.update_of_ne e] using inv.threads j }

theorem Inv.take_lock (inv : Inv r base s rd) {i : Nat} {p : Pc} (free : s.owner = none)
    (taken : p.taken = []) (torn : p.torn = 0) (hold : p.Holding)
    (ok : PcOk r s.mem rd (base + s.published.length) s.published[s.received.length]? p) :
    Inv r base { s.move i p with owner := some i } rd := by
  have none_held : ∀ j, ¬(s.pc j).Holding := by
    intro j hj
    have := inv.holder j hj
    simp [free] at this
  have received : State.received { s.move i p with owner := some i } = s.received := by
    simp [State.received, State.inflight, State.move, free, taken]
  have torn' : State.torn { s.move i p with owner := some i } = s.torn := by
    simp [State.torn, State.move, free, torn]
  exact {
    cached := inv.cached
    read := inv.read
    wr := inv.wr
    count := by rw [received]; exact inv.count
    le := inv.le
    room := inv.room
    order := by rw [received]; exact inv.order
    slots := by rw [torn']; exact inv.slots
    holder := by
      intro j hj
      by_cases e : j = i
      · rw [e]
      · simp only [State.move, Function.update_of_ne e] at hj
        exact absurd hj (none_held j)
    owner := by
      intro j hj
      obtain rfl : i = j := by simpa using hj
      simpa only [State.move, Function.update_self] using hold
    threads := by
      rw [received]
      intro j
      by_cases e : j = i
      · subst e
        simpa only [State.move, Function.update_self] using ok
      · simpa only [State.move, Function.update_of_ne e] using inv.threads j }

/-- A call that gives the lock back returns what it has taken; a slot it has not
cleared keeps its message. -/
theorem Inv.give_back (inv : Inv r base s rd) {i : Nat} {p : Pc} (held : (s.pc i).Holding)
    (torn : (s.pc i).torn = 0) (hold : ¬p.Holding)
    (ok : PcOk r s.mem rd (base + s.published.length) s.published[s.received.length]? p) :
    Inv r base { s.move i p with owner := none, returned := s.returned ++ (s.pc i).taken } rd := by
  obtain ⟨mine, torn'⟩ := inv.mine held
  have received : State.received
      { s.move i p with owner := none, returned := s.returned ++ (s.pc i).taken } =
        s.received := by
    unfold State.received
    rw [mine]
    exact List.append_nil _
  have slots := inv.slots
  rw [torn', torn] at slots
  exact {
    cached := inv.cached
    read := inv.read
    wr := inv.wr
    count := by rw [received]; exact inv.count
    le := inv.le
    room := inv.room
    order := by rw [received]; exact inv.order
    slots := slots
    holder := by
      intro j hj
      by_cases e : j = i
      · subst e
        simp only [State.move, Function.update_self] at hj
        exact absurd hj hold
      · simp only [State.move, Function.update_of_ne e] at hj
        exact absurd hj (inv.others_free held j e)
    owner := by intro j hj; cases hj
    threads := by
      rw [received]
      intro j
      by_cases e : j = i
      · subst e
        simpa only [State.move, Function.update_self] using ok
      · simpa only [State.move, Function.update_of_ne e] using inv.threads j }

/-- A call that returns without data. -/
theorem Inv.leave (inv : Inv r base s rd) {i : Nat} {p : Pc} (held : (s.pc i).Holding)
    (taken : (s.pc i).taken = []) (torn : (s.pc i).torn = 0) (hold : ¬p.Holding)
    (ok : PcOk r s.mem rd (base + s.published.length) s.published[s.received.length]? p) :
    Inv r base { s.move i p with owner := none } rd := by
  have := inv.give_back held torn hold ok
  rwa [taken, List.append_nil] at this

/-- A change of the memory that no reader of the ring sees. -/
theorem Inv.memory (inv : Inv r base s rd) {m' : Mem}
    (read : word m' r.rdIdxAddr = word s.mem r.rdIdxAddr)
    (wr : word m' r.wrIdxAddr = word s.mem r.wrIdxAddr)
    (same : ∀ j, rd ≤ j → j < base + s.published.length → ∀ x, r.InSlot (j % r.rxDescCount) x →
      m' x = s.mem x) : Inv r base { s with mem := m' } rd := by
  have next : ∀ j msg, s.published[j]? = some msg → base + j < base + s.published.length := by
    intro j msg h
    have := (List.getElem?_eq_some_iff.mp h).1
    omega
  exact {
    cached := inv.cached
    read := read.trans inv.read
    wr := wr.trans inv.wr
    count := inv.count
    le := inv.le
    room := inv.room
    order := inv.order
    slots := by
      intro j msg hj hp
      exact (inv.slots j msg hj hp).congr (same (base + j) (Nat.le_of_add_right_le hp) (next j msg hj))
    holder := inv.holder
    owner := inv.owner
    threads := by
      intro i
      refine (inv.threads i).congr (Nat.le_refl _) (fun _ h => h) fun msg h => ?_
      have lt := next _ msg h
      have := inv.count
      exact same rd (Nat.le_refl _) (by omega) }

/-! ## The steps -/

/-- What lies outside the slots: both indices. -/
theorem words_kept (ap : Apart r) {m' m : Mem} {idx : Nat} (h : idx < r.rxDescCount)
    (same : ∀ x, ¬r.InSlot idx x → m' x = m x) :
    word m' r.rdIdxAddr = word m r.rdIdxAddr ∧ word m' r.wrIdxAddr = word m r.wrIdxAddr := by
  constructor
  · exact word_congr fun x lo hi => same x fun hx => (slot_index ap h hx).2.2 ⟨lo, hi⟩
  · exact word_congr fun x lo hi => same x fun hx => (slot_index ap h hx).2.1 ⟨lo, hi⟩

/-- The slots keep their bytes when only an index word is written. -/
theorem slot_kept (ap : Apart r) {m : Mem} {a v idx x : Nat} (h : idx < r.rxDescCount)
    (ha : a = r.wrIdxAddr ∨ a = r.rdIdxAddr) (hx : r.InSlot idx x) :
    store m a (leBytes 4 v) x = m x := by
  obtain ⟨-, h1, h2⟩ := slot_index ap h hx
  apply store_apply_of_not_mem
  rw [length_leBytes]
  rcases ha with rfl | rfl <;> omega

theorem Inv.room_count (inv : Inv r base s rd) (room : s.Room r) :
    base + s.published.length + 1 < rd + r.rxDescCount := by
  have h := inv.room
  unfold State.Room at room
  rw [inv.wr, inv.read, behind_mod inv.le h] at room
  have := inv.le
  omega

theorem Inv.fill (inv : Inv r base s rd) (ap : Apart r) {m' : Mem} (room : s.Room r)
    (same : ∀ x, ¬r.InSlot (word s.mem r.wrIdxAddr) x → m' x = s.mem x) :
    Inv r base { s with mem := m' } rd := by
  have free := inv.room_count room
  rw [inv.wr] at same
  have lt := fun j => Nat.mod_lt j (count_pos ap)
  obtain ⟨read, wr⟩ := words_kept ap (lt _) same
  apply inv.memory read wr
  intro j lo hi x hx
  apply same
  exact slots_apart ap (lt _) (lt _) (slot_ne hi (by omega)) hx

theorem Inv.elsewhere (inv : Inv r base s rd) (ap : Apart r) {m' : Mem}
    (outside : ∀ x, r.layout.Owns x → m' x = s.mem x) : Inv r base { s with mem := m' } rd := by
  have lt := fun j => Nat.mod_lt j (count_pos ap)
  apply inv.memory
  · apply word_congr
    intro x lo hi
    apply outside
    rw [← rdIdxAddr_layout] at lo hi
    exact .inr (.inr (.inr ⟨lo, hi⟩))
  · apply word_congr
    intro x lo hi
    apply outside
    rw [← wrIdxAddr_layout] at lo hi
    exact .inr (.inr (.inl ⟨lo, hi⟩))
  · intro j _ _ x hx
    exact outside x (slot_index ap (lt _) hx).1

theorem Inv.publish (inv : Inv r base s rd) (ap : Apart r) {msg : Msg} (room : s.Room r)
    (filled : Holds r s.mem (word s.mem r.wrIdxAddr) msg) : Inv r base { s with
      mem := store s.mem r.wrIdxAddr (leBytes 4 ((word s.mem r.wrIdxAddr + 1) % r.rxDescCount))
      published := s.published ++ [msg] } rd := by
  have free := inv.room_count room
  have hn := count_pos ap
  have hlt : r.rxDescCount < 2 ^ 32 := ap.count_lt
  rw [inv.wr] at filled ⊢
  have kept : ∀ j x, r.InSlot (j % r.rxDescCount) x → store s.mem r.wrIdxAddr
      (leBytes 4 (((base + s.published.length) % r.rxDescCount + 1) % r.rxDescCount)) x =
        s.mem x := fun j x hx => slot_kept ap (Nat.mod_lt _ hn) (.inl rfl) hx
  have received := congrArg List.length inv.order
  rw [List.length_take] at received
  exact {
    cached := inv.cached
    read := by
      rw [← inv.read]
      apply word_congr
      intro x lo hi
      apply store_apply_of_not_mem
      have := words_apart ap
      rw [length_leBytes]
      omega
    wr := by
      rw [word_store_same _ _ _ (Nat.lt_trans (Nat.mod_lt _ hn) hlt), succ_mod,
        List.length_append, List.length_singleton, ← Nat.add_assoc]
    count := inv.count
    le := by
      rw [List.length_append]
      exact Nat.le_trans inv.le (by omega)
    room := by
      rw [List.length_append, List.length_singleton]
      omega
    order := by
      show s.received = (s.published ++ [msg]).take s.received.length
      rw [List.take_append_of_le_length (by omega)]
      exact inv.order
    slots := by
      intro j m hj hp
      refine Holds.congr ?_ (kept (base + j))
      by_cases old : j < s.published.length
      · rw [List.getElem?_append_left old] at hj
        exact inv.slots j m hj hp
      · obtain ⟨len, eq⟩ := List.getElem?_eq_some_iff.mp hj
        rw [List.length_append, List.length_singleton] at len
        obtain rfl : j = s.published.length := by omega
        rw [List.getElem_append_right (by omega)] at eq
        simp only [Nat.sub_self, List.getElem_cons_zero] at eq
        rw [← eq]
        exact filled
    holder := inv.holder
    owner := inv.owner
    threads := by
      intro i
      refine (inv.threads i).congr ?_ ?_ fun m _ => kept rd
      · rw [List.length_append]
        omega
      · intro m hm
        have := (List.getElem?_eq_some_iff.mp hm).1
        show (s.published ++ [msg])[s.received.length]? = some m
        rw [List.getElem?_append_left this]
        exact hm }

theorem Inv.clear (inv : Inv r base s rd) (ap : Apart r) {i w a : Nat} {data : Msg} {m' : Mem}
    (at' : s.pc i = .clearing data w a)
    (same : ∀ x, ¬r.InSlot (rd % r.rxDescCount) x → m' x = s.mem x) :
    Inv r base { s.move i (.advancing data w) with mem := m' } rd := by
  have held : (s.pc i).Holding := by rw [at']; trivial
  have lt := fun j => Nat.mod_lt j (count_pos ap)
  obtain ⟨read, wr⟩ := words_kept ap (lt _) same
  obtain ⟨mine, torn⟩ := inv.mine held
  have received : State.received { s.move i (.advancing data w) with mem := m' } =
      s.received := by
    rw [at'] at mine
    unfold State.received
    rw [mine]
    simp [State.inflight, State.move, inv.holder i held, Pc.taken]
  have torn' : State.torn { s.move i (.advancing data w) with mem := m' } = 1 := by
    simp [State.torn, State.move, inv.holder i held, Pc.torn]
  have room := inv.room
  have ok : w = rd % r.rxDescCount ∧ s.published[s.received.length]? = some data := by
    have := inv.threads i
    rwa [at'] at this
  exact {
    cached := inv.cached
    read := read.trans inv.read
    wr := wr.trans inv.wr
    count := by rw [received]; exact inv.count
    le := inv.le
    room := inv.room
    order := by rw [received]; exact inv.order
    slots := by
      rw [torn']
      intro j msg hj hp
      have lt' : j < s.published.length := (List.getElem?_eq_some_iff.mp hj).1
      rw [at'] at torn
      refine (inv.slots j msg hj (by rw [torn]; exact Nat.le_of_succ_le hp)).congr fun x hx => ?_
      apply same
      exact slots_apart ap (lt _) (lt _) (slot_ne hp (by omega)).symm hx
    holder := by
      intro j hj
      by_cases e : j = i
      · subst e
        exact inv.holder j held
      · simp only [State.move, Function.update_of_ne e] at hj
        exact inv.holder j hj
    owner := by
      intro j hj
      by_cases e : j = i
      · subst e
        simp only [State.move, Function.update_self, Pc.Holding]
      · simpa only [State.move, Function.update_of_ne e] using inv.owner j hj
    threads := by
      rw [received]
      intro j
      by_cases e : j = i
      · subst e
        simp only [State.move, Function.update_self]
        exact ok
      · simpa only [State.move, Function.update_of_ne e] using
          (inv.threads j).free (inv.others_free held j e) }

theorem Inv.advance (inv : Inv r base s rd) (ap : Apart r) {i w : Nat} {data : Msg}
    (at' : s.pc i = .advancing data w) : Inv r base { s.move i (.unlocking data) with
      rxRdIdx := (w + 1) % r.rxDescCount
      mem := store s.mem r.rdIdxAddr (leBytes 4 ((w + 1) % r.rxDescCount)) } (rd + 1) := by
  have held : (s.pc i).Holding := by rw [at']; trivial
  have hn := count_pos ap
  have hlt : r.rxDescCount < 2 ^ 32 := ap.count_lt
  obtain ⟨mine, torn⟩ := inv.mine held
  have ok := inv.threads i
  rw [at'] at ok mine torn
  obtain ⟨rfl, next⟩ := ok
  have received : State.received { s.move i (.unlocking data) with
      rxRdIdx := (rd % r.rxDescCount + 1) % r.rxDescCount
      mem := store s.mem r.rdIdxAddr (leBytes 4 ((rd % r.rxDescCount + 1) % r.rxDescCount)) } =
        s.received ++ [data] := by
    unfold State.received
    rw [mine]
    simp [State.inflight, State.move, inv.holder i held, Pc.taken]
  have lt := (List.getElem?_eq_some_iff.mp next).1
  have count := inv.count
  have kept : ∀ j x, r.InSlot (j % r.rxDescCount) x → store s.mem r.rdIdxAddr
      (leBytes 4 ((rd % r.rxDescCount + 1) % r.rxDescCount)) x = s.mem x :=
    fun j x hx => slot_kept ap (Nat.mod_lt _ hn) (.inr rfl) hx
  have room := inv.room
  exact {
    cached := succ_mod _ _
    read := by
      rw [word_store_same _ _ _ (Nat.lt_trans (Nat.mod_lt _ hn) hlt)]
      exact succ_mod _ _
    wr := by
      refine Eq.trans ?_ inv.wr
      apply word_congr
      intro x lo hi
      apply store_apply_of_not_mem
      have := words_apart ap
      rw [length_leBytes]
      omega
    count := by
      rw [received, List.length_append, List.length_singleton]
      omega
    le := by simp only [State.move]; omega
    room := by simp only [State.move]; omega
    order := by
      rw [received, List.length_append, List.length_singleton]
      show s.received ++ [data] = s.published.take (s.received.length + 1)
      rw [List.take_add_one, next, ← inv.order]
      rfl
    slots := by
      intro j msg hj hp
      refine Holds.congr (inv.slots j msg hj ?_) (kept (base + j))
      rw [torn]
      exact Nat.le_of_add_right_le hp
    holder := by
      intro j hj
      by_cases e : j = i
      · subst e
        exact inv.holder j held
      · simp only [State.move, Function.update_of_ne e] at hj
        exact inv.holder j hj
    owner := by
      intro j hj
      by_cases e : j = i
      · subst e
        simp only [State.move, Function.update_self, Pc.Holding]
      · simpa only [State.move, Function.update_of_ne e] using inv.owner j hj
    threads := by
      intro j
      by_cases e : j = i
      · subst e
        simp only [State.move, Function.update_self, PcOk]
      · simpa only [State.move, Function.update_of_ne e] using
          (inv.threads j).free (inv.others_free held j e) }

/-- The oldest message that is not returned, while there is one. -/
theorem Inv.next (inv : Inv r base s rd) (torn : s.torn = 0)
    (some : rd < base + s.published.length) : ∃ msg, s.published[s.received.length]? = .some msg ∧
      Holds r s.mem (rd % r.rxDescCount) msg := by
  have count := inv.count
  have lt : s.received.length < s.published.length := by omega
  have holds := inv.slots _ _ (List.getElem?_eq_getElem lt) (by omega)
  rw [← count] at holds
  exact ⟨_, List.getElem?_eq_getElem lt, holds⟩

/-- The index test tells an empty ring. -/
theorem Inv.nonempty_iff (inv : Inv r base s rd) :
    word s.mem r.wrIdxAddr ≠ s.rxRdIdx ↔ rd < base + s.published.length := by
  rw [inv.wr, inv.cached]
  have := mod_eq_iff inv.le inv.room
  have := inv.le
  constructor
  · intro ne
    by_contra no
    exact ne (by rw [show rd = base + s.published.length by omega])
  · intro lt eq
    have := this
    have := (mod_eq_iff inv.le inv.room).mp eq.symm
    omega

/-- What is known once the descriptor has been read. -/
theorem Inv.fetch (inv : Inv r base s rd) {i w : Nat} {call : Call}
    (at' : s.pc i = .fetching call w) : Inv r base (s.fetched r i call w) rd := by
  have held : (s.pc i).Holding := by rw [at']; trivial
  have ok := inv.threads i
  rw [at'] at ok
  obtain ⟨rfl, lt⟩ := ok
  have torn := (inv.mine held).2
  rw [at'] at torn
  obtain ⟨msg, next, holds⟩ := inv.next torn lt
  have left : Inv r base { s.unlock i with rxErrors := s.rxErrors + 1 } rd := by
    have := inv.leave (p := .idle) held (by rw [at']; rfl) (by rw [at']; rfl) not_false trivial
    exact { this with }
  unfold State.fetched
  split
  · exact left
  · split
    · exact left
    · apply inv.move (by rw [at']; rfl) (by rw [at']; rfl) (by rw [at']; exact Iff.rfl)
      exact ⟨rfl, msg, next, holds, rfl, holds.len⟩

theorem Inv.look (inv : Inv r base s rd) {i : Nat} {call : Call}
    (at' : s.pc i = .looking call) :
    Inv r base (s.looked r i call (word s.mem r.wrIdxAddr)) rd := by
  have held : (s.pc i).Holding := by rw [at']; trivial
  have empty := available_zero inv.le inv.room
  unfold State.looked
  rw [inv.wr, inv.cached]
  split
  · split
    · exact inv.leave held (by rw [at']; rfl) (by rw [at']; rfl) not_false trivial
    · exact inv.leave held (by rw [at']; rfl) (by rw [at']; rfl) not_false trivial
  · apply inv.move (by rw [at']; rfl) (by rw [at']; rfl) (by rw [at']; exact Iff.rfl)
    rename_i some
    have := inv.le
    rw [empty] at some
    exact ⟨rfl, by omega⟩

theorem step_inv (ap : Apart r) (inv : Inv r base s rd) (h : Step r false s t) :
    ∃ rd', Inv r base t rd' := by
  cases h with
  | call i call idle pos =>
    exact ⟨rd, inv.move (by rw [idle]; rfl) (by rw [idle]; rfl) (by rw [idle]; exact Iff.rfl) trivial⟩
  | timeout i call at' =>
    exact ⟨rd, inv.move (by rw [at']; rfl) (by rw [at']; rfl) (by rw [at']; exact Iff.rfl) trivial⟩
  | lock i call at' free => exact ⟨rd, inv.take_lock free rfl rfl trivial trivial⟩
  | look i call at' => exact ⟨rd, inv.look at'⟩
  | giveUp i call at' =>
    exact ⟨rd, inv.move (by rw [at']; rfl) (by rw [at']; rfl) (by rw [at']; exact Iff.rfl) trivial⟩
  | take i call at' given =>
    have := inv.move (i := i) (p := .relocking call) (by rw [at']; rfl) (by rw [at']; rfl)
      (by rw [at']; exact Iff.rfl) trivial
    exact ⟨rd, { this with }⟩
  | relock i call at' free => exact ⟨rd, inv.take_lock free rfl rfl trivial trivial⟩
  | reread i call at' allowed =>
    have ready := allowed.resolve_left Bool.false_ne_true
    exact ⟨rd, inv.move (by rw [at']; rfl) (by rw [at']; rfl) (by rw [at']; exact Iff.rfl)
      ⟨inv.cached, inv.nonempty_iff.mp ready⟩⟩
  | fetch i call w at' => exact ⟨rd, inv.fetch at'⟩
  | load i w a len at' some =>
    have ok := inv.threads i
    rw [at'] at ok
    obtain ⟨rfl, msg, next, holds, rfl, rfl⟩ := ok
    refine ⟨rd, inv.move (by rw [at']; rfl) (by rw [at']; rfl) (by rw [at']; exact Iff.rfl) ?_⟩
    rw [holds.buf]
    exact ⟨rfl, next⟩
  | refuse i w a at' =>
    exact ⟨rd, inv.leave (p := .idle) (by rw [at']; trivial) (by rw [at']; rfl) (by rw [at']; rfl)
      not_false trivial⟩
  | clear i data w a at' =>
    have ok := inv.threads i
    rw [at'] at ok
    obtain ⟨rfl, -⟩ := ok
    refine ⟨rd, inv.clear ap at' fun x hx => ?_⟩
    apply store_apply_of_not_mem
    have : ¬(r.descAddr (rd % r.rxDescCount) ≤ x ∧ x < r.descAddr (rd % r.rxDescCount) + 8) :=
      fun h => hx (.inr h)
    rw [show (cleared a).length = 8 by simp [cleared]]
    omega
  | advance i data w at' => exact ⟨rd + 1, inv.advance ap at'⟩
  | unlock i data at' =>
    have := inv.give_back (i := i) (p := .idle) (by rw [at']; trivial) (by rw [at']; rfl) not_false
      trivial
    rw [at'] at this
    exact ⟨rd, this⟩
  | interrupt => exact ⟨rd, { inv with }⟩
  | fill m' room same => exact ⟨rd, inv.fill ap room same⟩
  | publish msg room filled => exact ⟨rd, inv.publish ap room filled⟩
  | elsewhere m' outside => exact ⟨rd, inv.elsewhere ap outside⟩

theorem start_inv (ap : Apart r) (start : Start r s) : Inv r s.rxRdIdx s s.rxRdIdx := by
  have hn := count_pos ap
  have hrd := start.rd_lt
  have hwr := start.wr_lt
  have received : s.received = [] := by
    simp [State.received, State.inflight, start.free, start.returned]
  have count := start.count
  have lt : s.published.length < r.rxDescCount := by
    rw [count]
    exact Nat.mod_lt _ hn
  exact {
    cached := (Nat.mod_eq_of_lt hrd).symm
    read := by rw [← start.rd]; exact (Nat.mod_eq_of_lt hrd).symm
    wr := by
      rw [count, behind, Nat.add_mod_mod, show s.rxRdIdx + (word s.mem r.wrIdxAddr +
        r.rxDescCount - s.rxRdIdx) = word s.mem r.wrIdxAddr + r.rxDescCount by omega,
        Nat.add_mod_right, Nat.mod_eq_of_lt hwr]
    count := by rw [received]; rfl
    le := Nat.le_add_right _ _
    room := by omega
    order := by rw [received]; rfl
    slots := fun j msg hj _ => start.filled j msg hj
    holder := by
      intro i hi
      rw [start.idle i] at hi
      exact hi.elim
    owner := by simp [start.free]
    threads := by
      intro i
      rw [start.idle i]
      trivial }

theorem reachable_inv (ap : Apart r) {s₀ : State} (start : Start r s₀)
    (run : Reachable r false s₀ s) : ∃ rd, Inv r s₀.rxRdIdx s rd := by
  induction run with
  | start => exact ⟨_, start_inv ap start⟩
  | next _ step ih =>
    obtain ⟨rd, inv⟩ := ih
    exact step_inv ap inv step

/-! ## What receivers see -/

/-- Descriptors are read only while they are published, and messages come back once
each and in order. -/
structure Receives (r : Ring) (s : State) : Prop where
  nonempty : ∀ i call w, s.pc i = .fetching call w →
    w = s.rxRdIdx ∧ word s.mem r.wrIdxAddr ≠ s.rxRdIdx
  valid : ∀ i call w, s.pc i = .fetching call w → descFlags s.mem (r.descAddr w) % 2 = 1
  behind : s.received.length ≤ s.published.length ∧
    behind r.rxDescCount (word s.mem r.wrIdxAddr) s.rxRdIdx =
      s.published.length - s.received.length
  order : s.received = s.published.take s.received.length

/-- A ring of two slots with an empty memory. -/
def smallRing : Ring where
  ctrlBlockAddr := 0
  ringId := 0
  rxDescBase := 400
  rxDescCount := 2
  rxBufSize := 4
  rxBufBase := 500

def smallStart : State where
  mem := fun _ => 0
  rxRdIdx := 0
  owner := none
  pc := fun _ => .idle
  rxSem := 0
  rxErrors := 0
  returned := []
  published := []

end Qapp.RingRx
